import SkipGraph.SequentialJoins

/-!
# Joins into different gaps

Joins that share no gap of the list end in the same level-0 tables as joins one after
another, as long as no search is answered by a node that is itself still being linked.
-/

namespace SkipGraph

open Transition StrictOrder BaseNode

namespace Sys

variable {s t t' : Sys} {I J M : Finset Identifier} {x : Identifier} {d : Direction}

theorem Listed.entry_id_eq (h : s.Listed M) (h' : t.Listed M) (hx : x ∈ M) :
    (s.entry x 0 d).map Identity.id = (t.entry x 0 d).map Identity.id := by
  cases he : s.entry x 0 d with
  | none =>
    cases he' : t.entry x 0 d with
    | none => rfl
    | some f =>
      have hn := h'.next x hx d f he'
      exact absurd hn.after (h.last x hx d he f.id hn.mem)
  | some e =>
    have hn := h.next x hx d e he
    obtain ⟨f,hf,hfn⟩ := h'.entry_of_lt hx hn.mem hn.after
    rw [hf]
    exact congrArg some (hn.unique hfn)

theorem Honest.entry_eq (hs : s.Honest) (ht : t.Honest) (hm : t.members = s.members)
    (hid : ∀ x, t.identity x = s.identity x) (hx : x ∈ s.members) {l : ℕ}
    (h : (s.entry x l d).map Identity.id = (t.entry x l d).map Identity.id) :
    s.entry x l d = t.entry x l d := by
  cases he : s.entry x l d with
  | none => simpa [he,eq_comm] using h
  | some e =>
    cases hf : t.entry x l d with
    | none => simp [he,hf] at h
    | some f =>
      have hef : e.id = f.id := by simpa [he,hf] using h
      have hgen := (hs.entries x hx l d e he).2
      have hgen' := (ht.entries x (hm ▸ hx) l d f hf).2
      rw [hgen,hgen',hid,hef]

theorem identity_run {ok : Sys → Action → Prop} {as : List Action} (h : Trace Sys.step ok s as t) :
    t.members = s.members ∧ ∀ x, t.identity x = s.identity x :=
  h.invariant (P := fun t => t.members = s.members ∧ ∀ x, t.identity x = s.identity x)
    ⟨rfl,fun _ => rfl⟩ fun _ _ _ hi _ hs =>
      ⟨(members_step hs).trans hi.1,fun x => (identity_step hs x).trans (hi.2 x)⟩

theorem JoinsInTurn.trace {us : List Identifier} (h : JoinsInTurn I s us t) :
    ∃ as, Trace Sys.step (fun _ _ => True) s as t := by
  induction h with
  | nil => exact ⟨[],.nil s⟩
  | snoc _ _ hrun _ ih =>
    obtain ⟨as,htr⟩ := ih
    obtain ⟨nonce,s₁,-,h₁,htr₁⟩ := hrun
    exact ⟨_,htr.append (.cons h₁ trivial (htr₁.mono fun _ _ _ => trivial))⟩

/-- Joins into different gaps all succeed and complete the list, in every order of the
messages, provided that every search that reaches a joining node finds its slot filled or
no initial node past it. In an honest system the level-0 tables are those of the same
joins one after another. -/
theorem independent_joins {as : List Action} (hr : s.Ready I) (hsub : J ⊆ s.members)
    (hdis : ∀ u ∈ J, u ∉ I) (hap : Apart I J)
    (h : Trace Sys.step (fun s a => JoinsOnce I J s a ∧ s.DrawsFresh a ∧
      Filled Event.searchSide? I s a) s as t)
    (hq : t.Quiet) (hall : ∀ u ∈ J, (t.node u).calls ≠ []) :
    (∀ u ∈ J, (t.node u).calls = [.returned (.ok .joined)]) ∧ t.Listed (I ∪ J) ∧
    (s.Honest → ∀ us t', JoinsInTurn I s us t' → us.toFinset = J →
      ∀ x ∈ I ∪ J, ∀ d, t.entry x 0 d = t'.entry x 0 d) := by
  have hstart := hr.initial.gapInv hr.inflight hsub hdis hap fun u hu =>
    hr.fresh u (hsub hu) (hdis u hu)
  have hi : GapInv I J t := h.invariant hstart fun _ _ _ hi hok hs =>
    hi.step hok.1 hok.2.1 (.inr hok.2.2) hs
  have hret : ∀ u ∈ J, (t.node u).calls = [.returned (.ok .joined)] := fun u hu =>
    hi.returned hq hu (hall u hu)
  have hlisted := hi.listed fun u hu d he => hi.isLast_of_joined hu (hret u hu) he
  refine ⟨hret,hlisted,?_⟩
  rintro hh us t' hturn rfl x hx d
  obtain ⟨bs,htr⟩ := hturn.trace
  obtain ⟨hm,hid⟩ := identity_run h
  obtain ⟨hm',hid'⟩ := identity_run htr
  have hlisted' := (hturn.ready hr).1.initial.listed
  exact (hh.run h).entry_eq (hh.run htr) (hm'.trans hm.symm)
    (fun x => (hid' x).trans (hid x).symm) (hi.subset hx) (hlisted.entry_id_eq hlisted' hx)

/-- Node 2 joins between nodes 1 and 3, node 4 behind node 3. Node 1 has accepted node 2,
which does not yet know of node 3, so the search of node 4 ends there and node 4 is linked
to node 2. -/
theorem independent_joins_misled :
    ∃ as t, Trace Sys.step (fun s a => JoinsOnce {.ofByte 1,.ofByte 3} {.ofByte 2,.ofByte 4} s a ∧
        s.DrawsFresh a) (row [.ofByte 1,.ofByte 3] [.ofByte 2,.ofByte 4]) as t ∧ t.Quiet ∧
      Apart {.ofByte 1,.ofByte 3} {.ofByte 2,.ofByte 4} ∧
      (∀ u ∈ ({.ofByte 2,.ofByte 4} : Finset Identifier),
        (t.node u).calls = [.returned (.ok .joined)]) ∧
      ¬ t.Listed t.members := by
  let I : Finset Identifier := {.ofByte 1,.ofByte 3}
  let J : Finset Identifier := {.ofByte 2,.ofByte 4}
  let join (x : UInt8) (k : ℕ) : Action :=
    .call (.ofByte x) (.joinStage1LinkLevel0 (.ofByte 1) 0 ⟨k⟩)
  let wake (x : UInt8) (k : ℕ) : Action := .call (.ofByte x) (.wake 0 0 ⟨k⟩ ⟨k+1⟩)
  let run : List Action :=
    [join 2 20,.deliver 0,.deliver 0,wake 2 21,.deliver 0,.deliver 0,wake 2 23,.deliver 0,
      join 4 40,.deliver 2,.deliver 2,.deliver 2,wake 4 41,.deliver 2,.deliver 2,wake 4 43,
      .deliver 2,.deliver 2,wake 4 45,
      .deliver 0,.deliver 0,.deliver 0,wake 2 25,wake 2 27]
  obtain ⟨t,ht,hc⟩ := exists_trace_of_runWhile Sys.step
    (fun s a => decide (JoinsOnce I J s a ∧ s.DrawsFresh a))
    (row [.ofByte 1,.ofByte 3] [.ofByte 2,.ofByte 4]) run
    (fun t => decide (t.inflight = [] ∧ (∀ x ∈ t.members, (t.node x).waits = []) ∧
      (∀ u ∈ J, (t.node u).calls = [.returned (.ok .joined)]) ∧ Identifier.ofByte 3 ∈ t.members ∧
      Identifier.ofByte 4 ∈ t.members ∧ t.entry (.ofByte 3) 0 .right = none)) (by decide +kernel)
  obtain ⟨hin,hw,hret,h3,h4,he⟩ := of_decide_eq_true hc
  refine ⟨run,t,ht.mono fun _ _ h => of_decide_eq_true h,quiet_of_waits hin hw,by decide,hret,
    fun hl => ?_⟩
  exact hl.last (.ofByte 3) h3 .right he (.ofByte 4) h4 (by decide)

/-- Nodes 2 and 4 join at the same time through node 1. The search of node 4 reaches node 1
when node 2 is linked and still joining, and node 2 relays it to node 3. -/
theorem independent_joins_interleaved :
    ∃ t : Sys, t.Listed ([.ofByte 1,.ofByte 3].toFinset ∪ {.ofByte 2,.ofByte 4}) := by
  let I : Finset Identifier := [.ofByte 1,.ofByte 3].toFinset
  let J : Finset Identifier := {.ofByte 2,.ofByte 4}
  let join (x : UInt8) (k : ℕ) : Action :=
    .call (.ofByte x) (.joinStage1LinkLevel0 (.ofByte 1) 0 ⟨k⟩)
  let wake (x : UInt8) (k : ℕ) : Action := .call (.ofByte x) (.wake 0 0 ⟨k⟩ ⟨k+1⟩)
  let run : List Action :=
    [join 4 40,join 2 20,.deliver 1,.deliver 1,wake 2 21,.deliver 1,.deliver 1,wake 2 23,
      .deliver 1,.deliver 1,.deliver 1,.deliver 1,
      .deliver 0,.deliver 0,.deliver 0,.deliver 0,wake 4 41,.deliver 0,.deliver 0,wake 4 43,
      .deliver 0,.deliver 0,wake 2 25,wake 4 45,wake 2 27]
  obtain ⟨t,ht,hc⟩ := exists_trace_of_runWhile Sys.step
    (fun s a => decide (JoinsOnce I J s a ∧ s.DrawsFresh a ∧ Filled Event.searchSide? I s a))
    (row [.ofByte 1,.ofByte 3] [.ofByte 2,.ofByte 4]) run
    (fun t => decide (t.inflight = [] ∧ (∀ x ∈ t.members, (t.node x).waits = []) ∧
      ∀ u ∈ J, (t.node u).calls ≠ [])) (by decide +kernel)
  obtain ⟨hin,hw,hall⟩ := of_decide_eq_true hc
  exact ⟨t,(independent_joins (ready_row _ _) (by decide) (by decide) (by decide)
    (ht.mono fun _ _ h => of_decide_eq_true h) (quiet_of_waits hin hw) hall).2.1⟩

end Sys

end SkipGraph
