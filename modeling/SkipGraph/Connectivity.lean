import SkipGraph.InitialNodes
import Mathlib.Logic.Relation

/-!
# Connectivity under concurrent joins

Joins that overlap may evict each other's pointers. They keep the level-0 graph in one
piece as long as no neighbour query is answered "none" by a node that is itself still
being linked and has an initial node on that side: then every joined node points
towards every initial node, and the pointers never reach across one.
-/

namespace SkipGraph

open Transition StrictOrder BaseNode

/-- The call has failed, or has asked a node on the wrong side of `u` for a link. -/
def Call.Doomed (u : Identifier) : Call → Prop
  | .joinLink d _ (some q) _ (some _) => ¬ d.lt u q.id
  | .returned (.error _) => True
  | .cancelled => True
  | _ => False

namespace Sys

variable {s t : Sys} {a : Action} {I : Finset Identifier} {u : Identifier} {spec : JoinSpec}

theorem Call.doomed_settled {d : Direction} {anchor : Identifier} {q : Identity} {sl f : LinkFuture}
    (hf : s.FutureOk u q.id d.opposite f) (hq : ¬ d.lt u q.id) :
    (Call.settled d anchor (some q) sl (some f)).Doomed u := by
  rcases f with rt | (e | v)
  · rcases sl with rt' | r <;> exact hq
  · rcases sl with rt' | (e' | v)
    · exact hq
    · trivial
    · trivial
  · exact absurd (by simpa using hf.1) hq

theorem JoinInv.doomed_change (hi : s.JoinInv spec) (hu : u ∈ s.members) {ca : CallAction}
    {ended : List Nonce} {new : List RoundTrip} {calls : List Call}
    (h : Change (s.node u) ca ended new calls) (hd : ∃ c ∈ (s.node u).calls, c.Doomed u) :
    ∃ c ∈ calls, c.Doomed u := by
  refine change_persists h trivial (fun call hc hdoom rt hm result new' call' hends hr => ?_) hd
  cases hr with
  | link d anchor q sl ql =>
    rcases q with _ | q <;> rcases ql with _ | f <;> try exact hdoom.elim
    have hok := hi.calls u hu _ hc
    exact Call.doomed_settled (FutureOk.settle hok.2.2.2.2 (hi.ends hu hc hm hends)) hdoom
  | _ => exact hdoom.elim

def SomeDoomed (s : Sys) : Prop := ∃ u ∈ s.members, ∃ c ∈ (s.node u).calls, c.Doomed u

theorem SomeDoomed.step (hi : s.JoinInv spec) (h : s.step a = some t) (hd : s.SomeDoomed) :
    t.SomeDoomed := by
  obtain ⟨u,hu,hc⟩ := hd
  refine ⟨u,by rw [members_step h]; exact hu,?_⟩
  rcases calls_step h u with hcalls | ⟨ca,r,ended,new,n₁,-,-,hseg⟩
  · rwa [hcalls]
  · exact hi.doomed_change hu hseg.change hc

def anyJoin : JoinSpec := ⟨fun _ => False,fun _ _ _ => True,fun _ _ _ => True,fun _ _ _ _ => True⟩

theorem serves_anyJoin (s : Sys) (a : Action) : Serves anyJoin s a where
  start _ _ _ _ _ _ _ _ := trivial
  relay _ _ _ _ _ _ _ _ _ _ _ _ _ _ _ _ _ := trivial
  answer _ _ _ _ _ _ _ _ _ _ _ _ _ := trivial
  neighbor _ _ _ _ _ _ _ _ _ _ _ _ := trivial

/-- An anchor names a neighbour across no initial node, and names none only when no
initial node lies on that side. -/
def facing (I : Finset Identifier) : JoinSpec where
  joiners u := u ∉ I
  hop u d x := d.le x u
  anchor u d x := d.le x u
  neighbor _ d x q := (q = none → IsLast d.lt I x) ∧ ∀ e, q = some e → Clear I d x e.id

theorem ClearInv.serves_facing (hi : ClearInv I s) (hf : Filled Event.querySide? I s a) :
    Serves (facing I) s a where
  start _ _ _ _ _ _ _ hd := Direction.le_of_lt hd
  relay _ _ _ _ _ _ _ _ _ _ _ _ _ _ _ _ hle := hle
  answer _ _ _ _ _ _ _ _ _ _ _ hhop _ := hhop
  neighbor i x u nonce d _ _ hx ha hget _ _ := by
    subst ha
    exact ⟨hi.isLast_of_empty hf hget rfl,hi.entries x hx d⟩

structure FacingInv (I : Finset Identifier) (s : Sys) : Prop where
  sided : s.Sided
  known : s.Known
  channels : s.ChannelsInv
  joins : s.JoinInv (facing I)
  clear : ClearInv I s

theorem FacingInv.step (hi : FacingInv I s) (hj : s.JoinStep a)
    (hf : Filled Event.querySide? I s a) (h : s.step a = some t) (hd : ¬ t.SomeDoomed) :
    FacingInv I t := by
  have hjt := hi.joins.step hi.channels hi.sided hj.1 hj.2 (hi.clear.serves_facing hf) h
  refine ⟨hi.sided.step h,hi.known.step hi.sided h,hi.channels.step h,hjt,
    hi.clear.step hi.joins hi.sided hj.1 h ?_⟩
  intro u hu d anchor q _ ha hn hc
  obtain ⟨sl,ql,hc⟩ := hc
  have hut : u ∈ t.members := by rwa [members_step h]
  rcases q with _ | e
  · exact ⟨clear_of_isLast (hn.1 rfl),by simp⟩
  · have hok := (hjt.calls u hut _ hc).2.2.2.2
    have hclear := hn.2 e rfl
    have hlt : d.lt u e.id := by
      rcases ql with _ | f
      · exact hok.elim
      · by_contra hlt
        exact hd ⟨u,hut,_,hc,hlt⟩
    refine ⟨hclear.mono_right (Direction.le_of_lt hlt),?_⟩
    rintro _ ⟨rfl⟩
    exact (hclear.mono_left ha).symm

def Linked (s : Sys) (x y : Identifier) : Prop :=
  x ∈ s.members ∧ ∃ d e, s.entry x 0 d = some e ∧ e.id = y

/-- The undirected level-0 graph on all members is connected. -/
def Connected (s : Sys) : Prop :=
  ∀ x ∈ s.members, ∀ y ∈ s.members, Relation.EqvGen s.Linked x y

theorem Joined.entry_towards (hj : s.Joined (facing I) u) {i : Identifier} (hi : i ∈ I)
    {d : Direction} (hlt : d.lt u i) : ∃ e, s.entry u 0 d = some e := by
  obtain ⟨d',anchor,q,-,hn,hanchor,hq⟩ := hj
  rcases Direction.eq_or_eq_opposite d' d with rfl | rfl
  · rcases q with _ | q
    · exact absurd (Direction.lt_trans hanchor.1 hlt) (hn.1 rfl i hi)
    · obtain ⟨-,e,he⟩ := hq q rfl
      exact ⟨e,by simpa using he⟩
  · exact hanchor.2

theorem FacingInv.linked_initial (hi : FacingInv I s)
    (hjoined : ∀ u ∈ s.members, u ∉ I → s.Joined (facing I) u) {i x : Identifier} (hI : i ∈ I)
    (hx : x ∈ s.members) {d : Direction} (hle : d.le x i) : Relation.EqvGen s.Linked x i := by
  induction hc : (past d.lt s.members x).card using Nat.strong_induction_on generalizing x with
  | _ c ih =>
  by_cases hne : x = i
  · rw [hne]
    exact .refl i
  · have hlt := Direction.lt_of_le_of_ne hle hne
    have hslot : ∃ e, s.entry x 0 d = some e := by
      by_cases hxI : x ∈ I
      · cases he : s.entry x 0 d with
        | none => exact absurd hlt (hi.clear.ends x hxI d he i hI)
        | some e => exact ⟨e,rfl⟩
      · exact (hjoined x hx hxI).entry_towards hI hlt
    obtain ⟨e,he⟩ := hslot
    have hmem := hi.known.entries x hx 0 d e he
    have hei : d.le e.id i := Direction.not_lt.mp (hi.clear.entries x hx d e he i hI hlt)
    have hcard := card_past_lt hmem (hi.sided x hx 0 d e he)
    exact .trans _ _ _ (.rel _ _ ⟨hx,d,e,he,rfl⟩) (ih _ (hc ▸ hcard) hmem hei rfl)

/-- Concurrent joins that all succeed leave a connected level-0 graph, provided that no
node outside the initial list answered a neighbour query from an empty slot although an
initial node lay on that side. -/
theorem concurrent_joins_connected {as : List Action} (hI : s.Initial I) (hne : I.Nonempty)
    (hin : s.inflight = []) (hfresh : ∀ x ∈ s.members, (s.node x).calls = [])
    (h : Trace Sys.step (fun s a => s.JoinStep a ∧ Filled Event.querySide? I s a) s as t)
    (hjoined : ∀ x ∈ t.members, x ∉ I → (t.node x).calls ≠ [])
    (hok : ∀ x ∈ t.members, ∀ c ∈ (t.node x).calls, c = .returned (.ok .joined)) :
    t.Connected := by
  have hnd : ¬ t.SomeDoomed := by
    rintro ⟨u,hu,c,hc,hd⟩
    rw [hok u hu c hc] at hd
    exact hd
  have htr := (h.avoids (P := SomeDoomed)
    (Q := fun s => s.Sided ∧ s.ChannelsInv ∧ s.JoinInv anyJoin)
    ⟨hI.sided,hI.resting.channelsInv,hI.resting.joinInv fun _ _ => False.elim⟩
    (fun s a t hq hj hs => ⟨hq.1.step hs,hq.2.1.step hs,
      hq.2.2.step hq.2.1 hq.1 hj.1.1 hj.1.2 (serves_anyJoin s a) hs⟩)
    (fun s a t hq _ hs hd => hd.step hq.2.2 hs) hnd).2
  have hi : FacingInv I t := by
    refine htr.invariant (P := FacingInv I) ⟨hI.sided,⟨?_,by simp [hin]⟩,hI.resting.channelsInv,
      hI.resting.joinInv fun u hu _ => hfresh u hu,hI.clearInv (by simp [hin])⟩ ?_
    · exact fun x hx l d e he => hI.subset (hI.entries x hx l d e he)
    · exact fun s a t hi hok hs => hi.step hok.1.1 hok.1.2 hs (hok.2 t hs)
  have hj : ∀ u ∈ t.members, u ∉ I → t.Joined (facing I) u := by
    intro u hu huI
    obtain ⟨c,hc⟩ := List.exists_mem_of_ne_nil _ (hjoined u hu huI)
    have hcall := hi.joins.calls u hu c hc
    rw [hok u hu c hc] at hcall
    exact hcall huI
  obtain ⟨i,hiI⟩ := hne
  have hreach : ∀ x ∈ t.members, Relation.EqvGen t.Linked x i := by
    intro x hx
    rcases Direction.le_total .right x i with hle | hle
    · exact hi.linked_initial hj hiI hx hle
    · exact hi.linked_initial hj hiI hx (d := .left) hle
  exact fun x hx y hy => .trans _ _ _ (hreach x hx) (.symm _ _ (hreach y hy))

/-- Pointers that never leave a set of nodes keep it apart from the others. -/
theorem not_connected_of_closed {A : Finset Identifier} {x y : Identifier} (hx : x ∈ s.members)
    (hy : y ∈ s.members) (hxA : x ∈ A) (hyA : y ∉ A)
    (h : ∀ x ∈ s.members, ∀ d e, s.entry x 0 d = some e → (x ∈ A ↔ e.id ∈ A)) : ¬ s.Connected := by
  intro hc
  have hiff : ∀ {a b}, Relation.EqvGen s.Linked a b → (a ∈ A ↔ b ∈ A) := by
    intro a b hab
    induction hab with
    | rel a b hl =>
      obtain ⟨ha,d,e,he,rfl⟩ := hl
      exact h a ha d e he
    | refl a => rfl
    | symm a b _ ih => exact ih.symm
    | trans a b c _ _ ih ih' => exact ih.trans ih'
  exact hyA ((hiff (hc x hx y hy)).mp hxA)

/-- The introducer of a join is an initial node or has itself joined. -/
def Introduced (I : Finset Identifier) (s : Sys) : Action → Prop
  | .call _ (.joinStage1LinkLevel0 introducer _ _) =>
    introducer ∈ I ∨ .returned (.ok .joined) ∈ (s.node introducer).calls
  | _ => True

instance (I : Finset Identifier) (s : Sys) (a : Action) : Decidable (Introduced I s a) :=
  match a with
  | .call _ (.joinStage1LinkLevel0 introducer _ _) =>
    inferInstanceAs (Decidable (introducer ∈ I ∨ _))
  | .call _ (.searchById _) => isTrue trivial
  | .call _ (.getMaxLevel _ _) => isTrue trivial
  | .call _ (.getNeighbor _ _ _ _) => isTrue trivial
  | .call _ (.sendLinkRequest _ _ _ _) => isTrue trivial
  | .call _ (.wake _ _ _ _) => isTrue trivial
  | .call _ (.timeout _ _) => isTrue trivial
  | .call _ (.cancel _) => isTrue trivial
  | .deliver _ => isTrue trivial
  | .lose _ => isTrue trivial

/-- Five nodes, node 1 initial. Nodes 4 and 2 find anchor 1 without a neighbour. Node 1
accepts node 4, but the `SetLinkOp` to node 4 is late. Node 5 joins behind node 4, and
node 3 joins through node 5: it is told by node 4 that nothing lies to the left. The late
pointer of node 4 to node 1 is then overwritten by node 3, and that of node 1 to node 4
by node 2. -/
theorem concurrent_joins_partition :
    ∃ as t, Trace Sys.step (fun s a => s.JoinStep a ∧ Introduced {.ofByte 1} s a ∧ a.loses = false)
        (row [.ofByte 1] [.ofByte 2,.ofByte 3,.ofByte 4,.ofByte 5]) as t ∧ t.inflight = [] ∧
      (∀ x ∈ t.members, x ≠ .ofByte 1 → (t.node x).calls = [.returned (.ok .joined)]) ∧
      ¬ t.Connected := by
  let join (x i : UInt8) (k : ℕ) : Action :=
    .call (.ofByte x) (.joinStage1LinkLevel0 (.ofByte i) 0 ⟨k⟩)
  let wake (x : UInt8) (k : ℕ) : Action := .call (.ofByte x) (.wake 0 0 ⟨k⟩ ⟨k+1⟩)
  let I : Finset Identifier := {.ofByte 1}
  let A : Finset Identifier := {.ofByte 1,.ofByte 2}
  let run : List Action :=
    [join 4 1 10,.deliver 0,.deliver 0,wake 4 11,.deliver 0,.deliver 0,wake 4 12,
      join 2 1 20,.deliver 1,.deliver 1,wake 2 21,.deliver 1,.deliver 1,wake 2 22,
      .deliver 0,
      join 5 1 50,.deliver 2,.deliver 2,.deliver 2,wake 5 51,.deliver 2,.deliver 2,wake 5 52,
      .deliver 2,.deliver 2,wake 5 53,
      join 3 5 30,.deliver 2,.deliver 2,.deliver 2,wake 3 31,.deliver 2,.deliver 2,wake 3 32,
      .deliver 1,wake 4 40,.deliver 1,.deliver 1,wake 3 60,.deliver 0,.deliver 0,wake 2 70]
  obtain ⟨t,ht,hc⟩ := exists_trace_of_runWhile Sys.step
    (fun s a => decide (s.JoinStep a ∧ Introduced I s a ∧ a.loses = false))
    (row [.ofByte 1] [.ofByte 2,.ofByte 3,.ofByte 4,.ofByte 5]) run
    (fun t => decide (t.inflight = [] ∧ Identifier.ofByte 1 ∈ t.members ∧
      Identifier.ofByte 3 ∈ t.members ∧
      (∀ x ∈ t.members, x ≠ .ofByte 1 → (t.node x).calls = [.returned (.ok .joined)]) ∧
      ∀ x ∈ t.members, ∀ d e, t.entry x 0 d = some e → (x ∈ A ↔ e.id ∈ A))) (by decide +kernel)
  obtain ⟨hin,h1,h3,hcalls,hclosed⟩ := of_decide_eq_true hc
  exact ⟨run,t,ht.mono fun _ _ h => of_decide_eq_true h,hin,hcalls,
    not_connected_of_closed h1 h3 (by decide) (by decide) hclosed⟩

/-- Node 7 searches while node 5 is still joining: node 1 relays its search to node 5, which
answers it and the query that follows. -/
theorem concurrent_joins_connected_between :
    ∃ t : Sys, t.members.card = 4 ∧ (∀ x ∈ ({.ofByte 5,.ofByte 7} : Finset Identifier),
      (t.node x).calls = [.returned (.ok .joined)]) ∧ t.Connected := by
  let linked : List Identifier := [.ofByte 1,.ofByte 9]
  let J : Finset Identifier := {.ofByte 5,.ofByte 7}
  let join (x i : UInt8) (k : ℕ) : Action :=
    .call (.ofByte x) (.joinStage1LinkLevel0 (.ofByte i) 0 ⟨k⟩)
  let wake (x : UInt8) (k : ℕ) : Action := .call (.ofByte x) (.wake 0 0 ⟨k⟩ ⟨k+1⟩)
  let run : List Action :=
    [join 5 1 50,.deliver 0,.deliver 0,wake 5 51,.deliver 0,.deliver 0,wake 5 53,
      .deliver 0,.deliver 0,.deliver 0,.deliver 0,
      join 7 1 70,.deliver 0,.deliver 0,.deliver 0,wake 7 71,.deliver 0,.deliver 0,wake 7 73,
      .deliver 0,.deliver 0,.deliver 0,.deliver 0,wake 5 55,wake 5 57,wake 7 75,wake 7 77]
  obtain ⟨t,ht,hc⟩ := exists_trace_of_runWhile Sys.step
    (fun s a => decide (s.JoinStep a ∧ Filled Event.querySide? linked.toFinset s a))
    (row linked [.ofByte 5,.ofByte 7]) run
    (fun t => decide (t.members.card = 4 ∧
      (∀ x ∈ J, (t.node x).calls = [.returned (.ok .joined)]) ∧
      (∀ x ∈ t.members, x ∉ linked.toFinset → (t.node x).calls ≠ []) ∧
      ∀ x ∈ t.members, ∀ c ∈ (t.node x).calls, c = .returned (.ok .joined))) (by decide +kernel)
  obtain ⟨hcard,hret,hjoined,hok⟩ := of_decide_eq_true hc
  exact ⟨t,hcard,hret,concurrent_joins_connected (initial_row _ _) ⟨.ofByte 1,by decide⟩ rfl
    (fun _ _ => rfl) (ht.mono fun _ _ h => of_decide_eq_true h) hjoined hok⟩

end Sys

end SkipGraph
