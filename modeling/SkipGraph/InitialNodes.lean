import SkipGraph.Joins

/-!
# Joins around the initial nodes

The nodes that were listed before the joins began divide the line into gaps. `ClearInv`
says that no level-0 pointer and no link message reaches across an initial node; a step
keeps it when the link requests it starts do not reach across one.
-/

namespace SkipGraph

open StrictOrder

variable {I : Finset Identifier} {d : Direction} {x y z : Identifier}

/-- No node of `I` lies strictly between `x` and `y` on side `d` of `x`. -/
def Clear (I : Finset Identifier) (d : Direction) (x y : Identifier) : Prop :=
  ∀ i ∈ I, d.lt x i → ¬ d.lt i y

theorem Clear.symm (h : Clear I d x y) : Clear I d.opposite y x := by
  intro i hi hyi hix
  rw [Direction.opposite_lt] at hyi hix
  exact h i hi hix hyi

theorem Clear.mono_left (h : Clear I d x y) (hz : d.le x z) : Clear I d z y := fun i hi hzi =>
  h i hi (Direction.lt_of_le_of_lt hz hzi)

theorem Clear.mono_right (h : Clear I d x y) (hz : d.le z y) : Clear I d x z := fun i hi hxi hiz =>
  h i hi hxi (Direction.lt_of_lt_of_le hiz hz)

theorem clear_of_isLast (h : IsLast d.lt I x) : Clear I d x y := fun i hi hxi =>
  absurd hxi (h i hi)

namespace Sys

variable {s t : Sys} {a : Action} {spec : JoinSpec}

/-- A state in which the nodes `I` are listed and all others are unlinked. -/
structure Initial (s : Sys) (I : Finset Identifier) : Prop where
  subset : I ⊆ s.members
  listed : s.Listed I
  sided : s.Sided
  entries : ∀ x ∈ s.members, ∀ l d e, s.entry x l d = some e → e.id ∈ I
  unlinked : ∀ x ∈ s.members, x ∉ I → ∀ l d, s.entry x l d = none
  resting : s.Resting

theorem initial_row (linked fresh : List Identifier) :
    (row linked fresh).Initial linked.toFinset where
  subset x hx := by
    have hx : x ∈ linked := by simpa using hx
    simp [row,hx]
  listed := listed_row linked fresh
  sided := (honest_row linked fresh).sided
  entries x _ l d e he := by
    rw [row_entry] at he
    split at he
    · obtain ⟨y,hy,rfl⟩ := Option.map_eq_some_iff.mp he
      exact (rowNext_some hy).mem
    · simp at he
  unlinked x _ hxI l d := by
    rw [row_entry,if_neg]
    rintro ⟨-,hx⟩
    exact hxI (by simpa using hx)
  resting := resting_row linked fresh

structure ClearInv (I : Finset Identifier) (s : Sys) : Prop where
  subset : I ⊆ s.members
  entries : ∀ x ∈ s.members, ∀ d e, s.entry x 0 d = some e → Clear I d x e.id
  ends : ∀ x ∈ I, ∀ d, s.entry x 0 d = none → IsLast d.lt I x
  requests : LinkOps (fun x req => Clear I req.dir x req.candidate.id) s
  acks : ∀ x nonce d l y, ⟨x,.setLinkOp ⟨nonce,d,l,some y⟩⟩ ∈ s.inflight → Clear I d x y.id

theorem Initial.clearInv (h : s.Initial I)
    (hin : ∀ p ∈ s.inflight, ∀ l d c, ¬ p.event.Offers l d c) : ClearInv I s where
  subset := h.subset
  entries x hx d e he := by
    by_cases hxI : x ∈ I
    · exact (h.listed.next x hxI d e he).first
    · simp [h.unlinked x hx hxI] at he
  ends := h.listed.last
  requests x req hp := absurd (.inl ⟨req.nonce,rfl⟩) (hin _ hp req.level req.dir req.candidate)
  acks x nonce d l y hp := absurd (.inr ⟨nonce,rfl⟩) (hin _ hp l d y)

theorem ClearInv.step (hi : ClearInv I s) (hjoin : s.JoinInv spec) (hs : s.Sided)
    (hj : a.joins = true) (h : s.step a = some t)
    (hnew : ∀ u ∈ s.members, ∀ d anchor q, anchor ≠ u → spec.anchor u d anchor →
      spec.neighbor u d anchor q → (∃ sl ql, .joinLink d anchor q sl ql ∈ (t.node u).calls) →
      Clear I d anchor u ∧ ∀ e, q = some e → Clear I d.opposite e.id u) : ClearInv I t where
  subset := by rw [members_step h]; exact hi.subset
  entries x hx d e he := by
    rw [members_step h] at hx
    rcases entry_step h x 0 d with hh | ⟨i,p,c,-,hw⟩
    · exact hi.entries x hx d e (hh.symm.trans he)
    · obtain rfl : c = e := Option.some.inj (hw.entry.symm.trans he)
      have hp := List.mem_of_getElem? hw.delivered.get
      obtain ⟨dest,ev⟩ := p
      obtain rfl := hw.dest
      rcases hw.offers with ⟨nonce,rfl⟩ | ⟨nonce,rfl⟩
      · exact hi.requests dest _ hp
      · exact hi.acks dest nonce d 0 c hp
  ends x hx d he := hi.ends x hx d (entry_none_step h he)
  requests := by
    refine hi.requests.step hjoin hs hj h ?_ ?_
    · intro x req e hx hr _ he _
      exact hr.mono_left (Direction.le_of_lt (hs x hx _ _ e he))
    · intro u hu nonce d anchor q hne ha hn hc
      simpa using hnew u hu d anchor q hne ha hn hc
  acks x nonce d l y hq := by
    rcases mem_inflight_step h hq with hq | ⟨i,p,-,hd,hq⟩ | ⟨u,ca,r,-,hc,hq⟩
    · exact hi.acks x nonce d l y hq
    · have hp := List.mem_of_getElem? hd.get
      have hr := hs.handle_reacts hd.mem hq
      obtain ⟨v,ev⟩ := p
      cases hr with
      | accept req hb hnear hn =>
        have hc := (hi.requests v req hp).symm
        rwa [show (s.node v).selfIdentity.id = v from s.node_id v]
    · exact absurd rfl (callStep_not_setLink hc.step hq _)

/-- An event of the given kind that reaches a node outside `I` finds the slot it reads
populated, unless no node of `I` lies on that side. -/
def Filled (side : Event → Option Direction) (I : Finset Identifier) (s : Sys) : Action → Prop
  | .deliver i => ∀ p, s.inflight[i]? = some p → ∀ d, side p.event = some d → p.dest ∉ I →
      s.entry p.dest 0 d = none → IsLast d.lt I p.dest
  | _ => True

instance (side : Event → Option Direction) (I : Finset Identifier) (s : Sys) (a : Action) :
    Decidable (Filled side I s a) :=
  match a with
  | .deliver i => inferInstanceAs (Decidable (∀ p, s.inflight[i]? = some p → _))
  | .lose _ => isTrue trivial
  | .call _ _ => isTrue trivial

theorem ClearInv.isLast_of_empty (hi : ClearInv I s) {side : Event → Option Direction} {i : ℕ}
    {ev : Event} (hf : Filled side I s (.deliver i)) (hget : s.inflight[i]? = some ⟨x,ev⟩)
    (hside : side ev = some d) (he : s.entry x 0 d = none) : IsLast d.lt I x := by
  by_cases hx : x ∈ I
  · exact hi.ends x hx d he
  · exact hf ⟨x,ev⟩ hget d hside hx he

end Sys

/-- The side on which a search consults its receiver. -/
def Event.searchSide? (ev : Event) : Option Direction := ev.search?.map IdSearchReq.direction

/-- The side that a neighbour query asks for. -/
def Event.querySide? (ev : Event) : Option Direction := ev.query?.map NeighborReq.direction

end SkipGraph
