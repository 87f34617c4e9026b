import SkipGraph.SortedList

/-!
# Backpointers

A pointer from `x` to `y` is backed when the mirror slot of `y` holds a node that is
not before `x`, or when the `SetLinkOp` that will bring this about is in flight. The
invariant that carries this also speaks of every `SetLinkOp` in flight: the acceptor
it names holds, in the slot that faces the receiver, the receiver or a nearer node.
-/

namespace SkipGraph

open Transition

namespace Sys

variable {s t : Sys} {a : Action} {x : Identifier} {l : ℕ} {d : Direction} {y : Identity}

/-- The mirror slot of `y` holds a node between `x`, inclusive, and `y`. -/
def Mirrored (s : Sys) (x : Identifier) (l : ℕ) (d : Direction) (y : Identity) : Prop :=
  ∃ f, s.entry y.id l d.opposite = some f ∧ d.le x f.id ∧ d.lt f.id y.id

/-- A `SetLinkOp` that links `x` into the mirror slot of `y` is in flight to `y`. -/
def MirrorInFlight (s : Sys) (x : Identifier) (l : ℕ) (d : Direction) (y : Identity) : Prop :=
  ∃ nonce, ⟨y.id,.setLinkOp ⟨nonce,d.opposite,l,some (s.identity x)⟩⟩ ∈ s.inflight

def Backed (s : Sys) : Prop := ∀ x ∈ s.members, ∀ l d y, s.entry x l d = some y →
  s.Mirrored x l d y ∨ s.MirrorInFlight x l d y

theorem Listed.backed {I : Finset Identifier} (h : s.Listed I)
    (h0 : ∀ x l d e, s.entry x l d = some e → l = 0 ∧ x ∈ I) : s.Backed := by
  intro x _ l d y hy
  obtain ⟨rfl,hx⟩ := h0 x l d y hy
  obtain ⟨f,hf,rfl⟩ := h.mirror hx hy
  exact .inl ⟨f,hf,Direction.le_refl,(h.next f.id hx d y hy).after⟩

structure BackInv (s : Sys) : Prop where
  honest : s.Honest
  backed : s.Backed
  links : ∀ p ∈ s.inflight, ∀ nonce l d y, p.event = .setLinkOp ⟨nonce,d,l,some y⟩ →
    s.Mirrored p.dest l d y

/-- A mirrored pointer stays mirrored: the mirror slot only moves nearer to its owner. -/
theorem Mirrored.step (h : s.step a = some t) (hs : s.Honest) (hy : y.id ∈ s.members)
    (hm : s.Mirrored x l d y) : t.Mirrored x l d y := by
  obtain ⟨f,hf,hxf,-⟩ := hm
  obtain ⟨f',hf',hle⟩ := entry_step_some h hf
  have hord := hs.sided.step h y.id (by rwa [members_step h]) l d.opposite f' hf'
  rw [Direction.opposite_lt] at hord
  exact ⟨f',hf',Direction.le_trans hxf (Direction.opposite_le.mp hle),hord⟩

theorem mirrored_of_delivered (hs : s.Honest) (hx : x ∈ s.members)
    (he : s.entry x l d = some y) {nonce : Nonce} {i : ℕ}
    (hd : Delivered s i ⟨y.id,.setLinkOp ⟨nonce,d.opposite,l,some (s.identity x)⟩⟩ t) :
    ∃ f, t.entry y.id l d.opposite = some f ∧ d.le x f.id := by
  obtain ⟨hlt,hpre⟩ := hs.ordered x hx l d y he
  obtain ⟨-,hy⟩ := hs.entries x hx l d y he
  have hl := ArrayLookupTable.lt_of_entry he
  have hb : (s.node y.id).belongsInOwnSlot l d.opposite (s.identity x) = true := by
    apply BaseNode.belongsInOwnSlot_iff.mpr
    refine ⟨hl,?_,?_⟩
    · rw [s.node_id,identity_id,Direction.opposite_lt]
      rwa [s.node_id] at hlt
    · rw [MembershipVector.commonPrefixBit_comm]
      have hmv : y.memVec = (s.node y.id).memVec := congrArg Identity.memVec hy
      rwa [hmv] at hpre
  obtain ⟨f,hf,hle⟩ := entry_of_setLink hd hb
  exact ⟨f,hf,by simpa using hle⟩

theorem mirror_sent (h : s.step a = some t) {i : ℕ} {p : Packet} {nonce : Nonce}
    (hw : Written s x l d i p y t) (hev : p.event = .getLinkOp ⟨nonce,y,d,l⟩) :
    ⟨y.id,.setLinkOp ⟨nonce,d.opposite,l,some (t.identity x)⟩⟩ ∈ t.inflight := by
  obtain ⟨dest,ev⟩ := p
  obtain rfl := hw.dest
  obtain rfl := hev
  rw [hw.delivered.inflight,identity_step h]
  apply List.mem_append_right
  rcases BaseNode.handleGetLinkRequest_cases reliable (s.node dest) ⟨nonce,y,d,l⟩ with
    ⟨hb,-⟩ | ⟨-,e,he,hlt,-⟩ | ⟨-,n',-,hh⟩
  · exact absurd hw.belongs (by simp [hb])
  · exact absurd hlt (Direction.not_lt.mpr (hw.nearer e he))
  · simp [handle,BaseNode.processIncomingEvent,hh,identity]

theorem mirrored_of_accept (hs : s.Honest) {i : ℕ} {p q : Packet} {nonce : Nonce}
    (hd : Delivered s i p t) (hq : q ∈ (s.handle p).sent)
    (hev : q.event = .setLinkOp ⟨nonce,d,l,some y⟩) : t.Mirrored q.dest l d y := by
  have hr := hs.sided.handle_reacts hd.mem hq
  obtain ⟨dest,ev⟩ := p
  cases hr with
  | accept req hb hnear hn =>
    obtain ⟨rfl,rfl,rfl,rfl⟩ : req.nonce = nonce ∧ req.dir.opposite = d ∧ req.level = l ∧
      (s.node dest).selfIdentity = y := by simpa using hev
    have hid : (s.node dest).selfIdentity.id = dest := s.node_id dest
    have hlt := (BaseNode.belongsInOwnSlot_iff.mp hb).2.1
    refine ⟨req.candidate,?_,by simp,?_⟩
    · rw [hid,entry,hd.node]
      simpa using hn
    · rwa [Direction.opposite_lt]
  | _ => simp at hev

theorem BackInv.step (hi : s.BackInv) (ha : a.loses = false) (h : s.step a = some t) :
    t.BackInv where
  honest := hi.honest.step h
  backed := by
    intro x hx l d y hy
    rw [members_step h] at hx
    rcases entry_step h x l d with hh | ⟨i,p,c,rfl,hw⟩
    · have he := hh.symm.trans hy
      have hmem := (hi.honest.entries x hx l d y he).1
      rcases hi.backed x hx l d y he with hm | ⟨nonce,hm⟩
      · exact .inl (hm.step h hi.honest hmem)
      · have hid := identity_step h x
        rcases inflight_step_mem h hm with hq | ⟨i,-,hd⟩ | ⟨i,rfl⟩
        · exact .inr ⟨nonce,by rwa [hid]⟩
        · obtain ⟨f,hf,hxf⟩ := mirrored_of_delivered hi.honest hx he hd
          have hord := hi.honest.sided.step h y.id (by rwa [members_step h]) l _ f hf
          rw [Direction.opposite_lt] at hord
          exact .inl ⟨f,hf,hxf,hord⟩
        · simp [Action.loses] at ha
    · obtain rfl : c = y := Option.some.inj (hw.entry.symm.trans hy)
      have hp := List.mem_of_getElem? hw.delivered.get
      rcases hw.offers with ⟨nonce,hev⟩ | ⟨nonce,hev⟩
      · exact .inr ⟨nonce,mirror_sent h hw hev⟩
      · have hmem := (hi.honest.offers p hp l d c (.inr ⟨nonce,hev⟩)).1
        exact .inl ((hw.dest ▸ hi.links p hp nonce l d c hev).step h hi.honest hmem)
  links := by
    intro q hq nonce l d y hev
    rcases mem_inflight_step h hq with hq | ⟨i,p,-,hd,hq⟩ | ⟨x,ca,r,-,hc,hq⟩
    · have hmem := (hi.honest.offers q hq l d y (.inr ⟨nonce,hev⟩)).1
      exact (hi.links q hq nonce l d y hev).step h hi.honest hmem
    · exact mirrored_of_accept hi.honest hd hq hev
    · exact absurd hev (callStep_not_setLink hc.step hq _)

/-- Over a network that loses nothing, every pointer is mirrored or about to be; with
nothing in flight it is mirrored. -/
theorem backpointers_never_missing {as : List Action} (hs : s.Honest) (hq : s.inflight = [])
    (hb : s.Backed) (h : Trace Sys.step (fun _ a => a.loses = false) s as t) :
    t.Backed ∧ (t.inflight = [] → ∀ x ∈ t.members, ∀ l y,
      (t.entry x l .right = some y → ∃ f, t.entry y.id l .left = some f ∧ x ≤ f.id ∧ f.id < y.id) ∧
      (t.entry x l .left = some y → ∃ f, t.entry y.id l .right = some f ∧ y.id < f.id ∧ f.id ≤ x))
    := by
  have hi : t.BackInv := by
    apply h.invariant (P := BackInv) ⟨hs,hb,by simp [hq]⟩
    exact fun _ _ _ hi ha hstep => hi.step ha hstep
  refine ⟨hi.backed,fun hnil x hx l y => ⟨fun hy => ?_,fun hy => ?_⟩⟩
  · rcases hi.backed x hx l .right y hy with ⟨f,hf,hxf,hfy⟩ | ⟨nonce,hm⟩
    · exact ⟨f,hf,hxf,hfy⟩
    · simp [hnil] at hm
  · rcases hi.backed x hx l .left y hy with ⟨f,hf,hxf,hfy⟩ | ⟨nonce,hm⟩
    · exact ⟨f,hf,hfy,hxf⟩
    · simp [hnil] at hm

theorem backpointer_of_timed_out_link :
    ∃ t : Sys, t.entry (.ofByte 1) 0 .right = some (rowIdentity (.ofByte 3)) ∧
      t.entry (.ofByte 3) 0 .left = none ∧
      t.MirrorInFlight (.ofByte 1) 0 .right (rowIdentity (.ofByte 3)) := by
  let s := row [.ofByte 1,.ofByte 5] [.ofByte 3]
  have h0 : ∀ x l d e, s.entry x l d = some e → l = 0 ∧ x ∈ [Identifier.ofByte 1,.ofByte 5].toFinset := by
    intro x l d e he
    rw [row_entry] at he
    split at he
    · rename_i h
      exact ⟨h.1,by simpa using h.2⟩
    · simp at he
  obtain ⟨t,ht,hc⟩ := exists_trace_of_runWhile Sys.step (fun _ a => !a.loses) s
    [.call (.ofByte 3) (.sendLinkRequest (.ofByte 1) .right 0 ⟨7⟩),.deliver 0,
      .call (.ofByte 3) (.timeout 0 0)]
    (fun t => decide (t.entry (.ofByte 1) 0 .right = some (rowIdentity (.ofByte 3)) ∧
      t.entry (.ofByte 3) 0 .left = none ∧ .ofByte 1 ∈ t.members)) (by decide +kernel)
  obtain ⟨he,hn,hm⟩ := of_decide_eq_true hc
  have h := backpointers_never_missing (honest_row _ _) rfl ((listed_row _ _).backed h0)
    (ht.mono fun _ _ ha => by simpa using ha)
  rcases h.1 _ hm 0 .right _ he with ⟨f,hf,-⟩ | h
  · exact absurd (hf.symm.trans hn) (by simp)
  · exact ⟨t,he,hn,h⟩

end Sys

end SkipGraph
