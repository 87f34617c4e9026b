import SkipGraph.SortedList

/-!
# The insertion point of a link request

At any level, a link request that enters a sorted doubly linked list on the proper side of
its candidate walks along the list to the candidate's neighbour on that side, which takes
the candidate in, and the reply completes the pair of slots. Nothing else changes.
-/

namespace SkipGraph

open Transition StrictOrder

namespace Sys

/-- The slots at level `l` of the nodes `I` form the sorted doubly linked list of `I`, whose
nodes share the level's prefix. -/
structure LevelList (s : Sys) (I : Finset Identifier) (l : ℕ) : Prop where
  mem : I ⊆ s.members
  next : ∀ x ∈ I, ∀ d e, s.entry x l d = some e → IsNext d.lt I x e.id
  last : ∀ x ∈ I, ∀ d, s.entry x l d = none → IsLast d.lt I x
  shared : ∀ x ∈ I, ∀ y ∈ I, l ≤ (s.identity x).memVec.commonPrefixBit (s.identity y).memVec

/-- A node outside the list that belongs into it and is not linked at its level. -/
structure Newcomer (s : Sys) (I : Finset Identifier) (l : ℕ) (u : Identifier) : Prop where
  mem : u ∈ s.members
  fresh : u ∉ I
  shared : ∀ x ∈ I, l ≤ (s.identity x).memVec.commonPrefixBit (s.identity u).memVec
  empty : ∀ d, s.entry u l d = none

def linkRequest (s : Sys) (u : Identifier) (nonce : Nonce) (dir : Direction) (level : ℕ) :
    LinkReq := ⟨nonce,s.identity u,dir,level⟩

/-- The contents of the slots once the acceptor `p` has taken in `u`, and once `u` has also
taken in `p`. -/
def accepted (s : Sys) (u p : Identifier) (dir : Direction) (level : ℕ) (x : Identifier)
    (l : ℕ) (d : Direction) : Option Identity :=
  if x = p ∧ l = level ∧ d = dir then some (s.identity u) else s.entry x l d

def paired (s : Sys) (u p : Identifier) (dir : Direction) (level : ℕ) (x : Identifier)
    (l : ℕ) (d : Direction) : Option Identity :=
  if x = u ∧ l = level ∧ d = dir.opposite then some (s.identity p)
  else s.accepted u p dir level x l d

/-- How far the insertion of `u` has come when the system has got from `s` to `t`. -/
inductive Stage (s : Sys) (I : Finset Identifier) (u : Identifier) (req : LinkReq) (t : Sys) : Prop
  | seeking (w : Identifier) (hw : w ∈ I) (hlt : req.dir.lt w u)
      (hin : t.inflight = [⟨w,.getLinkOp req⟩]) (hent : t.entry = s.entry)
  | replying (p : Identifier) (hp : IsNext req.dir.opposite.lt I u p)
      (hin : t.inflight =
        [⟨u,.setLinkOp ⟨req.nonce,req.dir.opposite,req.level,some (s.identity p)⟩⟩])
      (hent : t.entry = s.accepted u p req.dir req.level)
  | linked (p : Identifier) (hp : IsNext req.dir.opposite.lt I u p) (hin : t.inflight = [])
      (hent : t.entry = s.paired u p req.dir req.level)

/-- The stage together with what no step changes. -/
structure Inserting (s : Sys) (I : Finset Identifier) (u : Identifier) (req : LinkReq) (t : Sys) :
    Prop where
  members : t.members = s.members
  identity : t.identity = s.identity
  stage : Stage s I u req t

variable {s t t' : Sys} {I : Finset Identifier} {u v w p x : Identifier} {l i : ℕ}
  {d dir : Direction} {nonce : Nonce}

theorem Delivered.entry_eq {q : Packet} (h : Delivered t i q t') (x : Identifier) :
    t'.entry x = if x = q.dest then (t.handle q).node.entry else t.entry x := by
  funext l d
  simp only [entry,h.node,Function.update_apply]
  split <;> rfl

theorem deliver_single {q : Packet} (hin : t.inflight = [q]) (h : t.step (.deliver i) = some t') :
    Delivered t 0 q t' ∧ t'.inflight = (t.handle q).sent := by
  rcases step_cases h with ⟨j,q',ha,hd⟩ | ⟨j,ha,-⟩ | ⟨y,ca,r,ha,-⟩
  · have hget := hd.get
    rw [hin] at hget
    cases j with
    | zero =>
      obtain rfl : q = q' := by simpa using hget
      exact ⟨hd,by rw [hd.inflight,hin]; rfl⟩
    | succ j => simp at hget
  · simp at ha
  · simp at ha

theorem Newcomer.belongs (hu : s.Newcomer I l u) (hl : l < lookupTableLevels) (hw : w ∈ I)
    (hlt : d.lt w u) (hid : t.identity = s.identity) :
    (t.node w).belongsInOwnSlot l d (s.identity u) = true ∧
    (t.node u).belongsInOwnSlot l d.opposite (s.identity w) = true := by
  have hmv : ∀ x, (t.node x).memVec = (s.identity x).memVec := by
    intro x
    rw [← hid]
    rfl
  rw [BaseNode.belongsInOwnSlot_iff,BaseNode.belongsInOwnSlot_iff,t.node_id,t.node_id,hmv,hmv,
    identity_id,identity_id,MembershipVector.commonPrefixBit_comm (s.identity u).memVec,
    Direction.opposite_lt]
  exact ⟨⟨hl,hlt,hu.shared w hw⟩,⟨hl,hlt,hu.shared w hw⟩⟩

theorem LevelList.isNext (hs : s.LevelList I l) (hw : w ∈ I) (hlt : d.lt w u)
    (hnear : ∀ e, s.entry w l d = some e → d.le u e.id) : IsNext d.opposite.lt I u w := by
  refine ⟨hw,Direction.opposite_lt.mpr hlt,fun z hz huz hzw => ?_⟩
  rw [Direction.opposite_lt] at huz hzw
  cases he : s.entry w l d with
  | none => exact hs.last w hw d he z hz hzw
  | some e =>
    have hn := hs.next w hw d e he
    have hze : d.lt z e.id := Direction.lt_of_lt_of_le huz (hnear e he)
    exact hn.first z hz hzw hze

/-- A request in flight is forwarded along the list or accepted by the neighbour. -/
theorem seeking_step (hs : s.LevelList I l) (hu : s.Newcomer I l u) (hl : l < lookupTableLevels)
    (hid : t.identity = s.identity) (hw : w ∈ I) (hlt : dir.lt w u)
    (hin : t.inflight = [⟨w,.getLinkOp (s.linkRequest u nonce dir l)⟩])
    (hent : t.entry = s.entry) (h : t.step (.deliver i) = some t') :
    (∃ w', w' ∈ I ∧ dir.lt w w' ∧ dir.lt w' u ∧ t'.entry = s.entry ∧
      t'.inflight = [⟨w',.getLinkOp (s.linkRequest u nonce dir l)⟩]) ∨
    (IsNext dir.opposite.lt I u w ∧ t'.entry = s.accepted u w dir l ∧
      t'.inflight = [⟨u,.setLinkOp ⟨nonce,dir.opposite,l,some (s.identity w)⟩⟩]) := by
  obtain ⟨hd,hsent⟩ := deliver_single hin h
  have hbel := (hu.belongs hl hw hlt hid).1
  have hsame : ∀ x l d, (t.node x).entry l d = s.entry x l d := by
    intro x l d
    rw [← hent]
    rfl
  rcases (t.node w).handleGetLinkRequest_cases reliable (s.linkRequest u nonce dir l) with
    ⟨hb,-⟩ | ⟨-,e,he,hlte,hp⟩ | ⟨-,n',hi,hp⟩
  · exact absurd hbel (by simpa [linkRequest] using hb)
  · left
    simp only [linkRequest,hsame,identity_id] at he hlte
    have hn := hs.next w hw dir e he
    refine ⟨e.id,hn.mem,hn.after,hlte,?_,?_⟩
    · funext x
      rw [hd.entry_eq]
      split
      · rename_i hx
        subst hx
        simp only [handle,BaseNode.processIncomingEvent,hp,BaseNode.sendEvent_reliable]
        rw [← hent]
        rfl
      · rw [hent]
    · rw [hsent,handle,BaseNode.processIncomingEvent,hp]
      rfl
  · right
    have hnear : ∀ e, s.entry w l dir = some e → dir.le u e.id := by
      intro e he
      have hh := hi.nearer e ((hsame w l dir).trans he)
      simpa [linkRequest] using hh
    refine ⟨hs.isNext hw hlt hnear,?_,?_⟩
    · funext x l' d'
      rw [hd.entry_eq]
      by_cases hx : x = w
      · subst hx
        have hn : (t.handle ⟨x,.getLinkOp (s.linkRequest u nonce dir l)⟩).node.entry l' d' =
            n'.entry l' d' := by
          simp [handle,BaseNode.processIncomingEvent,hp]
        simp only [if_true,accepted,true_and,hn,hi.entry,hsame]
        rfl
      · simp [hx,accepted,hent]
    · rw [hsent,handle,BaseNode.processIncomingEvent,hp]
      have hself : (t.node w).selfIdentity = s.identity w := congrFun hid w
      simp [linkRequest,hself]

theorem replying_step (hu : s.Newcomer I l u) (hl : l < lookupTableLevels)
    (hid : t.identity = s.identity) (hp : IsNext dir.opposite.lt I u p)
    (hin : t.inflight = [⟨u,.setLinkOp ⟨nonce,dir.opposite,l,some (s.identity p)⟩⟩])
    (hent : t.entry = s.accepted u p dir l) (h : t.step (.deliver i) = some t') :
    t'.entry = s.paired u p dir l ∧ t'.inflight = [] := by
  obtain ⟨hd,hsent⟩ := deliver_single hin h
  have hlt : dir.lt p u := Direction.opposite_lt.mp hp.after
  have hbel := (hu.belongs hl hp.mem hlt hid).2
  have hpu : u ≠ p := fun he => hu.fresh (he ▸ hp.mem)
  have hsame : ∀ l d, (t.node u).entry l d = s.entry u l d := by
    intro l d
    have hh : t.entry u l d = s.entry u l d := by simp [hent,accepted,hpu]
    exact hh
  obtain ⟨n',hh,⟨-,hstay⟩ | ⟨c,hc,-,hi⟩⟩ := (t.node u).handleSetLinkResponse_cases
    ⟨nonce,dir.opposite,l,some (s.identity p)⟩
  · obtain ⟨e,he,-⟩ := hstay _ rfl hbel
    rw [hsame,hu.empty] at he
    simp at he
  · obtain rfl : s.identity p = c := Option.some.inj hc
    refine ⟨?_,?_⟩
    · funext x l' d'
      rw [hd.entry_eq]
      by_cases hx : x = u
      · subst hx
        have hn : (t.handle ⟨x,.setLinkOp ⟨nonce,dir.opposite,l,some (s.identity p)⟩⟩).node.entry
            l' d' = n'.entry l' d' := by
          simp [handle,BaseNode.processIncomingEvent,hh,BaseNode.entry_resolveWaiter]
        simp only [if_true,paired,accepted,true_and,hpu,false_and,if_false,hn,hi.entry,hsame]
      · simp [hx,paired,hent]
    · rw [hsent,handle,BaseNode.processIncomingEvent,hh]

/-- The work left: the list nodes still before the newcomer, the acceptance and the reply. -/
def remaining (I : Finset Identifier) (t : Sys) : ℕ :=
  match t.inflight with
  | [⟨w,.getLinkOp req⟩] => (between req.dir.lt I w req.candidate.id).card + 2
  | [_] => 1
  | _ => 0

def Delivers (_ : Sys) : Action → Prop
  | .deliver _ => True
  | _ => False

theorem Inserting.step (hs : s.LevelList I l) (hu : s.Newcomer I l u) (hl : l < lookupTableLevels)
    (h : Inserting s I u (s.linkRequest u nonce dir l) t) {a : Action} (ha : Delivers t a)
    (hstep : t.step a = some t') : Inserting s I u (s.linkRequest u nonce dir l) t' ∧
      remaining I t' < remaining I t := by
  have hm : t'.members = s.members := (members_step hstep).trans h.members
  have hid : t'.identity = s.identity := by
    funext x
    rw [identity_step hstep,h.identity]
  cases a with
  | lose i => exact ha.elim
  | call x ca => exact ha.elim
  | deliver i =>
    cases h.stage with
    | seeking w hw hlt hin hent =>
      rcases seeking_step hs hu hl h.identity hw hlt hin hent hstep with
        ⟨w',hw',hww',hwu,hent',hin'⟩ | ⟨hn,hent',hin'⟩
      · refine ⟨⟨hm,hid,.seeking w' hw' hwu hin' hent'⟩,?_⟩
        have hcard : (between dir.lt I w' u).card < (between dir.lt I w u).card :=
          card_between_lt hw' hww' hwu
        simp only [remaining,hin,hin']
        simp only [linkRequest,identity_id]
        omega
      · refine ⟨⟨hm,hid,.replying w hn hin' hent'⟩,?_⟩
        simp only [remaining,hin,hin']
        omega
    | replying p hp hin hent =>
      obtain ⟨hent',hin'⟩ := replying_step hu hl h.identity hp hin hent hstep
      refine ⟨⟨hm,hid,.linked p hp hin' hent'⟩,?_⟩
      simp [remaining,hin,hin']
    | linked p hp hin hent =>
      rcases step_cases hstep with ⟨j,q,-,hd⟩ | ⟨j,hj,-⟩ | ⟨y,ca,r,hj,-⟩
      · have hget := hd.get
        simp [hin] at hget
      · simp at hj
      · simp at hj

theorem Inserting.moves (hs : s.LevelList I l) (hu : s.Newcomer I l u)
    (h : Inserting s I u (s.linkRequest u nonce dir l) t) (hin : t.inflight ≠ []) :
    ∃ a t', Delivers t a ∧ t.step a = some t' := by
  cases h.stage with
  | seeking w hw hlt hin hent =>
    have hmem : w ∈ t.members := h.members ▸ hs.mem hw
    obtain ⟨t',ht,-⟩ := exists_deliver (i := 0) (show t.inflight[0]? = _ by rw [hin]; rfl) hmem
    exact ⟨.deliver 0,t',trivial,ht⟩
  | replying p hp hin hent =>
    have hmem : u ∈ t.members := h.members ▸ hu.mem
    obtain ⟨t',ht,-⟩ := exists_deliver (i := 0) (show t.inflight[0]? = _ by rw [hin]; rfl) hmem
    exact ⟨.deliver 0,t',trivial,ht⟩
  | linked p hp hin' hent => exact absurd hin' hin

/-- A link request that enters a level's list on the candidate's side of arrival ends, when
all resulting events are delivered, with the candidate at its nearest list node on that side,
that node in the candidate's mirror slot, and every other slot as it was. -/
theorem link_request_finds_insertion_point (hs : s.LevelList I l) (hu : s.Newcomer I l u)
    (hl : l < lookupTableLevels) (hv : v ∈ I) (hlt : dir.lt v u)
    (hin : s.inflight = [⟨v,.getLinkOp ⟨nonce,s.identity u,dir,l⟩⟩]) :
    (∃ as t, Trace Sys.step Delivers s as t ∧ t.inflight = []) ∧
    ∀ as t, Trace Sys.step Delivers s as t → t.inflight = [] →
      ∃ p, IsNext dir.opposite.lt I u p ∧
        t.entry p l dir = some (s.identity u) ∧
        t.entry u l dir.opposite = some (s.identity p) ∧
        ∀ x l' d', ¬ (x = p ∧ l' = l ∧ d' = dir) → ¬ (x = u ∧ l' = l ∧ d' = dir.opposite) →
          t.entry x l' d' = s.entry x l' d' := by
  have hstart : Inserting s I u (s.linkRequest u nonce dir l) s :=
    ⟨rfl,rfl,.seeking v hv hlt hin rfl⟩
  refine ⟨?_,fun as t ht hend => ?_⟩
  · exact exists_trace_to (μ := remaining I) hstart
      (fun _ _ _ hi ha hstep => hi.step hs hu hl ha hstep) fun _ hi hne => hi.moves hs hu hne
  · have h := ht.invariant hstart fun _ _ _ hi ha hstep => (hi.step hs hu hl ha hstep).1
    cases h.stage with
    | seeking w _ _ hin' _ => simp [hend] at hin'
    | replying p _ hin' _ => simp [hend] at hin'
    | linked p hp _ hent =>
      have hpu : p ≠ u := fun he => hu.fresh (he ▸ hp.mem)
      refine ⟨p,hp,?_,?_,fun x l' d' h₁ h₂ => ?_⟩
      · simp [hent,paired,accepted,hpu,linkRequest]
      · simp [hent,paired,linkRequest]
      · simp only [hent,paired,accepted,linkRequest,h₁,h₂,if_false]

theorem link_request_finds_three :
    let u : Identifier := .ofByte 5
    let r := row [.ofByte 1,.ofByte 3,.ofByte 7] [u]
    let s := { r with inflight := [⟨.ofByte 1,.getLinkOp ⟨⟨0⟩,r.identity u,.right,0⟩⟩] }
    ∃ as t, Trace Sys.step Delivers s as t ∧ t.inflight = [] ∧
      t.entry (.ofByte 3) 0 .right = some (s.identity u) ∧
      t.entry u 0 .left = some (s.identity (.ofByte 3)) := by
  intro u r s
  let I : Finset Identifier := {.ofByte 1,.ofByte 3,.ofByte 7}
  have hI : [.ofByte 1,.ofByte 3,.ofByte 7].toFinset = I := by decide +kernel
  have hlist : r.Listed I := hI ▸ listed_row _ _
  have hs : s.LevelList I 0 :=
    ⟨by decide +kernel,hlist.next,hlist.last,fun _ _ _ _ => Nat.zero_le _⟩
  have hu : s.Newcomer I 0 u :=
    ⟨by decide +kernel,by decide +kernel,fun _ _ => Nat.zero_le _,by decide +kernel⟩
  obtain ⟨⟨as,t,ht,hend⟩,hall⟩ := link_request_finds_insertion_point hs hu (by decide)
    (show .ofByte 1 ∈ I by decide +kernel) (show Direction.lt .right (.ofByte 1) u by decide +kernel)
    rfl
  obtain ⟨p,hp,hpu,hup,-⟩ := hall as t ht hend
  have h3 : IsNext (Direction.lt Direction.right.opposite) I u (.ofByte 3) :=
    ⟨by decide +kernel,by decide +kernel,by decide +kernel⟩
  obtain rfl := hp.unique h3
  exact ⟨as,t,ht,hend,hpu,hup⟩

end Sys

end SkipGraph
