import SkipGraph.Handlers
import SkipGraph.Transition

/-!
# Many nodes and a network

A system is a set of nodes and the events in flight between them. The network may
deliver the events in any order and may lose them; which of this a run does is a
condition on its actions, not part of the step.
-/

namespace SkipGraph

open Transition

namespace BaseNode

variable {net : Network} {n n' : BaseNode}

@[simp] theorem sendEvent_reliable (site : Site) (dest : Identifier) (ev : Event) :
    n.sendEvent reliable site dest ev = ⟨n,[⟨dest,ev⟩],.ok ()⟩ := rfl

@[simp] theorem openChannel_core : n.openChannel.core = n.core := rfl

@[simp] theorem insertWaiter_core (nonce : Nonce) (w : Waiter) :
    (n.insertWaiter nonce w).core = n.core := by
  unfold insertWaiter
  cases n.requestIdMap nonce <;> rfl

@[simp] theorem insertWaiter_address (nonce : Nonce) (w : Waiter) :
    (n.insertWaiter nonce w).address = n.address := by
  unfold insertWaiter
  cases n.requestIdMap nonce <;> rfl

@[simp] theorem dropGuard_core (nonce : Nonce) : (n.dropGuard nonce).core = n.core := by
  unfold dropGuard
  cases n.requestIdMap nonce <;> rfl

@[simp] theorem dropGuard_address (nonce : Nonce) : (n.dropGuard nonce).address = n.address := by
  unfold dropGuard
  cases n.requestIdMap nonce <;> rfl

@[simp] theorem startRoundTrip_core (nonce : Nonce) (request : Request) :
    (n.startRoundTrip net nonce request).1.core = n.core := by
  unfold startRoundTrip
  cases net request.dest (request.event n nonce) <;> simp

@[simp] theorem startRoundTrip_address (nonce : Nonce) (request : Request) :
    (n.startRoundTrip net nonce request).1.address = n.address := by
  unfold startRoundTrip
  cases net request.dest (request.event n nonce) <;> simp [openChannel]

@[simp] theorem suspend_fst (started : BaseNode × List Packet × Except Error RoundTrip)
    (next : RoundTrip → Call) : (suspend started next).1 = started.1 := by
  unfold suspend
  cases started.2.2 <;> rfl

theorem searchById_frame (req : IdSearchReq) :
    (n.searchById net req).1.core = n.core ∧ (n.searchById net req).1.address = n.address := by
  unfold searchById
  cases n.core.searchById req with
  | error e => simp
  | ok res => simp only; split <;> simp [sendSearchByIdReq]

theorem join_frame (introducer : Identifier) (maxLevel : ℕ) (nonce : Nonce) :
    (n.joinStage1LinkLevel0 net introducer maxLevel nonce).1.core = n.core ∧
    (n.joinStage1LinkLevel0 net introducer maxLevel nonce).1.address = n.address := by
  simp only [joinStage1LinkLevel0]
  split
  · simp [sendSearchByIdReq]
  · split <;> simp [sendSearchByIdReq]

theorem resume_frame (net : Network) (n : BaseNode) (rt : RoundTrip) (result : Except Error Reply)
    (nonce₁ nonce₂ : Nonce) (c : Call) : (n.resume net rt result nonce₁ nonce₂ c).1.core = n.core ∧
      (n.resume net rt result nonce₁ nonce₂ c).1.address = n.address := by
  cases c with
  | joinSearch direction _ =>
    rcases result with e | (res | res | res | res) <;> simp only [resume,and_self]
    unfold joinAfterSearch
    split <;> simp [getNeighbor]
  | joinNeighbor direction anchor _ =>
    rcases result with e | (res | res | res | res) <;> simp only [resume,and_self]
    unfold joinAfterNeighbor
    cases res.neighbor <;> simp [sendLinkRequest]
  | _ => simp [resume]

theorem callStep_frame {a : CallAction} {r : BaseNode × List Packet}
    (h : n.callStep net a = some r) : r.1.core = n.core ∧ r.1.address = n.address := by
  have hend : ∀ k call rt result nonce₁ nonce₂,
      (n.endRoundTrip net k call rt result nonce₁ nonce₂).1.core = n.core ∧
      (n.endRoundTrip net k call rt result nonce₁ nonce₂).1.address = n.address := by
    intro k call rt result nonce₁ nonce₂
    have hf := resume_frame net (n.dropGuard rt.nonce) rt result nonce₁ nonce₂ call
    simpa [endRoundTrip] using hf
  cases a with
  | searchById req =>
    obtain rfl := Option.some.inj h
    exact searchById_frame req
  | joinStage1LinkLevel0 introducer maxLevel nonce =>
    obtain rfl := Option.some.inj h
    exact join_frame introducer maxLevel nonce
  | getMaxLevel introducer nonce =>
    obtain rfl := Option.some.inj h
    simp [begin,BaseNode.getMaxLevel]
  | getNeighbor src direction level nonce =>
    obtain rfl := Option.some.inj h
    simp [begin,BaseNode.getNeighbor]
  | sendLinkRequest dest dir level nonce =>
    obtain rfl := Option.some.inj h
    simp [begin,BaseNode.sendLinkRequest]
  | wake k i nonce₁ nonce₂ =>
    obtain ⟨call,-,h⟩ := Option.bind_eq_some_iff.mp h
    obtain ⟨rt,-,h⟩ := Option.bind_eq_some_iff.mp h
    obtain ⟨result,-,rfl⟩ := Option.map_eq_some_iff.mp h
    exact hend k call rt result nonce₁ nonce₂
  | timeout k i =>
    obtain ⟨call,-,h⟩ := Option.bind_eq_some_iff.mp h
    obtain ⟨rt,-,h⟩ := Option.bind_eq_some_iff.mp h
    split at h
    · obtain rfl := Option.some.inj h
      exact hend k call rt _ _ _
    · simp at h
  | cancel k =>
    obtain ⟨call,-,h⟩ := Option.bind_eq_some_iff.mp h
    split at h
    · simp at h
    · obtain rfl := Option.some.inj h
      have hfold : ∀ (rts : List RoundTrip) (n : BaseNode),
          (rts.foldl (fun n rt => n.dropGuard rt.nonce) n).core = n.core ∧
          (rts.foldl (fun n rt => n.dropGuard rt.nonce) n).address = n.address := by
        intro rts
        induction rts with
        | nil => simp
        | cons rt rts ih => intro n; simp [ih]
      exact hfold call.waits n

theorem callStep_selfIdentity {a : CallAction} {r : BaseNode × List Packet}
    (h : n.callStep net a = some r) : r.1.selfIdentity = n.selfIdentity := by
  obtain ⟨hc,ha⟩ := callStep_frame h
  simp [selfIdentity,hc,ha]

theorem callStep_id {a : CallAction} {r : BaseNode × List Packet}
    (h : n.callStep net a = some r) : r.1.id = n.id :=
  congrArg Identity.id (callStep_selfIdentity h)

end BaseNode

/-- The nodes, keyed by identifier, and the events in flight. Only members are
registered with the network; `node` is arbitrary elsewhere. -/
structure Sys where
  members : Finset Identifier
  node : Identifier → BaseNode
  inflight : List Packet
  node_id : ∀ x, (node x).id = x

inductive Action
  | deliver (i : ℕ)
  | lose (i : ℕ)
  | call (x : Identifier) (a : CallAction)
  deriving DecidableEq, Repr

def Action.loses : Action → Bool
  | lose _ => true
  | _ => false

namespace Sys

def update (s : Sys) (x : Identifier) (n : BaseNode) (inflight : List Packet) (h : n.id = x) :
    Sys where
  members := s.members
  node := Function.update s.node x n
  inflight := inflight
  node_id y := by
    by_cases hy : y = x
    · subst hy; simpa using h
    · simpa [hy] using s.node_id y

/-- One step of the system: an event in flight is delivered or lost, or a member runs
one segment of one of its own calls. -/
def step (s : Sys) : Action → Option Sys
  | .deliver i =>
    match s.inflight[i]? with
    | some p =>
      if p.dest ∈ s.members then
        let o := (s.node p.dest).processIncomingEvent reliable p.event
        some (s.update p.dest o.node (s.inflight.eraseIdx i ++ o.sent)
          ((BaseNode.process_id _ _ _).trans (s.node_id p.dest)))
      else none
    | none => none
  | .lose i =>
    if i < s.inflight.length then some { s with inflight := s.inflight.eraseIdx i } else none
  | .call x a =>
    if x ∈ s.members then
      match h : (s.node x).callStep reliable a with
      | some r => some (s.update x r.1 (s.inflight ++ r.2)
          ((BaseNode.callStep_id h).trans (s.node_id x)))
      | none => none
    else none

def entry (s : Sys) (x : Identifier) (l : ℕ) (d : Direction) : Option Identity :=
  (s.node x).entry l d

def identity (s : Sys) (x : Identifier) : Identity := (s.node x).selfIdentity

@[simp] theorem identity_id (s : Sys) (x : Identifier) : (s.identity x).id = x := s.node_id x

def handle (s : Sys) (p : Packet) : Outcome :=
  (s.node p.dest).processIncomingEvent reliable p.event

structure Delivered (s : Sys) (i : ℕ) (p : Packet) (t : Sys) : Prop where
  get : s.inflight[i]? = some p
  mem : p.dest ∈ s.members
  members : t.members = s.members
  node : t.node = Function.update s.node p.dest (s.handle p).node
  inflight : t.inflight = s.inflight.eraseIdx i ++ (s.handle p).sent

structure Lost (s : Sys) (i : ℕ) (t : Sys) : Prop where
  lt : i < s.inflight.length
  members : t.members = s.members
  node : t.node = s.node
  inflight : t.inflight = s.inflight.eraseIdx i

structure Called (s : Sys) (x : Identifier) (a : CallAction) (r : BaseNode × List Packet)
    (t : Sys) : Prop where
  mem : x ∈ s.members
  step : (s.node x).callStep reliable a = some r
  members : t.members = s.members
  node : t.node = Function.update s.node x r.1
  inflight : t.inflight = s.inflight ++ r.2

variable {s t : Sys} {a : Action} {x : Identifier} {l : ℕ} {d : Direction}

theorem step_cases (h : s.step a = some t) :
    (∃ i p, a = .deliver i ∧ Delivered s i p t) ∨ (∃ i, a = .lose i ∧ Lost s i t) ∨
    ∃ x ca r, a = .call x ca ∧ Called s x ca r t := by
  cases a with
  | deliver i =>
    simp only [step] at h
    split at h
    · rename_i p hp
      split at h
      · rename_i hm
        obtain rfl := Option.some.inj h
        exact .inl ⟨i,p,rfl,hp,hm,rfl,rfl,rfl⟩
      · simp at h
    · simp at h
  | lose i =>
    simp only [step] at h
    split at h
    · rename_i hl
      obtain rfl := Option.some.inj h
      exact .inr (.inl ⟨i,rfl,hl,rfl,rfl,rfl⟩)
    · simp at h
  | call x ca =>
    simp only [step] at h
    split at h
    · rename_i hm
      split at h
      · rename_i r hr
        obtain rfl := Option.some.inj h
        exact .inr (.inr ⟨x,ca,r,rfl,hm,hr,rfl,rfl,rfl⟩)
      · simp at h
    · simp at h

theorem Delivered.calls {i : ℕ} {p : Packet} (hd : Delivered s i p t) (x : Identifier) :
    (t.node x).calls = (s.node x).calls := by
  rw [hd.node,Function.update_apply]
  split
  · rename_i hx
    rw [handle,BaseNode.process_calls,hx]
  · rfl

theorem exists_deliver {i : ℕ} {p : Packet} (hi : s.inflight[i]? = some p)
    (hp : p.dest ∈ s.members) : ∃ t, s.step (.deliver i) = some t ∧ Delivered s i p t := by
  simp only [step,hi,hp,if_true]
  exact ⟨_,rfl,hi,hp,rfl,rfl,rfl⟩

theorem exists_call {ca : CallAction} {r : BaseNode × List Packet} (hx : x ∈ s.members)
    (hr : (s.node x).callStep reliable ca = some r) :
    ∃ t, s.step (.call x ca) = some t ∧ Called s x ca r t := by
  simp only [step,hx,if_true]
  split
  · rename_i r' hr'
    obtain rfl : r' = r := Option.some.inj (hr'.symm.trans hr)
    exact ⟨_,rfl,hx,hr,rfl,rfl,rfl⟩
  · rename_i hn
    simp [hr] at hn

theorem members_step (h : s.step a = some t) : t.members = s.members := by
  rcases step_cases h with ⟨i,p,-,h⟩ | ⟨i,-,h⟩ | ⟨x,ca,r,-,h⟩ <;> exact h.members

theorem identity_step (h : s.step a = some t) (x : Identifier) : t.identity x = s.identity x := by
  rcases step_cases h with ⟨i,p,-,h⟩ | ⟨i,-,h⟩ | ⟨y,ca,r,-,h⟩
  · simp only [identity,h.node,Function.update_apply]
    split
    · rename_i hx
      subst hx
      exact BaseNode.process_selfIdentity _ _ _
    · rfl
  · simp [identity,h.node]
  · simp only [identity,h.node,Function.update_apply]
    split
    · rename_i hx
      subst hx
      exact BaseNode.callStep_selfIdentity h.step
    · rfl

/-- A write: the delivered event offered the identity, the receiver's check let it pass,
and it is no farther than the previous entry. -/
structure Written (s : Sys) (x : Identifier) (l : ℕ) (d : Direction) (i : ℕ) (p : Packet)
    (c : Identity) (t : Sys) : Prop where
  delivered : Delivered s i p t
  dest : p.dest = x
  entry : t.entry x l d = some c
  offers : p.event.Offers l d c
  belongs : (s.node x).belongsInOwnSlot l d c = true
  nearer : ∀ e, s.entry x l d = some e → d.le c.id e.id

/-- A slot keeps its contents through a step or is written by a delivery to its owner. -/
theorem entry_step (h : s.step a = some t) (x : Identifier) (l : ℕ) (d : Direction) :
    t.entry x l d = s.entry x l d ∨ ∃ i p c, a = .deliver i ∧ Written s x l d i p c t := by
  rcases step_cases h with ⟨i,p,ha,h⟩ | ⟨i,-,h⟩ | ⟨y,ca,r,-,h⟩
  · by_cases hx : x = p.dest
    · subst hx
      have hn : t.entry p.dest l d = (s.handle p).node.entry l d := by simp [entry,h.node]
      rcases BaseNode.process_entry reliable (s.node p.dest) p.event l d with hh | ⟨c,hc,ho,hb,hnear⟩
      · exact .inl (hn.trans hh)
      · exact .inr ⟨i,p,c,ha,h,rfl,hn.trans hc,ho,hb,hnear⟩
    · left
      simp [entry,h.node,hx]
  · left
    simp [entry,h.node]
  · left
    by_cases hx : x = y
    · subst hx
      simp [entry,h.node,BaseNode.entry,(BaseNode.callStep_frame h.step).1]
    · simp [entry,h.node,hx]

/-- A populated slot stays populated and only moves nearer to its owner. -/
theorem entry_step_some (h : s.step a = some t) {e : Identity} (he : s.entry x l d = some e) :
    ∃ e', t.entry x l d = some e' ∧ d.le e'.id e.id := by
  rcases entry_step h x l d with hh | ⟨i,p,c,-,hw⟩
  · exact ⟨e,hh.trans he,Direction.le_refl⟩
  · exact ⟨c,hw.entry,hw.nearer e he⟩

theorem entry_none_step (h : s.step a = some t) (he : t.entry x l d = none) :
    s.entry x l d = none := by
  cases hs : s.entry x l d with
  | none => rfl
  | some e =>
    obtain ⟨e',he',-⟩ := entry_step_some h hs
    simp [he] at he'

/-- A delivered `SetLinkOp` whose linked node belongs in the slot leaves the slot
populated, by that node or by a nearer one. -/
theorem entry_of_setLink {i : ℕ} {nonce : Nonce} {y : Identity}
    (hd : Delivered s i ⟨x,.setLinkOp ⟨nonce,d,l,some y⟩⟩ t)
    (hb : (s.node x).belongsInOwnSlot l d y = true) :
    ∃ f, t.entry x l d = some f ∧ d.le f.id y.id := by
  have hn : t.entry x l d =
      (s.handle ⟨x,.setLinkOp ⟨nonce,d,l,some y⟩⟩).node.entry l d := by
    simp [entry,hd.node]
  obtain ⟨m,hh,hm⟩ := (s.node x).handleSetLinkResponse_cases ⟨nonce,d,l,some y⟩
  rw [hn,handle,BaseNode.processIncomingEvent,hh,BaseNode.entry_resolveWaiter]
  rcases hm with ⟨rfl,hstay⟩ | ⟨c,hc,-,hi⟩
  · obtain ⟨f,hf,hlt⟩ := hstay y rfl hb
    exact ⟨f,hf,Direction.le_of_lt hlt⟩
  · obtain rfl : y = c := Option.some.inj hc
    exact ⟨y,by simp [hi.entry],Direction.le_refl⟩

/-- An event in flight after a step was so before, or is a reaction to the delivered
event, or starts a round trip. -/
theorem mem_inflight_step (h : s.step a = some t) {q : Packet} (hq : q ∈ t.inflight) :
    q ∈ s.inflight ∨ (∃ i p, a = .deliver i ∧ Delivered s i p t ∧ q ∈ (s.handle p).sent) ∨
    ∃ x ca r, a = .call x ca ∧ Called s x ca r t ∧ q ∈ r.2 := by
  rcases step_cases h with ⟨i,p,ha,h⟩ | ⟨i,-,h⟩ | ⟨y,ca,r,ha,h⟩
  · rw [h.inflight] at hq
    rcases List.mem_append.mp hq with hq | hq
    · exact .inl (List.mem_of_mem_eraseIdx hq)
    · exact .inr (.inl ⟨i,p,ha,h,hq⟩)
  · rw [h.inflight] at hq
    exact .inl (List.mem_of_mem_eraseIdx hq)
  · rw [h.inflight] at hq
    rcases List.mem_append.mp hq with hq | hq
    · exact .inl hq
    · exact .inr (.inr ⟨y,ca,r,ha,h,hq⟩)

theorem inflight_step_mem (h : s.step a = some t) {q : Packet} (hq : q ∈ s.inflight) :
    q ∈ t.inflight ∨ (∃ i, a = .deliver i ∧ Delivered s i q t) ∨ ∃ i, a = .lose i := by
  have herase : ∀ i p, s.inflight[i]? = some p → q ∈ s.inflight.eraseIdx i ∨ q = p := by
    intro i p hp
    obtain ⟨j,hj⟩ := List.mem_iff_getElem?.mp hq
    by_cases hji : j = i
    · subst hji
      exact .inr (Option.some.inj (hj.symm.trans hp))
    · exact .inl (List.mem_eraseIdx_iff_getElem?.mpr ⟨j,hji,hj⟩)
  rcases step_cases h with ⟨i,p,ha,h⟩ | ⟨i,ha,-⟩ | ⟨y,ca,r,-,h⟩
  · rw [h.inflight]
    rcases herase i p h.get with hq | rfl
    · exact .inl (List.mem_append_left _ hq)
    · exact .inr (.inl ⟨i,ha,h⟩)
  · exact .inr (.inr ⟨i,ha⟩)
  · rw [h.inflight]
    exact .inl (List.mem_append_left _ hq)

end Sys

end SkipGraph
