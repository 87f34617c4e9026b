import SkipGraph.System

/-!
# The ordering and prefix invariant of one node

A single node under arbitrary peers: any event of any content may reach it at any
time, over networks that may refuse any send, between any two segments of its own
calls. The two link handlers are the only writers and both check the slot.
-/

namespace SkipGraph

open Transition

/-- What can happen to a node: an event arrives, or one of its own calls runs on. -/
inductive LocalAction
  | receive (net : Network) (ev : Event)
  | call (net : Network) (a : CallAction)

namespace BaseNode

/-- Every entry lies on its slot's side and shares the prefix of its slot's level. -/
def SlotsOrdered (n : BaseNode) : Prop :=
  ∀ l d e, n.entry l d = some e → d.lt n.id e.id ∧ l ≤ n.memVec.commonPrefixBit e.memVec

def localStep (n : BaseNode) : LocalAction → Option BaseNode
  | .receive net ev => some (n.processIncomingEvent net ev).node
  | .call net a => (n.callStep net a).map Prod.fst

variable {n n' : BaseNode} {net : Network}

theorem slotsOrdered_new (id : Identifier) (memVec : MembershipVector) (address : Address) :
    (new ⟨id,memVec,.new⟩ address).SlotsOrdered := by
  intro l d e h
  simp [new,entry] at h

theorem slotsOrdered_process (ev : Event) (h : n.SlotsOrdered) :
    (n.processIncomingEvent net ev).node.SlotsOrdered := by
  intro l d e he
  rw [process_id,process_memVec]
  rcases process_entry net n ev l d with hh | ⟨c,hc,-,hb,-⟩
  · exact h l d e (hh.symm.trans he)
  · obtain rfl : c = e := Option.some.inj (hc.symm.trans he)
    exact (belongsInOwnSlot_iff.mp hb).2

theorem slotsOrdered_of_frame (hc : n'.core = n.core) (h : n.SlotsOrdered) : n'.SlotsOrdered := by
  intro l d e he
  simp only [entry,id,memVec,hc] at he ⊢
  exact h l d e he

theorem slotsOrdered_localStep {a : LocalAction} (h : n.SlotsOrdered)
    (hs : n.localStep a = some n') : n'.SlotsOrdered ∧ n'.selfIdentity = n.selfIdentity := by
  cases a with
  | receive net ev =>
    obtain rfl := Option.some.inj hs
    exact ⟨slotsOrdered_process ev h,process_selfIdentity net n ev⟩
  | call net a =>
    obtain ⟨r,hr,rfl⟩ := Option.map_eq_some_iff.mp hs
    exact ⟨slotsOrdered_of_frame (callStep_frame hr).1 h,callStep_selfIdentity hr⟩

/-- Whatever peers send and whatever the node calls, its slots stay ordered and keep to
the prefix of their level. -/
theorem slots_ordered_under_any_peers (as : List LocalAction) (hs : n.SlotsOrdered)
    (h : Trace localStep (fun _ _ => True) n as n') :
    (∀ l e, n'.entry l .right = some e → n.id < e.id) ∧
    (∀ l e, n'.entry l .left = some e → e.id < n.id) ∧
    ∀ l d e, n'.entry l d = some e → l ≤ n.memVec.commonPrefixBit e.memVec := by
  have hinv : n'.SlotsOrdered ∧ n'.selfIdentity = n.selfIdentity := by
    apply h.invariant (P := fun m => m.SlotsOrdered ∧ m.selfIdentity = n.selfIdentity) ⟨hs,rfl⟩
    intro m a m' hm _ hstep
    obtain ⟨ho,hi⟩ := slotsOrdered_localStep hm.1 hstep
    exact ⟨ho,hi.trans hm.2⟩
  have hid : n'.id = n.id := congrArg Identity.id hinv.2
  have hmv : n'.memVec = n.memVec := congrArg Identity.memVec hinv.2
  refine ⟨fun l e he => ?_,fun l e he => ?_,fun l d e he => ?_⟩
  · exact hid ▸ (hinv.1 l .right e he).1
  · exact hid ▸ (hinv.1 l .left e he).1
  · exact hmv ▸ (hinv.1 l d e he).2

theorem slots_ordered_under_forged_events :
    let me := new ⟨.ofByte 5,⟨Vector.replicate _ 0⟩,.new⟩ ⟨"",""⟩
    let c : Identity := ⟨.ofByte 7,⟨Vector.replicate _ 0⟩,⟨"",""⟩⟩
    ∃ n' : BaseNode, n'.entry 3 .right = some c ∧ n'.calls.length = 1 ∧
      ∀ l e, n'.entry l .right = some e → me.id < e.id := by
  intro me c
  obtain ⟨n',ht,hc⟩ := exists_trace_of_runWhile localStep (fun _ _ => true) me
    [.receive reliable (.getLinkOp ⟨⟨0⟩,c,.left,0⟩),
      .receive reliable (.setLinkOp ⟨⟨1⟩,.right,3,some c⟩),
      .call reliable (.joinStage1LinkLevel0 c.id 0 ⟨2⟩)]
    (fun n => decide (n.entry 3 .right = some c ∧ n.calls.length = 1)) (by decide +kernel)
  obtain ⟨he,hlen⟩ := of_decide_eq_true hc
  have h := slots_ordered_under_any_peers _ (slotsOrdered_new _ _ _)
    (ht.mono fun _ _ _ => trivial)
  exact ⟨n',he,hlen,h.1⟩

end BaseNode

end SkipGraph
