import SkipGraph.OwnSlots
import SkipGraph.CallEffects

/-!
# Honest systems

Every node runs the code of this development, so the identities in tables and link
messages are the true identities of members. No condition on the schedule is needed:
events may be delayed, reordered and lost, and calls may time out or be cancelled.
-/

namespace SkipGraph

open Transition

namespace Sys

variable {s t : Sys} {a : Action}

/-- A true identity of a member. -/
def Genuine (s : Sys) (c : Identity) : Prop := c.id ∈ s.members ∧ c = s.identity c.id

structure Honest (s : Sys) : Prop where
  ordered : ∀ x ∈ s.members, (s.node x).SlotsOrdered
  entries : ∀ x ∈ s.members, ∀ l d e, s.entry x l d = some e → s.Genuine e
  offers : ∀ p ∈ s.inflight, ∀ l d c, p.event.Offers l d c → s.Genuine c

theorem genuine_step (h : s.step a = some t) {c : Identity} (hc : s.Genuine c) : t.Genuine c :=
  ⟨by rw [members_step h]; exact hc.1,by rw [identity_step h]; exact hc.2⟩

theorem genuine_self {x : Identifier} (hx : x ∈ s.members) : s.Genuine (s.node x).selfIdentity :=
  ⟨by rw [show (s.node x).selfIdentity.id = x from s.node_id x]; exact hx,
    by rw [show (s.node x).selfIdentity.id = x from s.node_id x]; rfl⟩

/-- Every entry lies on its slot's side of its owner. -/
def Sided (s : Sys) : Prop := ∀ x ∈ s.members, ∀ l d e, s.entry x l d = some e → d.lt x e.id

theorem Honest.sided (h : s.Honest) : s.Sided := by
  intro x hx l d e he
  have hlt := (h.ordered x hx l d e he).1
  rwa [s.node_id] at hlt

theorem Sided.step (hs : s.Sided) (h : s.step a = some t) : t.Sided := by
  intro x hx l d e he
  rw [members_step h] at hx
  rcases entry_step h x l d with hh | ⟨i,p,c,-,hw⟩
  · exact hs x hx l d e (hh.symm.trans he)
  · obtain rfl : c = e := Option.some.inj (hw.entry.symm.trans he)
    have hb := (BaseNode.belongsInOwnSlot_iff.mp hw.belongs).2.1
    rwa [s.node_id] at hb

theorem Sided.handle_cases (hs : s.Sided) {p : Packet} (hp : p.dest ∈ s.members) :
    ((s.handle p).sent = [] ∧ (s.node p.dest).Absorbs p.event) ∨
    ∃ q, (s.handle p).sent = [q] ∧ (s.handle p).result = .ok () ∧
      (s.node p.dest).Reacts (s.handle p).node p.event q :=
  (s.node p.dest).process_reacts p.event fun l d e he hid =>
    Direction.ne_of_lt (hs p.dest hp l d e he) ((s.node_id p.dest).symm.trans hid.symm)

theorem Sided.handle_reacts (hs : s.Sided) {p q : Packet} (hp : p.dest ∈ s.members)
    (hq : q ∈ (s.handle p).sent) : (s.node p.dest).Reacts (s.handle p).node p.event q := by
  rcases hs.handle_cases hp with ⟨h,-⟩ | ⟨r,h,-,hr⟩
  · simp [h] at hq
  · obtain rfl : q = r := by simpa [h] using hq
    exact hr

theorem callStep_sent {n : BaseNode} {ca : CallAction} {r : BaseNode × List Packet}
    (h : n.callStep reliable ca = some r) {q : Packet} (hq : q ∈ r.2) :
    ∃ rt : RoundTrip, q = rt.packet n := by
  obtain ⟨ended,new,n₁,calls,hs⟩ := BaseNode.callStep_segment h
  rw [hs.sent] at hq
  obtain ⟨rt,-,rfl⟩ := List.mem_map.mp hq
  exact ⟨rt,rfl⟩

theorem callStep_not_setLink {n : BaseNode} {ca : CallAction} {r : BaseNode × List Packet}
    (h : n.callStep reliable ca = some r) {q : Packet} (hq : q ∈ r.2) (res : LinkRes) :
    q.event ≠ .setLinkOp res := by
  obtain ⟨⟨request,nonce,rx⟩,rfl⟩ := callStep_sent h hq
  cases request <;> simp [RoundTrip.packet,Request.event]

theorem packet_offers {n : BaseNode} {rt : RoundTrip} {l : ℕ} {d : Direction} {c : Identity}
    (h : (rt.packet n).event.Offers l d c) : c = n.selfIdentity := by
  obtain ⟨request,nonce,rx⟩ := rt
  cases request <;> simp_all [RoundTrip.packet,Request.event,Event.Offers]

theorem ordered_step (h : s.step a = some t) (ho : ∀ x ∈ s.members, (s.node x).SlotsOrdered) :
    ∀ x ∈ t.members, (t.node x).SlotsOrdered := by
  intro x hx
  rw [members_step h] at hx
  have hmv : (t.node x).memVec = (s.node x).memVec :=
    congrArg Identity.memVec (identity_step h x)
  intro l d e he
  rw [t.node_id x,hmv]
  rcases entry_step h x l d with hh | ⟨i,p,c,-,hw⟩
  · have hs := ho x hx l d e (hh.symm.trans he)
    rwa [s.node_id x] at hs
  · obtain rfl : c = e := Option.some.inj (hw.entry.symm.trans he)
    have hb := (BaseNode.belongsInOwnSlot_iff.mp hw.belongs).2
    rwa [s.node_id x] at hb

/-- Tables and link messages name members only. -/
structure Known (s : Sys) : Prop where
  entries : ∀ x ∈ s.members, ∀ l d e, s.entry x l d = some e → e.id ∈ s.members
  offers : ∀ p ∈ s.inflight, ∀ l d c, p.event.Offers l d c → c.id ∈ s.members

theorem Known.step (hk : s.Known) (hs : s.Sided) (h : s.step a = some t) : t.Known where
  entries x hx l d e he := by
    rw [members_step h] at hx ⊢
    rcases entry_step h x l d with hh | ⟨i,p,c,-,hw⟩
    · exact hk.entries x hx l d e (hh.symm.trans he)
    · obtain rfl : c = e := Option.some.inj (hw.entry.symm.trans he)
      exact hk.offers p (List.mem_of_getElem? hw.delivered.get) l d c hw.offers
  offers q hq l d c ho := by
    rw [members_step h]
    rcases mem_inflight_step h hq with hq | ⟨i,p,-,hd,hq⟩ | ⟨x,ca,r,-,hc,hq⟩
    · exact hk.offers q hq l d c ho
    · have hp := List.mem_of_getElem? hd.get
      have hr := hs.handle_reacts hd.mem hq
      obtain ⟨dest,ev⟩ := p
      cases hr with
      | forward req e hb he hlt => exact hk.offers _ hp l d c ho
      | accept req hb hnear hn =>
        obtain rfl : (s.node dest).selfIdentity = c := by simp_all [Event.Offers]
        exact (genuine_self hd.mem).1
      | _ => simp [Event.Offers] at ho
    · obtain ⟨rt,rfl⟩ := callStep_sent hc.step hq
      obtain rfl := packet_offers ho
      exact (genuine_self hc.mem).1

theorem Honest.step (hs : s.Honest) (h : s.step a = some t) : t.Honest where
  ordered := ordered_step h hs.ordered
  entries x hx l d e he := by
    rw [members_step h] at hx
    apply genuine_step h
    rcases entry_step h x l d with hh | ⟨i,p,c,-,hw⟩
    · exact hs.entries x hx l d e (hh.symm.trans he)
    · obtain rfl : c = e := Option.some.inj (hw.entry.symm.trans he)
      exact hs.offers p (List.mem_of_getElem? hw.delivered.get) l d c hw.offers
  offers q hq l d c ho := by
    apply genuine_step h
    rcases mem_inflight_step h hq with hq | ⟨i,p,-,hd,hq⟩ | ⟨x,ca,r,-,hc,hq⟩
    · exact hs.offers q hq l d c ho
    · have hp := List.mem_of_getElem? hd.get
      have hr := hs.sided.handle_reacts hd.mem hq
      obtain ⟨dest,ev⟩ := p
      cases hr with
      | forward req e hb he hlt => exact hs.offers _ hp l d c ho
      | accept req hb hnear hn =>
        obtain rfl : (s.node dest).selfIdentity = c := by simp_all [Event.Offers]
        exact genuine_self hd.mem
      | _ => simp [Event.Offers] at ho
    · obtain ⟨rt,rfl⟩ := callStep_sent hc.step hq
      obtain rfl := packet_offers ho
      exact genuine_self hc.mem

theorem Honest.known (hs : s.Honest) : s.Known :=
  ⟨fun x hx l d e he => (hs.entries x hx l d e he).1,
    fun p hp l d c ho => (hs.offers p hp l d c ho).1⟩

/-- Honest systems stay honest under every schedule. -/
theorem Honest.run {as : List Action} {ok : Sys → Action → Prop} (h : Trace Sys.step ok s as t)
    (hs : s.Honest) : t.Honest :=
  h.invariant hs fun _ _ _ hi _ hstep => hi.step hstep

end Sys

end SkipGraph
