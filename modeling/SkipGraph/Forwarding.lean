import SkipGraph.SortedList

/-!
# Forwarded link requests

A link request is forwarded from table to table while every table on its way may
change. Whether a candidate belongs in a slot depends only on the two identities, so
the check made at one hop carries over to the next through the prefix relation.
-/

namespace SkipGraph

open Transition StrictOrder

namespace Sys

variable {s t : Sys} {a : Action} {req : LinkReq} {v w x : Identifier} {l : ℕ} {d : Direction}
  {c : Identity}

def Belongs (s : Sys) (v : Identifier) (l : ℕ) (d : Direction) (c : Identity) : Prop :=
  (s.node v).belongsInOwnSlot l d c = true

theorem belongs_iff : s.Belongs v l d c ↔ l < lookupTableLevels ∧ d.lt v c.id ∧
    l ≤ (s.identity v).memVec.commonPrefixBit c.memVec := by
  rw [Belongs,BaseNode.belongsInOwnSlot_iff,s.node_id]
  rfl

theorem belongs_step (h : s.step a = some t) : t.Belongs v l d c ↔ s.Belongs v l d c := by
  rw [belongs_iff,belongs_iff,identity_step h]

theorem belongs_run {as : List Action} {ok : Sys → Action → Prop} (h : Trace Sys.step ok s as t)
    (hb : s.Belongs v l d c) : t.Belongs v l d c :=
  h.invariant (P := fun t => t.Belongs v l d c) hb fun _ _ _ hi _ hs => (belongs_step hs).mpr hi

theorem Honest.belongs_entry (hs : s.Honest) (hv : v ∈ s.members) (hb : s.Belongs v l d c)
    {e : Identity} (he : s.entry v l d = some e) (hlt : d.lt e.id c.id) : s.Belongs e.id l d c := by
  obtain ⟨hl,-,hvc⟩ := belongs_iff.mp hb
  have hve : l ≤ (s.identity v).memVec.commonPrefixBit e.memVec := (hs.ordered v hv l d e he).2
  have hev : l ≤ (s.identity e.id).memVec.commonPrefixBit (s.identity v).memVec := by
    rw [← congrArg Identity.memVec (hs.entries v hv l d e he).2,
      MembershipVector.commonPrefixBit_comm]
    exact hve
  exact belongs_iff.mpr ⟨hl,hlt,MembershipVector.le_commonPrefixBit_trans hev hvc⟩

theorem belongs_mirror (hc : s.Genuine c) (hb : s.Belongs v l d c) :
    s.Belongs c.id l d.opposite (s.identity v) := by
  obtain ⟨hl,hlt,hpre⟩ := belongs_iff.mp hb
  refine belongs_iff.mpr ⟨hl,by simpa using hlt,?_⟩
  rw [MembershipVector.commonPrefixBit_comm,← congrArg Identity.memVec hc.2]
  exact hpre

/-- `req` gets from node `v` in state `s` to node `x` in state `t`, forwarded by the
nodes `path` in turn. Between two hops the system takes any steps. -/
inductive Travels (req : LinkReq) : Sys → Identifier → List Identifier → Sys → Identifier → Prop
  | here (s : Sys) (v : Identifier) : Travels req s v [] s v
  | wait {s s' v path t x} (a : Action) : s.step a = some s' → Travels req s' v path t x →
      Travels req s v path t x
  | hop {s s' v w path t x} (i : ℕ) : s.inflight[i]? = some ⟨v,.getLinkOp req⟩ →
      s.step (.deliver i) = some s' →
      ⟨w,.getLinkOp req⟩ ∈ (s.handle ⟨v,.getLinkOp req⟩).sent →
      Travels req s' w path t x → Travels req s v (v::path) t x

/-- What holds of a request wherever it is in flight. -/
structure Legitimate (s : Sys) (req : LinkReq) (v : Identifier) : Prop where
  honest : s.Honest
  genuine : s.Genuine req.candidate
  mem : v ∈ s.members
  belongs : s.Belongs v req.level req.dir req.candidate

theorem Legitimate.step (h : s.Legitimate req v) (hs : s.step a = some t) : t.Legitimate req v :=
  ⟨h.honest.step hs,genuine_step hs h.genuine,by rw [members_step hs]; exact h.mem,
    (belongs_step hs).mpr h.belongs⟩

/-- A hop keeps the request legitimate and moves it strictly towards its candidate. -/
theorem Legitimate.forward (h : s.Legitimate req v)
    (hw : ⟨w,.getLinkOp req⟩ ∈ (s.handle ⟨v,.getLinkOp req⟩).sent) :
    s.Legitimate req w ∧ req.dir.lt v w ∧ req.dir.lt w req.candidate.id := by
  have hr := h.honest.sided.handle_reacts (p := ⟨v,.getLinkOp req⟩) h.mem hw
  cases hr with
  | forward req e hb he hlt =>
    have hg := h.honest.entries v h.mem req.level req.dir e he
    exact ⟨⟨h.honest,h.genuine,hg.1,h.honest.belongs_entry h.mem hb he hlt⟩,
      h.honest.sided v h.mem _ _ e he,hlt⟩

theorem Travels.legitimate {path : List Identifier} (h : Travels req s v path t x)
    (hl : s.Legitimate req v) : t.Legitimate req x ∧ (path++[x]).Pairwise req.dir.lt ∧
      (∀ z ∈ path++[x], req.dir.le v z) ∧ t.members = s.members ∧
      path.length + (between req.dir.lt s.members x req.candidate.id).card ≤
        (between req.dir.lt s.members v req.candidate.id).card := by
  induction h with
  | here => simp [hl]
  | wait a hs _ ih =>
    have hh := ih (hl.step hs)
    rwa [members_step hs] at hh
  | @hop s s' v w path t x i _ hs hw _ ih =>
    obtain ⟨hlw,hvw,hwc⟩ := hl.forward hw
    obtain ⟨hlt,hpair,hle,hmem,hcard⟩ := ih (hlw.step hs)
    rw [members_step hs] at hmem hcard
    refine ⟨hlt,?_,?_,hmem,?_⟩
    · exact List.pairwise_cons.mpr ⟨fun z hz => Direction.lt_of_lt_of_le hvw (hle z hz),hpair⟩
    · rintro z (_ | ⟨_,hz⟩)
      · exact Direction.le_refl
      · exact Direction.le_of_lt (Direction.lt_of_lt_of_le hvw (hle z hz))
    · have := card_between_lt hlw.mem hvw hwc
      simp only [List.length_cons]
      omega

/-- Delivering a legitimate request never drops it: it is forwarded to a node strictly
between, or accepted with a reply to its candidate. -/
theorem Legitimate.served (h : s.Legitimate req v) :
    (∃ w, (s.handle ⟨v,.getLinkOp req⟩).sent = [⟨w,.getLinkOp req⟩]) ∨
    (s.handle ⟨v,.getLinkOp req⟩).sent = [⟨req.candidate.id,
      .setLinkOp ⟨req.nonce,req.dir.opposite,req.level,some (s.identity v)⟩⟩] := by
  rcases h.honest.sided.handle_cases (p := ⟨v,.getLinkOp req⟩) h.mem with ⟨-,ha⟩ | ⟨q,hq,-,hr⟩
  · exact absurd h.belongs (by simp [Belongs,show _ = false from ha])
  · cases hr with
    | forward req e hb he hlt => exact .inl ⟨e.id,hq⟩
    | accept req hb hnear hn => exact .inr hq

/-- A request that passes the own-slot check where it is first delivered passes it at
every later hop, visits strictly ordered nodes only, and is served at each: it is
forwarded at most as often as there are nodes between its first receiver and its
candidate, and its acceptance passes the candidate's own check whenever it arrives. -/
theorem link_request_progresses {path : List Identifier} (hs : s.Honest) (hv : v ∈ s.members)
    (hp : ⟨v,.getLinkOp req⟩ ∈ s.inflight) (hb : s.Belongs v req.level req.dir req.candidate)
    (h : Travels req s v path t x) :
    t.Belongs x req.level req.dir req.candidate ∧
    (path++[x]).Pairwise req.dir.lt ∧ (path++[x]).Nodup ∧
    path.length ≤ (between req.dir.lt s.members v req.candidate.id).card ∧
    ((∃ w, (t.handle ⟨x,.getLinkOp req⟩).sent = [⟨w,.getLinkOp req⟩] ∧
        t.Belongs w req.level req.dir req.candidate ∧ req.dir.lt x w ∧
        req.dir.lt w req.candidate.id ∧
        path.length < (between req.dir.lt s.members v req.candidate.id).card) ∨
      ((t.handle ⟨x,.getLinkOp req⟩).sent = [⟨req.candidate.id,
          .setLinkOp ⟨req.nonce,req.dir.opposite,req.level,some (t.identity x)⟩⟩] ∧
        ∀ as t', Trace Sys.step (fun _ _ => True) t as t' →
          t'.Belongs req.candidate.id req.level req.dir.opposite (t.identity x))) := by
  have hg := hs.offers _ hp req.level req.dir req.candidate (.inl ⟨req.nonce,rfl⟩)
  obtain ⟨hl,hpair,-,hmem,hcard⟩ := h.legitimate ⟨hs,hg,hv,hb⟩
  refine ⟨hl.belongs,hpair,hpair.imp Direction.ne_of_lt,by omega,?_⟩
  rcases hl.served with ⟨w,hw⟩ | hacc
  · left
    obtain ⟨hlw,hxw,hwc⟩ := hl.forward (w := w) (by simp [hw])
    have hpos := card_between_lt hlw.mem hxw hwc
    rw [hmem] at hpos
    exact ⟨w,hw,hlw.belongs,hxw,hwc,by omega⟩
  · exact .inr ⟨hacc,fun as t' ht => belongs_run ht (belongs_mirror hl.genuine hl.belongs)⟩

theorem link_request_progresses_past_three :
    let req : LinkReq := ⟨⟨7⟩,rowIdentity (.ofByte 5),.right,0⟩
    ∃ t : Sys, t.Belongs (.ofByte 3) 0 .right (rowIdentity (.ofByte 5)) ∧
      (t.handle ⟨.ofByte 3,.getLinkOp req⟩).sent ≠ [] := by
  intro req
  let r := row [.ofByte 1,.ofByte 3] [.ofByte 5]
  have hrun : (r.step (.call (.ofByte 5) (.sendLinkRequest (.ofByte 1) .right 0 ⟨7⟩))).any
      (fun s => (s.step (.deliver 0)).any fun _ => decide (.ofByte 1 ∈ s.members ∧
        s.inflight[0]? = some ⟨.ofByte 1,.getLinkOp req⟩ ∧
        (s.node (.ofByte 1)).belongsInOwnSlot 0 .right req.candidate = true ∧
        ⟨.ofByte 3,.getLinkOp req⟩ ∈ (s.handle ⟨.ofByte 1,.getLinkOp req⟩).sent)) = true := by
    decide +kernel
  obtain ⟨s,hs,hrest⟩ := (Option.any_eq_true _ _).mp hrun
  obtain ⟨t,ht,hd⟩ := (Option.any_eq_true _ _).mp hrest
  obtain ⟨hv,hi,hb,hw⟩ := of_decide_eq_true hd
  have h := link_request_progresses ((honest_row _ _).step hs) hv (List.mem_of_getElem? hi) hb
    (.hop 0 hi ht hw (.here t _))
  refine ⟨t,h.1,?_⟩
  rcases h.2.2.2.2 with ⟨w,hh,-⟩ | ⟨hh,-⟩ <;> simp [hh]

end Sys

end SkipGraph
