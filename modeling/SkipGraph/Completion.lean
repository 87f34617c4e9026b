import SkipGraph.Gaps
import Mathlib.Algebra.BigOperators.Group.Finset.Basic
import Mathlib.Algebra.Order.BigOperators.Group.List

/-!
# Runs of joins come to an end

Every delivery and every resumed call lowers the `rank` of a system: an event is worth
the hops and replies it can still cause, a call the round trips it can still start. A
single join can go on until the system is quiet.
-/

namespace SkipGraph

open StrictOrder BaseNode

/-- The steps that carry started joins on. -/
def Action.runs : Action → Bool
  | deliver _ => true
  | call _ (.wake _ _ _ _) => true
  | _ => false

def Event.replyTo? : Event → Option Identifier
  | searchByIdRequest req => some req.origin
  | getMaxLevelOp req => some req.origin
  | getNeighborOp req => some req.origin
  | getLinkOp req => some req.candidate.id
  | _ => none

/-- A bound on the deliveries that an event can cause among the nodes `M`. -/
def Packet.weight (M : Finset Identifier) (p : Packet) : ℕ :=
  match p.event with
  | .searchByIdRequest req => 2 + (past req.direction.lt M p.dest).card
  | .getLinkOp req => 2 + (past req.dir.lt M p.dest).card
  | .getMaxLevelOp _ => 2
  | .getNeighborOp _ => 2
  | _ => 1

/-- A bound on the resumptions of a call and on the deliveries its requests can cause,
among `N` nodes. -/
def Call.rank (N : ℕ) : Call → ℕ
  | .joinSearch _ _ => 10 + 2 * N
  | .joinNeighbor _ _ _ => 7 + 2 * N
  | c => c.waits.length

theorem Packet.weight_pos (M : Finset Identifier) (p : Packet) : 0 < p.weight M := by
  unfold weight
  split <;> omega

theorem Call.rank_settled (N : ℕ) (d : Direction) (a : Identifier) (q : Option Identity)
    (sl : LinkFuture) (ql : Option LinkFuture) :
    (settled d a q sl ql).rank N = (joinLink d a q sl ql).waits.length := by
  rw [← settled_waits]
  rcases sl with rt | r
  · rfl
  · rcases ql with _ | rt | r' <;> rfl

/-- What a resumed call has left and the events it sends are worth less than the call. -/
theorem Resumes.rank_lt {M : Finset Identifier} {n : BaseNode} {id : Identifier} {rt : RoundTrip}
    {result : Except Error Reply} {c c' : Call} {new : List RoundTrip}
    (h : Resumes id rt result c new c') (hrt : rt ∈ c.waits) :
    c'.rank M.card + ((new.map (RoundTrip.packet n)).map (Packet.weight M)).sum < c.rank M.card := by
  have hlink : ∀ d x, (past (Direction.lt d) M x).card ≤ M.card := fun d x =>
    Finset.card_filter_le _ _
  cases h with
  | link d a q sl ql =>
    have hr : Resumes id rt result (.joinLink d a q sl ql) [] _ := .link d a q sl ql
    have hw := hr.waits_eq hrt
    rw [Call.settled_waits,List.append_nil] at hw
    have hlt : ((Call.joinLink d a q sl ql).waits.filter (· ≠ rt)).length <
        (Call.joinLink d a q sl ql).waits.length :=
      List.length_filter_lt_length_iff_exists.mpr ⟨rt,hrt,by simp⟩
    rw [Call.rank_settled,hw]
    simpa [Call.rank] using hlt
  | linkBoth d a rt' res q nonce₁ nonce₂ rx₁ rx₂ =>
    have h₁ := hlink d a
    have h₂ := hlink d.opposite q.id
    simp [Call.rank,Call.waits,LinkFuture.waits,RoundTrip.packet,Packet.weight,Request.event,
      Request.dest]
    omega
  | linkOne d a rt' res nonce rx =>
    have h₁ := hlink d a
    simp [Call.rank,Call.waits,LinkFuture.waits,RoundTrip.packet,Packet.weight,Request.event,
      Request.dest]
    omega
  | found =>
    simp [Call.rank,RoundTrip.packet,Packet.weight,Request.event]
    omega
  | _ => simp [Call.rank,Call.waits]

theorem Change.resumes {n : BaseNode} {k i : ℕ} {nonce₁ nonce₂ : Nonce} {ended : List Nonce}
    {new : List RoundTrip} {calls : List Call} {c : Call} {rt : RoundTrip}
    (h : Change n (.wake k i nonce₁ nonce₂) ended new calls) (hk : n.calls[k]? = some c)
    (hw : c.waits[i]? = some rt) : ∃ result c', Resumes n.id rt result c new c' := by
  cases h with
  | wake k i nonce₁ nonce₂ c' rt' result new c'' hk' hw' hr hres =>
    obtain rfl : c' = c := Option.some.inj (hk'.symm.trans hk)
    obtain rfl : rt' = rt := Option.some.inj (hw'.symm.trans hw)
    exact ⟨result,c'',hres⟩
  | answer a r ha => simp [CallAction.plain] at ha
  | single a rt ha => simp [CallAction.plain] at ha

theorem Resumes.alone {id : Identifier} {rt : RoundTrip} {result : Except Error Reply}
    {c c' : Call} {new : List RoundTrip} (h : Resumes id rt result c new c') (hrt : rt ∈ c.waits) :
    new = [] ∨ c.waits = [rt] := by
  cases h with
  | found | linkBoth | linkOne =>
    right
    simp_all [Call.waits]
  | _ => exact .inl rfl

theorem BaseNode.resume_nonces (n : BaseNode) (rt : RoundTrip) (result : Except Error Reply)
    (nonce₁ nonce₂ : Nonce) (c : Call) :
    ((n.resume reliable rt result nonce₁ nonce₂ c).2.1.map fun p => p.event.nonce?).Sublist
      [some nonce₁,some nonce₂] := by
  cases c with
  | joinSearch d rt' =>
    rcases result with e | (res | res | res | res) <;> simp only [resume,List.map_nil,
      List.nil_sublist]
    unfold joinAfterSearch
    split
    · simp
    · simp [getNeighbor,suspend_start,RoundTrip.packet,Request.event,Event.nonce?]
  | joinNeighbor d a rt' =>
    rcases result with e | (res | res | res | res) <;> simp only [resume,List.map_nil,
      List.nil_sublist]
    cases hq : res.neighbor <;> simp [joinAfterNeighbor,hq,sendLinkRequest,startRoundTrip_reliable,
      Request.event,Event.nonce?]
  | _ => simp [resume]

namespace Sys

variable {s t : Sys} {a : Action} {I J : Finset Identifier} {u x : Identifier}

def callRank (s : Sys) (x : Identifier) : ℕ :=
  ((s.node x).calls.map (Call.rank s.members.card)).sum

def rank (s : Sys) : ℕ :=
  ∑ x ∈ s.members, s.callRank x + (s.inflight.map (Packet.weight s.members)).sum

theorem GapInv.entry_mem (hi : GapInv I J s) (hx : x ∈ s.members) {l : ℕ} {d : Direction}
    {f : Identity} (hf : s.entry x l d = some f) : f.id ∈ s.members := by
  by_cases hxIJ : x ∈ I ∪ J
  · exact hi.subset (Finset.mem_union.mpr ((hi.entry_cases hxIJ hf).imp_right And.left))
  · simp [hi.others x hx hxIJ] at hf

/-- A reaction is worth less than the event it reacts to. -/
theorem GapInv.weight_lt (hi : GapInv I J s) {p q : Packet} (hp : p.dest ∈ s.members)
    (hq : q ∈ (s.handle p).sent) : q.weight s.members < p.weight s.members := by
  have hr := hi.sided.handle_reacts hp hq
  obtain ⟨x,ev⟩ := p
  cases hr with
  | relay req l e hl hle he ht hbest =>
    have hcard := card_past_lt (hi.entry_mem hp he) (hi.sided x hp l req.direction e he)
    simp only [Packet.weight]
    omega
  | forward req e hb he hlt =>
    have hcard := card_past_lt (hi.entry_mem hp he) (hi.sided x hp req.level req.dir e he)
    simp only [Packet.weight]
    omega
  | _ =>
    simp only [Packet.weight]
    omega

theorem sum_eraseIdx {ps : List Packet} {i : ℕ} {p : Packet} (f : Packet → ℕ)
    (h : ps[i]? = some p) : f p + ((ps.eraseIdx i).map f).sum = (ps.map f).sum := by
  obtain ⟨hlt,rfl⟩ := List.getElem?_eq_some_iff.mp h
  simpa using ((List.getElem_cons_eraseIdx_perm hlt).map f).sum_eq

theorem GapInv.rank_deliver (hi : GapInv I J s) {i : ℕ} {p : Packet} (hd : Delivered s i p t) :
    t.rank < s.rank := by
  have hcalls : ∀ x, t.callRank x = s.callRank x := by
    intro x
    rw [callRank,callRank,hd.calls,hd.members]
  have hsum := sum_eraseIdx (Packet.weight s.members) hd.get
  have hpos := p.weight_pos s.members
  simp only [rank,hcalls,hd.members,hd.inflight,List.map_append,List.sum_append]
  rcases hi.sided.handle_cases hd.mem with ⟨hnil,-⟩ | ⟨q,hq,-⟩
  · simp only [hnil,List.map_nil,List.sum_nil]
    omega
  · have hlt := hi.weight_lt hd.mem (hq ▸ List.mem_singleton_self q)
    simp only [hq,List.map_cons,List.map_nil,List.sum_cons,List.sum_nil]
    omega

theorem GapInv.rank_resume (hi : GapInv I J s) {k i : ℕ} {nonce₁ nonce₂ : Nonce}
    {r : BaseNode × List Packet} (hc : Called s u (.wake k i nonce₁ nonce₂) r t) :
    t.rank < s.rank := by
  obtain ⟨-,new,hsent,hadv⟩ := hi.advances (show JoinsOnce I J s (.call u (.wake k i _ _)) from
    trivial) hc
  have hother : ∑ x ∈ s.members.erase u, t.callRank x = ∑ x ∈ s.members.erase u, s.callRank x := by
    refine Finset.sum_congr rfl fun x hx => ?_
    rw [callRank,callRank,hc.node,Function.update_of_ne (Finset.ne_of_mem_erase hx),hc.members]
  have hs := Finset.add_sum_erase s.members s.callRank hc.mem
  have ht := Finset.add_sum_erase s.members t.callRank hc.mem
  have hlt : t.callRank u + (r.2.map (Packet.weight s.members)).sum < s.callRank u := by
    rw [hsent,callRank,callRank,hc.members]
    generalize hcalls : (t.node u).calls = calls at hadv
    cases hadv with
    | start introducer level nonce d rx hnil =>
      have hstep := hc.step
      simp [callStep,hnil] at hstep
    | resume call rt reply new call' hone hm hacc hrep hr =>
      simpa [hone] using hr.rank_lt hm
  simp only [rank,hc.members,hc.inflight,List.map_append,List.sum_append]
  omega

theorem GapInv.rank_step (hi : GapInv I J s) (hr : a.runs = true) (h : s.step a = some t) :
    t.rank < s.rank := by
  rcases step_cases h with ⟨i,p,-,hd⟩ | ⟨i,rfl,-⟩ | ⟨x,ca,r,rfl,hc⟩
  · exact hi.rank_deliver hd
  · simp [Action.runs] at hr
  · cases ca with
    | wake k i nonce₁ nonce₂ => exact hi.rank_resume hc
    | _ => simp [Action.runs] at hr

/-- The events in flight are addressed to members, and so are the replies they ask for. -/
def Addressed (s : Sys) : Prop :=
  ∀ p ∈ s.inflight, p.dest ∈ s.members ∧ ∀ o ∈ p.event.replyTo?, o ∈ s.members

theorem Advances.dest_mem {new : List RoundTrip} {calls : List Call} {rt : RoundTrip}
    (h : Advances I J s u new calls) (hc : ∀ c ∈ calls, t.CallOk (gapSpec I J) u c)
    (hrt : rt ∈ new) : rt.request.dest ∈ I := by
  cases h with
  | start introducer level nonce d rx hcalls hI =>
    obtain rfl : rt = _ := by simpa using hrt
    exact hI
  | resume call rt' reply new call' hcalls hm hacc hrep hr =>
    have hok := hc call' (by simp)
    cases hr with
    | found d rt'' res nonce rx h he =>
      obtain rfl : rt = _ := by simpa using hrt
      exact hok.2.2.mem
    | linkBoth d a rt'' res q nonce₁ nonce₂ rx₁ rx₂ h hq =>
      obtain ⟨-,ha,hn,-⟩ := hok
      rcases List.mem_cons.mp hrt with rfl | hrt
      · exact ha.mem
      · obtain rfl : rt = _ := by simpa using hrt
        exact (hn.2 q rfl).mem
    | linkOne d a rt'' res nonce rx h hq =>
      obtain rfl : rt = _ := by simpa using hrt
      exact hok.2.1.mem
    | _ => simp at hrt

theorem Addressed.step (ha : s.Addressed) (hi : GapInv I J s) (hj : JoinsOnce I J s a)
    (h : s.step a = some t) (ht : t.JoinInv (gapSpec I J)) : t.Addressed := by
  intro q hq
  rw [members_step h]
  rcases mem_inflight_step h hq with hq | ⟨i,p,-,hd,hq⟩ | ⟨u,ca,r,rfl,hc,hq⟩
  · exact ha q hq
  · obtain ⟨hdest,hreply⟩ := ha p (List.mem_of_getElem? hd.get)
    have hr := hi.sided.handle_reacts hd.mem hq
    obtain ⟨x,ev⟩ := p
    cases hr with
    | relay req l e hl hle he ht hbest => exact ⟨hi.entry_mem hdest he,hreply⟩
    | forward req e hb he hlt => exact ⟨hi.entry_mem hdest he,hreply⟩
    | _ => exact ⟨hreply _ rfl,by simp [Event.replyTo?]⟩
  · obtain ⟨hu,new,hsent,hadv⟩ := hi.advances hj hc
    rw [hsent] at hq
    obtain ⟨rt,hrt,rfl⟩ := List.mem_map.mp hq
    have hum : u ∈ t.members := by rw [members_step h]; exact hc.mem
    refine ⟨hi.subset (Finset.mem_union_left J (hadv.dest_mem (ht.calls u hum) hrt)),?_⟩
    have hself : (s.node u).id = u := s.node_id u
    have hcand : (s.node u).selfIdentity.id = u := s.node_id u
    obtain ⟨request,nonce,rx⟩ := rt
    cases request <;> simp [RoundTrip.packet,Request.event,Event.replyTo?,hself,hcand,hc.mem]

/-- With nothing in flight, the call of a single joining node can draw fresh nonces. -/
theorem GapInv.fresh_wake (hi : GapInv I {u} s) (hin : s.inflight = []) (hx : x ∈ s.members)
    {k i : ℕ} {call : Call} {rt : RoundTrip} {result : Except Error Reply}
    (hk : (s.node x).calls[k]? = some call) (hw : call.waits[i]? = some rt)
    (hr : (s.node x).received rt = some result) :
    ∃ nonce₁ nonce₂ t, s.DrawsFresh (.call x (.wake k i nonce₁ nonce₂)) ∧
      s.step (.call x (.wake k i nonce₁ nonce₂)) = some t := by
  have hm := List.mem_of_getElem? hw
  have hcall := List.mem_of_getElem? hk
  obtain rfl : x = u := by
    simpa using hi.mem_of_waits hx (mem_waits.mpr ⟨call,hcall,hm⟩)
  have hone := hi.calls_eq (Finset.mem_singleton_self x) hcall
  let nonce₁ : Nonce := ⟨rt.nonce.id+1⟩
  let nonce₂ : Nonce := ⟨rt.nonce.id+2⟩
  have hne₁ : rt.nonce ≠ nonce₁ := fun h => by simpa [nonce₁] using congrArg Nonce.id h
  have hne₂ : rt.nonce ≠ nonce₂ := fun h => by simpa [nonce₂] using congrArg Nonce.id h
  have hne : nonce₁ ≠ nonce₂ := fun h => by simpa [nonce₁,nonce₂] using congrArg Nonce.id h
  have hstep : (s.node x).callStep reliable (.wake k i nonce₁ nonce₂) =
      some ((s.node x).endRoundTrip reliable k call rt result nonce₁ nonce₂) := by
    simp [callStep,hk,hw,hr]
  obtain ⟨t,ht,-⟩ := exists_call hx hstep
  refine ⟨nonce₁,nonce₂,t,?_,ht⟩
  intro r hr'
  obtain rfl := Option.some.inj (hstep.symm.trans hr')
  have hsub := resume_nonces ((s.node x).dropGuard rt.nonce) rt result nonce₁ nonce₂ call
  refine ⟨hsub.nodup (by simp [hne]),fun p hp => ⟨by simp [hin],fun y hy rt' hrt' he => ?_⟩⟩
  obtain rfl : y = x := by simpa using hi.mem_of_waits hy hrt'
  have hwaits : call.waits = [rt] := by
    obtain ⟨ended,new,n₁,calls,hseg⟩ := callStep_segment hstep
    obtain ⟨result',call',hres⟩ := hseg.change.resumes hk hw
    rcases hres.alone hm with rfl | hwaits
    · simp [hseg.sent] at hp
    · exact hwaits
  obtain rfl : rt' = rt := by simpa [BaseNode.waits,hone,hwaits] using hrt'
  have hmem := hsub.subset (List.mem_map_of_mem hp)
  simp only [← he,List.mem_cons,Option.some.injEq,List.not_mem_nil,or_false] at hmem
  rcases hmem with h | h
  · exact hne₁ h
  · exact hne₂ h

theorem GapInv.moves (hi : GapInv I {u} s) (ha : s.Addressed) (hq : ¬ s.Quiet) :
    ∃ a t, (a.runs = true ∧ s.DrawsFresh a) ∧ s.step a = some t := by
  rcases hin : s.inflight with _ | ⟨p,ps⟩
  · have hwake : ∃ x ∈ s.members, ∃ k i nonce₁ nonce₂,
        (s.node x).callStep reliable (.wake k i nonce₁ nonce₂) ≠ none := by
      by_contra hno
      push Not at hno
      exact hq ⟨hin,hno⟩
    obtain ⟨x,hx,k,i,nonce₁,nonce₂,hwake⟩ := hwake
    obtain ⟨r,hr⟩ := Option.ne_none_iff_exists'.mp hwake
    obtain ⟨call,hk,hr⟩ := Option.bind_eq_some_iff.mp hr
    obtain ⟨rt,hw,hr⟩ := Option.bind_eq_some_iff.mp hr
    obtain ⟨result,hr,-⟩ := Option.map_eq_some_iff.mp hr
    obtain ⟨nonce₁,nonce₂,t,hf,ht⟩ := hi.fresh_wake hin hx hk hw hr
    exact ⟨_,t,⟨rfl,hf⟩,ht⟩
  · have hp : p ∈ s.inflight := by simp [hin]
    obtain ⟨t,ht,-⟩ := exists_deliver (s := s) (i := 0) (p := p) (by simp [hin]) (ha p hp).1
    exact ⟨.deliver 0,t,⟨rfl,trivial⟩,ht⟩

end Sys

end SkipGraph
