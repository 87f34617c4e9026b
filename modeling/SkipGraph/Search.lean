import SkipGraph.SortedList

/-!
# Distributed search in a static graph

The only assumption on the levels above 0 is that their entries are members on the
right side. Each hop moves strictly towards the target and never past it, and only
the node nearest to the target finds all of its slots past the target.
-/

namespace SkipGraph

open Transition StrictOrder

/-- `r` is the member nearest to the target that is not past it on side `d`: the
greatest member `≤ target` on the right, the smallest member `≥ target` on the left. -/
structure Nearest (d : Direction) (I : Finset Identifier) (target r : Identifier) : Prop where
  mem : r ∈ I
  le : d.le r target
  best : ∀ z ∈ I, d.le z target → d.le z r

namespace Nearest

variable {d : Direction} {I : Finset Identifier} {target r r' : Identifier}

theorem unique (h : Nearest d I target r) (h' : Nearest d I target r') : r = r' :=
  Direction.le_antisymm (h'.best r h.mem h.le) (h.best r' h'.mem h'.le)

theorem eq_target (h : Nearest d I target r) (ht : target ∈ I) : r = target :=
  Direction.le_antisymm h.le (h.best target ht Direction.le_refl)

end Nearest

namespace Sys

variable {s t : Sys} {x a r : Identifier} {req : IdSearchReq}

/-- A graph whose level-0 slots are the sorted list of its nodes and whose other slots
hold members on the right side. -/
structure Graph (s : Sys) : Prop where
  listed : s.Listed s.members
  sided : s.Sided
  entries : ∀ x ∈ s.members, ∀ l d e, s.entry x l d = some e → e.id ∈ s.members

theorem Graph.congr (hg : s.Graph) (hm : t.members = s.members) (he : t.entry = s.entry) :
    t.Graph := by
  refine ⟨⟨?_,?_⟩,?_,?_⟩ <;> simp only [hm,he,Sided]
  · exact hg.listed.next
  · exact hg.listed.last
  · exact hg.sided
  · exact hg.entries

/-- The delivered event, if any, is handled without an error. -/
def NoError (s : Sys) : Action → Prop
  | .deliver i => ∀ p, s.inflight[i]? = some p → (s.handle p).result = .ok ()
  | _ => True

theorem Listed.nearest_of_past {I : Finset Identifier} (hl : s.Listed I) (req : IdSearchReq)
    (hx : x ∈ I) (hle : req.direction.le x req.target)
    (h : ∀ l ≤ req.level, ∀ e, s.entry x l req.direction = some e →
      req.direction.lt req.target e.id) : Nearest req.direction I req.target x := by
  refine ⟨hx,hle,fun z hz hzt => Direction.not_lt.mp fun hxz => ?_⟩
  obtain ⟨e,he,hn⟩ := hl.entry_of_lt hx hz hxz
  have hte := h 0 (Nat.zero_le _) e he
  exact hn.first z hz hxz (Direction.lt_of_le_of_lt hzt hte)

theorem Graph.nearest_of_past (hg : s.Graph) (hx : x ∈ s.members)
    (hle : req.direction.le x req.target)
    (h : ∀ l ≤ req.level, ∀ e, s.entry x l req.direction = some e →
      req.direction.lt req.target e.id) : Nearest req.direction s.members req.target x :=
  hg.listed.nearest_of_past req hx hle h

theorem step_search (hin : s.inflight = [⟨x,.searchByIdRequest req⟩]) (hx : x ∈ s.members) :
    s.step (.deliver 0) =
      some { s with inflight := (s.handle ⟨x,.searchByIdRequest req⟩).sent } := by
  have hn : (s.handle ⟨x,.searchByIdRequest req⟩).node = s.node x :=
    BaseNode.handleSearchByIdRequest_node req
  simp only [step,hin,List.getElem?_cons_zero,hx,if_true]
  congr 1
  simp only [update,List.eraseIdx_cons_zero,List.nil_append]
  congr 1
  funext y
  by_cases hy : y = x
  · subst hy
    simpa [handle] using hn
  · simp [hy]

/-- Relaying a request ends at the nearest member, after at most one hop for each
member past the current one. -/
theorem Graph.relay (hg : s.Graph) (hin : s.inflight = [⟨x,.searchByIdRequest req⟩])
    (hx : x ∈ s.members) (hle : req.direction.le x req.target)
    (hlev : req.level < lookupTableLevels) :
    ∃ k r, k ≤ (past req.direction.lt s.members x).card ∧
      Nearest req.direction s.members req.target r ∧
      Trace Sys.step NoError s (List.replicate (k+1) (.deliver 0))
        { s with inflight := [⟨req.origin,.searchByIdResponse ⟨req.nonce,req.target,0,r⟩⟩] } := by
  induction hc : (past req.direction.lt s.members x).card using Nat.strong_induction_on
    generalizing x s req with
  | _ c ih =>
  have hok : ∀ q, (s.handle ⟨x,.searchByIdRequest req⟩).result = .ok () → NoError s (.deliver q) := by
    intro q hr p hp
    rw [hin] at hp
    cases q with
    | zero =>
      obtain rfl : _ = p := by simpa using hp
      exact hr
    | succ q => simp at hp
  rcases hg.sided.handle_cases (p := ⟨x,.searchByIdRequest req⟩) hx with ⟨-,ha⟩ | ⟨q,hq,hres,hr⟩
  · exact absurd hlev (Nat.not_lt.mpr ha)
  · have hstep := step_search hin hx
    rw [hq] at hstep
    cases hr with
    | answer req hl hpast =>
      refine ⟨0,x,Nat.zero_le _,hg.nearest_of_past hx hle hpast,.cons hstep (hok 0 hres) ?_⟩
      rw [show (s.node x).id = x from s.node_id x]
      exact .nil _
    | relay req l e hl hlq he ht hbest =>
      have hmem := hg.entries x hx l req.direction e he
      have hlt := card_past_lt hmem (hg.sided x hx l req.direction e he)
      let req' : IdSearchReq := { req with level := l }
      let s' : Sys := { s with inflight := [⟨e.id,.searchByIdRequest req'⟩] }
      have hg' : s'.Graph := hg.congr rfl rfl
      obtain ⟨k,r,hk,hn,htr⟩ := ih _ (hc ▸ hlt) hg' (show s'.inflight = _ from rfl) hmem ht
        (lt_of_le_of_lt hlq hl) rfl
      have hk : k ≤ (past req.direction.lt s.members e.id).card := hk
      exact ⟨k+1,r,by omega,hn,.cons hstep (hok 0 hres) htr⟩

end Sys

namespace BaseNode

variable {n : BaseNode} {nonce : Nonce} {request : Request} {res : IdSearchRes}

/-- A node that waits for the response of one search, as its last call. -/
structure Awaits (n : BaseNode) (calls : List Call) (rt : RoundTrip) : Prop where
  calls_eq : n.calls = calls++[.single rt]
  waiter : n.requestIdMap rt.nonce = some (.asyncSearch rt.rx)
  channel : n.oneshots[rt.rx]? = some .empty
  accepts : ∀ res, rt.request.accepts (.search res) = true

theorem awaits_start (h : n.requestIdMap nonce = none) (dest target : Identifier) (level : ℕ)
    (d : Direction) : Awaits
      { n.started nonce (.search dest target level d) with
        calls := n.calls++[.single ⟨.search dest target level d,nonce,n.oneshots.length⟩] }
      n.calls ⟨.search dest target level d,nonce,n.oneshots.length⟩ := by
  refine ⟨rfl,by simp [started_map,Request.waiter],?_,fun _ => rfl⟩
  have ho := @started_oneshots n nonce (.search dest target level d) n.oneshots.length (by simp [h])
  simpa using ho

theorem Awaits.returns {calls : List Call} {rt : RoundTrip} (h : n.Awaits calls rt)
    (hres : res.nonce = rt.nonce) :
    ∃ n', (n.processIncomingEvent reliable (.searchByIdResponse res)).node.callStep reliable
        (.wake calls.length 0 rt.nonce rt.nonce) = some (n',[]) ∧
      n'.calls = calls++[.returned (.ok (.found res))] := by
  let m := (n.removeWaiter rt.nonce).resolve rt.rx (.search res)
  have hm : (n.processIncomingEvent reliable (.searchByIdResponse res)).node = m := by
    simp [processIncomingEvent,handleSearchByIdResponse,resolveWaiter_eq,hres,h.waiter,
      Waiter.isAsyncSearch,Waiter.tx,m]
  have hcalls : m.calls = calls++[.single rt] := h.calls_eq
  have hmap : m.requestIdMap rt.nonce = none := by simp [m,resolve,removeWaiter]
  have hrx : m.oneshots[rt.rx]? = some (.sent (.search res)) := by
    simp [m,resolve,removeWaiter,h.channel]
  refine ⟨{ m with calls := calls++[.returned (.ok (.found res))] },?_,rfl⟩
  rw [hm]
  simp [callStep,hcalls,Call.waits,received,hrx,h.accepts,endRoundTrip,resume,dropGuard,hmap,
    Except.map,Reply.output]

end BaseNode

namespace Sys

variable {s t : Sys} {x a r : Identifier} {req : IdSearchReq}

theorem Graph.called (hg : s.Graph) {ca : CallAction} {q : BaseNode × List Packet}
    (h : Called s x ca q t) : t.Graph := by
  apply hg.congr h.members
  funext y l d
  simp only [entry,BaseNode.entry,h.node,Function.update_apply]
  split
  · rename_i hy
    rw [hy,(BaseNode.callStep_frame h.step).1]
  · rfl

theorem response_returns {calls : List Call} {rt : RoundTrip} {res : IdSearchRes}
    (hin : s.inflight = [⟨a,.searchByIdResponse res⟩]) (ha : a ∈ s.members)
    (hw : (s.node a).Awaits calls rt) (hres : res.nonce = rt.nonce) :
    ∃ t, Trace Sys.step NoError s
        [.deliver 0,.call a (.wake calls.length 0 rt.nonce rt.nonce)] t ∧ t.inflight = [] ∧
      (t.node a).calls = calls++[.returned (.ok (.found res))] := by
  obtain ⟨u,hu,hd⟩ := exists_deliver (show s.inflight[0]? = some ⟨a,.searchByIdResponse res⟩ by simp [hin]) ha
  obtain ⟨n',hn',hcalls⟩ := hw.returns hres
  have hua : u.node a = (s.handle ⟨a,.searchByIdResponse res⟩).node := by simp [hd.node]
  obtain ⟨t,ht,hc⟩ := exists_call (s := u) (by rw [hd.members]; exact ha) (by rw [hua]; exact hn')
  refine ⟨t,.cons hu ?_ (.cons ht trivial (.nil t)),?_,by simp [hc.node,hcalls]⟩
  · intro p hp
    obtain rfl : _ = p := by simpa [hin] using hp
    rfl
  · simp [hc.inflight,hd.inflight,hin,handle,BaseNode.processIncomingEvent,
      BaseNode.handleSearchByIdResponse]

theorem Graph.searchById_returns (hg : s.Graph) (req : IdSearchReq) (hin : s.inflight = []) (ha : a ∈ s.members)
    (hle : req.direction.le a req.target) (hlev : req.level < lookupTableLevels)
    (hfresh : (s.node a).requestIdMap req.nonce = none) :
    ∃ as t r, Trace Sys.step NoError s (.call a (.searchById req)::as) t ∧ t.inflight = [] ∧
      as.length ≤ s.members.card + 2 ∧ Nearest req.direction s.members req.target r ∧
      (t.node a).calls =
        (s.node a).calls++[.returned (.ok (.found ⟨req.nonce,req.target,0,r⟩))] := by
  have hid : (s.node a).core.id = a := s.node_id a
  rcases (s.node a).core.searchById_cases req hlev with ⟨hr,hpast⟩ | ⟨l,e,hl,he,hr,ht,-⟩
  · obtain ⟨t,hst,hc⟩ := exists_call ha
      (show (s.node a).callStep reliable (.searchById req) = some _ from rfl)
    have hcall : (s.node a).searchById reliable req =
        (s.node a,[],.returned (.ok (.found ⟨req.nonce,req.target,0,(s.node a).core.id⟩))) := by
      simp [BaseNode.searchById,hr]
    refine ⟨[],t,a,.cons hst trivial (.nil t),?_,by simp,hg.nearest_of_past ha hle hpast,?_⟩
    · simp [hc.inflight,hin,BaseNode.begin,hcall]
    · simp [hc.node,BaseNode.begin,hcall,hid]
  · have hlt := hg.sided a ha l req.direction e he
    have hmem := hg.entries a ha l req.direction e he
    have hne : e.id ≠ (s.node a).core.id := by
      rw [hid]
      exact (Direction.ne_of_lt hlt).symm
    let rt : RoundTrip := ⟨.search e.id req.target l req.direction,req.nonce,
      (s.node a).oneshots.length⟩
    have hcall : (s.node a).searchById reliable req =
        ((s.node a).started req.nonce rt.request,[rt.packet (s.node a)],.single rt) := by
      simp only [BaseNode.searchById,hr,if_neg hne]
      exact BaseNode.suspend_start (s.node a) req.nonce rt.request .single
    obtain ⟨u,hu,hc⟩ := exists_call ha
      (show (s.node a).callStep reliable (.searchById req) = some _ from rfl)
    have hua : (u.node a).Awaits (s.node a).calls rt := by
      have hw := BaseNode.awaits_start hfresh e.id req.target l req.direction
      simpa [hc.node,BaseNode.begin,hcall] using hw
    let req' : IdSearchReq := ⟨req.nonce,req.target,a,l,req.direction⟩
    have huin : u.inflight = [⟨e.id,.searchByIdRequest req'⟩] := by
      simp [hc.inflight,hin,BaseNode.begin,hcall,RoundTrip.packet,rt,Request.dest,Request.event,
        req',show (s.node a).id = a from hid]
    have hm := hc.members
    obtain ⟨k,r,hk,hn,htr⟩ := (hg.called hc).relay huin (by rw [hm]; exact hmem) ht
      (lt_of_le_of_lt hl hlev)
    let v : Sys := { u with inflight := [⟨a,.searchByIdResponse ⟨req.nonce,req.target,0,r⟩⟩] }
    have hav : a ∈ v.members := by
      rw [← hm] at ha
      exact ha
    obtain ⟨t,htr',htin,htc⟩ := response_returns (show v.inflight = _ from rfl) hav hua rfl
    have hcard := card_past_lt_card (r := req.direction.lt) hmem
    rw [hm] at hk hn
    refine ⟨_,t,r,.cons hu trivial (htr.append htr'),htin,?_,hn,htc⟩
    simp only [List.length_append,List.length_replicate,List.length_cons,List.length_nil]
    have hk : k ≤ (past req.direction.lt s.members e.id).card := hk
    omega

/-- A search for `target` in direction `d`: whichever member it starts from, at whichever
level, it is answered exactly once, without an error and within as many hops as there
are members, with the nearest member. -/
theorem distributed_search_exact (hg : s.Graph) (hin : s.inflight = []) (d : Direction)
    (target b : Identifier) (hb : b ∈ s.members) (hbt : d.le b target) :
    ∃ r, Nearest d s.members target r ∧ (target ∈ s.members → r = target) ∧
      ∀ a ∈ s.members, d.le a target → ∀ level < lookupTableLevels, ∀ nonce origin,
        (∃ k, k ≤ s.members.card ∧ Trace Sys.step NoError
          { s with inflight := [⟨a,.searchByIdRequest ⟨nonce,target,origin,level,d⟩⟩] }
          (List.replicate k (.deliver 0))
          { s with inflight := [⟨origin,.searchByIdResponse ⟨nonce,target,0,r⟩⟩] }) ∧
        ((s.node a).requestIdMap nonce = none →
          ∃ as t, Trace Sys.step NoError s
              (.call a (.searchById ⟨nonce,target,origin,level,d⟩)::as) t ∧ t.inflight = [] ∧
            as.length ≤ s.members.card + 2 ∧ (t.node a).calls =
              (s.node a).calls++[.returned (.ok (.found ⟨nonce,target,0,r⟩))]) := by
  have hrelay : ∀ a ∈ s.members, d.le a target → ∀ level < lookupTableLevels, ∀ nonce origin,
      ∃ k r, k ≤ s.members.card ∧ Nearest d s.members target r ∧ Trace Sys.step NoError
        { s with inflight := [⟨a,.searchByIdRequest ⟨nonce,target,origin,level,d⟩⟩] }
        (List.replicate k (.deliver 0))
        { s with inflight := [⟨origin,.searchByIdResponse ⟨nonce,target,0,r⟩⟩] } := by
    intro a ha hle level hlev nonce origin
    let u : Sys := { s with inflight := [⟨a,.searchByIdRequest ⟨nonce,target,origin,level,d⟩⟩] }
    have hgu : u.Graph := hg.congr rfl rfl
    obtain ⟨k,r,hk,hn,htr⟩ := hgu.relay rfl ha hle hlev
    have hcard := card_past_lt_card (r := d.lt) ha
    have hk : k ≤ (past d.lt s.members a).card := hk
    exact ⟨k+1,r,by omega,hn,htr⟩
  obtain ⟨-,r,-,hr,-⟩ := hrelay b hb hbt 0 (by decide) ⟨0⟩ b
  refine ⟨r,hr,hr.eq_target,fun a ha hle level hlev nonce origin => ⟨?_,fun hfresh => ?_⟩⟩
  · obtain ⟨k,r',hk,hr',htr⟩ := hrelay a ha hle level hlev nonce origin
    obtain rfl := hr'.unique hr
    exact ⟨k,hk,htr⟩
  · obtain ⟨as,t,r',htr,htin,hlen,hr',hcalls⟩ := hg.searchById_returns
      ⟨nonce,target,origin,level,d⟩ hin ha hle hlev hfresh
    obtain rfl := hr'.unique hr
    exact ⟨as,t,htr,htin,hlen,hcalls⟩

theorem graph_row (linked : List Identifier) : (row linked []).Graph := by
  have hm : (row linked []).members = linked.toFinset := by simp [row]
  refine ⟨?_,(honest_row linked []).sided,fun x hx l d e he => ?_⟩
  · rw [hm]
    exact listed_row linked []
  · exact ((honest_row linked []).entries x hx l d e he).1

theorem distributed_search_exact_in_row :
    let s := row [.ofByte 1,.ofByte 3,.ofByte 5,.ofByte 7] []
    ∃ k, Trace Sys.step NoError
      { s with inflight := [⟨.ofByte 1,.searchByIdRequest ⟨⟨9⟩,.ofByte 6,.ofByte 7,2,.right⟩⟩] }
      (List.replicate k (.deliver 0))
      { s with inflight := [⟨.ofByte 7,.searchByIdResponse ⟨⟨9⟩,.ofByte 6,0,.ofByte 5⟩⟩] } := by
  intro s
  have h1 : Identifier.ofByte 1 ∈ s.members := by decide
  obtain ⟨r,hr,-,h⟩ := distributed_search_exact (graph_row _) (show s.inflight = [] from rfl)
    .right (.ofByte 6) (.ofByte 1) h1 (by decide)
  have h5 : Nearest .right s.members (.ofByte 6) (.ofByte 5) :=
    ⟨by decide,by decide,by decide⟩
  obtain rfl := hr.unique h5
  obtain ⟨⟨k,-,hk⟩,-⟩ := h (.ofByte 1) h1 (by decide) 2 (by decide) ⟨9⟩ (.ofByte 7)
  exact ⟨k,hk⟩

end Sys

end SkipGraph
