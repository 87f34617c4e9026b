import SkipGraph.HubCalls
import SkipGraph.Insertion

/-!
# One call after another

What each call does in a graph where nothing is pending. A request is answered before
its send returns, a join places the new node between its two neighbours, and no other
slot changes. No assumption on the nonces is needed, since no two requests are pending
at the same time.
-/

namespace SkipGraph

open Transition StrictOrder BaseNode NetworkHub

theorem BaseNode.handleSearchByIdRequest_error (net : Network) (n : BaseNode) {req : IdSearchReq}
    (hl : lookupTableLevels ≤ req.level) : n.handleSearchByIdRequest net req =
      ⟨n,[],.error (.wrapped .performSearch (.wrapped (.searchLevel lookupTableLevels)
        (.levelOutOfRange lookupTableLevels)))⟩ := by
  rw [handleSearchByIdRequest,n.core.searchById_error hl]

namespace Sys

variable {s t v : Sys} {I J : Finset Identifier} {x p dest src target : Identifier}
  {d dir : Direction} {nonce : Nonce} {h : NetworkHub} {fuel k level : ℕ}

/-- The nodes `I` form the graph, the others have empty tables, and no request is pending. -/
structure Calm (I : Finset Identifier) (s : Sys) : Prop where
  subset : I ⊆ s.members
  listed : s.Listed I
  sided : s.Sided
  entries : ∀ x ∈ I, ∀ l d e, s.entry x l d = some e → e.id ∈ I
  fresh : ∀ x ∈ s.members, x ∉ I → ∀ l d, s.entry x l d = none
  idle : ∀ x ∈ s.members, (s.node x).Idle

/-- Among nodes with empty tables, each node is a graph by itself. -/
theorem calm_singleton (hx : x ∈ s.members)
    (hempty : ∀ y ∈ s.members, ∀ l d, s.entry y l d = none)
    (hi : ∀ y ∈ s.members, (s.node y).Idle) : s.Calm {x} where
  subset := Finset.singleton_subset_iff.mpr hx
  listed := by
    refine ⟨fun y hy d e he => ?_,fun y hy d _ z hz => ?_⟩
    · rw [Finset.mem_singleton.mp hy,hempty x hx] at he
      simp at he
    · rw [Finset.mem_singleton.mp hy,Finset.mem_singleton.mp hz]
      exact Direction.lt_irrefl
  sided y hy l d e he := by simp [hempty y hy] at he
  entries y hy l d e he := by
    rw [Finset.mem_singleton.mp hy,hempty x hx] at he
    simp at he
  fresh y hy _ := hempty y hy
  idle := hi

/-- A call that writes no slot and leaves nothing pending. -/
structure Kept (s t : Sys) : Prop where
  members : t.members = s.members
  entry : t.entry = s.entry
  identity : t.identity = s.identity
  idle : ∀ x ∈ t.members, (t.node x).Idle

theorem Calm.kept (hc : s.Calm I) (hk : Kept s t) : t.Calm I where
  subset := hk.members ▸ hc.subset
  listed := ⟨by rw [hk.entry]; exact hc.listed.next,by rw [hk.entry]; exact hc.listed.last⟩
  sided := by rw [Sided,hk.members,hk.entry]; exact hc.sided
  entries := by rw [hk.entry]; exact hc.entries
  fresh := by rw [hk.members,hk.entry]; exact hc.fresh
  idle := hk.idle

def withMembers (s : Sys) (J : Finset Identifier) : Sys := { s with members := J }

theorem step_withMembers {i : ℕ} (hJ : s.members ⊆ J) (h : s.step (.deliver i) = some t) :
    (s.withMembers J).step (.deliver i) = some (t.withMembers J) := by
  simp only [step] at h
  split at h
  · rename_i p hp
    split at h
    · rename_i hm
      obtain rfl := Option.some.inj h
      have hp' : (s.withMembers J).inflight[i]? = some p := hp
      have hm' : p.dest ∈ (s.withMembers J).members := hJ hm
      simp only [step,hp',hm',if_true]
      rfl
    · simp at h
  · simp at h

theorem trace_withMembers (hJ : s.members ⊆ J) (h : Trace Sys.step NoError s (chain k) t) :
    Trace Sys.step NoError (s.withMembers J) (chain k) (t.withMembers J) := by
  induction k generalizing s with
  | zero =>
    obtain rfl := trace_nil.mp h
    exact .nil _
  | succ k ih =>
    cases h with
    | cons hs ho h =>
      exact .cons (step_withMembers hJ hs) ho (ih ((members_step hs).symm ▸ hJ) h)

theorem step_reading {q : Packet} (hin : s.inflight = [q]) (hq : q.dest ∈ s.members)
    (hn : (s.handle q).node = s.node q.dest) :
    s.step (.deliver 0) = some { s with inflight := (s.handle q).sent } := by
  simp only [step,hin,List.getElem?_cons_zero,hq,if_true]
  congr 1
  simp only [update,List.eraseIdx_cons_zero,List.nil_append]
  congr 1
  funext y
  by_cases hy : y = q.dest
  · subst hy
    simpa [handle] using hn
  · simp [hy]

theorem kept_of_reply {request : Request} {ev : Event} {inflight : List Packet}
    (hi : ∀ y ∈ s.members, (s.node y).Idle)
    (hst : { s.requesting x nonce request with inflight := inflight }.step (.deliver 0) = some t)
    (hd : Delivered { s.requesting x nonce request with inflight := inflight } 0 ⟨x,ev⟩ t)
    (hid : (t.node x).Idle) (hg : ∀ req, ev ≠ .getLinkOp req) (hset : ∀ res, ev ≠ .setLinkOp res) :
    Kept s t where
  members := hd.members
  entry := by
    have he : (s.requesting x nonce request).entry = s.entry := requesting_entry
    rw [← he]
    funext y
    rw [hd.entry_eq]
    split
    · rename_i hy
      subst hy
      funext l d
      simp only [handle,BaseNode.entry,process_core reliable _ hg hset]
      rfl
    · rfl
  identity := by
    funext y
    rw [identity_step hst]
    exact congrFun requesting_identity y
  idle y hy := by
    rw [hd.members] at hy
    by_cases hyx : y = x
    · subst hyx
      exact hid
    · have hn : t.node y = s.node y := by
        rw [hd.node,Function.update_of_ne hyx]
        exact requesting_of_ne hyx
      rw [hn]
      exact hi y hy

/-- The part of the system that the graph's nodes form. -/
theorem Calm.graph (hc : s.Calm I) {request : Request} :
    ((s.requesting x nonce request).withMembers I).Graph := by
  have he : ((s.requesting x nonce request).withMembers I).entry = s.entry :=
    requesting_entry
  refine ⟨⟨?_,?_⟩,?_,?_⟩ <;> simp only [Sided,he]
  · exact hc.listed.next
  · exact hc.listed.last
  · exact fun y hy => hc.sided y (hc.subset hy)
  · exact hc.entries

theorem Calm.search (hc : s.Calm I) (hr : h.Runs s) (hx : x ∈ s.members) (hdest : dest ∈ I)
    (hle : d.le dest target) (hl : level < lookupTableLevels) (hf : s.members.card < fuel)
    (nonce : Nonce) :
    ∃ h' t r, h.sendSearchByIdReq fuel x dest nonce target level d =
        some (h',.ok ⟨nonce,target,0,r⟩) ∧ h'.Runs t ∧ Kept s t ∧ Nearest d I target r := by
  let request : Request := .search dest target level d
  let u := s.requesting x nonce request
  let req : IdSearchReq := ⟨nonce,target,x,level,d⟩
  have huin : (u.withMembers I).inflight = [⟨dest,.searchByIdRequest req⟩] := by
    have hid : (s.node x).id = x := s.node_id x
    simp [u,request,req,withMembers,requesting,update,Request.dest,Request.event,hid]
  obtain ⟨k,r,hk,hn,htr⟩ := hc.graph.relay huin hdest hle hl
  let res : IdSearchRes := ⟨nonce,target,0,r⟩
  have htr : Trace Sys.step NoError u (chain (k+1))
      { u with inflight := [⟨x,.searchByIdResponse res⟩] } :=
    trace_withMembers hc.subset htr
  have hlt : k < I.card := lt_of_le_of_lt hk (card_past_lt_card (r := d.lt) hdest)
  have hcard := Finset.card_le_card hc.subset
  have hux : { u with inflight := [⟨x,.searchByIdResponse res⟩] }.node x =
      (s.node x).started nonce request := requesting_self
  obtain ⟨h',t,hrt,hrun,hst,hd,hidle⟩ := hr.roundTrip hx (hc.idle x hx) htr rfl
    (by rw [hux]) (by rw [hux]) rfl ⟨_,rfl,rfl⟩ (show request.accepts (.search res) = true from rfl)
    (show k+1 < fuel by omega)
  refine ⟨h',t,r,?_,hrun,kept_of_reply hc.idle hst hd hidle (by simp) (by simp),hn⟩
  simp [NetworkHub.sendSearchByIdReq,show h.roundTrip _ _ _ (.search _ _ _ _) = _ from hrt,res]

theorem kept_abandoned (hi : ∀ y ∈ s.members, (s.node y).Idle) {request : Request} :
    Kept s (s.abandoned x nonce request) where
  members := rfl
  entry := by
    funext y l d
    by_cases hy : y = x
    · subst hy
      simp [entry,abandoned,update,BaseNode.entry]
    · simp [entry,abandoned,update,hy]
  identity := by
    funext y
    by_cases hy : y = x
    · subst hy
      simp [identity,abandoned,update,selfIdentity]
    · simp [identity,abandoned,update,hy]
  idle y hy := by
    by_cases hyx : y = x
    · subst hyx
      simpa [abandoned,update] using (hi y hy).dropGuard nonce request
    · simpa [abandoned,update,hyx] using hi y hy

theorem search_unrouted (hr : h.Runs s) (hi : ∀ y ∈ s.members, (s.node y).Idle)
    (hx : x ∈ s.members) (hdest : h.networks dest = none) (hf : 0 < fuel) (nonce : Nonce)
    (target : Identifier) (level : ℕ) (d : Direction) :
    ∃ h' t, h.sendSearchByIdReq fuel x dest nonce target level d = some (h',
        .error (.wrapped (.send (.search dest target level d)) (.transport
          s!"failed to route event: network with identifier {dest} not found"))) ∧
      h'.Runs t ∧ Kept s t := by
  let request : Request := .search dest target level d
  obtain ⟨fuel,rfl⟩ : ∃ f, fuel = f+1 := ⟨fuel-1,by omega⟩
  have hxd : dest ≠ x := by
    rintro rfl
    simp [hr.registered dest hx] at hdest
  have hnone : (h.setNode x ((s.node x).started nonce request)).networks dest = none := by
    rw [setNode_networks,if_neg hxd,hdest]
  rcases sendEvent_cases fuel (h.setNode x ((s.node x).started nonce request)) dest
    (request.event (s.node x) nonce) with ⟨-,hs⟩ | ⟨m,hm,-⟩ | ⟨m,n,hm,-⟩
  · obtain ⟨h',he,hr'⟩ := hr.roundTrip_error hx hs (hr.setNode hx started_address rfl rfl)
    refine ⟨h',_,?_,hr',kept_abandoned hi⟩
    simp only [NetworkHub.sendSearchByIdReq,request] at he ⊢
    rw [he]
    rfl
  · simp [hnone] at hm
  · simp [hnone] at hm

theorem search_beyond (hr : h.Runs s) (hi : ∀ y ∈ s.members, (s.node y).Idle)
    (hx : x ∈ s.members) (hdest : dest ∈ s.members) (hl : lookupTableLevels ≤ level)
    (hf : 0 < fuel) (nonce : Nonce) (target : Identifier) (d : Direction) :
    ∃ h' t, h.sendSearchByIdReq fuel x dest nonce target level d = some (h',
        .error (.wrapped (.send (.search dest target level d)) (.transport
          ("failed to route event: " ++
            "hub failed to process routing event: failed to process incoming event")))) ∧
      h'.Runs t ∧ Kept s t := by
  let request : Request := .search dest target level d
  let u := s.requesting x nonce request
  let p : Packet := ⟨dest,request.event (s.node x) nonce⟩
  obtain ⟨fuel,rfl⟩ : ∃ f, fuel = f+1 := ⟨fuel-1,by omega⟩
  have hru : (h.setNode x ((s.node x).started nonce request)).Runs u :=
    hr.setNode hx started_address rfl rfl
  obtain ⟨e,hh⟩ : ∃ e, u.handle p = ⟨u.node dest,[],.error e⟩ :=
    ⟨_,handleSearchByIdRequest_error reliable (u.node dest) hl⟩
  rcases hru.send_cases (p := p) rfl fuel with ⟨hn,-⟩ | ⟨-,t,ht,hrt,htin,⟨-,hs⟩ | ⟨q,hq,-⟩⟩
  · exact absurd hdest hn
  · rw [hh] at hs hrt
    have hnode : u.node = t.node := by
      rw [step_reading rfl (show p.dest ∈ u.members from hdest) (by rw [hh])] at ht
      rw [← Option.some.inj ht]
    obtain ⟨h',he,hr'⟩ := hr.roundTrip_error hx hs (hrt.congr (members_step ht).symm hnode)
    refine ⟨h',_,?_,hr',kept_abandoned hi⟩
    simp only [NetworkHub.sendSearchByIdReq,request] at he ⊢
    rw [he]
    rfl
  · simp [htin,hh] at hq

theorem Calm.query (hc : s.Calm I) (hr : h.Runs s) (hx : x ∈ s.members) (hsrc : src ∈ I)
    (hf : 1 < fuel) (d : Direction) (nonce : Nonce) :
    ∃ h' t, h.getNeighbor fuel x src d 0 nonce = some (h',.ok (s.entry src 0 d)) ∧
      h'.Runs t ∧ Kept s t := by
  let request : Request := .neighbor src d 0
  let u := s.requesting x nonce request
  have hid : (s.node x).id = x := s.node_id x
  let ask : Packet := ⟨src,.getNeighborOp ⟨nonce,x,0,d⟩⟩
  let res : NeighborRes := ⟨nonce,0,d,s.entry src 0 d⟩
  have huin : u.inflight = [ask] := by
    simp [u,request,ask,requesting,update,Request.dest,Request.event,hid]
  have hent : (u.node src).core.neighborEntry 0 d = .ok (s.entry src 0 d) := by
    have he : u.entry = s.entry := requesting_entry
    rw [← he]
    exact ArrayLookupTable.getEntry_eq (by decide)
  have hh : u.handle ask = ⟨u.node src,[⟨x,.retNeighborOp res⟩],.ok ()⟩ := by
    simp [handle,ask,processIncomingEvent,handleGetNeighborRequest,hent,res]
  have hst₁ := step_reading huin (show src ∈ u.members from hc.subset hsrc) (by rw [hh])
  have htr : Trace Sys.step NoError u (chain 1) { u with inflight := [⟨x,.retNeighborOp res⟩] } := by
    rw [hh] at hst₁
    exact (trace_cons hst₁).mpr ⟨(noError_iff huin).mpr (by rw [hh]),.nil _⟩
  have hux : { u with inflight := [⟨x,.retNeighborOp res⟩] }.node x =
      (s.node x).started nonce request := requesting_self
  obtain ⟨h',t,hrt,hrun,hst,hd,hidle⟩ := hr.roundTrip hx (hc.idle x hx) htr rfl
    (by rw [hux]) (by rw [hux]) rfl ⟨_,rfl,rfl⟩
    (show request.accepts (.neighbor res) = true from rfl) hf
  refine ⟨h',t,?_,hrun,kept_of_reply hc.idle hst hd hidle (by simp) (by simp)⟩
  simp [NetworkHub.getNeighbor,show h.roundTrip _ _ _ (.neighbor _ _ _) = _ from hrt,res]

/-- A level-0 link request is served by a node that has nothing between itself and the
candidate. -/
theorem handle_link_request {req : LinkReq} (hl : req.level = 0) (hlt : req.dir.lt p req.candidate.id)
    (hnear : ∀ e, s.entry p 0 req.dir = some e → req.dir.le req.candidate.id e.id) :
    ∃ n', Installs (s.node p) 0 req.dir req.candidate n' ∧ s.handle ⟨p,.getLinkOp req⟩ =
      ⟨n',[⟨req.candidate.id,.setLinkOp ⟨req.nonce,req.dir.opposite,0,some (s.identity p)⟩⟩],
        .ok ()⟩ := by
  rcases (s.node p).handleGetLinkRequest_cases reliable req with
    ⟨hb,-⟩ | ⟨-,e,he,hlte,-⟩ | ⟨-,n',hins,hh⟩
  · have hbel : (s.node p).belongsInOwnSlot req.level req.dir req.candidate = true :=
      belongsInOwnSlot_iff.mpr ⟨by rw [hl]; decide,by rwa [s.node_id],by simp [hl]⟩
    simp [hb] at hbel
  · rw [hl] at he
    exact absurd hlte (Direction.not_lt.mpr (hnear e he))
  · rw [hl] at hins hh
    exact ⟨n',hins,hh⟩

theorem handle_link_reply {res : LinkRes} {c : Identity} (hl : res.level = 0)
    (hc : res.linked = some c) (hlt : res.dir.lt x c.id) (hempty : s.entry x 0 res.dir = none) :
    (s.handle ⟨x,.setLinkOp res⟩).node.entry =
      fun l d => if l = 0 ∧ d = res.dir then some c else s.entry x l d := by
  have hbel : (s.node x).belongsInOwnSlot res.level res.dir c = true :=
    belongsInOwnSlot_iff.mpr ⟨by rw [hl]; decide,by rwa [s.node_id],by simp [hl]⟩
  obtain ⟨m,hm,⟨-,hstay⟩ | ⟨c',hc',-,hins⟩⟩ := (s.node x).handleSetLinkResponse_cases res
  · obtain ⟨e,he,-⟩ := hstay c hc hbel
    rw [hl,show (s.node x).entry 0 res.dir = none from hempty] at he
    simp at he
  · obtain rfl := Option.some.inj (hc'.symm.trans hc)
    rw [hl] at hins
    funext l d
    rw [handle,processIncomingEvent,hm]
    simp only [entry_resolveWaiter,hins.entry]
    rfl

/-- A link request that is forwarded `k` times and arrives at the neighbour of `x` on the proper
side fills the two slots between them, and no other. -/
theorem link_arrives (hr : h.Runs s) (hi : ∀ y ∈ s.members, (s.node y).Idle)
    (hx : x ∈ s.members) (hp : p ∈ s.members) (hlt : dir.lt p x)
    (hnear : ∀ e, s.entry p 0 dir = some e → dir.le x e.id)
    (hempty : s.entry x 0 dir.opposite = none)
    (htr : Trace Sys.step NoError (s.requesting x nonce (.link dest dir 0)) (chain k)
      { s.requesting x nonce (.link dest dir 0) with
        inflight := [⟨p,.getLinkOp ⟨nonce,s.identity x,dir,0⟩⟩] }) (hf : k+1 < fuel) :
    ∃ h' t, h.sendLinkRequest fuel x dest dir 0 nonce = some (h',.ok ()) ∧ h'.Runs t ∧
      t.members = s.members ∧ t.identity = s.identity ∧ t.entry = s.paired x p dir 0 ∧
      ∀ y ∈ t.members, (t.node y).Idle := by
  let request : Request := .link dest dir 0
  let req : LinkReq := ⟨nonce,s.identity x,dir,0⟩
  let u : Sys := { s.requesting x nonce request with inflight := [⟨p,.getLinkOp req⟩] }
  let res : LinkRes := ⟨nonce,dir.opposite,0,some (s.identity p)⟩
  have hpx : p ≠ x := Direction.ne_of_lt hlt
  have huin : u.inflight = [⟨p,.getLinkOp req⟩] := rfl
  have hue : u.entry = s.entry := requesting_entry
  have hui : u.identity = s.identity := requesting_identity
  -- the neighbour takes `x` in and replies
  obtain ⟨v,hv,hdv⟩ := exists_deliver (show u.inflight[0]? = some ⟨p,.getLinkOp req⟩ from rfl)
    (show p ∈ u.members from hp)
  have hcand : req.candidate.id = x := identity_id s x
  obtain ⟨n',hins,hh⟩ := u.handle_link_request (p := p) (show req.level = 0 from rfl)
    (by rw [hcand]; exact hlt) (by rw [hue,hcand]; exact hnear)
  rw [hui,hcand] at hh
  have hvnode : v.node = Function.update u.node p n' := by rw [hdv.node,hh]
  have hvin : v.inflight = [⟨x,.setLinkOp res⟩] := by
    rw [hdv.inflight,huin,hh]
    rfl
  have hvx : v.node x = (s.node x).started nonce request := by
    rw [hvnode,Function.update_of_ne hpx.symm]
    exact requesting_self
  have hve : ∀ y, v.entry y = if y = p then n'.entry else s.entry y := by
    intro y
    rw [← hue]
    funext l d
    simp only [entry,hvnode,Function.update_apply]
    split <;> rfl
  have hall : Trace Sys.step NoError (s.requesting x nonce request) (chain (k+1)) v := by
    have happ := Trace.append htr
      ((trace_cons (k := 0) hv).mpr ⟨(noError_iff huin).mpr (by rw [hh]),.nil _⟩)
    rwa [chain,chain,List.replicate_append_replicate] at happ
  -- the reply finds the slot of `x` empty
  obtain ⟨h',t,hrt,hrun,hst,hd,hidle⟩ := hr.roundTrip hx (hi x hx) hall hvin
    (by rw [hvx]) (by rw [hvx]) rfl ⟨_,rfl,by simp [request,Request.waiter,Waiter.isLink,res]⟩
    (show request.accepts (.link res) = true from rfl) hf
  have hreply := v.handle_link_reply (show res.level = 0 from rfl)
    (show res.linked = some (s.identity p) from rfl)
    (by rw [identity_id]; exact Direction.opposite_lt.mpr hlt)
    (show v.entry x 0 dir.opposite = none by rw [hve,if_neg hpx.symm,hempty])
  refine ⟨h',t,?_,hrun,hd.members.trans hdv.members,?_,?_,fun y hy => ?_⟩
  · simp [NetworkHub.sendLinkRequest,show h.roundTrip _ _ _ (.link _ _ _) = _ from hrt,res]
  · funext y
    rw [identity_step hst,identity_step hv]
    exact congrFun hui y
  · funext y l d
    rw [hd.entry_eq,paired,accepted]
    by_cases hyx : y = x
    · subst hyx
      simp only [if_true,hreply,true_and,hpx.symm,false_and,if_false,hve,res]
    · simp only [hyx,if_false,false_and,hve]
      by_cases hyp : y = p
      · subst hyp
        have hup : (u.node y).entry l d = s.entry y l d := by rw [← hue]; rfl
        simp only [if_true,hins.entry,true_and,hup]
        rfl
      · simp [hyp]
  · by_cases hyx : y = x
    · subst hyx
      exact hidle
    · rw [hd.members,hdv.members] at hy
      have huy : u.node y = s.node y := requesting_of_ne hyx
      rw [hd.node,Function.update_of_ne hyx,hvnode,Function.update_apply]
      split
      · rename_i hyp
        subst hyp
        intro m
        rw [hins.requestIdMap,huy]
        exact hi y hy m
      · rw [huy]
        exact hi y hy

theorem link_accepted (hr : h.Runs s) (hi : ∀ y ∈ s.members, (s.node y).Idle)
    (hx : x ∈ s.members) (hp : p ∈ s.members) (hlt : dir.lt p x)
    (hnear : ∀ e, s.entry p 0 dir = some e → dir.le x e.id)
    (hempty : s.entry x 0 dir.opposite = none) (hf : 1 < fuel) (nonce : Nonce) :
    ∃ h' t, h.sendLinkRequest fuel x p dir 0 nonce = some (h',.ok ()) ∧ h'.Runs t ∧
      t.members = s.members ∧ t.identity = s.identity ∧ t.entry = s.paired x p dir 0 ∧
      ∀ y ∈ t.members, (t.node y).Idle :=
  link_arrives (k := 0) hr hi hx hp hlt hnear hempty (.nil _) hf

variable {u r introducer : Identifier}

/-- The list of `I` becomes that of `insert u I` when the neighbours of `u` point to `u`, `u`
points to them, and all other slots stay. -/
theorem Listed.insert (hs : s.Listed I)
    (hslot : ∀ x ∈ I, ∀ δ : Direction, (IsNext δ.opposite.lt I u x →
      ∃ e, t.entry x 0 δ = some e ∧ e.id = u) ∧
      (¬ IsNext δ.opposite.lt I u x → t.entry x 0 δ = s.entry x 0 δ))
    (hnext : ∀ δ : Direction, ∀ e, t.entry u 0 δ = some e → IsNext δ.lt I u e.id)
    (hlast : ∀ δ : Direction, t.entry u 0 δ = none → IsLast δ.lt I u) :
    t.Listed (insert u I) where
  next x hx δ e he := by
    rcases Finset.mem_insert.mp hx with rfl | hx
    · exact (hnext δ e he).insert_of_not_between fun h => absurd h Direction.lt_irrefl
    · by_cases hn : IsNext δ.opposite.lt I u x
      · obtain ⟨e',he',hid⟩ := (hslot x hx δ).1 hn
        obtain rfl := Option.some.inj (he'.symm.trans he)
        rw [hid]
        exact isNext_insert ⟨hn.mem,Direction.opposite_lt.mp hn.after,fun z hz hzu hxz =>
          hn.first z hz (Direction.opposite_lt.mpr hzu) (Direction.opposite_lt.mpr hxz)⟩
      · rw [(hslot x hx δ).2 hn] at he
        have hx' := hs.next x hx δ e he
        refine hx'.insert_of_not_between fun hxu hue => hn ⟨hx,Direction.opposite_lt.mpr hxu,?_⟩
        intro z hz huz hzx
        rw [Direction.opposite_lt] at huz hzx
        exact hx'.first z hz hzx (Direction.lt_trans huz hue)
  last x hx δ he := by
    rcases Finset.mem_insert.mp hx with rfl | hx
    · exact (hlast δ he).insert Direction.lt_irrefl
    · have hn : ¬ IsNext δ.opposite.lt I u x := by
        intro hn
        obtain ⟨e,he',-⟩ := (hslot x hx δ).1 hn
        simp [he] at he'
      rw [(hslot x hx δ).2 hn] at he
      have hx' := hs.last x hx δ he
      refine hx'.insert fun hxu => hn ⟨hx,Direction.opposite_lt.mpr hxu,fun z hz _ hzx => ?_⟩
      exact hx' z hz (Direction.opposite_lt.mp hzx)

/-- The slots after the link requests of a join: the anchor `r` and the queried node `q`
surround `u`. -/
def joined (s : Sys) (u r : Identifier) (d : Direction) (q : Option Identity) (x : Identifier)
    (l : ℕ) (δ : Direction) : Option Identity :=
  if x = r ∧ l = 0 ∧ δ = d then some (s.identity u)
  else if x = u ∧ l = 0 ∧ δ = d.opposite then some (s.identity r)
  else match q with
    | none => s.entry x l δ
    | some q =>
      if x = q.id ∧ l = 0 ∧ δ = d.opposite then some (s.identity u)
      else if x = u ∧ l = 0 ∧ δ = d then some (s.identity q.id)
      else s.entry x l δ

theorem Calm.surrounds (hc : s.Calm I) (hnew : u ∉ I) (hn : Nearest d I u r) :
    IsNext d.opposite.lt I u r ∧
    (∀ q, s.entry r 0 d = some q → IsNext d.lt I u q.id) ∧
    (s.entry r 0 d = none → IsLast d.lt I u) := by
  have hne : ∀ z ∈ I, z ≠ u := fun z hz he => hnew (he ▸ hz)
  have hru : d.lt r u := Direction.lt_of_le_of_ne hn.le (hne r hn.mem)
  refine ⟨⟨hn.mem,Direction.opposite_lt.mpr hru,fun z hz huz hzr => ?_⟩,fun q hq => ?_,fun hq z hz huz => ?_⟩
  · rw [Direction.opposite_lt] at huz hzr
    exact Direction.not_lt.mpr (hn.best z hz (Direction.le_of_lt huz)) hzr
  · have hx := hc.listed.next r hn.mem d q hq
    refine ⟨hx.mem,?_,fun z hz huz => hx.first z hz (Direction.lt_trans hru huz)⟩
    refine Direction.not_le.mp fun hle => ?_
    exact Direction.not_lt.mpr (hn.best q.id hx.mem hle) hx.after
  · exact hc.listed.last r hn.mem d hq z hz (Direction.lt_trans hru huz)

theorem joined_cases {q : Option Identity} {l : ℕ} {δ : Direction} {e : Identity}
    (he : s.joined u r d q x l δ = some e) :
    (x = r ∧ δ = d ∧ e.id = u) ∨ (x = u ∧ δ = d.opposite ∧ e.id = r) ∨
    (∃ q', q = some q' ∧ x = q'.id ∧ δ = d.opposite ∧ e.id = u) ∨
    (∃ q', q = some q' ∧ x = u ∧ δ = d ∧ e.id = q'.id) ∨ s.entry x l δ = some e := by
  unfold joined at he
  split at he
  · rename_i hx
    obtain rfl := Option.some.inj he
    exact .inl ⟨hx.1,hx.2.2,identity_id s u⟩
  split at he
  · rename_i hx
    obtain rfl := Option.some.inj he
    exact .inr (.inl ⟨hx.1,hx.2.2,identity_id s r⟩)
  right; right
  cases q with
  | none => exact .inr (.inr he)
  | some q' =>
    simp only at he
    split at he
    · rename_i hx
      obtain rfl := Option.some.inj he
      exact .inl ⟨q',rfl,hx.1,hx.2.2,identity_id s u⟩
    split at he
    · rename_i hx
      obtain rfl := Option.some.inj he
      exact .inr (.inl ⟨q',rfl,hx.1,hx.2.2,identity_id s _⟩)
    · exact .inr (.inr he)

theorem Calm.joined_listed (hc : s.Calm I) (hu : u ∈ s.members) (hnew : u ∉ I)
    (hn : Nearest d I u r) (he : t.entry = s.joined u r d (s.entry r 0 d)) :
    t.Listed (insert u I) := by
  obtain ⟨hr,hq,hlast⟩ := hc.surrounds hnew hn
  have hne : ∀ z ∈ I, z ≠ u := fun z hz he => hnew (he ▸ hz)
  have hur : u ≠ r := (hne r hn.mem).symm
  have hd : d.opposite ≠ d := by cases d <;> simp [Direction.opposite]
  refine hc.listed.insert (fun x hx δ => ⟨fun hxn => ?_,fun hxn => ?_⟩) (fun δ e hδ => ?_)
    fun δ hδ => ?_
  · rw [he]
    rcases Direction.eq_or_eq_opposite d δ with rfl | rfl
    · obtain rfl := hr.unique hxn
      exact ⟨s.identity u,by simp [joined],identity_id s u⟩
    · rw [Direction.opposite_opposite] at hxn
      cases hqe : s.entry r 0 d with
      | none => exact absurd hxn.after (hlast hqe x hx)
      | some q =>
        obtain rfl := (hq q hqe).unique hxn
        exact ⟨s.identity u,by simp [joined,hd,hne q.id hx],identity_id s u⟩
  · rw [he]
    have hxr : ¬ (x = r ∧ δ = d) := by
      rintro ⟨rfl,rfl⟩
      exact hxn hr
    cases hqe : s.entry r 0 d with
    | none => simp [joined,hxr,hne x hx]
    | some q =>
      have hxq : ¬ (x = q.id ∧ δ = d.opposite) := by
        rintro ⟨rfl,rfl⟩
        exact hxn (by rw [Direction.opposite_opposite]; exact hq q hqe)
      simp [joined,hxr,hxq,hne x hx]
  · rw [he] at hδ
    rcases joined_cases hδ with ⟨h,-⟩ | ⟨-,rfl,hid⟩ | ⟨q,hqe,h,-⟩ | ⟨q,hqe,-,rfl,hid⟩ | h
    · exact absurd h hur
    · rw [hid]
      exact hr
    · exact absurd h (hne q.id (hq q hqe).mem).symm
    · rw [hid]
      exact hq q hqe
    · simp [hc.fresh u hu hnew] at h
  · rw [he] at hδ
    rcases Direction.eq_or_eq_opposite d δ with rfl | rfl
    · cases hqe : s.entry r 0 δ with
      | none => exact hlast hqe
      | some q => simp [joined,hqe,hur,hd.symm,(hne q.id (hq q hqe).mem).symm] at hδ
    · simp [joined,hur] at hδ

theorem Calm.joined (hc : s.Calm I) (hu : u ∈ s.members) (hnew : u ∉ I) (hn : Nearest d I u r)
    (hm : t.members = s.members) (hi : ∀ y ∈ t.members, (t.node y).Idle)
    (he : t.entry = s.joined u r d (s.entry r 0 d)) : t.Calm (insert u I) := by
  obtain ⟨hr,hq,-⟩ := hc.surrounds hnew hn
  refine ⟨?_,hc.joined_listed hu hnew hn he,fun x hx l δ e hx' => ?_,fun x hx l δ e hx' => ?_,
    fun x hx hxI l δ => ?_,hi⟩
  · rw [hm]
    exact Finset.insert_subset hu hc.subset
  · rw [hm] at hx
    rw [he] at hx'
    rcases joined_cases hx' with ⟨rfl,rfl,hid⟩ | ⟨rfl,rfl,hid⟩ | ⟨q,hqe,rfl,rfl,hid⟩ |
      ⟨q,hqe,rfl,rfl,hid⟩ | h
    · rw [hid]
      exact Direction.opposite_lt.mp hr.after
    · rw [hid]
      exact hr.after
    · rw [hid]
      exact Direction.opposite_lt.mpr (hq q hqe).after
    · rw [hid]
      exact (hq q hqe).after
    · exact hc.sided x hx l δ e h
  · rw [he] at hx'
    rcases joined_cases hx' with ⟨-,-,hid⟩ | ⟨-,-,hid⟩ | ⟨q,hqe,-,-,hid⟩ |
      ⟨q,hqe,-,-,hid⟩ | h
    · simp [hid]
    · simp [hid,hr.mem]
    · simp [hid]
    · simp [hid,(hq q hqe).mem]
    · rcases Finset.mem_insert.mp hx with rfl | hx
      · simp [hc.fresh x hu hnew] at h
      · exact Finset.mem_insert_of_mem (hc.entries x hx l δ e h)
  · rw [hm] at hx
    rw [he]
    by_contra hsome
    obtain ⟨e,hx'⟩ := Option.ne_none_iff_exists'.mp hsome
    rcases joined_cases hx' with ⟨rfl,-,-⟩ | ⟨rfl,-,-⟩ | ⟨q,hqe,rfl,-,-⟩ | ⟨q,hqe,rfl,-,-⟩ | h
    · exact hxI (Finset.mem_insert_of_mem hr.mem)
    · exact hxI (Finset.mem_insert_self x I)
    · exact hxI (Finset.mem_insert_of_mem (hq q hqe).mem)
    · exact hxI (Finset.mem_insert_self x I)
    · have hxI' : x ∉ I := fun h => hxI (Finset.mem_insert_of_mem h)
      simp [hc.fresh x hx hxI'] at h

theorem paired_eq_joined (hur : u ≠ r) : s.paired u r d 0 = s.joined u r d none := by
  funext x l δ
  by_cases hx : x = u
  · subst hx
    simp [paired,accepted,Sys.joined,hur]
  · simp [paired,accepted,Sys.joined,hx]

theorem paired_paired_eq_joined {q : Identity} (hur : u ≠ r) (huq : u ≠ q.id)
    (hid : t.identity = s.identity) (he : t.entry = s.paired u r d 0) :
    t.paired u q.id d.opposite 0 = s.joined u r d (some q) := by
  have hd : d.opposite ≠ d := by cases d <;> simp [Direction.opposite]
  funext x l δ
  simp only [paired,accepted,hid,he,Direction.opposite_opposite,Sys.joined]
  by_cases hx : x = u
  · subst hx
    by_cases hδ : δ = d
    · subst hδ
      simp [hur,huq,hd.symm]
    · simp [hδ,hur,huq]
  · by_cases hδ : δ = d
    · subst hδ
      simp [hx,hd.symm]
    · simp [hδ,hx]

theorem Calm.joinToward (hc : s.Calm I) (hr : h.Runs s) (hu : u ∈ s.members) (hnew : u ∉ I)
    (hintro : introducer ∈ I) (hlt : d.lt introducer u) (hl : level < lookupTableLevels)
    (hf : s.members.card < fuel) (nonces : JoinNonces) :
    ∃ h' t, h.joinToward fuel u introducer level d nonces = some (h',.ok ()) ∧ h'.Runs t ∧
      t.Calm (insert u I) ∧ t.members = s.members := by
  have hpos : 0 < s.members.card := Finset.card_pos.mpr ⟨u,hu⟩
  have hfuel : 1 < fuel := by omega
  obtain ⟨h₁,s₁,r,hs,hr₁,hk₁,hn⟩ := hc.search hr hu hintro (Direction.le_of_lt hlt) hl hf
    nonces.search
  obtain ⟨hnext,hq,-⟩ := hc.surrounds hnew hn
  have hur : r ≠ u := fun he => hnew (he ▸ hn.mem)
  have hc₁ := hc.kept hk₁
  obtain ⟨h₂,s₂,hqry,hr₂,hk₂⟩ := hc₁.query hr₁ (by rw [hk₁.members]; exact hu) hn.mem
    hfuel d nonces.query
  have hm₂ : s₂.members = s.members := hk₂.members.trans hk₁.members
  have he₂ : s₂.entry = s.entry := hk₂.entry.trans hk₁.entry
  have hid₂ : s₂.identity = s.identity := hk₂.identity.trans hk₁.identity
  rw [hk₁.entry] at hqry
  have hu₂ : u ∈ s₂.members := by rw [hm₂]; exact hu
  have hr₂m : r ∈ s₂.members := by rw [hm₂]; exact hc.subset hn.mem
  obtain ⟨h₃,s₃,hl₁,hr₃,hm₃,hid₃,he₃,hi₃⟩ := link_accepted hr₂ hk₂.idle hu₂
    hr₂m (Direction.opposite_lt.mp hnext.after)
    (fun e he => Direction.le_of_lt (hq e (by rw [← he₂]; exact he)).after)
    (by rw [he₂]; exact hc.fresh u hu hnew _ _) hfuel nonces.searchLink
  have hpair : s₂.paired u r d 0 = s.paired u r d 0 := by
    funext x l δ
    simp [paired,accepted,he₂,hid₂]
  rw [hpair] at he₃
  cases hqe : s.entry r 0 d with
  | none =>
    rw [hqe] at hqry
    refine ⟨h₃,s₃,?_,hr₃,hc.joined hu hnew hn (hm₃.trans hm₂) hi₃ ?_,hm₃.trans hm₂⟩
    · simp [NetworkHub.joinToward,hs,hur,hqry,hl₁]
    · rw [he₃,hqe,paired_eq_joined hur.symm]
  | some q =>
    rw [hqe] at hqry
    have hqn := hq q hqe
    have huq : u ≠ q.id := fun he => hnew (he ▸ hqn.mem)
    have hd : d.opposite ≠ d := by cases d <;> simp [Direction.opposite]
    obtain ⟨h₄,s₄,hl₂,hr₄,hm₄,-,he₄,hi₄⟩ := link_accepted hr₃ hi₃ (by rw [hm₃]; exact hu₂)
      (by rw [hm₃,hm₂]; exact hc.subset hqn.mem) (Direction.opposite_lt.mpr hqn.after)
      (fun e he => by
        rw [he₃] at he
        simp only [paired,accepted,huq.symm,hd,false_and,and_false,if_false] at he
        obtain ⟨f,hf,hfr⟩ := hc.listed.mirror hn.mem hqe
        obtain rfl := Option.some.inj (hf.symm.trans he)
        rw [hfr,Direction.opposite_le]
        exact hn.le)
      (by
        rw [he₃]
        simp [paired,accepted,hur.symm,hd.symm,hc.fresh u hu hnew]) hfuel nonces.queryLink
    refine ⟨h₄,s₄,?_,hr₄,hc.joined hu hnew hn (hm₄.trans (hm₃.trans hm₂)) hi₄ ?_,
      hm₄.trans (hm₃.trans hm₂)⟩
    · simp [NetworkHub.joinToward,hs,hur,hqry,hl₁,hl₂]
      rfl
    · rw [he₄,hqe,paired_paired_eq_joined hur.symm huq (hid₃.trans hid₂) he₃]

theorem Calm.joinToward_collision (hc : s.Calm I) (hr : h.Runs s) (hu : u ∈ I)
    (hintro : introducer ∈ I) (hlt : d.lt introducer u) (hl : level < lookupTableLevels)
    (hf : s.members.card < fuel) (nonces : JoinNonces) :
    ∃ h' t, h.joinToward fuel u introducer level d nonces = some (h',.error .idCollision) ∧
      h'.Runs t ∧ Kept s t := by
  obtain ⟨h',t,r,hs,hr',hk,hn⟩ := hc.search hr (hc.subset hu) hintro (Direction.le_of_lt hlt) hl hf
    nonces.search
  refine ⟨h',t,?_,hr',hk⟩
  simp [NetworkHub.joinToward,hs,hn.eq_target hu]

theorem joinToward_error {nonces : JoinNonces} {h' : NetworkHub} {e : Error}
    (hs : h.sendSearchByIdReq fuel u introducer nonces.search u level d = some (h',.error e)) :
    h.joinToward fuel u introducer level d nonces = some (h',.error e) := by
  rw [NetworkHub.joinToward,hs]
  rfl

/-- The side on which `u` lies from its introducer. -/
def toward (introducer u : Identifier) : Direction := if introducer < u then .right else .left

theorem toward_lt (hne : introducer ≠ u) : (toward introducer u).lt introducer u := by
  unfold toward
  split
  · assumption
  · exact lt_of_le_of_ne (not_lt.mp ‹_›) hne.symm

theorem joinStage1LinkLevel0_eq (hne : introducer ≠ u) (nonces : JoinNonces) :
    h.joinStage1LinkLevel0 fuel u introducer level nonces =
      h.joinToward fuel u introducer level (toward introducer u) nonces := by
  unfold NetworkHub.joinStage1LinkLevel0 toward
  split
  · rfl
  · rw [if_pos (lt_of_le_of_ne (not_lt.mp ‹_›) hne.symm)]

theorem Calm.searchById {a : Identifier} (hc : s.Calm I) (hr : h.Runs s) (ha : a ∈ I)
    (req : IdSearchReq) (hle : req.direction.le a req.target)
    (hl : req.level < lookupTableLevels) (hf : s.members.card < fuel) :
    ∃ h' t r, h.searchById fuel a req = some (h',.ok ⟨req.nonce,req.target,0,r⟩) ∧ h'.Runs t ∧
      Kept s t ∧ Nearest req.direction I req.target r := by
  have ham := hc.subset ha
  have hid : (s.node a).core.id = a := s.node_id a
  rcases (s.node a).core.searchById_cases req hl with ⟨hloc,hpast⟩ | ⟨l,e,hle',he,hloc,ht,-⟩
  · refine ⟨h,s,a,?_,hr,⟨rfl,rfl,rfl,hc.idle⟩,hc.listed.nearest_of_past req ha hle hpast⟩
    simp [NetworkHub.searchById,hr.node ham,hloc,hid]
  · have hmem := hc.entries a ha l req.direction e he
    have hne : e.id ≠ (s.node a).core.id := by
      rw [hid]
      exact (Direction.ne_of_lt (hc.sided a ham l req.direction e he)).symm
    obtain ⟨h',t,r,hs,hr',hk,hn⟩ := hc.search hr ham hmem ht (lt_of_le_of_lt hle' hl) hf req.nonce
    refine ⟨h',t,r,?_,hr',hk,hn⟩
    simp [NetworkHub.searchById,hr.node ham,hloc,hne,hs]

/-- A node that is past the target, or has an empty table, returns itself. -/
theorem searchById_self {a : Identifier} (hr : h.Runs s) (ha : a ∈ s.members) (req : IdSearchReq)
    (hl : req.level < lookupTableLevels) (fuel : ℕ)
    (hpast : ∀ l e, s.entry a l req.direction = some e → req.direction.lt req.target e.id) :
    h.searchById fuel a req = some (h,.ok ⟨req.nonce,req.target,0,a⟩) := by
  have hid : (s.node a).core.id = a := s.node_id a
  rcases (s.node a).core.searchById_cases req hl with ⟨hloc,-⟩ | ⟨l,e,-,he,-,ht,-⟩
  · simp [NetworkHub.searchById,hr.node ha,hloc,hid]
  · exact absurd ht (Direction.not_le.mpr (hpast l e he))

end Sys

end SkipGraph
