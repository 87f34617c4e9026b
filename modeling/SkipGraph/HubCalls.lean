import SkipGraph.Dispatch

/-!
# Calls over the mock network

One task at a time uses the hub. When a send returns, everything it caused has happened:
the reply is in the channel, and an await finds it there at once, or nothing will ever
arrive and the await runs into its timeout. Two futures of one `tokio::join!` are polled
in turn: the first is run to its end before the second begins, which at most moves its
timeout ahead.
-/

namespace SkipGraph

namespace NetworkHub

/-- The hub after a call and what the call returns; `none` is a lack of fuel, or a caller
without a node. -/
abbrev Returns (α : Type) := Option (NetworkHub × Except Error α)

/-- The `?` operator: go on with a value, return an error. -/
def Returns.andThen {α β : Type} (r : Returns α) (f : NetworkHub → α → Returns β) : Returns β :=
  r.bind fun
    | (h,.ok a) => f h a
    | (h,.error e) => some (h,.error e)

@[simp] theorem andThen_ok {α β : Type} (h : NetworkHub) (a : α) (f : NetworkHub → α → Returns β) :
    Returns.andThen (some (h,.ok a)) f = f h a := rfl

@[simp] theorem andThen_error {α β : Type} (h : NetworkHub) (e : Error)
    (f : NetworkHub → α → Returns β) :
    Returns.andThen (some (h,.error e)) f = some (h,.error e) := rfl

/-- One request of node `x`: register the waiter, send, await the reply, drop the guard. -/
def roundTrip (fuel : ℕ) (h : NetworkHub) (x : Identifier) (nonce : Nonce) (request : Request) :
    Returns Reply :=
  (h.node x).bind fun n =>
    let rt : RoundTrip := ⟨request,nonce,n.oneshots.length⟩
    (sendEvent fuel (h.setNode x (n.openChannel.insertWaiter nonce (request.waiter rt.rx)))
      request.dest (request.event n nonce)).bind fun sent =>
        (sent.1.node x).map fun n' =>
          (sent.1.setNode x (n'.dropGuard nonce),
            match sent.2 with
            | .error e => .error (.wrapped (.send request) e)
            | .ok _ => (n'.received rt).getD (.error (.timedOut request)))

/-- The payload of the reply. A channel carries replies of one type only, so the arms for a
reply of another type are never taken. -/
def sendSearchByIdReq (fuel : ℕ) (h : NetworkHub) (x dest : Identifier) (nonce : Nonce)
    (target : Identifier) (level : ℕ) (direction : Direction) : Returns IdSearchRes :=
  let request : Request := .search dest target level direction
  Returns.andThen (h.roundTrip fuel x nonce request) fun h reply =>
    match reply with
    | .search res => some (h,.ok res)
    | _ => some (h,.error (.senderDropped request))

def getMaxLevel (fuel : ℕ) (h : NetworkHub) (x introducer : Identifier) (nonce : Nonce) :
    Returns ℕ :=
  let request : Request := .maxLevel introducer
  Returns.andThen (h.roundTrip fuel x nonce request) fun h reply =>
    match reply with
    | .maxLevel res => some (h,.ok res.maxLevel)
    | _ => some (h,.error (.senderDropped request))

def getNeighbor (fuel : ℕ) (h : NetworkHub) (x src : Identifier) (direction : Direction)
    (level : ℕ) (nonce : Nonce) : Returns (Option Identity) :=
  let request : Request := .neighbor src direction level
  Returns.andThen (h.roundTrip fuel x nonce request) fun h reply =>
    match reply with
    | .neighbor res => some (h,.ok res.neighbor)
    | _ => some (h,.error (.senderDropped request))

def sendLinkRequest (fuel : ℕ) (h : NetworkHub) (x dest : Identifier) (dir : Direction)
    (level : ℕ) (nonce : Nonce) : Returns Unit :=
  let request : Request := .link dest dir level
  Returns.andThen (h.roundTrip fuel x nonce request) fun h reply =>
    match reply with
    | .link _ => some (h,.ok ())
    | _ => some (h,.error (.senderDropped request))

def searchById (fuel : ℕ) (h : NetworkHub) (x : Identifier) (req : IdSearchReq) :
    Returns IdSearchRes :=
  (h.node x).bind fun n =>
    match n.core.searchById req with
    | .error e => some (h,.error (.wrapped .performSearch e))
    | .ok res =>
      if res.result = n.core.id then some (h,.ok res)
      else h.sendSearchByIdReq fuel x res.result req.nonce req.target res.terminationLevel
        req.direction

structure JoinNonces where
  search : Nonce
  query : Nonce
  searchLink : Nonce
  queryLink : Nonce

/-- `join_stage1_link_level0` once its search direction is known. Both futures of the join
run to their end before the first error is returned. -/
def joinToward (fuel : ℕ) (h : NetworkHub) (x introducer : Identifier) (maxLevel : ℕ)
    (direction : Direction) (nonces : JoinNonces) : Returns Unit :=
  (h.sendSearchByIdReq fuel x introducer nonces.search x maxLevel direction).andThen fun h res =>
    if res.result = x then some (h,.error .idCollision)
    else
      (h.getNeighbor fuel x res.result direction 0 nonces.query).andThen fun h query =>
        match query with
        | none => h.sendLinkRequest fuel x res.result direction 0 nonces.searchLink
        | some queryIdentity =>
          (h.sendLinkRequest fuel x res.result direction 0 nonces.searchLink).bind fun s =>
            (s.1.sendLinkRequest fuel x queryIdentity.id direction.opposite 0
              nonces.queryLink).map fun q => (q.1,s.2.bind fun _ => q.2)

def joinStage1LinkLevel0 (fuel : ℕ) (h : NetworkHub) (x introducer : Identifier) (maxLevel : ℕ)
    (nonces : JoinNonces) : Returns Unit :=
  if introducer < x then h.joinToward fuel x introducer maxLevel .right nonces
  else if introducer > x then h.joinToward fuel x introducer maxLevel .left nonces
  else some (h,.error .introducerCollision)

section Frame

variable {α β : Type} {h h' : NetworkHub} {fuel level : ℕ} {x dest target : Identifier}
  {nonce : Nonce} {d : Direction}

def Keeps (h : NetworkHub) (r : Returns α) : Prop := ∀ h' a, r = some (h',a) → h'.frame = h.frame

theorem keeps_some {a : Except Error α} (hf : h'.frame = h.frame) : Keeps h (some (h',a)) := by
  rintro _ _ ⟨⟩
  exact hf

theorem Keeps.andThen {r : Returns α} {f : NetworkHub → α → Returns β} (hr : Keeps h r)
    (hf : ∀ h' a, h'.frame = h.frame → Keeps h (f h' a)) : Keeps h (r.andThen f) := by
  intro h'' b hb
  obtain ⟨⟨h',a⟩,he,hb⟩ := Option.bind_eq_some_iff.mp hb
  cases a with
  | ok a => exact hf h' a (hr h' _ he) h'' b hb
  | error e =>
    obtain ⟨rfl,-⟩ := Prod.mk.inj (Option.some.inj hb)
    exact hr _ _ he

theorem keeps_roundTrip (request : Request) : Keeps h (h.roundTrip fuel x nonce request) := by
  intro h' a he
  obtain ⟨n,-,he⟩ := Option.bind_eq_some_iff.mp he
  obtain ⟨⟨h₁,r⟩,hs,he⟩ := Option.bind_eq_some_iff.mp he
  obtain ⟨n',-,he⟩ := Option.map_eq_some_iff.mp he
  obtain ⟨rfl,-⟩ := Prod.mk.inj he
  rw [setNode_frame,sendEvent_frame hs,setNode_frame]

theorem keeps_sendSearchByIdReq :
    Keeps h (h.sendSearchByIdReq fuel x dest nonce target level d) :=
  (keeps_roundTrip _).andThen fun h' reply hf => by
    cases reply <;> exact keeps_some hf

theorem keeps_getNeighbor : Keeps h (h.getNeighbor fuel x dest d level nonce) :=
  (keeps_roundTrip _).andThen fun h' reply hf => by
    cases reply <;> exact keeps_some hf

theorem keeps_sendLinkRequest : Keeps h (h.sendLinkRequest fuel x dest d level nonce) :=
  (keeps_roundTrip _).andThen fun h' reply hf => by
    cases reply <;> exact keeps_some hf

theorem keeps_searchById (req : IdSearchReq) : Keeps h (h.searchById fuel x req) := by
  intro h' a he
  obtain ⟨n,-,he⟩ := Option.bind_eq_some_iff.mp he
  cases hs : n.core.searchById req with
  | error e => exact keeps_some rfl h' a (by simpa only [hs] using he)
  | ok res =>
    simp only [hs] at he
    split at he
    · exact keeps_some rfl h' a he
    · exact keeps_sendSearchByIdReq h' a he

theorem keeps_joinToward (introducer : Identifier) (nonces : JoinNonces) :
    Keeps h (h.joinToward fuel x introducer level d nonces) := by
  refine keeps_sendSearchByIdReq.andThen fun h₁ res hf₁ => ?_
  split
  · exact keeps_some hf₁
  · have hq : Keeps h (h₁.getNeighbor fuel x res.result d 0 nonces.query) := fun h' a he =>
      (keeps_getNeighbor h' a he).trans hf₁
    refine hq.andThen fun h₂ query hf₂ => ?_
    cases query with
    | none => exact fun h' a he => (keeps_sendLinkRequest h' a he).trans hf₂
    | some q =>
      intro h' a he
      obtain ⟨⟨h₃,r₃⟩,h₃e,he⟩ := Option.bind_eq_some_iff.mp he
      obtain ⟨⟨h₄,r₄⟩,h₄e,he⟩ := Option.map_eq_some_iff.mp he
      obtain ⟨rfl,-⟩ := Prod.mk.inj he
      exact (keeps_sendLinkRequest _ _ h₄e).trans ((keeps_sendLinkRequest _ _ h₃e).trans hf₂)

end Frame

end NetworkHub

namespace BaseNode

variable {n : BaseNode} {nonce : Nonce} {request : Request} {reply : Reply} {ev : Event}

@[simp] theorem started_core : (n.started nonce request).core = n.core := by simp [started]

@[simp] theorem started_address : (n.started nonce request).address = n.address := by
  simp [started,openChannel]

/-- No request of the node is pending. -/
def Idle (n : BaseNode) : Prop := ∀ nonce, n.requestIdMap nonce = none

theorem Idle.started (hi : n.Idle) (nonce : Nonce) (request : Request) :
    (n.started nonce request).requestIdMap =
      Function.update n.requestIdMap nonce (some (request.waiter n.oneshots.length)) ∧
    (n.started nonce request).oneshots = n.oneshots++[.empty] := by
  constructor
  · funext m
    rw [started_map,Function.update_apply]
  · simp [BaseNode.started,insertWaiter,openChannel,hi nonce]

theorem Idle.dropGuard (hi : n.Idle) (nonce : Nonce) (request : Request) :
    ((n.started nonce request).dropGuard nonce).Idle := by
  intro m
  have hmap := (hi.started nonce request).1
  have hw : (n.started nonce request).requestIdMap nonce =
      some (request.waiter n.oneshots.length) := by simp [hmap]
  simp only [BaseNode.dropGuard,hw,dropSender,removeWaiter,hmap,Function.update_idem,
    Function.update_apply]
  split
  · rfl
  · exact hi m

theorem Idle.answered (hi : n.Idle) (hn : ev.nonce? = some nonce) {m : BaseNode}
    (hmap : m.requestIdMap = (n.started nonce request).requestIdMap)
    (hone : m.oneshots = (n.started nonce request).oneshots)
    (hr : ∃ f, ev.reply? = some (reply,f) ∧ f (request.waiter n.oneshots.length) = true)
    (hacc : request.accepts reply = true) :
    (m.processIncomingEvent reliable ev).node.Idle ∧
    (m.processIncomingEvent reliable ev).node.received ⟨request,nonce,n.oneshots.length⟩ =
      some (.ok reply) := by
  obtain ⟨hmap',hone'⟩ := hi.started nonce request
  rw [hmap'] at hmap
  rw [hone'] at hone
  obtain ⟨f,hf,hw⟩ := hr
  have hm : m.requestIdMap nonce = some (request.waiter n.oneshots.length) := by simp [hmap]
  rcases process_waiters reliable m ev with hig | ⟨nonce',w,reply',hres⟩
  · simpa [hw] using hig.unexpected nonce _ reply f hn hf hm
  · obtain rfl : nonce' = nonce := Option.some.inj (hres.nonce_eq.symm.trans hn)
    obtain rfl : w = request.waiter n.oneshots.length := Option.some.inj (hres.waiter.symm.trans hm)
    obtain ⟨f',hf',-⟩ := hres.expected
    obtain ⟨rfl,-⟩ := Prod.mk.inj (Option.some.inj (hf'.symm.trans hf))
    have htx : (request.waiter n.oneshots.length).tx = n.oneshots.length := by
      cases request <;> rfl
    refine ⟨fun m' => ?_,?_⟩
    · rw [hres.map,hmap,Function.update_idem,Function.update_apply]
      split
      · rfl
      · exact hi m'
    · simp [received,hres.oneshots,resolve,htx,hone,hacc]

theorem process_reply (net : Network) (m : BaseNode) {f : Waiter → Bool}
    (hr : ev.reply? = some (reply,f)) : (m.processIncomingEvent net ev).sent = [] ∧
      (m.processIncomingEvent net ev).result = .ok () := by
  cases ev with
  | setLinkOp res =>
    obtain ⟨m',h,-⟩ := handleSetLinkResponse_cases m res
    simp [processIncomingEvent,h]
  | searchByIdResponse res => exact ⟨rfl,rfl⟩
  | retMaxLevelOp res => exact ⟨rfl,rfl⟩
  | retNeighborOp res => exact ⟨rfl,rfl⟩
  | _ => simp [Event.reply?] at hr

end BaseNode

namespace Sys

open BaseNode

/-- The request of node `x` is registered and under way, and nothing else is. -/
def requesting (s : Sys) (x : Identifier) (nonce : Nonce) (request : Request) : Sys :=
  s.update x ((s.node x).started nonce request)
    [⟨request.dest,request.event (s.node x) nonce⟩]
    ((congrArg BaseCore.id started_core).trans (s.node_id x))

variable {s t : Sys} {x y : Identifier} {nonce : Nonce} {request : Request}

theorem requesting_self : (s.requesting x nonce request).node x =
    (s.node x).started nonce request := by
  simp [requesting,update]

theorem requesting_of_ne (hy : y ≠ x) : (s.requesting x nonce request).node y = s.node y := by
  simp [requesting,update,hy]

theorem requesting_entry : (s.requesting x nonce request).entry = s.entry := by
  funext y l d
  by_cases hy : y = x
  · subst hy
    simp [entry,requesting_self,BaseNode.entry]
  · simp [entry,requesting_of_ne hy]

theorem requesting_identity : (s.requesting x nonce request).identity = s.identity := by
  funext y
  by_cases hy : y = x
  · subst hy
    simp [identity,requesting_self,selfIdentity]
  · simp [identity,requesting_of_ne hy]

def abandoned (s : Sys) (x : Identifier) (nonce : Nonce) (request : Request) : Sys :=
  s.update x (((s.node x).started nonce request).dropGuard nonce) []
    ((congrArg BaseCore.id ((dropGuard_core nonce).trans started_core)).trans (s.node_id x))

end Sys

namespace NetworkHub

open Transition BaseNode

variable {h : NetworkHub} {s t v : Sys} {x y : Identifier} {nonce : Nonce} {request : Request}
  {reply : Reply} {ev : Event} {fuel k : ℕ}

/-- A request whose deliveries lead back to its sender with a reply returns this reply. -/
theorem Runs.roundTrip (hr : h.Runs s) (hx : x ∈ s.members) (hi : (s.node x).Idle)
    (htr : Trace Sys.step Sys.NoError (s.requesting x nonce request) (chain k) v)
    (hv : v.inflight = [⟨x,ev⟩])
    (hmap : (v.node x).requestIdMap = ((s.node x).started nonce request).requestIdMap)
    (hone : (v.node x).oneshots = ((s.node x).started nonce request).oneshots)
    (hn : ev.nonce? = some nonce)
    (hrep : ∃ f, ev.reply? = some (reply,f) ∧
      f (request.waiter (s.node x).oneshots.length) = true)
    (hacc : request.accepts reply = true) (hk : k < fuel) :
    ∃ h' t, h.roundTrip fuel x nonce request = some (h',.ok reply) ∧ h'.Runs t ∧
      v.step (.deliver 0) = some t ∧ Sys.Delivered v 0 ⟨x,ev⟩ t ∧ (t.node x).Idle := by
  let u := s.requesting x nonce request
  have hmem : v.members = s.members :=
    htr.invariant (P := fun v => v.members = s.members) rfl fun _ _ _ hm _ hs =>
      (Sys.members_step hs).trans hm
  obtain ⟨t,ht,hd⟩ := Sys.exists_deliver (show v.inflight[0]? = some ⟨x,ev⟩ by simp [hv])
    (show x ∈ v.members by rw [hmem]; exact hx)
  obtain ⟨f,hf,hw⟩ := hrep
  obtain ⟨hsent,hres⟩ := process_reply reliable (v.node x) hf
  obtain ⟨hidle,hrec⟩ := hi.answered hn hmap hone ⟨f,hf,hw⟩ hacc
  have htin : t.inflight = [] := by
    rw [hd.inflight,hv]
    exact hsent
  have htx : t.node x = ((v.node x).processIncomingEvent reliable ev).node := by
    simp [hd.node,Sys.handle]
  rw [← htx] at hidle hrec
  have hlast : Trace Sys.step Sys.NoError v (chain 1) t :=
    (trace_cons ht).mpr ⟨(noError_iff hv).mpr hres,.nil t⟩
  have hall : Trace Sys.step Sys.NoError u (chain (k+1)) t := by
    have happ := htr.append hlast
    rwa [chain,chain,List.replicate_append_replicate] at happ
  have hru : (h.setNode x ((s.node x).started nonce request)).Runs u :=
    hr.setNode hx started_address rfl rfl
  obtain ⟨h',hsend,hrun⟩ := hru.send_of_trace rfl hall htin hk
  have hguard : (t.node x).dropGuard nonce = t.node x := by
    simp [dropGuard,hidle nonce]
  have htm : x ∈ t.members := by rw [hd.members,hmem]; exact hx
  refine ⟨h'.setNode x (t.node x),t,?_,hrun.setNode htm rfl rfl (by simp),ht,hd,hidle⟩
  simp only [NetworkHub.roundTrip,hr.node hx,Option.bind_some]
  simp only [started] at hsend
  rw [hsend]
  simp [hrun.node htm,hguard,hrec]

/-- A request that cannot be sent, or whose first handler fails and writes nothing, returns the
error, and its guard removes the waiter. -/
theorem Runs.roundTrip_error {h₁ : NetworkHub} {e : Error} (hr : h.Runs s) (hx : x ∈ s.members)
    (hsend : sendEvent fuel (h.setNode x ((s.node x).started nonce request)) request.dest
      (request.event (s.node x) nonce) = some (h₁,.error e))
    (hrun : h₁.Runs (s.requesting x nonce request)) :
    ∃ h', h.roundTrip fuel x nonce request = some (h',.error (.wrapped (.send request) e)) ∧
      h'.Runs (s.abandoned x nonce request) := by
  have hxu : x ∈ (s.requesting x nonce request).members := hx
  have hnode : h₁.node x = some ((s.node x).started nonce request) := by
    rw [hrun.node hxu,Sys.requesting_self]
  refine ⟨h₁.setNode x (((s.node x).started nonce request).dropGuard nonce),?_,?_⟩
  · simp only [NetworkHub.roundTrip,hr.node hx,Option.bind_some]
    simp only [started] at hsend hnode
    rw [hsend]
    simp [hnode,started]
  · refine hrun.setNode hxu ?_ rfl ?_
    · simp [Sys.requesting_self]
    · funext y
      by_cases hy : y = x
      · subst hy
        simp [Sys.abandoned,Sys.update]
      · simp [Sys.abandoned,Sys.requesting,Sys.update,hy]

end NetworkHub

end SkipGraph
