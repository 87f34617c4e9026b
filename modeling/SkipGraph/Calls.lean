import SkipGraph.Node

/-!
# The calls a node makes

An async method runs in segments between its await points. Starting a call runs the
first segment; `wake` resumes a call whose awaited channel has a value or has lost
its sender; `timeout` resumes it with the elapsed timer; `cancel` drops the future.
Whatever ends a round trip also runs the `Drop` of its `WaiterGuard`.
-/

namespace SkipGraph

namespace Request

def dest : Request → Identifier
  | maxLevel introducer => introducer
  | search dest _ _ _ => dest
  | neighbor src _ _ => src
  | link dest _ _ => dest

def event (n : BaseNode) (nonce : Nonce) : Request → Event
  | maxLevel _ => .getMaxLevelOp ⟨nonce,n.id⟩
  | search _ target level direction => .searchByIdRequest ⟨nonce,target,n.id,level,direction⟩
  | neighbor _ direction level => .getNeighborOp ⟨nonce,n.id,level,direction⟩
  | link _ dir level => .getLinkOp ⟨nonce,n.selfIdentity,dir,level⟩

def waiter (tx : ℕ) : Request → Waiter
  | maxLevel _ => .maxLevel tx
  | search .. => .asyncSearch tx
  | neighbor .. => .neighbor tx
  | link _ dir level => .link tx level dir.opposite

def accepts : Request → Reply → Bool
  | maxLevel _, .maxLevel _ => true
  | search .., .search _ => true
  | neighbor .., .neighbor _ => true
  | link .., .link _ => true
  | _, _ => false

end Request

def LinkFuture.waits : LinkFuture → List RoundTrip
  | waiting rt => [rt]
  | finished _ => []

def Call.waits : Call → List RoundTrip
  | single rt => [rt]
  | joinSearch _ rt => [rt]
  | joinNeighbor _ _ rt => [rt]
  | joinLink _ _ _ searchLink queryLink =>
    searchLink.waits ++ (queryLink.map LinkFuture.waits).getD []
  | returned _ => []
  | cancelled => []

def LinkFuture.settle (rt : RoundTrip) (result : Except Error Reply) : LinkFuture → LinkFuture
  | waiting rt' => if rt' = rt then finished (result.map fun _ => ()) else waiting rt'
  | finished r => finished r

/-- `tokio::join!` ends when both futures have, and the search link's error comes first. -/
def Call.settled (direction : Direction) (anchor : Identifier) (neighbor : Option Identity) :
    LinkFuture → Option LinkFuture → Call
  | .finished s, none => .returned (s.map fun _ => .joined)
  | .finished s, some (.finished q) => .returned (s.bind fun _ => q.map fun _ => .joined)
  | searchLink, queryLink => .joinLink direction anchor neighbor searchLink queryLink

def Reply.output : Reply → Output
  | maxLevel res => .maxLevel res.maxLevel
  | search res => .found res
  | neighbor res => .neighbor res.neighbor
  | link _ => .linked

namespace BaseNode

/-- `HashMap::insert`: a waiter already stored under the nonce is dropped. -/
def insertWaiter (n : BaseNode) (nonce : Nonce) (w : Waiter) : BaseNode :=
  let n' := match n.requestIdMap nonce with
    | some old => n.dropSender old.tx
    | none => n
  { n' with requestIdMap := Function.update n'.requestIdMap nonce (some w) }

/-- `Drop for WaiterGuard`: remove whatever waiter the nonce has. -/
def dropGuard (n : BaseNode) (nonce : Nonce) : BaseNode :=
  match n.requestIdMap nonce with
  | some w => (n.removeWaiter nonce).dropSender w.tx
  | none => n

/-- `oneshot::channel()`; the new channel is the last one. -/
def openChannel (n : BaseNode) : BaseNode := { n with oneshots := n.oneshots ++ [Oneshot.empty] }

/-- The common first segment of every request: open a channel, register its sender,
take the guard and send. A failed send ends the round trip at once. -/
def startRoundTrip (net : Network) (n : BaseNode) (nonce : Nonce) (request : Request) :
    BaseNode × List Packet × Except Error RoundTrip :=
  let rx := n.oneshots.length
  let n' := n.openChannel.insertWaiter nonce (request.waiter rx)
  match net request.dest (request.event n nonce) with
  | .ok _ => (n',[⟨request.dest,request.event n nonce⟩],.ok ⟨request,nonce,rx⟩)
  | .error e => (n'.dropGuard nonce,[],.error (.wrapped (.send request) e))

def getMaxLevel (net : Network) (n : BaseNode) (introducer : Identifier) (nonce : Nonce) :=
  n.startRoundTrip net nonce (.maxLevel introducer)

def sendSearchByIdReq (net : Network) (n : BaseNode) (dest : Identifier) (nonce : Nonce)
    (target : Identifier) (level : ℕ) (direction : Direction) :=
  n.startRoundTrip net nonce (.search dest target level direction)

def getNeighbor (net : Network) (n : BaseNode) (src : Identifier) (direction : Direction)
    (level : ℕ) (nonce : Nonce) :=
  n.startRoundTrip net nonce (.neighbor src direction level)

def sendLinkRequest (net : Network) (n : BaseNode) (dest : Identifier) (dir : Direction)
    (level : ℕ) (nonce : Nonce) :=
  n.startRoundTrip net nonce (.link dest dir level)

def suspend (started : BaseNode × List Packet × Except Error RoundTrip)
    (next : RoundTrip → Call) : BaseNode × List Packet × Call :=
  match started.2.2 with
  | .ok rt => (started.1,started.2.1,next rt)
  | .error e => (started.1,started.2.1,.returned (.error e))

/-- `search_by_id` up to its await; a local answer returns at once. -/
def searchById (net : Network) (n : BaseNode) (req : IdSearchReq) :
    BaseNode × List Packet × Call :=
  match n.core.searchById req with
  | .error e => (n,[],.returned (.error (.wrapped .performSearch e)))
  | .ok res =>
    if res.result = n.core.id then (n,[],.returned (.ok (.found res)))
    else suspend (n.sendSearchByIdReq net res.result req.nonce req.target res.terminationLevel
      req.direction) .single

/-- `join_stage1_link_level0` up to the search's await. -/
def joinStage1LinkLevel0 (net : Network) (n : BaseNode) (introducer : Identifier) (maxLevel : ℕ)
    (nonce : Nonce) : BaseNode × List Packet × Call :=
  let ownId := n.core.id
  if introducer < ownId then
    suspend (n.sendSearchByIdReq net introducer nonce ownId maxLevel .right) (.joinSearch .right)
  else if introducer > ownId then
    suspend (n.sendSearchByIdReq net introducer nonce ownId maxLevel .left) (.joinSearch .left)
  else (n,[],.returned (.error .introducerCollision))

/-- From the search result to the neighbour query's await. -/
def joinAfterSearch (net : Network) (n : BaseNode) (direction : Direction) (res : IdSearchRes)
    (nonce : Nonce) : BaseNode × List Packet × Call :=
  if res.result = n.core.id then (n,[],.returned (.error .idCollision))
  else suspend (n.getNeighbor net res.result direction 0 nonce) (.joinNeighbor direction res.result)

/-- A future that fails to send has finished when it is first polled. -/
def linkFuture : Except Error RoundTrip → LinkFuture
  | .ok rt => .waiting rt
  | .error e => .finished (.error e)

/-- From the neighbour query's reply to the await of the link requests: the anchor is
asked for its slot on the search's side, the neighbour for its slot on the other. -/
def joinAfterNeighbor (net : Network) (n : BaseNode) (direction : Direction)
    (anchor : Identifier) (res : NeighborRes) (nonce₁ nonce₂ : Nonce) :
    BaseNode × List Packet × Call :=
  let search := n.sendLinkRequest net anchor direction 0 nonce₁
  match res.neighbor with
  | some queryIdentity =>
    let query := search.1.sendLinkRequest net queryIdentity.id direction.opposite 0 nonce₂
    (query.1,search.2.1++query.2.1,.settled direction anchor (some queryIdentity)
      (linkFuture search.2.2) (some (linkFuture query.2.2)))
  | none => (search.1,search.2.1,.settled direction anchor none (linkFuture search.2.2) none)

/-- Continue a call after its round trip `rt` ended with `result`. A channel carries
replies of one type only, so the arms for a reply of another type are never taken. -/
def resume (net : Network) (n : BaseNode) (rt : RoundTrip) (result : Except Error Reply)
    (nonce₁ nonce₂ : Nonce) : Call → BaseNode × List Packet × Call
  | .single _ => (n,[],.returned (result.map Reply.output))
  | .joinSearch direction _ =>
    match result with
    | .error e => (n,[],.returned (.error e))
    | .ok (.search res) => n.joinAfterSearch net direction res nonce₁
    | .ok _ => (n,[],.returned (.error (.senderDropped rt.request)))
  | .joinNeighbor direction anchor _ =>
    match result with
    | .error e => (n,[],.returned (.error e))
    | .ok (.neighbor res) => n.joinAfterNeighbor net direction anchor res nonce₁ nonce₂
    | .ok _ => (n,[],.returned (.error (.senderDropped rt.request)))
  | .joinLink direction anchor neighbor searchLink queryLink =>
    (n,[],.settled direction anchor neighbor (searchLink.settle rt result)
      (queryLink.map (·.settle rt result)))
  | .returned r => (n,[],.returned r)
  | .cancelled => (n,[],.cancelled)

/-- The result a woken receiver finds; `none` keeps it asleep. -/
def received (n : BaseNode) (rt : RoundTrip) : Option (Except Error Reply) :=
  match n.oneshots[rt.rx]? with
  | some (.sent reply) => if rt.request.accepts reply then some (.ok reply) else none
  | some .closed => some (.error (.senderDropped rt.request))
  | _ => none

end BaseNode

/-- What a node may do on its own. The nonces are the values that `Nonce::random`
returns in the segment. -/
inductive CallAction
  | searchById (req : IdSearchReq)
  | getMaxLevel (introducer : Identifier) (nonce : Nonce)
  | getNeighbor (src : Identifier) (direction : Direction) (level : ℕ) (nonce : Nonce)
  | sendLinkRequest (dest : Identifier) (dir : Direction) (level : ℕ) (nonce : Nonce)
  | joinStage1LinkLevel0 (introducer : Identifier) (maxLevel : ℕ) (nonce : Nonce)
  | wake (call wait : ℕ) (nonce₁ nonce₂ : Nonce)
  | timeout (call wait : ℕ)
  | cancel (call : ℕ)
  deriving DecidableEq, Repr

namespace BaseNode

def begin (r : BaseNode × List Packet × Call) : BaseNode × List Packet :=
  ({ r.1 with calls := r.1.calls ++ [r.2.2] },r.2.1)

/-- End round trip `rt` of call `k` with the given result and run the call on; an
error ends the call or one link future, so only a reply makes it draw nonces. -/
def endRoundTrip (net : Network) (n : BaseNode) (k : ℕ) (call : Call) (rt : RoundTrip)
    (result : Except Error Reply) (nonce₁ nonce₂ : Nonce) : BaseNode × List Packet :=
  let r := (n.dropGuard rt.nonce).resume net rt result nonce₁ nonce₂ call
  ({ r.1 with calls := r.1.calls.set k r.2.2 },r.2.1)

def callStep (net : Network) (n : BaseNode) : CallAction → Option (BaseNode × List Packet)
  | .searchById req => some (begin (n.searchById net req))
  | .getMaxLevel introducer nonce =>
    some (begin (suspend (n.getMaxLevel net introducer nonce) .single))
  | .getNeighbor src direction level nonce =>
    some (begin (suspend (n.getNeighbor net src direction level nonce) .single))
  | .sendLinkRequest dest dir level nonce =>
    some (begin (suspend (n.sendLinkRequest net dest dir level nonce) .single))
  | .joinStage1LinkLevel0 introducer maxLevel nonce =>
    some (begin (n.joinStage1LinkLevel0 net introducer maxLevel nonce))
  | .wake k i nonce₁ nonce₂ =>
    n.calls[k]?.bind fun call => call.waits[i]?.bind fun rt => (n.received rt).map fun result =>
      n.endRoundTrip net k call rt result nonce₁ nonce₂
  | .timeout k i =>
    n.calls[k]?.bind fun call => call.waits[i]?.bind fun rt =>
      if n.oneshots[rt.rx]? = some .empty then
        some (n.endRoundTrip net k call rt (.error (.timedOut rt.request)) rt.nonce rt.nonce)
      else none
  | .cancel k =>
    n.calls[k]?.bind fun call =>
      if call.waits = [] then none
      else
        let n' := call.waits.foldl (fun n rt => n.dropGuard rt.nonce) n
        some ({ n' with calls := n'.calls.set k .cancelled },[])

end BaseNode

end SkipGraph
