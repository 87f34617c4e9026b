import SkipGraph.Core

/-!
# A node and its inbound events

`BaseNode` wires the local core to the network. Handlers are state-passing
functions: an `Outcome` holds the node after the event, the events it handed to the
network and the handler's result. A failed handler keeps whatever it had already
written. Log output is not modelled, and neither is the sender of an event, which
`process_incoming_event` only logs.
-/

namespace SkipGraph

/-- `Network::send_event`, as the node sees it. -/
abbrev Network := Identifier → Event → Except Error Unit

/-- The sending half of a pending request. `tx` names its oneshot channel; a link
request also records the slot of this node that the reply must name. -/
inductive Waiter
  | maxLevel (tx : ℕ)
  | asyncSearch (tx : ℕ)
  | neighbor (tx : ℕ)
  | link (tx : ℕ) (level : ℕ) (dir : Direction)
  deriving DecidableEq, Repr

def Waiter.tx : Waiter → ℕ
  | maxLevel tx => tx
  | asyncSearch tx => tx
  | neighbor tx => tx
  | link tx _ _ => tx

def Waiter.isMaxLevel : Waiter → Bool
  | maxLevel _ => true
  | _ => false

def Waiter.isAsyncSearch : Waiter → Bool
  | asyncSearch _ => true
  | _ => false

def Waiter.isNeighbor : Waiter → Bool
  | neighbor _ => true
  | _ => false

def Waiter.isLink (level : ℕ) (dir : Direction) : Waiter → Bool
  | link _ l d => l == level && d == dir
  | _ => false

inductive Reply
  | maxLevel (res : MaxLevelRes)
  | search (res : IdSearchRes)
  | neighbor (res : NeighborRes)
  | link (res : LinkRes)
  deriving DecidableEq, Repr

/-- A oneshot channel as its receiver sees it; `closed` is a sender dropped unused. -/
inductive Oneshot
  | empty
  | sent (reply : Reply)
  | closed
  deriving DecidableEq, Repr

/-- A request whose reply is awaited on channel `rx`, under the guard of `nonce`. -/
structure RoundTrip where
  request : Request
  nonce : Nonce
  rx : ℕ
  deriving DecidableEq, Repr

/-- One of the two futures of `tokio::join!`. -/
inductive LinkFuture
  | waiting (rt : RoundTrip)
  | finished (result : Except Error Unit)
  deriving DecidableEq

inductive Output
  | maxLevel (level : ℕ)
  | found (res : IdSearchRes)
  | neighbor (entry : Option Identity)
  | linked
  | joined
  deriving DecidableEq

/-- A call of this node, suspended at an await point or ended. -/
inductive Call
  | single (rt : RoundTrip)
  | joinSearch (direction : Direction) (rt : RoundTrip)
  | joinNeighbor (direction : Direction) (anchor : Identifier) (rt : RoundTrip)
  | joinLink (direction : Direction) (anchor : Identifier) (neighbor : Option Identity)
      (searchLink : LinkFuture) (queryLink : Option LinkFuture)
  | returned (result : Except Error Output)
  | cancelled
  deriving DecidableEq

structure BaseNode where
  core : BaseCore
  address : Address
  requestIdMap : Nonce → Option Waiter
  oneshots : List Oneshot
  calls : List Call

structure Outcome where
  node : BaseNode
  sent : List Packet
  result : Except Error Unit

namespace BaseNode

def new (core : BaseCore) (address : Address) : BaseNode := ⟨core,address,fun _ => none,[],[]⟩

def id (n : BaseNode) : Identifier := n.core.id

def memVec (n : BaseNode) : MembershipVector := n.core.memVec

def selfIdentity (n : BaseNode) : Identity := ⟨n.core.id,n.core.memVec,n.address⟩

def entry (n : BaseNode) (level : ℕ) (direction : Direction) : Option Identity :=
  n.core.lt.entry level direction

/-- Send on a channel; a value for a receiver that is gone is dropped. -/
def resolve (n : BaseNode) (tx : ℕ) (reply : Reply) : BaseNode :=
  { n with oneshots := n.oneshots.modify tx fun
      | .empty => .sent reply
      | o => o }

def dropSender (n : BaseNode) (tx : ℕ) : BaseNode :=
  { n with oneshots := n.oneshots.modify tx fun
      | .empty => .closed
      | o => o }

def removeWaiter (n : BaseNode) (nonce : Nonce) : BaseNode :=
  { n with requestIdMap := Function.update n.requestIdMap nonce none }

/-- Remove and return the waiter of a nonce, unless it is absent or unexpected. -/
def takeWaiter (n : BaseNode) (nonce : Nonce) (isExpectedVariant : Waiter → Bool) :
    Option Waiter × BaseNode :=
  match n.requestIdMap nonce with
  | some w => if isExpectedVariant w then (some w,n.removeWaiter nonce) else (none,n)
  | none => (none,n)

/-- Hand the reply to the waiter of its nonce, if there is an expected one. -/
def resolveWaiter (n : BaseNode) (nonce : Nonce) (isExpectedVariant : Waiter → Bool)
    (reply : Reply) : BaseNode :=
  match n.takeWaiter nonce isExpectedVariant with
  | (some w,n') => n'.resolve w.tx reply
  | (none,n') => n'

def sendEvent (net : Network) (n : BaseNode) (site : Site) (dest : Identifier) (event : Event) :
    Outcome :=
  match net dest event with
  | .ok _ => ⟨n,[⟨dest,event⟩],.ok ()⟩
  | .error e => ⟨n,[],.error (.wrapped site e)⟩

def handleSearchByIdRequest (net : Network) (n : BaseNode) (req : IdSearchReq) : Outcome :=
  match n.core.searchById req with
  | .error e => ⟨n,[],.error (.wrapped .performSearch e)⟩
  | .ok res =>
    if res.result = n.id then
      n.sendEvent net .sendSearchResponse req.origin (.searchByIdResponse res)
    else
      n.sendEvent net .relaySearch res.result
        (.searchByIdRequest { req with level := res.terminationLevel })

def handleSearchByIdResponse (n : BaseNode) (res : IdSearchRes) : Outcome :=
  ⟨n.resolveWaiter res.nonce Waiter.isAsyncSearch (.search res),[],.ok ()⟩

def handleGetMaxLevelRequest (net : Network) (n : BaseNode) (req : MaxLevelReq) : Outcome :=
  n.sendEvent net .sendMaxLevelResponse req.origin (.retMaxLevelOp ⟨req.nonce,n.core.maxLevel⟩)

def handleRetMaxLevelResponse (n : BaseNode) (res : MaxLevelRes) : Outcome :=
  ⟨n.resolveWaiter res.nonce Waiter.isMaxLevel (.maxLevel res),[],.ok ()⟩

def handleGetNeighborRequest (net : Network) (n : BaseNode) (req : NeighborReq) : Outcome :=
  match n.core.neighborEntry req.level req.direction with
  | .error e => ⟨n,[],.error (.wrapped .readNeighbor e)⟩
  | .ok neighbor =>
    n.sendEvent net .sendNeighborResponse req.origin
      (.retNeighborOp ⟨req.nonce,req.level,req.direction,neighbor⟩)

def handleRetNeighborResponse (n : BaseNode) (res : NeighborRes) : Outcome :=
  ⟨n.resolveWaiter res.nonce Waiter.isNeighbor (.neighbor res),[],.ok ()⟩

/-- Whether a candidate named by a peer can occupy this node's own slot: the level
exists, the candidate is on the slot's side, and it shares the level's prefix. -/
def belongsInOwnSlot (n : BaseNode) (level : ℕ) (direction : Direction) (candidate : Identity) :
    Bool :=
  if level ≥ lookupTableLevels then false
  else
    let onDirection := match direction with
      | .left => decide (candidate.id < n.id)
      | .right => decide (candidate.id > n.id)
    onDirection && n.core.prefixMatch candidate.memVec level

def handleGetLinkRequest (net : Network) (n : BaseNode) (req : LinkReq) : Outcome :=
  if n.belongsInOwnSlot req.level req.dir req.candidate then
    match n.core.tryLink req.level req.dir req.candidate with
    | .error e => ⟨n,[],.error (.wrapped (.decideLink req.level) e)⟩
    | .ok (.linkedDirectly,core) =>
      { n with core := core }.sendEvent net .sendLinkResponse req.candidate.id
        (.setLinkOp ⟨req.nonce,req.dir.opposite,req.level,some n.selfIdentity⟩)
    | .ok (.forward existing,core) =>
      { n with core := core }.sendEvent net .forwardLink existing.id (.getLinkOp req)
  else ⟨n,[],.ok ()⟩

/-- The write of `handle_set_link_response`, which no waiter gates. -/
def applyLink (n : BaseNode) (res : LinkRes) : Except Error BaseNode :=
  match res.linked with
  | none => .ok n
  | some linked =>
    if n.belongsInOwnSlot res.level res.dir linked then
      match n.core.tryLink res.level res.dir linked with
      | .error e => .error (.wrapped (.applyLink res.level) e)
      | .ok (_,core) => .ok { n with core := core }
    else .ok n

def handleSetLinkResponse (n : BaseNode) (res : LinkRes) : Outcome :=
  match n.applyLink res with
  | .error e => ⟨n,[],.error e⟩
  | .ok n' =>
    ⟨n'.resolveWaiter res.nonce (Waiter.isLink res.level res.dir) (.link res),[],.ok ()⟩

def processIncomingEvent (net : Network) (n : BaseNode) : Event → Outcome
  | .searchByIdRequest req => n.handleSearchByIdRequest net req
  | .searchByIdResponse res => n.handleSearchByIdResponse res
  | .getMaxLevelOp req => n.handleGetMaxLevelRequest net req
  | .retMaxLevelOp res => n.handleRetMaxLevelResponse res
  | .getNeighborOp req => n.handleGetNeighborRequest net req
  | .retNeighborOp res => n.handleRetNeighborResponse res
  | .getLinkOp req => n.handleGetLinkRequest net req
  | .setLinkOp res => n.handleSetLinkResponse res
  | .testMessage _ => ⟨n,[],.error .unsupportedEvent⟩
  | .buddyOp _ => ⟨n,[],.error .unsupportedEvent⟩
  | .checkNeighborOp _ => ⟨n,[],.error .unsupportedEvent⟩

end BaseNode

end SkipGraph
