import SkipGraph.System
import SkipGraph.Context

/-!
# The mock network

A hub keeps one mock network for each identifier, and each network has at most one event
processor, a node. Sending is synchronous: the hub runs the handler of the target inside
the call, and whatever that handler sends runs inside it in turn. The recursion is given
a fuel; `none` means that the nesting is deeper than the fuel allows.

The sender of an event is not modelled, since the processors only log it.
-/

namespace SkipGraph

structure MockNetwork where
  id : Identifier
  address : Address
  processor : Option BaseNode

def MockNetwork.new (id : Identifier) (address : Address) : MockNetwork := ⟨id,address,none⟩

/-- The networks of a hub; a processor and the node that registered it share their state. -/
structure NetworkHub where
  networks : Identifier → Option MockNetwork

/-- How an event is sent: the hub afterwards and the result, or `none` without fuel. -/
abbrev Send := NetworkHub → Identifier → Event → Option (NetworkHub × Except Error Unit)

namespace NetworkHub

def new : NetworkHub := ⟨fun _ => none⟩

def insert (h : NetworkHub) (identifier : Identifier) (m : MockNetwork) : NetworkHub :=
  ⟨Function.update h.networks identifier (some m)⟩

def newMockNetwork (h : NetworkHub) (identifier : Identifier) (address : Address) :
    Except Error (NetworkHub × MockNetwork) :=
  match h.networks identifier with
  | some _ => .error (.transport s!"network with identifier {identifier} already exists")
  | none => .ok (h.insert identifier (.new identifier address),.new identifier address)

def node (h : NetworkHub) (x : Identifier) : Option BaseNode :=
  (h.networks x).bind MockNetwork.processor

def setNode (h : NetworkHub) (x : Identifier) (n : BaseNode) : NetworkHub :=
  ⟨Function.update h.networks x ((h.networks x).map fun m => { m with processor := some n })⟩

/-- Only one processor can be registered. The handle `m` shares its state with the hub. -/
def registerProcessor (h : NetworkHub) (m : MockNetwork) (processor : BaseNode) :
    Except Error NetworkHub :=
  match h.node m.id with
  | some _ => .error (.transport "an event processor is already registered")
  | none => .ok (h.setNode m.id processor)

/-- `BaseNode::new`. A failed registration is thrown in the node's own root context: the error
is the message of the panic. -/
def newNode (h : NetworkHub) (m : MockNetwork) (core : BaseCore) : Except Error NetworkHub :=
  let ctx : IrrevocableContext Unit := .root () none
  (h.registerProcessor m (.new core m.address)).mapError fun e => .transport
    (ctx.throwIrrecoverable s!"could not register node in network: {e.message}")

def addNode (h : NetworkHub) (core : BaseCore) (address : Address) : Except Error NetworkHub :=
  (h.newMockNetwork core.id address).bind fun r => r.1.newNode r.2 core

/-- A handler that sends over the hub. It sends at most one event, as its last action, so it
runs up to that event, then the event is sent, and the answer decides the result. -/
def process (send : Send) (h : NetworkHub) (x : Identifier) (n : BaseNode) (event : Event) :
    Option (NetworkHub × Except Error Unit) :=
  let o := n.processIncomingEvent reliable event
  match o.sent with
  | [] => some (h.setNode x o.node,o.result)
  | p::_ => (send (h.setNode x o.node) p.dest p.event).map fun r =>
      (r.1,(n.processIncomingEvent (fun _ _ => r.2) event).result)

/-- The context hides the text of the handler's own error. -/
def incomingEvent (send : Send) (h : NetworkHub) (m : MockNetwork) (event : Event) :
    Option (NetworkHub × Except Error Unit) :=
  match m.processor with
  | none => some (h,.error (.transport "no event processor registered"))
  | some n => (h.process send m.id n event).map fun r =>
      (r.1,r.2.mapError fun _ => .transport "failed to process incoming event")

def routeEvent (send : Send) (h : NetworkHub) (target : Identifier) (event : Event) :
    Option (NetworkHub × Except Error Unit) :=
  match h.networks target with
  | some m => (h.incomingEvent send m event).map fun r =>
      (r.1,r.2.mapError fun e =>
        .transport s!"hub failed to process routing event: {e.message}")
  | none => some (h,.error (.transport s!"network with identifier {target} not found"))

/-- `send_event` of any of the hub's networks, with nesting up to `fuel`. -/
def sendEvent : ℕ → Send
  | 0 => fun _ _ _ => none
  | fuel+1 => fun h target event => (h.routeEvent (sendEvent fuel) target event).map fun r =>
      (r.1,r.2.mapError fun e => .transport s!"failed to route event: {e.message}")

end NetworkHub

namespace BaseNode

variable {net : Network} {n : BaseNode} {ev : Event}

/-- What a handler does with the network: nothing, or one event as its last action. -/
theorem process_sends (n : BaseNode) (ev : Event) :
    (∃ result, ∀ net, n.processIncomingEvent net ev =
      ⟨(n.processIncomingEvent reliable ev).node,[],result⟩) ∨
    ∃ site dest event, ∀ net, n.processIncomingEvent net ev =
      (n.processIncomingEvent reliable ev).node.sendEvent net site dest event := by
  cases ev with
  | searchByIdRequest req =>
    cases hs : n.core.searchById req with
    | error e => exact .inl ⟨_,fun net => by simp [processIncomingEvent,handleSearchByIdRequest,hs]; rfl⟩
    | ok res =>
      right
      by_cases hid : res.result = n.id
      · exact ⟨_,_,_,fun net => by simp [processIncomingEvent,handleSearchByIdRequest,hs,hid]; rfl⟩
      · exact ⟨_,_,_,fun net => by simp [processIncomingEvent,handleSearchByIdRequest,hs,hid]; rfl⟩
  | getMaxLevelOp req => exact .inr ⟨_,_,_,fun _ => rfl⟩
  | getNeighborOp req =>
    cases hs : n.core.neighborEntry req.level req.direction with
    | error e => exact .inl ⟨_,fun net => by simp [processIncomingEvent,handleGetNeighborRequest,hs]; rfl⟩
    | ok res =>
      exact .inr ⟨_,_,_,fun net => by simp [processIncomingEvent,handleGetNeighborRequest,hs]; rfl⟩
  | getLinkOp req =>
    cases hb : n.belongsInOwnSlot req.level req.dir req.candidate with
    | false => exact .inl ⟨.ok (),fun net => by simp [processIncomingEvent,handleGetLinkRequest,hb]⟩
    | true =>
      cases ht : n.core.tryLink req.level req.dir req.candidate with
      | error e =>
        exact .inl ⟨_,fun net => by simp [processIncomingEvent,handleGetLinkRequest,hb,ht]; rfl⟩
      | ok r =>
        obtain ⟨outcome,core⟩ := r
        right
        cases outcome <;>
          exact ⟨_,_,_,fun net => by simp [processIncomingEvent,handleGetLinkRequest,hb,ht]; rfl⟩
  | setLinkOp res =>
    obtain ⟨m,h,-⟩ := handleSetLinkResponse_cases n res
    exact .inl ⟨.ok (),fun net => by simp [processIncomingEvent,h]⟩
  | _ => exact .inl ⟨_,fun _ => rfl⟩

end BaseNode

namespace NetworkHub

variable {h h' : NetworkHub} {x y target : Identifier} {n : BaseNode} {event : Event}

theorem setNode_networks (h : NetworkHub) (x : Identifier) (n : BaseNode) (y : Identifier) :
    (h.setNode x n).networks y =
      if y = x then (h.networks x).map fun m => { m with processor := some n }
      else h.networks y := by
  simp [setNode,Function.update_apply]

theorem setNode_node_of_ne (hy : y ≠ x) : (h.setNode x n).node y = h.node y := by
  simp [node,setNode_networks,hy]

/-- What the sender learns from a handler's result: a failure has always the same text. -/
def routed (r : Except Error Unit) : Except Error Unit :=
  r.mapError fun _ => .transport ("failed to route event: " ++
    "hub failed to process routing event: failed to process incoming event")

theorem routed_cases (r : Except Error Unit) : routed r = .ok () ∨
    routed r = .error (.transport ("failed to route event: " ++
      "hub failed to process routing event: failed to process incoming event")) := by
  cases r with
  | ok u => exact .inl rfl
  | error e => exact .inr rfl

def unrouted (text : String) : Except Error Unit :=
  .error (.transport s!"failed to route event: {text}")

@[simp] theorem routed_eq_ok {r : Except Error Unit} : routed r = .ok () ↔ r = .ok () := by
  cases r <;> simp [routed,Except.mapError]

@[simp] theorem unrouted_ne_ok {text : String} : unrouted text ≠ .ok () := by simp [unrouted]

/-- A handler run over the hub ends by itself, or as the event that it sends does. -/
theorem process_cases (send : Send) (h : NetworkHub) (x : Identifier) (n : BaseNode)
    (event : Event) :
    ((n.processIncomingEvent reliable event).sent = [] ∧
      h.process send x n event = some (h.setNode x (n.processIncomingEvent reliable event).node,
        (n.processIncomingEvent reliable event).result)) ∨
    ∃ p site, (n.processIncomingEvent reliable event).sent = [p] ∧
      (n.processIncomingEvent reliable event).result = .ok () ∧
      h.process send x n event =
        (send (h.setNode x (n.processIncomingEvent reliable event).node) p.dest p.event).map
          fun r => (r.1,r.2.mapError (.wrapped site)) := by
  rcases n.process_sends event with ⟨result,hp⟩ | ⟨site,dest,ev,hp⟩
  · left
    have hs : (n.processIncomingEvent reliable event).sent = [] := by rw [hp reliable]
    exact ⟨hs,by simp only [process,hs]⟩
  · right
    have hs : (n.processIncomingEvent reliable event).sent = [⟨dest,ev⟩] := by
      rw [hp reliable]
      rfl
    have hr : (n.processIncomingEvent reliable event).result = .ok () := by
      rw [hp reliable]
      rfl
    refine ⟨⟨dest,ev⟩,site,hs,hr,?_⟩
    simp only [process,hs]
    congr 1
    funext r
    rw [hp]
    obtain ⟨h',r⟩ := r
    cases r <;> rfl

theorem sendEvent_cases (fuel : ℕ) (h : NetworkHub) (target : Identifier) (event : Event) :
    (h.networks target = none ∧ sendEvent (fuel+1) h target event =
      some (h,unrouted s!"network with identifier {target} not found")) ∨
    (∃ m, h.networks target = some m ∧ m.processor = none ∧ sendEvent (fuel+1) h target event =
      some (h,unrouted "hub failed to process routing event: no event processor registered")) ∨
    ∃ m n, h.networks target = some m ∧ m.processor = some n ∧
      (((n.processIncomingEvent reliable event).sent = [] ∧ sendEvent (fuel+1) h target event =
        some (h.setNode m.id (n.processIncomingEvent reliable event).node,
          routed (n.processIncomingEvent reliable event).result)) ∨
      ∃ p, (n.processIncomingEvent reliable event).sent = [p] ∧
        (n.processIncomingEvent reliable event).result = .ok () ∧
        sendEvent (fuel+1) h target event =
          (sendEvent fuel (h.setNode m.id (n.processIncomingEvent reliable event).node)
            p.dest p.event).map fun r => (r.1,routed r.2)) := by
  cases hn : h.networks target with
  | none => exact .inl ⟨rfl,by simp [sendEvent,routeEvent,hn]; rfl⟩
  | some m =>
    right
    cases hp : m.processor with
    | none => exact .inl ⟨m,rfl,hp,by simp [sendEvent,routeEvent,hn,incomingEvent,hp]; rfl⟩
    | some n =>
      refine .inr ⟨m,n,rfl,hp,?_⟩
      rcases process_cases (sendEvent fuel) h m.id n event with ⟨hs,he⟩ | ⟨p,site,hs,hr,he⟩
      · refine .inl ⟨hs,?_⟩
        simp only [sendEvent,routeEvent,hn,incomingEvent,hp,he,Option.map_some]
        cases (n.processIncomingEvent reliable event).result <;> rfl
      · refine .inr ⟨p,hs,hr,?_⟩
        simp only [sendEvent,routeEvent,hn,incomingEvent,hp,he,Option.map_map]
        congr 1
        funext r
        obtain ⟨h',r⟩ := r
        cases r <;> rfl

theorem routeEvent_mono {send send' : Send} {res : NetworkHub × Except Error Unit}
    (hle : ∀ h x e r, send h x e = some r → send' h x e = some r)
    (hr : h.routeEvent send target event = some res) :
    h.routeEvent send' target event = some res := by
  cases hn : h.networks target with
  | none => simpa only [routeEvent,hn] using hr
  | some m =>
    simp only [routeEvent,hn,Option.map_eq_some_iff] at hr ⊢
    obtain ⟨r₁,hr₁,rfl⟩ := hr
    refine ⟨r₁,?_,rfl⟩
    cases hp : m.processor with
    | none => simpa only [incomingEvent,hp] using hr₁
    | some n =>
      simp only [incomingEvent,hp,Option.map_eq_some_iff] at hr₁ ⊢
      obtain ⟨r₂,hr₂,rfl⟩ := hr₁
      refine ⟨r₂,?_,rfl⟩
      simp only [process] at hr₂ ⊢
      split at hr₂
      · exact hr₂
      · obtain ⟨r₃,hr₃,rfl⟩ := Option.map_eq_some_iff.mp hr₂
        exact Option.map_eq_some_iff.mpr ⟨r₃,hle _ _ _ _ hr₃,rfl⟩

theorem sendEvent_mono {fuel fuel' : ℕ} (hf : fuel ≤ fuel') {res : NetworkHub × Except Error Unit}
    (hs : sendEvent fuel h target event = some res) : sendEvent fuel' h target event = some res := by
  induction fuel generalizing fuel' h target event res with
  | zero => simp [sendEvent] at hs
  | succ fuel ih =>
    obtain ⟨fuel',rfl⟩ : ∃ f, fuel' = f+1 := ⟨fuel'-1,by omega⟩
    simp only [sendEvent,Option.map_eq_some_iff] at hs ⊢
    obtain ⟨r,hr,rfl⟩ := hs
    exact ⟨r,routeEvent_mono (fun _ _ _ _ h => ih (by omega) h) hr,rfl⟩

theorem addNode_ok (core : BaseCore) (address : Address) (hn : h.networks core.id = none) :
    h.addNode core address =
      .ok (h.insert core.id ⟨core.id,address,some (.new core address)⟩) := by
  simp [addNode,newMockNetwork,hn,Except.bind,newNode,registerProcessor,insert,node,
    MockNetwork.new,setNode,Except.mapError]

theorem addNode_error (core : BaseCore) (address : Address) {m : MockNetwork}
    (hn : h.networks core.id = some m) : h.addNode core address =
      .error (.transport s!"network with identifier {core.id} already exists") := by
  simp [addNode,newMockNetwork,hn,Except.bind]

def frame (h : NetworkHub) (x : Identifier) : Option (Identifier × Address) :=
  (h.networks x).map fun m => (m.id,m.address)

@[simp] theorem setNode_frame : (h.setNode x n).frame = h.frame := by
  funext y
  simp only [frame,setNode_networks]
  split
  · rename_i hy
    subst hy
    cases h.networks y <;> rfl
  · rfl

theorem sendEvent_frame {fuel : ℕ} {r : Except Error Unit}
    (hs : sendEvent fuel h target event = some (h',r)) : h'.frame = h.frame := by
  induction fuel generalizing h target event r with
  | zero => simp [sendEvent] at hs
  | succ fuel ih =>
    rcases sendEvent_cases fuel h target event with
      ⟨-,he⟩ | ⟨m,-,-,he⟩ | ⟨m,n,-,-,⟨-,he⟩ | ⟨q,-,-,he⟩⟩
    · obtain ⟨rfl,-⟩ := Prod.mk.inj (Option.some.inj (he.symm.trans hs))
      rfl
    · obtain ⟨rfl,-⟩ := Prod.mk.inj (Option.some.inj (he.symm.trans hs))
      rfl
    · obtain ⟨rfl,-⟩ := Prod.mk.inj (Option.some.inj (he.symm.trans hs))
      exact setNode_frame
    · obtain ⟨⟨h'',r'⟩,hs',he'⟩ := Option.map_eq_some_iff.mp (he.symm.trans hs)
      obtain ⟨rfl,-⟩ := Prod.mk.inj he'
      exact (ih hs').trans setNode_frame

end NetworkHub

end SkipGraph
