import SkipGraph.MockNetwork

/-!
# The hub as a registry

To those who set it up the hub is a registry that is written once: an identifier gets an
address, and then an identity, and keeps both whatever events are sent. What the hub answers
is read off the registry, up to the failure of a handler.
-/

namespace SkipGraph

/-- The address of each network and the identity of its processor. -/
abbrev Registry := Identifier → Option (Address × Option Identity)

inductive HubOp
  | newMockNetwork (identifier : Identifier) (address : Address)
  | newNode (identifier : Identifier) (core : BaseCore)
  | send (target : Identifier) (event : Event)

namespace Registry

/-- Only an empty place is filled. -/
def after (ρ : Registry) : HubOp → Registry
  | .newMockNetwork identifier address =>
    match ρ identifier with
    | none => Function.update ρ identifier (some (address,none))
    | some _ => ρ
  | .newNode identifier core =>
    match ρ identifier with
    | some (address,none) => Function.update ρ identifier
        (some (address,some ⟨core.id,core.memVec,address⟩))
    | _ => ρ
  | .send _ _ => ρ

def Answers (ρ : Registry) : HubOp → Except Error Unit → Prop
  | .newMockNetwork identifier _, r =>
    match ρ identifier with
    | none => r = .ok ()
    | some _ => r = .error (.transport s!"network with identifier {identifier} already exists")
  | .newNode identifier _, r =>
    match ρ identifier with
    | none => False
    | some (_,none) => r = .ok ()
    | some (_,some _) => r = .error (.transport ("irrecoverable error: " ++
        "could not register node in network: an event processor is already registered"))
  | .send target _, r =>
    match ρ target with
    | none => r = .error (.transport ("failed to route event: " ++
        s!"network with identifier {target} not found"))
    | some (_,none) => r = .error (.transport ("failed to route event: " ++
        "hub failed to process routing event: no event processor registered"))
    | some (_,some _) => r = .ok () ∨ r = .error (.transport ("failed to route event: " ++
        "hub failed to process routing event: failed to process incoming event"))

def AnswersAll (ρ : Registry) : List HubOp → List (Except Error Unit) → Prop
  | [],[] => True
  | op::ops,r::rs => ρ.Answers op r ∧ (ρ.after op).AnswersAll ops rs
  | _,_ => False

theorem after_of_some {ρ : Registry} {x : Identifier} {address : Address} {identity : Identity}
    (h : ρ x = some (address,some identity)) (op : HubOp) :
    ρ.after op x = some (address,some identity) := by
  cases op with
  | newMockNetwork identifier address' =>
    by_cases hx : identifier = x
    · subst hx
      simp [after,h]
    · cases hi : ρ identifier with
      | none => simp [after,hi,Ne.symm hx,h]
      | some v => simp [after,hi,h]
  | newNode identifier core =>
    by_cases hx : identifier = x
    · subst hx
      simp [after,h]
    · rcases hi : ρ identifier with _ | ⟨address',_ | identity'⟩
      · simp [after,hi,h]
      · simp [after,hi,Ne.symm hx,h]
      · simp [after,hi,h]
  | send target event => exact h

end Registry

namespace NetworkHub

variable {h h' : NetworkHub} {x target : Identifier} {m : MockNetwork} {n n' : BaseNode}
  {event : Event} {fuel : ℕ} {r : Except Error Unit}

def registry (h : NetworkHub) : Registry := fun x =>
  (h.networks x).map fun m => (m.address,m.processor.map BaseNode.selfIdentity)

/-- One operation. A node is made over the handle of a network, so there has to be one. -/
def execOp (fuel : ℕ) (h : NetworkHub) : HubOp → Option (NetworkHub × Except Error Unit)
  | .newMockNetwork identifier address => some <|
    match h.newMockNetwork identifier address with
    | .ok r => (r.1,.ok ())
    | .error e => (h,.error e)
  | .newNode identifier core => (h.networks identifier).map fun m =>
    match h.newNode m core with
    | .ok h' => (h',.ok ())
    | .error e => (h,.error e)
  | .send target event => sendEvent fuel h target event

def runOps (fuel : ℕ) (h : NetworkHub) :
    List HubOp → Option (NetworkHub × List (Except Error Unit))
  | [] => some (h,[])
  | op::ops => (h.execOp fuel op).bind fun r =>
      (r.1.runOps fuel ops).map fun rs => (rs.1,r.2::rs.2)

/-- Every network is kept under its own identifier. -/
def Filed (h : NetworkHub) : Prop := ∀ x m, h.networks x = some m → m.id = x

theorem Filed.of_frame (hf : h.Filed) (he : h'.frame = h.frame) : h'.Filed := by
  intro x m hm
  have hx : h.frame x = some (m.id,m.address) := by
    rw [← he]
    simp [frame,hm]
  obtain ⟨m',hm',hid⟩ := Option.map_eq_some_iff.mp hx
  rw [← (Prod.mk.inj hid).1]
  exact hf x m' hm'

theorem setNode_registry (hm : h.networks x = some m) (hn : m.processor = some n)
    (hid : n'.selfIdentity = n.selfIdentity) : (h.setNode x n').registry = h.registry := by
  funext y
  simp only [registry,setNode_networks]
  split
  · rename_i hy
    subst hy
    simp [hm,hn,hid]
  · rfl

theorem sendEvent_registry (hf : h.Filed) (hs : sendEvent fuel h target event = some (h',r)) :
    h'.registry = h.registry := by
  induction fuel generalizing h target event r with
  | zero => simp [sendEvent] at hs
  | succ fuel ih =>
    rcases sendEvent_cases fuel h target event with
      ⟨-,he⟩ | ⟨m,-,-,he⟩ | ⟨m,n,hm,hn,⟨-,he⟩ | ⟨q,-,-,he⟩⟩
    · obtain ⟨rfl,-⟩ := Prod.mk.inj (Option.some.inj (he.symm.trans hs))
      rfl
    · obtain ⟨rfl,-⟩ := Prod.mk.inj (Option.some.inj (he.symm.trans hs))
      rfl
    · obtain ⟨rfl,-⟩ := Prod.mk.inj (Option.some.inj (he.symm.trans hs))
      obtain rfl := hf target m hm
      exact setNode_registry hm hn (BaseNode.process_selfIdentity _ _ _)
    · obtain ⟨⟨h'',r'⟩,hs',he'⟩ := Option.map_eq_some_iff.mp (he.symm.trans hs)
      obtain ⟨rfl,-⟩ := Prod.mk.inj he'
      obtain rfl := hf target m hm
      exact (ih (hf.of_frame setNode_frame) hs').trans
        (setNode_registry hm hn (BaseNode.process_selfIdentity _ _ _))

theorem sendEvent_answers (hs : sendEvent fuel h target event = some (h',r)) :
    h.registry.Answers (.send target event) r := by
  cases fuel with
  | zero => simp [sendEvent] at hs
  | succ fuel =>
    rcases sendEvent_cases fuel h target event with
      ⟨hn,he⟩ | ⟨m,hm,hp,he⟩ | ⟨m,n,hm,hn,⟨-,he⟩ | ⟨q,-,-,he⟩⟩
    · obtain ⟨-,rfl⟩ := Prod.mk.inj (Option.some.inj (he.symm.trans hs))
      simp only [Registry.Answers,registry,hn,Option.map_none]
      rfl
    · obtain ⟨-,rfl⟩ := Prod.mk.inj (Option.some.inj (he.symm.trans hs))
      simp only [Registry.Answers,registry,hm,hp,Option.map_some,Option.map_none]
      rfl
    · obtain ⟨-,rfl⟩ := Prod.mk.inj (Option.some.inj (he.symm.trans hs))
      simpa [Registry.Answers,registry,hm,hn] using routed_cases _
    · obtain ⟨r',-,he'⟩ := Option.map_eq_some_iff.mp (he.symm.trans hs)
      obtain ⟨-,rfl⟩ := Prod.mk.inj he'
      simpa [Registry.Answers,registry,hm,hn] using routed_cases _

theorem execOp_registry (hf : h.Filed) {op : HubOp} (hs : h.execOp fuel op = some (h',r)) :
    h'.Filed ∧ h'.registry = h.registry.after op ∧ h.registry.Answers op r := by
  cases op with
  | newMockNetwork identifier address =>
    cases hn : h.networks identifier with
    | none =>
      obtain ⟨rfl,rfl⟩ : h.insert identifier (.new identifier address) = h' ∧ .ok () = r := by
        simpa [execOp,newMockNetwork,hn] using hs
      refine ⟨fun x m hm => ?_,?_,by simp [Registry.Answers,registry,hn]⟩
      · by_cases hx : x = identifier
        · subst hx
          obtain rfl : MockNetwork.new x address = m := by simpa [insert] using hm
          rfl
        · exact hf x m (by simpa [insert,hx] using hm)
      · funext x
        by_cases hx : x = identifier
        · subst hx
          simp [registry,insert,Registry.after,hn,MockNetwork.new]
        · simp [registry,insert,Registry.after,hn,hx]
    | some m =>
      obtain ⟨rfl,rfl⟩ : h = h' ∧
          .error (.transport s!"network with identifier {identifier} already exists") = r := by
        simpa [execOp,newMockNetwork,hn] using hs
      exact ⟨hf,by simp [Registry.after,registry,hn],by simp [Registry.Answers,registry,hn]⟩
  | newNode identifier core =>
    obtain ⟨m,hm,he⟩ := Option.map_eq_some_iff.mp hs
    obtain rfl := hf identifier m hm
    cases hp : m.processor with
    | none =>
      have hnode : h.node m.id = none := by simp [node,hm,hp]
      obtain ⟨rfl,rfl⟩ : h.setNode m.id (.new core m.address) = h' ∧ .ok () = r := by
        simpa [newNode,registerProcessor,hnode,Except.mapError] using he
      refine ⟨hf.of_frame setNode_frame,?_,by simp [Registry.Answers,registry,hm,hp]⟩
      funext x
      by_cases hx : x = m.id
      · subst hx
        simp [registry,setNode_networks,Registry.after,hm,hp,BaseNode.new,BaseNode.selfIdentity]
      · simp [registry,setNode_networks,Registry.after,hm,hp,hx]
    | some n =>
      have hnode : h.node m.id = some n := by simp [node,hm,hp]
      obtain ⟨rfl,rfl⟩ : h = h' ∧ .error (.transport ("irrecoverable error: " ++
          "could not register node in network: an event processor is already registered")) = r := by
        simp only [newNode,registerProcessor,hnode,Except.mapError,Prod.mk.injEq] at he
        exact ⟨he.1,he.2⟩
      exact ⟨hf,by simp [Registry.after,registry,hm,hp],by simp [Registry.Answers,registry,hm,hp]⟩
  | send target event =>
    exact ⟨hf.of_frame (sendEvent_frame hs),sendEvent_registry hf hs,sendEvent_answers hs⟩

theorem runOps_registry (hf : h.Filed) {ops : List HubOp} {rs : List (Except Error Unit)}
    (hs : h.runOps fuel ops = some (h',rs)) :
    h'.Filed ∧ h'.registry = ops.foldl Registry.after h.registry ∧
      h.registry.AnswersAll ops rs := by
  induction ops generalizing h rs with
  | nil =>
    obtain ⟨rfl,rfl⟩ := Prod.mk.inj (Option.some.inj hs)
    exact ⟨hf,rfl,trivial⟩
  | cons op ops ih =>
    obtain ⟨⟨h₁,r⟩,hop,hrest⟩ := Option.bind_eq_some_iff.mp hs
    obtain ⟨⟨h₂,rs'⟩,hrun,he⟩ := Option.map_eq_some_iff.mp hrest
    obtain ⟨rfl,rfl⟩ := Prod.mk.inj he
    obtain ⟨hf₁,hreg,hans⟩ := execOp_registry hf hop
    obtain ⟨hf₂,hreg',hans'⟩ := ih hf₁ hrun
    rw [hreg] at hreg' hans'
    exact ⟨hf₂,hreg',hans,hans'⟩

/-- From an empty hub on, whatever is set up and sent, the hub is a registry that is written
once: it holds what the registry holds, each operation returns what the registry says, and an
identity and its address, once there, are there in every later state. -/
theorem hub_refines_registry {before later : List HubOp} {rs rs' : List (Except Error Unit)}
    (hs : NetworkHub.new.runOps fuel before = some (h,rs))
    (hs' : h.runOps fuel later = some (h',rs')) :
    h.registry = before.foldl Registry.after (fun _ => none) ∧
    Registry.AnswersAll (fun _ => none) before rs ∧
    (∀ x address identity, h.registry x = some (address,some identity) →
      h'.registry x = some (address,some identity)) := by
  have hnew : NetworkHub.new.Filed := fun x m hm => by simp [NetworkHub.new] at hm
  obtain ⟨hf,hreg,hans⟩ := runOps_registry hnew hs
  obtain ⟨-,hreg',-⟩ := runOps_registry hf hs'
  refine ⟨hreg,hans,fun x address identity hx => ?_⟩
  rw [hreg']
  clear hreg' hs'
  generalize h.registry = ρ at hx
  induction later generalizing ρ with
  | nil => exact hx
  | cons op later ih => exact ih _ (Registry.after_of_some hx op)

/-- A network and its node are set up, a second processor is refused, and an event for an
unknown target fails. -/
theorem hub_refines_registry_of_one :
    let x : Identifier := .ofByte 1
    let core : BaseCore := ⟨x,⟨Vector.replicate _ 0⟩,.new⟩
    ∃ h h' rs rs', NetworkHub.new.runOps 1 [.newMockNetwork x ⟨"",""⟩,.newNode x core] =
        some (h,rs) ∧
      h.runOps 1 [.newNode x { core with memVec := ⟨Vector.replicate _ 1⟩ },
        .send (.ofByte 2) (.retMaxLevelOp ⟨⟨0⟩,0⟩)] = some (h',rs') ∧
      h'.registry x = some (⟨"",""⟩,some ⟨x,⟨Vector.replicate _ 0⟩,⟨"",""⟩⟩) := by
  intro x core
  have hne : (.ofByte 2 : Identifier) ≠ x := by decide
  obtain ⟨⟨h',rs'⟩,hs'⟩ : ∃ r, (NetworkHub.new.insert x
      ⟨x,⟨"",""⟩,some (.new core ⟨"",""⟩)⟩).runOps 1
        [.newNode x { core with memVec := ⟨Vector.replicate _ 1⟩ },
          .send (.ofByte 2) (.retMaxLevelOp ⟨⟨0⟩,0⟩)] = some r := by
    simp [runOps,execOp,insert,NetworkHub.new,newNode,registerProcessor,node,Except.mapError,
      sendEvent,routeEvent,hne]
  have hs : NetworkHub.new.runOps 1 [.newMockNetwork x ⟨"",""⟩,.newNode x core] =
      some (NetworkHub.new.insert x ⟨x,⟨"",""⟩,some (.new core ⟨"",""⟩)⟩,[.ok (),.ok ()]) := by
    simp [runOps,execOp,newMockNetwork,NetworkHub.new,newNode,registerProcessor,node,insert,
      MockNetwork.new,Except.mapError,setNode]
  obtain ⟨hreg,-,honce⟩ := hub_refines_registry hs hs'
  refine ⟨_,h',_,rs',hs,hs',honce x _ _ ?_⟩
  rw [hreg]
  simp [Registry.after,core]

end NetworkHub

end SkipGraph
