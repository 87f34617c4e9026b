import SkipGraph.CalmHub

/-!
# An ordered set over the mock network

Nodes that share a hub and are used one call at a time implement a sorted set of
identifiers: a join inserts, a search finds the nearest member.
-/

namespace SkipGraph

open Transition StrictOrder BaseNode NetworkHub

namespace Sys

variable {s : Sys} {I : Finset Identifier} {x : Identifier}

def add (s : Sys) (core : BaseCore) (address : Address) : Sys where
  members := insert core.id s.members
  node := Function.update s.node core.id (.new core address)
  inflight := s.inflight
  node_id x := by
    by_cases hx : x = core.id
    · subst hx
      simp [BaseNode.new,BaseNode.id]
    · simpa [hx] using s.node_id x

theorem add_entry {core : BaseCore} {address : Address} (hlt : core.lt = .new) :
    (s.add core address).entry x = if x = core.id then fun _ _ => none else s.entry x := by
  funext l d
  simp only [entry,add,Function.update_apply]
  split
  · simp [BaseNode.entry,BaseNode.new,hlt]
  · rfl

/-- The nodes of the graph once a node was added: the first node is a graph by itself. -/
def grown (I : Finset Identifier) (x : Identifier) : Finset Identifier := if I = ∅ then {x} else I

theorem Calm.add (hc : s.Calm I) {core : BaseCore} {address : Address} (hlt : core.lt = .new)
    (hnew : core.id ∉ s.members) : (s.add core address).Calm (grown I core.id) := by
  have hold : ∀ x l d e, (s.add core address).entry x l d = some e →
      x ≠ core.id ∧ s.entry x l d = some e := by
    intro x l d e he
    rw [add_entry hlt] at he
    split at he
    · simp at he
    · exact ⟨‹_›,he⟩
  have hmem : ∀ {x}, x ∈ (s.add core address).members → x ≠ core.id → x ∈ s.members := by
    intro x hx hne
    simpa [Sys.add,hne] using hx
  have hfresh : ∀ x ∈ (s.add core address).members, x ∉ I → ∀ l d,
      (s.add core address).entry x l d = none := by
    intro x hx hxI l d
    rw [add_entry hlt]
    split
    · rfl
    · exact hc.fresh x (hmem hx ‹_›) hxI l d
  have hsided : (s.add core address).Sided := by
    intro x hx l d e he
    obtain ⟨hne,he⟩ := hold x l d e he
    exact hc.sided x (hmem hx hne) l d e he
  have hidle : ∀ x ∈ (s.add core address).members, ((s.add core address).node x).Idle := by
    intro x hx
    by_cases hxc : x = core.id
    · subst hxc
      intro nonce
      simp [Sys.add,BaseNode.new]
    · simpa [Sys.add,hxc] using hc.idle x (hmem hx hxc)
  unfold grown
  split
  · -- the first node: all tables are empty
    rename_i hI
    subst hI
    exact calm_singleton (Finset.mem_insert_self _ _)
      (fun x hx => hfresh x hx (Finset.notMem_empty x)) hidle
  · refine ⟨hc.subset.trans (Finset.subset_insert _ _),⟨?_,?_⟩,hsided,?_,hfresh,hidle⟩
    · exact fun x hx d e he => hc.listed.next x hx d e (hold x 0 d e he).2
    · intro x hx d he
      have hne : x ≠ core.id := fun hxc => hnew (hxc ▸ hc.subset hx)
      rw [add_entry hlt,if_neg hne] at he
      exact hc.listed.last x hx d he
    · exact fun x hx l d e he => hc.entries x hx l d e (hold x l d e he).2

end Sys

inductive SetOp
  | add (core : BaseCore) (address : Address)
  | join (u introducer : Identifier) (level : ℕ) (nonces : JoinNonces)
  | search (a : Identifier) (req : IdSearchReq)

inductive Answer
  | added
  | joined
  | found (nearest : Option Identifier)
  deriving DecidableEq, Repr

/-- The abstract object: a set of known identifiers, and a sorted set of those that joined. -/
structure IdentifierSet where
  known : Finset Identifier
  joined : Finset Identifier

namespace IdentifierSet

/-- The member nearest to the target that is not past it on side `d`. -/
def nearest (I : Finset Identifier) (target : Identifier) : Direction → Option Identifier
  | .left => (I.filter fun x => target ≤ x).min
  | .right => (I.filter fun x => x ≤ target).max

/-- Why a join fails, if it does: the introducer is the node itself, is not there, or is asked
for a level beyond the table, or the node is in the set already. -/
def joinError (σ : IdentifierSet) (u introducer : Identifier) (level : ℕ) : Option Error :=
  let request : Request := .search introducer u level (Sys.toward introducer u)
  if introducer = u then some .introducerCollision
  else if introducer ∉ σ.known then some (.wrapped (.send request) (.transport
    s!"failed to route event: network with identifier {introducer} not found"))
  else if lookupTableLevels ≤ level then some (.wrapped (.send request) (.transport
    ("failed to route event: " ++
      "hub failed to process routing event: failed to process incoming event")))
  else if u ∈ σ.joined then some .idCollision
  else none

/-- A search by a node that is not in the set, or is past the target, returns the node itself. -/
def searchAnswer (σ : IdentifierSet) (a : Identifier) (req : IdSearchReq) : Except Error Answer :=
  if lookupTableLevels ≤ req.level then .error (.wrapped .performSearch
    (.wrapped (.searchLevel lookupTableLevels) (.levelOutOfRange lookupTableLevels)))
  else if a ∈ σ.joined ∧ req.direction.le a req.target then
    .ok (.found (nearest σ.joined req.target req.direction))
  else .ok (.found (some a))

/-- Every operation has an answer, and an operation that fails changes nothing. -/
def exec (σ : IdentifierSet) : SetOp → Except Error Answer × IdentifierSet
  | .add core _ =>
    if core.id ∈ σ.known then
      (.error (.transport s!"network with identifier {core.id} already exists"),σ)
    else (.ok .added,⟨insert core.id σ.known,Sys.grown σ.joined core.id⟩)
  | .join u introducer level _ =>
    match σ.joinError u introducer level with
    | some e => (.error e,σ)
    | none => (.ok .joined,{ σ with joined := insert u σ.joined })
  | .search a req => (σ.searchAnswer a req,σ)

/-- The operations that may come next: a node is made with an empty table, only nodes that
were added join and search, and no node joins through one that has not joined itself. -/
def Allows (σ : IdentifierSet) : SetOp → Prop
  | .add core _ => core.lt = .new
  | .join u introducer _ _ =>
    u ∈ σ.known ∧ (introducer ∈ σ.known → introducer = u ∨ introducer ∈ σ.joined)
  | .search a _ => a ∈ σ.known

instance (σ : IdentifierSet) (op : SetOp) : Decidable (σ.Allows op) :=
  match op with
  | .add _ _ => inferInstanceAs (Decidable (_ = _))
  | .join _ _ _ _ => inferInstanceAs (Decidable (_ ∧ (_ → _ ∨ _)))
  | .search _ _ => inferInstanceAs (Decidable (_ ∈ _))

def AllowsAll (σ : IdentifierSet) : List SetOp → Prop
  | [] => True
  | op::ops => σ.Allows op ∧ (σ.exec op).2.AllowsAll ops

theorem nearest_eq {I : Finset Identifier} {target r : Identifier} {d : Direction}
    (h : Nearest d I target r) : nearest I target d = some r := by
  cases d with
  | left =>
    have hr : r ∈ I.filter fun x => target ≤ x := Finset.mem_filter.mpr ⟨h.mem,h.le⟩
    show (I.filter fun x => target ≤ x).min = (r : WithTop Identifier)
    refine le_antisymm (Finset.min_le hr) (Finset.le_min fun x hx => ?_)
    obtain ⟨hx,hle⟩ := Finset.mem_filter.mp hx
    exact WithTop.coe_le_coe.mpr (h.best x hx hle)
  | right =>
    have hr : r ∈ I.filter fun x => x ≤ target := Finset.mem_filter.mpr ⟨h.mem,h.le⟩
    show (I.filter fun x => x ≤ target).max = (r : WithBot Identifier)
    refine le_antisymm (Finset.max_le fun x hx => ?_) (Finset.le_max hr)
    obtain ⟨hx,hle⟩ := Finset.mem_filter.mp hx
    exact WithBot.coe_le_coe.mpr (h.best x hx hle)

theorem exec_card (σ : IdentifierSet) (op : SetOp) :
    (σ.exec op).2.known.card ≤ σ.known.card + 1 := by
  cases op with
  | add core address =>
    simp only [exec]
    split
    · exact Nat.le_succ _
    · exact Finset.card_insert_le _ _
  | join u introducer level nonces =>
    simp only [exec]
    split <;> exact Nat.le_succ _
  | search a req => exact Nat.le_succ _

end IdentifierSet

namespace NetworkHub

def exec (fuel : ℕ) (h : NetworkHub) : SetOp → Returns Answer
  | .add core address =>
    match h.addNode core address with
    | .ok h' => some (h',.ok .added)
    | .error e => some (h,.error e)
  | .join u introducer level nonces =>
    (h.joinStage1LinkLevel0 fuel u introducer level nonces).andThen fun h' _ =>
      some (h',.ok .joined)
  | .search a req =>
    (h.searchById fuel a req).andThen fun h' res => some (h',.ok (.found (some res.result)))

def run (fuel : ℕ) (h : NetworkHub) : List SetOp → Option (NetworkHub × List (Except Error Answer))
  | [] => some (h,[])
  | op::ops => (h.exec fuel op).bind fun r => (r.1.run fuel ops).map fun rs => (rs.1,r.2::rs.2)

variable {h h' : NetworkHub} {s : Sys} {σ : IdentifierSet} {fuel : ℕ}

/-- The hub and the set describe the same graph. -/
structure Implements (h : NetworkHub) (σ : IdentifierSet) (s : Sys) : Prop where
  runs : h.Runs s
  calm : s.Calm σ.joined
  known : s.members = σ.known
  unknown : ∀ x ∉ σ.known, h.networks x = none

theorem frame_eq_none {x : Identifier} : h.frame x = none ↔ h.networks x = none := by
  simp [frame]

theorem Implements.kept {t : Sys} (hi : h.Implements σ s) (hr : h'.Runs t) (hk : Sys.Kept s t)
    (hf : h'.frame = h.frame) : h'.Implements σ t where
  runs := hr
  calm := hi.calm.kept hk
  known := hk.members.trans hi.known
  unknown x hx := by
    rw [← frame_eq_none,hf,frame_eq_none]
    exact hi.unknown x hx

theorem Implements.add (hi : h.Implements σ s) {core : BaseCore} (address : Address)
    (hnew : core.id ∉ σ.known) (hlt : core.lt = .new) :
    ∃ h', h.addNode core address = .ok h' ∧
      h'.Implements ⟨Insert.insert core.id σ.known,Sys.grown σ.joined core.id⟩ (s.add core address) := by
  have hnone := hi.unknown core.id hnew
  have hnew' : core.id ∉ s.members := hi.known ▸ hnew
  let m : MockNetwork := ⟨core.id,address,some (.new core address)⟩
  refine ⟨h.insert core.id m,addNode_ok core address hnone,⟨fun x hx => ?_,fun x hx => ?_⟩,
    hi.calm.add hlt hnew',?_,fun x hx => ?_⟩
  · by_cases hxc : x = core.id
    · subst hxc
      simp [NetworkHub.insert,Sys.add,m,BaseNode.new]
    · have hx' : x ∈ s.members := by simpa [Sys.add,hxc] using hx
      simpa [NetworkHub.insert,Sys.add,hxc] using hi.runs.registered x hx'
  · have hx' : ¬ (x = core.id ∨ x ∈ s.members) := by simpa [Sys.add] using hx
    have hh := hi.runs.other x fun h => hx' (.inr h)
    simpa [NetworkHub.node,NetworkHub.insert,show x ≠ core.id from fun h => hx' (.inl h)] using hh
  · simp [Sys.add,hi.known]
  · have hx' : ¬ (x = core.id ∨ x ∈ σ.known) := by simpa using hx
    simpa [NetworkHub.insert,show x ≠ core.id from fun h => hx' (.inl h)] using
      hi.unknown x fun h => hx' (.inr h)

theorem Implements.join (hi : h.Implements σ s) {u introducer : Identifier} {level : ℕ}
    {nonces : JoinNonces} (hop : σ.Allows (.join u introducer level nonces))
    (hf : s.members.card < fuel) :
    ∃ h' t, h.exec fuel (.join u introducer level nonces) =
        some (h',(σ.exec (.join u introducer level nonces)).1) ∧
      h'.Implements (σ.exec (.join u introducer level nonces)).2 t := by
  obtain ⟨hu,hintro⟩ := hop
  rw [← hi.known] at hu
  by_cases hne : introducer = u
  · subst hne
    have he : σ.joinError introducer introducer level = some .introducerCollision := by
      simp [IdentifierSet.joinError]
    refine ⟨h,s,?_,by simpa [IdentifierSet.exec,he] using hi⟩
    simp [NetworkHub.exec,joinStage1LinkLevel0,IdentifierSet.exec,he]
  have hlt := Sys.toward_lt hne
  have hpos : 0 < fuel := Nat.zero_lt_of_lt hf
  -- every failure returns before a slot is written
  have hfail : ∀ {h' : NetworkHub} {t : Sys} {e : Error},
      h.joinToward fuel u introducer level (Sys.toward introducer u) nonces = some (h',.error e) →
      h'.Runs t → Sys.Kept s t → σ.joinError u introducer level = some e →
      ∃ h' t, h.exec fuel (.join u introducer level nonces) =
          some (h',(σ.exec (.join u introducer level nonces)).1) ∧
        h'.Implements (σ.exec (.join u introducer level nonces)).2 t := by
    intro h' t e hj hr hk he
    refine ⟨h',t,?_,?_⟩
    · simp [NetworkHub.exec,Sys.joinStage1LinkLevel0_eq hne,hj,IdentifierSet.exec,he]
    · simpa [IdentifierSet.exec,he] using
        hi.kept hr hk (keeps_joinToward introducer nonces h' _ hj)
  by_cases hknown : introducer ∈ σ.known
  · have hjoined := (hintro hknown).resolve_left hne
    rcases lt_or_ge level lookupTableLevels with hl | hl
    · by_cases hmem : u ∈ σ.joined
      · obtain ⟨h',t,hj,hr,hk⟩ := hi.calm.joinToward_collision hi.runs hmem hjoined hlt hl hf nonces
        exact hfail hj hr hk (by
          simp [IdentifierSet.joinError,hne,hknown,Nat.not_le.mpr hl,hmem])
      · obtain ⟨h',t,hj,hr,hc,hm⟩ := hi.calm.joinToward hi.runs hu hmem hjoined hlt hl hf nonces
        have he : σ.joinError u introducer level = none := by
          simp [IdentifierSet.joinError,hne,hknown,Nat.not_le.mpr hl,hmem]
        refine ⟨h',t,?_,?_⟩
        · simp [NetworkHub.exec,Sys.joinStage1LinkLevel0_eq hne,hj,IdentifierSet.exec,he]
        · simp only [IdentifierSet.exec,he]
          refine ⟨hr,hc,hm.trans hi.known,fun x hx => ?_⟩
          rw [← frame_eq_none,keeps_joinToward introducer nonces h' _ hj,frame_eq_none]
          exact hi.unknown x hx
    · obtain ⟨h',t,hs,hr,hk⟩ := Sys.search_beyond hi.runs hi.calm.idle hu
        (hi.calm.subset hjoined) hl hpos nonces.search u (Sys.toward introducer u)
      exact hfail (Sys.joinToward_error hs) hr hk
        (by simp [IdentifierSet.joinError,hne,hknown,hl])
  · obtain ⟨h',t,hs,hr,hk⟩ := Sys.search_unrouted hi.runs hi.calm.idle hu
      (hi.unknown introducer hknown) hpos nonces.search u level (Sys.toward introducer u)
    exact hfail (Sys.joinToward_error hs) hr hk
      (by simp [IdentifierSet.joinError,hne,hknown])

theorem Implements.search (hi : h.Implements σ s) {a : Identifier} (ha : a ∈ σ.known)
    (req : IdSearchReq) (hf : s.members.card < fuel) :
    ∃ h' t, h.exec fuel (.search a req) = some (h',σ.searchAnswer a req) ∧
      h'.Implements σ t := by
  rw [← hi.known] at ha
  rcases lt_or_ge req.level lookupTableLevels with hl | hl
  · by_cases hmem : a ∈ σ.joined ∧ req.direction.le a req.target
    · obtain ⟨h',t,r,hs,hr,hk,hn⟩ := hi.calm.searchById hi.runs hmem.1 req hmem.2 hl hf
      refine ⟨h',t,?_,hi.kept hr hk (keeps_searchById req h' _ hs)⟩
      simp [NetworkHub.exec,hs,IdentifierSet.searchAnswer,Nat.not_le.mpr hl,hmem,
        IdentifierSet.nearest_eq hn]
    · have hself := Sys.searchById_self hi.runs ha req hl fuel fun l e he => by
        by_cases haI : a ∈ σ.joined
        · have hpast := Direction.not_le.mp fun hle => hmem ⟨haI,hle⟩
          exact Direction.lt_trans hpast (hi.calm.sided a ha l req.direction e he)
        · simp [hi.calm.fresh a ha haI] at he
      refine ⟨h,s,?_,hi⟩
      simp [NetworkHub.exec,hself,IdentifierSet.searchAnswer,Nat.not_le.mpr hl,hmem]
  · refine ⟨h,s,?_,hi⟩
    simp [NetworkHub.exec,NetworkHub.searchById,hi.runs.node ha,
      (s.node a).core.searchById_error hl,IdentifierSet.searchAnswer,hl]

theorem Implements.exec (hi : h.Implements σ s) {op : SetOp} (hop : σ.Allows op) (fuel : ℕ)
    (hf : σ.known.card < fuel) :
    ∃ h' t, h.exec fuel op = some (h',(σ.exec op).1) ∧ h'.Implements (σ.exec op).2 t := by
  rw [← hi.known] at hf
  cases op with
  | add core address =>
    by_cases hknown : core.id ∈ σ.known
    · have hm := hi.runs.registered core.id (hi.known ▸ hknown)
      refine ⟨h,s,?_,by simpa [IdentifierSet.exec,hknown] using hi⟩
      simp [NetworkHub.exec,addNode_error core address hm,IdentifierSet.exec,hknown]
    · obtain ⟨h',hadd,hi'⟩ := hi.add address hknown hop
      exact ⟨h',_,by simp [NetworkHub.exec,hadd,IdentifierSet.exec,hknown],
        by simpa [IdentifierSet.exec,hknown] using hi'⟩
  | join u introducer level nonces => exact hi.join hop hf
  | search a req => exact hi.search hop req hf

theorem Implements.run (hi : h.Implements σ s) {ops : List SetOp} (hops : σ.AllowsAll ops)
    (fuel : ℕ) (hf : σ.known.card + ops.length ≤ fuel) :
    ∃ h' t, h.run fuel ops = some (h',(execute IdentifierSet.exec σ ops).1) ∧
      h'.Implements (execute IdentifierSet.exec σ ops).2 t := by
  induction ops generalizing h σ s with
  | nil => exact ⟨h,s,rfl,hi⟩
  | cons op ops ih =>
    obtain ⟨hop,hops⟩ := hops
    have hlen : (op::ops).length = ops.length + 1 := rfl
    obtain ⟨h₁,s₁,he,hi₁⟩ := hi.exec hop fuel (by omega)
    have hcard := σ.exec_card op
    obtain ⟨h₂,s₂,hr,hi₂⟩ := ih hi₁ hops (by omega)
    exact ⟨h₂,s₂,by simp [NetworkHub.run,he,hr,execute],hi₂⟩

def nobody : Sys := ⟨∅,fun x => .new ⟨x,⟨Vector.replicate _ 0⟩,.new⟩ ⟨"",""⟩,[],fun _ => rfl⟩

theorem implements_new : NetworkHub.new.Implements ⟨∅,∅⟩ nobody :=
  ⟨⟨fun x hx => absurd hx (Finset.notMem_empty x),fun _ _ => rfl⟩,
    ⟨Finset.empty_subset _,⟨fun x hx => absurd hx (Finset.notMem_empty x),
      fun x hx => absurd hx (Finset.notMem_empty x)⟩,fun x hx => absurd hx (Finset.notMem_empty x),
      fun x hx => absurd hx (Finset.notMem_empty x),fun x hx => absurd hx (Finset.notMem_empty x),
      fun x hx => absurd hx (Finset.notMem_empty x)⟩,rfl,fun _ _ => rfl⟩

/-- From an empty hub on, nodes that are added, join and search one call at a time, none of them
joining through one that has not joined, behave as a sorted set of identifiers, whatever nonces
are drawn: a call fails exactly where the set fails, with the same error, and every search
returns the nearest joined node. In the end the level-0 slots are the sorted doubly linked list
of the set. -/
theorem hub_implements_ordered_set (ops : List SetOp) (fuel : ℕ)
    (hops : (IdentifierSet.mk ∅ ∅).AllowsAll ops) (hf : ops.length ≤ fuel) :
    ∃ h' t, NetworkHub.new.run fuel ops =
        some (h',(execute IdentifierSet.exec ⟨∅,∅⟩ ops).1) ∧
      h'.Runs t ∧ t.members = (execute IdentifierSet.exec ⟨∅,∅⟩ ops).2.known ∧
      t.Listed (execute IdentifierSet.exec ⟨∅,∅⟩ ops).2.joined := by
  obtain ⟨h',t,hr,hi⟩ := implements_new.run hops fuel (by simpa using hf)
  exact ⟨h',t,hr,hi.runs,hi.known,hi.calm.listed⟩

/-- Three nodes join, with the same nonce in every request, node 3 cannot join again, and is
found from node 1. -/
theorem hub_implements_ordered_set_of_three :
    let core (x : UInt8) : BaseCore := ⟨.ofByte x,⟨Vector.replicate _ 0⟩,.new⟩
    let nonces : JoinNonces := ⟨⟨0⟩,⟨0⟩,⟨0⟩,⟨0⟩⟩
    ∃ h', NetworkHub.new.run 7 [.add (core 2) ⟨"",""⟩,.add (core 1) ⟨"",""⟩,.add (core 3) ⟨"",""⟩,
        .join (.ofByte 1) (.ofByte 2) 0 nonces,.join (.ofByte 3) (.ofByte 1) 5 nonces,
        .join (.ofByte 3) (.ofByte 2) 0 nonces,
        .search (.ofByte 1) ⟨⟨0⟩,.ofByte 4,.ofByte 1,7,.right⟩] =
      some (h',[.ok .added,.ok .added,.ok .added,.ok .joined,.ok .joined,.error .idCollision,
        .ok (.found (some (.ofByte 3)))]) := by
  intro core nonces
  let ops : List SetOp := [.add (core 2) ⟨"",""⟩,.add (core 1) ⟨"",""⟩,.add (core 3) ⟨"",""⟩,
    .join (.ofByte 1) (.ofByte 2) 0 nonces,.join (.ofByte 3) (.ofByte 1) 5 nonces,
    .join (.ofByte 3) (.ofByte 2) 0 nonces,
    .search (.ofByte 1) ⟨⟨0⟩,.ofByte 4,.ofByte 1,7,.right⟩]
  have hops : (IdentifierSet.mk ∅ ∅).AllowsAll ops :=
    ⟨rfl,rfl,rfl,by decide +kernel,by decide +kernel,by decide +kernel,by decide +kernel,trivial⟩
  have hans : (execute IdentifierSet.exec ⟨∅,∅⟩ ops).1 =
      [.ok .added,.ok .added,.ok .added,.ok .joined,.ok .joined,.error .idCollision,
        .ok (.found (some (.ofByte 3)))] := by decide +kernel
  obtain ⟨h',t,hr,-⟩ := hub_implements_ordered_set ops 7 hops (by decide)
  exact ⟨h',hr.trans (by rw [hans])⟩

end NetworkHub

end SkipGraph
