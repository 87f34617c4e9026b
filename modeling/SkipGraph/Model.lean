import SkipGraph.MembershipVector
import SkipGraph.StrictOrder

/-!
# Directions, identities and messages

A direction orients the identifier order: `d.lt a b` says that `b` lies past `a`
on side `d`. All statements about the two sides of a node are made once, for an
arbitrary `d`.
-/

namespace SkipGraph

inductive Direction
  | left | right
  deriving DecidableEq, Repr

namespace Direction

instance : Fintype Direction := ⟨{left,right},fun d => by cases d <;> simp⟩

instance : ToString Direction :=
  ⟨fun
    | left => "Left"
    | right => "Right"⟩

def opposite : Direction → Direction
  | left => right
  | right => left

@[simp] theorem opposite_opposite (d : Direction) : d.opposite.opposite = d := by cases d <;> rfl

theorem eq_or_eq_opposite (d e : Direction) : e = d ∨ e = d.opposite := by
  cases d <;> cases e <;> decide

/-- `b` lies strictly past `a` on side `d`. -/
def lt : Direction → Identifier → Identifier → Prop
  | left, a, b => b < a
  | right, a, b => a < b

/-- `a` is not past `b` on side `d`. -/
def le : Direction → Identifier → Identifier → Prop
  | left, a, b => b ≤ a
  | right, a, b => a ≤ b

instance (d : Direction) (a b : Identifier) : Decidable (d.lt a b) :=
  match d with
  | left => inferInstanceAs (Decidable (b < a))
  | right => inferInstanceAs (Decidable (a < b))

instance (d : Direction) (a b : Identifier) : Decidable (d.le a b) :=
  match d with
  | left => inferInstanceAs (Decidable (b ≤ a))
  | right => inferInstanceAs (Decidable (a ≤ b))

instance (d : Direction) : IsStrictTotalOrder Identifier d.lt := by
  cases d
  · exact inferInstanceAs (IsStrictTotalOrder Identifier (· > ·))
  · exact inferInstanceAs (IsStrictTotalOrder Identifier (· < ·))

variable {d : Direction} {a b c : Identifier}

@[simp] theorem opposite_lt : d.opposite.lt a b ↔ d.lt b a := by cases d <;> rfl

@[simp] theorem opposite_le : d.opposite.le a b ↔ d.le b a := by cases d <;> rfl

@[simp] theorem lt_irrefl : ¬ d.lt a a := by cases d <;> simp [lt]

@[simp] theorem le_refl : d.le a a := by cases d <;> simp [le]

theorem not_lt : ¬ d.lt a b ↔ d.le b a := by cases d <;> simp [lt,le]

theorem not_le : ¬ d.le a b ↔ d.lt b a := by cases d <;> simp [lt,le]

theorem lt_trans (h : d.lt a b) (h' : d.lt b c) : d.lt a c := by
  cases d <;> simp only [lt] at * <;> order

theorem lt_of_le_of_lt (h : d.le a b) (h' : d.lt b c) : d.lt a c := by
  cases d <;> simp only [lt,le] at * <;> order

theorem lt_of_lt_of_le (h : d.lt a b) (h' : d.le b c) : d.lt a c := by
  cases d <;> simp only [lt,le] at * <;> order

theorem le_trans (h : d.le a b) (h' : d.le b c) : d.le a c := by
  cases d <;> simp only [le] at * <;> order

theorem le_of_lt (h : d.lt a b) : d.le a b := by
  cases d <;> simp only [lt,le] at * <;> order

theorem lt_of_le_of_ne (h : d.le a b) (hne : a ≠ b) : d.lt a b := by
  cases d <;> simp only [lt,le] at * <;> order

theorem le_antisymm (h : d.le a b) (h' : d.le b a) : a = b := by
  cases d <;> simp only [le] at * <;> order

theorem ne_of_lt (h : d.lt a b) : a ≠ b := by
  rintro rfl
  exact lt_irrefl h

theorem le_total (d : Direction) (a b : Identifier) : d.le a b ∨ d.le b a := by
  cases d <;> simp only [le] <;> order

end Direction

/-- A networking address. -/
structure Address where
  host : String
  port : String
  deriving DecidableEq, Repr

/-- The identity of a node; equality compares all three fields. -/
structure Identity where
  id : Identifier
  memVec : MembershipVector
  address : Address
  deriving DecidableEq, Repr

/-- The correlation id of one request, "the unique identifier of the search request
across all nodes". -/
structure Nonce where
  id : BitVec 128
  deriving DecidableEq, Repr

structure IdSearchReq where
  nonce : Nonce
  target : Identifier
  origin : Identifier
  level : ℕ
  direction : Direction
  deriving DecidableEq, Repr

structure IdSearchRes where
  nonce : Nonce
  target : Identifier
  terminationLevel : ℕ
  result : Identifier
  deriving DecidableEq, Repr

structure MaxLevelReq where
  nonce : Nonce
  origin : Identifier
  deriving DecidableEq, Repr

structure MaxLevelRes where
  nonce : Nonce
  maxLevel : ℕ
  deriving DecidableEq, Repr

structure NeighborReq where
  nonce : Nonce
  origin : Identifier
  level : ℕ
  direction : Direction
  deriving DecidableEq, Repr

structure NeighborRes where
  nonce : Nonce
  level : ℕ
  direction : Direction
  neighbor : Option Identity
  deriving DecidableEq, Repr

structure LinkReq where
  nonce : Nonce
  candidate : Identity
  dir : Direction
  level : ℕ
  deriving DecidableEq, Repr

structure LinkRes where
  nonce : Nonce
  dir : Direction
  level : ℕ
  linked : Option Identity
  deriving DecidableEq, Repr

structure BuddyReq where
  nonce : Nonce
  candidate : Identity
  dir : Direction
  level : ℕ
  deriving DecidableEq, Repr

structure CheckNeighborReq where
  nonce : Nonce
  claimant : Identity
  dir : Direction
  level : ℕ
  deriving DecidableEq, Repr

inductive Event
  | testMessage (text : String)
  | searchByIdRequest (req : IdSearchReq)
  | searchByIdResponse (res : IdSearchRes)
  | getMaxLevelOp (req : MaxLevelReq)
  | retMaxLevelOp (res : MaxLevelRes)
  | getNeighborOp (req : NeighborReq)
  | retNeighborOp (res : NeighborRes)
  | getLinkOp (req : LinkReq)
  | setLinkOp (res : LinkRes)
  | buddyOp (req : BuddyReq)
  | checkNeighborOp (req : CheckNeighborReq)
  deriving DecidableEq, Repr

/-- The nonce an event is correlated by. -/
def Event.nonce? : Event → Option Nonce
  | testMessage _ => none
  | searchByIdRequest req => some req.nonce
  | searchByIdResponse res => some res.nonce
  | getMaxLevelOp req => some req.nonce
  | retMaxLevelOp res => some res.nonce
  | getNeighborOp req => some req.nonce
  | retNeighborOp res => some res.nonce
  | getLinkOp req => some req.nonce
  | setLinkOp res => some res.nonce
  | buddyOp req => some req.nonce
  | checkNeighborOp req => some req.nonce

/-- The arguments of one awaited request, kept by the suspended call. -/
inductive Request
  | maxLevel (introducer : Identifier)
  | search (dest target : Identifier) (level : ℕ) (direction : Direction)
  | neighbor (src : Identifier) (direction : Direction) (level : ℕ)
  | link (dest : Identifier) (dir : Direction) (level : ℕ)
  deriving DecidableEq, Repr

/-- The places that wrap an underlying error into one of their own. -/
inductive Site
  | searchLevel (level : ℕ)
  | performSearch | sendSearchResponse | relaySearch
  | sendMaxLevelResponse
  | readNeighbor | sendNeighborResponse
  | decideLink (level : ℕ) | sendLinkResponse | forwardLink
  | applyLink (level : ℕ)
  | send (request : Request)
  deriving DecidableEq, Repr

inductive Error
  | levelOutOfRange (level : ℕ)
  | transport (text : String)
  | unsupportedEvent
  | introducerCollision
  | idCollision
  | senderDropped (request : Request)
  | timedOut (request : Request)
  | wrapped (site : Site) (cause : Error)
  deriving DecidableEq, Repr

def Site.message : Site → String → String
  | searchLevel level, e => s!"error while searching by id in level {level}: {e}"
  | performSearch, e => s!"failed to perform search by id {e}"
  | sendSearchResponse, e => s!"failed to send response event for search by id: {e}"
  | relaySearch, e => s!"failed to send relay response event for search by id: {e}"
  | sendMaxLevelResponse, e => s!"failed to send max level response: {e}"
  | readNeighbor, e => s!"failed to read local neighbor entry: {e}"
  | sendNeighborResponse, e => s!"failed to send neighbor response: {e}"
  | decideLink level, e => s!"failed to decide link at level {level}: {e}"
  | sendLinkResponse, e => s!"failed to send link response: {e}"
  | forwardLink, e => s!"failed to forward get link request: {e}"
  | applyLink level, e => s!"failed to apply link at level {level}: {e}"
  | send (.maxLevel _), e => s!"failed to send get max level request: {e}"
  | send (.search ..), e => s!"failed to send search by id request: {e}"
  | send (.neighbor ..), e => s!"failed to send get neighbor request: {e}"
  | send (.link dest dir _), e => s!"failed to send get link request to {dest} on {dir}: {e}"

def Error.message : Error → String
  | levelOutOfRange level => s!"position is larger than the max lookup table entry number: {level}"
  | transport text => text
  | unsupportedEvent => "unsupported event payload type"
  | introducerCollision => "introducer id collides with this node's own id, " ++
      "cannot determine stage-1 search direction"
  | idCollision => "stage-1 search resolved a node with this node's own id, " ++
      "another node already holds it"
  | senderDropped (.maxLevel _) =>
      "failed to receive network response for get max level: sender dropped"
  | senderDropped (.search ..) => "failed to receive search by id response: sender dropped"
  | senderDropped (.neighbor ..) => "failed to receive get neighbor response: sender dropped"
  | senderDropped (.link dest dir _) =>
      s!"failed to receive get link response from {dest} on {dir}: sender dropped"
  | timedOut (.maxLevel _) => "timed out waiting for get max level response"
  | timedOut (.search ..) => "timed out waiting for search by id response"
  | timedOut (.neighbor ..) => "timed out waiting for get neighbor response"
  | timedOut (.link dest dir _) =>
      s!"timed out waiting for get link response from {dest} on {dir}"
  | wrapped site cause => site.message cause.message

/-- An event handed to the network, with the node it is addressed to. -/
structure Packet where
  dest : Identifier
  event : Event
  deriving DecidableEq, Repr

end SkipGraph
