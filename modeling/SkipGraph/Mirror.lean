import SkipGraph.OwnSlots

/-!
# The two sides of the identifier line

Complementing every byte of an identifier reverses the order. The mirror of a node has
its two sides exchanged, and the mirror of a message has its direction reversed. The link
protocol and the join cannot tell a run from its mirror image; only the local search
can, whose ties are broken by the level.
-/

namespace SkipGraph

/-- The bytewise complement. -/
def Identifier.mirror (a : Identifier) : Identifier := ⟨a.bytes.map (~~~ ·)⟩

theorem bigEndian_complement (bs : List UInt8) :
    bigEndian (bs.map (~~~ ·)) + bigEndian bs + 1 = 256^bs.length := by
  induction bs with
  | nil => simp [bigEndian]
  | cons b bs ih =>
    have hb : (~~~ b).toNat = 255 - b.toNat := by
      rw [UInt8.toNat_not]
      rfl
    have hlt : b.toNat < 256 := b.toNat_lt_size
    rw [List.map_cons,bigEndian_cons,bigEndian_cons,List.length_map,hb,List.length_cons,pow_succ]
    have hmul : 256^bs.length*(255-b.toNat) + 256^bs.length*b.toNat = 256^bs.length*255 := by
      rw [← Nat.mul_add]
      congr 1
      omega
    omega

namespace Identifier

variable {a b : Identifier}

theorem toNat_mirror (a : Identifier) : a.mirror.toNat + a.toNat + 1 = 256^identifierSizeBytes := by
  have h := bigEndian_complement a.bytes.toList
  rw [Vector.length_toList] at h
  simpa [toNat,mirror,Vector.toList_map] using h

@[simp] theorem mirror_mirror (a : Identifier) : a.mirror.mirror = a := by
  apply toNat_injective
  have h₁ := toNat_mirror a
  have h₂ := toNat_mirror a.mirror
  omega

@[simp] theorem mirror_inj : a.mirror = b.mirror ↔ a = b :=
  ⟨fun h => by rw [← mirror_mirror a,h,mirror_mirror],congrArg mirror⟩

@[simp] theorem mirror_lt : a.mirror < b.mirror ↔ b < a := by
  rw [lt_iff_toNat,lt_iff_toNat]
  have h₁ := toNat_mirror a
  have h₂ := toNat_mirror b
  omega

end Identifier

theorem Direction.mirror_lt {d : Direction} {a b : Identifier} :
    d.opposite.lt a.mirror b.mirror ↔ d.lt a b := by
  cases d <;> simp [lt,opposite]

def Identity.mirror (c : Identity) : Identity := { c with id := c.id.mirror }

@[simp] theorem Identity.id_mirror (c : Identity) : c.mirror.id = c.id.mirror := rfl

@[simp] theorem Identity.mirror_mirror (c : Identity) : c.mirror.mirror = c := by simp [mirror]

@[simp] theorem Identity.mirror_inj {c e : Identity} : c.mirror = e.mirror ↔ c = e :=
  ⟨fun h => by rw [← mirror_mirror c,h,mirror_mirror],congrArg mirror⟩

def IdSearchReq.mirror (req : IdSearchReq) : IdSearchReq :=
  ⟨req.nonce,req.target.mirror,req.origin.mirror,req.level,req.direction.opposite⟩

def IdSearchRes.mirror (res : IdSearchRes) : IdSearchRes :=
  ⟨res.nonce,res.target.mirror,res.terminationLevel,res.result.mirror⟩

def MaxLevelReq.mirror (req : MaxLevelReq) : MaxLevelReq := ⟨req.nonce,req.origin.mirror⟩

def NeighborReq.mirror (req : NeighborReq) : NeighborReq :=
  ⟨req.nonce,req.origin.mirror,req.level,req.direction.opposite⟩

def NeighborRes.mirror (res : NeighborRes) : NeighborRes :=
  ⟨res.nonce,res.level,res.direction.opposite,res.neighbor.map Identity.mirror⟩

def LinkReq.mirror (req : LinkReq) : LinkReq :=
  ⟨req.nonce,req.candidate.mirror,req.dir.opposite,req.level⟩

def LinkRes.mirror (res : LinkRes) : LinkRes :=
  ⟨res.nonce,res.dir.opposite,res.level,res.linked.map Identity.mirror⟩

def BuddyReq.mirror (req : BuddyReq) : BuddyReq :=
  ⟨req.nonce,req.candidate.mirror,req.dir.opposite,req.level⟩

def CheckNeighborReq.mirror (req : CheckNeighborReq) : CheckNeighborReq :=
  ⟨req.nonce,req.claimant.mirror,req.dir.opposite,req.level⟩

def Event.mirror : Event → Event
  | testMessage text => .testMessage text
  | searchByIdRequest req => .searchByIdRequest req.mirror
  | searchByIdResponse res => .searchByIdResponse res.mirror
  | getMaxLevelOp req => .getMaxLevelOp req.mirror
  | retMaxLevelOp res => .retMaxLevelOp res
  | getNeighborOp req => .getNeighborOp req.mirror
  | retNeighborOp res => .retNeighborOp res.mirror
  | getLinkOp req => .getLinkOp req.mirror
  | setLinkOp res => .setLinkOp res.mirror
  | buddyOp req => .buddyOp req.mirror
  | checkNeighborOp req => .checkNeighborOp req.mirror

@[simp] theorem Event.mirror_mirror (ev : Event) : ev.mirror.mirror = ev := by
  cases ev <;> simp [mirror,IdSearchReq.mirror,IdSearchRes.mirror,MaxLevelReq.mirror,
    NeighborReq.mirror,NeighborRes.mirror,LinkReq.mirror,LinkRes.mirror,BuddyReq.mirror,
    CheckNeighborReq.mirror,Function.comp_def]

def Packet.mirror (p : Packet) : Packet := ⟨p.dest.mirror,p.event.mirror⟩

def Request.mirror : Request → Request
  | maxLevel introducer => .maxLevel introducer.mirror
  | search dest target level direction => .search dest.mirror target.mirror level direction.opposite
  | neighbor src direction level => .neighbor src.mirror direction.opposite level
  | link dest dir level => .link dest.mirror dir.opposite level

@[simp] theorem Request.mirror_mirror (r : Request) : r.mirror.mirror = r := by
  cases r <;> simp [mirror]

def Site.mirror : Site → Site
  | send request => .send request.mirror
  | site => site

/-- An error names the mirrored request wherever it names a request. -/
def Error.mirror : Error → Error
  | senderDropped request => .senderDropped request.mirror
  | timedOut request => .timedOut request.mirror
  | wrapped site cause => .wrapped site.mirror cause.mirror
  | e => e

/-- The mirror of a result, `f` being the mirror of its value. -/
def mirrorResult {α β : Type*} (f : α → β) : Except Error α → Except Error β
  | .ok a => .ok (f a)
  | .error e => .error e.mirror

/-- The network that fails on the mirrored events. -/
def Network.mirror (net : Network) : Network := fun dest ev =>
  mirrorResult (fun u => u) (net dest.mirror ev.mirror)

@[simp] theorem Network.mirror_apply (net : Network) (dest : Identifier) (ev : Event) :
    net.mirror dest.mirror ev.mirror = mirrorResult (fun u => u) (net dest ev) := by
  simp [mirror]

def Waiter.mirror : Waiter → Waiter
  | link tx level dir => .link tx level dir.opposite
  | w => w

def Reply.mirror : Reply → Reply
  | maxLevel res => .maxLevel res
  | search res => .search res.mirror
  | neighbor res => .neighbor res.mirror
  | link res => .link res.mirror

def Oneshot.mirror : Oneshot → Oneshot
  | sent reply => .sent reply.mirror
  | o => o

def RoundTrip.mirror (rt : RoundTrip) : RoundTrip := { rt with request := rt.request.mirror }

@[simp] theorem RoundTrip.mirror_mirror (rt : RoundTrip) : rt.mirror.mirror = rt := by
  simp [mirror]

@[simp] theorem RoundTrip.mirror_inj {rt rt' : RoundTrip} : rt.mirror = rt'.mirror ↔ rt = rt' :=
  ⟨fun h => by rw [← mirror_mirror rt,h,mirror_mirror],congrArg mirror⟩

def LinkFuture.mirror : LinkFuture → LinkFuture
  | waiting rt => .waiting rt.mirror
  | finished result => .finished (mirrorResult (fun u => u) result)

def Output.mirror : Output → Output
  | found res => .found res.mirror
  | neighbor e => .neighbor (e.map Identity.mirror)
  | o => o

def Call.mirror : Call → Call
  | single rt => .single rt.mirror
  | joinSearch direction rt => .joinSearch direction.opposite rt.mirror
  | joinNeighbor direction anchor rt => .joinNeighbor direction.opposite anchor.mirror rt.mirror
  | joinLink direction anchor neighbor searchLink queryLink =>
    .joinLink direction.opposite anchor.mirror (neighbor.map Identity.mirror) searchLink.mirror
      (queryLink.map LinkFuture.mirror)
  | returned result => .returned (mirrorResult Output.mirror result)
  | cancelled => .cancelled

def ArrayLookupTable.mirror (t : ArrayLookupTable) : ArrayLookupTable :=
  ⟨t.right.map (Option.map Identity.mirror),t.left.map (Option.map Identity.mirror)⟩

def BaseCore.mirror (core : BaseCore) : BaseCore := ⟨core.id.mirror,core.memVec,core.lt.mirror⟩

/-- The node with its identifier mirrored and its sides exchanged; its pending requests
are for the other sides. -/
def BaseNode.mirror (n : BaseNode) : BaseNode :=
  ⟨n.core.mirror,n.address,fun nonce => (n.requestIdMap nonce).map Waiter.mirror,
    n.oneshots.map Oneshot.mirror,n.calls.map Call.mirror⟩

def Outcome.mirror (o : Outcome) : Outcome :=
  ⟨o.node.mirror,o.sent.map Packet.mirror,mirrorResult (fun u => u) o.result⟩

def CallAction.mirror : CallAction → CallAction
  | searchById req => .searchById req.mirror
  | getMaxLevel introducer nonce => .getMaxLevel introducer.mirror nonce
  | getNeighbor src direction level nonce =>
    .getNeighbor src.mirror direction.opposite level nonce
  | sendLinkRequest dest dir level nonce => .sendLinkRequest dest.mirror dir.opposite level nonce
  | joinStage1LinkLevel0 introducer maxLevel nonce =>
    .joinStage1LinkLevel0 introducer.mirror maxLevel nonce
  | a => a

def LocalAction.mirror : LocalAction → LocalAction
  | receive net ev => .receive net.mirror ev.mirror
  | call net a => .call net.mirror a.mirror

namespace ArrayLookupTable

variable {t : ArrayLookupTable} {l : ℕ} {d : Direction} {c : Identity}

theorem getElem_side_mirror (hl : l < lookupTableLevels) :
    (t.mirror.side d.opposite)[l] = ((t.side d)[l]).map Identity.mirror := by
  cases d <;> simp [mirror,side,Direction.opposite]

theorem put_mirror : t.mirror.put l d.opposite c.mirror = (t.put l d c).mirror := by
  cases d <;> simp [mirror,put,Direction.opposite,Vector.map_setIfInBounds]

theorem getEntry_mirror :
    t.mirror.getEntry l d.opposite = mirrorResult (Option.map Identity.mirror) (t.getEntry l d) := by
  by_cases hl : l < lookupTableLevels
  · simp [getEntry,hl,mirrorResult,getElem_side_mirror hl]
  · simp [getEntry,hl,mirrorResult,Error.mirror]

def mirrorRelink : RelinkOutcome → RelinkOutcome
  | .alreadyConsistent => .alreadyConsistent
  | .forward existing => .forward existing.mirror
  | .relinked evicted => .relinked (evicted.map Identity.mirror)

def mirrorLink : LinkOutcome → LinkOutcome
  | .linkedDirectly => .linkedDirectly
  | .forward existing => .forward existing.mirror

theorem tryRelink_mirror : t.mirror.tryRelink l d.opposite c.mirror =
    mirrorResult (fun r => (mirrorRelink r.1,r.2.mirror)) (t.tryRelink l d c) := by
  by_cases hl : l < lookupTableLevels
  · simp only [tryRelink,hl,dif_pos,getElem_side_mirror hl,put_mirror]
    cases he : (t.side d)[l] with
    | none => simp [mirrorResult,mirrorRelink]
    | some e =>
      by_cases hec : e = c
      · cases d <;> simp [Direction.opposite,hec,mirrorResult,mirrorRelink]
      · have hm : e.mirror ≠ c.mirror := fun h => hec (Identity.mirror_inj.mp h)
        cases d with
        | left =>
          by_cases hlt : e.id > c.id
          · simp [Direction.opposite,hec,mirrorResult,mirrorRelink,hlt]
          · simp [Direction.opposite,hec,mirrorResult,mirrorRelink,hlt]
        | right =>
          by_cases hlt : e.id < c.id
          · simp [Direction.opposite,hec,mirrorResult,mirrorRelink,hlt]
          · simp [Direction.opposite,hec,mirrorResult,mirrorRelink,hlt]
  · simp [tryRelink,hl,mirrorResult,Error.mirror]

theorem tryLink_mirror : t.mirror.tryLink l d.opposite c.mirror =
    mirrorResult (fun r => (mirrorLink r.1,r.2.mirror)) (t.tryLink l d c) := by
  simp only [tryLink,tryRelink_mirror]
  rcases t.tryRelink l d c with e | ⟨_ | e | e,t'⟩ <;> rfl

end ArrayLookupTable

namespace BaseNode

variable {net : Network} {n : BaseNode} {l : ℕ} {d : Direction} {c : Identity}

@[simp] theorem id_mirror (n : BaseNode) : n.mirror.id = n.id.mirror := rfl

theorem belongsInOwnSlot_mirror :
    n.mirror.belongsInOwnSlot l d.opposite c.mirror = n.belongsInOwnSlot l d c := by
  rw [Bool.eq_iff_iff,belongsInOwnSlot_iff,belongsInOwnSlot_iff,id_mirror,Identity.id_mirror,
    Direction.mirror_lt]
  rfl

theorem sendEvent_mirror (site : Site) (dest : Identifier) (ev : Event) :
    n.mirror.sendEvent net.mirror site.mirror dest.mirror ev.mirror =
      (n.sendEvent net site dest ev).mirror := by
  simp only [sendEvent,Network.mirror_apply]
  cases net dest ev <;> rfl

theorem coreTryLink_mirror (core : BaseCore) : core.mirror.tryLink l d.opposite c.mirror =
    mirrorResult (fun r => (ArrayLookupTable.mirrorLink r.1,r.2.mirror)) (core.tryLink l d c) := by
  simp only [BaseCore.tryLink,BaseCore.mirror,ArrayLookupTable.tryLink_mirror]
  cases core.lt.tryLink l d c <;> rfl

theorem handleGetLinkRequest_mirror (req : LinkReq) :
    n.mirror.handleGetLinkRequest net.mirror req.mirror =
      (n.handleGetLinkRequest net req).mirror := by
  simp only [handleGetLinkRequest,LinkReq.mirror,belongsInOwnSlot_mirror]
  split
  · have hcore : n.mirror.core = n.core.mirror := rfl
    rw [hcore,coreTryLink_mirror]
    rcases n.core.tryLink req.level req.dir req.candidate with e | ⟨_ | existing,core⟩
    · rfl
    · exact @sendEvent_mirror net { n with core := core } .sendLinkResponse req.candidate.id
        (.setLinkOp ⟨req.nonce,req.dir.opposite,req.level,some n.selfIdentity⟩)
    · exact @sendEvent_mirror net { n with core := core } .forwardLink existing.id (.getLinkOp req)
  · rfl

theorem handleGetNeighborRequest_mirror (req : NeighborReq) :
    n.mirror.handleGetNeighborRequest net.mirror req.mirror =
      (n.handleGetNeighborRequest net req).mirror := by
  have hread : n.mirror.core.neighborEntry req.level req.direction.opposite =
      mirrorResult (Option.map Identity.mirror) (n.core.neighborEntry req.level req.direction) :=
    ArrayLookupTable.getEntry_mirror
  simp only [handleGetNeighborRequest,NeighborReq.mirror,hread]
  cases n.core.neighborEntry req.level req.direction with
  | error e => rfl
  | ok e =>
    exact @sendEvent_mirror net n .sendNeighborResponse req.origin
      (.retNeighborOp ⟨req.nonce,req.level,req.direction,e⟩)

theorem handleGetMaxLevelRequest_mirror (req : MaxLevelReq) :
    n.mirror.handleGetMaxLevelRequest net.mirror req.mirror =
      (n.handleGetMaxLevelRequest net req).mirror := by
  have hmax : n.mirror.core.maxLevel = n.core.maxLevel := by
    have hent : ∀ l d, n.core.lt.mirror.entry l d =
        (n.core.lt.entry l d.opposite).map Identity.mirror := by
      intro l d
      by_cases hl : l < lookupTableLevels
      · have h := ArrayLookupTable.getElem_side_mirror (t := n.core.lt) (d := d.opposite) hl
        simpa [ArrayLookupTable.entry,hl] using h
      · simp [ArrayLookupTable.entry,hl]
    simp only [BaseCore.maxLevel,ArrayLookupTable.maxPopulatedLevel,mirror,BaseCore.mirror,hent,
      Option.isSome_map,Direction.opposite,Bool.or_comm]
  simp only [handleGetMaxLevelRequest,hmax]
  exact @sendEvent_mirror net n .sendMaxLevelResponse req.origin
    (.retMaxLevelOp ⟨req.nonce,n.core.maxLevel⟩)

@[simp] theorem tx_mirror (w : Waiter) : w.mirror.tx = w.tx := by cases w <;> rfl

theorem modify_map {α β : Type*} {f : α → α} {g : β → β} {h : α → β} (hc : ∀ a, g (h a) = h (f a))
    (xs : List α) (i : ℕ) : (xs.map h).modify i g = (xs.modify i f).map h := by
  apply List.ext_getElem?
  intro j
  simp only [List.getElem?_modify,List.getElem?_map]
  cases xs[j]? with
  | none => simp
  | some a => by_cases hij : i = j <;> simp [hij,hc]

theorem resolve_mirror (tx : ℕ) (reply : Reply) :
    n.mirror.resolve tx reply.mirror = (n.resolve tx reply).mirror := by
  simp only [resolve,mirror,BaseNode.mk.injEq,true_and,and_true]
  apply modify_map
  intro o
  cases o <;> rfl

theorem dropSender_mirror (tx : ℕ) : n.mirror.dropSender tx = (n.dropSender tx).mirror := by
  simp only [dropSender,mirror,BaseNode.mk.injEq,true_and,and_true]
  apply modify_map
  intro o
  cases o <;> rfl

theorem removeWaiter_mirror (nonce : Nonce) :
    n.mirror.removeWaiter nonce = (n.removeWaiter nonce).mirror := by
  have hm : (fun m => ((Function.update n.requestIdMap nonce none) m).map Waiter.mirror) =
      Function.update (fun m => (n.requestIdMap m).map Waiter.mirror) nonce none := by
    funext m
    by_cases h : m = nonce <;> simp [h]
  simp [removeWaiter,mirror,hm]

theorem resolveWaiter_mirror (nonce : Nonce) {f g : Waiter → Bool} (hfg : ∀ w, g w.mirror = f w)
    (reply : Reply) :
    n.mirror.resolveWaiter nonce g reply.mirror = (n.resolveWaiter nonce f reply).mirror := by
  have hm : n.mirror.requestIdMap nonce = (n.requestIdMap nonce).map Waiter.mirror := rfl
  rw [resolveWaiter_eq,resolveWaiter_eq,hm]
  cases n.requestIdMap nonce with
  | none => rfl
  | some w =>
    simp only [Option.map_some,hfg,tx_mirror,removeWaiter_mirror,resolve_mirror]
    split <;> rfl

theorem applyLink_mirror (res : LinkRes) :
    n.mirror.applyLink res.mirror = mirrorResult mirror (n.applyLink res) := by
  cases hlinked : res.linked with
  | none => simp [applyLink,LinkRes.mirror,hlinked,mirrorResult]
  | some c =>
    simp only [applyLink,LinkRes.mirror,hlinked,Option.map_some,belongsInOwnSlot_mirror]
    split
    · have hcore : n.mirror.core = n.core.mirror := rfl
      rw [hcore,coreTryLink_mirror]
      rcases n.core.tryLink res.level res.dir c with e | ⟨_ | existing,core⟩ <;> rfl
    · rfl

theorem handleSetLinkResponse_mirror (res : LinkRes) :
    n.mirror.handleSetLinkResponse res.mirror = (n.handleSetLinkResponse res).mirror := by
  simp only [handleSetLinkResponse,applyLink_mirror]
  cases n.applyLink res with
  | error e => rfl
  | ok n' =>
    have hw : ∀ w : Waiter, w.mirror.isLink res.level res.dir.opposite =
        w.isLink res.level res.dir := by
      intro w
      cases w with
      | link tx level dir => cases dir <;> cases res.dir <;> rfl
      | _ => rfl
    have hh := resolveWaiter_mirror (n := n') res.nonce hw (.link res)
    simp only [mirrorResult,Outcome.mirror,List.map_nil,← hh]
    rfl

/-- A node reacts to the mirrored event as its mirror image does. -/
theorem process_mirror (net : Network) (n : BaseNode) (ev : Event)
    (h : ∀ req, ev ≠ .searchByIdRequest req) :
    n.mirror.processIncomingEvent net.mirror ev.mirror =
      (n.processIncomingEvent net ev).mirror := by
  cases ev with
  | searchByIdRequest req => exact absurd rfl (h req)
  | getLinkOp req => exact handleGetLinkRequest_mirror req
  | setLinkOp res => exact handleSetLinkResponse_mirror res
  | getNeighborOp req => exact handleGetNeighborRequest_mirror req
  | getMaxLevelOp req => exact handleGetMaxLevelRequest_mirror req
  | searchByIdResponse res =>
    have hh := @resolveWaiter_mirror n res.nonce Waiter.isAsyncSearch Waiter.isAsyncSearch
      (fun w => by cases w <;> rfl) (.search res)
    simp only [processIncomingEvent,Event.mirror,handleSearchByIdResponse,Outcome.mirror,← hh]
    rfl
  | retMaxLevelOp res =>
    have hh := @resolveWaiter_mirror n res.nonce Waiter.isMaxLevel Waiter.isMaxLevel
      (fun w => by cases w <;> rfl) (.maxLevel res)
    simp only [processIncomingEvent,Event.mirror,handleRetMaxLevelResponse,Outcome.mirror,← hh]
    rfl
  | retNeighborOp res =>
    have hh := @resolveWaiter_mirror n res.nonce Waiter.isNeighbor Waiter.isNeighbor
      (fun w => by cases w <;> rfl) (.neighbor res)
    simp only [processIncomingEvent,Event.mirror,handleRetNeighborResponse,Outcome.mirror,← hh]
    rfl
  | testMessage text => rfl
  | buddyOp req => rfl
  | checkNeighborOp req => rfl

theorem dest_mirror (request : Request) : request.mirror.dest = request.dest.mirror := by
  cases request <;> rfl

theorem event_mirror (request : Request) (nonce : Nonce) :
    request.mirror.event n.mirror nonce = (request.event n nonce).mirror := by
  cases request <;> rfl

theorem waiter_mirror (request : Request) (tx : ℕ) :
    request.mirror.waiter tx = (request.waiter tx).mirror := by
  cases request <;> rfl

theorem accepts_mirror (request : Request) (reply : Reply) :
    request.mirror.accepts reply.mirror = request.accepts reply := by
  cases request <;> cases reply <;> rfl

theorem openChannel_mirror : n.mirror.openChannel = n.openChannel.mirror := by
  simp [openChannel,mirror,Oneshot.mirror]

theorem insertWaiter_mirror (nonce : Nonce) (w : Waiter) :
    n.mirror.insertWaiter nonce w.mirror = (n.insertWaiter nonce w).mirror := by
  have hset : ∀ m : BaseNode,
      { m.mirror with
        requestIdMap := Function.update m.mirror.requestIdMap nonce (some w.mirror) } =
      mirror { m with requestIdMap := Function.update m.requestIdMap nonce (some w) } := by
    intro m
    have hm : (fun k => ((Function.update m.requestIdMap nonce (some w)) k).map Waiter.mirror) =
        Function.update (fun k => (m.requestIdMap k).map Waiter.mirror) nonce
          (some w.mirror) := by
      funext k
      by_cases h : k = nonce <;> simp [h]
    simp [mirror,hm]
  have hold : n.mirror.requestIdMap nonce = (n.requestIdMap nonce).map Waiter.mirror := rfl
  simp only [insertWaiter,hold]
  cases n.requestIdMap nonce with
  | none => exact hset n
  | some old =>
    simp only [Option.map_some,tx_mirror,dropSender_mirror]
    exact hset (n.dropSender old.tx)

theorem dropGuard_mirror (nonce : Nonce) :
    n.mirror.dropGuard nonce = (n.dropGuard nonce).mirror := by
  have hold : n.mirror.requestIdMap nonce = (n.requestIdMap nonce).map Waiter.mirror := rfl
  simp only [dropGuard,hold]
  cases n.requestIdMap nonce with
  | none => rfl
  | some w => simp only [Option.map_some,tx_mirror,removeWaiter_mirror,dropSender_mirror]

/-- The mirror of a started round trip, of a segment that suspends or ends a call, and of
the node after a segment, each with the events sent. -/
def mirrorStart (r : BaseNode × List Packet × Except Error RoundTrip) :
    BaseNode × List Packet × Except Error RoundTrip :=
  (r.1.mirror,r.2.1.map Packet.mirror,mirrorResult RoundTrip.mirror r.2.2)

def mirrorSegment (r : BaseNode × List Packet × Call) : BaseNode × List Packet × Call :=
  (r.1.mirror,r.2.1.map Packet.mirror,r.2.2.mirror)

def mirrorRun (r : BaseNode × List Packet) : BaseNode × List Packet :=
  (r.1.mirror,r.2.map Packet.mirror)

theorem startRoundTrip_mirror (nonce : Nonce) (request : Request) :
    n.mirror.startRoundTrip net.mirror nonce request.mirror =
      mirrorStart (n.startRoundTrip net nonce request) := by
  have hlen : n.mirror.oneshots.length = n.oneshots.length := by simp [mirror]
  simp only [startRoundTrip,hlen,dest_mirror,event_mirror,waiter_mirror,openChannel_mirror,
    insertWaiter_mirror,Network.mirror_apply]
  cases net request.dest (request.event n nonce) with
  | ok u => rfl
  | error e => simp only [mirrorResult,dropGuard_mirror]; rfl

theorem suspend_mirror {started : BaseNode × List Packet × Except Error RoundTrip}
    (next next' : RoundTrip → Call) (h : ∀ rt, next' rt.mirror = (next rt).mirror) :
    suspend (mirrorStart started) next' = mirrorSegment (suspend started next) := by
  obtain ⟨n,ps,e | rt⟩ := started
  · rfl
  · simp only [suspend,mirrorStart,mirrorResult,mirrorSegment,h]

theorem joinStage1LinkLevel0_mirror (introducer : Identifier) (maxLevel : ℕ) (nonce : Nonce) :
    n.mirror.joinStage1LinkLevel0 net.mirror introducer.mirror maxLevel nonce =
      mirrorSegment (n.joinStage1LinkLevel0 net introducer maxLevel nonce) := by
  have hid : n.mirror.core.id = n.core.id.mirror := rfl
  have hsearch : ∀ d : Direction,
      suspend (n.mirror.sendSearchByIdReq net.mirror introducer.mirror nonce n.core.id.mirror maxLevel
        d.opposite) (.joinSearch d.opposite) =
      mirrorSegment (suspend (n.sendSearchByIdReq net introducer nonce n.core.id maxLevel d)
        (.joinSearch d)) := by
    intro d
    have hs := @startRoundTrip_mirror net n nonce (.search introducer n.core.id maxLevel d)
    rw [sendSearchByIdReq,sendSearchByIdReq,
      ← suspend_mirror (.joinSearch d) (.joinSearch d.opposite) (fun rt => rfl),← hs]
    rfl
  simp only [joinStage1LinkLevel0,hid,Identifier.mirror_lt,gt_iff_lt]
  rcases lt_trichotomy introducer n.core.id with hlt | heq | hlt
  · simp only [hlt,not_lt_of_gt hlt,if_true,if_false]
    exact hsearch .right
  · simp only [heq,lt_irrefl,if_false]
    rfl
  · simp only [hlt,not_lt_of_gt hlt,if_true,if_false]
    exact hsearch .left

theorem joinAfterSearch_mirror (d : Direction) (res : IdSearchRes) (nonce : Nonce) :
    n.mirror.joinAfterSearch net.mirror d.opposite res.mirror nonce =
      mirrorSegment (n.joinAfterSearch net d res nonce) := by
  have hid : n.mirror.core.id = n.core.id.mirror := rfl
  have hres : res.mirror.result = res.result.mirror := rfl
  have hs := @startRoundTrip_mirror net n nonce (.neighbor res.result d 0)
  simp only [joinAfterSearch,hid,hres,Identifier.mirror_inj]
  split
  · rfl
  · rw [getNeighbor,getNeighbor,← suspend_mirror (.joinNeighbor d res.result)
      (.joinNeighbor d.opposite res.result.mirror) (fun rt => rfl),← hs]
    rfl

theorem linkFuture_mirror (r : Except Error RoundTrip) :
    linkFuture (mirrorResult RoundTrip.mirror r) = (linkFuture r).mirror := by
  cases r <;> rfl

theorem settled_mirror (d : Direction) (anchor : Identifier) (neighbor : Option Identity)
    (sl : LinkFuture) (ql : Option LinkFuture) :
    Call.settled d.opposite anchor.mirror (neighbor.map Identity.mirror) sl.mirror
      (ql.map LinkFuture.mirror) = (Call.settled d anchor neighbor sl ql).mirror := by
  rcases sl with rt | (e | u)
  · cases ql <;> rfl
  · rcases ql with _ | rt | (e' | u') <;> rfl
  · rcases ql with _ | rt | (e' | u') <;> rfl

theorem sendLinkRequest_mirror (dest : Identifier) (dir : Direction) (level : ℕ) (nonce : Nonce) :
    n.mirror.sendLinkRequest net.mirror dest.mirror dir.opposite level nonce =
      mirrorStart (n.sendLinkRequest net dest dir level nonce) :=
  startRoundTrip_mirror nonce (.link dest dir level)

theorem joinAfterNeighbor_mirror (d : Direction) (anchor : Identifier) (res : NeighborRes)
    (nonce₁ nonce₂ : Nonce) :
    n.mirror.joinAfterNeighbor net.mirror d.opposite anchor.mirror res.mirror nonce₁ nonce₂ =
      mirrorSegment (n.joinAfterNeighbor net d anchor res nonce₁ nonce₂) := by
  have hres : res.mirror.neighbor = res.neighbor.map Identity.mirror := rfl
  simp only [joinAfterNeighbor,sendLinkRequest_mirror,hres]
  cases res.neighbor with
  | none =>
    have hset := settled_mirror d anchor none
      (linkFuture (n.sendLinkRequest net anchor d 0 nonce₁).2.2) none
    simp only [Option.map_none,mirrorStart,linkFuture_mirror,mirrorSegment] at hset ⊢
    rw [hset]
  | some q =>
    have hset := settled_mirror d anchor (some q)
      (linkFuture (n.sendLinkRequest net anchor d 0 nonce₁).2.2)
      (some (linkFuture ((n.sendLinkRequest net anchor d 0 nonce₁).1.sendLinkRequest net q.id
        d.opposite 0 nonce₂).2.2))
    simp only [Option.map_some,mirrorStart,linkFuture_mirror,mirrorSegment,Identity.id_mirror,
      sendLinkRequest_mirror,List.map_append] at hset ⊢
    rw [hset]

theorem settle_mirror (rt : RoundTrip) (result : Except Error Reply) (f : LinkFuture) :
    f.mirror.settle rt.mirror (mirrorResult Reply.mirror result) =
      (f.settle rt result).mirror := by
  cases f with
  | waiting rt' =>
    simp only [LinkFuture.settle,LinkFuture.mirror,RoundTrip.mirror_inj]
    split
    · cases result <;> rfl
    · rfl
  | finished r => rfl

theorem resume_mirror (rt : RoundTrip) (result : Except Error Reply) (nonce₁ nonce₂ : Nonce)
    (call : Call) :
    n.mirror.resume net.mirror rt.mirror (mirrorResult Reply.mirror result) nonce₁ nonce₂
      call.mirror = mirrorSegment (n.resume net rt result nonce₁ nonce₂ call) := by
  cases call with
  | single rt' =>
    cases result with
    | error e => rfl
    | ok reply => cases reply <;> rfl
  | joinSearch d rt' =>
    rcases result with e | (res | res | res | res)
    · rfl
    · rfl
    · exact joinAfterSearch_mirror d res nonce₁
    · rfl
    · rfl
  | joinNeighbor d anchor rt' =>
    rcases result with e | (res | res | res | res)
    · rfl
    · rfl
    · rfl
    · exact joinAfterNeighbor_mirror d anchor res nonce₁ nonce₂
    · rfl
  | joinLink d anchor neighbor sl ql =>
    have hset := settled_mirror d anchor neighbor (sl.settle rt result)
      (ql.map (·.settle rt result))
    have hq : (ql.map LinkFuture.mirror).map
        (·.settle rt.mirror (mirrorResult Reply.mirror result)) =
        (ql.map (·.settle rt result)).map LinkFuture.mirror := by
      simp [Function.comp_def,settle_mirror]
    change (n.mirror,[],Call.settled d.opposite anchor.mirror (neighbor.map Identity.mirror)
      (sl.mirror.settle rt.mirror (mirrorResult Reply.mirror result))
      ((ql.map LinkFuture.mirror).map (·.settle rt.mirror (mirrorResult Reply.mirror result)))) = _
    rw [settle_mirror,hq,hset]
    rfl
  | returned r => rfl
  | cancelled => rfl

theorem waits_mirror (call : Call) : call.mirror.waits = call.waits.map RoundTrip.mirror := by
  cases call with
  | joinLink d anchor neighbor sl ql =>
    cases sl <;> rcases ql with _ | rt | r <;> rfl
  | _ => rfl

theorem received_mirror (rt : RoundTrip) :
    n.mirror.received rt.mirror = (n.received rt).map (mirrorResult Reply.mirror) := by
  have ho : n.mirror.oneshots[rt.mirror.rx]? = n.oneshots[rt.rx]?.map Oneshot.mirror := by
    simp [mirror,RoundTrip.mirror]
  simp only [received,ho]
  rcases n.oneshots[rt.rx]? with _ | (_ | reply | _)
  · rfl
  · rfl
  · simp only [Option.map_some,Oneshot.mirror,RoundTrip.mirror,accepts_mirror]
    split <;> rfl
  · rfl

theorem endRoundTrip_mirror (k : ℕ) (call : Call) (rt : RoundTrip) (result : Except Error Reply)
    (nonce₁ nonce₂ : Nonce) :
    n.mirror.endRoundTrip net.mirror k call.mirror rt.mirror (mirrorResult Reply.mirror result)
      nonce₁ nonce₂ = mirrorRun (n.endRoundTrip net k call rt result nonce₁ nonce₂) := by
  have hd : n.mirror.dropGuard rt.mirror.nonce = (n.dropGuard rt.nonce).mirror :=
    dropGuard_mirror rt.nonce
  simp only [endRoundTrip,hd,resume_mirror]
  simp [mirrorSegment,mirrorRun,mirror,List.map_set]

theorem dropGuards_mirror (rts : List RoundTrip) :
    (rts.map RoundTrip.mirror).foldl (fun n rt => n.dropGuard rt.nonce) n.mirror =
      (rts.foldl (fun n rt => n.dropGuard rt.nonce) n).mirror := by
  induction rts generalizing n with
  | nil => rfl
  | cons rt rts ih =>
    have hd : n.mirror.dropGuard rt.mirror.nonce = (n.dropGuard rt.nonce).mirror :=
      dropGuard_mirror rt.nonce
    simp only [List.map_cons,List.foldl_cons,hd]
    exact ih

theorem begin_mirror (r : BaseNode × List Packet × Call) :
    begin (mirrorSegment r) = mirrorRun (begin r) := by
  simp [begin,mirrorSegment,mirrorRun,mirror]

/-- One segment of a call that does not search the node's own table. -/
theorem callStep_mirror {a : CallAction} (h : ∀ req, a ≠ .searchById req) :
    n.mirror.callStep net.mirror a.mirror = (n.callStep net a).map mirrorRun := by
  have hcalls : ∀ k : ℕ, n.mirror.calls[k]? = n.calls[k]?.map Call.mirror := by
    intro k
    simp [mirror]
  have hstart : ∀ (nonce : Nonce) (request : Request),
      begin (suspend (n.mirror.startRoundTrip net.mirror nonce request.mirror) .single) =
        mirrorRun (begin (suspend (n.startRoundTrip net nonce request) .single)) := by
    intro nonce request
    rw [startRoundTrip_mirror,suspend_mirror .single .single (fun rt => rfl),begin_mirror]
  cases a with
  | searchById req => exact absurd rfl (h req)
  | getMaxLevel introducer nonce => exact congrArg some (hstart nonce (.maxLevel introducer))
  | getNeighbor src direction level nonce =>
    exact congrArg some (hstart nonce (.neighbor src direction level))
  | sendLinkRequest dest dir level nonce =>
    exact congrArg some (hstart nonce (.link dest dir level))
  | joinStage1LinkLevel0 introducer maxLevel nonce =>
    simp only [callStep,CallAction.mirror,joinStage1LinkLevel0_mirror,begin_mirror,Option.map_some]
  | wake k i nonce₁ nonce₂ =>
    simp only [callStep,CallAction.mirror,hcalls]
    cases n.calls[k]? with
    | none => rfl
    | some call =>
      simp only [Option.map_some,Option.bind_some,waits_mirror,List.getElem?_map]
      cases call.waits[i]? with
      | none => rfl
      | some rt =>
        simp only [Option.map_some,Option.bind_some,received_mirror]
        cases n.received rt with
        | none => rfl
        | some result => simp only [Option.map_some,endRoundTrip_mirror]
  | timeout k i =>
    simp only [callStep,CallAction.mirror,hcalls]
    cases n.calls[k]? with
    | none => rfl
    | some call =>
      simp only [Option.map_some,Option.bind_some,waits_mirror,List.getElem?_map]
      cases call.waits[i]? with
      | none => rfl
      | some rt =>
        have ho : n.mirror.oneshots[rt.mirror.rx]? = some .empty ↔
            n.oneshots[rt.rx]? = some .empty := by
          have hm : n.mirror.oneshots[rt.mirror.rx]? = n.oneshots[rt.rx]?.map Oneshot.mirror := by
            simp [mirror,RoundTrip.mirror]
          rw [hm]
          rcases n.oneshots[rt.rx]? with _ | (_ | reply | _) <;> simp [Oneshot.mirror]
        simp only [Option.map_some,Option.bind_some,ho]
        split
        · exact congrArg some (endRoundTrip_mirror k call rt (.error (.timedOut rt.request)) rt.nonce
            rt.nonce)
        · rfl
  | cancel k =>
    simp only [callStep,CallAction.mirror,hcalls]
    cases n.calls[k]? with
    | none => rfl
    | some call =>
      simp only [Option.map_some,Option.bind_some,waits_mirror,List.map_eq_nil_iff]
      split
      · rfl
      · rw [dropGuards_mirror]
        simp [mirrorRun,mirror,List.map_set,Call.mirror]

def localExec (n : BaseNode) : LocalAction → Option (BaseNode × List Packet)
  | .receive net ev =>
    let o := n.processIncomingEvent net ev
    some (o.node,o.sent)
  | .call net a => n.callStep net a

def runLocal (n : BaseNode) : List LocalAction → Option (BaseNode × List Packet)
  | [] => some (n,[])
  | a::as => (n.localExec a).bind fun r => (r.1.runLocal as).map fun r' => (r'.1,r.2++r'.2)

end BaseNode

/-- Every action but those that search a lookup table. -/
def LocalAction.Symmetric : LocalAction → Prop
  | receive _ ev => ∀ req, ev ≠ .searchByIdRequest req
  | call _ a => ∀ req, a ≠ .searchById req

namespace BaseNode

variable {n : BaseNode}

theorem localExec_mirror {a : LocalAction} (h : a.Symmetric) :
    n.mirror.localExec a.mirror = (n.localExec a).map mirrorRun := by
  cases a with
  | receive net ev =>
    simp only [localExec,LocalAction.mirror,process_mirror net n ev h,Option.map_some]
    rfl
  | call net a => exact callStep_mirror h

theorem runLocal_mirror (as : List LocalAction) (h : ∀ a ∈ as, a.Symmetric) :
    n.mirror.runLocal (as.map LocalAction.mirror) = (n.runLocal as).map mirrorRun := by
  induction as generalizing n with
  | nil => rfl
  | cons a as ih =>
    simp only [List.map_cons,runLocal,localExec_mirror (h a (by simp))]
    cases n.localExec a with
    | none => rfl
    | some r =>
      have hrest := ih (n := r.1) fun b hb => h b (by simp [hb])
      simp only [Option.map_some,Option.bind_some,mirrorRun,hrest]
      cases r.1.runLocal as with
      | none => rfl
      | some r' => simp [mirrorRun]

theorem joined_mirror (call : Call) :
    call.mirror = .returned (.ok .joined) ↔ call = .returned (.ok .joined) := by
  cases call with
  | returned r =>
    rcases r with e | o
    · simp [Call.mirror,mirrorResult]
    · cases o <;> simp [Call.mirror,mirrorResult,Output.mirror]
  | _ => simp [Call.mirror]

/-- The link protocol is symmetric: the mirrored node reacts to the mirrored event with the
mirror of the new state and of the events sent, and a join on the mirrored node, whatever
replies, timeouts and other events follow, sends the mirror of the requests and succeeds
exactly when the join of the node does. -/
theorem link_protocol_mirrors (n : BaseNode) (net : Network) :
    (∀ req : LinkReq, n.mirror.processIncomingEvent net.mirror (.getLinkOp req.mirror) =
      (n.processIncomingEvent net (.getLinkOp req)).mirror) ∧
    (∀ res : LinkRes, n.mirror.processIncomingEvent net.mirror (.setLinkOp res.mirror) =
      (n.processIncomingEvent net (.setLinkOp res)).mirror) ∧
    (∀ req : NeighborReq, n.mirror.processIncomingEvent net.mirror (.getNeighborOp req.mirror) =
      (n.processIncomingEvent net (.getNeighborOp req)).mirror) ∧
    ∀ (introducer : Identifier) (maxLevel : ℕ) (nonce : Nonce) (as : List LocalAction),
      (∀ a ∈ as, a.Symmetric) →
      let run := n.runLocal (.call net (.joinStage1LinkLevel0 introducer maxLevel nonce)::as)
      let run' := n.mirror.runLocal (.call net.mirror
        (.joinStage1LinkLevel0 introducer.mirror maxLevel nonce)::as.map LocalAction.mirror)
      run' = run.map mirrorRun ∧ ∀ r r', run = some r → run' = some r' →
        r'.2 = r.2.map Packet.mirror ∧ ∀ k : ℕ, r'.1.calls[k]? = r.1.calls[k]?.map Call.mirror ∧
          (r'.1.calls[k]? = some (.returned (.ok .joined)) ↔
            r.1.calls[k]? = some (.returned (.ok .joined))) := by
  refine ⟨fun req => process_mirror net n (.getLinkOp req) (by simp),
    fun res => process_mirror net n (.setLinkOp res) (by simp),
    fun req => process_mirror net n (.getNeighborOp req) (by simp),?_⟩
  intro introducer maxLevel nonce as has run run'
  have hrun : run' = run.map mirrorRun := by
    apply runLocal_mirror (.call net (.joinStage1LinkLevel0 introducer maxLevel nonce)::as)
    intro a ha
    rcases List.mem_cons.mp ha with rfl | ha
    · simp [LocalAction.Symmetric]
    · exact has a ha
  refine ⟨hrun,fun r r' hr hr' => ?_⟩
  rw [hr] at hrun
  obtain rfl : r' = mirrorRun r := Option.some.inj (hr'.symm.trans hrun)
  have hcalls : ∀ k : ℕ, (mirrorRun r).1.calls[k]? = r.1.calls[k]?.map Call.mirror := by
    intro k
    simp [mirrorRun,mirror]
  refine ⟨rfl,fun k => ⟨hcalls k,?_⟩⟩
  rw [hcalls]
  cases r.1.calls[k]? with
  | none => simp
  | some call => simp [joined_mirror]

end BaseNode

end SkipGraph
