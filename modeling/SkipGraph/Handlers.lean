import SkipGraph.Calls

/-!
# What one inbound event can do

Every later invariant is derived from the lemmas of this module and never unfolds a
handler: which slots an event may write, which events it may send, and which waiter
it may resolve.
-/

namespace SkipGraph

/-- The event proposes `c` for the receiver's slot `(l,d)`. -/
def Event.Offers (ev : Event) (l : ℕ) (d : Direction) (c : Identity) : Prop :=
  (∃ nonce, ev = .getLinkOp ⟨nonce,c,d,l⟩) ∨ ∃ nonce, ev = .setLinkOp ⟨nonce,d,l,some c⟩

def Event.reply? : Event → Option (Reply × (Waiter → Bool))
  | .searchByIdResponse res => some (.search res,Waiter.isAsyncSearch)
  | .retMaxLevelOp res => some (.maxLevel res,Waiter.isMaxLevel)
  | .retNeighborOp res => some (.neighbor res,Waiter.isNeighbor)
  | .setLinkOp res => some (.link res,Waiter.isLink res.level res.dir)
  | _ => none

/-- A network that takes every event it is handed. -/
def reliable : Network := fun _ _ => .ok ()

namespace BaseNode

variable {net : Network} {n n' : BaseNode} {ev : Event} {l level : ℕ} {d dir : Direction}
  {c e : Identity}

theorem belongsInOwnSlot_iff : n.belongsInOwnSlot l d c = true ↔
    l < lookupTableLevels ∧ d.lt n.id c.id ∧ l ≤ n.memVec.commonPrefixBit c.memVec := by
  by_cases h : l < lookupTableLevels
  · have hn : ¬ l ≥ lookupTableLevels := by omega
    cases d <;> simp [belongsInOwnSlot,hn,h,BaseCore.prefixMatch,Direction.lt,memVec]
  · have hn : l ≥ lookupTableLevels := by omega
    simp [belongsInOwnSlot,hn]

/-- The node keeps its identity, its calls and everything but its table. -/
structure SameBut (n n' : BaseNode) : Prop where
  id : n'.id = n.id
  memVec : n'.memVec = n.memVec
  address : n'.address = n.address
  requestIdMap : n'.requestIdMap = n.requestIdMap
  oneshots : n'.oneshots = n.oneshots
  calls : n'.calls = n.calls

/-- One decided write: the slot `(l,d)` holds `c` afterwards, which is no farther from
this node than what was there, and no other slot changes. -/
structure Installs (n : BaseNode) (l : ℕ) (d : Direction) (c : Identity) (n' : BaseNode) : Prop
    extends SameBut n n' where
  nearer : ∀ e, n.entry l d = some e → d.le c.id e.id
  entry : ∀ l' d', n'.entry l' d' = if l' = l ∧ d' = d then some c else n.entry l' d'

/-- A link request is rejected, forwarded towards the candidate, or served. -/
theorem handleGetLinkRequest_cases (net : Network) (n : BaseNode) (req : LinkReq) :
    (n.belongsInOwnSlot req.level req.dir req.candidate = false ∧
      n.handleGetLinkRequest net req = ⟨n,[],.ok ()⟩) ∨
    (n.belongsInOwnSlot req.level req.dir req.candidate = true ∧
      ∃ e, n.entry req.level req.dir = some e ∧ req.dir.lt e.id req.candidate.id ∧
        n.handleGetLinkRequest net req = n.sendEvent net .forwardLink e.id (.getLinkOp req)) ∨
    (n.belongsInOwnSlot req.level req.dir req.candidate = true ∧
      ∃ n', Installs n req.level req.dir req.candidate n' ∧
        n.handleGetLinkRequest net req = n'.sendEvent net .sendLinkResponse req.candidate.id
          (.setLinkOp ⟨req.nonce,req.dir.opposite,req.level,some n.selfIdentity⟩)) := by
  cases hb : n.belongsInOwnSlot req.level req.dir req.candidate with
  | false => simp [handleGetLinkRequest,hb]
  | true =>
    right
    have hl := (belongsInOwnSlot_iff.mp hb).1
    rcases n.core.lt.tryLink_cases req.level req.dir req.candidate hl with
      ⟨e,he,hlt,ht⟩ | ⟨t,ht,hnear,hent⟩
    · exact .inl ⟨rfl,e,he,hlt,by simp [handleGetLinkRequest,hb,BaseCore.tryLink,ht,Except.map]⟩
    · right
      refine ⟨rfl,{ n with core := { n.core with lt := t } },?_,?_⟩
      · exact { id := rfl, memVec := rfl, address := rfl, requestIdMap := rfl, oneshots := rfl,
                calls := rfl, nearer := hnear, entry := hent }
      · simp [handleGetLinkRequest,hb,BaseCore.tryLink,ht,Except.map]

theorem applyLink_cases (n : BaseNode) (res : LinkRes) :
    (n.applyLink res = .ok n ∧ ∀ c, res.linked = some c →
      n.belongsInOwnSlot res.level res.dir c = true →
        ∃ e, n.entry res.level res.dir = some e ∧ res.dir.lt e.id c.id) ∨
    (∃ c n', res.linked = some c ∧ n.belongsInOwnSlot res.level res.dir c = true ∧
      Installs n res.level res.dir c n' ∧ n.applyLink res = .ok n') := by
  cases hlinked : res.linked with
  | none => simp [applyLink,hlinked]
  | some c =>
    cases hb : n.belongsInOwnSlot res.level res.dir c with
    | false =>
      left
      refine ⟨by simp [applyLink,hlinked,hb],?_⟩
      rintro _ ⟨rfl⟩ h
      simp [hb] at h
    | true =>
      have hl := (belongsInOwnSlot_iff.mp hb).1
      rcases n.core.lt.tryLink_cases res.level res.dir c hl with
        ⟨e,he,hlt,ht⟩ | ⟨t,ht,hnear,hent⟩
      · left
        refine ⟨by simp [applyLink,hlinked,hb,BaseCore.tryLink,ht,Except.map],?_⟩
        rintro _ ⟨rfl⟩ -
        exact ⟨e,he,hlt⟩
      · right
        refine ⟨c,{ n with core := { n.core with lt := t } },rfl,hb,?_,?_⟩
        · exact { id := rfl, memVec := rfl, address := rfl, requestIdMap := rfl, oneshots := rfl,
                  calls := rfl, nearer := hnear, entry := hent }
        · simp [applyLink,hlinked,hb,BaseCore.tryLink,ht,Except.map]

theorem resolveWaiter_eq (n : BaseNode) (nonce : Nonce) (f : Waiter → Bool) (r : Reply) :
    n.resolveWaiter nonce f r =
      match n.requestIdMap nonce with
      | some w => if f w then (n.removeWaiter nonce).resolve w.tx r else n
      | none => n := by
  unfold resolveWaiter takeWaiter
  cases n.requestIdMap nonce with
  | none => rfl
  | some w => cases hf : f w <;> simp [hf]

theorem resolveWaiter_frame (n : BaseNode) (nonce : Nonce) (f : Waiter → Bool) (r : Reply) :
    (n.resolveWaiter nonce f r).core = n.core ∧
    (n.resolveWaiter nonce f r).address = n.address ∧
    (n.resolveWaiter nonce f r).calls = n.calls := by
  rw [resolveWaiter_eq]
  cases n.requestIdMap nonce with
  | none => simp
  | some w => cases hf : f w <;> simp [hf,resolve,removeWaiter]

@[simp] theorem sendEvent_node (site : Site) (dest : Identifier) (ev : Event) :
    (n.sendEvent net site dest ev).node = n := by
  unfold sendEvent
  cases net dest ev <;> rfl

@[simp] theorem handleSearchByIdRequest_node (req : IdSearchReq) :
    (n.handleSearchByIdRequest net req).node = n := by
  unfold handleSearchByIdRequest
  cases n.core.searchById req with
  | error e => rfl
  | ok res => simp only; split <;> simp

@[simp] theorem handleGetMaxLevelRequest_node (req : MaxLevelReq) :
    (n.handleGetMaxLevelRequest net req).node = n := by
  simp [handleGetMaxLevelRequest]

@[simp] theorem handleGetNeighborRequest_node (req : NeighborReq) :
    (n.handleGetNeighborRequest net req).node = n := by
  unfold handleGetNeighborRequest
  cases n.core.neighborEntry req.level req.direction <;> simp

theorem process_core (net : Network) (n : BaseNode) (h : ∀ req, ev ≠ .getLinkOp req)
    (h' : ∀ res, ev ≠ .setLinkOp res) :
    (n.processIncomingEvent net ev).node.core = n.core := by
  cases ev with
  | getLinkOp req => exact absurd rfl (h req)
  | setLinkOp res => exact absurd rfl (h' res)
  | _ => simp [processIncomingEvent,handleSearchByIdResponse,handleRetMaxLevelResponse,
      handleRetNeighborResponse,(resolveWaiter_frame n _ _ _).1]

theorem handleSetLinkResponse_cases (n : BaseNode) (res : LinkRes) :
    ∃ m, n.handleSetLinkResponse res =
      ⟨m.resolveWaiter res.nonce (Waiter.isLink res.level res.dir) (.link res),[],.ok ()⟩ ∧
    ((n = m ∧ ∀ c, res.linked = some c → n.belongsInOwnSlot res.level res.dir c = true →
      ∃ e, n.entry res.level res.dir = some e ∧ res.dir.lt e.id c.id) ∨
    ∃ c, res.linked = some c ∧ n.belongsInOwnSlot res.level res.dir c = true ∧
      Installs n res.level res.dir c m) := by
  rcases n.applyLink_cases res with ⟨h,hstay⟩ | ⟨c,m,hc,hb,hi,h⟩
  · exact ⟨n,by simp [handleSetLinkResponse,h],.inl ⟨rfl,hstay⟩⟩
  · exact ⟨m,by simp [handleSetLinkResponse,h],.inr ⟨c,hc,hb,hi⟩⟩

theorem entry_resolveWaiter (nonce : Nonce) (f : Waiter → Bool) (r : Reply) :
    (n.resolveWaiter nonce f r).entry l d = n.entry l d := by
  simp [entry,(resolveWaiter_frame n nonce f r).1]

/-- A slot changes only to an identity that the event offers for it, that passes the
own-slot check, and that is no farther from this node than the previous entry. -/
theorem process_entry (net : Network) (n : BaseNode) (ev : Event) (l : ℕ) (d : Direction) :
    (n.processIncomingEvent net ev).node.entry l d = n.entry l d ∨
    ∃ c, (n.processIncomingEvent net ev).node.entry l d = some c ∧ ev.Offers l d c ∧
      n.belongsInOwnSlot l d c = true ∧ ∀ e, n.entry l d = some e → d.le c.id e.id := by
  have hw : ∀ {l' d' c n'}, Installs n l' d' c n' → n.belongsInOwnSlot l' d' c = true →
      ev.Offers l' d' c → n'.entry l d = n.entry l d ∨
      ∃ c, n'.entry l d = some c ∧ ev.Offers l d c ∧
        n.belongsInOwnSlot l d c = true ∧ ∀ e, n.entry l d = some e → d.le c.id e.id := by
    intro l' d' c n' hi hb ho
    by_cases hs : l = l' ∧ d = d'
    · obtain ⟨rfl,rfl⟩ := hs
      exact .inr ⟨c,by simp [hi.entry],ho,hb,hi.nearer⟩
    · exact .inl (by simp [hi.entry,hs])
  by_cases hg : ∃ req, ev = .getLinkOp req
  · obtain ⟨req,rfl⟩ := hg
    rcases handleGetLinkRequest_cases net n req with ⟨-,h⟩ | ⟨-,e,-,-,h⟩ | ⟨hb,n',hi,h⟩
    · simp [processIncomingEvent,h]
    · simp [processIncomingEvent,h]
    · simpa [processIncomingEvent,h] using hw hi hb (.inl ⟨req.nonce,rfl⟩)
  by_cases hs : ∃ res, ev = .setLinkOp res
  · obtain ⟨res,rfl⟩ := hs
    obtain ⟨m,h,hm⟩ := handleSetLinkResponse_cases n res
    simp only [processIncomingEvent,h,entry_resolveWaiter]
    rcases hm with ⟨rfl,-⟩ | ⟨c,hc,hb,hi⟩
    · exact .inl rfl
    · exact hw hi hb (.inr ⟨res.nonce,by rw [← hc]⟩)
  · left
    have hh := process_core net n (fun req he => hg ⟨req,he⟩)
      fun res he => hs ⟨res,he⟩
    simp [entry,hh]

theorem process_frame (net : Network) (n : BaseNode) (ev : Event) :
    (n.processIncomingEvent net ev).node.selfIdentity = n.selfIdentity ∧
    (n.processIncomingEvent net ev).node.calls = n.calls := by
  cases ev with
  | getLinkOp req =>
    rcases handleGetLinkRequest_cases net n req with ⟨-,h⟩ | ⟨-,e,-,-,h⟩ | ⟨-,n',hi,h⟩
    · simp [processIncomingEvent,h]
    · simp [processIncomingEvent,h]
    · have hid : n'.core.id = n.core.id := hi.id
      have hmv : n'.core.memVec = n.core.memVec := hi.memVec
      simp [processIncomingEvent,h,selfIdentity,hid,hmv,hi.address,hi.calls]
  | setLinkOp res =>
    obtain ⟨m,h,hm⟩ := handleSetLinkResponse_cases n res
    obtain ⟨hc,ha,hcalls⟩ := resolveWaiter_frame m res.nonce (Waiter.isLink res.level res.dir)
      (.link res)
    simp only [processIncomingEvent,h,selfIdentity,hc,ha,hcalls]
    rcases hm with ⟨rfl,-⟩ | ⟨c,-,-,hi⟩
    · simp
    · have hid : m.core.id = n.core.id := hi.id
      have hmv : m.core.memVec = n.core.memVec := hi.memVec
      simp [hid,hmv,hi.address,hi.calls]
  | _ => simp [processIncomingEvent,handleSearchByIdResponse,handleRetMaxLevelResponse,
      handleRetNeighborResponse,selfIdentity,resolveWaiter_frame n _ _ _]

@[simp] theorem process_selfIdentity (net : Network) (n : BaseNode) (ev : Event) :
    (n.processIncomingEvent net ev).node.selfIdentity = n.selfIdentity :=
  (process_frame net n ev).1

@[simp] theorem process_calls (net : Network) (n : BaseNode) (ev : Event) :
    (n.processIncomingEvent net ev).node.calls = n.calls :=
  (process_frame net n ev).2

@[simp] theorem process_id (net : Network) (n : BaseNode) (ev : Event) :
    (n.processIncomingEvent net ev).node.id = n.id :=
  congrArg Identity.id (process_selfIdentity net n ev)

@[simp] theorem process_memVec (net : Network) (n : BaseNode) (ev : Event) :
    (n.processIncomingEvent net ev).node.memVec = n.memVec :=
  congrArg Identity.memVec (process_selfIdentity net n ev)

/-- An event that a node only absorbs: a response, or a request that it refuses. -/
def Absorbs (n : BaseNode) : Event → Prop
  | .searchByIdRequest req => lookupTableLevels ≤ req.level
  | .getMaxLevelOp _ => False
  | .getNeighborOp req => lookupTableLevels ≤ req.level
  | .getLinkOp req => n.belongsInOwnSlot req.level req.dir req.candidate = false
  | _ => True

/-- The event that a node sends in reaction to one event, `n'` being the node after it. -/
inductive Reacts (n n' : BaseNode) : Event → Packet → Prop
  | answer (req : IdSearchReq) (hl : req.level < lookupTableLevels)
      (h : ∀ l ≤ req.level, ∀ e, n.entry l req.direction = some e →
        req.direction.lt req.target e.id) :
      Reacts n n' (.searchByIdRequest req)
        ⟨req.origin,.searchByIdResponse ⟨req.nonce,req.target,0,n.id⟩⟩
  | relay (req : IdSearchReq) (l : ℕ) (e : Identity) (hl : req.level < lookupTableLevels)
      (hle : l ≤ req.level) (he : n.entry l req.direction = some e)
      (ht : req.direction.le e.id req.target)
      (hbest : ∀ l' ≤ req.level, ∀ e', n.entry l' req.direction = some e' →
        req.direction.le e'.id req.target → req.direction.le e'.id e.id) :
      Reacts n n' (.searchByIdRequest req) ⟨e.id,.searchByIdRequest { req with level := l }⟩
  | maxLevel (req : MaxLevelReq) : Reacts n n' (.getMaxLevelOp req)
      ⟨req.origin,.retMaxLevelOp ⟨req.nonce,n.core.maxLevel⟩⟩
  | neighbor (req : NeighborReq) (hl : req.level < lookupTableLevels) :
      Reacts n n' (.getNeighborOp req) ⟨req.origin,
        .retNeighborOp ⟨req.nonce,req.level,req.direction,n.entry req.level req.direction⟩⟩
  | forward (req : LinkReq) (e : Identity)
      (hb : n.belongsInOwnSlot req.level req.dir req.candidate = true)
      (he : n.entry req.level req.dir = some e) (hlt : req.dir.lt e.id req.candidate.id) :
      Reacts n n' (.getLinkOp req) ⟨e.id,.getLinkOp req⟩
  | accept (req : LinkReq) (hb : n.belongsInOwnSlot req.level req.dir req.candidate = true)
      (hnear : ∀ e, n.entry req.level req.dir = some e → req.dir.le req.candidate.id e.id)
      (hn : n'.entry req.level req.dir = some req.candidate) :
      Reacts n n' (.getLinkOp req) ⟨req.candidate.id,
        .setLinkOp ⟨req.nonce,req.dir.opposite,req.level,some n.selfIdentity⟩⟩

theorem Reacts.nonce_eq {p : Packet} (h : Reacts n n' ev p) : p.event.nonce? = ev.nonce? := by
  cases h <;> rfl

theorem searchById_beyond (core : BaseCore) {req : IdSearchReq}
    (hl : lookupTableLevels ≤ req.level) : ∃ e, core.searchById req = .error e := by
  have hc : ∀ lvls : List ℕ, lookupTableLevels ∈ lvls →
      ∃ e, BaseCore.collectCandidates core.lt req.direction lvls = .error e := by
    intro lvls
    induction lvls with
    | nil => simp
    | cons l lvls ih =>
      intro hm
      simp only [BaseCore.collectCandidates]
      rcases List.mem_cons.mp hm with rfl | hm
      · exact ⟨_,by simp [ArrayLookupTable.getEntry]; rfl⟩
      · obtain ⟨e,he⟩ := ih hm
        cases core.lt.getEntry l req.direction with
        | error e' => exact ⟨_,rfl⟩
        | ok o => cases o <;> exact ⟨e,by simp [he,Except.map]⟩
  obtain ⟨e,he⟩ := hc (List.range (req.level+1)) (List.mem_range.mpr (by omega))
  exact ⟨e,by simp [BaseCore.searchById,he]⟩

/-- A node sends at most one event in reaction to another; nothing is sent only when the
event is absorbed. -/
theorem process_reacts (n : BaseNode) (ev : Event)
    (hne : ∀ l d e, n.entry l d = some e → e.id ≠ n.id) :
    ((n.processIncomingEvent reliable ev).sent = [] ∧ n.Absorbs ev) ∨
    ∃ p, (n.processIncomingEvent reliable ev).sent = [p] ∧
      (n.processIncomingEvent reliable ev).result = .ok () ∧
      Reacts n (n.processIncomingEvent reliable ev).node ev p := by
  cases ev with
  | searchByIdRequest req =>
    rcases lt_or_ge req.level lookupTableLevels with hl | hl
    · right
      rcases n.core.searchById_cases req hl with ⟨h,hall⟩ | ⟨l,e,hle,he,h,ht,hbest⟩
      · refine ⟨_,?_,?_,.answer req hl hall⟩ <;>
          simp [processIncomingEvent,handleSearchByIdRequest,h,sendEvent,reliable,BaseNode.id]
      · have hne' : e.id ≠ n.id := hne l req.direction e he
        refine ⟨_,?_,?_,.relay req l e hl hle he ht hbest⟩ <;>
          simp [processIncomingEvent,handleSearchByIdRequest,h,sendEvent,reliable,hne']
    · left
      obtain ⟨e,he⟩ := searchById_beyond n.core hl
      exact ⟨by simp [processIncomingEvent,handleSearchByIdRequest,he],hl⟩
  | getMaxLevelOp req => exact .inr ⟨_,rfl,rfl,.maxLevel req⟩
  | getNeighborOp req =>
    rcases lt_or_ge req.level lookupTableLevels with hl | hl
    · right
      have h : n.core.neighborEntry req.level req.direction =
          .ok (n.entry req.level req.direction) := ArrayLookupTable.getEntry_eq hl
      refine ⟨_,?_,?_,.neighbor req hl⟩ <;>
        simp [processIncomingEvent,handleGetNeighborRequest,h,sendEvent,reliable]
    · left
      have h : n.core.neighborEntry req.level req.direction =
          .error (.levelOutOfRange req.level) := by
        simp [BaseCore.neighborEntry,ArrayLookupTable.getEntry,Nat.not_lt.mpr hl]
      exact ⟨by simp [processIncomingEvent,handleGetNeighborRequest,h],hl⟩
  | getLinkOp req =>
    rcases handleGetLinkRequest_cases reliable n req with
      ⟨hb,h⟩ | ⟨hb,e,he,hlt,h⟩ | ⟨hb,n',hi,h⟩
    · exact .inl ⟨by simp [processIncomingEvent,h],hb⟩
    · right
      refine ⟨_,?_,?_,.forward req e hb he hlt⟩ <;> simp [processIncomingEvent,h,sendEvent,reliable]
    · right
      refine ⟨_,?_,?_,.accept req hb hi.nearer ?_⟩ <;>
        simp [processIncomingEvent,h,sendEvent,reliable,hi.entry]
  | setLinkOp res =>
    obtain ⟨m,h,-⟩ := handleSetLinkResponse_cases n res
    exact .inl ⟨by simp [processIncomingEvent,h],trivial⟩
  | searchByIdResponse res => exact .inl ⟨rfl,trivial⟩
  | retMaxLevelOp res => exact .inl ⟨rfl,trivial⟩
  | retNeighborOp res => exact .inl ⟨rfl,trivial⟩
  | testMessage text => exact .inl ⟨rfl,trivial⟩
  | buddyOp req => exact .inl ⟨rfl,trivial⟩
  | checkNeighborOp req => exact .inl ⟨rfl,trivial⟩

/-- A response reaches the waiter of its nonce if that expects it, and changes the waiters
and channels in no other way. -/
structure Resolves (n : BaseNode) (ev : Event) (nonce : Nonce) (w : Waiter) (reply : Reply)
    (n' : BaseNode) : Prop where
  nonce_eq : ev.nonce? = some nonce
  waiter : n.requestIdMap nonce = some w
  expected : ∃ f, ev.reply? = some (reply,f) ∧ f w = true
  map : n'.requestIdMap = Function.update n.requestIdMap nonce none
  oneshots : n'.oneshots = (n.resolve w.tx reply).oneshots

/-- The waiters and channels stay as they are, and no waiter expects the event. -/
structure Ignores (n : BaseNode) (ev : Event) (n' : BaseNode) : Prop where
  map : n'.requestIdMap = n.requestIdMap
  oneshots : n'.oneshots = n.oneshots
  unexpected : ∀ nonce w reply f, ev.nonce? = some nonce → ev.reply? = some (reply,f) →
    n.requestIdMap nonce = some w → f w = false

theorem resolveWaiter_cases (n : BaseNode) (ev : Event) {m : BaseNode}
    (hm : m.requestIdMap = n.requestIdMap)
    (ho : m.oneshots = n.oneshots) {nonce : Nonce} {f : Waiter → Bool} {reply : Reply}
    (hn : ev.nonce? = some nonce) (hr : ev.reply? = some (reply,f)) :
    Ignores n ev (m.resolveWaiter nonce f reply) ∨
    ∃ w, Resolves n ev nonce w reply (m.resolveWaiter nonce f reply) := by
  rw [resolveWaiter_eq,hm]
  cases hw : n.requestIdMap nonce with
  | none =>
    left
    refine ⟨hm,ho,fun nonce' w reply' f' hn' _ hw' => ?_⟩
    obtain rfl : nonce = nonce' := Option.some.inj (hn.symm.trans hn')
    simp [hw] at hw'
  | some w =>
    cases hf : f w with
    | false =>
      left
      refine ⟨by simpa [hf] using hm,by simpa [hf] using ho,fun nonce' w' reply' f' hn' hr' hw' => ?_⟩
      obtain rfl : nonce = nonce' := Option.some.inj (hn.symm.trans hn')
      obtain rfl : w = w' := Option.some.inj (hw.symm.trans hw')
      simp_all
    | true =>
      exact .inr ⟨w,hn,hw,⟨f,hr,hf⟩,by simp [hf,resolve,removeWaiter,hm],
        by simp [hf,resolve,removeWaiter,ho]⟩

theorem Ignores.of_eq (hm : n'.requestIdMap = n.requestIdMap) (ho : n'.oneshots = n.oneshots)
    (hr : ev.reply? = none) : Ignores n ev n' :=
  ⟨hm,ho,fun _ _ _ _ _ h _ => by simp [hr] at h⟩

theorem process_waiters (net : Network) (n : BaseNode) (ev : Event) :
    Ignores n ev (n.processIncomingEvent net ev).node ∨
    ∃ nonce w reply, Resolves n ev nonce w reply (n.processIncomingEvent net ev).node := by
  cases ev with
  | searchByIdResponse res =>
    rcases resolveWaiter_cases n (.searchByIdResponse res) rfl rfl rfl rfl with h | ⟨w,h⟩
    · exact .inl h
    · exact .inr ⟨_,w,_,h⟩
  | retMaxLevelOp res =>
    rcases resolveWaiter_cases n (.retMaxLevelOp res) rfl rfl rfl rfl with h | ⟨w,h⟩
    · exact .inl h
    · exact .inr ⟨_,w,_,h⟩
  | retNeighborOp res =>
    rcases resolveWaiter_cases n (.retNeighborOp res) rfl rfl rfl rfl with h | ⟨w,h⟩
    · exact .inl h
    · exact .inr ⟨_,w,_,h⟩
  | setLinkOp res =>
    obtain ⟨m,h,hm⟩ := handleSetLinkResponse_cases n res
    have hmap : m.requestIdMap = n.requestIdMap ∧ m.oneshots = n.oneshots := by
      rcases hm with ⟨rfl,-⟩ | ⟨c,-,-,hi⟩
      · exact ⟨rfl,rfl⟩
      · exact ⟨hi.requestIdMap,hi.oneshots⟩
    rw [processIncomingEvent,h]
    rcases resolveWaiter_cases n (.setLinkOp res) hmap.1 hmap.2 rfl rfl with h | ⟨w,h⟩
    · exact .inl h
    · exact .inr ⟨_,w,_,h⟩
  | searchByIdRequest req =>
    exact .inl (Ignores.of_eq (by simp [processIncomingEvent]) (by simp [processIncomingEvent]) rfl)
  | getMaxLevelOp req =>
    exact .inl (Ignores.of_eq (by simp [processIncomingEvent]) (by simp [processIncomingEvent]) rfl)
  | getNeighborOp req =>
    exact .inl (Ignores.of_eq (by simp [processIncomingEvent]) (by simp [processIncomingEvent]) rfl)
  | getLinkOp req =>
    left
    rcases handleGetLinkRequest_cases net n req with ⟨-,h⟩ | ⟨-,e,-,-,h⟩ | ⟨-,n',hi,h⟩
    · exact Ignores.of_eq (by simp [processIncomingEvent,h]) (by simp [processIncomingEvent,h]) rfl
    · exact Ignores.of_eq (by simp [processIncomingEvent,h]) (by simp [processIncomingEvent,h]) rfl
    · exact Ignores.of_eq (by simp [processIncomingEvent,h,hi.requestIdMap])
        (by simp [processIncomingEvent,h,hi.oneshots]) rfl
  | testMessage text => exact .inl (Ignores.of_eq rfl rfl rfl)
  | buddyOp req => exact .inl (Ignores.of_eq rfl rfl rfl)
  | checkNeighborOp req => exact .inl (Ignores.of_eq rfl rfl rfl)

end BaseNode

end SkipGraph
