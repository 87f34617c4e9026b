import SkipGraph.SortedList

/-!
# A request is one token

The relays of a request keep no state: each handler looks at its own table and answers,
passes the request on, or drops it. The run is recorded next to the system, so that what
became of a nonce can be counted: there is always one event in flight under it, or the
record of the reply's delivery, or the record of the drop, and never two of these.
-/

namespace SkipGraph

open Transition

/-- What the run has seen: a call sent a request, `try_link` linked the candidate of a link
request directly, `belongs_in_own_slot` made a node drop one, a reply was delivered. -/
inductive Record
  | sent (x : Identifier) (p : Packet)
  | installed (x : Identifier) (req : LinkReq)
  | dropped (x : Identifier) (req : LinkReq)
  | replied (p : Packet)
  deriving DecidableEq

namespace Record

def nonce? : Record → Option Nonce
  | sent _ p => p.event.nonce?
  | installed _ req => some req.nonce
  | dropped _ req => some req.nonce
  | replied p => p.event.nonce?

def isSent : Record → Bool
  | sent _ _ => true
  | _ => false

def isInstalled : Record → Bool
  | installed _ _ => true
  | _ => false

def isDropped : Record → Bool
  | dropped _ _ => true
  | _ => false

def isReplied : Record → Bool
  | replied _ => true
  | _ => false

/-- A search is sent at a level of the table. -/
def withinTable : Record → Bool
  | sent _ ⟨_,.searchByIdRequest req⟩ => decide (req.level < lookupTableLevels)
  | _ => true

end Record

def Event.isReply (ev : Event) : Bool := ev.reply?.isSome

/-- The requests of `send_search_by_id_req` and `send_link_request`. -/
def Event.isToken : Event → Bool
  | searchByIdRequest _ => true
  | getLinkOp _ => true
  | _ => false

namespace Sys

def handling (s : Sys) (p : Packet) : List Record :=
  match p.event with
  | .getLinkOp req =>
    if (s.node p.dest).belongsInOwnSlot req.level req.dir req.candidate then
      match (s.node p.dest).core.tryLink req.level req.dir req.candidate with
      | .ok (.linkedDirectly,_) => [.installed p.dest req]
      | _ => []
    else [.dropped p.dest req]
  | ev => if ev.isReply then [.replied p] else []

def records (s : Sys) : Action → List Record
  | .deliver i => (s.inflight[i]?.map s.handling).getD []
  | .lose _ => []
  | .call x a => (((s.node x).callStep reliable a).map fun r => r.2.map (.sent x)).getD []

end Sys

/-- A system with the record of its run. -/
structure Logged where
  sys : Sys
  log : List Record

namespace Logged

def step (c : Logged) (a : Action) : Option Logged :=
  (c.sys.step a).map fun t => ⟨t,c.log++c.sys.records a⟩

def flying (f : Event → Bool) (c : Logged) (nonce : Nonce) : ℕ :=
  c.sys.inflight.countP fun q => f q.event && decide (q.event.nonce? = some nonce)

def recorded (f : Record → Bool) (c : Logged) (nonce : Nonce) : ℕ :=
  c.log.countP fun r => f r && decide (r.nonce? = some nonce)

/-- Nothing is lost, no nonce is drawn twice, and searches are sent at levels of the table. -/
def Tidy (c : Logged) (a : Action) : Prop :=
  a.loses = false ∧ (((c.log++c.sys.records a).filter Record.isSent).map Record.nonce?).Nodup ∧
    ∀ r ∈ c.sys.records a, r.withinTable = true

instance (c : Logged) (a : Action) : Decidable (c.Tidy a) := inferInstanceAs (Decidable (_ ∧ _))

end Logged

/-- The event `q` carries on request `ev` of node `x`: it is the request with the fields that
`x` gave it, a search at some level of the table, or it is the reply, addressed to `x`. The
reply to a link request names a node that installed the candidate. -/
inductive Follows (identity : Identifier → Identity) (log : List Record) (x : Identifier) :
    Event → Packet → Prop
  | search (req : IdSearchReq) (v : Identifier) (l : ℕ) (hl : l < lookupTableLevels) :
      Follows identity log x (.searchByIdRequest req)
        ⟨v,.searchByIdRequest { req with level := l }⟩
  | found (req : IdSearchReq) (v : Identifier) :
      Follows identity log x (.searchByIdRequest req)
        ⟨x,.searchByIdResponse ⟨req.nonce,req.target,0,v⟩⟩
  | link (req : LinkReq) (v : Identifier) :
      Follows identity log x (.getLinkOp req) ⟨v,.getLinkOp req⟩
  | linked (req : LinkReq) (v : Identifier) (h : .installed v req ∈ log) :
      Follows identity log x (.getLinkOp req)
        ⟨x,.setLinkOp ⟨req.nonce,req.dir.opposite,req.level,some (identity v)⟩⟩
  | maxLevel (req : MaxLevelReq) (v : Identifier) :
      Follows identity log x (.getMaxLevelOp req) ⟨v,.getMaxLevelOp req⟩
  | level (req : MaxLevelReq) (l : ℕ) :
      Follows identity log x (.getMaxLevelOp req) ⟨x,.retMaxLevelOp ⟨req.nonce,l⟩⟩
  | neighbor (req : NeighborReq) (v : Identifier) :
      Follows identity log x (.getNeighborOp req) ⟨v,.getNeighborOp req⟩
  | slot (req : NeighborReq) (e : Option Identity) :
      Follows identity log x (.getNeighborOp req)
        ⟨x,.retNeighborOp ⟨req.nonce,req.level,req.direction,e⟩⟩

def Event.IssuedBy (ev : Event) (c : Identity) : Prop :=
  match ev with
  | .searchByIdRequest req => req.origin = c.id
  | .getMaxLevelOp req => req.origin = c.id
  | .getNeighborOp req => req.origin = c.id
  | .getLinkOp req => req.candidate = c
  | _ => False

variable {identity : Identifier → Identity} {log log' : List Record} {x : Identifier} {ev : Event}
  {q : Packet}

theorem Follows.mono (h : Follows identity log x ev q) (hl : log ⊆ log') :
    Follows identity log' x ev q := by
  cases h with
  | search req v l h => exact .search req v l h
  | found req v => exact .found req v
  | link req v => exact .link req v
  | linked req v h => exact .linked req v (hl h)
  | maxLevel req v => exact .maxLevel req v
  | level req l => exact .level req l
  | neighbor req v => exact .neighbor req v
  | slot req e => exact .slot req e

theorem Follows.nonce_eq (h : Follows identity log x ev q) : q.event.nonce? = ev.nonce? := by
  cases h <;> rfl

/-- A record of what became of request `ev` of node `x`. -/
def Record.Concerns (identity : Identifier → Identity) (log : List Record) (x : Identifier)
    (ev : Event) : Record → Prop
  | sent _ _ => False
  | installed _ req => ev = .getLinkOp req
  | dropped _ req => ev = .getLinkOp req
  | replied q => Follows identity log x ev q

theorem Record.Concerns.mono {r : Record} (h : r.Concerns identity log x ev) (hl : log ⊆ log') :
    r.Concerns identity log' x ev := by
  cases r with
  | replied q => exact Follows.mono h hl
  | _ => exact h

theorem Record.Concerns.nonce_eq {r : Record} (h : r.Concerns identity log x ev) :
    r.nonce? = ev.nonce? := by
  cases r with
  | sent y p => exact h.elim
  | replied q => exact Follows.nonce_eq h
  | _ => rw [show ev = _ from h]; rfl

/-- Handling the event `p` that carries on `ev`: what is sent and recorded carries on `ev`,
and a request of a token kind leaves one event or settles, never both. -/
structure Passed (identity : Identifier → Identity) (log : List Record) (x : Identifier)
    (ev : Event) (p : Packet) (new : List Packet) (recs : List Record) : Prop where
  follows : ∀ q ∈ new, Follows identity (log++recs) x ev q
  concerns : ∀ r ∈ recs, r.Concerns identity log x ev
  balance : ev.isToken = true →
    new.length + recs.countP (fun r => r.isReplied || r.isDropped) = 1
  installs : recs.countP Record.isInstalled + [p].countP (·.event.isReply) ≤
    new.countP (·.event.isReply) + recs.countP Record.isReplied

theorem Passed.unsent {p : Packet} {new : List Packet} {recs : List Record} {r : Record}
    (h : Passed identity log x ev p new recs) (hr : r ∈ recs) : r.isSent = false := by
  cases r with
  | sent y q => exact (h.concerns _ hr).elim
  | _ => rfl

namespace Sys

variable {s : Sys} {p : Packet} {v : Identifier}

theorem handling_link (s : Sys) (v : Identifier) (req : LinkReq) :
    (s.handling ⟨v,.getLinkOp req⟩ = [.dropped v req] ∧
      (s.handle ⟨v,.getLinkOp req⟩).sent = []) ∨
    (s.handling ⟨v,.getLinkOp req⟩ = [] ∧
      ∃ w, (s.handle ⟨v,.getLinkOp req⟩).sent = [⟨w,.getLinkOp req⟩]) ∨
    (s.handling ⟨v,.getLinkOp req⟩ = [.installed v req] ∧
      (s.handle ⟨v,.getLinkOp req⟩).sent = [⟨req.candidate.id,
        .setLinkOp ⟨req.nonce,req.dir.opposite,req.level,some (s.identity v)⟩⟩]) := by
  simp only [handling,handle,BaseNode.processIncomingEvent,BaseNode.handleGetLinkRequest]
  cases hb : (s.node v).belongsInOwnSlot req.level req.dir req.candidate with
  | false => simp
  | true =>
    have hl := (BaseNode.belongsInOwnSlot_iff.mp hb).1
    right
    rcases (s.node v).core.lt.tryLink_cases req.level req.dir req.candidate hl with
      ⟨e,-,-,h⟩ | ⟨lt,h,-,-⟩
    · simp [BaseCore.tryLink,h,Except.map]
    · simp [BaseCore.tryLink,h,Except.map,identity]

theorem passed_reply (hm : p.dest ∈ s.members) (hs : s.Honest) (hp : p.event.isReply = true)
    (hf : Follows s.identity log x ev p) :
    Passed s.identity log x ev p (s.handle p).sent (s.handling p) := by
  have hsent : (s.handle p).sent = [] := by
    rcases hs.sided.handle_cases hm with ⟨h,-⟩ | ⟨q,-,-,hr⟩
    · exact h
    · obtain ⟨dest,pe⟩ := p
      cases hr <;> simp [Event.isReply,Event.reply?] at hp
  have hrec : s.handling p = [.replied p] := by
    obtain ⟨dest,pe⟩ := p
    cases pe <;> simp_all [handling,Event.isReply,Event.reply?]
  rw [hsent,hrec]
  exact ⟨by simp,by simpa [Record.Concerns] using hf,by simp [Record.isReplied],
    by simp [Record.isInstalled,Record.isReplied,hp]⟩

theorem passed_on (hp : p.event.isReply = false) (hf : Follows identity log x ev q) :
    Passed identity log x ev p [q] [] :=
  ⟨by simpa using hf,by simp,by simp,by simp [hp]⟩

theorem passed (hs : s.Honest) (hm : p.dest ∈ s.members) (hi : ev.IssuedBy (s.identity x))
    (hf : Follows s.identity log x ev p) :
    Passed s.identity log x ev p (s.handle p).sent (s.handling p) := by
  cases hf with
  | found req v => exact passed_reply hm hs rfl (.found req v)
  | linked req v h => exact passed_reply hm hs rfl (.linked req v h)
  | level req l => exact passed_reply hm hs rfl (.level req l)
  | slot req e => exact passed_reply hm hs rfl (.slot req e)
  | search req v l hl =>
    have ho : req.origin = x := by simpa using show req.origin = (s.identity x).id from hi
    have hrec : s.handling ⟨v,.searchByIdRequest { req with level := l }⟩ = [] := rfl
    rcases hs.sided.handle_cases hm with ⟨-,ha⟩ | ⟨q,hq,-,hr⟩
    · exact absurd hl (Nat.not_lt.mpr ha)
    · rw [hrec,hq]
      cases hr with
      | answer _ _ _ => exact passed_on rfl (by simpa [ho] using .found req _)
      | relay _ l' e _ hle _ _ _ =>
        exact passed_on rfl (by simpa using .search req e.id l' (lt_of_le_of_lt hle hl))
  | link req v =>
    have hc : req.candidate.id = x := by rw [show req.candidate = s.identity x from hi]; simp
    rcases s.handling_link v req with ⟨hrec,hq⟩ | ⟨hrec,w,hq⟩ | ⟨hrec,hq⟩
    · rw [hrec,hq]
      exact ⟨by simp,by simp [Record.Concerns],by simp [Record.isDropped,Record.isReplied],
        by simp [Record.isInstalled,Record.isReplied,Event.isReply,Event.reply?]⟩
    · rw [hrec,hq]
      exact passed_on rfl (.link req w)
    · rw [hrec,hq,hc]
      refine ⟨?_,by simp [Record.Concerns],by simp [Record.isDropped,Record.isReplied],
        by simp [Record.isInstalled,Record.isReplied,Event.isReply,Event.reply?]⟩
      simpa using .linked req v (by simp)
  | maxLevel req v =>
    have ho : req.origin = x := by simpa using show req.origin = (s.identity x).id from hi
    have hrec : s.handling ⟨v,.getMaxLevelOp req⟩ = [] := rfl
    rcases hs.sided.handle_cases hm with ⟨-,ha⟩ | ⟨q,hq,-,hr⟩
    · exact ha.elim
    · rw [hrec,hq]
      cases hr with
      | maxLevel _ => exact passed_on rfl (by simpa [ho] using .level req _)
  | neighbor req v =>
    have ho : req.origin = x := by simpa using show req.origin = (s.identity x).id from hi
    have hrec : s.handling ⟨v,.getNeighborOp req⟩ = [] := rfl
    rcases hs.sided.handle_cases hm with ⟨hq,-⟩ | ⟨q,hq,-,hr⟩
    · rw [hrec,hq]
      exact ⟨by simp,by simp,by simp [Event.isToken],by simp [Event.isReply,Event.reply?]⟩
    · rw [hrec,hq]
      cases hr with
      | neighbor _ _ => exact passed_on rfl (by simpa [ho] using .slot req _)

end Sys

theorem countP_keyed {α κ : Type*} [DecidableEq κ] {xs : List α} {key : α → κ} {k : κ}
    (h : ∀ a ∈ xs, key a = k) (f : α → Bool) (m : κ) :
    xs.countP (fun a => f a && decide (key a = m)) = if k = m then xs.countP f else 0 := by
  split
  · rename_i hk
    refine List.countP_congr fun a ha => ?_
    simp [h a ha,hk]
  · rename_i hk
    refine List.countP_eq_zero.mpr fun a ha => ?_
    simp [h a ha,hk]

theorem countP_split {α : Type*} (xs : List α) {f g k : α → Bool}
    (h : ∀ a, (k a).toNat = (f a).toNat + (g a).toNat) :
    xs.countP k = xs.countP f + xs.countP g := by
  induction xs with
  | nil => rfl
  | cons a xs ih =>
    have ha := h a
    simp only [List.countP_cons,ih]
    revert ha
    cases k a <;> cases f a <;> cases g a <;> simp <;> omega

namespace Logged

variable {c c' : Logged} {a : Action} {y : Identifier} {p p' : Packet} {nonce : Nonce}

/-- The accounts of a run: every event in flight and every record belongs to one request, a
request of a token kind has exactly one of these, and every installation has its reply. -/
structure Ledger (c : Logged) : Prop where
  honest : c.sys.Honest
  distinct : ((c.log.filter Record.isSent).map Record.nonce?).Nodup
  issued : ∀ x p, .sent x p ∈ c.log → p.event.IssuedBy (c.sys.identity x)
  inflight : ∀ q ∈ c.sys.inflight, ∃ x p, .sent x p ∈ c.log ∧
    Follows c.sys.identity c.log x p.event q
  settled : ∀ r ∈ c.log, r.isSent = false → ∃ x p, .sent x p ∈ c.log ∧
    r.Concerns c.sys.identity c.log x p.event
  one : ∀ x p nonce, .sent x p ∈ c.log → p.event.isToken = true → p.event.nonce? = some nonce →
    c.flying (fun _ => true) nonce + c.recorded (fun r => r.isReplied || r.isDropped) nonce = 1
  installs : ∀ nonce, c.recorded Record.isInstalled nonce ≤
    c.flying Event.isReply nonce + c.recorded Record.isReplied nonce

theorem Ledger.sent_unique (h : c.Ledger) (hp : .sent x p ∈ c.log) (hp' : .sent y p' ∈ c.log)
    (hn : p.event.nonce? = p'.event.nonce?) : x = y ∧ p = p' := by
  have hh : Record.sent x p = .sent y p' :=
    List.inj_on_of_nodup_map h.distinct (List.mem_filter.mpr ⟨hp,rfl⟩)
      (List.mem_filter.mpr ⟨hp',rfl⟩) hn
  simpa using hh

theorem Ledger.unused (h : c.Ledger)
    (hn : ∀ y p, .sent y p ∈ c.log → p.event.nonce? ≠ some nonce) (f : Event → Bool) :
    c.flying f nonce = 0 ∧ c.recorded (fun r => r.isReplied || r.isDropped) nonce = 0 := by
  constructor
  · refine List.countP_eq_zero.mpr fun q hq => ?_
    obtain ⟨y,p,hp,hf⟩ := h.inflight q hq
    have hne := hn y p hp
    rw [← hf.nonce_eq] at hne
    simp [hne]
  · refine List.countP_eq_zero.mpr fun r hr => ?_
    cases hsent : r.isSent with
    | true => cases r <;> simp_all [Record.isSent,Record.isReplied,Record.isDropped]
    | false =>
      obtain ⟨y,p,hp,hf⟩ := h.settled r hr hsent
      have hne := hn y p hp
      rw [← hf.nonce_eq] at hne
      simp [hne]

theorem flying_deliver {i : ℕ} {t : Sys} (hd : Sys.Delivered c.sys i p t) {k : Option Nonce}
    (hp : p.event.nonce? = k) (hk : ∀ q ∈ (c.sys.handle p).sent, q.event.nonce? = k)
    (log : List Record) (f : Event → Bool) (nonce : Nonce) :
    flying f ⟨t,log⟩ nonce + (if k = some nonce then [p].countP (f ·.event) else 0) =
      c.flying f nonce +
        if k = some nonce then (c.sys.handle p).sent.countP (f ·.event) else 0 := by
  obtain ⟨hlt,hget⟩ := List.getElem?_eq_some_iff.mp hd.get
  have hperm : c.sys.inflight.Perm (p::c.sys.inflight.eraseIdx i) := by
    rw [← hget]
    exact (List.getElem_cons_eraseIdx_perm hlt).symm
  have hcount := hperm.countP_eq fun q => f q.event && decide (q.event.nonce? = some nonce)
  rw [← List.singleton_append,List.countP_append] at hcount
  have hp' : ∀ q ∈ [p], q.event.nonce? = k := by simpa using hp
  rw [← countP_keyed hp' (fun q => f q.event),← countP_keyed hk (fun q => f q.event)]
  simp only [flying,hd.inflight,List.countP_append,hcount]
  omega

theorem recorded_append {recs : List Record} {k : Option Nonce} (hk : ∀ r ∈ recs, r.nonce? = k)
    (t : Sys) (f : Record → Bool) (nonce : Nonce) :
    recorded f ⟨t,c.log++recs⟩ nonce =
      c.recorded f nonce + if k = some nonce then recs.countP f else 0 := by
  simp only [recorded,List.countP_append,countP_keyed hk]

theorem step_eq (h : c.step a = some c') :
    ∃ t, c.sys.step a = some t ∧ c' = ⟨t,c.log++c.sys.records a⟩ := by
  obtain ⟨t,ht,rfl⟩ := Option.map_eq_some_iff.mp h
  exact ⟨t,ht,rfl⟩

theorem Ledger.deliver (h : c.Ledger) {i : ℕ} {t : Sys} (hs : c.sys.step (.deliver i) = some t)
    (hd : Sys.Delivered c.sys i p t) : Ledger ⟨t,c.log++c.sys.handling p⟩ := by
  have hid : t.identity = c.sys.identity := funext (Sys.identity_step hs)
  obtain ⟨x₀,p₀,hp₀,hf⟩ := h.inflight p (List.mem_of_getElem? hd.get)
  have hpass := Sys.passed h.honest hd.mem (h.issued x₀ p₀ hp₀) hf
  have hsub : c.log ⊆ c.log++c.sys.handling p := fun r hr => List.mem_append_left _ hr
  have hold : ∀ y q, .sent y q ∈ c.log++c.sys.handling p → .sent y q ∈ c.log := by
    intro y q hq
    rcases List.mem_append.mp hq with hq | hq
    · exact hq
    · exact absurd (hpass.unsent hq) (by simp [Record.isSent])
  have hfly := flying_deliver hd hf.nonce_eq (fun q hq => (hpass.follows q hq).nonce_eq)
    (c.log++c.sys.handling p)
  have htally := recorded_append (c := c) (fun r hr => (hpass.concerns r hr).nonce_eq) t
  refine ⟨h.honest.step hs,?_,fun y q hq => ?_,fun q hq => ?_,fun r hr hn => ?_,
    fun y q nonce hq htok hn => ?_,fun nonce => ?_⟩
  · have hnil : (c.sys.handling p).filter Record.isSent = [] :=
      List.filter_eq_nil_iff.mpr fun r hr => by simp [hpass.unsent hr]
    rw [List.filter_append,hnil,List.append_nil]
    exact h.distinct
  · rw [hid]
    exact h.issued y q (hold y q hq)
  · simp only [hd.inflight] at hq
    rw [hid]
    rcases List.mem_append.mp hq with hq | hq
    · obtain ⟨y,p',hp',hf'⟩ := h.inflight q (List.mem_of_mem_eraseIdx hq)
      exact ⟨y,p',hsub hp',hf'.mono hsub⟩
    · exact ⟨x₀,p₀,hsub hp₀,hpass.follows q hq⟩
  · rw [hid]
    rcases List.mem_append.mp hr with hr | hr
    · obtain ⟨y,p',hp',hc⟩ := h.settled r hr hn
      exact ⟨y,p',hsub hp',hc.mono hsub⟩
    · exact ⟨x₀,p₀,hsub hp₀,(hpass.concerns r hr).mono hsub⟩
  · have hone := h.one y q nonce (hold y q hq) htok hn
    have hf' := hfly (fun _ => true) nonce
    rw [htally]
    by_cases hk : p₀.event.nonce? = some nonce
    · obtain ⟨rfl,rfl⟩ := h.sent_unique (hold y q hq) hp₀ (hn.trans hk.symm)
      have hb := hpass.balance htok
      simp only [hk,if_true,List.countP_true,List.length_singleton] at hf' ⊢
      omega
    · simp only [hk,if_false] at hf' ⊢
      omega
  · have hle := h.installs nonce
    have hf' := hfly Event.isReply nonce
    rw [htally,htally]
    by_cases hk : p₀.event.nonce? = some nonce
    · have hb := hpass.installs
      simp only [hk,if_true] at hf' ⊢
      omega
    · simp only [hk,if_false] at hf' ⊢
      omega

theorem issuedBy_packet {s : Sys} (rt : RoundTrip) :
    (rt.packet (s.node x)).event.IssuedBy (s.identity x) := by
  obtain ⟨request,nonce,rx⟩ := rt
  cases request <;> simp [RoundTrip.packet,Request.event,Event.IssuedBy,Sys.identity,
    BaseNode.selfIdentity,BaseNode.id]

theorem follows_packet {n : BaseNode} (rt : RoundTrip)
    (hl : (Record.sent x (rt.packet n)).withinTable = true) :
    Follows identity log x (rt.packet n).event (rt.packet n) := by
  obtain ⟨request,nonce,rx⟩ := rt
  cases request with
  | maxLevel introducer => exact .maxLevel _ _
  | search dest target level direction =>
    exact .search ⟨nonce,target,n.id,level,direction⟩ dest level (of_decide_eq_true hl)
  | neighbor src direction level => exact .neighbor _ _
  | link dest dir level => exact .link _ _

theorem mem_sent_append {ps : List Packet}
    (h : .sent y p ∈ c.log++ps.map (Record.sent x)) : .sent y p ∈ c.log ∨ y = x ∧ p ∈ ps := by
  rcases List.mem_append.mp h with h | h
  · exact .inl h
  · obtain ⟨q,hq,he⟩ := List.mem_map.mp h
    obtain ⟨rfl,rfl⟩ := by simpa using he
    exact .inr ⟨rfl,hq⟩

theorem fresh_of_nodup {ps : List Packet}
    (h : (((c.log++ps.map (Record.sent x)).filter Record.isSent).map Record.nonce?).Nodup) :
    (ps.map (·.event.nonce?)).Nodup ∧
    ∀ q ∈ ps, ∀ y p, .sent y p ∈ c.log → p.event.nonce? ≠ q.event.nonce? := by
  have hsplit : ((c.log++ps.map (Record.sent x)).filter Record.isSent).map Record.nonce? =
      (c.log.filter Record.isSent).map Record.nonce? ++ ps.map (·.event.nonce?) := by
    simp [List.filter_append,List.filter_map,Function.comp_def,Record.isSent,Record.nonce?]
  rw [hsplit] at h
  obtain ⟨-,hnew,hdisj⟩ := List.nodup_append.mp h
  refine ⟨hnew,fun q hq y p hp => ?_⟩
  have hm : p.event.nonce? ∈ (c.log.filter Record.isSent).map Record.nonce? :=
    List.mem_map.mpr ⟨_,List.mem_filter.mpr ⟨hp,rfl⟩,rfl⟩
  exact hdisj _ hm _ (List.mem_map_of_mem hq)

theorem recorded_sent (t : Sys) (ps : List Packet) {f : Record → Bool}
    (hf : ∀ q, f (.sent x q) = false) (nonce : Nonce) :
    recorded f ⟨t,c.log++ps.map (Record.sent x)⟩ nonce = c.recorded f nonce := by
  have hz : (ps.map (Record.sent x)).countP
      (fun r => f r && decide (r.nonce? = some nonce)) = 0 := by
    simp [List.countP_eq_zero,hf]
  simp only [recorded,List.countP_append,hz,Nat.add_zero]

theorem Ledger.call (h : c.Ledger) {ca : CallAction} {r : BaseNode × List Packet} {t : Sys}
    (hs : c.sys.step (.call x ca) = some t) (hc : Sys.Called c.sys x ca r t)
    (hd : (((c.log++r.2.map (Record.sent x)).filter Record.isSent).map Record.nonce?).Nodup)
    (hl : ∀ q ∈ r.2, (Record.sent x q).withinTable = true) :
    Ledger ⟨t,c.log++r.2.map (Record.sent x)⟩ := by
  have hid : t.identity = c.sys.identity := funext (Sys.identity_step hs)
  have hsub : c.log ⊆ c.log++r.2.map (Record.sent x) := fun r hr => List.mem_append_left _ hr
  obtain ⟨hnew,hfresh⟩ := fresh_of_nodup hd
  have hfly : ∀ (f : Event → Bool) nonce, flying f ⟨t,c.log++r.2.map (Record.sent x)⟩ nonce =
      c.flying f nonce +
        r.2.countP (fun q => f q.event && decide (q.event.nonce? = some nonce)) := by
    intro f nonce
    simp only [flying,hc.inflight,List.countP_append]
  refine ⟨h.honest.step hs,hd,fun y q hq => ?_,fun q hq => ?_,fun r' hr' hn => ?_,
    fun y q nonce hq htok hn => ?_,fun nonce => ?_⟩
  · rw [hid]
    rcases mem_sent_append hq with hold | ⟨rfl,hmem⟩
    · exact h.issued y q hold
    · obtain ⟨rt,rfl⟩ := Sys.callStep_sent hc.step hmem
      exact issuedBy_packet rt
  · simp only [hc.inflight] at hq
    rw [hid]
    rcases List.mem_append.mp hq with hq | hq
    · obtain ⟨y,p,hp,hf⟩ := h.inflight q hq
      exact ⟨y,p,hsub hp,hf.mono hsub⟩
    · refine ⟨x,q,List.mem_append_right _ (List.mem_map_of_mem hq),?_⟩
      have hw := hl q hq
      obtain ⟨rt,rfl⟩ := Sys.callStep_sent hc.step hq
      exact follows_packet rt hw
  · rw [hid]
    rcases List.mem_append.mp hr' with hr' | hr'
    · obtain ⟨y,p,hp,hf⟩ := h.settled r' hr' hn
      exact ⟨y,p,hsub hp,hf.mono hsub⟩
    · obtain ⟨q,-,rfl⟩ := List.mem_map.mp hr'
      simp [Record.isSent] at hn
  · rw [hfly,recorded_sent t r.2 (fun q => rfl)]
    rcases mem_sent_append hq with hold | ⟨rfl,hmem⟩
    · have hz : r.2.countP (fun p => true && decide (p.event.nonce? = some nonce)) = 0 := by
        refine List.countP_eq_zero.mpr fun p hp => ?_
        have hne := hfresh p hp y q hold
        rw [hn] at hne
        simpa using hne.symm
      rw [hz]
      exact h.one y q nonce hold htok hn
    · obtain ⟨hzf,hzr⟩ := h.unused (fun z p hp => hn ▸ hfresh q hmem z p hp) fun _ => true
      have hone : r.2.countP (fun p => true && decide (p.event.nonce? = some nonce)) = 1 := by
        have hcount := List.count_eq_one_of_mem hnew (List.mem_map_of_mem hmem)
        rw [hn,List.count,List.countP_map] at hcount
        simpa [Function.comp_def,beq_eq_decide] using hcount
      rw [hzf,hzr,hone]
  · rw [hfly,recorded_sent t r.2 (fun q => rfl),recorded_sent t r.2 (fun q => rfl)]
    have := h.installs nonce
    omega

theorem Ledger.step (h : c.Ledger) (ht : c.Tidy a) (hs : c.step a = some c') : c'.Ledger := by
  obtain ⟨t,hstep,rfl⟩ := step_eq hs
  obtain ⟨hlose,hd,hl⟩ := ht
  rcases Sys.step_cases hstep with ⟨i,p,rfl,hdel⟩ | ⟨i,rfl,-⟩ | ⟨x,ca,r,rfl,hc⟩
  · have hrec : c.sys.records (.deliver i) = c.sys.handling p := by simp [Sys.records,hdel.get]
    rw [hrec]
    exact h.deliver hstep hdel
  · simp [Action.loses] at hlose
  · have hrec : c.sys.records (.call x ca) = r.2.map (Record.sent x) := by simp [Sys.records,hc.step]
    rw [hrec] at hd hl ⊢
    exact h.call hstep hc hd fun q hq => hl _ (List.mem_map_of_mem hq)

theorem Ledger.run {s : Sys} {as : List Action} (hs : s.Honest) (hi : s.inflight = [])
    (h : Trace Logged.step Tidy ⟨s,[]⟩ as c) : c.Ledger := by
  refine h.invariant (P := Ledger) ?_ fun _ _ _ hl ht hstep => hl.step ht hstep
  exact ⟨hs,by simp,by simp,by simp [hi],by simp,by simp,by simp [recorded]⟩

theorem flying_split (c : Logged) (nonce : Nonce) : c.flying (fun _ => true) nonce =
    c.flying (!·.isReply) nonce + c.flying Event.isReply nonce := by
  refine countP_split _ fun q => ?_
  cases hr : q.event.isReply <;> cases decide (q.event.nonce? = some nonce) <;> simp [hr]

theorem recorded_split (c : Logged) (nonce : Nonce) :
    c.recorded (fun r => r.isReplied || r.isDropped) nonce =
      c.recorded Record.isReplied nonce + c.recorded Record.isDropped nonce := by
  refine countP_split _ fun r => ?_
  cases hd : decide (r.nonce? = some nonce) <;> cases r <;> simp [Record.isReplied,Record.isDropped]

/-- In every run without losses and without repeated nonces, each request that
`send_search_by_id_req` or `send_link_request` sent is one token: it is one request in
flight, or one reply in flight, or its reply has been delivered, or, for a link request, it
was dropped. At most one node installs its candidate, and whatever is in flight under its
nonce carries on what was asked, with the reply addressed to the node that asked. -/
theorem request_is_token {s : Sys} {as : List Action} (hs : s.Honest) (hi : s.inflight = [])
    (h : Trace Logged.step Tidy ⟨s,[]⟩ as c) (hp : .sent x p ∈ c.log)
    (ht : p.event.isToken = true) (hn : p.event.nonce? = some nonce) :
    c.flying (!·.isReply) nonce + c.flying Event.isReply nonce +
      c.recorded Record.isReplied nonce + c.recorded Record.isDropped nonce = 1 ∧
    (∀ req, p.event = .searchByIdRequest req → c.recorded Record.isDropped nonce = 0) ∧
    c.recorded Record.isInstalled nonce ≤ 1 ∧
    p.event.IssuedBy (c.sys.identity x) ∧
    ∀ q, q ∈ c.sys.inflight ∨ .replied q ∈ c.log → q.event.nonce? = some nonce →
      Follows c.sys.identity c.log x p.event q := by
  have hl := Ledger.run hs hi h
  have hone := hl.one x p nonce hp ht hn
  rw [flying_split,recorded_split] at hone
  have hinst := hl.installs nonce
  refine ⟨by omega,fun req hreq => ?_,by omega,hl.issued x p hp,fun q hq hqn => ?_⟩
  · refine List.countP_eq_zero.mpr fun r hr => ?_
    cases r with
    | dropped v lreq =>
      obtain ⟨y,p',hp',hc⟩ := hl.settled _ hr rfl
      have hne : p'.event.nonce? ≠ p.event.nonce? := fun he => by
        obtain ⟨-,rfl⟩ := hl.sent_unique hp' hp he
        have hh := hreq.symm.trans hc
        simp at hh
      rw [← hc.nonce_eq,hn] at hne
      simpa [Record.isDropped] using hne
    | _ => simp [Record.isDropped]
  · have hfrom : ∃ y p', .sent y p' ∈ c.log ∧ Follows c.sys.identity c.log y p'.event q := by
      rcases hq with hq | hq
      · exact hl.inflight q hq
      · exact hl.settled _ hq rfl
    obtain ⟨y,p',hp',hf⟩ := hfrom
    obtain ⟨rfl,rfl⟩ := hl.sent_unique hp' hp (hf.nonce_eq.symm.trans (hqn.trans hn.symm))
    exact hf

theorem request_is_token_past_three :
    let p : Packet := ⟨.ofByte 1,.getLinkOp ⟨⟨7⟩,Sys.rowIdentity (.ofByte 5),.right,0⟩⟩
    ∃ (as : List Action) (c : Logged),
      Trace Logged.step Tidy ⟨Sys.row [.ofByte 1,.ofByte 3] [.ofByte 5],[]⟩ as c ∧
      .sent (.ofByte 5) p ∈ c.log ∧ c.flying Event.isReply ⟨7⟩ = 1 ∧
      c.recorded Record.isInstalled ⟨7⟩ = 1 ∧
      c.flying (!·.isReply) ⟨7⟩ = 0 ∧ c.recorded Record.isDropped ⟨7⟩ = 0 := by
  intro p
  obtain ⟨c,htr,hc⟩ := exists_trace_of_runWhile Logged.step (fun c a => decide (c.Tidy a))
    ⟨Sys.row [.ofByte 1,.ofByte 3] [.ofByte 5],[]⟩
    [.call (.ofByte 5) (.sendLinkRequest (.ofByte 1) .right 0 ⟨7⟩),.deliver 0,.deliver 0]
    (fun c => decide (.sent (.ofByte 5) p ∈ c.log ∧ c.flying Event.isReply ⟨7⟩ = 1 ∧
      c.recorded Record.isInstalled ⟨7⟩ = 1)) (by decide +kernel)
  obtain ⟨hp,hfly,hinst⟩ := of_decide_eq_true hc
  have htr' : Trace Logged.step Tidy _ _ c := htr.mono fun _ _ ho => of_decide_eq_true ho
  obtain ⟨hone,-⟩ := request_is_token (Sys.honest_row _ _) rfl htr' hp rfl
    (show p.event.nonce? = some ⟨7⟩ from rfl)
  exact ⟨_,c,htr',hp,hfly,hinst,by omega,by omega⟩

end Logged

end SkipGraph
