import SkipGraph.RoundTrips
import SkipGraph.SortedList

/-!
# Joins in progress

`JoinInv` follows every join of a run through its search, its neighbour query and its
link requests. What it promises about the nodes that a join meets is left open in a
`JoinSpec`; `Serves` states what a step must guarantee for the promises to be kept.
-/

namespace SkipGraph

open BaseNode

/-- Promises about the joins of node `u` in direction `d`: where its search may be
delivered, which anchor may answer it, and what the anchor may name as neighbour.
`joiners` are the nodes whose returned calls are recorded. -/
structure JoinSpec where
  joiners : Identifier → Prop
  hop : Identifier → Direction → Identifier → Prop
  anchor : Identifier → Direction → Identifier → Prop
  neighbor : Identifier → Direction → Identifier → Option Identity → Prop

def Event.search? : Event → Option IdSearchReq
  | searchByIdRequest req => some req
  | _ => none

def Event.query? : Event → Option NeighborReq
  | getNeighborOp req => some req
  | _ => none

def Action.joins : Action → Bool
  | call _ a => !a.plain
  | _ => true

namespace Sys

variable {s t : Sys} {a : Action} {u dest : Identifier} {rt : RoundTrip} {dir : Direction}
  {spec : JoinSpec} {p q : Packet} {c : Call}

/-- Node `u` has been linked on the side of `dest`, which asked it to be `dir` of there. -/
def LinkDone (s : Sys) (u dest : Identifier) (dir : Direction) : Prop :=
  dir.lt dest u ∧ ∃ e, s.entry u 0 dir.opposite = some e

/-- The events that may carry the nonce of a pending request of the node `self`. -/
def PacketOk (spec : JoinSpec) (self : Identity) (nonce : Nonce) : Request → Packet → Prop
  | .search _ _ level₀ d, p =>
    (∃ level ≤ level₀, p.event = .searchByIdRequest ⟨nonce,self.id,self.id,level,d⟩ ∧
      spec.hop self.id d p.dest) ∨
    ∃ res, p = ⟨self.id,.searchByIdResponse res⟩ ∧ res.nonce = nonce ∧
      spec.anchor self.id d res.result
  | .neighbor anchor d _, p =>
    p = ⟨anchor,.getNeighborOp ⟨nonce,self.id,0,d⟩⟩ ∨
    ∃ q, p = ⟨self.id,.retNeighborOp ⟨nonce,0,d,q⟩⟩ ∧ spec.neighbor self.id d anchor q
  | .link dest dir _, p =>
    p = ⟨dest,.getLinkOp ⟨nonce,self,dir,0⟩⟩ ∨ dir.lt dest self.id ∧
      ((∃ v, dir.lt v self.id ∧ p = ⟨v,.getLinkOp ⟨nonce,self,dir,0⟩⟩) ∨
        ∃ y : Identity, dir.lt y.id self.id ∧
          p = ⟨self.id,.setLinkOp ⟨nonce,dir.opposite,0,some y⟩⟩)
  | .maxLevel _, _ => True

/-- The replies that may wait in the channel of a pending request of `u`. -/
def ReplyOk (s : Sys) (spec : JoinSpec) (u : Identifier) : Request → Reply → Prop
  | .search _ _ _ d, .search res => spec.anchor u d res.result
  | .neighbor anchor d _, .neighbor res => spec.neighbor u d anchor res.neighbor
  | .link dest dir _, .link _ => s.LinkDone u dest dir
  | _, _ => True

def FutureOk (s : Sys) (u dest : Identifier) (dir : Direction) : LinkFuture → Prop
  | .waiting rt => rt.request = .link dest dir 0
  | .finished (.ok _) => s.LinkDone u dest dir
  | .finished (.error _) => True

/-- The second link future exists exactly when the neighbour query named a node. -/
def QueryOk (s : Sys) (u : Identifier) (d : Direction) :
    Option Identity → Option LinkFuture → Prop
  | some q, some f => s.FutureOk u q.id d.opposite f
  | none, none => True
  | _, _ => False

def Joined (s : Sys) (spec : JoinSpec) (u : Identifier) : Prop :=
  ∃ d anchor q, spec.anchor u d anchor ∧ spec.neighbor u d anchor q ∧
    s.LinkDone u anchor d ∧ ∀ e, q = some e → s.LinkDone u e.id d.opposite

def CallOk (s : Sys) (spec : JoinSpec) (u : Identifier) : Call → Prop
  | .single _ => False
  | .joinSearch d rt => ∃ introducer level, rt.request = .search introducer u level d
  | .joinNeighbor d anchor rt =>
    rt.request = .neighbor anchor d 0 ∧ anchor ≠ u ∧ spec.anchor u d anchor
  | .joinLink d anchor q sl ql => anchor ≠ u ∧ spec.anchor u d anchor ∧
    spec.neighbor u d anchor q ∧ s.FutureOk u anchor d sl ∧ s.QueryOk u d q ql
  | .returned (.ok .joined) => spec.joiners u → s.Joined spec u
  | .returned _ => True
  | .cancelled => True

structure JoinInv (s : Sys) (spec : JoinSpec) : Prop where
  calls : ∀ u ∈ s.members, ∀ c ∈ (s.node u).calls, s.CallOk spec u c
  packets : ∀ u ∈ s.members, ∀ rt ∈ (s.node u).waits, ∀ p ∈ s.inflight,
    p.event.nonce? = some rt.nonce → PacketOk spec (s.identity u) rt.nonce rt.request p
  replies : ∀ u ∈ s.members, ∀ rt ∈ (s.node u).waits, ∀ reply,
    (s.node u).oneshots[rt.rx]? = some (.sent reply) → s.ReplyOk spec u rt.request reply

/-- A call of `u` awaits a search, respectively the answer of a neighbour query. -/
def Searching (s : Sys) (u : Identifier) : Prop :=
  ∃ rt ∈ (s.node u).waits, ∃ dest target level d, rt.request = .search dest target level d

def Querying (s : Sys) (u : Identifier) : Prop :=
  ∃ rt ∈ (s.node u).waits, ∃ src d level, rt.request = .neighbor src d level

/-- What a step owes to the promises. -/
structure Serves (spec : JoinSpec) (s : Sys) (a : Action) : Prop where
  start : ∀ u introducer level nonce d, u ∈ s.members →
    a = .call u (.joinStage1LinkLevel0 introducer level nonce) → d.lt introducer u →
    spec.hop u d introducer
  relay : ∀ i x u nonce level d l e, u ∈ s.members → s.Searching u → x ∈ s.members →
    a = .deliver i → s.inflight[i]? = some ⟨x,.searchByIdRequest ⟨nonce,u,u,level,d⟩⟩ →
    spec.hop u d x → l ≤ level → s.entry x l d = some e → d.le e.id u → spec.hop u d e.id
  answer : ∀ i x u nonce level d, u ∈ s.members → s.Searching u → x ∈ s.members →
    a = .deliver i → s.inflight[i]? = some ⟨x,.searchByIdRequest ⟨nonce,u,u,level,d⟩⟩ →
    spec.hop u d x → (∀ l ≤ level, ∀ e, s.entry x l d = some e → d.lt u e.id) →
    spec.anchor u d x
  neighbor : ∀ i x u nonce d, u ∈ s.members → s.Querying u → x ∈ s.members → a = .deliver i →
    s.inflight[i]? = some ⟨x,.getNeighborOp ⟨nonce,u,0,d⟩⟩ → x ≠ u → spec.anchor u d x →
    spec.neighbor u d x (s.entry x 0 d)

theorem LinkDone.step (h : s.step a = some t) (hl : s.LinkDone u dest dir) :
    t.LinkDone u dest dir := by
  obtain ⟨hlt,e,he⟩ := hl
  obtain ⟨e',he',-⟩ := entry_step_some h he
  exact ⟨hlt,e',he'⟩

theorem FutureOk.step (h : s.step a = some t) {f : LinkFuture} (hf : s.FutureOk u dest dir f) :
    t.FutureOk u dest dir f := by
  cases f with
  | waiting rt => exact hf
  | finished r =>
    cases r with
    | ok _ => exact LinkDone.step h hf
    | error e => trivial

theorem Joined.step (h : s.step a = some t) (hj : s.Joined spec u) : t.Joined spec u := by
  obtain ⟨d,anchor,q,ha,hn,hl,hq⟩ := hj
  exact ⟨d,anchor,q,ha,hn,hl.step h,fun e he => (hq e he).step h⟩

theorem CallOk.step (h : s.step a = some t) (hc : s.CallOk spec u c) : t.CallOk spec u c := by
  cases c with
  | joinLink d anchor q sl ql =>
    obtain ⟨hne,ha,hn,hsl,hql⟩ := hc
    refine ⟨hne,ha,hn,hsl.step h,?_⟩
    cases q with
    | none => cases ql <;> exact hql
    | some q =>
      cases ql with
      | none => exact hql
      | some f => exact FutureOk.step h hql
  | returned r =>
    rcases r with e | (_ | _ | _ | _ | _)
    · trivial
    · trivial
    · trivial
    · trivial
    · trivial
    · exact fun hj => (hc hj).step h
  | _ => exact hc

theorem ReplyOk.step (h : s.step a = some t) {request : Request} {reply : Reply}
    (hr : s.ReplyOk spec u request reply) : t.ReplyOk spec u request reply := by
  cases request <;> cases reply <;> first | exact hr | exact LinkDone.step h hr

/-- A join of `u` asks its anchor for the slot on the side of its search, and the
neighbour that the anchor named for the slot on the other side. -/
def LinkTarget (spec : JoinSpec) (u dest : Identifier) (dir : Direction) : Prop :=
  ∃ d anchor q, anchor ≠ u ∧ spec.anchor u d anchor ∧ spec.neighbor u d anchor q ∧
    (dest = anchor ∧ dir = d ∨ ∃ e, q = some e ∧ dest = e.id ∧ dir = d.opposite)

def RequestOk (spec : JoinSpec) (u : Identifier) : Request → Prop
  | .search _ target _ _ => target = u
  | .neighbor anchor d level => level = 0 ∧ anchor ≠ u ∧ spec.anchor u d anchor
  | .link dest dir level => level = 0 ∧ LinkTarget spec u dest dir
  | .maxLevel _ => False

theorem CallOk.waits_cases (hc : s.CallOk spec u c) (hrt : rt ∈ c.waits) :
    (∃ d, c = .joinSearch d rt) ∨ (∃ d anchor, c = .joinNeighbor d anchor rt) ∨
    ∃ dest dir, rt.request = .link dest dir 0 ∧ LinkTarget spec u dest dir := by
  cases c with
  | single rt' => exact hc.elim
  | joinSearch d rt' =>
    obtain rfl : rt = rt' := by simpa [Call.waits] using hrt
    exact .inl ⟨d,rfl⟩
  | joinNeighbor d anchor rt' =>
    obtain rfl : rt = rt' := by simpa [Call.waits] using hrt
    exact .inr (.inl ⟨d,anchor,rfl⟩)
  | joinLink d anchor q sl ql =>
    obtain ⟨hne,ha,hn,hsl,hql⟩ := hc
    rcases List.mem_append.mp hrt with hm | hm
    · rcases sl with rt' | r
      · obtain rfl : rt = rt' := by simpa [LinkFuture.waits] using hm
        exact .inr (.inr ⟨_,_,hsl,d,anchor,q,hne,ha,hn,.inl ⟨rfl,rfl⟩⟩)
      · simp [LinkFuture.waits] at hm
    · rcases q with _ | q <;> rcases ql with _ | rt' | r
      · simp at hm
      · exact hql.elim
      · exact hql.elim
      · exact hql.elim
      · obtain rfl : rt = rt' := by simpa [LinkFuture.waits] using hm
        exact .inr (.inr ⟨_,_,hql,d,anchor,some q,hne,ha,hn,.inr ⟨q,rfl,rfl,rfl⟩⟩)
      · simp [LinkFuture.waits] at hm
  | returned r => simp [Call.waits] at hrt
  | cancelled => simp [Call.waits] at hrt

theorem CallOk.request (hc : s.CallOk spec u c) (hrt : rt ∈ c.waits) :
    RequestOk spec u rt.request := by
  rcases hc.waits_cases hrt with ⟨d,rfl⟩ | ⟨d,anchor,rfl⟩ | ⟨dest,dir,hr,ht⟩
  · obtain ⟨introducer,level,hr⟩ := hc
    simp [hr,RequestOk]
  · obtain ⟨hr,hne,ha⟩ := hc
    simp [hr,RequestOk,hne,ha]
  · rw [hr]
    exact ⟨rfl,ht⟩

theorem JoinInv.request (hi : s.JoinInv spec) (hu : u ∈ s.members)
    (hrt : rt ∈ (s.node u).waits) : RequestOk spec u rt.request := by
  obtain ⟨c,hc,hm⟩ := mem_waits.mp hrt
  exact (hi.calls u hu c hc).request hm

theorem PacketOk.reacts {i : ℕ} (hs : s.Sided) (hserv : Serves spec s (.deliver i))
    (hd : Delivered s i p t) (hu : u ∈ s.members) (hrt : rt ∈ (s.node u).waits)
    (hreq : RequestOk spec u rt.request)
    (hp : PacketOk spec (s.identity u) rt.nonce rt.request p) (hq : q ∈ (s.handle p).sent) :
    PacketOk spec (s.identity u) rt.nonce rt.request q := by
  have hr := hs.handle_reacts hd.mem hq
  have hget := hd.get
  have hmem := hd.mem
  obtain ⟨request,nonce,rx⟩ := rt
  cases request with
  | maxLevel introducer => trivial
  | search introducer target level₀ d =>
    simp only [PacketOk,identity_id] at hp ⊢
    obtain ⟨x,ev⟩ := p
    rcases hp with ⟨level,hle,rfl,hhop⟩ | ⟨res,he,-,-⟩
    · cases hr with
      | answer req hl hpast =>
        refine .inr ⟨_,rfl,rfl,?_⟩
        rw [show (s.node x).id = x from s.node_id x]
        exact hserv.answer i x u nonce level d hu ⟨_,hrt,_,_,_,_,rfl⟩ hmem rfl hget hhop hpast
      | relay req l e hl hlq he ht hbest =>
        exact .inl ⟨l,Nat.le_trans hlq hle,rfl,
          hserv.relay i x u nonce level d l e hu ⟨_,hrt,_,_,_,_,rfl⟩ hmem rfl hget hhop hlq he ht⟩
    · obtain ⟨rfl,rfl⟩ := Packet.mk.inj he
      cases hr
  | neighbor anchor d level =>
    simp only [PacketOk,identity_id] at hp ⊢
    obtain ⟨x,ev⟩ := p
    rcases hp with he | ⟨q',he,-⟩
    · obtain ⟨rfl,rfl⟩ := Packet.mk.inj he
      cases hr with
      | neighbor req hl =>
        exact .inr ⟨_,rfl,hserv.neighbor i x u nonce d hu ⟨_,hrt,_,_,_,rfl⟩ hmem rfl hget
          hreq.2.1 hreq.2.2⟩
    · obtain ⟨rfl,rfl⟩ := Packet.mk.inj he
      cases hr
  | link dest dir level =>
    simp only [PacketOk,identity_id] at hp ⊢
    obtain ⟨x,ev⟩ := p
    have hlink : ∀ {x : Identifier}, BaseNode.Reacts (s.node x)
        (s.handle ⟨x,.getLinkOp ⟨nonce,s.identity u,dir,0⟩⟩).node
        (.getLinkOp ⟨nonce,s.identity u,dir,0⟩) q → dir.lt x u ∧
        ((∃ v, dir.lt v u ∧ q = ⟨v,.getLinkOp ⟨nonce,s.identity u,dir,0⟩⟩) ∨
          ∃ y : Identity, dir.lt y.id u ∧ q = ⟨u,.setLinkOp ⟨nonce,dir.opposite,0,some y⟩⟩) := by
      intro x hr
      cases hr with
      | forward req e hb he hlt =>
        have hx := (belongsInOwnSlot_iff.mp hb).2.1
        rw [s.node_id,identity_id] at hx
        exact ⟨hx,.inl ⟨e.id,by simpa using hlt,rfl⟩⟩
      | accept req hb hnear hn =>
        have hx := (belongsInOwnSlot_iff.mp hb).2.1
        rw [s.node_id,identity_id] at hx
        refine ⟨hx,.inr ⟨(s.node x).selfIdentity,?_,by simp⟩⟩
        rwa [show (s.node x).selfIdentity.id = x from s.node_id x]
    rcases hp with he | ⟨hlt,⟨v,hv,he⟩ | ⟨y,hy,he⟩⟩
    · obtain ⟨rfl,rfl⟩ := Packet.mk.inj he
      exact .inr (hlink hr)
    · obtain ⟨rfl,rfl⟩ := Packet.mk.inj he
      exact .inr ⟨hlt,(hlink hr).2⟩
    · obtain ⟨rfl,rfl⟩ := Packet.mk.inj he
      cases hr

/-- The reply that an event of a pending request brings keeps the promise. -/
theorem PacketOk.reply {i : ℕ} {reply : Reply} (hd : Delivered s i p t)
    (hp : PacketOk spec (s.identity u) rt.nonce rt.request p) (ha : Answers p u rt reply) :
    t.ReplyOk spec u rt.request reply := by
  obtain ⟨x,ev⟩ := p
  obtain ⟨rfl,hn,f,hf,hfw⟩ := ha
  cases hreq : rt.request with
  | maxLevel introducer => cases reply <;> trivial
  | search introducer target level₀ d =>
    simp only [hreq,PacketOk,identity_id] at hp
    rcases hp with ⟨level,-,rfl,-⟩ | ⟨res,he,-,hanc⟩
    · simp [Event.reply?] at hf
    · obtain ⟨-,rfl⟩ := Packet.mk.inj he
      obtain ⟨rfl,-⟩ := Prod.mk.inj (Option.some.inj hf)
      exact hanc
  | neighbor anchor d level =>
    simp only [hreq,PacketOk,identity_id] at hp
    rcases hp with he | ⟨q',he,hq'⟩
    · obtain ⟨-,rfl⟩ := Packet.mk.inj he
      simp [Event.reply?] at hf
    · obtain ⟨-,rfl⟩ := Packet.mk.inj he
      obtain ⟨rfl,-⟩ := Prod.mk.inj (Option.some.inj hf)
      exact hq'
  | link dest dir level =>
    simp only [hreq,PacketOk,identity_id] at hp
    rcases hp with he | ⟨hlt,⟨v,hv,he⟩ | ⟨y,hy,he⟩⟩
    · obtain ⟨-,rfl⟩ := Packet.mk.inj he
      simp [Event.reply?] at hf
    · obtain ⟨-,rfl⟩ := Packet.mk.inj he
      simp [Event.reply?] at hf
    · obtain ⟨-,rfl⟩ := Packet.mk.inj he
      obtain ⟨rfl,-⟩ := Prod.mk.inj (Option.some.inj hf)
      have hb : (s.node x).belongsInOwnSlot 0 dir.opposite y = true := by
        refine belongsInOwnSlot_iff.mpr ⟨by decide,?_,Nat.zero_le _⟩
        rwa [s.node_id,Direction.opposite_lt]
      obtain ⟨e,he,-⟩ := entry_of_setLink hd hb
      exact ⟨hlt,e,he⟩

theorem received_ok {n : BaseNode} {reply : Reply} (h : n.received rt = some (.ok reply)) :
    n.oneshots[rt.rx]? = some (.sent reply) ∧ rt.request.accepts reply = true := by
  unfold received at h
  split at h
  · rename_i r hr
    split at h
    · rename_i hacc
      obtain rfl : r = reply := by simpa using h
      exact ⟨hr,hacc⟩
    · simp at h
  · simp at h
  · simp at h

theorem FutureOk.settle {result : Except Error Reply} {f : LinkFuture}
    (hf : s.FutureOk u dest dir f)
    (hres : ∀ reply, result = .ok reply → rt.request.accepts reply = true ∧
      s.ReplyOk spec u rt.request reply) : s.FutureOk u dest dir (f.settle rt result) := by
  cases f with
  | finished r => exact hf
  | waiting rt' =>
    simp only [LinkFuture.settle]
    split
    · rename_i he
      subst he
      cases result with
      | error e => trivial
      | ok reply =>
        obtain ⟨hacc,hrep⟩ := hres reply rfl
        rw [show rt'.request = .link dest dir 0 from hf] at hacc hrep
        cases reply with
        | link res => exact hrep
        | _ => simp [Request.accepts] at hacc
    · exact hf

theorem callOk_settled {d : Direction} {anchor : Identifier} {q : Option Identity}
    {sl : LinkFuture} {ql : Option LinkFuture} (hne : anchor ≠ u) (ha : spec.anchor u d anchor)
    (hn : spec.neighbor u d anchor q) (hsl : s.FutureOk u anchor d sl) (hql : s.QueryOk u d q ql) :
    s.CallOk spec u (.settled d anchor q sl ql) := by
  have hstay : s.CallOk spec u (.joinLink d anchor q sl ql) := ⟨hne,ha,hn,hsl,hql⟩
  rcases sl with rt | (e | v)
  · exact hstay
  · rcases ql with _ | rt | r
    · trivial
    · exact hstay
    · trivial
  · rcases ql with _ | rt | (e | w)
    · cases q with
      | none => exact fun _ => ⟨d,anchor,none,ha,hn,hsl,by simp⟩
      | some q => exact hql.elim
    · exact hstay
    · trivial
    · cases q with
      | none => exact hql.elim
      | some q =>
        refine fun _ => ⟨d,anchor,some q,ha,hn,hsl,?_⟩
        rintro e ⟨rfl⟩
        exact hql

theorem CallOk.resumes {result : Except Error Reply} {new : List RoundTrip} {call' : Call}
    (hc : s.CallOk spec u c) (hrt : rt ∈ c.waits) (hr : Resumes u rt result c new call')
    (hres : ∀ reply, result = .ok reply → rt.request.accepts reply = true ∧
      s.ReplyOk spec u rt.request reply) : s.CallOk spec u call' := by
  cases hr with
  | single rt' => exact hc.elim
  | searchFailed | searchMistyped | collision | neighborFailed | neighborMistyped => trivial
  | found d rt' res nonce rx h he =>
    obtain rfl : rt = rt' := by simpa [Call.waits] using hrt
    obtain ⟨introducer,level,hreq⟩ := hc
    obtain ⟨-,hrep⟩ := hres _ h
    rw [hreq] at hrep
    exact ⟨rfl,he,hrep⟩
  | linkBoth d a rt' res q nonce₁ nonce₂ rx₁ rx₂ h hq =>
    obtain rfl : rt = rt' := by simpa [Call.waits] using hrt
    obtain ⟨hreq,hne,ha⟩ := hc
    obtain ⟨-,hrep⟩ := hres _ h
    rw [hreq] at hrep
    exact ⟨hne,ha,hq ▸ hrep,rfl,rfl⟩
  | linkOne d a rt' res nonce rx h hq =>
    obtain rfl : rt = rt' := by simpa [Call.waits] using hrt
    obtain ⟨hreq,hne,ha⟩ := hc
    obtain ⟨-,hrep⟩ := hres _ h
    rw [hreq] at hrep
    exact ⟨hne,ha,hq ▸ hrep,rfl,trivial⟩
  | link d a q sl ql =>
    obtain ⟨hne,ha,hn,hsl,hql⟩ := hc
    refine callOk_settled hne ha hn (hsl.settle hres) ?_
    cases q with
    | none =>
      cases ql with
      | none => trivial
      | some f => exact hql.elim
    | some q =>
      cases ql with
      | none => exact hql.elim
      | some f => exact FutureOk.settle hql hres

theorem JoinInv.received (hi : s.JoinInv spec) (hu : u ∈ s.members)
    (hrt : rt ∈ (s.node u).waits) {result : Except Error Reply}
    (hr : (s.node u).received rt = some result) (reply : Reply) (h : result = .ok reply) :
    rt.request.accepts reply = true ∧ s.ReplyOk spec u rt.request reply := by
  subst h
  obtain ⟨hs,hacc⟩ := received_ok hr
  exact ⟨hacc,hi.replies u hu rt hrt reply hs⟩

theorem JoinInv.ends (hi : s.JoinInv spec) (hu : u ∈ s.members) (hc : c ∈ (s.node u).calls)
    (hrt : rt ∈ c.waits) {result : Except Error Reply} (he : (s.node u).Ends rt result)
    (reply : Reply) (h : result = .ok reply) :
    rt.request.accepts reply = true ∧ s.ReplyOk spec u rt.request reply := by
  rcases he with hr | he
  · exact hi.received hu (mem_waits.mpr ⟨c,hc,hrt⟩) hr reply h
  · simp [he] at h

theorem JoinInv.callOk_change (hi : s.JoinInv spec) (hu : u ∈ s.members) {ca : CallAction}
    {ended : List Nonce} {new : List RoundTrip} {calls : List Call} (hp : ca.plain = false)
    (h : Change (s.node u) ca ended new calls) (hc : c ∈ calls) : s.CallOk spec u c := by
  rcases mem_change hp h hc with
    hc | rfl | rfl | ⟨introducer,level,nonce,d,rx,rfl⟩ | ⟨call,rt,result,new',hcall,hm,he,hr⟩
  · exact hi.calls u hu c hc
  · trivial
  · trivial
  · exact ⟨introducer,level,by rw [s.node_id]⟩
  · rw [s.node_id] at hr
    exact (hi.calls u hu call hcall).resumes hm hr (hi.ends hu hcall hm he)

theorem packetOk_new {ca : CallAction} {ended : List Nonce} {new : List RoundTrip}
    {calls : List Call} (hserv : Serves spec s (.call u ca)) (hu : u ∈ s.members)
    (hp : ca.plain = false) (h : Change (s.node u) ca ended new calls) (hrt : rt ∈ new) :
    PacketOk spec (s.identity u) rt.nonce rt.request (rt.packet (s.node u)) := by
  have hid : (s.node u).id = u := s.node_id u
  cases h with
  | single a rt ha => simp [hp] at ha
  | join introducer level nonce d rx hd =>
    obtain rfl : rt = _ := by simpa using hrt
    simp only [PacketOk,RoundTrip.packet,Request.event,Request.dest,identity_id,hid]
    rw [hid] at hd
    exact .inl ⟨level,le_refl level,rfl,hserv.start u introducer level nonce d hu rfl hd⟩
  | wake k i nonce₁ nonce₂ call rt' result new call' hk hi hr h =>
    cases h with
    | found =>
      obtain rfl : rt = _ := by simpa using hrt
      exact .inl (by simp [RoundTrip.packet,Request.event,Request.dest,hid])
    | linkBoth =>
      have hor := List.mem_cons.mp hrt
      rcases hor with rfl | hrt
      · exact .inl rfl
      · obtain rfl : rt = _ := by simpa using hrt
        exact .inl rfl
    | linkOne =>
      obtain rfl : rt = _ := by simpa using hrt
      exact .inl rfl
    | _ => simp at hrt
  | _ => simp at hrt

/-- The link requests that a segment starts go to the anchor of a join, on the side of
its search, or to the neighbour its anchor named, on the other side. -/
theorem JoinInv.new_link (hi : s.JoinInv spec) (hu : u ∈ s.members) {ca : CallAction}
    {ended : List Nonce} {new : List RoundTrip} {calls : List Call} {level : ℕ}
    (hp : ca.plain = false) (h : Change (s.node u) ca ended new calls) (hrt : rt ∈ new)
    (hreq : rt.request = .link dest dir level) :
    level = 0 ∧ ∃ d anchor q, anchor ≠ u ∧ spec.anchor u d anchor ∧ spec.neighbor u d anchor q ∧
      (dest = anchor ∧ dir = d ∨ ∃ e, q = some e ∧ dest = e.id ∧ dir = d.opposite) ∧
      ∃ sl ql, .joinLink d anchor q sl ql ∈ calls := by
  have hmem : ∀ {k : ℕ} {call : Call} (c : Call), (s.node u).calls[k]? = some call →
      c ∈ (s.node u).calls.set k c := by
    intro k call c hk
    exact List.mem_set (List.getElem?_eq_some_iff.mp hk).1 c
  cases h with
  | single a rt ha => simp [hp] at ha
  | join introducer level nonce d rx hd =>
    obtain rfl : rt = _ := by simpa using hrt
    simp at hreq
  | wake k i nonce₁ nonce₂ call rt' result new call' hk hi' hr h =>
    have hcall := List.mem_of_getElem? hk
    have hm := List.mem_of_getElem? hi'
    have hres := hi.received hu (mem_waits.mpr ⟨call,hcall,hm⟩) hr
    have hok := hi.calls u hu call hcall
    cases h with
    | found =>
      obtain rfl : rt = _ := by simpa using hrt
      simp at hreq
    | linkBoth d anchor rt'' res q n₁ n₂ rx₁ rx₂ h hq =>
      obtain rfl : rt' = rt'' := by simpa [Call.waits] using hm
      obtain ⟨hreq',hne,ha⟩ := hok
      have hrep := (hres _ h).2
      simp only [hreq',ReplyOk,hq] at hrep
      rcases List.mem_cons.mp hrt with rfl | hrt
      · obtain ⟨rfl,rfl,rfl⟩ : anchor = dest ∧ d = dir ∧ 0 = level := by simpa using hreq
        exact ⟨rfl,d,anchor,some q,hne,ha,hrep,.inl ⟨rfl,rfl⟩,_,_,hmem _ hk⟩
      · obtain rfl : rt = _ := by simpa using hrt
        obtain ⟨rfl,rfl,rfl⟩ : q.id = dest ∧ d.opposite = dir ∧ 0 = level := by simpa using hreq
        exact ⟨rfl,d,anchor,some q,hne,ha,hrep,.inr ⟨q,rfl,rfl,rfl⟩,_,_,hmem _ hk⟩
    | linkOne d anchor rt'' res n₁ rx₁ h hq =>
      obtain rfl : rt' = rt'' := by simpa [Call.waits] using hm
      obtain ⟨hreq',hne,ha⟩ := hok
      have hrep := (hres _ h).2
      simp only [hreq',ReplyOk,hq] at hrep
      obtain rfl : rt = _ := by simpa using hrt
      obtain ⟨rfl,rfl,rfl⟩ : anchor = dest ∧ d = dir ∧ 0 = level := by simpa using hreq
      exact ⟨rfl,d,anchor,none,hne,ha,hrep,.inl ⟨rfl,rfl⟩,_,_,hmem _ hk⟩
    | _ => simp at hrt
  | _ => simp at hrt

/-- Every step that serves the promises keeps the joins in order. -/
theorem JoinInv.step (hi : s.JoinInv spec) (hch : s.ChannelsInv) (hs : s.Sided)
    (hj : a.joins = true) (hf : s.DrawsFresh a) (hserv : Serves spec s a)
    (h : s.step a = some t) : t.JoinInv spec where
  calls u hu c hc := by
    rw [members_step h] at hu
    apply CallOk.step h
    rcases calls_step h u with hcalls | ⟨ca,r,ended,new,n₁,rfl,-,hseg⟩
    · exact hi.calls u hu c (hcalls ▸ hc)
    · exact hi.callOk_change hu (by simpa [Action.joins] using hj) hseg.change hc
  packets := by
    refine pending_packets_step hs hf h hi.packets ?_ ?_ ?_
    · intro u rt p hp
      rw [identity_step h]
      exact hp
    · rintro u hu rt hrt i p q rfl hd hp hq
      rw [identity_step h]
      exact hp.reacts hs hserv hd hu hrt (hi.request hu hrt) hq
    · rintro u ca r ended new n₁ calls rfl hc hseg rt hrt
      rw [identity_step h]
      exact packetOk_new hserv hc.mem (by simpa [Action.joins] using hj) hseg.change hrt
  replies := by
    refine pending_replies_step hch h hi.replies (fun u _ rt reply hr => hr.step h) ?_
    intro u hu rt hrt i p reply hd ha
    exact (hi.packets u hu rt hrt p (List.mem_of_getElem? hd.get) ha.nonce_eq).reply hd ha

/-- Every link request in flight satisfies `R` at the node it is addressed to. -/
def LinkOps (R : Identifier → LinkReq → Prop) (s : Sys) : Prop :=
  ∀ x req, ⟨x,.getLinkOp req⟩ ∈ s.inflight → R x req

/-- A property of link requests that forwarding keeps and that the requests of a join
start with holds of all of them. -/
theorem LinkOps.step {R : Identifier → LinkReq → Prop} (hl : LinkOps R s) (hi : s.JoinInv spec)
    (hs : s.Sided) (hj : a.joins = true) (h : s.step a = some t)
    (hforward : ∀ x req e, x ∈ s.members → R x req →
      (s.node x).belongsInOwnSlot req.level req.dir req.candidate = true →
      s.entry x req.level req.dir = some e → req.dir.lt e.id req.candidate.id → R e.id req)
    (hnew : ∀ u ∈ s.members, ∀ nonce d anchor q, anchor ≠ u → spec.anchor u d anchor →
      spec.neighbor u d anchor q → (∃ sl ql, .joinLink d anchor q sl ql ∈ (t.node u).calls) →
      R anchor ⟨nonce,s.identity u,d,0⟩ ∧
      ∀ e, q = some e → R e.id ⟨nonce,s.identity u,d.opposite,0⟩) : LinkOps R t := by
  intro x req hq
  rcases mem_inflight_step h hq with hq | ⟨i,p,-,hd,hq⟩ | ⟨u,ca,r,rfl,hc,hq⟩
  · exact hl x req hq
  · have hp := List.mem_of_getElem? hd.get
    have hr := hs.handle_reacts hd.mem hq
    obtain ⟨v,ev⟩ := p
    cases hr with
    | forward req e hb he hlt => exact hforward v req e hd.mem (hl v req hp) hb he hlt
  · obtain ⟨ended,new,n₁,calls,hseg⟩ := callStep_segment hc.step
    rw [hseg.sent] at hq
    obtain ⟨⟨request,nonce,rx⟩,hrt,he⟩ := List.mem_map.mp hq
    cases request with
    | link dest dir level =>
      obtain ⟨rfl,rfl⟩ : dest = x ∧ ⟨nonce,s.identity u,dir,level⟩ = req := by
        simpa [RoundTrip.packet,Request.event,Request.dest,identity] using he
      obtain ⟨rfl,d,anchor,q,hne,ha,hn,hdest,hcall⟩ := hi.new_link hc.mem
        (by simpa [Action.joins] using hj) hseg.change hrt rfl
      have hcalls : (t.node u).calls = calls := by
        rw [hc.node,Function.update_self,hseg.node]
      obtain ⟨hanchor,hquery⟩ := hnew u hc.mem nonce d anchor q hne ha hn (hcalls ▸ hcall)
      rcases hdest with ⟨rfl,rfl⟩ | ⟨e,rfl,rfl,rfl⟩
      · exact hanchor
      · exact hquery e rfl
    | _ => simp [RoundTrip.packet,Request.event] at he

/-- Every call of every node has ended. -/
structure Resting (s : Sys) : Prop where
  ended : ∀ x ∈ s.members, ∀ c ∈ (s.node x).calls, (∃ r, c = .returned r) ∨ c = .cancelled
  map : ∀ x ∈ s.members, ∀ nonce w, (s.node x).requestIdMap nonce = some w →
    w.tx < (s.node x).oneshots.length

theorem Resting.waits (h : s.Resting) (hu : u ∈ s.members) : (s.node u).waits = [] := by
  refine List.flatMap_eq_nil_iff.mpr fun c hc => ?_
  rcases h.ended u hu c hc with ⟨r,rfl⟩ | rfl <;> rfl

theorem Resting.channelsInv (h : s.Resting) : s.ChannelsInv := fun x hx =>
  ⟨h.map x hx,by simp [h.waits hx],by simp [h.waits hx]⟩

theorem Resting.joinInv (h : s.Resting)
    (hj : ∀ u ∈ s.members, spec.joiners u → (s.node u).calls = []) : s.JoinInv spec where
  calls u hu c hc := by
    rcases h.ended u hu c hc with ⟨r,rfl⟩ | rfl
    · rcases r with e | (_ | _ | _ | _ | _)
      · trivial
      · trivial
      · trivial
      · trivial
      · trivial
      · exact fun hju => by simp [hj u hu hju] at hc
    · trivial
  packets u hu rt hrt := by simp [h.waits hu] at hrt
  replies u hu rt hrt := by simp [h.waits hu] at hrt

theorem resting_row (linked fresh : List Identifier) : (row linked fresh).Resting :=
  ⟨by simp [row,BaseNode.new],by simp [row,BaseNode.new]⟩

/-- The steps of a run of joins: only joins are started, with fresh nonces. Events may be
lost, and calls may time out or be dropped. -/
def JoinStep (s : Sys) (a : Action) : Prop := a.joins = true ∧ s.DrawsFresh a

instance (s : Sys) (a : Action) : Decidable (s.JoinStep a) := inferInstanceAs (Decidable (_ ∧ _))

end Sys

end SkipGraph
