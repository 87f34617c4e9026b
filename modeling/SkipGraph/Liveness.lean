import SkipGraph.Joins

/-!
# No answer gets lost

Over a network that loses nothing, the request of a pending round trip is under way or
has been answered: its waiter is registered and an event with its nonce is in flight,
or a reply of the right type waits in its channel. With nothing in flight, every call
that waits for an answerable request can run on.
-/

namespace SkipGraph

open BaseNode

namespace Sys

variable {s t : Sys} {a : Action} {u : Identifier} {rt : RoundTrip} {spec : JoinSpec} {p : Packet}
  {ok : Identifier → Request → Prop}

/-- The requests of `u` that honest nodes answer: a search within the table, and a link
request that its first receiver can serve. -/
def Answerable (u : Identifier) : Request → Prop
  | .search _ _ level _ => level < lookupTableLevels
  | .neighbor _ _ _ => True
  | .link dest dir _ => dir.lt dest u
  | .maxLevel _ => False

/-- The waiter is registered, its channel is open, and an event with the nonce is in
flight. -/
structure UnderWay (s : Sys) (u : Identifier) (rt : RoundTrip) : Prop where
  channel : (s.node u).oneshots[rt.rx]? = some .empty
  waiter : (s.node u).requestIdMap rt.nonce = some (rt.request.waiter rt.rx)
  packet : ∃ p ∈ s.inflight, p.event.nonce? = some rt.nonce

def Replied (s : Sys) (u : Identifier) (rt : RoundTrip) : Prop :=
  ∃ reply, (s.node u).oneshots[rt.rx]? = some (.sent reply) ∧ rt.request.accepts reply = true

structure LiveInv (s : Sys) : Prop where
  nodup : ∀ x ∈ s.members, ((s.node x).waits.map RoundTrip.nonce).Nodup
  waiting : ∀ u ∈ s.members, ∀ rt ∈ (s.node u).waits, Answerable u rt.request →
    s.UnderWay u rt ∨ s.Replied u rt

/-- The requests that satisfy `ok` are under way or answered. -/
structure LiveFor (ok : Identifier → Request → Prop) (s : Sys) : Prop where
  nodup : ∀ x ∈ s.members, ((s.node x).waits.map RoundTrip.nonce).Nodup
  waiting : ∀ u ∈ s.members, ∀ rt ∈ (s.node u).waits, ok u rt.request →
    s.UnderWay u rt ∨ s.Replied u rt

theorem liveInv_iff : s.LiveInv ↔ LiveFor Answerable s :=
  ⟨fun h => ⟨h.nodup,h.waiting⟩,fun h => ⟨h.nodup,h.waiting⟩⟩

theorem Answers.accepts {reply : Reply} (h : Answers p u rt reply) :
    rt.request.accepts reply = true := by
  obtain ⟨-,-,f,hf,hw⟩ := h
  exact Event.reply?_accepts hf hw

theorem registered_deliver (hch : s.ChannelsInv) {i : ℕ} (hd : Delivered s i p t)
    (hu : u ∈ s.members) (hrt : rt ∈ (s.node u).waits)
    (hc : (s.node u).oneshots[rt.rx]? = some .empty)
    (hw : (s.node u).requestIdMap rt.nonce = some (rt.request.waiter rt.rx)) :
    t.Replied u rt ∨ ((t.node u).oneshots[rt.rx]? = some .empty ∧
      (t.node u).requestIdMap rt.nonce = some (rt.request.waiter rt.rx) ∧
      ∀ reply, ¬ Answers p u rt reply) := by
  rw [Replied,hd.node]
  by_cases hup : u = p.dest
  · subst hup
    rw [Function.update_self,handle]
    rcases process_waiters reliable (s.node p.dest) p.event with hi | ⟨nonce,w,reply,hr⟩
    · right
      refine ⟨by rw [hi.oneshots,hc],by rw [hi.map,hw],fun reply ha => ?_⟩
      obtain ⟨f,hf,hfw⟩ := ha.reply_eq
      simpa [hfw] using hi.unexpected rt.nonce _ reply f ha.nonce_eq hf hw
    · by_cases hn : nonce = rt.nonce
      · subst hn
        obtain rfl : w = rt.request.waiter rt.rx := Option.some.inj (hr.waiter.symm.trans hw)
        left
        refine ⟨reply,?_,Answers.accepts ⟨rfl,hr.nonce_eq,hr.expected⟩⟩
        simp [hr.oneshots,resolve,hc]
      · right
        have htx : w.tx ≠ rt.rx := fun he =>
          hn ((hch _ hu).owner nonce w hr.waiter rt hrt he.symm).1
        refine ⟨?_,?_,fun reply' ha => hn ?_⟩
        · simpa [hr.oneshots,resolve,List.getElem?_modify,htx] using hc
        · rw [hr.map,Function.update_of_ne (Ne.symm hn)]
          exact hw
        · exact Option.some.inj (hr.nonce_eq.symm.trans ha.nonce_eq)
  · right
    rw [Function.update_of_ne hup]
    exact ⟨hc,hw,fun reply ha => hup ha.dest.symm⟩

theorem PacketOk.progress (hs : s.Sided) {i : ℕ} (hd : Delivered s i p t)
    (hp : PacketOk spec (s.identity u) rt.nonce rt.request p)
    (hreq : RequestOk spec u rt.request) (hans : Answerable u rt.request)
    (hn : p.event.nonce? = some rt.nonce) :
    (∃ q ∈ t.inflight, q.event.nonce? = some rt.nonce) ∨ ∃ reply, Answers p u rt reply := by
  rcases hs.handle_cases hd.mem with ⟨-,habs⟩ | ⟨q,hq,-,hr⟩
  · right
    obtain ⟨x,ev⟩ := p
    cases hrq : rt.request with
    | maxLevel introducer => exact absurd hans (by simp [hrq,Answerable])
    | search introducer target level₀ d =>
      simp only [hrq,PacketOk,Answerable,identity_id] at hp hans
      rcases hp with ⟨level,hle,rfl,-⟩ | ⟨res,he,-,-⟩
      · have habs : lookupTableLevels ≤ level := habs
        omega
      · obtain ⟨rfl,rfl⟩ := Packet.mk.inj he
        exact ⟨.search res,rfl,hn,_,rfl,by rw [hrq]; rfl⟩
    | neighbor anchor d level =>
      simp only [hrq,PacketOk,identity_id] at hp
      rcases hp with he | ⟨q',he,-⟩
      · obtain ⟨rfl,rfl⟩ := Packet.mk.inj he
        have habs : lookupTableLevels ≤ 0 := habs
        simp [lookupTableLevels,identifierSizeBytes] at habs
      · obtain ⟨rfl,rfl⟩ := Packet.mk.inj he
        exact ⟨_,rfl,hn,_,rfl,by rw [hrq]; rfl⟩
    | link dest dir level =>
      simp only [hrq,PacketOk,Answerable,identity_id] at hp hans
      have hserved : dir.lt x u → ev ≠ .getLinkOp ⟨rt.nonce,s.identity u,dir,0⟩ := by
        rintro hx rfl
        have hb : (s.node x).belongsInOwnSlot 0 dir (s.identity u) = true := by
          refine belongsInOwnSlot_iff.mpr ⟨by decide,?_,Nat.zero_le _⟩
          rwa [s.node_id,identity_id]
        simp [BaseNode.Absorbs,hb] at habs
      rcases hp with he | ⟨-,⟨v,hv,he⟩ | ⟨y,hy,he⟩⟩
      · obtain ⟨rfl,rfl⟩ := Packet.mk.inj he
        exact absurd rfl (hserved hans)
      · obtain ⟨rfl,rfl⟩ := Packet.mk.inj he
        exact absurd rfl (hserved hv)
      · obtain ⟨rfl,rfl⟩ := Packet.mk.inj he
        rw [hrq] at hreq
        obtain rfl : level = 0 := hreq.1
        exact ⟨_,rfl,hn,_,rfl,by rw [hrq]; simp [Request.waiter,Waiter.isLink]⟩
  · left
    refine ⟨q,?_,hr.nonce_eq.trans hn⟩
    rw [hd.inflight,hq]
    exact List.mem_append_right _ (by simp)

def Progresses (t : Sys) (p : Packet) (u : Identifier) (rt : RoundTrip) : Prop :=
  p.event.nonce? = some rt.nonce →
    (∃ q ∈ t.inflight, q.event.nonce? = some rt.nonce) ∨ ∃ reply, Answers p u rt reply

theorem UnderWay.deliver_of_progress (hch : s.ChannelsInv) {i : ℕ}
    (h : s.step (.deliver i) = some t) (hd : Delivered s i p t) (hu : u ∈ s.members)
    (hrt : rt ∈ (s.node u).waits) (hw : s.UnderWay u rt) (hprog : t.Progresses p u rt) :
    t.UnderWay u rt ∨ t.Replied u rt := by
  rcases registered_deliver hch hd hu hrt hw.channel hw.waiter with hr | ⟨hc,hm,hno⟩
  · exact .inr hr
  · left
    refine ⟨hc,hm,?_⟩
    obtain ⟨q,hq,hn⟩ := hw.packet
    rcases inflight_step_mem h hq with hq | ⟨j,hj,hdq⟩ | ⟨j,hj⟩
    · exact ⟨q,hq,hn⟩
    · obtain rfl : i = j := by simpa using hj
      obtain rfl : q = p := Option.some.inj (hdq.get.symm.trans hd.get)
      rcases hprog hn with hq | ⟨reply,ha⟩
      · exact hq
      · exact absurd ha (hno reply)
    · simp at hj

/-- A segment leaves the channel and the waiter of every round trip that stays pending. -/
theorem kept_callStep {n : BaseNode} (hch : n.Channels) {ca : CallAction} {ended : List Nonce}
    {new : List RoundTrip} {n₁ : BaseNode} {calls : List Call} {r : BaseNode × List Packet}
    (hseg : Segment n ca ended new n₁ calls r) (hrt : rt ∈ n.waits) (hend : rt.nonce ∉ ended)
    (hnew : ∀ rt' ∈ new, rt'.nonce ≠ rt.nonce) :
    r.1.oneshots[rt.rx]? = n.oneshots[rt.rx]? ∧
    r.1.requestIdMap rt.nonce = n.requestIdMap rt.nonce := by
  rw [hseg.node]
  refine ⟨hseg.extends_.oneshot_old rt.rx (hch.rx_lt rt hrt) ?_,
    hseg.extends_.map_old rt.nonce hend hnew⟩
  intro nonce w hmem hw htx
  obtain ⟨rfl,-⟩ := hch.owner nonce w hw rt hrt htx.symm
  rcases hmem with hm | ⟨rt',hr',he⟩
  · exact hend hm
  · exact hnew rt' hr' he

theorem Fresh.new_nonces {n : BaseNode} {new : List RoundTrip}
    (hf : s.Fresh (new.map (RoundTrip.packet n))) :
    (new.map RoundTrip.nonce).Nodup ∧
    ∀ rt' ∈ new, ∀ x ∈ s.members, ∀ rt ∈ (s.node x).waits, rt'.nonce ≠ rt.nonce := by
  obtain ⟨hnd,hfr⟩ := hf
  constructor
  · have hmap : (new.map (RoundTrip.packet n)).map (fun p => p.event.nonce?) =
        (new.map RoundTrip.nonce).map some := by
      simp [Function.comp_def]
    rw [hmap] at hnd
    exact hnd.of_map some
  · intro rt' hr' x hx rt hrt he
    refine (hfr _ (List.mem_map_of_mem hr')).2 x hx rt hrt ?_
    rw [packet_nonce,he]

theorem nodup_callStep {x : Identifier} {ca : CallAction} {ended : List Nonce}
    {new : List RoundTrip} {n₁ : BaseNode} {calls : List Call} {r : BaseNode × List Packet}
    (hseg : Segment (s.node x) ca ended new n₁ calls r) (hf : s.Fresh r.2) (hx : x ∈ s.members)
    (hnd : ((s.node x).waits.map RoundTrip.nonce).Nodup) :
    (r.1.waits.map RoundTrip.nonce).Nodup := by
  rw [hseg.sent] at hf
  obtain ⟨hnew,hdis⟩ := hf.new_nonces
  obtain ⟨kept,hp,hsub,-⟩ := hseg.change.waits_perm
  have hw : r.1.waits = calls.flatMap Call.waits := by rw [hseg.node]; rfl
  rw [hw,(hp.map RoundTrip.nonce).nodup_iff,List.map_append]
  refine List.nodup_append.mpr ⟨?_,hnew,?_⟩
  · obtain ⟨l,hl,hs⟩ := hsub
    exact (hl.map RoundTrip.nonce).nodup_iff.mp (hnd.sublist (hs.map RoundTrip.nonce))
  · intro m hm m' hm' he
    obtain ⟨rt,hrt,rfl⟩ := List.mem_map.mp hm
    obtain ⟨rt',hrt',rfl⟩ := List.mem_map.mp hm'
    exact hdis rt' hrt' x hx rt (hsub.subset hrt) he.symm

theorem LiveFor.waiting_call (hl : LiveFor ok s) (hch : s.ChannelsInv) {ca : CallAction}
    {r : BaseNode × List Packet} (hc : Called s u ca r t) (hf : s.Fresh r.2)
    (hrt : rt ∈ (t.node u).waits) (hans : ok u rt.request) :
    t.UnderWay u rt ∨ t.Replied u rt := by
  obtain ⟨ended,new,n₁,calls,hseg⟩ := callStep_segment hc.step
  have hf' := hf
  rw [hseg.sent] at hf'
  obtain ⟨hnew,hdis⟩ := hf'.new_nonces
  have hnode : t.node u = r.1 := by rw [hc.node,Function.update_self]
  obtain ⟨kept,hp,hsub,hend⟩ := hseg.change.waits_perm
  have hw : r.1.waits = calls.flatMap Call.waits := by rw [hseg.node]; rfl
  rw [hnode,hw,hp.mem_iff,List.mem_append] at hrt
  rcases hrt with hrt | hrt
  · have hold := hsub.subset hrt
    obtain ⟨ho,hm⟩ := kept_callStep (hch u hc.mem) hseg hold (hend (hl.nodup u hc.mem) rt hrt)
      fun rt' hr' => hdis rt' hr' u hc.mem rt hold
    rcases hl.waiting u hc.mem rt hold hans with hway | ⟨reply,hs,hacc⟩
    · obtain ⟨q,hq,hn⟩ := hway.packet
      left
      refine ⟨by rw [hnode,ho]; exact hway.channel,by rw [hnode,hm]; exact hway.waiter,q,?_,hn⟩
      rw [hc.inflight]
      exact List.mem_append_left _ hq
    · exact .inr ⟨reply,by rw [hnode,ho]; exact hs,hacc⟩
  · obtain ⟨hreg,hemp⟩ := hseg.extends_.registered (hch u hc.mem).tx_lt hnew rt hrt
    left
    refine ⟨by rw [hnode,hseg.node]; exact hemp,by rw [hnode,hseg.node]; exact hreg,
      rt.packet (s.node u),?_,packet_nonce _ rt⟩
    rw [hc.inflight,hseg.sent]
    exact List.mem_append_right _ (List.mem_map_of_mem hrt)

/-- Over a network that loses nothing, requests whose events make progress stay live. -/
theorem LiveFor.step (hl : LiveFor ok s) (hch : s.ChannelsInv) (hloss : a.loses = false)
    (hf : s.DrawsFresh a) (h : s.step a = some t)
    (hprog : ∀ i p, Delivered s i p t → ∀ u ∈ s.members, ∀ rt ∈ (s.node u).waits,
      ok u rt.request → t.Progresses p u rt) : LiveFor ok t where
  nodup x hx := by
    rw [members_step h] at hx
    rcases calls_step h x with hcalls | ⟨ca,r,ended,new,n₁,rfl,hc,hseg⟩
    · rw [BaseNode.waits,hcalls]
      exact hl.nodup x hx
    · have hnode : t.node x = r.1 := by rw [hc.node,Function.update_self]
      rw [hnode]
      exact nodup_callStep hseg (hf r hc.step) hx (hl.nodup x hx)
  waiting u hu rt hrt hans := by
    rw [members_step h] at hu
    rcases step_cases h with ⟨i,p,rfl,hd⟩ | ⟨i,rfl,-⟩ | ⟨y,ca,r,rfl,hc⟩
    · have hold : rt ∈ (s.node u).waits := by
        rcases mem_waits_step h hrt with hold | ⟨_,_,_,_,_,_,ha,-⟩
        · exact hold
        · simp at ha
      rcases hl.waiting u hu rt hold hans with hw | ⟨reply,hr,hacc⟩
      · exact hw.deliver_of_progress hch h hd hu hold (hprog i p hd u hu rt hold hans)
      · right
        refine ⟨reply,?_,hacc⟩
        rw [hd.node,Function.update_apply]
        split
        · rename_i hup
          rcases process_waiters reliable (s.node p.dest) p.event with hig | ⟨nonce,w,reply',hres⟩
          · rw [handle,hig.oneshots,← hup]
            exact hr
          · rw [hup] at hr
            simp [handle,hres.oneshots,resolve,List.getElem?_modify,hr]
        · exact hr
    · simp [Action.loses] at hloss
    · by_cases huy : u = y
      · subst huy
        exact hl.waiting_call hch hc (hf r hc.step) hrt hans
      · have hnode : t.node u = s.node u := by rw [hc.node,Function.update_of_ne huy]
        rw [hnode] at hrt
        rcases hl.waiting u hu rt hrt hans with hw | ⟨reply,hr,hacc⟩
        · obtain ⟨q,hq,hn⟩ := hw.packet
          left
          refine ⟨by rw [hnode]; exact hw.channel,by rw [hnode]; exact hw.waiter,q,?_,hn⟩
          rw [hc.inflight]
          exact List.mem_append_left _ hq
        · exact .inr ⟨reply,by rw [hnode]; exact hr,hacc⟩

theorem LiveInv.step (hl : s.LiveInv) (hi : s.JoinInv spec) (hch : s.ChannelsInv) (hs : s.Sided)
    (hloss : a.loses = false) (hf : s.DrawsFresh a) (h : s.step a = some t) : t.LiveInv :=
  liveInv_iff.mpr ((liveInv_iff.mp hl).step hch hloss hf h fun _ _ hd u hu rt hrt hans hn =>
    (hi.packets u hu rt hrt _ (List.mem_of_getElem? hd.get) hn).progress hs hd
      (hi.request hu hrt) hans hn)

theorem Resting.liveInv (h : s.Resting) : s.LiveInv where
  nodup x hx := by simp [h.waits hx]
  waiting u hu rt hrt := by simp [h.waits hu] at hrt

theorem LiveFor.replied (hl : LiveFor ok s) (hu : u ∈ s.members) (hrt : rt ∈ (s.node u).waits)
    (hans : ok u rt.request) {result : Except Error Reply}
    (hr : (s.node u).received rt = some result) : ∃ reply, result = .ok reply := by
  rcases hl.waiting u hu rt hrt hans with hw | ⟨reply,hs,hacc⟩
  · simp [received,hw.channel] at hr
  · exact ⟨reply,by simpa [received,hs,hacc] using hr.symm⟩

theorem LiveInv.replied (hl : s.LiveInv) (hu : u ∈ s.members) (hrt : rt ∈ (s.node u).waits)
    (hans : Answerable u rt.request) {result : Except Error Reply}
    (hr : (s.node u).received rt = some result) : ∃ reply, result = .ok reply :=
  (liveInv_iff.mp hl).replied hu hrt hans hr

/-- Nothing is in flight and no call can run on. -/
structure Quiet (s : Sys) : Prop where
  inflight : s.inflight = []
  asleep : ∀ x ∈ s.members, ∀ k i nonce₁ nonce₂,
    (s.node x).callStep reliable (.wake k i nonce₁ nonce₂) = none

theorem quiet_of_waits (hin : s.inflight = []) (hw : ∀ x ∈ s.members, (s.node x).waits = []) :
    s.Quiet := by
  refine ⟨hin,fun x hx k i nonce₁ nonce₂ => ?_⟩
  cases hk : (s.node x).calls[k]? with
  | none => simp [callStep,hk]
  | some c =>
    have hc := List.flatMap_eq_nil_iff.mp (hw x hx) c (List.mem_of_getElem? hk)
    simp [callStep,hk,hc]

/-- In a quiet state no live request is pending. -/
theorem LiveFor.not_pending (hl : LiveFor ok s) (hq : s.Quiet) (hu : u ∈ s.members)
    (hrt : rt ∈ (s.node u).waits) : ¬ ok u rt.request := by
  intro hans
  rcases hl.waiting u hu rt hrt hans with hw | ⟨reply,hr,hacc⟩
  · obtain ⟨p,hp,-⟩ := hw.packet
    simp [hq.inflight] at hp
  · obtain ⟨c,hc,hm⟩ := mem_waits.mp hrt
    obtain ⟨k,hk⟩ := List.mem_iff_getElem?.mp hc
    obtain ⟨i,hi⟩ := List.mem_iff_getElem?.mp hm
    have hn := hq.asleep u hu k i rt.nonce rt.nonce
    simp [callStep,hk,hi,received,hr,hacc] at hn

theorem LiveInv.not_pending (hl : s.LiveInv) (hq : s.Quiet) (hu : u ∈ s.members)
    (hrt : rt ∈ (s.node u).waits) : ¬ Answerable u rt.request :=
  (liveInv_iff.mp hl).not_pending hq hu hrt

end Sys

end SkipGraph
