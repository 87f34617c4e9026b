import SkipGraph.Honest

/-!
# Pending round trips and their channels

A call is suspended on round trips; each has a nonce, under which its sender is stored
in the waiter map, and a channel. `Channels` says that the map stores no other sender
of a pending round trip's channel, so only a reply under its own nonce can reach it.
-/

namespace SkipGraph

@[simp] theorem Request.waiter_tx (request : Request) (rx : ℕ) : (request.waiter rx).tx = rx := by
  cases request <;> rfl

theorem Event.reply?_accepts {ev : Event} {reply : Reply} {f : Waiter → Bool} {request : Request}
    {rx : ℕ} (hf : ev.reply? = some (reply,f)) (hw : f (request.waiter rx) = true) :
    request.accepts reply = true := by
  cases ev <;> simp only [Event.reply?,Option.some.injEq,Prod.mk.injEq,reduceCtorEq] at hf <;>
    obtain ⟨rfl,rfl⟩ := hf <;> cases request <;>
    simp_all [Request.waiter,Request.accepts,Waiter.isAsyncSearch,Waiter.isMaxLevel,
      Waiter.isNeighbor,Waiter.isLink]

theorem LinkFuture.settle_waits (rt : RoundTrip) (result : Except Error Reply) (f : LinkFuture) :
    (f.settle rt result).waits = f.waits.filter (· ≠ rt) := by
  cases f with
  | waiting rt' => by_cases h : rt' = rt <;> simp [settle,waits,h]
  | finished r => rfl

theorem Call.settled_waits (d : Direction) (anchor : Identifier) (q : Option Identity)
    (sl : LinkFuture) (ql : Option LinkFuture) :
    (settled d anchor q sl ql).waits = (joinLink d anchor q sl ql).waits := by
  rcases sl with rt | r
  · rfl
  · rcases ql with _ | rt | r' <;> rfl

theorem Resumes.waits_eq {id : Identifier} {rt : RoundTrip} {result : Except Error Reply}
    {call call' : Call} {new : List RoundTrip} (h : Resumes id rt result call new call')
    (hm : rt ∈ call.waits) : call'.waits = call.waits.filter (· ≠ rt) ++ new := by
  cases h with
  | link d a q sl ql =>
    rw [Call.settled_waits]
    cases ql <;> simp [Call.waits,LinkFuture.settle_waits]
  | linkBoth => simp_all [Call.waits,LinkFuture.waits]
  | linkOne => simp_all [Call.waits,LinkFuture.waits]
  | _ => simp_all [Call.waits]

/-- The round trips that a node's calls are suspended on. -/
def BaseNode.waits (n : BaseNode) : List RoundTrip := n.calls.flatMap Call.waits

theorem BaseNode.mem_waits {n : BaseNode} {rt : RoundTrip} :
    rt ∈ n.waits ↔ ∃ c ∈ n.calls, rt ∈ c.waits := by
  simp [waits]

theorem flatMap_perm {α β : Type*} (f : α → List β) {xs : List α} {k : ℕ} {x : α}
    (hk : xs[k]? = some x) : (xs.flatMap f).Perm (f x ++ (xs.eraseIdx k).flatMap f) := by
  induction xs generalizing k with
  | nil => simp at hk
  | cons z xs ih =>
    cases k with
    | zero =>
      obtain rfl : z = x := by simpa using hk
      simp
    | succ k =>
      have hh := (ih (by simpa using hk)).append_left (f z)
      simp only [List.flatMap_cons,List.eraseIdx_cons_succ]
      refine hh.trans ?_
      rw [← List.append_assoc,← List.append_assoc]
      exact List.perm_append_comm.append_right _

theorem flatMap_set_perm {α β : Type*} (f : α → List β) {xs : List α} {k : ℕ} {x : α} (y : α)
    (hk : xs[k]? = some x) : ((xs.set k y).flatMap f).Perm (f y ++ (xs.eraseIdx k).flatMap f) := by
  have hlt := (List.getElem?_eq_some_iff.mp hk).1
  have hh := flatMap_perm f (show (xs.set k y)[k]? = some y by simp [hlt])
  rwa [List.eraseIdx_set_eq] at hh

/-- After a segment the pending round trips are those it started and some of the
previous ones, none of which had its guard dropped. -/
theorem Change.waits_perm {n : BaseNode} {a : CallAction} {ended : List Nonce}
    {new : List RoundTrip} {calls : List Call} (h : Change n a ended new calls) :
    ∃ kept, (calls.flatMap Call.waits).Perm (kept++new) ∧ kept.Subperm n.waits ∧
      ((n.waits.map RoundTrip.nonce).Nodup → ∀ rt ∈ kept, rt.nonce ∉ ended) := by
  have hset : ∀ (k i : ℕ) (call call' : Call) (rt : RoundTrip) (new : List RoundTrip),
      n.calls[k]? = some call → call.waits[i]? = some rt →
      call'.waits = call.waits.filter (· ≠ rt) ++ new →
      ∃ kept, ((n.calls.set k call').flatMap Call.waits).Perm (kept++new) ∧
        kept.Subperm n.waits ∧
        ((n.waits.map RoundTrip.nonce).Nodup → ∀ r ∈ kept, r.nonce ∉ [rt.nonce]) := by
    intro k i call call' rt new hk hi hw
    have hrest := flatMap_perm Call.waits hk
    have hmem : rt ∈ n.waits := BaseNode.mem_waits.mpr
      ⟨call,List.mem_of_getElem? hk,List.mem_of_getElem? hi⟩
    set rest := (n.calls.eraseIdx k).flatMap Call.waits
    have hsub : (call.waits.filter (· ≠ rt) ++ rest).Subperm n.waits :=
      ((List.filter_sublist.append_right rest).subperm).trans hrest.symm.subperm
    refine ⟨call.waits.filter (· ≠ rt) ++ rest,?_,hsub,fun hnd r hr hn => ?_⟩
    · refine (flatMap_set_perm Call.waits call' hk).trans ?_
      rw [hw,List.append_assoc,List.append_assoc]
      exact (List.perm_append_comm).append_left _
    · have he : r = rt := List.inj_on_of_nodup_map hnd (hsub.subset hr) hmem (by simpa using hn)
      subst he
      have hnd' : (call.waits ++ rest).Nodup := hrest.nodup_iff.mp (hnd.of_map _)
      rcases List.mem_append.mp hr with hr | hr
      · simp at hr
      · exact (List.nodup_append.mp hnd').2.2 r (List.mem_of_getElem? hi) r hr rfl
  have hbegin : ∀ c : Call, ((n.calls++[c]).flatMap Call.waits) = n.waits ++ c.waits := by
    simp [BaseNode.waits]
  cases h with
  | answer a r ha hr => exact ⟨n.waits,by simp [hbegin,Call.waits],.refl _,by simp⟩
  | single a rt ha => exact ⟨n.waits,by simp [hbegin,Call.waits],.refl _,by simp⟩
  | refuse level nonce => exact ⟨n.waits,by simp [hbegin,Call.waits],.refl _,by simp⟩
  | join introducer level nonce d rx hd =>
    exact ⟨n.waits,by simp [hbegin,Call.waits],.refl _,by simp⟩
  | wake k i nonce₁ nonce₂ call rt result new call' hk hi hr h =>
    exact hset k i call call' rt new hk hi (h.waits_eq (List.mem_of_getElem? hi))
  | timeout k i call rt call' hk hi h =>
    exact hset k i call call' rt [] hk hi (h.waits_eq (List.mem_of_getElem? hi))
  | cancel k call hk hw =>
    have hrest := flatMap_perm Call.waits hk
    set rest := (n.calls.eraseIdx k).flatMap Call.waits
    refine ⟨rest,?_,?_,fun hnd r hr hn => ?_⟩
    · simpa [Call.waits] using flatMap_set_perm Call.waits .cancelled hk
    · exact ((List.sublist_append_right call.waits rest).subperm).trans hrest.symm.subperm
    · obtain ⟨r',hr',he⟩ := List.mem_map.mp hn
      have hnd' := ((hrest.map RoundTrip.nonce).nodup_iff.mp hnd)
      rw [List.map_append] at hnd'
      exact (List.nodup_append.mp hnd').2.2 _ hn _ (List.mem_map_of_mem hr) rfl

namespace BaseNode

variable {n n' : BaseNode} {a : CallAction}

/-- The senders in the waiter map and the pending round trips fit together. -/
structure Channels (n : BaseNode) : Prop where
  tx_lt : ∀ nonce w, n.requestIdMap nonce = some w → w.tx < n.oneshots.length
  rx_lt : ∀ rt ∈ n.waits, rt.rx < n.oneshots.length
  owner : ∀ nonce w, n.requestIdMap nonce = some w → ∀ rt ∈ n.waits, rt.rx = w.tx →
    nonce = rt.nonce ∧ w = rt.request.waiter rt.rx

theorem process_waits (net : Network) (n : BaseNode) (ev : Event) :
    (n.processIncomingEvent net ev).node.waits = n.waits := by
  simp [waits]

theorem Channels.process (h : n.Channels) (ev : Event) :
    (n.processIncomingEvent reliable ev).node.Channels := by
  rcases process_waiters reliable n ev with hi | ⟨nonce,w,reply,hr⟩
  · refine ⟨?_,?_,?_⟩ <;> simp only [hi.map,hi.oneshots,process_waits]
    · exact h.tx_lt
    · exact h.rx_lt
    · exact h.owner
  · have hold : ∀ m v, (n.processIncomingEvent reliable ev).node.requestIdMap m = some v →
        n.requestIdMap m = some v := by
      intro m v hv
      rw [hr.map,Function.update_apply] at hv
      split at hv
      · simp at hv
      · exact hv
    have hlen : (n.processIncomingEvent reliable ev).node.oneshots.length = n.oneshots.length := by
      simp [hr.oneshots,resolve]
    refine ⟨fun m v hv => ?_,fun rt hrt => ?_,fun m v hv rt hrt => ?_⟩
    · exact hlen ▸ h.tx_lt m v (hold m v hv)
    · rw [process_waits] at hrt
      exact hlen ▸ h.rx_lt rt hrt
    · rw [process_waits] at hrt
      exact h.owner m v (hold m v hv) rt hrt

theorem Segment.mem_waits {ended : List Nonce} {new : List RoundTrip} {n₁ : BaseNode}
    {calls : List Call} {r : BaseNode × List Packet} (h : Segment n a ended new n₁ calls r)
    {rt : RoundTrip} (hrt : rt ∈ r.1.waits) : rt ∈ n.waits ∨ rt ∈ new := by
  obtain ⟨kept,hp,hs,-⟩ := h.change.waits_perm
  rw [h.node] at hrt
  rcases List.mem_append.mp (hp.mem_iff.mp hrt) with hk | hk
  · exact .inl (hs.subset hk)
  · exact .inr hk

theorem Channels.callStep (h : n.Channels) {r : BaseNode × List Packet}
    (hs : n.callStep reliable a = some r) : r.1.Channels := by
  obtain ⟨ended,new,n₁,calls,hseg⟩ := callStep_segment hs
  have he := hseg.extends_
  have hmap : r.1.requestIdMap = n₁.requestIdMap := by rw [hseg.node]
  have hone : r.1.oneshots = n₁.oneshots := by rw [hseg.node]
  have hlen := he.length
  refine ⟨fun nonce w hw => ?_,fun rt hrt => ?_,fun nonce w hw rt hrt hrx => ?_⟩
  · rw [hmap] at hw
    rw [hone]
    rcases he.map_new nonce w hw with hold | ⟨rt,hr,-,rfl⟩
    · have := h.tx_lt nonce w hold
      omega
    · simpa using he.rx_lt hr
  · rw [hone]
    rcases hseg.mem_waits hrt with hold | hnew
    · have := h.rx_lt rt hold
      omega
    · exact he.rx_lt hnew
  · rw [hmap] at hw
    rcases he.map_new nonce w hw with hold | ⟨rt',hr',rfl,rfl⟩
    · rcases hseg.mem_waits hrt with hrt | hrt
      · exact h.owner nonce w hold rt hrt hrx
      · have hlt := h.tx_lt nonce w hold
        have hge := he.rx_ge hrt
        omega
    · rw [Request.waiter_tx] at hrx
      rcases hseg.mem_waits hrt with hrt | hrt
      · have hlt := h.rx_lt rt hrt
        have hge := he.rx_ge hr'
        omega
      · obtain rfl := he.rx_inj hrt hr' hrx
        exact ⟨rfl,rfl⟩

end BaseNode

namespace Sys

open BaseNode

variable {s t : Sys} {a : Action} {u : Identifier} {rt : RoundTrip}

/-- The nonces of the events are distinct and in use neither by an event in flight nor
by a pending round trip, as 128 random bits are taken to be. -/
def Fresh (s : Sys) (ps : List Packet) : Prop :=
  (ps.map fun p => p.event.nonce?).Nodup ∧ ∀ p ∈ ps,
    (∀ q ∈ s.inflight, q.event.nonce? ≠ p.event.nonce?) ∧
    ∀ x ∈ s.members, ∀ rt ∈ (s.node x).waits, some rt.nonce ≠ p.event.nonce?

def DrawsFresh (s : Sys) : Action → Prop
  | .call x ca => ∀ r, (s.node x).callStep reliable ca = some r → s.Fresh r.2
  | _ => True

instance (s : Sys) (ps : List Packet) : Decidable (s.Fresh ps) :=
  inferInstanceAs (Decidable (_ ∧ _))

instance (s : Sys) (a : Action) : Decidable (s.DrawsFresh a) :=
  match a with
  | .call x ca =>
    match h : (s.node x).callStep reliable ca with
    | some r => decidable_of_iff (s.Fresh r.2) (by simp [DrawsFresh,h])
    | none => isTrue (by simp [DrawsFresh,h])
  | .deliver _ => isTrue trivial
  | .lose _ => isTrue trivial

@[simp] theorem packet_nonce (n : BaseNode) (rt : RoundTrip) :
    (rt.packet n).event.nonce? = some rt.nonce := by
  obtain ⟨request,nonce,rx⟩ := rt
  cases request <;> rfl

def ChannelsInv (s : Sys) : Prop := ∀ x ∈ s.members, (s.node x).Channels

theorem ChannelsInv.step (hs : s.ChannelsInv) (h : s.step a = some t) : t.ChannelsInv := by
  intro x hx
  rw [members_step h] at hx
  rcases step_cases h with ⟨i,p,-,hd⟩ | ⟨i,-,hl⟩ | ⟨y,ca,r,-,hc⟩
  · by_cases hxp : x = p.dest
    · subst hxp
      rw [hd.node,Function.update_self]
      exact (hs _ hx).process p.event
    · rw [hd.node,Function.update_of_ne hxp]
      exact hs x hx
  · rw [hl.node]
    exact hs x hx
  · by_cases hxy : x = y
    · subst hxy
      rw [hc.node,Function.update_self]
      exact (hs _ hx).callStep hc.step
    · rw [hc.node,Function.update_of_ne hxy]
      exact hs x hx

theorem mem_waits_step (h : s.step a = some t) (hrt : rt ∈ (t.node u).waits) :
    rt ∈ (s.node u).waits ∨ ∃ ca r ended new n₁ calls, a = .call u ca ∧ Called s u ca r t ∧
      Segment (s.node u) ca ended new n₁ calls r ∧ rt ∈ new := by
  rcases calls_step h u with hcalls | ⟨ca,r,ended,new,n₁,ha,hc,hseg⟩
  · left
    rwa [BaseNode.waits,hcalls] at hrt
  · have hnode : t.node u = r.1 := by rw [hc.node,Function.update_self]
    rcases hseg.mem_waits (hnode ▸ hrt) with hold | hnew
    · exact .inl hold
    · exact .inr ⟨ca,r,ended,new,n₁,_,ha,hc,hseg,hnew⟩

/-- The event answers round trip `rt` of node `u` with `reply`. -/
structure Answers (p : Packet) (u : Identifier) (rt : RoundTrip) (reply : Reply) : Prop where
  dest : p.dest = u
  nonce_eq : p.event.nonce? = some rt.nonce
  reply_eq : ∃ f, p.event.reply? = some (reply,f) ∧ f (rt.request.waiter rt.rx) = true

/-- A reply reaches the channel of a pending round trip only by the delivery of an event
that answers it. -/
theorem sent_step (hs : s.ChannelsInv) (h : s.step a = some t) (hu : u ∈ s.members)
    (hrt : rt ∈ (s.node u).waits) {reply : Reply}
    (hsent : (t.node u).oneshots[rt.rx]? = some (.sent reply)) :
    (s.node u).oneshots[rt.rx]? = some (.sent reply) ∨
    ∃ i p, a = .deliver i ∧ Delivered s i p t ∧ Answers p u rt reply := by
  rcases step_cases h with ⟨i,p,ha,hd⟩ | ⟨i,-,hl⟩ | ⟨y,ca,r,-,hc⟩
  · rw [hd.node,Function.update_apply] at hsent
    split at hsent
    · rename_i hup
      subst hup
      rcases process_waiters reliable (s.node p.dest) p.event with hi | ⟨nonce,w,reply',hr⟩
      · rw [handle,hi.oneshots] at hsent
        exact .inl hsent
      · rw [handle,hr.oneshots] at hsent
        by_cases htx : w.tx = rt.rx
        · obtain ⟨rfl,rfl⟩ := (hs _ hu).owner nonce w hr.waiter rt hrt htx.symm
          cases ho : (s.node p.dest).oneshots[rt.rx]? with
          | none => simp [resolve,ho] at hsent
          | some o =>
            cases o with
            | empty =>
              obtain rfl : reply' = reply := by simpa [resolve,ho] using hsent
              exact .inr ⟨i,p,ha,hd,rfl,hr.nonce_eq,hr.expected⟩
            | sent r' =>
              obtain rfl : r' = reply := by simpa [resolve,ho] using hsent
              exact .inl rfl
            | closed => simp [resolve,ho] at hsent
        · left
          simpa [resolve,List.getElem?_modify,htx] using hsent
    · exact .inl hsent
  · rw [hl.node] at hsent
    exact .inl hsent
  · rw [hc.node,Function.update_apply] at hsent
    split at hsent
    · rename_i hu
      subst hu
      obtain ⟨ended,new,n₁,calls,hseg⟩ := callStep_segment hc.step
      rw [hseg.node] at hsent
      exact .inl (hseg.extends_.sent rt.rx reply hsent)
    · exact .inl hsent

theorem not_sent_of_new {n : BaseNode} {ca : CallAction} {ended : List Nonce}
    {new : List RoundTrip} {n₁ : BaseNode} {calls : List Call} {r : BaseNode × List Packet}
    (hseg : Segment n ca ended new n₁ calls r) (hrt : rt ∈ new) (reply : Reply) :
    r.1.oneshots[rt.rx]? ≠ some (.sent reply) := by
  intro hs
  rw [hseg.node] at hs
  have hold := hseg.extends_.sent rt.rx reply hs
  have hge := hseg.extends_.rx_ge hrt
  rw [List.getElem?_eq_none hge] at hold
  simp at hold

/-- A property of the events under the nonces of pending round trips holds after a step when
it is kept, reactions have it again, and the events of new round trips start with it. -/
theorem pending_packets_step {K K' : Identifier → RoundTrip → Packet → Prop} (hs : s.Sided)
    (hf : s.DrawsFresh a) (h : s.step a = some t)
    (hK : ∀ u ∈ s.members, ∀ rt ∈ (s.node u).waits, ∀ p ∈ s.inflight,
      p.event.nonce? = some rt.nonce → K u rt p)
    (hkeep : ∀ u rt p, K u rt p → K' u rt p)
    (hreact : ∀ u ∈ s.members, ∀ rt ∈ (s.node u).waits, ∀ i p q, a = .deliver i →
      Delivered s i p t → K u rt p → q ∈ (s.handle p).sent → K' u rt q)
    (hnew : ∀ u ca r ended new n₁ calls, a = .call u ca → Called s u ca r t →
      Segment (s.node u) ca ended new n₁ calls r → ∀ rt ∈ new, K' u rt (rt.packet (s.node u))) :
    ∀ u ∈ t.members, ∀ rt ∈ (t.node u).waits, ∀ p ∈ t.inflight,
      p.event.nonce? = some rt.nonce → K' u rt p := by
  intro u hu rt hrt q hq hn
  rw [members_step h] at hu
  rcases mem_waits_step h hrt with hold | ⟨ca,r,ended,new,n₁,calls,ha,hc,hseg,hnew'⟩
  · rcases mem_inflight_step h hq with hq | ⟨i,p,ha,hd,hq⟩ | ⟨x,ca,r,rfl,hc,hq⟩
    · exact hkeep u rt q (hK u hu rt hold q hq hn)
    · have hpn : p.event.nonce? = some rt.nonce :=
        ((hs.handle_reacts hd.mem hq).nonce_eq).symm.trans hn
      exact hreact u hu rt hold i p q ha hd
        (hK u hu rt hold p (List.mem_of_getElem? hd.get) hpn) hq
    · exact absurd hn.symm (((hf r hc.step).2 q hq).2 u hu rt hold)
  · have hpk : rt.packet (s.node u) ∈ r.2 := by
      rw [hseg.sent]
      exact List.mem_map_of_mem hnew'
    subst ha
    obtain ⟨hnd,hfresh⟩ := hf r hc.step
    rw [hc.inflight] at hq
    rcases List.mem_append.mp hq with hq | hq
    · exact absurd (hn.trans (packet_nonce _ rt).symm) ((hfresh _ hpk).1 q hq)
    · obtain rfl : q = rt.packet (s.node u) :=
        List.inj_on_of_nodup_map hnd hq hpk (hn.trans (packet_nonce _ rt).symm)
      exact hnew u ca r ended new n₁ calls rfl hc hseg rt hnew'

/-- A property of the replies to pending round trips holds after a step when it is kept and
every event that answers one brings it along. -/
theorem pending_replies_step {R R' : Identifier → RoundTrip → Reply → Prop} (hch : s.ChannelsInv)
    (h : s.step a = some t)
    (hR : ∀ u ∈ s.members, ∀ rt ∈ (s.node u).waits, ∀ reply,
      (s.node u).oneshots[rt.rx]? = some (.sent reply) → R u rt reply)
    (hkeep : ∀ u ∈ s.members, ∀ rt reply, R u rt reply → R' u rt reply)
    (hanswer : ∀ u ∈ s.members, ∀ rt ∈ (s.node u).waits, ∀ i p reply, Delivered s i p t →
      Answers p u rt reply → R' u rt reply) :
    ∀ u ∈ t.members, ∀ rt ∈ (t.node u).waits, ∀ reply,
      (t.node u).oneshots[rt.rx]? = some (.sent reply) → R' u rt reply := by
  intro u hu rt hrt reply hsent
  rw [members_step h] at hu
  rcases mem_waits_step h hrt with hold | ⟨ca,r,ended,new,n₁,calls,-,hc,hseg,hnew⟩
  · rcases sent_step hch h hu hold hsent with hs' | ⟨i,p,-,hd,ha⟩
    · exact hkeep u hu rt reply (hR u hu rt hold reply hs')
    · exact hanswer u hu rt hold i p reply hd ha
  · rw [hc.node,Function.update_self] at hsent
    exact absurd hsent (not_sent_of_new hseg hnew reply)

end Sys

end SkipGraph
