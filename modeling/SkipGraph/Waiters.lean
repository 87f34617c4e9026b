import SkipGraph.RoundTrips

/-!
# Isolation and cleanup of the waiter map

One node under arbitrary peers, over networks that may refuse any send. All pending
requests share one map from nonces to waiters, which replies, timeouts, failed sends and
dropped futures all clean up. As long as the nonces of live requests differ, the map holds
exactly the waiters of the live requests that are not yet answered, each request is answered
by the first reply of its own, and no request touches the waiter of another.
-/

namespace SkipGraph

open Transition

/-- The event is a reply to the round trip: it has its nonce, its type and, for a link
request, the slot that was asked about. -/
def RoundTrip.AnsweredBy (rt : RoundTrip) (ev : Event) (reply : Reply) : Prop :=
  ev.nonce? = some rt.nonce ∧
    ∃ f, ev.reply? = some (reply,f) ∧ f (rt.request.waiter rt.rx) = true

theorem RoundTrip.AnsweredBy.accepts {rt : RoundTrip} {ev : Event} {reply : Reply}
    (h : rt.AnsweredBy ev reply) : rt.request.accepts reply = true := by
  obtain ⟨-,f,hr,hf⟩ := h
  exact Event.reply?_accepts hr hf

def LocalAction.Answers (rt : RoundTrip) (reply : Reply) (a : LocalAction) : Prop :=
  ∃ net ev, a = .receive net ev ∧ rt.AnsweredBy ev reply

namespace BaseNode

/-- The waiter of `rt` is in the map and its channel is empty. -/
structure Registered (n : BaseNode) (rt : RoundTrip) : Prop where
  waiter : n.requestIdMap rt.nonce = some (rt.request.waiter rt.rx)
  channel : n.oneshots[rt.rx]? = some .empty

/-- The waiter of `rt` is gone and its channel holds the reply. -/
structure Replied (n : BaseNode) (rt : RoundTrip) (reply : Reply) : Prop where
  waiter : n.requestIdMap rt.nonce = none
  channel : n.oneshots[rt.rx]? = some (.sent reply)
  accepts : rt.request.accepts reply = true

/-- The map and the channels are those of the live round trips `rts`. -/
structure Tracks (n : BaseNode) (rts : List RoundTrip) : Prop where
  nonces : (rts.map RoundTrip.nonce).Nodup
  channels : (rts.map RoundTrip.rx).Nodup
  rx_lt : ∀ rt ∈ rts, rt.rx < n.oneshots.length
  keys : ∀ nonce w, n.requestIdMap nonce = some w →
    ∃ rt ∈ rts, rt.nonce = nonce ∧ w = rt.request.waiter rt.rx
  state : ∀ rt ∈ rts, n.Registered rt ∨ ∃ reply, n.Replied rt reply

structure Kept (n n' : BaseNode) (rt : RoundTrip) : Prop where
  waiter : n'.requestIdMap rt.nonce = n.requestIdMap rt.nonce
  channel : n'.oneshots[rt.rx]? = n.oneshots[rt.rx]?

/-- From `n` to `n'` the live round trips `rts` are kept and the registered round trips `new`
are added. -/
structure Continues (n : BaseNode) (rts new : List RoundTrip) (n' : BaseNode) : Prop where
  tracks : n'.Tracks (rts++new)
  kept : ∀ rt ∈ rts, n.Kept n' rt
  calls : n'.calls = n.calls
  core : n'.core = n.core
  opened : ∀ rt ∈ new, n.oneshots.length ≤ rt.rx ∧ n'.Registered rt
  length : n.oneshots.length ≤ n'.oneshots.length

variable {net : Network} {n n' n'' : BaseNode} {rts kept new new' : List RoundTrip}
  {rt rt' : RoundTrip} {nonce : Nonce} {request : Request} {ev : Event} {a : CallAction}

theorem Tracks.eq_of_nonce (h : n.Tracks rts) (hr : rt ∈ rts) (hr' : rt' ∈ rts)
    (he : rt.nonce = rt'.nonce) : rt = rt' := List.inj_on_of_nodup_map h.nonces hr hr' he

theorem Tracks.eq_of_rx (h : n.Tracks rts) (hr : rt ∈ rts) (hr' : rt' ∈ rts)
    (he : rt.rx = rt'.rx) : rt = rt' := List.inj_on_of_nodup_map h.channels hr hr' he

theorem Tracks.perm (h : n.Tracks rts) (hp : rts.Perm kept) : n.Tracks kept where
  nonces := (hp.map _).nodup_iff.mp h.nonces
  channels := (hp.map _).nodup_iff.mp h.channels
  rx_lt rt hr := h.rx_lt rt (hp.mem_iff.mpr hr)
  keys nonce w hw := by
    obtain ⟨rt,hr,hh⟩ := h.keys nonce w hw
    exact ⟨rt,hp.mem_iff.mp hr,hh⟩
  state rt hr := h.state rt (hp.mem_iff.mpr hr)

theorem Kept.refl (n : BaseNode) (rt : RoundTrip) : n.Kept n rt := ⟨rfl,rfl⟩

theorem Kept.trans (h : n.Kept n' rt) (h' : n'.Kept n'' rt) : n.Kept n'' rt :=
  ⟨h'.waiter.trans h.waiter,h'.channel.trans h.channel⟩

theorem Kept.registered (h : n.Kept n' rt) (hr : n.Registered rt) : n'.Registered rt :=
  ⟨h.waiter.trans hr.waiter,h.channel.trans hr.channel⟩

theorem Kept.replied (h : n.Kept n' rt) {reply : Reply} (hr : n.Replied rt reply) :
    n'.Replied rt reply :=
  ⟨h.waiter.trans hr.waiter,h.channel.trans hr.channel,hr.accepts⟩

theorem Kept.state (h : n.Kept n' rt) (hs : n.Registered rt ∨ ∃ reply, n.Replied rt reply) :
    n'.Registered rt ∨ ∃ reply, n'.Replied rt reply := by
  rcases hs with hr | ⟨reply,hr⟩
  · exact .inl (h.registered hr)
  · exact .inr ⟨reply,h.replied hr⟩

theorem Continues.refl (h : n.Tracks rts) : Continues n rts [] n :=
  ⟨by simpa using h,fun rt _ => Kept.refl n rt,rfl,rfl,by simp,le_refl _⟩

theorem Continues.trans (h : Continues n rts new n') (h' : Continues n' (rts++new) new' n'') :
    Continues n rts (new++new') n'' where
  tracks := by simpa [List.append_assoc] using h'.tracks
  kept rt hr := (h.kept rt hr).trans (h'.kept rt (List.mem_append_left _ hr))
  calls := h'.calls.trans h.calls
  core := h'.core.trans h.core
  opened rt hr := by
    rcases List.mem_append.mp hr with hr | hr
    · obtain ⟨hle,hreg⟩ := h.opened rt hr
      exact ⟨hle,(h'.kept rt (List.mem_append_right _ hr)).registered hreg⟩
    · obtain ⟨hle,hreg⟩ := h'.opened rt hr
      exact ⟨h.length.trans hle,hreg⟩
  length := h.length.trans h'.length

theorem Tracks.started (h : n.Tracks rts) (request : Request)
    (hf : ∀ rt ∈ rts, rt.nonce ≠ nonce) :
    Continues n rts [⟨request,nonce,n.oneshots.length⟩] (n.started nonce request) := by
  have hnone : n.requestIdMap nonce = none := by
    cases hw : n.requestIdMap nonce with
    | none => rfl
    | some w =>
      obtain ⟨rt,hr,he,-⟩ := h.keys nonce w hw
      exact absurd he (hf rt hr)
  have hone : ∀ rx : ℕ, (n.started nonce request).oneshots[rx]? =
      (n.oneshots++[Oneshot.empty])[rx]? := by
    intro rx
    apply started_oneshots
    simp [hnone]
  have hkept : ∀ rt ∈ rts, n.Kept (n.started nonce request) rt := by
    intro rt hr
    refine ⟨by rw [started_map,if_neg (hf rt hr)],?_⟩
    rw [hone,List.getElem?_append_left (h.rx_lt rt hr)]
  have hnew : (n.started nonce request).Registered ⟨request,nonce,n.oneshots.length⟩ :=
    ⟨by simp [started_map],by rw [hone]; simp⟩
  refine ⟨⟨?_,?_,?_,?_,?_⟩,hkept,started_calls request,by simp [BaseNode.started],?_,by simp⟩
  · simp only [List.map_append,List.map_cons,List.map_nil]
    refine List.nodup_append.mpr ⟨h.nonces,by simp,?_⟩
    rintro m hm _ (_ | ⟨_,⟨⟩⟩) rfl
    obtain ⟨rt,hr,he⟩ := List.mem_map.mp hm
    exact hf rt hr he
  · simp only [List.map_append,List.map_cons,List.map_nil]
    refine List.nodup_append.mpr ⟨h.channels,by simp,?_⟩
    rintro m hm _ (_ | ⟨_,⟨⟩⟩) rfl
    obtain ⟨rt,hr,he⟩ := List.mem_map.mp hm
    exact absurd (h.rx_lt rt hr) (by simp [he])
  · intro rt hr
    rw [started_length]
    rcases List.mem_append.mp hr with hr | hr
    · have := h.rx_lt rt hr
      omega
    · obtain rfl : rt = _ := by simpa using hr
      simp
  · intro m w hw
    rw [started_map] at hw
    split at hw
    · rename_i he
      exact ⟨⟨request,nonce,n.oneshots.length⟩,by simp,he.symm,(Option.some.inj hw).symm⟩
    · obtain ⟨rt,hr,hh⟩ := h.keys m w hw
      exact ⟨rt,List.mem_append_left _ hr,hh⟩
  · intro rt hr
    rcases List.mem_append.mp hr with hr | hr
    · exact (hkept rt hr).state (h.state rt hr)
    · obtain rfl : rt = _ := by simpa using hr
      exact .inl hnew
  · intro rt hr
    obtain rfl : rt = _ := by simpa using hr
    exact ⟨le_refl _,hnew⟩

/-- Dropping the guard of a live round trip removes nothing but its own waiter. -/
theorem Tracks.drop (h : n.Tracks rts) (hp : rts.Perm (rt::kept)) :
    Continues n kept [] (n.dropGuard rt.nonce) := by
  have h' := h.perm hp
  have hnd := List.nodup_cons.mp h'.nonces
  have hndx := List.nodup_cons.mp h'.channels
  have hne : ∀ rt' ∈ kept, rt'.nonce ≠ rt.nonce := fun rt' hr he =>
    hnd.1 (he ▸ List.mem_map_of_mem hr)
  have hmap : ∀ m, (n.dropGuard rt.nonce).requestIdMap m =
      if m = rt.nonce then none else n.requestIdMap m := by
    intro m
    cases hw : n.requestIdMap rt.nonce with
    | none =>
      by_cases hm : m = rt.nonce
      · simp [dropGuard,hw,hm]
      · simp [dropGuard,hw,hm]
    | some w => simp [dropGuard,hw,dropSender,removeWaiter,Function.update_apply]
  have hkept : ∀ rt' ∈ kept, n.Kept (n.dropGuard rt.nonce) rt' := by
    intro rt' hr
    refine ⟨by rw [hmap,if_neg (hne rt' hr)],?_⟩
    cases hw : n.requestIdMap rt.nonce with
    | none => simp [dropGuard,hw]
    | some w =>
      obtain ⟨rt₀,hr₀,he,rfl⟩ := h'.keys rt.nonce w hw
      obtain rfl : rt₀ = rt := h'.eq_of_nonce hr₀ (by simp) he
      have hrx : (rt₀.request.waiter rt₀.rx).tx ≠ rt'.rx := by
        rw [Request.waiter_tx]
        exact fun he' => hndx.1 (he' ▸ List.mem_map_of_mem hr)
      simp only [dropGuard,hw]
      exact dropSender_ne (n := n.removeWaiter rt₀.nonce) hrx
  have hlen : (n.dropGuard rt.nonce).oneshots.length = n.oneshots.length := by
    unfold dropGuard
    cases n.requestIdMap rt.nonce <;> simp [removeWaiter]
  refine ⟨?_,hkept,?_,dropGuard_core _,by simp,by omega⟩
  · rw [List.append_nil]
    refine ⟨hnd.2,hndx.2,fun rt' hr => ?_,fun m w hw => ?_,fun rt' hr => ?_⟩
    · rw [hlen]
      exact h'.rx_lt rt' (List.mem_cons_of_mem _ hr)
    · rw [hmap] at hw
      split at hw
      · simp at hw
      · rename_i hm
        obtain ⟨rt',hr,he,hww⟩ := h'.keys m w hw
        rcases List.mem_cons.mp hr with rfl | hr
        · exact absurd he.symm hm
        · exact ⟨rt',hr,he,hww⟩
    · exact (hkept rt' hr).state (h'.state rt' (List.mem_cons_of_mem _ hr))
  · unfold dropGuard
    cases n.requestIdMap rt.nonce <;> rfl

/-- An event resolves the registered round trip that it answers, if there is one, and keeps
all others. -/
theorem Tracks.process (h : n.Tracks rts) (net : Network) (ev : Event) :
    (n.processIncomingEvent net ev).node.Tracks rts ∧
    ∀ rt ∈ rts, (n.Kept (n.processIncomingEvent net ev).node rt ∧
        (n.Registered rt → ∀ reply, ¬ rt.AnsweredBy ev reply)) ∨
      ∃ reply, rt.AnsweredBy ev reply ∧ n.Registered rt ∧
        (n.processIncomingEvent net ev).node.Replied rt reply := by
  rcases process_waiters net n ev with hi | ⟨nonce,w,reply,hr⟩
  · have hkept : ∀ rt, n.Kept (n.processIncomingEvent net ev).node rt := fun rt =>
      ⟨by rw [hi.map],by rw [hi.oneshots]⟩
    refine ⟨⟨h.nonces,h.channels,?_,?_,fun rt hr => (hkept rt).state (h.state rt hr)⟩,
      fun rt _ => .inl ⟨hkept rt,fun hreg reply hans => ?_⟩⟩
    · rw [hi.oneshots]
      exact h.rx_lt
    · rw [hi.map]
      exact h.keys
    · obtain ⟨hn,f,hf,hw⟩ := hans
      have hh := hi.unexpected _ _ _ _ hn hf hreg.waiter
      rw [hh] at hw
      simp at hw
  · obtain ⟨rt₀,hr₀,rfl,rfl⟩ := h.keys nonce w hr.waiter
    have hans : rt₀.AnsweredBy ev reply := ⟨hr.nonce_eq,hr.expected⟩
    have hreg : n.Registered rt₀ := by
      rcases h.state rt₀ hr₀ with hreg | ⟨r,hrep⟩
      · exact hreg
      · exact absurd hr.waiter (by simp [hrep.waiter])
    have hlen : (n.processIncomingEvent net ev).node.oneshots.length = n.oneshots.length := by
      simp [hr.oneshots,resolve]
    have hrep : (n.processIncomingEvent net ev).node.Replied rt₀ reply := by
      refine ⟨by simp [hr.map],?_,hans.accepts⟩
      rw [hr.oneshots,Request.waiter_tx]
      simp [resolve,hreg.channel]
    have hkept : ∀ rt ∈ rts, rt ≠ rt₀ → n.Kept (n.processIncomingEvent net ev).node rt := by
      intro rt hrt hne
      have hnonce : rt.nonce ≠ rt₀.nonce := fun he => hne (h.eq_of_nonce hrt hr₀ he)
      have hrx : rt₀.rx ≠ rt.rx := fun he => hne (h.eq_of_rx hrt hr₀ he.symm)
      refine ⟨by rw [hr.map,Function.update_of_ne hnonce],?_⟩
      rw [hr.oneshots,Request.waiter_tx]
      simp [resolve,hrx]
    refine ⟨⟨h.nonces,h.channels,by rw [hlen]; exact h.rx_lt,fun m v hv => ?_,fun rt hrt => ?_⟩,
      fun rt hrt => ?_⟩
    · rw [hr.map,Function.update_apply] at hv
      split at hv
      · simp at hv
      · exact h.keys m v hv
    · by_cases he : rt = rt₀
      · exact .inr ⟨reply,he ▸ hrep⟩
      · exact (hkept rt hrt he).state (h.state rt hrt)
    · by_cases he : rt = rt₀
      · exact .inr ⟨reply,he ▸ hans,he ▸ hreg,he ▸ hrep⟩
      · refine .inl ⟨hkept rt hrt he,fun _ reply' hans' => he (h.eq_of_nonce hrt hr₀ ?_)⟩
        exact Option.some.inj (hans'.1.symm.trans hr.nonce_eq)

theorem Tracks.startRoundTrip (h : n.Tracks rts) (net : Network)
    (hf : ∀ rt ∈ rts, rt.nonce ≠ nonce) (request : Request) :
    Continues n rts (linkFuture (n.startRoundTrip net nonce request).2.2).waits
      (n.startRoundTrip net nonce request).1 ∧
    ∀ rt ∈ (linkFuture (n.startRoundTrip net nonce request).2.2).waits, rt.nonce = nonce := by
  have hs := h.started request hf
  have hstarted : n.openChannel.insertWaiter nonce (request.waiter n.oneshots.length) =
      n.started nonce request := rfl
  simp only [BaseNode.startRoundTrip,hstarted]
  cases net request.dest (request.event n nonce) with
  | ok u => exact ⟨hs,by simp [linkFuture,LinkFuture.waits]⟩
  | error e =>
    have hd : Continues _ rts [] ((n.started nonce request).dropGuard nonce) :=
      hs.tracks.drop List.perm_append_comm
    refine ⟨⟨hd.tracks,fun rt hr => ?_,hd.calls.trans hs.calls,hd.core.trans hs.core,
      by simp [linkFuture,LinkFuture.waits],hs.length.trans hd.length⟩,
      by simp [linkFuture,LinkFuture.waits]⟩
    exact (hs.kept rt hr).trans (hd.kept rt hr)

theorem suspend_waits (started : BaseNode × List Packet × Except Error RoundTrip)
    {next : RoundTrip → Call} (h : ∀ rt, (next rt).waits = [rt]) :
    (suspend started next).2.2.waits = (linkFuture started.2.2).waits := by
  obtain ⟨m,ps,e | rt⟩ := started
  · rfl
  · exact h rt

theorem Tracks.suspend (h : n.Tracks rts) (net : Network) (hf : ∀ rt ∈ rts, rt.nonce ≠ nonce)
    (request : Request) {next : RoundTrip → Call} (hn : ∀ rt, (next rt).waits = [rt]) :
    Continues n rts (BaseNode.suspend (n.startRoundTrip net nonce request) next).2.2.waits
      (BaseNode.suspend (n.startRoundTrip net nonce request) next).1 ∧
    ∀ rt ∈ (BaseNode.suspend (n.startRoundTrip net nonce request) next).2.2.waits,
      rt.nonce = nonce := by
  rw [suspend_fst,suspend_waits _ hn]
  exact h.startRoundTrip net hf request

end BaseNode

/-- The nonces that a call draws when it goes on with the result of a round trip. -/
def Call.draws (id : Identifier) (result : Except Error Reply) (nonce₁ nonce₂ : Nonce) :
    Call → List Nonce
  | joinSearch _ _ =>
    match result with
    | .ok (.search res) => if res.result = id then [] else [nonce₁]
    | _ => []
  | joinNeighbor _ _ _ =>
    match result with
    | .ok (.neighbor res) => nonce₁::(res.neighbor.map fun _ => nonce₂).toList
    | _ => []
  | _ => []

namespace BaseNode

/-- The nonces of the requests that a segment of a call starts, sent or not. -/
def draws (n : BaseNode) : CallAction → List Nonce
  | .searchById req =>
    match n.core.searchById req with
    | .ok res => if res.result = n.core.id then [] else [req.nonce]
    | .error _ => []
  | .getMaxLevel _ nonce => [nonce]
  | .getNeighbor _ _ _ nonce => [nonce]
  | .sendLinkRequest _ _ _ nonce => [nonce]
  | .joinStage1LinkLevel0 introducer _ nonce => if introducer = n.core.id then [] else [nonce]
  | .wake k i nonce₁ nonce₂ =>
    ((n.calls[k]?.bind fun call => call.waits[i]?.bind fun rt => (n.received rt).map fun result =>
      call.draws n.core.id result nonce₁ nonce₂).getD [])
  | .timeout _ _ => []
  | .cancel _ => []

/-- The live nonces stay pairwise distinct. -/
def DrawsDistinct (n : BaseNode) : LocalAction → Prop
  | .receive _ _ => True
  | .call _ a => (n.draws a).Nodup ∧ ∀ rt ∈ n.waits, rt.nonce ∉ n.draws a

instance (n : BaseNode) (a : LocalAction) : Decidable (n.DrawsDistinct a) :=
  match a with
  | .receive _ _ => isTrue trivial
  | .call _ _ => inferInstanceAs (Decidable (_ ∧ _))

variable {net : Network} {n n' n'' : BaseNode} {rts kept new new' : List RoundTrip}
  {rt rt' : RoundTrip} {nonce : Nonce} {request : Request} {ev : Event} {a : CallAction}

theorem Tracks.resume (h : n.Tracks rts) (net : Network) {call : Call} (rt : RoundTrip)
    (result : Except Error Reply) (nonce₁ nonce₂ : Nonce) (hm : rt ∈ call.waits)
    (hnd : (call.draws n.core.id result nonce₁ nonce₂).Nodup)
    (hf : ∀ rt ∈ rts, rt.nonce ∉ call.draws n.core.id result nonce₁ nonce₂) :
    ∃ new, Continues n rts new (n.resume net rt result nonce₁ nonce₂ call).1 ∧
      (n.resume net rt result nonce₁ nonce₂ call).2.2.waits =
        call.waits.filter (· ≠ rt) ++ new ∧
      ∀ rt ∈ new, rt.nonce ∈ call.draws n.core.id result nonce₁ nonce₂ := by
  have hend : ∀ call' : Call, call'.waits = call.waits.filter (· ≠ rt) → ∃ new,
      Continues n rts new n ∧ call'.waits = call.waits.filter (· ≠ rt) ++ new ∧
      ∀ rt ∈ new, rt.nonce ∈ call.draws n.core.id result nonce₁ nonce₂ := fun call' hw =>
    ⟨[],Continues.refl h,by simpa using hw,by simp⟩
  cases call with
  | single rt' =>
    obtain rfl : rt = rt' := by simpa [Call.waits] using hm
    exact hend _ (by simp [Call.waits,BaseNode.resume])
  | joinSearch d rt' =>
    obtain rfl : rt = rt' := by simpa [Call.waits] using hm
    rcases result with e | (res | res | res | res)
    · exact hend _ (by simp [Call.waits,BaseNode.resume])
    · exact hend _ (by simp [Call.waits,BaseNode.resume])
    · simp only [BaseNode.resume,joinAfterSearch]
      by_cases heq : res.result = n.core.id
      · simp only [if_pos heq]
        exact hend _ (by simp [Call.waits])
      · have hdraws : (Call.joinSearch d rt).draws n.core.id (.ok (.search res)) nonce₁ nonce₂ =
            [nonce₁] := by simp [Call.draws,heq]
        rw [hdraws] at hf ⊢
        obtain ⟨hc,hnonce⟩ := h.suspend net (by simpa using hf) (.neighbor res.result d 0)
          (fun rt => (rfl : (Call.joinNeighbor d res.result rt).waits = [rt]))
        simp only [if_neg heq]
        exact ⟨_,hc,by simp [Call.waits,getNeighbor],fun rt hr => by simp [hnonce rt hr]⟩
    · exact hend _ (by simp [Call.waits,BaseNode.resume])
    · exact hend _ (by simp [Call.waits,BaseNode.resume])
  | joinNeighbor d anchor rt' =>
    obtain rfl : rt = rt' := by simpa [Call.waits] using hm
    rcases result with e | (res | res | res | res)
    · exact hend _ (by simp [Call.waits,BaseNode.resume])
    · exact hend _ (by simp [Call.waits,BaseNode.resume])
    · exact hend _ (by simp [Call.waits,BaseNode.resume])
    · have hf₁ : ∀ rt ∈ rts, rt.nonce ≠ nonce₁ := fun rt hr he =>
        hf rt hr (by simp [Call.draws,he])
      obtain ⟨h₁,hn₁⟩ := h.startRoundTrip net hf₁ (.link anchor d 0)
      cases hq : res.neighbor with
      | none =>
        simp only [BaseNode.resume,joinAfterNeighbor,hq,sendLinkRequest,Call.settled_waits]
        exact ⟨_,h₁,by simp [Call.waits],fun rt hr => by simp [Call.draws,hn₁ rt hr]⟩
      | some q =>
        have hne : nonce₁ ≠ nonce₂ := by simpa [Call.draws,hq] using hnd
        have hf₂ : ∀ rt ∈ rts++(linkFuture
            (n.startRoundTrip net nonce₁ (.link anchor d 0)).2.2).waits, rt.nonce ≠ nonce₂ := by
          intro rt hr he
          rcases List.mem_append.mp hr with hr | hr
          · exact hf rt hr (by simp [Call.draws,hq,he])
          · exact hne ((hn₁ rt hr).symm.trans he)
        obtain ⟨h₂,hn₂⟩ := h₁.tracks.startRoundTrip net hf₂ (.link q.id d.opposite 0)
        simp only [BaseNode.resume,joinAfterNeighbor,hq,sendLinkRequest,Call.settled_waits]
        refine ⟨_,h₁.trans h₂,by simp [Call.waits],fun rt hr => ?_⟩
        rcases List.mem_append.mp hr with hr | hr
        · simp [Call.draws,hn₁ rt hr]
        · simp [Call.draws,hq,hn₂ rt hr]
    · exact hend _ (by simp [Call.waits,BaseNode.resume])
  | joinLink d anchor q sl ql =>
    refine hend _ ?_
    simp only [BaseNode.resume,Call.settled_waits]
    cases ql <;> simp [Call.waits,LinkFuture.settle_waits]
  | returned r => simp [Call.waits] at hm
  | cancelled => simp [Call.waits] at hm

/-- The action is the end of round trip `rt`: its call goes on, its timer fires, or its
future is dropped. -/
def EndedBy (n : BaseNode) (rt : RoundTrip) : CallAction → Prop
  | .wake k i _ _ => ∃ call, n.calls[k]? = some call ∧ call.waits[i]? = some rt
  | .timeout k i => ∃ call, n.calls[k]? = some call ∧ call.waits[i]? = some rt
  | .cancel k => ∃ call, n.calls[k]? = some call ∧ rt ∈ call.waits
  | _ => False

/-- The effect of one segment: `kept` stay live, `new` become live, all others end. -/
structure Moves (n : BaseNode) (a : CallAction) (kept new : List RoundTrip) (n' : BaseNode) :
    Prop where
  continues : ∃ n₁, Continues n kept new n₁ ∧ n' = { n₁ with calls := n'.calls }
  waits : n'.waits.Perm (kept++new)
  subset : ∀ rt ∈ kept, rt ∈ n.waits
  ended : ∀ rt ∈ n.waits, rt ∉ kept → n.EndedBy rt a
  fresh : ∀ rt ∈ n.waits, ∀ rt' ∈ new, rt.nonce ≠ rt'.nonce
  returns : ∀ (j : ℕ) (rt : RoundTrip) (o : Output), n.calls[j]? = some (.single rt) →
    n'.calls[j]? = some (.returned (.ok o)) →
    ∃ reply, n.received rt = some (.ok reply) ∧ o = reply.output

theorem single_of_set {k j : ℕ} {call c : Call} {rt : RoundTrip} {o : Output}
    (hk : n.calls[k]? = some call) (hj : n.calls[j]? = some (.single rt))
    (h : (n.calls.set k c)[j]? = some (.returned (.ok o))) :
    call = .single rt ∧ c = .returned (.ok o) := by
  by_cases hkj : k = j
  · subst hkj
    have hlt := (List.getElem?_eq_some_iff.mp hk).1
    rw [List.getElem?_set_self hlt] at h
    exact ⟨Option.some.inj (hk.symm.trans hj),Option.some.inj h⟩
  · rw [List.getElem?_set_ne hkj,hj] at h
    simp at h

theorem moves_begin {seg : BaseNode × List Packet × Call}
    (h : Continues n n.waits seg.2.2.waits seg.1) :
    Moves n a n.waits seg.2.2.waits (begin seg).1 where
  continues := ⟨seg.1,h,rfl⟩
  waits := by
    have hw : (begin seg).1.waits = n.waits ++ seg.2.2.waits := by
      simp [begin,BaseNode.waits,h.calls]
    rw [hw]
  subset _ hr := hr
  ended _ hr hn := absurd hr hn
  fresh rt hr rt' hr' := by
    have hnd := h.tracks.nonces
    rw [List.map_append] at hnd
    exact (List.nodup_append.mp hnd).2.2 _ (List.mem_map_of_mem hr) _ (List.mem_map_of_mem hr')
  returns j rt o hj hj' := by
    have hlt := (List.getElem?_eq_some_iff.mp hj).1
    simp only [begin,h.calls,List.getElem?_append_left hlt,hj] at hj'
    simp at hj'

theorem moves_return (h : n.Tracks n.waits) (r : Except Error Output) :
    Moves n a n.waits [] (begin (n,[],.returned r)).1 :=
  @moves_begin n a (n,[],.returned r) (Continues.refl h)

theorem moves_suspend (h : n.Tracks n.waits) (net : Network) (request : Request)
    {next : RoundTrip → Call} (hn : ∀ rt, (next rt).waits = [rt])
    (hf : ∀ rt ∈ n.waits, rt.nonce ≠ nonce) :
    ∃ new, Moves n a n.waits new
      (begin (BaseNode.suspend (n.startRoundTrip net nonce request) next)).1 :=
  ⟨_,moves_begin (h.suspend net hf request hn).1⟩

theorem Tracks.waits_perm (h : n.Tracks n.waits) {k : ℕ} {call : Call}
    (hk : n.calls[k]? = some call) (hm : rt ∈ call.waits) :
    n.waits.Perm (rt::(call.waits.filter (· ≠ rt) ++ (n.calls.eraseIdx k).flatMap Call.waits)) := by
  have hrest := flatMap_perm Call.waits hk
  have hcall : call.waits.Nodup :=
    (List.nodup_append.mp (hrest.nodup_iff.mp (h.nonces.of_map _))).1
  have herase : call.waits.erase rt = call.waits.filter (· ≠ rt) := by
    rw [hcall.erase_eq_filter]
    congr 1
    funext x
    simp [bne,beq_eq_decide]
  have hsplit := List.perm_cons_erase hm
  rw [herase] at hsplit
  exact hrest.trans (hsplit.append_right _)

/-- One round trip of a call ends and the call goes on. -/
theorem moves_end (h : n.Tracks n.waits) (net : Network) {k i : ℕ} {call : Call} {rt : RoundTrip}
    (result : Except Error Reply) (nonce₁ nonce₂ : Nonce) (hk : n.calls[k]? = some call)
    (hi : call.waits[i]? = some rt) (ha : n.EndedBy rt a)
    (hrec : ∀ reply, result = .ok reply → n.received rt = some (.ok reply))
    (hnd : (call.draws n.core.id result nonce₁ nonce₂).Nodup)
    (hf : ∀ rt ∈ n.waits, rt.nonce ∉ call.draws n.core.id result nonce₁ nonce₂) :
    ∃ kept new, Moves n a kept new (n.endRoundTrip net k call rt result nonce₁ nonce₂).1 := by
  have hm : rt ∈ call.waits := List.mem_of_getElem? hi
  have hperm := h.waits_perm hk hm
  set rest := (n.calls.eraseIdx k).flatMap Call.waits
  have hdrop := h.drop hperm
  have hin : ∀ rt' ∈ call.waits.filter (· ≠ rt) ++ rest, rt' ∈ n.waits := fun rt' hr =>
    hperm.mem_iff.mpr (List.mem_cons_of_mem _ hr)
  have htr : (n.dropGuard rt.nonce).Tracks (call.waits.filter (· ≠ rt) ++ rest) := by
    simpa using hdrop.tracks
  have hid : (n.dropGuard rt.nonce).core.id = n.core.id := by rw [dropGuard_core]
  obtain ⟨new,hres,hw,hnew⟩ := htr.resume net rt result nonce₁ nonce₂ hm (by rw [hid]; exact hnd)
    (fun rt' hr => by rw [hid]; exact hf rt' (hin rt' hr))
  have hcont : Continues n (call.waits.filter (· ≠ rt) ++ rest) new
      ((n.dropGuard rt.nonce).resume net rt result nonce₁ nonce₂ call).1 := by
    have hh := hdrop.trans (by simpa using hres)
    simpa using hh
  have hcalls : (n.endRoundTrip net k call rt result nonce₁ nonce₂).1.calls = n.calls.set k
      ((n.dropGuard rt.nonce).resume net rt result nonce₁ nonce₂ call).2.2 := by
    simp [endRoundTrip,hcont.calls]
  refine ⟨_,new,⟨_,hcont,rfl⟩,?_,hin,fun rt' hr' hn => ?_,fun rt' hr' rt'' hr'' he => ?_,
    fun j rt' o hj hj' => ?_⟩
  · rw [BaseNode.waits,hcalls]
    refine (flatMap_set_perm Call.waits _ hk).trans ?_
    rw [hw,List.append_assoc,List.append_assoc]
    exact List.perm_append_comm.append_left _
  · rcases List.mem_cons.mp (hperm.mem_iff.mp hr') with rfl | hr'
    · exact ha
    · exact absurd hr' hn
  · exact hf rt' hr' (he ▸ hid ▸ hnew rt'' hr'')
  · rw [hcalls] at hj'
    obtain ⟨rfl,hret⟩ := single_of_set hk hj hj'
    obtain rfl : rt = rt' := by simpa [Call.waits] using hm
    rcases result with e | reply
    · simp [BaseNode.resume,Except.map] at hret
    · simp only [BaseNode.resume,Except.map,Call.returned.injEq,Except.ok.injEq] at hret
      exact ⟨reply,hrec reply rfl,hret.symm⟩

theorem Tracks.dropGuards (h : n.Tracks rts) {ended : List RoundTrip}
    (hp : rts.Perm (ended++kept)) :
    Continues n kept [] (ended.foldl (fun n rt => n.dropGuard rt.nonce) n) := by
  induction ended generalizing n rts with
  | nil => exact Continues.refl (h.perm hp)
  | cons rt ended ih =>
    have hd := h.drop hp
    have ht : (n.dropGuard rt.nonce).Tracks (ended++kept) := by simpa using hd.tracks
    have hrest := ih ht (List.Perm.refl _)
    refine ⟨hrest.tracks,fun rt' hr => ?_,hrest.calls.trans hd.calls,hrest.core.trans hd.core,
      by simp,hd.length.trans hrest.length⟩
    exact (hd.kept rt' (List.mem_append_right _ hr)).trans (hrest.kept rt' hr)

theorem Tracks.callStep (h : n.Tracks n.waits) (net : Network) {r : BaseNode × List Packet}
    (hd : n.DrawsDistinct (.call net a)) (hs : n.callStep net a = some r) :
    ∃ kept new, Moves n a kept new r.1 := by
  obtain ⟨hnd,hf⟩ := hd
  cases a with
  | searchById req =>
    obtain rfl := Option.some.inj hs
    simp only [draws,BaseNode.searchById] at hf ⊢
    cases hsearch : n.core.searchById req with
    | error e => exact ⟨_,[],moves_return h _⟩
    | ok res =>
      simp only [hsearch] at hf ⊢
      split
      · exact ⟨_,[],moves_return h _⟩
      · rename_i hne
        simp only [hne,if_false,List.mem_singleton] at hf
        exact ⟨_,moves_suspend h net _ (fun rt => rfl) hf⟩
  | getMaxLevel introducer nonce =>
    obtain rfl := Option.some.inj hs
    exact ⟨_,moves_suspend h net _ (fun rt => rfl) (by simpa [draws] using hf)⟩
  | getNeighbor src direction level nonce =>
    obtain rfl := Option.some.inj hs
    exact ⟨_,moves_suspend h net _ (fun rt => rfl) (by simpa [draws] using hf)⟩
  | sendLinkRequest dest dir level nonce =>
    obtain rfl := Option.some.inj hs
    exact ⟨_,moves_suspend h net _ (fun rt => rfl) (by simpa [draws] using hf)⟩
  | joinStage1LinkLevel0 introducer maxLevel nonce =>
    obtain rfl := Option.some.inj hs
    simp only [draws] at hf
    simp only [joinStage1LinkLevel0]
    split
    · rename_i hlt
      simp only [ne_of_lt hlt,if_false,List.mem_singleton] at hf
      exact ⟨_,moves_suspend h net _ (fun rt => rfl) hf⟩
    · split
      · rename_i hgt
        simp only [ne_of_gt hgt,if_false,List.mem_singleton] at hf
        exact ⟨_,moves_suspend h net _ (fun rt => rfl) hf⟩
      · exact ⟨_,[],moves_return h _⟩
  | wake k i nonce₁ nonce₂ =>
    obtain ⟨call,hk,hs⟩ := Option.bind_eq_some_iff.mp hs
    obtain ⟨rt,hi,hs⟩ := Option.bind_eq_some_iff.mp hs
    obtain ⟨result,hr,rfl⟩ := Option.map_eq_some_iff.mp hs
    have hdraws : n.draws (.wake k i nonce₁ nonce₂) =
        call.draws n.core.id result nonce₁ nonce₂ := by
      simp [draws,hk,hi,hr]
    rw [hdraws] at hnd hf
    exact moves_end h net result nonce₁ nonce₂ hk hi ⟨call,hk,hi⟩ (fun _ he => he ▸ hr) hnd hf
  | timeout k i =>
    obtain ⟨call,hk,hs⟩ := Option.bind_eq_some_iff.mp hs
    obtain ⟨rt,hi,hs⟩ := Option.bind_eq_some_iff.mp hs
    split at hs
    · obtain rfl := Option.some.inj hs
      have hdraws : call.draws n.core.id (.error (.timedOut rt.request)) rt.nonce rt.nonce = [] := by
        cases call <;> rfl
      exact moves_end h net _ _ _ hk hi ⟨call,hk,hi⟩ (by simp) (by simp [hdraws]) (by simp [hdraws])
    · simp at hs
  | cancel k =>
    obtain ⟨call,hk,hs⟩ := Option.bind_eq_some_iff.mp hs
    split at hs
    · simp at hs
    · obtain rfl := Option.some.inj hs
      have hperm := flatMap_perm Call.waits hk
      have hc := h.dropGuards hperm
      refine ⟨_,[],⟨_,hc,rfl⟩,?_,fun rt hr => ?_,fun rt hr hn => ⟨call,hk,?_⟩,by simp,
        fun j rt o hj hj' => ?_⟩
      · simp only [BaseNode.waits,hc.calls,List.append_nil]
        exact flatMap_set_perm Call.waits .cancelled hk
      · exact hperm.mem_iff.mpr (List.mem_append_right _ hr)
      · rcases List.mem_append.mp (hperm.mem_iff.mp hr) with hr | hr
        · exact hr
        · exact absurd hr hn
      · simp only [hc.calls] at hj'
        exact absurd (single_of_set hk hj hj').2 (by simp)

theorem Moves.tracks (h : Moves n a kept new n') : n'.Tracks n'.waits := by
  obtain ⟨n₁,hc,hn⟩ := h.continues
  have ht : n'.Tracks (kept++new) := by
    rw [hn]
    exact ⟨hc.tracks.nonces,hc.tracks.channels,hc.tracks.rx_lt,hc.tracks.keys,fun rt hr =>
      (hc.tracks.state rt hr).imp (fun hs => ⟨hs.waiter,hs.channel⟩)
        fun ⟨reply,hs⟩ => ⟨reply,hs.waiter,hs.channel,hs.accepts⟩⟩
  exact ht.perm h.waits.symm

theorem Moves.keeps (h : Moves n a kept new n') (hr : rt ∈ kept) : n.Kept n' rt := by
  obtain ⟨n₁,hc,hn⟩ := h.continues
  rw [hn]
  exact ⟨(hc.kept rt hr).waiter,(hc.kept rt hr).channel⟩

theorem Moves.opened (h : Moves n a kept new n') (ht : n.Tracks n.waits) (hr : rt ∈ new) :
    rt ∉ n.waits ∧ n'.Registered rt := by
  obtain ⟨n₁,hc,hn⟩ := h.continues
  obtain ⟨hle,hreg⟩ := hc.opened rt hr
  refine ⟨fun hm => absurd (ht.rx_lt rt hm) (by omega),?_⟩
  rw [hn]
  exact ⟨hreg.waiter,hreg.channel⟩

theorem Tracks.localStep {a : LocalAction} (h : n.Tracks n.waits) (hd : n.DrawsDistinct a)
    (hs : n.localStep a = some n') :
    n'.Tracks n'.waits ∧ ∀ rt ∈ n'.waits,
      (rt ∈ n.waits ∧ n.Kept n' rt ∧ (n.Registered rt → ∀ reply, ¬ a.Answers rt reply)) ∨
      (rt ∈ n.waits ∧ ∃ reply, a.Answers rt reply ∧ n.Registered rt ∧ n'.Replied rt reply) ∨
      (rt ∉ n.waits ∧ n'.Registered rt) := by
  cases a with
  | receive net ev =>
    obtain rfl := Option.some.inj hs
    obtain ⟨ht,hrts⟩ := h.process net ev
    refine ⟨by rw [process_waits]; exact ht,fun rt hr => ?_⟩
    rw [process_waits] at hr
    rcases hrts rt hr with ⟨hk,hn⟩ | ⟨reply,ha,hreg,hrep⟩
    · refine .inl ⟨hr,hk,?_⟩
      rintro hreg reply ⟨_,_,⟨⟩,ha⟩
      exact hn hreg reply ha
    · exact .inr (.inl ⟨hr,reply,⟨net,ev,rfl,ha⟩,hreg,hrep⟩)
  | call net ca =>
    obtain ⟨r,hr,rfl⟩ := Option.map_eq_some_iff.mp hs
    obtain ⟨kept,new,hm⟩ := h.callStep net hd hr
    refine ⟨hm.tracks,fun rt hrt => ?_⟩
    rcases List.mem_append.mp (hm.waits.mem_iff.mp hrt) with hk | hk
    · refine .inl ⟨hm.subset rt hk,hm.keeps hk,?_⟩
      rintro _ reply ⟨_,_,⟨⟩,_⟩
    · exact .inr (.inr (hm.opened h hk))

/-- A waiter is taken from the map by a reply to its own round trip, or by the end of it. -/
theorem Tracks.removed {a : LocalAction} (h : n.Tracks n.waits) (hd : n.DrawsDistinct a)
    (hs : n.localStep a = some n') (hr : rt ∈ n.waits) (hw : n.requestIdMap rt.nonce ≠ none)
    (hne : n'.requestIdMap rt.nonce ≠ n.requestIdMap rt.nonce) :
    (∃ reply, a.Answers rt reply) ∨ ∃ net k call, n.calls[k]? = some call ∧
      ((∃ i, a = .call net (.timeout k i) ∧ call.waits[i]? = some rt) ∨
        a = .call net (.cancel k) ∧ rt ∈ call.waits) := by
  have hreg : n.Registered rt := by
    rcases h.state rt hr with hreg | ⟨reply,hrep⟩
    · exact hreg
    · exact absurd hrep.waiter hw
  cases a with
  | receive net ev =>
    obtain rfl := Option.some.inj hs
    rcases (h.process net ev).2 rt hr with ⟨hk,-⟩ | ⟨reply,ha,-,-⟩
    · exact absurd hk.waiter hne
    · exact .inl ⟨reply,net,ev,rfl,ha⟩
  | call net ca =>
    obtain ⟨r,hr',rfl⟩ := Option.map_eq_some_iff.mp hs
    obtain ⟨kept,new,hm⟩ := h.callStep net hd hr'
    have hend := hm.ended rt hr fun hk => hne (hm.keeps hk).waiter
    right
    cases ca with
    | wake k i nonce₁ nonce₂ =>
      -- the channel of a registered waiter is empty, so its call cannot be woken
      obtain ⟨call,hk,hi⟩ := hend
      simp [BaseNode.callStep,hk,hi,received,hreg.channel] at hr'
    | timeout k i =>
      obtain ⟨call,hk,hi⟩ := hend
      exact ⟨net,k,call,hk,.inl ⟨i,rfl,hi⟩⟩
    | cancel k =>
      obtain ⟨call,hk,hi⟩ := hend
      exact ⟨net,k,call,hk,.inr ⟨rfl,hi⟩⟩
    | _ => exact hend.elim

theorem Tracks.absent (h : n.Tracks n.waits) (hn : ∀ rt ∈ n.waits, rt.nonce ≠ nonce) :
    n.requestIdMap nonce = none := by
  cases hw : n.requestIdMap nonce with
  | none => rfl
  | some w =>
    obtain ⟨rt,hr,he,-⟩ := h.keys nonce w hw
    exact absurd he (hn rt hr)

theorem Tracks.ended {a : LocalAction} (h : n.Tracks n.waits) (hd : n.DrawsDistinct a)
    (hs : n.localStep a = some n') (hr : rt ∈ n.waits) (hn : rt ∉ n'.waits) :
    n'.requestIdMap rt.nonce = none := by
  cases a with
  | receive net ev =>
    obtain rfl := Option.some.inj hs
    rw [process_waits] at hn
    exact absurd hr hn
  | call net ca =>
    obtain ⟨r,hr',rfl⟩ := Option.map_eq_some_iff.mp hs
    obtain ⟨kept,new,hm⟩ := h.callStep net hd hr'
    refine hm.tracks.absent fun rt' hrt' he => ?_
    rcases List.mem_append.mp (hm.waits.mem_iff.mp hrt') with hk | hk
    · obtain rfl := h.eq_of_nonce (hm.subset rt' hk) hr he
      exact hn hrt'
    · exact hm.fresh rt hr rt' hk he.symm

theorem Tracks.returns {a : LocalAction} (h : n.Tracks n.waits) (hd : n.DrawsDistinct a)
    (hs : n.localStep a = some n') {k : ℕ} {o : Output} (hk : n.calls[k]? = some (.single rt))
    (ho : n'.calls[k]? = some (.returned (.ok o))) :
    ∃ reply, n.received rt = some (.ok reply) ∧ o = reply.output := by
  cases a with
  | receive net ev =>
    obtain rfl := Option.some.inj hs
    simp [hk] at ho
  | call net ca =>
    obtain ⟨r,hr,rfl⟩ := Option.map_eq_some_iff.mp hs
    obtain ⟨kept,new,hm⟩ := h.callStep net hd hr
    exact hm.returns k rt o hk ho

theorem Tracks.replied_of_received (h : n.Tracks n.waits) (hr : rt ∈ n.waits) {reply : Reply}
    (hrec : n.received rt = some (.ok reply)) : n.Replied rt reply := by
  rcases h.state rt hr with hreg | ⟨reply',hrep⟩
  · simp [received,hreg.channel] at hrec
  · obtain rfl : reply' = reply := by
      simpa [received,hrep.channel,hrep.accepts] using hrec
    exact hrep

/-- `mid` are the actions of the run `as` from `n₀` that follow the start of `rt`. -/
def Since (n₀ : BaseNode) (as : List LocalAction) (rt : RoundTrip) (mid : List LocalAction) :
    Prop :=
  ∃ pre a m m', as = pre++a::mid ∧ Trace BaseNode.localStep DrawsDistinct n₀ pre m ∧
    m.localStep a = some m' ∧ rt ∉ m.waits ∧ rt ∈ m'.waits

theorem Since.snoc {n₀ : BaseNode} {as mid : List LocalAction} (h : Since n₀ as rt mid)
    (a : LocalAction) : Since n₀ (as++[a]) rt (mid++[a]) := by
  obtain ⟨pre,b,m,m',rfl,hh⟩ := h
  exact ⟨pre,b,m,m',by simp,hh⟩

/-- The run up to now, as the live round trips see it. -/
structure Heard (n₀ : BaseNode) (as : List LocalAction) (n : BaseNode) : Prop where
  trace : Trace BaseNode.localStep DrawsDistinct n₀ as n
  tracks : n.Tracks n.waits
  silent : ∀ rt ∈ n.waits, n.Registered rt → ∃ mid, Since n₀ as rt mid ∧
    ∀ a ∈ mid, ∀ reply, ¬ a.Answers rt reply
  first : ∀ rt ∈ n.waits, ∀ reply, n.Replied rt reply → ∃ pre a post,
    Since n₀ as rt (pre++a::post) ∧ a.Answers rt reply ∧
    ∀ b ∈ pre, ∀ reply', ¬ b.Answers rt reply'

theorem Kept.registered_of (h : n.Kept n' rt) (hr : n'.Registered rt) : n.Registered rt :=
  ⟨h.waiter.symm.trans hr.waiter,h.channel.symm.trans hr.channel⟩

theorem Replied.not_registered {reply : Reply} (h : n.Replied rt reply) : ¬ n.Registered rt := by
  intro hr
  have hh := h.waiter.symm.trans hr.waiter
  simp at hh

theorem Replied.unique {reply reply' : Reply} (h : n.Replied rt reply)
    (h' : n.Replied rt reply') : reply = reply' := by
  have hh := h.channel.symm.trans h'.channel
  simpa using hh

theorem Heard.step {n₀ : BaseNode} {as : List LocalAction} {a : LocalAction}
    (h : Heard n₀ as n) (hd : n.DrawsDistinct a) (hs : n.localStep a = some n') :
    Heard n₀ (as++[a]) n' := by
  obtain ⟨ht,hrts⟩ := h.tracks.localStep hd hs
  refine ⟨h.trace.snoc hs hd,ht,fun rt hr hreg => ?_,fun rt hr reply hrep => ?_⟩
  · rcases hrts rt hr with ⟨hold,hk,hno⟩ | ⟨-,reply,-,-,hrep⟩ | ⟨hnew,-⟩
    · obtain ⟨mid,hsince,hmid⟩ := h.silent rt hold (hk.registered_of hreg)
      refine ⟨mid++[a],hsince.snoc a,fun b hb => ?_⟩
      rcases List.mem_append.mp hb with hb | hb
      · exact hmid b hb
      · obtain rfl : b = a := by simpa using hb
        exact hno (hk.registered_of hreg)
    · exact absurd hreg hrep.not_registered
    · exact ⟨[],⟨as,a,n,n',rfl,h.trace,hs,hnew,hr⟩,by simp⟩
  · rcases hrts rt hr with ⟨hold,hk,-⟩ | ⟨hold,reply',ha,hreg,hrep'⟩ | ⟨-,hreg⟩
    · have hrep' : n.Replied rt reply :=
        ⟨hk.waiter.symm.trans hrep.waiter,hk.channel.symm.trans hrep.channel,hrep.accepts⟩
      obtain ⟨pre,b,post,hsince,hb,hpre⟩ := h.first rt hold reply hrep'
      exact ⟨pre,b,post++[a],by simpa using hsince.snoc a,hb,hpre⟩
    · obtain rfl := hrep.unique hrep'
      obtain ⟨mid,hsince,hmid⟩ := h.silent rt hold hreg
      exact ⟨mid,a,[],hsince.snoc a,ha,hmid⟩
    · exact absurd hreg hrep.not_registered

theorem heard_run {core : BaseCore} {address : Address} {as : List LocalAction}
    (h : Trace BaseNode.localStep DrawsDistinct (BaseNode.new core address) as n) :
    Heard (BaseNode.new core address) as n := by
  refine h.history (P := Heard (BaseNode.new core address)) ⟨.nil _,?_,by simp [BaseNode.new,waits],
    by simp [BaseNode.new,waits]⟩ fun as m a m' hm ho hs => hm.step ho hs
  exact ⟨by simp [BaseNode.new,waits],by simp [BaseNode.new,waits],by simp [BaseNode.new,waits],by simp [BaseNode.new],
    by simp [BaseNode.new,waits]⟩

/-- Whatever peers send and however calls are started, time out, fail to send and are
cancelled: the map holds only waiters of live calls, a live call's waiter is taken only by a
reply to that call or by its end, a call succeeds only with the first reply to it, and a call
that has ended leaves nothing behind. -/
theorem waiters_isolated {core : BaseCore} {address : Address} {as : List LocalAction}
    (h : Trace BaseNode.localStep DrawsDistinct (BaseNode.new core address) as n) :
    (∀ nonce w, n.requestIdMap nonce = some w →
      ∃ rt ∈ n.waits, rt.nonce = nonce ∧ w = rt.request.waiter rt.rx) ∧
    (∀ a n', n.DrawsDistinct a → n.localStep a = some n' → ∀ rt ∈ n.waits,
      n.requestIdMap rt.nonce ≠ none → n'.requestIdMap rt.nonce ≠ n.requestIdMap rt.nonce →
      (∃ reply, a.Answers rt reply) ∨ ∃ net k call, n.calls[k]? = some call ∧
        ((∃ i, a = .call net (.timeout k i) ∧ call.waits[i]? = some rt) ∨
          a = .call net (.cancel k) ∧ rt ∈ call.waits)) ∧
    (∀ rt ∈ n.waits, ∀ reply, n.received rt = some (.ok reply) → ∃ pre a post,
      Since (BaseNode.new core address) as rt (pre++a::post) ∧ a.Answers rt reply ∧
      ∀ b ∈ pre, ∀ reply', ¬ b.Answers rt reply') ∧
    (∀ a n', n.DrawsDistinct a → n.localStep a = some n' → ∀ (k : ℕ) rt o,
      n.calls[k]? = some (.single rt) → n'.calls[k]? = some (.returned (.ok o)) →
      ∃ reply, n.received rt = some (.ok reply) ∧ o = reply.output) ∧
    (∀ a n', n.DrawsDistinct a → n.localStep a = some n' → ∀ rt ∈ n.waits, rt ∉ n'.waits →
      n'.requestIdMap rt.nonce = none) ∧
    ∀ nonce, (∀ rt ∈ n.waits, rt.nonce ≠ nonce) → n.requestIdMap nonce = none := by
  have hh := heard_run h
  refine ⟨hh.tracks.keys,fun a n' hd hs rt hr hw hne => hh.tracks.removed hd hs hr hw hne,
    fun rt hr reply hrec => hh.first rt hr reply (hh.tracks.replied_of_received hr hrec),
    fun a n' hd hs k rt o hk ho => hh.tracks.returns hd hs hk ho,
    fun a n' hd hs rt hr hn => hh.tracks.ended hd hs hr hn,fun nonce hn => hh.tracks.absent hn⟩

theorem waiters_isolated_two_calls :
    let me := BaseNode.new ⟨.ofByte 5,⟨Vector.replicate _ 0⟩,.new⟩ ⟨"",""⟩
    let rt : RoundTrip := ⟨.maxLevel (.ofByte 7),⟨1⟩,0⟩
    let wrong : LocalAction := .receive reliable (.retNeighborOp ⟨⟨1⟩,0,.right,none⟩)
    let reply : LocalAction := .receive reliable (.retMaxLevelOp ⟨⟨1⟩,3⟩)
    ∃ (as : List LocalAction) (n : BaseNode), Trace BaseNode.localStep DrawsDistinct me as n ∧
      n.requestIdMap ⟨2⟩ = some (.link 1 0 .left) ∧ n.requestIdMap ⟨1⟩ = none ∧
      rt ∈ n.waits ∧ n.received rt = some (.ok (.maxLevel ⟨⟨1⟩,3⟩)) ∧
      as.drop 2 = [wrong,reply,.receive reliable (.retMaxLevelOp ⟨⟨1⟩,4⟩)] ∧
      ∃ pre a post, Since me as rt (pre++a::post) ∧ a.Answers rt (.maxLevel ⟨⟨1⟩,3⟩) := by
  intro me rt wrong reply
  obtain ⟨n,ht,hc⟩ := exists_trace_of_runWhile BaseNode.localStep
    (fun n a => decide (n.DrawsDistinct a)) me
    [.call reliable (.getMaxLevel (.ofByte 7) ⟨1⟩),
      .call reliable (.sendLinkRequest (.ofByte 8) .right 0 ⟨2⟩),wrong,reply,
      .receive reliable (.retMaxLevelOp ⟨⟨1⟩,4⟩)]
    (fun n => decide (n.requestIdMap ⟨2⟩ = some (.link 1 0 .left) ∧ n.requestIdMap ⟨1⟩ = none ∧
      rt ∈ n.waits ∧ n.received rt = some (.ok (.maxLevel ⟨⟨1⟩,3⟩)))) (by decide +kernel)
  obtain ⟨hlink,hnone,hrt,hrec⟩ := of_decide_eq_true hc
  have htr : Trace BaseNode.localStep DrawsDistinct me _ n :=
    ht.mono fun _ _ ho => of_decide_eq_true ho
  obtain ⟨pre,a,post,hsince,ha,-⟩ := (waiters_isolated htr).2.2.1 rt hrt _ hrec
  exact ⟨_,n,htr,hlink,hnone,hrt,hrec,rfl,pre,a,post,hsince,ha⟩

end BaseNode

end SkipGraph
