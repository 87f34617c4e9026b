import SkipGraph.System

/-!
# What one segment of a call can do

`Extends` bounds the effect of a segment on the waiter map and the channels;
`callStep_change` lists the ways in which a segment moves a call on. Together they
are the only description of `callStep` that the invariants below use.
-/

namespace SkipGraph

def RoundTrip.packet (n : BaseNode) (rt : RoundTrip) : Packet :=
  ⟨rt.request.dest,rt.request.event n rt.nonce⟩

namespace BaseNode

variable {n n' : BaseNode} {nonce : Nonce} {ended : List Nonce} {new : List RoundTrip}

theorem event_congr (h : n'.selfIdentity = n.selfIdentity) (request : Request) (nonce : Nonce) :
    request.event n' nonce = request.event n nonce := by
  have hid : n'.id = n.id := congrArg Identity.id h
  cases request <;> simp [Request.event,hid,h]

/-- `n'` is `n` after the guards of `ended` were dropped and the round trips `new` were
started: the waiter map changes only at their nonces, a channel outside `new` changes
only when its sender was stored under one of them, and no channel receives a value. -/
structure Extends (n : BaseNode) (ended : List Nonce) (new : List RoundTrip) (n' : BaseNode) :
    Prop where
  core : n'.core = n.core
  address : n'.address = n.address
  calls : n'.calls = n.calls
  length : n'.oneshots.length = n.oneshots.length + new.length
  rx : ∀ i rt, new[i]? = some rt → rt.rx = n.oneshots.length + i
  map_new : ∀ nonce w, n'.requestIdMap nonce = some w → n.requestIdMap nonce = some w ∨
    ∃ rt ∈ new, rt.nonce = nonce ∧ w = rt.request.waiter rt.rx
  map_old : ∀ nonce, nonce ∉ ended → (∀ rt ∈ new, rt.nonce ≠ nonce) →
    n'.requestIdMap nonce = n.requestIdMap nonce
  sent : ∀ (rx : ℕ) (reply : Reply), n'.oneshots[rx]? = some (.sent reply) →
    n.oneshots[rx]? = some (.sent reply)
  oneshot_old : ∀ rx : ℕ, rx < n.oneshots.length →
    (∀ nonce w, (nonce ∈ ended ∨ ∃ rt ∈ new, rt.nonce = nonce) →
      n.requestIdMap nonce = some w → w.tx ≠ rx) → n'.oneshots[rx]? = n.oneshots[rx]?
  registered : (∀ nonce w, n.requestIdMap nonce = some w → w.tx < n.oneshots.length) →
    (new.map RoundTrip.nonce).Nodup → ∀ rt ∈ new,
      n'.requestIdMap rt.nonce = some (rt.request.waiter rt.rx) ∧
      n'.oneshots[rt.rx]? = some Oneshot.empty

namespace Extends

theorem refl (n : BaseNode) : Extends n [] [] n where
  core := rfl
  address := rfl
  calls := rfl
  length := by simp
  rx := by simp
  map_new := fun _ _ h => .inl h
  map_old := fun _ _ _ => rfl
  sent := fun _ _ h => h
  oneshot_old := fun _ _ _ => rfl
  registered := by simp

theorem selfIdentity (h : Extends n ended new n') : n'.selfIdentity = n.selfIdentity := by
  simp [BaseNode.selfIdentity,h.core,h.address]

theorem rx_ge (h : Extends n ended new n') {rt : RoundTrip} (hr : rt ∈ new) :
    n.oneshots.length ≤ rt.rx := by
  obtain ⟨i,hi⟩ := List.mem_iff_getElem?.mp hr
  have hh := h.rx i rt hi
  omega

theorem rx_lt (h : Extends n ended new n') {rt : RoundTrip} (hr : rt ∈ new) :
    rt.rx < n'.oneshots.length := by
  obtain ⟨i,hi⟩ := List.mem_iff_getElem?.mp hr
  have hh := h.rx i rt hi
  have hl := (List.getElem?_eq_some_iff.mp hi).1
  rw [h.length]
  omega

theorem rx_inj (h : Extends n ended new n') {rt rt' : RoundTrip} (hr : rt ∈ new)
    (hr' : rt' ∈ new) (he : rt.rx = rt'.rx) : rt = rt' := by
  obtain ⟨i,hi⟩ := List.mem_iff_getElem?.mp hr
  obtain ⟨j,hj⟩ := List.mem_iff_getElem?.mp hr'
  have h1 := h.rx i rt hi
  have h2 := h.rx j rt' hj
  obtain rfl : i = j := by omega
  exact Option.some.inj (hi.symm.trans hj)

end Extends

theorem dropSender_sent {tx rx : ℕ} {reply : Reply}
    (h : (n.dropSender tx).oneshots[rx]? = some (Oneshot.sent reply)) :
    n.oneshots[rx]? = some (Oneshot.sent reply) := by
  simp only [dropSender,List.getElem?_modify] at h
  cases ho : n.oneshots[rx]? with
  | none => simp [ho] at h
  | some o =>
    by_cases ht : tx = rx
    · cases o <;> simp_all
    · simp_all

theorem dropSender_ne {tx rx : ℕ} (h : tx ≠ rx) :
    (n.dropSender tx).oneshots[rx]? = n.oneshots[rx]? := by
  simp [dropSender,h]

@[simp] theorem dropSender_length (tx : ℕ) :
    (n.dropSender tx).oneshots.length = n.oneshots.length := by simp [dropSender]

theorem Extends.drop (h : Extends n ended [] n') (nonce : Nonce) :
    Extends n (ended++[nonce]) [] (n'.dropGuard nonce) := by
  cases hm : n'.requestIdMap nonce with
  | none =>
    have hd : n'.dropGuard nonce = n' := by simp [dropGuard,hm]
    rw [hd]
    refine { h with map_old := ?_, oneshot_old := ?_ }
    · exact fun m hmem hnew => h.map_old m (fun hh => hmem (by simp [hh])) hnew
    · refine fun rx hrx hne => h.oneshot_old rx hrx fun m w hmem => hne m w ?_
      exact hmem.imp_left fun hh => by simp [hh]
  | some w =>
    have hd : n'.dropGuard nonce = (n'.removeWaiter nonce).dropSender w.tx := by
      simp [dropGuard,hm]
    rw [hd]
    have hw : n.requestIdMap nonce = some w := by simpa using h.map_new nonce w hm
    refine ⟨h.core,h.address,h.calls,?_,by simp,?_,?_,?_,?_,by simp⟩
    · simpa [removeWaiter] using h.length
    · intro m v hv
      simp only [dropSender,removeWaiter,Function.update_apply] at hv
      split at hv
      · simp at hv
      · exact h.map_new m v hv
    · intro m hmem hnew
      have hne : m ≠ nonce := fun hh => hmem (by simp [hh])
      simp only [dropSender,removeWaiter,Function.update_apply,hne,if_false]
      exact h.map_old m (fun hh => hmem (by simp [hh])) hnew
    · intro rx reply hs
      exact h.sent rx reply (dropSender_sent hs)
    · intro rx hrx hne
      rw [dropSender_ne (hne nonce w (.inl (by simp)) hw)]
      exact h.oneshot_old rx hrx fun m v hmem => hne m v (hmem.imp_left fun hh => by simp [hh])

/-- The node after `startRoundTrip` over a network that takes the event. -/
def started (n : BaseNode) (nonce : Nonce) (request : Request) : BaseNode :=
  n.openChannel.insertWaiter nonce (request.waiter n.oneshots.length)

theorem startRoundTrip_reliable (nonce : Nonce) (request : Request) :
    n.startRoundTrip reliable nonce request =
      (n.started nonce request,[⟨request.dest,request.event n nonce⟩],
        .ok ⟨request,nonce,n.oneshots.length⟩) := rfl

@[simp] theorem started_calls (request : Request) : (n.started nonce request).calls = n.calls := by
  simp only [started,insertWaiter]
  split <;> rfl

@[simp] theorem started_length (request : Request) :
    (n.started nonce request).oneshots.length = n.oneshots.length + 1 := by
  simp only [started,insertWaiter]
  split <;> simp [openChannel]

theorem started_map (request : Request) (m : Nonce) : (n.started nonce request).requestIdMap m =
    if m = nonce then some (request.waiter n.oneshots.length) else n.requestIdMap m := by
  simp only [started,insertWaiter]
  split <;> simp [dropSender,openChannel,Function.update_apply]

theorem started_oneshots (request : Request) (rx : ℕ)
    (h : ∀ w, n.requestIdMap nonce = some w → w.tx ≠ rx) :
    (n.started nonce request).oneshots[rx]? = (n.oneshots ++ [Oneshot.empty])[rx]? := by
  simp only [started,insertWaiter]
  split
  · rename_i w hw
    exact dropSender_ne (h w hw)
  · rfl

theorem started_sent (request : Request) {rx : ℕ} {reply : Reply}
    (h : (n.started nonce request).oneshots[rx]? = some (Oneshot.sent reply)) :
    n.oneshots[rx]? = some (Oneshot.sent reply) := by
  have hh : (n.oneshots ++ [Oneshot.empty])[rx]? = some (Oneshot.sent reply) := by
    simp only [started,insertWaiter] at h
    split at h
    · exact dropSender_sent h
    · exact h
  rcases lt_or_ge rx n.oneshots.length with hl | hl
  · rwa [List.getElem?_append_left hl] at hh
  · rw [List.getElem?_append_right hl] at hh
    cases hr : rx - n.oneshots.length with
    | zero => simp [hr] at hh
    | succ m => simp [hr] at hh

theorem Extends.start (h : Extends n ended new n') (nonce : Nonce) (request : Request) :
    Extends n ended (new++[⟨request,nonce,n'.oneshots.length⟩]) (n'.started nonce request) := by
  have hmem : ∀ {m : Nonce}, (∀ rt ∈ new++[⟨request,nonce,n'.oneshots.length⟩], rt.nonce ≠ m) →
      m ≠ nonce ∧ ∀ rt ∈ new, rt.nonce ≠ m := by
    intro m hm
    exact ⟨fun he => hm ⟨request,nonce,n'.oneshots.length⟩ (by simp) he.symm,
      fun rt hr => hm rt (by simp [hr])⟩
  refine ⟨?_,?_,by rw [started_calls,h.calls],?_,?_,?_,?_,?_,?_,?_⟩
  · rw [← h.core]; simp [started]
  · rw [← h.address]; simp [started,openChannel]
  · rw [started_length,h.length]; simp; omega
  · intro i rt hi
    rcases lt_or_ge i new.length with hl | hl
    · rw [List.getElem?_append_left hl] at hi
      exact h.rx i rt hi
    · rw [List.getElem?_append_right hl] at hi
      cases hr : i - new.length with
      | zero =>
        obtain rfl : _ = rt := by simpa [hr] using hi
        have := h.length
        simp only
        omega
      | succ m => simp [hr] at hi
  · intro m w hw
    rw [started_map] at hw
    split at hw
    · rename_i he
      exact .inr ⟨⟨request,nonce,n'.oneshots.length⟩,by simp,he.symm,(Option.some.inj hw).symm⟩
    · rcases h.map_new m w hw with hh | ⟨rt,hr,hh⟩
      · exact .inl hh
      · exact .inr ⟨rt,by simp [hr],hh⟩
  · intro m hend hm
    obtain ⟨hne,hold⟩ := hmem hm
    rw [started_map,if_neg hne]
    exact h.map_old m hend hold
  · intro rx reply hs
    exact h.sent rx reply (started_sent request hs)
  · intro rx hrx hne
    have hlen := h.length
    rw [started_oneshots,List.getElem?_append_left (by omega)]
    · refine h.oneshot_old rx hrx fun m w hmw => hne m w ?_
      rcases hmw with hm | ⟨rt,hr,he⟩
      · exact .inl hm
      · exact .inr ⟨rt,by simp [hr],he⟩
    · intro w hw
      rcases h.map_new nonce w hw with hh | ⟨rt,hr,-,rfl⟩
      · exact hne nonce w (.inr ⟨⟨request,nonce,n'.oneshots.length⟩,by simp,rfl⟩) hh
      · have hg := h.rx_ge hr
        cases hreq : rt.request <;> simp [Request.waiter,Waiter.tx] <;> omega
  · intro hwf hnd rt hr
    simp only [List.map_append,List.map_cons,List.map_nil] at hnd
    obtain ⟨hnd',-,hdis⟩ := List.nodup_append.mp hnd
    have hlen := h.length
    have htx : ∀ w, n'.requestIdMap nonce = some w → w.tx < n.oneshots.length := by
      intro w hw
      rcases h.map_new nonce w hw with hh | ⟨rt',hr',he,-⟩
      · exact hwf nonce w hh
      · exact absurd he (hdis rt'.nonce (List.mem_map_of_mem hr') nonce (by simp))
    rcases List.mem_append.mp hr with hr | hr
    · obtain ⟨hreg,hemp⟩ := h.registered hwf hnd' rt hr
      have hne : rt.nonce ≠ nonce := hdis rt.nonce (List.mem_map_of_mem hr) nonce (by simp)
      have hlt := h.rx_lt hr
      have hge := h.rx_ge hr
      refine ⟨by rw [started_map,if_neg hne,hreg],?_⟩
      rw [started_oneshots,List.getElem?_append_left hlt,hemp]
      intro w hw
      have := htx w hw
      omega
    · obtain rfl : rt = ⟨request,nonce,n'.oneshots.length⟩ := by simpa using hr
      refine ⟨by simp [started_map],?_⟩
      rw [started_oneshots]
      · simp
      · intro w hw
        have := htx w hw
        simp only
        omega

end BaseNode

/-- The requests a node makes outside a join. -/
def CallAction.plain : CallAction → Bool
  | searchById _ => true
  | getMaxLevel _ _ => true
  | getNeighbor _ _ _ _ => true
  | sendLinkRequest _ _ _ _ => true
  | _ => false

/-- How a call of the node named `id` goes on when round trip `rt` has ended with
`result`: the round trips it starts next and what is left of it. -/
inductive Resumes (id : Identifier) (rt : RoundTrip) (result : Except Error Reply) :
    Call → List RoundTrip → Call → Prop
  | single (rt') : Resumes id rt result (.single rt') [] (.returned (result.map Reply.output))
  | searchFailed (d rt' e) (h : result = .error e) :
      Resumes id rt result (.joinSearch d rt') [] (.returned (.error e))
  | searchMistyped (d rt' reply) (h : result = .ok reply) (hr : ∀ res, reply ≠ .search res) :
      Resumes id rt result (.joinSearch d rt') []
        (.returned (.error (.senderDropped rt.request)))
  | collision (d rt' res) (h : result = .ok (.search res)) (he : res.result = id) :
      Resumes id rt result (.joinSearch d rt') [] (.returned (.error .idCollision))
  | found (d rt' res nonce rx) (h : result = .ok (.search res)) (he : res.result ≠ id) :
      Resumes id rt result (.joinSearch d rt') [⟨.neighbor res.result d 0,nonce,rx⟩]
        (.joinNeighbor d res.result ⟨.neighbor res.result d 0,nonce,rx⟩)
  | neighborFailed (d a rt' e) (h : result = .error e) :
      Resumes id rt result (.joinNeighbor d a rt') [] (.returned (.error e))
  | neighborMistyped (d a rt' reply) (h : result = .ok reply) (hr : ∀ res, reply ≠ .neighbor res) :
      Resumes id rt result (.joinNeighbor d a rt') []
        (.returned (.error (.senderDropped rt.request)))
  | linkBoth (d a rt' res q nonce₁ nonce₂ rx₁ rx₂) (h : result = .ok (.neighbor res))
      (hq : res.neighbor = some q) :
      Resumes id rt result (.joinNeighbor d a rt')
        [⟨.link a d 0,nonce₁,rx₁⟩,⟨.link q.id d.opposite 0,nonce₂,rx₂⟩]
        (.joinLink d a (some q) (.waiting ⟨.link a d 0,nonce₁,rx₁⟩)
          (some (.waiting ⟨.link q.id d.opposite 0,nonce₂,rx₂⟩)))
  | linkOne (d a rt' res nonce rx) (h : result = .ok (.neighbor res)) (hq : res.neighbor = none) :
      Resumes id rt result (.joinNeighbor d a rt') [⟨.link a d 0,nonce,rx⟩]
        (.joinLink d a none (.waiting ⟨.link a d 0,nonce,rx⟩) none)
  | link (d a q sl ql) : Resumes id rt result (.joinLink d a q sl ql) []
      (.settled d a q (sl.settle rt result) (ql.map (·.settle rt result)))

theorem Resumes.new_eq_nil {id : Identifier} {rt : RoundTrip} {e : Error} {call call' : Call}
    {new : List RoundTrip} (h : Resumes id rt (.error e) call new call') : new = [] := by
  cases h with
  | found d rt' res nonce rx h => cases h
  | linkBoth d a rt' res q nonce₁ nonce₂ rx₁ rx₂ h => cases h
  | linkOne d a rt' res nonce rx h => cases h
  | _ => rfl

/-- The calls of a node after a segment, with the nonces whose guards it drops and the
round trips it starts. -/
inductive Change (n : BaseNode) : CallAction → List Nonce → List RoundTrip → List Call → Prop
  | answer (a r) (ha : a.plain = true) (hr : r ≠ .error .idCollision) :
      Change n a [] [] (n.calls++[.returned r])
  | single (a rt) (ha : a.plain = true) : Change n a [] [rt] (n.calls++[.single rt])
  | refuse (level nonce) : Change n (.joinStage1LinkLevel0 n.id level nonce) [] []
      (n.calls++[.returned (.error .introducerCollision)])
  | join (introducer level nonce d rx) (hd : d.lt introducer n.id) :
      Change n (.joinStage1LinkLevel0 introducer level nonce) []
        [⟨.search introducer n.id level d,nonce,rx⟩]
        (n.calls++[.joinSearch d ⟨.search introducer n.id level d,nonce,rx⟩])
  | wake (k i nonce₁ nonce₂ call rt result new call') (hk : n.calls[k]? = some call)
      (hi : call.waits[i]? = some rt) (hr : n.received rt = some result)
      (h : Resumes n.id rt result call new call') :
      Change n (.wake k i nonce₁ nonce₂) [rt.nonce] new (n.calls.set k call')
  | timeout (k i call rt call') (hk : n.calls[k]? = some call)
      (hi : call.waits[i]? = some rt)
      (h : Resumes n.id rt (.error (.timedOut rt.request)) call [] call') :
      Change n (.timeout k i) [rt.nonce] [] (n.calls.set k call')
  | cancel (k call) (hk : n.calls[k]? = some call) (hw : call.waits ≠ []) :
      Change n (.cancel k) (call.waits.map RoundTrip.nonce) [] (n.calls.set k .cancelled)

namespace BaseNode

variable {n n' : BaseNode} {nonce : Nonce} {ended : List Nonce} {new : List RoundTrip}
  {a : CallAction}

/-- The node after a segment: its waiters and channels as `n₁` has them, new calls, and
the events of the round trips it started. -/
structure Segment (n : BaseNode) (a : CallAction) (ended : List Nonce) (new : List RoundTrip)
    (n₁ : BaseNode) (calls : List Call) (r : BaseNode × List Packet) : Prop where
  node : r.1 = { n₁ with calls := calls }
  sent : r.2 = new.map (RoundTrip.packet n)
  extends_ : Extends n ended new n₁
  change : Change n a ended new calls

theorem suspend_start (n : BaseNode) (nonce : Nonce) (request : Request)
    (next : RoundTrip → Call) : suspend (n.startRoundTrip reliable nonce request) next =
      (n.started nonce request,[RoundTrip.packet n ⟨request,nonce,n.oneshots.length⟩],
        next ⟨request,nonce,n.oneshots.length⟩) := rfl

theorem segment_start (request : Request) (next : RoundTrip → Call)
    (h : Change n a [] [⟨request,nonce,n.oneshots.length⟩]
      (n.calls++[next ⟨request,nonce,n.oneshots.length⟩])) :
    ∃ ended new n₁ calls, Segment n a ended new n₁ calls
      (begin (suspend (n.startRoundTrip reliable nonce request) next)) := by
  refine ⟨[],[_],n.started nonce request,_,⟨?_,rfl,(Extends.refl n).start nonce request,h⟩⟩
  simp [begin,suspend_start]

theorem segment_return {r : Except Error Output}
    (h : Change n a [] [] (n.calls++[.returned r])) :
    ∃ ended new n₁ calls, Segment n a ended new n₁ calls (begin (n,[],.returned r)) :=
  ⟨[],[],n,_,⟨rfl,rfl,Extends.refl n,h⟩⟩

theorem resume_resumes (h : Extends n [nonce] [] n') {call : Call} {i : ℕ} {rt : RoundTrip}
    (hi : call.waits[i]? = some rt) (result : Except Error Reply) (nonce₁ nonce₂ : Nonce) :
    ∃ new n₁ call', Extends n [nonce] new n₁ ∧ Resumes n.id rt result call new call' ∧
      n'.resume reliable rt result nonce₁ nonce₂ call =
        (n₁,new.map (RoundTrip.packet n),call') := by
  have hid : n'.core.id = n.id := by rw [h.core]; rfl
  have hself := h.selfIdentity
  cases call with
  | single rt' => exact ⟨[],n',_,h,.single rt',rfl⟩
  | joinSearch d rt' =>
    cases result with
    | error e => exact ⟨[],n',_,h,.searchFailed d rt' e rfl,rfl⟩
    | ok reply =>
      cases reply with
      | search res =>
        by_cases hc : res.result = n.id
        · refine ⟨[],n',_,h,.collision d rt' res rfl hc,?_⟩
          simp [resume,joinAfterSearch,hid,hc]
        · refine ⟨_,_,_,h.start nonce₁ (.neighbor res.result d 0),
            .found d rt' res nonce₁ n'.oneshots.length rfl hc,?_⟩
          simp [resume,joinAfterSearch,hid,hc,getNeighbor,suspend_start,RoundTrip.packet,
            event_congr hself]
      | maxLevel res => exact ⟨[],n',_,h,.searchMistyped d rt' _ rfl (by simp),rfl⟩
      | neighbor res => exact ⟨[],n',_,h,.searchMistyped d rt' _ rfl (by simp),rfl⟩
      | link res => exact ⟨[],n',_,h,.searchMistyped d rt' _ rfl (by simp),rfl⟩
  | joinNeighbor d a rt' =>
    cases result with
    | error e => exact ⟨[],n',_,h,.neighborFailed d a rt' e rfl,rfl⟩
    | ok reply =>
      cases reply with
      | neighbor res =>
        have hone := h.start nonce₁ (.link a d 0)
        cases hq : res.neighbor with
        | none =>
          refine ⟨_,_,_,hone,.linkOne d a rt' res nonce₁ n'.oneshots.length rfl hq,?_⟩
          simp [resume,joinAfterNeighbor,hq,sendLinkRequest,startRoundTrip_reliable,linkFuture,
            Call.settled,RoundTrip.packet,event_congr hself]
        | some q =>
          refine ⟨_,_,_,hone.start nonce₂ (.link q.id d.opposite 0),
            .linkBoth d a rt' res q nonce₁ nonce₂ _ _ rfl hq,?_⟩
          simp [resume,joinAfterNeighbor,hq,sendLinkRequest,startRoundTrip_reliable,linkFuture,
            Call.settled,RoundTrip.packet,event_congr hself,event_congr hone.selfIdentity]
      | maxLevel res => exact ⟨[],n',_,h,.neighborMistyped d a rt' _ rfl (by simp),rfl⟩
      | search res => exact ⟨[],n',_,h,.neighborMistyped d a rt' _ rfl (by simp),rfl⟩
      | link res => exact ⟨[],n',_,h,.neighborMistyped d a rt' _ rfl (by simp),rfl⟩
  | joinLink d a q sl ql => exact ⟨[],n',_,h,.link d a q sl ql,rfl⟩
  | returned r => simp [Call.waits] at hi
  | cancelled => simp [Call.waits] at hi

theorem dropGuards_extends (rts : List RoundTrip) {m : BaseNode} (h : Extends n ended [] m) :
    Extends n (ended++rts.map RoundTrip.nonce) []
      (rts.foldl (fun n rt => n.dropGuard rt.nonce) m) := by
  induction rts generalizing m ended with
  | nil => simpa using h
  | cons rt rts ih => simpa using ih (h.drop rt.nonce)

/-- Everything that one segment of a call can do. -/
theorem callStep_segment {r : BaseNode × List Packet} (h : n.callStep reliable a = some r) :
    ∃ ended new n₁ calls, Segment n a ended new n₁ calls r := by
  have hend : ∀ (k i : ℕ) (call : Call) (rt : RoundTrip) (result : Except Error Reply)
      (nonce₁ nonce₂ : Nonce), call.waits[i]? = some rt →
      ∃ new n₁ call', Extends n [rt.nonce] new n₁ ∧ Resumes n.id rt result call new call' ∧
        n.endRoundTrip reliable k call rt result nonce₁ nonce₂ =
          ({ n₁ with calls := n.calls.set k call' },new.map (RoundTrip.packet n)) := by
    intro k i call rt result nonce₁ nonce₂ hi
    obtain ⟨new,n₁,call',he,hr,hres⟩ := resume_resumes ((Extends.refl n).drop rt.nonce) hi result
      nonce₁ nonce₂
    exact ⟨new,n₁,call',he,hr,by simp [endRoundTrip,hres,he.calls]⟩
  cases a with
  | searchById req =>
    obtain rfl := Option.some.inj h
    unfold searchById
    cases n.core.searchById req with
    | error e => exact segment_return (.answer _ _ rfl (by simp))
    | ok res =>
      simp only
      split
      · exact segment_return (.answer _ _ rfl (by simp))
      · exact segment_start _ .single (.single _ _ rfl)
  | getMaxLevel introducer nonce =>
    obtain rfl := Option.some.inj h
    exact segment_start _ .single (.single _ _ rfl)
  | getNeighbor src direction level nonce =>
    obtain rfl := Option.some.inj h
    exact segment_start _ .single (.single _ _ rfl)
  | sendLinkRequest dest dir level nonce =>
    obtain rfl := Option.some.inj h
    exact segment_start _ .single (.single _ _ rfl)
  | joinStage1LinkLevel0 introducer maxLevel nonce =>
    obtain rfl := Option.some.inj h
    simp only [joinStage1LinkLevel0]
    split
    · rename_i hlt
      exact segment_start _ (.joinSearch .right) (.join introducer maxLevel nonce .right _ hlt)
    · split
      · rename_i hgt
        exact segment_start _ (.joinSearch .left) (.join introducer maxLevel nonce .left _ hgt)
      · rename_i h₁ h₂
        obtain rfl : introducer = n.id := le_antisymm (not_lt.mp h₂) (not_lt.mp h₁)
        exact segment_return (.refuse maxLevel nonce)
  | wake k i nonce₁ nonce₂ =>
    obtain ⟨call,hk,h⟩ := Option.bind_eq_some_iff.mp h
    obtain ⟨rt,hi,h⟩ := Option.bind_eq_some_iff.mp h
    obtain ⟨result,hr,rfl⟩ := Option.map_eq_some_iff.mp h
    obtain ⟨new,n₁,call',he,hres,heq⟩ := hend k i call rt result nonce₁ nonce₂ hi
    exact ⟨_,new,n₁,_,by rw [heq],by rw [heq],he,.wake k i _ _ call rt result new call' hk hi hr hres⟩
  | timeout k i =>
    obtain ⟨call,hk,h⟩ := Option.bind_eq_some_iff.mp h
    obtain ⟨rt,hi,h⟩ := Option.bind_eq_some_iff.mp h
    split at h
    · obtain rfl := Option.some.inj h
      obtain ⟨new,n₁,call',he,hres,heq⟩ := hend k i call rt (.error (.timedOut rt.request))
        rt.nonce rt.nonce hi
      obtain rfl := hres.new_eq_nil
      exact ⟨_,[],n₁,_,by rw [heq],by rw [heq],he,.timeout k i call rt call' hk hi hres⟩
    · simp at h
  | cancel k =>
    obtain ⟨call,hk,h⟩ := Option.bind_eq_some_iff.mp h
    split at h
    · simp at h
    · rename_i hw
      obtain rfl := Option.some.inj h
      have he := dropGuards_extends call.waits (Extends.refl n)
      exact ⟨_,[],_,_,by rw [he.calls],rfl,by simpa using he,.cancel k call hk hw⟩

/-- Round trip `rt` ends with `result`, by a reply or by its timer. -/
def Ends (n : BaseNode) (rt : RoundTrip) (result : Except Error Reply) : Prop :=
  n.received rt = some result ∨ result = .error (.timedOut rt.request)

/-- Where a call comes from that a node has after a segment of a join. -/
theorem mem_change {calls : List Call} {c : Call} (hp : a.plain = false)
    (h : Change n a ended new calls) (hc : c ∈ calls) :
    c ∈ n.calls ∨ c = .returned (.error .introducerCollision) ∨ c = .cancelled ∨
    (∃ introducer level nonce d rx, c = .joinSearch d ⟨.search introducer n.id level d,nonce,rx⟩) ∨
    ∃ call rt result new', call ∈ n.calls ∧ rt ∈ call.waits ∧ n.Ends rt result ∧
      Resumes n.id rt result call new' c := by
  cases h with
  | answer a r ha hr => simp [hp] at ha
  | single a rt ha => simp [hp] at ha
  | refuse level nonce =>
    rcases List.mem_append.mp hc with hc | hc
    · exact .inl hc
    · exact .inr (.inl (by simpa using hc))
  | join introducer level nonce d rx hd =>
    rcases List.mem_append.mp hc with hc | hc
    · exact .inl hc
    · exact .inr (.inr (.inr (.inl ⟨introducer,level,nonce,d,rx,by simpa using hc⟩)))
  | wake k i nonce₁ nonce₂ call rt result new call' hk hi hr h =>
    rcases List.mem_or_eq_of_mem_set hc with hc | rfl
    · exact .inl hc
    · exact .inr (.inr (.inr (.inr ⟨call,rt,result,new,List.mem_of_getElem? hk,
        List.mem_of_getElem? hi,.inl hr,h⟩)))
  | timeout k i call rt call' hk hi h =>
    rcases List.mem_or_eq_of_mem_set hc with hc | rfl
    · exact .inl hc
    · exact .inr (.inr (.inr (.inr ⟨call,rt,_,[],List.mem_of_getElem? hk,
        List.mem_of_getElem? hi,.inr rfl,h⟩)))
  | cancel k call hk hw =>
    rcases List.mem_or_eq_of_mem_set hc with hc | rfl
    · exact .inl hc
    · exact .inr (.inr (.inl rfl))

theorem change_persists {P : Call → Prop} {calls : List Call} (h : Change n a ended new calls)
    (hcancel : P .cancelled) (hresume : ∀ call ∈ n.calls, P call → ∀ rt ∈ call.waits,
      ∀ result new' call', n.Ends rt result → Resumes n.id rt result call new' call' → P call')
    (hP : ∃ c ∈ n.calls, P c) : ∃ c ∈ calls, P c := by
  obtain ⟨c,hc,hPc⟩ := hP
  have hset : ∀ k call call', n.calls[k]? = some call → (P call → P call') →
      ∃ c ∈ n.calls.set k call', P c := by
    intro k call call' hk hkeep
    obtain ⟨j,hj⟩ := List.mem_iff_getElem?.mp hc
    by_cases hjk : j = k
    · subst hjk
      obtain rfl : call = c := Option.some.inj (hk.symm.trans hj)
      exact ⟨call',List.mem_set (List.getElem?_eq_some_iff.mp hk).1 call',hkeep hPc⟩
    · refine ⟨c,List.mem_of_getElem? (i := j) ?_,hPc⟩
      rw [List.getElem?_set_ne (Ne.symm hjk)]
      exact hj
  cases h with
  | answer | single | refuse | join => exact ⟨c,List.mem_append_left _ hc,hPc⟩
  | wake k i nonce₁ nonce₂ call rt result new call' hk hi hr h =>
    exact hset k call call' hk fun hp => hresume call (List.mem_of_getElem? hk) hp rt
      (List.mem_of_getElem? hi) result new call' (.inl hr) h
  | timeout k i call rt call' hk hi h =>
    exact hset k call call' hk fun hp => hresume call (List.mem_of_getElem? hk) hp rt
      (List.mem_of_getElem? hi) _ [] call' (.inr rfl) h
  | cancel k call hk hw => exact hset k call .cancelled hk fun _ => hcancel

end BaseNode

namespace Sys

variable {s t : Sys} {a : Action}

/-- The calls of a node change only by a segment of one of them. -/
theorem calls_step (h : s.step a = some t) (x : Identifier) :
    (t.node x).calls = (s.node x).calls ∨ ∃ ca r ended new n₁, a = .call x ca ∧
      Called s x ca r t ∧ BaseNode.Segment (s.node x) ca ended new n₁ (t.node x).calls r := by
  rcases step_cases h with ⟨i,p,-,hd⟩ | ⟨i,-,hl⟩ | ⟨y,ca,r,ha,hc⟩
  · exact .inl (hd.calls x)
  · left
    rw [hl.node]
  · by_cases hxy : x = y
    · subst hxy
      obtain ⟨ended,new,n₁,calls,hseg⟩ := BaseNode.callStep_segment hc.step
      have hcalls : (t.node x).calls = calls := by
        rw [hc.node,Function.update_self,hseg.node]
      exact .inr ⟨ca,r,ended,new,n₁,ha,hc,hcalls ▸ hseg⟩
    · left
      rw [hc.node,Function.update_of_ne hxy]

end Sys

end SkipGraph
