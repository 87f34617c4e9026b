import SkipGraph.Joins

/-!
# The id-collision error

A stage-1 search that resolves the searching node itself is reported as a collision
with another node of that id. The search gets there exactly through a node that holds
the joiner in one of the slots it consults; where no such node handles the search, no
schedule of losses, timeouts and retries produces the error.
-/

namespace SkipGraph

open Transition BaseNode

/-- The call failed, or is bound to fail, with the collision error. -/
def Call.Collided : Call → Prop
  | .returned r => r = .error .idCollision
  | .joinLink _ _ _ sl ql => sl = .finished (.error .idCollision) ∨
      ql = some (.finished (.error .idCollision))
  | _ => False

theorem LinkFuture.settle_ne {rt : RoundTrip} {result : Except Error Reply} {f : LinkFuture}
    (hr : result ≠ .error .idCollision) (hf : f ≠ .finished (.error .idCollision)) :
    f.settle rt result ≠ .finished (.error .idCollision) := by
  cases f with
  | finished r => exact hf
  | waiting rt' =>
    simp only [settle]
    split
    · cases result with
      | error e => simpa [Except.map] using hr
      | ok reply => simp [Except.map]
    · simp

theorem Call.not_collided_settled {d : Direction} {anchor : Identifier} {q : Option Identity}
    {sl : LinkFuture} {ql : Option LinkFuture} (hs : sl ≠ .finished (.error .idCollision))
    (hq : ql ≠ some (.finished (.error .idCollision))) :
    ¬ (Call.settled d anchor q sl ql).Collided := by
  rcases sl with rt | (e | v)
  · simpa [settled,Collided] using hq
  · rcases ql with _ | rt | r
    · simpa [settled,Collided,Except.map] using hs
    · simpa [settled,Collided] using hs
    · simpa [settled,Collided,Except.map,Except.bind] using hs
  · rcases ql with _ | rt | (e | w)
    · simp [settled,Collided,Except.map]
    · simp [settled,Collided]
    · simpa [settled,Collided,Except.map,Except.bind] using hq
    · simp [settled,Collided,Except.map,Except.bind]

theorem Resumes.collided {id : Identifier} {rt : RoundTrip} {result : Except Error Reply}
    {call call' : Call} {new : List RoundTrip} (h : Resumes id rt result call new call')
    (hr : result ≠ .error .idCollision) (hc : ¬ call.Collided) (hc' : call'.Collided) :
    ∃ d rt' res, call = .joinSearch d rt' ∧ result = .ok (.search res) ∧ res.result = id := by
  cases h with
  | collision d rt' res h he => exact ⟨d,rt',res,rfl,h,he⟩
  | link d a q sl ql =>
    simp only [Call.Collided,not_or] at hc
    refine absurd hc' (Call.not_collided_settled (LinkFuture.settle_ne hr hc.1) ?_)
    cases ql with
    | none => simp
    | some f => simpa using LinkFuture.settle_ne hr (by simpa using hc.2)
  | single rt' =>
    cases result with
    | error e => exact absurd hc' (by simpa [Call.Collided,Except.map] using hr)
    | ok reply => simp [Call.Collided,Except.map] at hc'
  | searchFailed d rt' e h => exact absurd hc' (by simpa [Call.Collided,h] using hr)
  | neighborFailed d a rt' e h => exact absurd hc' (by simpa [Call.Collided,h] using hr)
  | searchMistyped | neighborMistyped => simp [Call.Collided] at hc'
  | found | linkBoth | linkOne => simp [Call.Collided] at hc'

namespace Sys

variable {s t : Sys} {a : Action} {u : Identifier} {rt : RoundTrip}

/-- No node that handles one of `u`'s join searches in this step holds `u` in a slot
that the search consults. -/
def NotHeld (u : Identifier) (s : Sys) : Action → Prop
  | .deliver i => ∀ p, s.inflight[i]? = some p → ∀ req, p.event.search? = some req →
      req.origin = u → req.target = u → ∀ l ≤ req.level, ∀ e,
      s.entry p.dest l req.direction = some e → e.id ≠ u
  | _ => True

instance (u : Identifier) (s : Sys) (a : Action) : Decidable (NotHeld u s a) :=
  match a with
  | .deliver i => inferInstanceAs (Decidable (∀ p, s.inflight[i]? = some p → _))
  | .lose _ => isTrue trivial
  | .call _ _ => isTrue trivial

/-- The searches of `u` are neither delivered to `u` nor answered by it. -/
def awayFrom (u : Identifier) : JoinSpec where
  joiners _ := False
  hop v _ x := v = u → x ≠ u
  anchor v _ x := v = u → x ≠ u
  neighbor _ _ _ _ := True

theorem NotHeld.serves (h : NotHeld u s a) : Serves (awayFrom u) s a where
  start v introducer level nonce d _ _ hd := by
    rintro rfl
    exact Direction.ne_of_lt hd
  relay i x v nonce level d l e _ _ _ ha hget _ hl he _ := by
    rintro rfl
    subst ha
    exact h _ hget _ rfl rfl rfl l hl e he
  answer i x v nonce level d _ _ _ _ _ hhop _ := hhop
  neighbor _ _ _ _ _ _ _ _ _ _ _ _ := trivial

theorem received_ne {n : BaseNode} {result : Except Error Reply}
    (h : n.received rt = some result) : result ≠ .error .idCollision := by
  unfold received at h
  split at h
  · split at h <;> simp_all
    obtain rfl := h
    simp
  · obtain rfl := Option.some.inj h
    simp
  · simp at h

theorem JoinInv.not_collided_change (hi : s.JoinInv (awayFrom u)) (hu : u ∈ s.members)
    {ca : CallAction} {ended : List Nonce} {new : List RoundTrip} {calls : List Call}
    (hold : ∀ c ∈ (s.node u).calls, ¬ c.Collided) (hp : ca.plain = false)
    (h : Change (s.node u) ca ended new calls) : ∀ c ∈ calls, ¬ c.Collided := by
  intro c hc hcol
  rcases mem_change hp h hc with
    hc | rfl | rfl | ⟨introducer,level,nonce,d,rx,rfl⟩ | ⟨call,rt,result,new',hcall,hm,hends,hr⟩
  · exact hold c hc hcol
  · simp [Call.Collided] at hcol
  · simp [Call.Collided] at hcol
  · simp [Call.Collided] at hcol
  · have hne : result ≠ .error .idCollision := by
      rcases hends with hr | rfl
      · exact received_ne hr
      · simp
    obtain ⟨d,rt',res,rfl,rfl,he⟩ := hr.collided hne (hold call hcall) hcol
    obtain rfl : rt = rt' := by simpa [Call.waits] using hm
    obtain ⟨introducer,level,hreq⟩ := hi.calls u hu _ hcall
    have hrep := (hi.ends hu hcall hm hends _ rfl).2
    rw [hreq] at hrep
    exact hrep rfl (he.trans (s.node_id u))

structure CollisionInv (u : Identifier) (s : Sys) : Prop where
  mem : u ∈ s.members
  sided : s.Sided
  channels : s.ChannelsInv
  joins : s.JoinInv (awayFrom u)
  sound : ∀ c ∈ (s.node u).calls, ¬ c.Collided

theorem CollisionInv.step (hi : CollisionInv u s) (hj : s.JoinStep a) (hn : NotHeld u s a)
    (h : s.step a = some t) : CollisionInv u t where
  mem := by rw [members_step h]; exact hi.mem
  sided := hi.sided.step h
  channels := hi.channels.step h
  joins := hi.joins.step hi.channels hi.sided hj.1 hj.2 hn.serves h
  sound := by
    rcases calls_step h u with hcalls | ⟨ca,r,ended,new,n₁,rfl,-,hseg⟩
    · rw [hcalls]
      exact hi.sound
    · exact hi.joins.not_collided_change hi.mem hi.sound (by simpa [Action.joins] using hj.1)
        hseg.change

/-- Through any losses, timeouts and retries, no join of `u` reports a collision as long
as no node that handles one of its searches already holds `u`. -/
theorem collision_error_sound_when_not_held {as : List Action} (hs : s.Sided) (hr : s.Resting)
    (hu : u ∈ s.members) (hfresh : (s.node u).calls = [])
    (h : Trace Sys.step (fun s a => s.JoinStep a ∧ NotHeld u s a) s as t) :
    ∀ c ∈ (t.node u).calls, c ≠ .returned (.error .idCollision) := by
  have hi : CollisionInv u t := by
    refine h.invariant (P := CollisionInv u) ⟨hu,hs,hr.channelsInv,hr.joinInv (fun _ _ => False.elim),?_⟩ ?_
    · simp [hfresh]
    · exact fun s a t hi hok hstep => hi.step hok.1 hok.2 hstep
  rintro c hc rfl
  exact hi.sound _ hc rfl

/-- Node 2 joins through node 1, which accepts it, but the `SetLinkOp` is lost and the
call times out. The search of the retry is relayed by node 1 to node 2 itself. -/
theorem collision_error_on_retry :
    ∃ as t, Trace Sys.step JoinStep (row [.ofByte 1] [.ofByte 2]) as t ∧
      t.members = {.ofByte 1,.ofByte 2} ∧
      .returned (.error .idCollision) ∈ (t.node (.ofByte 2)).calls := by
  obtain ⟨t,ht,hc⟩ := exists_trace_of_runWhile Sys.step (fun s a => decide (s.JoinStep a))
    (row [.ofByte 1] [.ofByte 2])
    [.call (.ofByte 2) (.joinStage1LinkLevel0 (.ofByte 1) 0 ⟨10⟩),.deliver 0,.deliver 0,
      .call (.ofByte 2) (.wake 0 0 ⟨11⟩ ⟨12⟩),.deliver 0,.deliver 0,
      .call (.ofByte 2) (.wake 0 0 ⟨13⟩ ⟨14⟩),.deliver 0,.lose 0,
      .call (.ofByte 2) (.timeout 0 0),
      .call (.ofByte 2) (.joinStage1LinkLevel0 (.ofByte 1) 0 ⟨15⟩),.deliver 0,.deliver 0,
      .deliver 0,.call (.ofByte 2) (.wake 1 0 ⟨16⟩ ⟨17⟩)]
    (fun t => decide (t.members = {.ofByte 1,.ofByte 2} ∧
      .returned (.error .idCollision) ∈ (t.node (.ofByte 2)).calls)) (by decide +kernel)
  exact ⟨_,t,ht.mono fun _ _ h => of_decide_eq_true h,of_decide_eq_true hc⟩

/-- Node 1 accepts node 2 here as well, but its answer and the request to node 3 are lost.
Node 1 goes on holding node 2. The retry searches through node 3, which does not, and joins. -/
theorem collision_error_sound_after_timeout :
    ∃ t : Sys, (t.node (.ofByte 2)).calls.length = 2 ∧
      .returned (.ok .joined) ∈ (t.node (.ofByte 2)).calls ∧
      ∀ c ∈ (t.node (.ofByte 2)).calls, c ≠ .returned (.error .idCollision) := by
  let join (i : UInt8) (k : ℕ) : Action :=
    .call (.ofByte 2) (.joinStage1LinkLevel0 (.ofByte i) 0 ⟨k⟩)
  let wake (c k : ℕ) : Action := .call (.ofByte 2) (.wake c 0 ⟨k⟩ ⟨k+1⟩)
  let run : List Action :=
    [join 1 20,.deliver 0,.deliver 0,wake 0 21,.deliver 0,.deliver 0,wake 0 23,.deliver 0,
      .lose 0,.lose 0,.call (.ofByte 2) (.timeout 0 0),.call (.ofByte 2) (.timeout 0 0),
      join 3 30,.deliver 0,.deliver 0,wake 1 31,.deliver 0,.deliver 0,wake 1 33,
      .deliver 0,.deliver 0,.deliver 0,.deliver 0,wake 1 35,wake 1 37]
  obtain ⟨t,ht,hc⟩ := exists_trace_of_runWhile Sys.step
    (fun s a => decide (s.JoinStep a ∧ NotHeld (.ofByte 2) s a))
    (row [.ofByte 1,.ofByte 3] [.ofByte 2]) run
    (fun t => decide ((t.node (.ofByte 2)).calls.length = 2 ∧
      .returned (.ok .joined) ∈ (t.node (.ofByte 2)).calls)) (by decide +kernel)
  obtain ⟨hlen,hret⟩ := of_decide_eq_true hc
  refine ⟨t,hlen,hret,?_⟩
  exact collision_error_sound_when_not_held (honest_row _ _).sided (resting_row _ _) (by decide)
    rfl (ht.mono fun _ _ h => of_decide_eq_true h)

end Sys

end SkipGraph
