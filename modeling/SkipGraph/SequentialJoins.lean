import SkipGraph.Completion

/-!
# Joins one after another

Each join runs until the system is quiet before the next one starts. The level-0 list
then grows by one node at a time and the slots above level 0 stay as they are.
-/

namespace SkipGraph

open Transition StrictOrder BaseNode

namespace Sys

variable {s s₀ t : Sys} {a : Action} {I K : Finset Identifier} {u introducer : Identifier}
  {level : ℕ} {as : List Action}

/-- The nodes `I` are listed, nothing is under way, and the other nodes have never made a
call. -/
structure Ready (I : Finset Identifier) (s : Sys) : Prop where
  initial : s.Initial I
  inflight : s.inflight = []
  fresh : ∀ x ∈ s.members, x ∉ I → (s.node x).calls = []

theorem ready_row (linked fresh : List Identifier) : Ready linked.toFinset (row linked fresh) :=
  ⟨initial_row linked fresh,rfl,fun _ _ _ => rfl⟩

/-- A node that may join next, and the introducer and the level it joins with. -/
structure Joiner (K : Finset Identifier) (s : Sys) (u introducer : Identifier) (level : ℕ) :
    Prop where
  mem : u ∈ s.members
  new : u ∉ K
  introduced : introducer ∈ K
  level_lt : level < lookupTableLevels

/-- A run of one join: its call, then deliveries and resumed calls `as`, with fresh nonces
and with nothing lost. -/
def JoinRun (s : Sys) (u introducer : Identifier) (level : ℕ) (as : List Action) (t : Sys) : Prop :=
  ∃ nonce s₁, s.DrawsFresh (.call u (.joinStage1LinkLevel0 introducer level nonce)) ∧
    s.step (.call u (.joinStage1LinkLevel0 introducer level nonce)) = some s₁ ∧
    Trace Sys.step (fun s a => a.runs = true ∧ s.DrawsFresh a) s₁ as t

/-- The nodes `us` join in this order. Each is introduced by a node that is already in the
list, starts from any level of the table, and runs until nothing is left to do. -/
inductive JoinsInTurn (I : Finset Identifier) (s : Sys) : List Identifier → Sys → Prop
  | nil : JoinsInTurn I s [] s
  | snoc {us t u introducer level as t'} (h : JoinsInTurn I s us t)
      (hu : Joiner (I ∪ us.toFinset) t u introducer level)
      (hrun : t.JoinRun u introducer level as t') (hq : t'.Quiet) : JoinsInTurn I s (us++[u]) t'

structure TurnInv (K : Finset Identifier) (u : Identifier) (s₀ s : Sys) : Prop where
  gap : GapInv K {u} s
  addressed : s.Addressed
  started : (s.node u).calls ≠ []
  members : s.members = s₀.members
  upper : ∀ x l, l ≠ 0 → ∀ d, s.entry x l d = s₀.entry x l d
  calls : ∀ x, x ≠ u → (s.node x).calls = (s₀.node x).calls

theorem joinsOnce_of_runs {J : Finset Identifier} (h : a.runs = true) : JoinsOnce I J s a := by
  cases a with
  | deliver i => trivial
  | lose i => simp [Action.runs] at h
  | call x ca =>
    cases ca with
    | wake => trivial
    | _ => simp [Action.runs] at h

theorem GapInv.calls_ne_nil {J : Finset Identifier} (hi : GapInv I J s) (hj : JoinsOnce I J s a)
    (h : s.step a = some t) (hne : (s.node u).calls ≠ []) : (t.node u).calls ≠ [] := by
  rcases hi.calls_advance hj h u with hcalls | ⟨hu,new,hadv⟩
  · rwa [hcalls]
  · obtain ⟨c,hc,-⟩ := hi.advances_fine hu hadv
    simp [hc]

theorem TurnInv.step (hi : TurnInv K u s₀ s) (hr : a.runs = true) (hf : s.DrawsFresh a)
    (h : s.step a = some t) : TurnInv K u s₀ t := by
  have hj : JoinsOnce K {u} s a := joinsOnce_of_runs hr
  have hg := hi.gap.step hj hf (.inl (by simp)) h
  refine ⟨hg,hi.addressed.step hi.gap hj h hg.joins,hi.gap.calls_ne_nil hj h hi.started,
    (members_step h).trans hi.members,fun x l hl d => (hi.gap.upper_step h hl).trans
      (hi.upper x l hl d),fun x hx => ?_⟩
  rcases hi.gap.calls_advance hj h x with hcalls | ⟨hxu,-⟩
  · exact hcalls.trans (hi.calls x hx)
  · exact absurd (Finset.mem_singleton.mp hxu) hx

theorem Ready.gapInv (hr : s.Ready K) (hu : u ∈ s.members) (hnew : u ∉ K) : GapInv K {u} s := by
  refine hr.initial.gapInv hr.inflight (by simpa using hu) (by simpa using hnew) ?_
    (by simpa using hr.fresh u hu hnew)
  intro v hv w hw hlt
  obtain rfl := Finset.mem_singleton.mp hv
  obtain rfl := Finset.mem_singleton.mp hw
  exact absurd hlt (lt_irrefl _)

theorem Ready.joinsOnce (hr : s.Ready K) (hu : Joiner K s u introducer level) (nonce : Nonce) :
    JoinsOnce K {u} s (.call u (.joinStage1LinkLevel0 introducer level nonce)) :=
  ⟨Finset.mem_singleton_self u,hr.fresh u hu.mem hu.new,hu.introduced,hu.level_lt⟩

theorem GapInv.rank_eq (hi : GapInv K {u} t) (hm : t.members = s.members) :
    t.rank = t.callRank u + (t.inflight.map (Packet.weight s.members)).sum := by
  rw [rank,hm,Finset.sum_eq_single_of_mem u]
  · rw [← hm]
    exact hi.subset (by simp)
  · intro x hx hxu
    have hzero : ∀ c ∈ (t.node x).calls, c.rank t.members.card = 0 := by
      intro c hc
      rcases hi.idle x (hm ▸ hx) (by simpa using hxu) c hc with ⟨r,rfl⟩ | rfl <;> rfl
    rw [callRank,List.sum_eq_zero]
    simpa using hzero

theorem Ready.start (hr : s.Ready K) (hu : Joiner K s u introducer level) {nonce : Nonce}
    (hf : s.DrawsFresh (.call u (.joinStage1LinkLevel0 introducer level nonce)))
    (h : s.step (.call u (.joinStage1LinkLevel0 introducer level nonce)) = some t) :
    TurnInv K u s t ∧ t.rank ≤ 12 + 3 * t.members.card := by
  have hi := hr.gapInv hu.mem hu.new
  have hj := hr.joinsOnce hu nonce
  have hg := hi.step hj hf (.inl (by simp)) h
  have haddr : s.Addressed := fun p hp => by simp [hr.inflight] at hp
  rcases step_cases h with ⟨i,p,ha,-⟩ | ⟨i,ha,-⟩ | ⟨x,ca,r,ha,hc⟩
  · simp at ha
  · simp at ha
  · obtain ⟨rfl,rfl⟩ := Action.call.inj ha
    obtain ⟨-,new,hsent,hadv⟩ := hi.advances hj hc
    generalize hcalls : (t.node u).calls = calls at hadv
    cases hadv with
    | resume call rt reply new call' hone => simp [hr.fresh u hu.mem hu.new] at hone
    | start introducer level nonce d rx hnil hI hl hd =>
      refine ⟨⟨hg,haddr.step hi hj h hg.joins,by simp [hcalls],hc.members,
        fun x l hl d => hi.upper_step h hl,fun x hx => ?_⟩,?_⟩
      · rw [hc.node,Function.update_of_ne hx]
      · have hcard : (past d.lt s.members introducer).card ≤ s.members.card :=
          Finset.card_filter_le _ _
        rw [hg.rank_eq hc.members,callRank,hcalls,hc.inflight,hr.inflight,hsent,hc.members]
        simp [Call.rank,Packet.weight,RoundTrip.packet,Request.event,Request.dest]
        omega

theorem JoinRun.turnInv (h : s.JoinRun u introducer level as t) (hr : s.Ready K)
    (hu : Joiner K s u introducer level) :
    TurnInv K u s t ∧ as.length ≤ 12 + 3 * s.members.card := by
  obtain ⟨nonce,s₁,hf,h₁,htr⟩ := h
  obtain ⟨hi,hrank⟩ := hr.start hu hf h₁
  refine ⟨htr.invariant hi fun _ _ _ hi hok hs => hi.step hok.1 hok.2 hs,?_⟩
  have hlen := htr.length_le (μ := rank) hi fun _ _ _ hi hok hs =>
    ⟨hi.step hok.1 hok.2 hs,hi.gap.rank_step hok.1 hs⟩
  rw [hi.members] at hrank
  omega

/-- A join that has come to an end has succeeded and has extended the list. -/
theorem TurnInv.ended (hi : TurnInv K u s₀ s) (hq : s.Quiet) :
    (s.node u).calls = [.returned (.ok .joined)] ∧ s.Listed (K ∪ {u}) := by
  have hu := Finset.mem_singleton_self u
  have hret := hi.gap.returned hq hu hi.started
  refine ⟨hret,hi.gap.listed fun v hv d he => ?_⟩
  obtain rfl := Finset.mem_singleton.mp hv
  exact hi.gap.isLast_of_joined hv hret he

theorem TurnInv.ready (hi : TurnInv K u s₀ s) (hr : s₀.Ready K) (hq : s.Quiet) :
    s.Ready (K ∪ {u}) := by
  obtain ⟨hret,hlisted⟩ := hi.ended hq
  refine ⟨⟨hi.gap.subset,hlisted,hi.gap.sided,fun x hx l d e he => ?_,hi.gap.others,
    fun x hx c hc => ?_,fun x hx => (hi.gap.channels x hx).tx_lt⟩,hq.inflight,fun x hx hxK => ?_⟩
  · by_cases hxK : x ∈ K ∪ {u}
    · exact Finset.mem_union.mpr ((hi.gap.entry_cases hxK he).imp_right And.left)
    · simp [hi.gap.others x hx hxK] at he
  · by_cases hxu : x = u
    · subst hxu
      exact .inl ⟨_,by simpa [hret] using hc⟩
    · exact hi.gap.idle x hx (by simpa using hxu) c hc
  · have hxu : x ≠ u := fun he => hxK (by simp [he])
    rw [hi.calls x hxu]
    exact hr.fresh x (hi.members ▸ hx) fun hx' => hxK (Finset.mem_union_left _ hx')

/-- Every run of a join can be completed. -/
theorem TurnInv.completes (hi : TurnInv K u s₀ s) :
    ∃ bs t, Trace Sys.step (fun s a => a.runs = true ∧ s.DrawsFresh a) s bs t ∧ t.Quiet :=
  exists_trace_to (P := TurnInv K u s₀) (μ := rank) hi
    (fun _ _ _ hi hok hs => ⟨hi.step hok.1 hok.2 hs,hi.gap.rank_step hok.1 hs⟩)
    fun _ hi hq => hi.gap.moves hi.addressed hq

theorem Ready.exists_joinRun (hr : s.Ready K) (hu : Joiner K s u introducer level) :
    ∃ t, s.JoinRun u introducer level [] t := by
  obtain ⟨t,ht,hc⟩ := exists_call hu.mem
    (show (s.node u).callStep reliable (.joinStage1LinkLevel0 introducer level ⟨0⟩) = _ from rfl)
  refine ⟨t,⟨0⟩,t,fun r hstep => ?_,ht,.nil t⟩
  obtain rfl := Option.some.inj (hc.step.symm.trans hstep)
  obtain ⟨-,new,hsent,hadv⟩ :=
    (hr.gapInv hu.mem hu.new).advances (hr.joinsOnce hu ⟨0⟩) hc
  rw [hsent]
  generalize (t.node u).calls = calls at hadv
  cases hadv with
  | resume call rt reply new call' hone => simp [hr.fresh u hu.mem hu.new] at hone
  | start =>
    refine ⟨by simp,fun p _ => ⟨by simp [hr.inflight],fun x hx rt hrt => ?_⟩⟩
    simp [hr.initial.resting.waits hx] at hrt

theorem JoinsInTurn.ready {us : List Identifier} (h : JoinsInTurn I s us t) (hr : s.Ready I) :
    t.Ready (I ∪ us.toFinset) ∧ (∀ u ∈ us, (t.node u).calls = [.returned (.ok .joined)]) ∧
    ∀ x l, l ≠ 0 → ∀ d, t.entry x l d = s.entry x l d := by
  induction h with
  | nil => simpa using hr
  | @snoc us t u introducer level as t' _ hu hrun hq ih =>
    obtain ⟨hready,hret,hupper⟩ := ih
    have hi := (hrun.turnInv hready hu).1
    have hset : I ∪ (us++[u]).toFinset = I ∪ us.toFinset ∪ {u} := by
      rw [List.toFinset_append,Finset.union_assoc]
      rfl
    refine ⟨hset ▸ hi.ready hready hq,fun v hv => ?_,fun x l hl d =>
      (hi.upper x l hl d).trans (hupper x l hl d)⟩
    by_cases hvu : v = u
    · subst hvu
      exact (hi.ended hq).1
    · rw [hi.calls v hvu]
      exact hret v (by simpa [hvu] using hv)

/-- Joins one after another all succeed and keep the list: every level-0 slot holds the
predecessor or successor among all nodes that have joined, and no slot above level 0
changes. The next join can always start, from the level its introducer reports or any other,
ends after a bounded number of steps, and however it has begun it can be completed. -/
theorem joins_in_turn_keep_list {us : List Identifier} (hr : s.Ready I)
    (h : JoinsInTurn I s us t) :
    (∀ u ∈ us, (t.node u).calls = [.returned (.ok .joined)]) ∧ t.Listed (I ∪ us.toFinset) ∧
    (∀ x l, l ≠ 0 → ∀ d, t.entry x l d = s.entry x l d) ∧
    (∀ x, (t.node x).core.maxLevel < lookupTableLevels) ∧
    ∀ u introducer level, Joiner (I ∪ us.toFinset) t u introducer level →
      (∃ t', t.JoinRun u introducer level [] t') ∧
      ∀ as t', t.JoinRun u introducer level as t' → as.length ≤ 12 + 3 * t.members.card ∧
        ∃ bs t'', t.JoinRun u introducer level (as++bs) t'' ∧ t''.Quiet := by
  obtain ⟨hready,hret,hupper⟩ := h.ready hr
  refine ⟨hret,hready.initial.listed,hupper,fun x => (t.node x).core.maxLevel_lt,
    fun u introducer level hu => ⟨hready.exists_joinRun hu,fun as t' hrun => ?_⟩⟩
  obtain ⟨hi,hlen⟩ := hrun.turnInv hready hu
  obtain ⟨bs,t'',htr,hq⟩ := hi.completes
  obtain ⟨nonce,s₁,hf,h₁,htr₁⟩ := hrun
  exact ⟨hlen,bs,t'',⟨nonce,s₁,hf,h₁,htr₁.append htr⟩,hq⟩

theorem joinRun_of_trace {nonce : Nonce}
    (h : Trace Sys.step (fun s a => s.DrawsFresh a) s
      (.call u (.joinStage1LinkLevel0 introducer level nonce)::as) t)
    (hr : ∀ a ∈ as, a.runs = true) : s.JoinRun u introducer level as t := by
  cases h with
  | cons h₁ hf htr =>
    refine ⟨nonce,_,hf,h₁,?_⟩
    clear h₁ hf
    induction htr with
    | nil => exact .nil _
    | cons ha ho _ ih =>
      exact .cons ha ⟨hr _ (by simp),ho⟩ (ih fun a ha => hr a (by simp [ha]))

/-- Node 3 joins the single node 2, and node 1 joins them through node 3. -/
theorem joins_in_turn_keep_list_around_two :
    ∃ t : Sys, t.Listed {.ofByte 2,.ofByte 3,.ofByte 1} := by
  let wake (x : UInt8) (k : ℕ) : Action := .call (.ofByte x) (.wake 0 0 ⟨k⟩ ⟨k+1⟩)
  let run₁ : List Action := [.deliver 0,.deliver 0,wake 3 31,.deliver 0,.deliver 0,wake 3 33,
    .deliver 0,.deliver 0,wake 3 35]
  let run₂ : List Action := [.deliver 0,.deliver 0,.deliver 0,wake 1 11,.deliver 0,.deliver 0,
    wake 1 13,.deliver 0,.deliver 0,wake 1 15]
  let s := row [.ofByte 2] [.ofByte 1,.ofByte 3]
  -- nothing is pending when a join starts
  obtain ⟨t,ht,hc⟩ := exists_trace_of_runWhile Sys.step
    (fun s a => decide (s.DrawsFresh a ∧
      (a.runs = false → s.inflight = [] ∧ ∀ x ∈ s.members, (s.node x).waits = []))) s
    ((.call (.ofByte 3) (.joinStage1LinkLevel0 (.ofByte 2) 0 ⟨30⟩)::run₁)++
      (.call (.ofByte 1) (.joinStage1LinkLevel0 (.ofByte 3) 5 ⟨10⟩)::run₂))
    (fun t => decide (t.inflight = [] ∧ ∀ x ∈ t.members, (t.node x).waits = []))
    (by decide +kernel)
  have ht := ht.mono fun _ _ h => of_decide_eq_true h
  obtain ⟨t₁,h₁,h₂⟩ := ht.append_inv
  have hq := of_decide_eq_true hc
  have hq₁ : t₁.inflight = [] ∧ ∀ x ∈ t₁.members, (t₁.node x).waits = [] := by
    cases h₂ with
    | cons _ ho _ => exact ho.2 rfl
  have hm : t₁.members = s.members :=
    h₁.invariant (P := fun t => t.members = s.members) rfl fun _ _ _ hm _ hs =>
      (members_step hs).trans hm
  have hj₁ := joinRun_of_trace (h₁.mono fun _ _ h => h.1) (by decide)
  have hj₂ := joinRun_of_trace (h₂.mono fun _ _ h => h.1) (by decide)
  have hturn₁ : JoinsInTurn [.ofByte 2].toFinset s [.ofByte 3] t₁ :=
    .snoc .nil ⟨by decide,by decide,by decide,by decide⟩ hj₁ (quiet_of_waits hq₁.1 hq₁.2)
  have hturn₂ : JoinsInTurn [.ofByte 2].toFinset s [.ofByte 3,.ofByte 1] t :=
    .snoc hturn₁ ⟨hm ▸ by decide,by decide,by decide,by decide⟩ hj₂ (quiet_of_waits hq.1 hq.2)
  exact ⟨t,(joins_in_turn_keep_list (ready_row _ _) hturn₂).2.1⟩

end Sys

end SkipGraph
