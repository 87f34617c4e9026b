import SkipGraph.Liveness

/-!
# The link requests of joins

A join learns its anchor and the anchor's neighbour in two separate round trips. When
the slot that the neighbour query reads holds a node past the joiner, or nothing, both
link requests pass the own-slot check of their receivers and are answered. Otherwise
another join has slipped in between, and the second request is dropped.
-/

namespace SkipGraph

open Transition BaseNode

namespace Sys

variable {s t : Sys} {a : Action} {M : Finset Identifier}

/-- A neighbour query at level 0 that is served in this step reads an empty slot or a
node past the joiner. -/
def QueriesPast (s : Sys) : Action → Prop
  | .deliver i => ∀ p, s.inflight[i]? = some p → ∀ req, p.event.query? = some req →
      req.level = 0 → ∀ e, s.entry p.dest 0 req.direction = some e →
      req.direction.lt req.origin e.id
  | _ => True

instance (s : Sys) (a : Action) : Decidable (s.QueriesPast a) :=
  match a with
  | .deliver i => inferInstanceAs (Decidable (∀ p, s.inflight[i]? = some p → _))
  | .lose _ => isTrue trivial
  | .call _ _ => isTrue trivial

/-- A join meets members only: an anchor before the joiner and a neighbour past it. -/
def around (M : Finset Identifier) : JoinSpec where
  joiners _ := False
  hop u d x := d.le x u
  anchor u d x := x ∈ M ∧ d.le x u
  neighbor u d _ q := ∀ e, q = some e → e.id ∈ M ∧ d.lt u e.id

theorem QueriesPast.serves (h : s.QueriesPast a) (hk : s.Known) :
    Serves (around s.members) s a where
  start _ _ _ _ _ _ _ hd := Direction.le_of_lt hd
  relay _ _ _ _ _ _ _ _ _ _ _ _ _ _ _ _ hle := hle
  answer _ _ _ _ _ _ _ _ hx _ _ hhop _ := ⟨hx,hhop⟩
  neighbor i x u nonce d _ _ hx ha hget _ _ e he := by
    subst ha
    exact ⟨hk.entries x hx 0 d e he,h _ hget _ rfl rfl e he⟩

/-- The request is addressed to a member that lies before its candidate, at level 0. -/
def Servable (M : Finset Identifier) (x : Identifier) (req : LinkReq) : Prop :=
  x ∈ M ∧ req.level = 0 ∧ req.dir.lt x req.candidate.id

theorem Servable.belongs {x : Identifier} {req : LinkReq} (h : Servable M x req) :
    (s.node x).belongsInOwnSlot req.level req.dir req.candidate = true := by
  obtain ⟨-,hl,hlt⟩ := h
  refine belongsInOwnSlot_iff.mpr ⟨by rw [hl]; decide,?_,by rw [hl]; exact Nat.zero_le _⟩
  rwa [s.node_id]

structure ServiceInv (s : Sys) : Prop where
  sided : s.Sided
  known : s.Known
  channels : s.ChannelsInv
  joins : s.JoinInv (around s.members)
  live : s.LiveInv
  links : LinkOps (Servable s.members) s

theorem ServiceInv.step (hi : s.ServiceInv) (hj : s.JoinStep a) (hq : s.QueriesPast a)
    (hloss : a.loses = false) (h : s.step a = some t) : t.ServiceInv where
  sided := hi.sided.step h
  known := hi.known.step hi.sided h
  channels := hi.channels.step h
  joins := by
    rw [members_step h]
    exact hi.joins.step hi.channels hi.sided hj.1 hj.2 (hq.serves hi.known) h
  live := hi.live.step hi.joins hi.channels hi.sided hloss hj.2 h
  links := by
    rw [members_step h]
    refine hi.links.step hi.joins hi.sided hj.1 h ?_ ?_
    · intro x req e hx hr _ he hlt
      exact ⟨hi.known.entries x hx req.level req.dir e he,hr.2.1,hlt⟩
    · intro u hu nonce d anchor q hne ha hn _
      refine ⟨⟨ha.1,rfl,?_⟩,fun e he => ⟨(hn e he).1,rfl,?_⟩⟩
      · simpa using Direction.lt_of_le_of_ne ha.2 hne
      · simpa using (hn e he).2

theorem LinkTarget.lt {u dest : Identifier} {dir : Direction}
    (h : LinkTarget (around M) u dest dir) : dir.lt dest u := by
  obtain ⟨d,anchor,q,hne,ha,hn,⟨rfl,rfl⟩ | ⟨e,he,rfl,rfl⟩⟩ := h
  · exact Direction.lt_of_le_of_ne ha.2 hne
  · simpa using (hn e he).2

/-- In a run whose neighbour queries all read past the joiner, every link request that a
join sends passes the check of the member it is addressed to, at its first delivery and
at every later one, and none is left unanswered. -/
theorem join_link_requests_served {as : List Action} (hs : s.Sided) (hk : s.Known)
    (hr : s.Resting) (hin : s.inflight = [])
    (h : Trace Sys.step (fun s a => s.JoinStep a ∧ s.QueriesPast a ∧ a.loses = false) s as t) :
    (∀ x req, ⟨x,.getLinkOp req⟩ ∈ t.inflight → x ∈ t.members ∧
      (t.node x).belongsInOwnSlot req.level req.dir req.candidate = true) ∧
    (t.Quiet → ∀ u ∈ t.members, ∀ rt ∈ (t.node u).waits, ∀ dest dir level,
      rt.request ≠ .link dest dir level) := by
  have hi : t.ServiceInv := by
    refine h.invariant (P := ServiceInv) ⟨hs,hk,hr.channelsInv,
      hr.joinInv (fun _ _ => False.elim),hr.liveInv,?_⟩ ?_
    · intro x req hx
      simp [hin] at hx
    · exact fun s a t hi hok hstep => hi.step hok.1 hok.2.1 hok.2.2 hstep
  refine ⟨fun x req hx => ⟨(hi.links x req hx).1,(hi.links x req hx).belongs⟩,?_⟩
  intro hq u hu rt hrt dest dir level hreq
  have hok := hi.joins.request hu hrt
  apply hi.live.not_pending hq hu hrt
  rw [hreq] at hok ⊢
  exact hok.2.lt

/-- Nodes 2 and 3 both find anchor 1. Node 2 is linked before node 3 queries the anchor's
neighbour, which is then node 2, on the wrong side of node 3. -/
theorem join_link_request_dropped :
    ∃ as t, Trace Sys.step (fun s a => s.JoinStep a ∧ a.loses = false)
        (row [.ofByte 1] [.ofByte 2,.ofByte 3]) as t ∧
      ∃ req, ⟨.ofByte 2,.getLinkOp req⟩ ∈ t.inflight ∧ req.candidate = t.identity (.ofByte 3) ∧
        (t.node (.ofByte 2)).belongsInOwnSlot req.level req.dir req.candidate = false := by
  obtain ⟨t,ht,hc⟩ := exists_trace_of_runWhile Sys.step
    (fun s a => decide (s.JoinStep a ∧ a.loses = false))
    (row [.ofByte 1] [.ofByte 2,.ofByte 3])
    [.call (.ofByte 2) (.joinStage1LinkLevel0 (.ofByte 1) 0 ⟨20⟩),
      .call (.ofByte 3) (.joinStage1LinkLevel0 (.ofByte 1) 0 ⟨30⟩),
      .deliver 0,.deliver 0,.deliver 0,.deliver 0,
      .call (.ofByte 2) (.wake 0 0 ⟨21⟩ ⟨22⟩),.deliver 0,.deliver 0,
      .call (.ofByte 2) (.wake 0 0 ⟨23⟩ ⟨24⟩),.deliver 0,.deliver 0,
      .call (.ofByte 2) (.wake 0 0 ⟨25⟩ ⟨26⟩),
      .call (.ofByte 3) (.wake 0 0 ⟨31⟩ ⟨32⟩),.deliver 0,.deliver 0,
      .call (.ofByte 3) (.wake 0 0 ⟨33⟩ ⟨34⟩)]
    (fun t => decide (⟨.ofByte 2,.getLinkOp ⟨⟨34⟩,t.identity (.ofByte 3),.left,0⟩⟩ ∈ t.inflight ∧
      (t.node (.ofByte 2)).belongsInOwnSlot 0 .left (t.identity (.ofByte 3)) = false))
    (by decide +kernel)
  obtain ⟨hin,hb⟩ := of_decide_eq_true hc
  exact ⟨_,t,ht.mono fun _ _ h => of_decide_eq_true h,_,hin,rfl,hb⟩

/-- Nodes 2 and 3 both find anchor 1, and node 3 is linked before node 2 queries the
anchor's neighbour, which is then node 3, past node 2. Once both joins have run on, no
request is pending. -/
theorem join_link_requests_served_between :
    (∃ t : Sys, t.inflight.map Packet.dest = [.ofByte 1,.ofByte 3] ∧
      ∀ x req, ⟨x,.getLinkOp req⟩ ∈ t.inflight →
        x ∈ t.members ∧ (t.node x).belongsInOwnSlot req.level req.dir req.candidate = true) ∧
    ∃ t : Sys, t.Quiet ∧
      (∀ u ∈ ({.ofByte 2,.ofByte 3} : Finset Identifier),
        (t.node u).calls = [.returned (.ok .joined)]) ∧
      ∀ u ∈ t.members, ∀ rt ∈ (t.node u).waits, ∀ dest dir level,
        rt.request ≠ .link dest dir level := by
  let J : Finset Identifier := {.ofByte 2,.ofByte 3}
  let join (x : UInt8) (k : ℕ) : Action :=
    .call (.ofByte x) (.joinStage1LinkLevel0 (.ofByte 1) 0 ⟨k⟩)
  let wake (x : UInt8) (k : ℕ) : Action := .call (.ofByte x) (.wake 0 0 ⟨k⟩ ⟨k+1⟩)
  let run : List Action :=
    [join 2 20,join 3 30,.deliver 0,.deliver 0,.deliver 0,.deliver 0,
      wake 3 31,.deliver 0,.deliver 0,wake 3 33,.deliver 0,.deliver 0,
      wake 2 21,.deliver 0,.deliver 0,wake 2 23]
  let ok (s : Sys) (a : Action) : Bool :=
    decide (s.JoinStep a ∧ s.QueriesPast a ∧ a.loses = false)
  let start : Sys := row [.ofByte 1] [.ofByte 2,.ofByte 3]
  have hh : start.Honest := honest_row _ _
  obtain ⟨s,hs,hc⟩ := exists_trace_of_runWhile Sys.step ok start run
    (fun t => decide (t.inflight.map Packet.dest = [.ofByte 1,.ofByte 3])) (by decide +kernel)
  obtain ⟨t,ht,hw⟩ := exists_trace_of_runWhile Sys.step ok start
    (run ++ [.deliver 0,.deliver 0,.deliver 0,.deliver 0,wake 3 35,wake 2 25,wake 2 27])
    (fun t => decide (t.inflight = [] ∧ (∀ x ∈ t.members, (t.node x).waits = []) ∧
      ∀ u ∈ J, (t.node u).calls = [.returned (.ok .joined)])) (by decide +kernel)
  obtain ⟨hin,hwaits,hret⟩ := of_decide_eq_true hw
  have hq : t.Quiet := quiet_of_waits hin hwaits
  have served {as t} (h : Trace Sys.step (fun s a => ok s a) start as t) :=
    join_link_requests_served hh.sided hh.known (resting_row _ _) rfl
      (h.mono fun _ _ h => of_decide_eq_true h)
  exact ⟨⟨s,of_decide_eq_true hc,(served hs).1⟩,t,hq,hret,(served ht).2 hq⟩

end Sys

end SkipGraph
