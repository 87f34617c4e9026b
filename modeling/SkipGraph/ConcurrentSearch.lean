import SkipGraph.InitialNodes

/-!
# A search among joins in progress

A joining node routes searches as soon as one neighbour has accepted it. An initial node
never skips another initial node, so an answer by an initial node is exact. An answer by
a joining node is exact when searches only reach joining nodes whose slot on that side
is already filled, or has no initial node past it.
-/

namespace SkipGraph

open Transition StrictOrder BaseNode

namespace Sys

variable {s t : Sys} {a : Action} {I : Finset Identifier} {d : Direction}
  {target origin r : Identifier} {nonce : Nonce}

/-- No initial node lies past `r` and not past the target. -/
def Exact (I : Finset Identifier) (d : Direction) (target r : Identifier) : Prop :=
  ∀ i ∈ I, d.lt r i → ¬ d.le i target

def InitialSlots (I : Finset Identifier) (s : Sys) : Prop :=
  ∀ x ∈ I, ∀ d y, IsNext d.lt I x y → ∃ e, s.entry x 0 d = some e ∧ d.le e.id y

theorem Initial.initialSlots (h : s.Initial I) : InitialSlots I s := by
  intro x hx d y hn
  obtain ⟨e,he,hen⟩ := h.listed.entry_of_lt hx hn.mem hn.after
  have hey : e.id = y := hen.unique hn
  exact ⟨e,he,hey ▸ Direction.le_refl⟩

theorem InitialSlots.step (hi : InitialSlots I s) (h : s.step a = some t) : InitialSlots I t := by
  intro x hx d y hn
  obtain ⟨e,he,hle⟩ := hi x hx d y hn
  obtain ⟨e',he',hle'⟩ := entry_step_some h he
  exact ⟨e',he',Direction.le_trans hle' hle⟩

theorem InitialSlots.exact (hi : InitialSlots I s) (hr : r ∈ I)
    (hpast : ∀ e, s.entry r 0 d = some e → d.lt target e.id) : Exact I d target r := by
  intro i hiI hri hit
  obtain ⟨y,hy⟩ := exists_isNext (r := d.lt) (S := I) (x := r) fun hl => hl i hiI hri
  obtain ⟨e,he,hle⟩ := hi r hr d y hy
  have hyi : d.le y i := Direction.not_lt.mp (hy.first i hiI hri)
  have hte := hpast e he
  exact Direction.lt_irrefl (Direction.lt_of_lt_of_le hte
    (Direction.le_trans hle (Direction.le_trans hyi hit)))

/-- The events of one search: relayed requests to nodes not past the target, and
responses whose result satisfies `R`. -/
def SearchOps (nonce : Nonce) (target origin : Identifier) (d : Direction)
    (R : Identifier → Prop) (s : Sys) : Prop :=
  ∀ p ∈ s.inflight, p.event.nonce? = some nonce →
    (∃ level, p.event = .searchByIdRequest ⟨nonce,target,origin,level,d⟩ ∧ d.le p.dest target) ∨
    ∃ res, p = ⟨origin,.searchByIdResponse res⟩ ∧ d.le res.result target ∧ R res.result

/-- A step that draws other nonces keeps the events of the search, when the nodes that
answer it satisfy `R`. -/
theorem SearchOps.step {R : Identifier → Prop} (hi : SearchOps nonce target origin d R s)
    (hs : s.Sided) (h : s.step a = some t)
    (hdraw : ∀ x ca q, a = .call x ca → (s.node x).callStep reliable ca = some q →
      ∀ p ∈ q.2, p.event.nonce? ≠ some nonce)
    (hanswer : ∀ i x level, a = .deliver i → x ∈ s.members →
      s.inflight[i]? = some ⟨x,.searchByIdRequest ⟨nonce,target,origin,level,d⟩⟩ →
      (∀ e, s.entry x 0 d = some e → d.lt target e.id) → R x) :
    SearchOps nonce target origin d R t := by
  intro q hq hn
  rcases mem_inflight_step h hq with hq | ⟨i,p,rfl,hd,hq⟩ | ⟨x,ca,q',rfl,hc,hq⟩
  · exact hi q hq hn
  · have hr := hs.handle_reacts hd.mem hq
    have hp := hi p (List.mem_of_getElem? hd.get) (hr.nonce_eq.symm.trans hn)
    obtain ⟨x,ev⟩ := p
    rcases hp with ⟨level,rfl,hle⟩ | ⟨res,he,-,-⟩
    · cases hr with
      | answer req hl hpast =>
        have hid : (s.node x).id = x := s.node_id x
        refine .inr ⟨_,rfl,by rw [hid]; exact hle,?_⟩
        rw [hid]
        exact hanswer i x level rfl hd.mem hd.get (hpast 0 (Nat.zero_le _))
      | relay req l e hl hlq he ht hbest => exact .inl ⟨l,rfl,ht⟩
    · obtain ⟨-,rfl⟩ := Packet.mk.inj he
      cases hr
  · exact absurd hn (hdraw x ca q' rfl hc.step q hq)

def Avoids (nonce : Nonce) (s : Sys) : Action → Prop
  | .call x ca => ∀ q, (s.node x).callStep reliable ca = some q →
      ∀ p ∈ q.2, p.event.nonce? ≠ some nonce
  | _ => True

instance (nonce : Nonce) (s : Sys) (a : Action) : Decidable (Avoids nonce s a) :=
  match a with
  | .call _ _ => inferInstanceAs (Decidable (∀ q, _ = some q → _))
  | .deliver _ => isTrue trivial
  | .lose _ => isTrue trivial

/-- The anchor of a join and the neighbour it names lie in the joiner's own gap. -/
def gapwise (I : Finset Identifier) : JoinSpec where
  joiners _ := False
  hop u d x := d.le x u
  anchor u d x := d.le x u ∧ Clear I d x u
  neighbor _ d x q := ∀ e, q = some e → Clear I d x e.id

theorem ClearInv.exact (hi : ClearInv I s) {x : Identifier} (hx : x ∈ s.members)
    (hlast : s.entry x 0 d = none → IsLast d.lt I x)
    (hpast : ∀ e, s.entry x 0 d = some e → d.lt target e.id) : Exact I d target x := by
  intro i hiI hxi hit
  cases he : s.entry x 0 d with
  | none => exact hlast he i hiI hxi
  | some e =>
    exact hi.entries x hx d e he i hiI hxi (Direction.lt_of_le_of_lt hit (hpast e he))

theorem ClearInv.serves_gapwise (hi : ClearInv I s) (hf : Filled Event.searchSide? I s a) :
    Serves (gapwise I) s a where
  start _ _ _ _ _ _ _ hd := Direction.le_of_lt hd
  relay _ _ _ _ _ _ _ _ _ _ _ _ _ _ _ _ hle := hle
  answer i x u nonce level d _ _ hx ha hget hhop hpast := by
    subst ha
    have hex := hi.exact hx (fun he => hi.isLast_of_empty hf hget rfl he) (hpast 0 (Nat.zero_le _))
    exact ⟨hhop,fun i hiI hxi hiu => hex i hiI hxi (Direction.le_of_lt hiu)⟩
  neighbor i x u nonce d _ _ hx _ _ _ _ e he := hi.entries x hx d e he

structure GapwiseInv (I : Finset Identifier) (s : Sys) : Prop where
  sided : s.Sided
  channels : s.ChannelsInv
  joins : s.JoinInv (gapwise I)
  clear : ClearInv I s

theorem GapwiseInv.step (hi : GapwiseInv I s) (hj : s.JoinStep a)
    (hf : Filled Event.searchSide? I s a) (h : s.step a = some t) : GapwiseInv I t := by
  refine ⟨hi.sided.step h,hi.channels.step h,hi.joins.step hi.channels hi.sided hj.1 hj.2
    (hi.clear.serves_gapwise hf) h,hi.clear.step hi.joins hi.sided hj.1 h ?_⟩
  intro u _ d anchor q _ ha hn _
  exact ⟨ha.2,fun e he => ((hn e he).mono_left ha.1).symm⟩

theorem Exact.eq_target (h : Exact I d target r) (hle : d.le r target) (ht : target ∈ I) :
    r = target := by
  by_contra hne
  exact h target ht (Direction.lt_of_le_of_ne hle hne) Direction.le_refl

/-- A search among joins in progress never returns a node past its target, and no initial
node is missed by an initial node's answer. If, moreover, every search that reaches a
joining node finds its slot filled or no initial node past it, no answer misses one. -/
theorem search_among_joins (hI : s.Initial I) {x : Identifier} {level : ℕ}
    (hin : s.inflight = [⟨x,.searchByIdRequest ⟨nonce,target,origin,level,d⟩⟩])
    (hle : d.le x target) :
    (∀ as t, Trace Sys.step (fun s a => s.JoinStep a ∧ Avoids nonce s a) s as t →
      ∀ res, ⟨origin,.searchByIdResponse res⟩ ∈ t.inflight → res.nonce = nonce →
        d.le res.result target ∧ (res.result ∈ I → Exact I d target res.result ∧
          (target ∈ I → res.result = target))) ∧
    (∀ as t, Trace Sys.step (fun s a => s.JoinStep a ∧ Avoids nonce s a ∧
        Filled Event.searchSide? I s a) s as t →
      ∀ res, ⟨origin,.searchByIdResponse res⟩ ∈ t.inflight → res.nonce = nonce →
        d.le res.result target ∧ Exact I d target res.result ∧
          (target ∈ I → res.result = target)) := by
  have hstart : ∀ R, SearchOps nonce target origin d R s := by
    intro R p hp _
    obtain rfl : p = _ := by simpa [hin] using hp
    exact .inl ⟨level,rfl,hle⟩
  have hread : ∀ {R : Identifier → Prop} {t : Sys}, SearchOps nonce target origin d R t →
      ∀ res, ⟨origin,.searchByIdResponse res⟩ ∈ t.inflight → res.nonce = nonce →
        d.le res.result target ∧ R res.result := by
    intro R t hops res hres hn
    rcases hops _ hres (by rw [← hn]; rfl) with ⟨level,he,-⟩ | ⟨res',he,hok⟩
    · simp at he
    · obtain rfl : res = res' := by simpa using he
      exact hok
  constructor
  · intro as t h res hres hn
    have hi : t.Sided ∧ InitialSlots I t ∧
        SearchOps nonce target origin d (fun r => r ∈ I → Exact I d target r) t := by
      refine h.invariant (P := fun t => t.Sided ∧ InitialSlots I t ∧
        SearchOps nonce target origin d (fun r => r ∈ I → Exact I d target r) t)
        ⟨hI.sided,hI.initialSlots,hstart _⟩ ?_
      rintro s a t ⟨hs,hslots,hops⟩ ⟨-,hav⟩ hstep
      refine ⟨hs.step hstep,hslots.step hstep,hops.step hs hstep ?_ ?_⟩
      · rintro x ca q rfl hq
        exact hav q hq
      · exact fun i x level _ _ _ hpast hxI => hslots.exact hxI hpast
    obtain ⟨hle,hex⟩ := hread hi.2.2 res hres hn
    exact ⟨hle,fun hr => ⟨hex hr,(hex hr).eq_target hle⟩⟩
  · intro as t h res hres hn
    have hi : GapwiseInv I t ∧ SearchOps nonce target origin d (Exact I d target) t := by
      refine h.invariant (P := fun t => GapwiseInv I t ∧
        SearchOps nonce target origin d (Exact I d target) t)
        ⟨⟨hI.sided,hI.resting.channelsInv,hI.resting.joinInv (fun _ _ => False.elim),
          hI.clearInv ?_⟩,hstart _⟩ ?_
      · intro p hp
        obtain rfl : p = _ := by simpa [hin] using hp
        simp [Event.Offers]
      · rintro s a t ⟨hg,hops⟩ ⟨hj,hav,hf⟩ hstep
        refine ⟨hg.step hj hf hstep,hops.step hg.sided hstep ?_ ?_⟩
        · rintro x ca q rfl hq
          exact hav q hq
        · rintro i x level rfl hx hget hpast
          exact hg.clear.exact hx (fun he => hg.clear.isLast_of_empty hf hget rfl he) hpast
    obtain ⟨hle,hex⟩ := hread hi.2 res hres hn
    exact ⟨hle,hex,hex.eq_target hle⟩

/-- The list of nodes 1 and 3 beside the fresh node 2, with a search for node 3 that is
about to reach node 1. -/
def searchAtOne : Sys :=
  { row [.ofByte 1,.ofByte 3] [.ofByte 2] with
    inflight := [⟨.ofByte 1,.searchByIdRequest ⟨⟨9⟩,.ofByte 3,.ofByte 1,0,.right⟩⟩] }

theorem initial_searchAtOne : searchAtOne.Initial [.ofByte 1,.ofByte 3].toFinset :=
  let h := initial_row [.ofByte 1,.ofByte 3] [.ofByte 2]
  { subset := h.subset
    listed := ⟨h.listed.next,h.listed.last⟩
    sided := h.sided
    entries := h.entries
    unlinked := h.unlinked
    resting := ⟨h.resting.ended,h.resting.map⟩ }

/-- Node 1 has accepted node 2, which does not yet know of node 3. The search for node 3
is relayed to node 2, which answers with itself. -/
theorem search_misled_by_join :
    ∃ as t, Trace Sys.step (fun s a => s.JoinStep a ∧ Avoids ⟨9⟩ s a ∧ a.loses = false)
        searchAtOne as t ∧
      ∃ res, ⟨.ofByte 1,.searchByIdResponse res⟩ ∈ t.inflight ∧ res.nonce = ⟨9⟩ ∧
        res.target = .ofByte 3 ∧ res.result = .ofByte 2 ∧
        ¬ Exact [.ofByte 1,.ofByte 3].toFinset .right (.ofByte 3) res.result := by
  let run : List Action :=
    [.call (.ofByte 2) (.joinStage1LinkLevel0 (.ofByte 1) 0 ⟨20⟩),.deliver 1,.deliver 1,
      .call (.ofByte 2) (.wake 0 0 ⟨21⟩ ⟨22⟩),.deliver 1,.deliver 1,
      .call (.ofByte 2) (.wake 0 0 ⟨23⟩ ⟨24⟩),.deliver 1,.deliver 0,.deliver 2]
  let res : IdSearchRes := ⟨⟨9⟩,.ofByte 3,0,.ofByte 2⟩
  obtain ⟨t,ht,hc⟩ := exists_trace_of_runWhile Sys.step
    (fun s a => decide (s.JoinStep a ∧ Avoids ⟨9⟩ s a ∧ a.loses = false)) searchAtOne run
    (fun t => decide (⟨.ofByte 1,.searchByIdResponse res⟩ ∈ t.inflight)) (by decide +kernel)
  refine ⟨run,t,ht.mono fun _ _ h => of_decide_eq_true h,res,of_decide_eq_true hc,rfl,rfl,rfl,?_⟩
  intro hex
  exact hex (.ofByte 3) (by decide) (by decide) (by decide)

/-- Here node 2 is linked on both sides when the search arrives, though it is still joining.
It relays the search to node 3. -/
theorem search_among_joins_finds_three :
    ∃ t : Sys, (t.node (.ofByte 2)).waits ≠ [] ∧
      ∃ res, ⟨.ofByte 1,.searchByIdResponse res⟩ ∈ t.inflight ∧ res.result = .ofByte 3 := by
  let linked : List Identifier := [.ofByte 1,.ofByte 3]
  let res : IdSearchRes := ⟨⟨9⟩,.ofByte 3,0,.ofByte 3⟩
  let wake (k : ℕ) : Action := .call (.ofByte 2) (.wake 0 0 ⟨k⟩ ⟨k+1⟩)
  let run : List Action :=
    [.call (.ofByte 2) (.joinStage1LinkLevel0 (.ofByte 1) 0 ⟨20⟩),.deliver 1,.deliver 1,wake 21,
      .deliver 1,.deliver 1,wake 23,.deliver 1,.deliver 1,.deliver 1,.deliver 1,
      .deliver 0,.deliver 0,.deliver 0]
  obtain ⟨t,ht,hc⟩ := exists_trace_of_runWhile Sys.step
    (fun s a => decide (s.JoinStep a ∧ Avoids ⟨9⟩ s a ∧
      Filled Event.searchSide? linked.toFinset s a)) searchAtOne run
    (fun t => decide ((t.node (.ofByte 2)).waits ≠ [] ∧
      ⟨.ofByte 1,.searchByIdResponse res⟩ ∈ t.inflight)) (by decide +kernel)
  obtain ⟨hw,hres⟩ := of_decide_eq_true hc
  have h := (search_among_joins initial_searchAtOne rfl (by decide)).2 _ t
    (ht.mono fun _ _ h => of_decide_eq_true h) res hres rfl
  exact ⟨t,hw,res,hres,h.2.2 (by decide)⟩

end Sys

end SkipGraph
