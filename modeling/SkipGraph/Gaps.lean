import SkipGraph.InitialNodes
import SkipGraph.Liveness

/-!
# Joins into separate gaps

The nodes `J` join through introducers in the list `I`, and no two of them share a gap of
`I`. `GapInv` says that every pointer and every link message of such a run belongs to
the gap of the one node that joins there. It holds in every state, and in a quiet one it
leaves no choice: the level-0 slots are those of the list of `I ∪ J`.
-/

namespace SkipGraph

open StrictOrder BaseNode

variable {I J : Finset Identifier} {d : Direction} {u v x y e : Identifier}

/-- Between any two nodes of `J` lies a node of `I`. -/
def Apart (I J : Finset Identifier) : Prop :=
  ∀ u ∈ J, ∀ v ∈ J, u < v → ∃ i ∈ I, u < i ∧ i < v

instance (I J : Finset Identifier) : Decidable (Apart I J) :=
  inferInstanceAs (Decidable (∀ u ∈ J, ∀ v ∈ J, _ → _))

theorem Apart.between (h : Apart I J) (hu : u ∈ J) (hv : v ∈ J) (hlt : d.lt u v) :
    ∃ i ∈ I, d.lt u i ∧ d.lt i v := by
  cases d with
  | left =>
    obtain ⟨i,hi,hvi,hiu⟩ := h v hv u hu hlt
    exact ⟨i,hi,hiu,hvi⟩
  | right => exact h u hu v hv hlt

theorem Apart.eq_of_isNext (h : Apart I J) (hu : u ∈ J) (hv : v ∈ J)
    (hux : IsNext d.lt I u x) (hvx : IsNext d.lt I v x) : u = v := by
  by_contra hne
  rcases Direction.le_total d u v with hle | hle
  · obtain ⟨i,hi,hui,hiv⟩ := h.between hu hv (Direction.lt_of_le_of_ne hle hne)
    exact hux.first i hi hui (Direction.lt_trans hiv hvx.after)
  · obtain ⟨i,hi,hvi,hiu⟩ := h.between hv hu (Direction.lt_of_le_of_ne hle (Ne.symm hne))
    exact hvx.first i hi hvi (Direction.lt_trans hiu hux.after)

/-- The neighbour in `I` of a node of `J` is its neighbour in both. -/
theorem Apart.isNext_union (h : Apart I J) (hu : u ∈ J) (hn : IsNext d.lt I u e) :
    IsNext d.lt (I ∪ J) u e := by
  refine ⟨Finset.mem_union_left J hn.mem,hn.after,fun z hz huz hze => ?_⟩
  rcases Finset.mem_union.mp hz with hzI | hzJ
  · exact hn.first z hzI huz hze
  · obtain ⟨i,hiI,hui,hiz⟩ := h.between hu hzJ huz
    exact hn.first i hiI hui (Direction.lt_trans hiz hze)

theorem isNext_within (hx : IsNext d.opposite.lt I u x) (hn : IsNext d.lt I x e) (hu : u ∉ I) :
    IsNext d.lt I u e := by
  have hxu : d.lt x u := Direction.opposite_lt.mp hx.after
  refine ⟨hn.mem,?_,fun z hz huz => hn.first z hz (Direction.lt_trans hxu huz)⟩
  by_contra hue
  have heu : d.lt e u := Direction.lt_of_le_of_ne (Direction.not_lt.mp hue) fun he =>
    hu (he ▸ hn.mem)
  exact hx.first e hn.mem (Direction.opposite_lt.mpr heu) (Direction.opposite_lt.mpr hn.after)

theorem isLast_within (hx : IsNext d.opposite.lt I u x) (hl : IsLast d.lt I x) :
    IsLast d.lt I u := fun z hz huz =>
  hl z hz (Direction.lt_trans (Direction.opposite_lt.mp hx.after) huz)

def Call.Early : Call → Prop
  | .joinSearch _ _ => True
  | .joinNeighbor _ _ _ => True
  | _ => False

def LinkFuture.Fine : LinkFuture → Prop
  | .finished (.error _) => False
  | _ => True

/-- A join of `u` that has not failed and is not stuck. -/
def Call.Fine (u : Identifier) : Call → Prop
  | .joinSearch _ rt => Sys.Answerable u rt.request
  | .joinNeighbor _ _ _ => True
  | .joinLink d a q sl ql => (Call.joinLink d a q sl ql).waits ≠ [] ∧ sl.Fine ∧ ∀ f ∈ ql, f.Fine
  | .returned r => r = .ok .joined
  | _ => False

theorem LinkFuture.Fine.settle {f : LinkFuture} (h : f.Fine) (rt : RoundTrip) (reply : Reply) :
    (f.settle rt (.ok reply)).Fine := by
  cases f with
  | waiting rt' =>
    simp only [LinkFuture.settle]
    split <;> trivial
  | finished r => exact h

theorem Call.fine_settled {a : Identifier} {q : Option Identity} {sl : LinkFuture}
    {ql : Option LinkFuture} (hsl : sl.Fine) (hql : ∀ f ∈ ql, f.Fine) :
    (Call.settled d a q sl ql).Fine u := by
  rcases sl with rt | (e | v)
  · exact ⟨by simp [Call.waits,LinkFuture.waits],trivial,hql⟩
  · exact hsl.elim
  · rcases ql with _ | rt | (e | w)
    · rfl
    · exact ⟨by simp [Call.waits,LinkFuture.waits],trivial,hql⟩
    · exact (hql _ rfl).elim
    · rfl

theorem Call.not_early_settled {a : Identifier} {q : Option Identity} {sl : LinkFuture}
    {ql : Option LinkFuture} : ¬ (Call.settled d a q sl ql).Early := by
  rcases sl with rt | r
  · exact id
  · rcases ql with _ | rt | r' <;> exact id

namespace Sys

variable {s t : Sys} {a : Action} {rt : RoundTrip} {c : Call} {spec : JoinSpec}

def Early (s : Sys) (u : Identifier) : Prop := ∀ c ∈ (s.node u).calls, c.Early

/-- The anchor of a join is the joiner's neighbour in `I` on the side it came from, and
the anchor names the one on the other side. -/
def gapSpec (I J : Finset Identifier) : JoinSpec where
  joiners u := u ∈ J
  hop u d x := x ∈ I ∪ J ∧ d.lt x u
  anchor u d x := IsNext d.opposite.lt I u x
  neighbor u d _ q := (q = none → IsLast d.lt I u) ∧ ∀ e, q = some e → IsNext d.lt I u e.id

/-- Node `v` is linking itself next to the node `x` of `I`, on side `d` of it. -/
def Guest (I J : Finset Identifier) (s : Sys) (d : Direction) (x v : Identifier) : Prop :=
  v ∈ J ∧ ¬ s.Early v ∧ IsNext d.opposite.lt I v x

/-- The neighbour `y` of `v` in `I` on side `d` points back to `v`. -/
def Hosted (I : Finset Identifier) (s : Sys) (d : Direction) (v y : Identifier) : Prop :=
  IsNext d.lt I v y ∧ ∃ f, s.entry y 0 d.opposite = some f ∧ f.id = v

structure GapInv (I J : Finset Identifier) (s : Sys) : Prop where
  apart : Apart I J
  disjoint : ∀ u ∈ J, u ∉ I
  subset : I ∪ J ⊆ s.members
  sided : s.Sided
  channels : s.ChannelsInv
  joins : s.JoinInv (gapSpec I J)
  live : s.LiveInv
  slots : ∀ x ∈ I, ∀ d e, s.entry x 0 d = some e → IsNext d.lt I x e.id ∨ Guest I J s d x e.id
  ends : ∀ x ∈ I, ∀ d, s.entry x 0 d = none → IsLast d.lt I x
  guests : ∀ u ∈ J, ∀ d e, s.entry u 0 d = some e → Hosted I s d u e.id
  others : ∀ x ∈ s.members, x ∉ I ∪ J → ∀ l d, s.entry x l d = none
  upper : ∀ x ∈ s.members, ∀ l, l ≠ 0 → ∀ d e, s.entry x l d = some e → e.id ∈ I
  requests : LinkOps (fun x req => req.level = 0 ∧ Guest I J s req.dir x req.candidate.id) s
  acks : ∀ v nonce d l y, ⟨v,.setLinkOp ⟨nonce,d,l,some y⟩⟩ ∈ s.inflight →
    l = 0 ∧ v ∈ J ∧ Hosted I s d v y.id
  once : ∀ u ∈ J, (s.node u).calls.length ≤ 1
  fine : ∀ u ∈ J, ∀ c ∈ (s.node u).calls, c.Fine u
  idle : ∀ x ∈ s.members, x ∉ J → ∀ c ∈ (s.node x).calls, (∃ r, c = .returned r) ∨ c = .cancelled

/-- The nodes `J` join once each, through introducers in `I` and from a level of the
table. Nothing is lost, no timer elapses and no call is dropped. -/
def JoinsOnce (I J : Finset Identifier) (s : Sys) : Action → Prop
  | .deliver _ => True
  | .call _ (.wake _ _ _ _) => True
  | .call u (.joinStage1LinkLevel0 introducer level _) =>
    u ∈ J ∧ (s.node u).calls = [] ∧ introducer ∈ I ∧ level < lookupTableLevels
  | _ => False

instance (I J : Finset Identifier) (s : Sys) (a : Action) : Decidable (JoinsOnce I J s a) :=
  match a with
  | .call u (.joinStage1LinkLevel0 introducer level _) =>
    inferInstanceAs (Decidable (u ∈ J ∧ _ ∧ introducer ∈ I ∧ level < lookupTableLevels))
  | .call _ (.searchById _) => isFalse id
  | .call _ (.getMaxLevel _ _) => isFalse id
  | .call _ (.getNeighbor _ _ _ _) => isFalse id
  | .call _ (.sendLinkRequest _ _ _ _) => isFalse id
  | .call _ (.wake _ _ _ _) => isTrue trivial
  | .call _ (.timeout _ _) => isFalse id
  | .call _ (.cancel _) => isFalse id
  | .deliver _ => isTrue trivial
  | .lose _ => isFalse id

theorem JoinsOnce.joins (h : JoinsOnce I J s a) : a.joins = true := by
  cases a with
  | call u ca => cases ca <;> first | rfl | exact h.elim
  | _ => rfl

theorem JoinsOnce.loses (h : JoinsOnce I J s a) : a.loses = false := by
  cases a with
  | lose i => exact h.elim
  | _ => rfl

/-- How the one call of a joining node moves on: its start, or a reply that keeps the
promises. -/
inductive Advances (I J : Finset Identifier) (s : Sys) (u : Identifier) :
    List RoundTrip → List Call → Prop
  | start (introducer level nonce d rx) (hcalls : (s.node u).calls = []) (hi : introducer ∈ I)
      (hl : level < lookupTableLevels) (hd : d.lt introducer u) :
      Advances I J s u [⟨.search introducer u level d,nonce,rx⟩]
        [.joinSearch d ⟨.search introducer u level d,nonce,rx⟩]
  | resume (call rt reply new call') (hcalls : (s.node u).calls = [call]) (hm : rt ∈ call.waits)
      (hacc : rt.request.accepts reply = true)
      (hrep : s.ReplyOk (gapSpec I J) u rt.request reply)
      (hr : Resumes u rt (.ok reply) call new call') : Advances I J s u new [call']

theorem link_before (h : LinkTarget (gapSpec I J) u v d) : v ∈ I ∧ d.lt v u := by
  obtain ⟨d',anchor,q,-,ha,hn,⟨rfl,rfl⟩ | ⟨e,he,rfl,rfl⟩⟩ := h
  · exact ⟨ha.mem,Direction.opposite_lt.mp ha.after⟩
  · exact ⟨(hn.2 e he).mem,Direction.opposite_lt.mpr (hn.2 e he).after⟩

theorem CallOk.answerable (hc : s.CallOk (gapSpec I J) u c) (hf : c.Fine u)
    (hrt : rt ∈ c.waits) : Answerable u rt.request := by
  rcases hc.waits_cases hrt with ⟨d,rfl⟩ | ⟨d,anchor,rfl⟩ | ⟨dest,dir,hr,ht⟩
  · exact hf
  · rw [hc.1]
    trivial
  · rw [hr]
    exact (link_before ht).2

/-- A reply moves a join in order on without failing. -/
theorem CallOk.fine_resumes {reply : Reply} {new : List RoundTrip} {c' : Call}
    (hc : s.CallOk (gapSpec I J) u c) (hf : c.Fine u) (hrt : rt ∈ c.waits)
    (hacc : rt.request.accepts reply = true) (hrep : s.ReplyOk (gapSpec I J) u rt.request reply)
    (hr : Resumes u rt (.ok reply) c new c') : c'.Fine u := by
  cases hr with
  | single rt' => exact hc.elim
  | searchFailed d rt' e h => simp at h
  | searchMistyped d rt' reply' h hne =>
    obtain rfl : rt = rt' := by simpa [Call.waits] using hrt
    obtain rfl : reply = reply' := by simpa using h
    obtain ⟨introducer,level,hreq⟩ := hc
    cases reply <;> simp_all [Request.accepts]
  | collision d rt' res h he =>
    obtain rfl : rt = rt' := by simpa [Call.waits] using hrt
    obtain rfl : reply = _ := by simpa using h
    obtain ⟨introducer,level,hreq⟩ := hc
    rw [hreq] at hrep
    exact absurd he (Direction.ne_of_lt (Direction.opposite_lt.mp hrep.after))
  | found | linkBoth | linkOne => simp [Call.Fine,Call.waits,LinkFuture.waits,LinkFuture.Fine]
  | neighborFailed d a rt' e h => simp at h
  | neighborMistyped d a rt' reply' h hne =>
    obtain rfl : rt = rt' := by simpa [Call.waits] using hrt
    obtain rfl : reply = reply' := by simpa using h
    have hreq := hc.1
    cases reply <;> simp_all [Request.accepts]
  | link d a q sl ql =>
    refine Call.fine_settled (hf.2.1.settle rt reply) fun f hm => ?_
    obtain ⟨g,hg,rfl⟩ := Option.map_eq_some_iff.mp hm
    exact (hf.2.2 g hg).settle rt reply

theorem GapInv.waits_nil (hi : GapInv I J s) (hx : x ∈ s.members) (hxJ : x ∉ J) :
    (s.node x).waits = [] := by
  refine List.flatMap_eq_nil_iff.mpr fun c hc => ?_
  rcases hi.idle x hx hxJ c hc with ⟨r,rfl⟩ | rfl <;> rfl

theorem GapInv.mem_of_waits (hi : GapInv I J s) (hx : x ∈ s.members)
    (hrt : rt ∈ (s.node x).waits) : x ∈ J := by
  by_contra hxJ
  simp [hi.waits_nil hx hxJ] at hrt

theorem GapInv.calls_eq (hi : GapInv I J s) (hu : u ∈ J) (hc : c ∈ (s.node u).calls) :
    (s.node u).calls = [c] := by
  have hlen := hi.once u hu
  rcases hcalls : (s.node u).calls with _ | ⟨c',_ | ⟨c'',cs⟩⟩
  · simp [hcalls] at hc
  · simp_all
  · simp [hcalls] at hlen

/-- A segment of a call is the start of a join or its next move on a reply. -/
theorem GapInv.advances (hi : GapInv I J s) {ca : CallAction} {r : BaseNode × List Packet}
    (hj : JoinsOnce I J s (.call u ca)) (hc : Called s u ca r t) :
    u ∈ J ∧ ∃ new, r.2 = new.map (RoundTrip.packet (s.node u)) ∧
      Advances I J s u new (t.node u).calls := by
  obtain ⟨ended,new,n₁,calls,hseg⟩ := callStep_segment hc.step
  have hcalls : (t.node u).calls = calls := by rw [hc.node,Function.update_self,hseg.node]
  have hid : (s.node u).id = u := s.node_id u
  rw [hcalls]
  cases hseg.change with
  | answer a r ha hr => simpa [Action.joins,ha] using hj.joins
  | single a rt ha => simpa [Action.joins,ha] using hj.joins
  | timeout | cancel => exact hj.elim
  | refuse level nonce =>
    obtain ⟨hu,-,hI,-⟩ := hj
    exact absurd (hid ▸ hI) (hi.disjoint u hu)
  | join introducer level nonce d rx hd =>
    obtain ⟨hu,hnil,hI,hl⟩ := hj
    refine ⟨hu,_,hseg.sent,?_⟩
    rw [hid] at hd
    rw [hnil,hid]
    exact .start introducer level nonce d rx hnil hI hl hd
  | wake k i nonce₁ nonce₂ call rt result new call' hk hi' hr h =>
    have hcall := List.mem_of_getElem? hk
    have hm := List.mem_of_getElem? hi'
    have hrt : rt ∈ (s.node u).waits := mem_waits.mpr ⟨call,hcall,hm⟩
    have hu := hi.mem_of_waits hc.mem hrt
    have hone := hi.calls_eq hu hcall
    obtain rfl : k = 0 := by
      have hlt := (List.getElem?_eq_some_iff.mp hk).1
      simp [hone] at hlt
      exact hlt
    have hans := (hi.joins.calls u hc.mem call hcall).answerable (hi.fine u hu call hcall) hm
    obtain ⟨reply,rfl⟩ := hi.live.replied hc.mem hrt hans hr
    obtain ⟨hacc,hrep⟩ := hi.joins.received hc.mem hrt hr reply rfl
    refine ⟨hu,new,hseg.sent,?_⟩
    rw [hid] at h
    rw [hone]
    exact .resume call rt reply new call' hone hm hacc hrep h

theorem Advances.not_early {new : List RoundTrip} {calls : List Call}
    (h : Advances I J s u new calls) (he : ¬ s.Early u) : ∃ c ∈ calls, ¬ c.Early := by
  cases h with
  | start introducer level nonce d rx hcalls => exact absurd (by simp [Early,hcalls]) he
  | resume call rt reply new call' hcalls hm hacc hrep hr =>
    have hcall : ¬ call.Early := by simpa [Early,hcalls] using he
    refine ⟨call',by simp,?_⟩
    cases hr with
    | link d a q sl ql => exact Call.not_early_settled
    | single => exact id
    | _ => exact absurd trivial hcall

theorem GapInv.advances_fine (hi : GapInv I J s) (hu : u ∈ J) {new : List RoundTrip}
    {calls : List Call} (h : Advances I J s u new calls) : ∃ c, calls = [c] ∧ c.Fine u := by
  cases h with
  | start introducer level nonce d rx hcalls hI hl hd => exact ⟨_,rfl,hl⟩
  | resume call rt reply new call' hcalls hm hacc hrep hr =>
    have hc : call ∈ (s.node u).calls := by simp [hcalls]
    have hok := hi.joins.calls u (hi.subset (Finset.mem_union_right I hu)) call hc
    exact ⟨call',rfl,hok.fine_resumes (hi.fine u hu call hc) hm hacc hrep hr⟩

theorem GapInv.calls_advance (hi : GapInv I J s) (hj : JoinsOnce I J s a) (h : s.step a = some t)
    (x : Identifier) : (t.node x).calls = (s.node x).calls ∨
    x ∈ J ∧ ∃ new, Advances I J s x new (t.node x).calls := by
  rcases calls_step h x with hcalls | ⟨ca,r,ended,new,n₁,rfl,hc,-⟩
  · exact .inl hcalls
  · obtain ⟨hx,new,-,hadv⟩ := hi.advances hj hc
    exact .inr ⟨hx,new,hadv⟩

theorem GapInv.early_step (hi : GapInv I J s) (hj : JoinsOnce I J s a) (h : s.step a = some t)
    (he : ¬ s.Early v) : ¬ t.Early v := by
  rcases hi.calls_advance hj h v with hcalls | ⟨-,new,hadv⟩
  · rwa [Early,hcalls]
  · obtain ⟨c,hc,hne⟩ := hadv.not_early he
    exact fun hall => hne (hall c hc)

theorem GapInv.guest_step (hi : GapInv I J s) (hj : JoinsOnce I J s a) (h : s.step a = some t)
    (hg : Guest I J s d x v) : Guest I J t d x v :=
  ⟨hg.1,hi.early_step hj h hg.2.1,hg.2.2⟩

/-- Only the link messages of joins write, and only at level 0: a node of `I` then points to
a guest, and a guest to its host. -/
theorem GapInv.written (hi : GapInv I J s) {l i : ℕ} {p : Packet} {w : Identity}
    (hw : Written s x l d i p w t) :
    l = 0 ∧ (x ∈ I ∧ Guest I J s d x w.id ∨ x ∈ J ∧ Hosted I s d x w.id) := by
  have hp := List.mem_of_getElem? hw.delivered.get
  obtain ⟨dest,ev⟩ := p
  obtain rfl := hw.dest
  rcases hw.offers with ⟨nonce,rfl⟩ | ⟨nonce,rfl⟩
  · obtain ⟨hl,hg⟩ := hi.requests dest _ hp
    exact ⟨hl,.inl ⟨hg.2.2.mem,hg⟩⟩
  · obtain ⟨hl,hJ,hh⟩ := hi.acks dest nonce d l w hp
    exact ⟨hl,.inr ⟨hJ,hh⟩⟩

theorem GapInv.slot_kept (hi : GapInv I J s) (h : s.step a = some t) (hx : x ∈ I) {f : Identity}
    (hf : s.entry x 0 d = some f) (hfJ : f.id ∈ J) :
    ∃ f', t.entry x 0 d = some f' ∧ f'.id = f.id := by
  rcases entry_step h x 0 d with hh | ⟨i,p,w,-,hw⟩
  · exact ⟨f,hh.trans hf,rfl⟩
  · refine ⟨w,hw.entry,?_⟩
    rcases (hi.written hw).2 with ⟨-,hg⟩ | ⟨hxJ,-⟩
    · rcases hi.slots x hx d f hf with hn | hg'
      · exact absurd hn.mem (hi.disjoint _ hfJ)
      · exact hi.apart.eq_of_isNext hg.1 hfJ hg.2.2 hg'.2.2
    · exact absurd hx (hi.disjoint x hxJ)

theorem GapInv.hosted_step (hi : GapInv I J s) (h : s.step a = some t) (hv : v ∈ J)
    (hh : Hosted I s d v y) : Hosted I t d v y := by
  obtain ⟨hn,f,hf,rfl⟩ := hh
  exact ⟨hn,hi.slot_kept h hn.mem hf hv⟩

/-- The slots of listed and joining nodes hold nodes of `I` or guests. -/
theorem GapInv.entry_cases (hi : GapInv I J s) (hx : x ∈ I ∪ J) {l : ℕ} {f : Identity}
    (hf : s.entry x l d = some f) : f.id ∈ I ∨ f.id ∈ J ∧ ¬ s.Early f.id := by
  by_cases hl : l = 0
  · subst hl
    rcases Finset.mem_union.mp hx with hxI | hxJ
    · rcases hi.slots x hxI d f hf with hn | hg
      · exact .inl hn.mem
      · exact .inr ⟨hg.1,hg.2.1⟩
    · exact .inl (hi.guests x hxJ d f hf).1.mem
  · exact .inl (hi.upper x (hi.subset hx) l hl d f hf)

theorem GapInv.early_of_wait (hi : GapInv I J s) (hu : u ∈ s.members)
    (hrt : rt ∈ (s.node u).waits) (hne : ∀ dest dir, rt.request ≠ .link dest dir 0) :
    u ∈ J ∧ s.Early u := by
  have huJ := hi.mem_of_waits hu hrt
  obtain ⟨c,hc,hm⟩ := mem_waits.mp hrt
  refine ⟨huJ,?_⟩
  rw [Early,hi.calls_eq huJ hc]
  rcases (hi.joins.calls u hu c hc).waits_cases hm with ⟨d,rfl⟩ | ⟨d,anchor,rfl⟩ |
    ⟨dest,dir,hr,-⟩
  · simp [Call.Early]
  · simp [Call.Early]
  · exact absurd hr (hne dest dir)

theorem GapInv.searching (hi : GapInv I J s) (hu : u ∈ s.members) (h : s.Searching u) :
    u ∈ J ∧ s.Early u := by
  obtain ⟨rt,hrt,dest,target,level,d,hr⟩ := h
  exact hi.early_of_wait hu hrt (by simp [hr])

theorem GapInv.querying (hi : GapInv I J s) (hu : u ∈ s.members) (h : s.Querying u) :
    u ∈ J ∧ s.Early u := by
  obtain ⟨rt,hrt,src,d,level,hr⟩ := h
  exact hi.early_of_wait hu hrt (by simp [hr])

/-- A node of `I` whose level-0 slot is past `u` is the neighbour of `u`. -/
theorem GapInv.anchor_listed (hi : GapInv I J s) (hx : x ∈ I) (hxu : d.lt x u)
    (hpast : ∀ e, s.entry x 0 d = some e → d.lt u e.id) : IsNext d.opposite.lt I u x := by
  refine ⟨hx,Direction.opposite_lt.mpr hxu,fun z hz huz hzx => ?_⟩
  rw [Direction.opposite_lt] at huz hzx
  cases he : s.entry x 0 d with
  | none => exact hi.ends x hx d he z hz hzx
  | some e =>
    have hze := Direction.lt_trans huz (hpast e he)
    rcases hi.slots x hx d e he with hn | hg
    · exact hn.first z hz hzx hze
    · exact hg.2.2.first z hz (Direction.opposite_lt.mpr hze) (Direction.opposite_lt.mpr hzx)

/-- A search for `u` is answered by a joining node only if its slot is still empty. -/
theorem GapInv.empty_of_past (hi : GapInv I J s) (hx : x ∈ J) (hu : u ∈ J) (hxu : d.lt x u)
    (hpast : ∀ e, s.entry x 0 d = some e → d.lt u e.id) : s.entry x 0 d = none := by
  obtain ⟨i,hiI,hxi,hiu⟩ := hi.apart.between hx hu hxu
  cases he : s.entry x 0 d with
  | none => rfl
  | some e =>
    exact absurd (Direction.lt_trans hiu (hpast e he)) ((hi.guests x hx d e he).1.first i hiI hxi)

/-- The neighbour of a node that has not asked for a link names the node past it. -/
theorem GapInv.neighbor_named (hi : GapInv I J s) (hu : u ∈ J) (he : s.Early u)
    (hx : IsNext d.opposite.lt I u x) : (gapSpec I J).neighbor u d x (s.entry x 0 d) := by
  refine ⟨fun hn => isLast_within hx (hi.ends x hx.mem d hn),fun e hs => ?_⟩
  rcases hi.slots x hx.mem d e hs with hn | hg
  · exact isNext_within hx hn (hi.disjoint u hu)
  · obtain rfl : e.id = u := hi.apart.eq_of_isNext hg.1 hu hg.2.2 hx
    exact absurd he hg.2.1

/-- The promises are kept when a search meets no other joining node, or only such whose
slot is filled or has no node of `I` past it. -/
theorem GapInv.serves (hi : GapInv I J s) (hj : JoinsOnce I J s a)
    (hfill : (∀ v ∈ J, ∀ w ∈ J, v = w) ∨ Filled Event.searchSide? I s a) :
    Serves (gapSpec I J) s a where
  start u introducer level nonce d _ ha hd := by
    subst ha
    exact ⟨Finset.mem_union_left _ hj.2.2.1,hd⟩
  relay i x u nonce level d l e hu hsearch _ _ _ hhop _ hs hle := by
    obtain ⟨huJ,hearly⟩ := hi.searching hu hsearch
    have hcases := hi.entry_cases hhop.1 hs
    refine ⟨Finset.mem_union.mpr (hcases.imp_right And.left),Direction.lt_of_le_of_ne hle ?_⟩
    rintro rfl
    rcases hcases with heI | ⟨-,hne⟩
    · exact hi.disjoint _ huJ heI
    · exact hne hearly
  answer i x u nonce level d hu hsearch _ ha hget hhop hpast := by
    subst ha
    obtain ⟨huJ,-⟩ := hi.searching hu hsearch
    have hpast₀ := hpast 0 (Nat.zero_le _)
    rcases Finset.mem_union.mp hhop.1 with hxI | hxJ
    · exact hi.anchor_listed hxI hhop.2 hpast₀
    · rcases hfill with hone | hf
      · exact absurd (hone x hxJ u huJ) (Direction.ne_of_lt hhop.2)
      · obtain ⟨j,hjI,hxj,-⟩ := hi.apart.between hxJ huJ hhop.2
        exact absurd hxj (hf _ hget d rfl (hi.disjoint x hxJ)
          (hi.empty_of_past hxJ huJ hhop.2 hpast₀) j hjI)
  neighbor i x u nonce d hu hquery _ _ _ _ hx := by
    obtain ⟨huJ,hearly⟩ := hi.querying hu hquery
    exact hi.neighbor_named huJ hearly hx

theorem GapInv.upper_step (hi : GapInv I J s) (h : s.step a = some t) {l : ℕ} (hl : l ≠ 0) :
    t.entry x l d = s.entry x l d := by
  rcases entry_step h x l d with hh | ⟨i,p,w,-,hw⟩
  · exact hh
  · exact absurd (hi.written hw).1 hl

/-- A guest asks only its two neighbours in `I`, and these do not pass the request on. -/
theorem GapInv.requests_step (hi : GapInv I J s) (hj : JoinsOnce I J s a)
    (h : s.step a = some t) :
    LinkOps (fun x req => req.level = 0 ∧ Guest I J t req.dir x req.candidate.id) t := by
  have hold : LinkOps (fun x req => req.level = 0 ∧ Guest I J t req.dir x req.candidate.id) s :=
    fun x req hp => ⟨(hi.requests x req hp).1,hi.guest_step hj h (hi.requests x req hp).2⟩
  refine hold.step hi.joins hi.sided hj.joins h ?_ ?_
  · rintro x req e hx ⟨hl,hv,-,hn⟩ _ he hlt
    rw [hl] at he
    have hxe := hi.sided x hx 0 req.dir e he
    rcases hi.slots x hn.mem req.dir e he with hn' | ⟨heJ,-,hn'⟩
    · exact absurd (Direction.opposite_lt.mpr hxe)
        (hn.first e.id hn'.mem (Direction.opposite_lt.mpr hlt))
    · exact absurd (hi.apart.eq_of_isNext heJ hv hn' hn) (Direction.ne_of_lt hlt)
  · rintro u hu nonce d anchor q - ha hn ⟨sl,ql,hc⟩
    have hearly : ¬ t.Early u := fun hall => hall _ hc
    have huJ : u ∈ J := by
      rcases hi.calls_advance hj h u with hcalls | ⟨huJ,-⟩
      · rw [hcalls] at hc
        by_contra huJ
        simpa using hi.idle u hu huJ _ hc
      · exact huJ
    refine ⟨⟨rfl,?_⟩,fun e he => ⟨rfl,?_⟩⟩
    · simpa [Guest,huJ,hearly] using show IsNext d.opposite.lt I u anchor from ha
    · simpa [Guest,huJ,hearly] using hn.2 e he

theorem GapInv.acks_step (hi : GapInv I J s) (h : s.step a = some t) {nonce : Nonce} {l : ℕ}
    {w : Identity} (hq : ⟨v,.setLinkOp ⟨nonce,d,l,some w⟩⟩ ∈ t.inflight) :
    l = 0 ∧ v ∈ J ∧ Hosted I t d v w.id := by
  rcases mem_inflight_step h hq with hq | ⟨i,p,-,hd,hq⟩ | ⟨u,ca,r,-,hc,hq⟩
  · obtain ⟨hl,hv,hh⟩ := hi.acks v nonce d l w hq
    exact ⟨hl,hv,hi.hosted_step h hv hh⟩
  · have hp := List.mem_of_getElem? hd.get
    have hr := hi.sided.handle_reacts hd.mem hq
    obtain ⟨x,ev⟩ := p
    cases hr with
    | accept req hb hnear hn =>
      obtain ⟨hl,hJ,-,hnext⟩ := hi.requests x req hp
      rw [show (s.node x).selfIdentity.id = x from s.node_id x]
      refine ⟨hl,hJ,hnext,req.candidate,?_,rfl⟩
      rw [Direction.opposite_opposite,entry,hd.node,Function.update_self,← hl]
      exact hn
  · exact absurd rfl (callStep_not_setLink hc.step hq _)

theorem GapInv.step (hi : GapInv I J s) (hj : JoinsOnce I J s a) (hf : s.DrawsFresh a)
    (hfill : (∀ v ∈ J, ∀ w ∈ J, v = w) ∨ Filled Event.searchSide? I s a)
    (h : s.step a = some t) : GapInv I J t where
  apart := hi.apart
  disjoint := hi.disjoint
  subset := by rw [members_step h]; exact hi.subset
  sided := hi.sided.step h
  channels := hi.channels.step h
  joins := hi.joins.step hi.channels hi.sided hj.joins hf (hi.serves hj hfill) h
  live := hi.live.step hi.joins hi.channels hi.sided hj.loses hf h
  slots x hx d e he := by
    rcases entry_step h x 0 d with hh | ⟨i,p,w,-,hw⟩
    · exact (hi.slots x hx d e (hh.symm.trans he)).imp_right (hi.guest_step hj h)
    · obtain rfl : w = e := Option.some.inj (hw.entry.symm.trans he)
      rcases (hi.written hw).2 with ⟨-,hg⟩ | ⟨hxJ,-⟩
      · exact .inr (hi.guest_step hj h hg)
      · exact absurd hx (hi.disjoint x hxJ)
  ends x hx d he := hi.ends x hx d (entry_none_step h he)
  guests u hu d e he := by
    apply hi.hosted_step h hu
    rcases entry_step h u 0 d with hh | ⟨i,p,w,-,hw⟩
    · exact hi.guests u hu d e (hh.symm.trans he)
    · obtain rfl : w = e := Option.some.inj (hw.entry.symm.trans he)
      rcases (hi.written hw).2 with ⟨huI,-⟩ | ⟨-,hh⟩
      · exact absurd huI (hi.disjoint u hu)
      · exact hh
  others x hx hxIJ l d := by
    rw [members_step h] at hx
    rcases entry_step h x l d with hh | ⟨i,p,w,-,hw⟩
    · exact hh.trans (hi.others x hx hxIJ l d)
    · rcases (hi.written hw).2 with ⟨hxI,-⟩ | ⟨hxJ,-⟩
      · exact absurd (Finset.mem_union_left J hxI) hxIJ
      · exact absurd (Finset.mem_union_right I hxJ) hxIJ
  upper x hx l hl d e he := by
    rw [members_step h] at hx
    exact hi.upper x hx l hl d e ((hi.upper_step h hl).symm.trans he)
  requests := hi.requests_step hj h
  acks _ _ _ _ _ hq := hi.acks_step h hq
  once u hu := by
    rcases hi.calls_advance hj h u with hcalls | ⟨-,new,hadv⟩
    · rw [hcalls]
      exact hi.once u hu
    · obtain ⟨c,hc,-⟩ := hi.advances_fine hu hadv
      simp [hc]
  fine u hu c hc := by
    rcases hi.calls_advance hj h u with hcalls | ⟨-,new,hadv⟩
    · exact hi.fine u hu c (hcalls ▸ hc)
    · obtain ⟨c',hc',hfine⟩ := hi.advances_fine hu hadv
      obtain rfl : c = c' := by simpa [hc'] using hc
      exact hfine
  idle x hx hxJ c hc := by
    rw [members_step h] at hx
    rcases hi.calls_advance hj h x with hcalls | ⟨hx',-⟩
    · exact hi.idle x hx hxJ c (hcalls ▸ hc)
    · exact absurd hx' hxJ

theorem Initial.gapInv (h : s.Initial I) (hin : s.inflight = []) (hsub : J ⊆ s.members)
    (hdis : ∀ u ∈ J, u ∉ I) (hap : Apart I J) (hfresh : ∀ u ∈ J, (s.node u).calls = []) :
    GapInv I J s where
  apart := hap
  disjoint := hdis
  subset := Finset.union_subset h.subset hsub
  sided := h.sided
  channels := h.resting.channelsInv
  joins := h.resting.joinInv fun u _ hu => hfresh u hu
  live := h.resting.liveInv
  slots x hx d e he := .inl (h.listed.next x hx d e he)
  ends := h.listed.last
  guests u hu d e he := by simp [h.unlinked u (hsub hu) (hdis u hu)] at he
  others x hx hxIJ := h.unlinked x hx fun hxI => hxIJ (Finset.mem_union_left J hxI)
  upper x hx l _ d e he := h.entries x hx l d e he
  requests x req hp := by simp [hin] at hp
  acks v nonce d l y hp := by simp [hin] at hp
  once u hu := by simp [hfresh u hu]
  fine u hu c hc := by simp [hfresh u hu] at hc
  idle x hx _ c hc := h.resting.ended x hx c hc

/-- In a quiet state every join that was started has returned `Ok`. -/
theorem GapInv.returned (hi : GapInv I J s) (hq : s.Quiet) (hu : u ∈ J)
    (hc : (s.node u).calls ≠ []) : (s.node u).calls = [.returned (.ok .joined)] := by
  have hum := hi.subset (Finset.mem_union_right I hu)
  obtain ⟨c,hc⟩ := List.exists_mem_of_ne_nil _ hc
  have hfine := hi.fine u hu c hc
  have hnil : c.waits = [] := by
    refine List.eq_nil_iff_forall_not_mem.mpr fun rt hrt => ?_
    exact hi.live.not_pending hq hum (mem_waits.mpr ⟨c,hc,hrt⟩)
      ((hi.joins.calls u hum c hc).answerable hfine hrt)
  rw [hi.calls_eq hu hc]
  cases c with
  | returned r => rw [show r = .ok .joined from hfine]
  | joinLink d a q sl ql => exact absurd hnil hfine.1
  | joinSearch d rt => simp [Call.waits] at hnil
  | joinNeighbor d a rt => simp [Call.waits] at hnil
  | single rt => exact hfine.elim
  | cancelled => exact hfine.elim

theorem GapInv.isLast_of_joined (hi : GapInv I J s) (hu : u ∈ J)
    (hc : (s.node u).calls = [.returned (.ok .joined)]) (he : s.entry u 0 d = none) :
    IsLast d.lt I u := by
  have hok := hi.joins.calls u (hi.subset (Finset.mem_union_right I hu)) (.returned (.ok .joined))
    (by simp [hc])
  obtain ⟨d',anchor,q,-,hn,⟨-,e,hs⟩,hq⟩ : s.Joined (gapSpec I J) u := hok hu
  rcases Direction.eq_or_eq_opposite d' d with rfl | rfl
  · rcases q with _ | q
    · exact hn.1 rfl
    · obtain ⟨-,e',hs'⟩ := hq q rfl
      simp [he] at hs'
  · simp [he] at hs

theorem GapInv.host (hi : GapInv I J s) (hu : u ∈ J)
    (hlast : ∀ d, s.entry u 0 d = none → IsLast d.lt I u) (hx : IsNext d.opposite.lt I u x) :
    ∃ f, s.entry x 0 d = some f ∧ f.id = u := by
  cases he : s.entry u 0 d.opposite with
  | none => exact absurd hx.after (hlast _ he x hx.mem)
  | some e =>
    obtain ⟨hn,f,hf,hfu⟩ := hi.guests u hu _ e he
    obtain rfl := hn.unique hx
    exact ⟨f,by simpa using hf,hfu⟩

theorem GapInv.isNext_union (hi : GapInv I J s)
    (hlast : ∀ u ∈ J, ∀ d, s.entry u 0 d = none → IsLast d.lt I u) (hx : x ∈ I) {f : Identity}
    (hf : s.entry x 0 d = some f) (hn : IsNext d.lt I x f.id) : IsNext d.lt (I ∪ J) x f.id := by
  refine ⟨Finset.mem_union_left J hn.mem,hn.after,fun z hz hxz hzf => ?_⟩
  rcases Finset.mem_union.mp hz with hzI | hzJ
  · exact hn.first z hzI hxz hzf
  · -- the slot of `x` would hold `z`
    have hback : IsNext d.opposite.lt I z x :=
      ⟨hx,Direction.opposite_lt.mpr hxz,fun i hiI hzi hix => hn.first i hiI
        (Direction.opposite_lt.mp hix) (Direction.lt_trans (Direction.opposite_lt.mp hzi) hzf)⟩
    obtain ⟨f',hf',rfl⟩ := hi.host hzJ (hlast z hzJ) hback
    obtain rfl : f = f' := Option.some.inj (hf.symm.trans hf')
    exact hi.disjoint _ hzJ hn.mem

/-- Once all of `J` have joined, the list of `I ∪ J` is complete. -/
theorem GapInv.listed (hi : GapInv I J s)
    (hlast : ∀ u ∈ J, ∀ d, s.entry u 0 d = none → IsLast d.lt I u) : s.Listed (I ∪ J) where
  next x hx d e he := by
    rcases Finset.mem_union.mp hx with hxI | hxJ
    · rcases hi.slots x hxI d e he with hn | ⟨heJ,-,hn⟩
      · exact hi.isNext_union hlast hxI he hn
      · have hback := isNext_opposite (hi.apart.isNext_union heJ hn) (Finset.mem_union_right I heJ)
        rwa [Direction.opposite_opposite] at hback
    · exact hi.apart.isNext_union hxJ (hi.guests x hxJ d e he).1
  last x hx d he z hz hxz := by
    have hl : IsLast d.lt I x := by
      rcases Finset.mem_union.mp hx with hxI | hxJ
      · exact hi.ends x hxI d he
      · exact hlast x hxJ d he
    rcases Finset.mem_union.mp hz with hzI | hzJ
    · exact hl z hzI hxz
    · rcases Finset.mem_union.mp hx with hxI | hxJ
      · have hback : IsNext d.opposite.lt I z x :=
          ⟨hxI,Direction.opposite_lt.mpr hxz,fun i hiI _ hix =>
            hl i hiI (Direction.opposite_lt.mp hix)⟩
        obtain ⟨f,hf,-⟩ := hi.host hzJ (hlast z hzJ) hback
        simp [he] at hf
      · obtain ⟨i,hiI,hxi,-⟩ := hi.apart.between hxJ hzJ hxz
        exact hl i hiI hxi

end Sys

end SkipGraph
