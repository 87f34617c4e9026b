import SkipGraph.OrderedSet
import SkipGraph.Quiescence
import SkipGraph.Snapshots

/-!
# Reads in parallel

Searches and queries leave every table as it is. However many of them are under way at
once, and however their events interleave, each is answered as if it were alone: a search
with the nearest node, a query with the level or the slot it asked for.
-/

namespace SkipGraph

open Transition BaseNode

/-- The segments that leave all tables alone, neither joins nor link requests. A query is
addressed to one of the nodes `M`. -/
def CallAction.Reads (M : Finset Identifier) : CallAction → Prop
  | getMaxLevel introducer _ => introducer ∈ M
  | getNeighbor src _ _ _ => src ∈ M
  | sendLinkRequest _ _ _ _ => False
  | joinStage1LinkLevel0 _ _ _ => False
  | _ => True

instance (M : Finset Identifier) (ca : CallAction) : Decidable (ca.Reads M) :=
  match ca with
  | .getMaxLevel introducer _ => inferInstanceAs (Decidable (introducer ∈ M))
  | .getNeighbor src _ _ _ => inferInstanceAs (Decidable (src ∈ M))
  | .sendLinkRequest _ _ _ _ => isFalse id
  | .joinStage1LinkLevel0 _ _ _ => isFalse id
  | .searchById _ => isTrue trivial
  | .wake _ _ _ _ => isTrue trivial
  | .timeout _ _ => isTrue trivial
  | .cancel _ => isTrue trivial

namespace Action

def Reads (M : Finset Identifier) : Action → Prop
  | call _ a => a.Reads M
  | _ => True

instance (M : Finset Identifier) (a : Action) : Decidable (a.Reads M) :=
  match a with
  | .call _ ca => inferInstanceAs (Decidable (ca.Reads M))
  | .deliver _ => isTrue trivial
  | .lose _ => isTrue trivial

/-- Nothing is lost, no timer fires and no future is dropped. -/
def gentle : Action → Bool
  | lose _ => false
  | call _ (.timeout _ _) => false
  | call _ (.cancel _) => false
  | _ => true

def made (u : Identifier) : Action → Option CallAction
  | call x a => if x = u ∧ a.starts = true then some a else none
  | _ => none

end Action

/-- The calls that node `u` makes in a run, in the order in which it makes them. -/
def callsMade (u : Identifier) (as : List Action) : List CallAction := as.filterMap (Action.made u)

theorem forall₂_set {α β : Type*} {R : α → β → Prop} {as : List α} {bs : List β} {k : ℕ} {b b' : β}
    (h : List.Forall₂ R as bs) (hk : bs[k]? = some b) (hb : ∀ a, R a b → R a b') :
    List.Forall₂ R as (bs.set k b') := by
  induction h generalizing k with
  | nil => simp at hk
  | cons hab h ih =>
    cases k with
    | zero =>
      obtain rfl := Option.some.inj hk
      exact .cons (hb _ hab) h
    | succ k => exact .cons hab (ih hk)

theorem forall₂_imp_mem {α β : Type*} {R S : α → β → Prop} {as : List α} {bs : List β}
    (h : List.Forall₂ R as bs) (hS : ∀ a, ∀ b ∈ bs, R a b → S a b) : List.Forall₂ S as bs := by
  induction h with
  | nil => exact .nil
  | cons hab _ ih =>
    exact .cons (hS _ _ (by simp) hab) (ih fun a b hb => hS a b (by simp [hb]))

theorem exists_of_forall₂ {α β : Type*} {R : α → β → Prop} {as : List α} {bs : List β} {b : β}
    (h : List.Forall₂ R as bs) (hb : b ∈ bs) : ∃ a, R a b := by
  induction h with
  | nil => simp at hb
  | cons hab _ ih =>
    rcases List.mem_cons.mp hb with rfl | hb
    · exact ⟨_,hab⟩
    · exact ih hb

theorem BaseNode.Segment.new_waits {n n₁ : BaseNode} {ca : CallAction} {ended : List Nonce}
    {new : List RoundTrip} {calls : List Call} {r : BaseNode × List Packet} {rt : RoundTrip}
    (h : Segment n ca ended new n₁ calls r) (hrt : rt ∈ new) : rt ∈ r.1.waits := by
  obtain ⟨kept,hp,-,-⟩ := h.change.waits_perm
  rw [h.node]
  exact hp.mem_iff.mpr (List.mem_append_right _ hrt)

namespace Sys

variable {s t v : Sys} {I : Finset Identifier} {strict : Prop} {u x : Identifier} {a : Action}
  {ca : CallAction} {rt : RoundTrip} {p q : Packet} {reply : Reply} {as : List Action}

/-- What a read of node `u` returns when it is alone. Beyond the table a search fails at once
and a neighbour query has no answer. -/
def readAnswer (s : Sys) (I : Finset Identifier) (u : Identifier) :
    CallAction → Option (Except Error Output)
  | .searchById req =>
    if lookupTableLevels ≤ req.level then some (.error (.wrapped .performSearch
      (.wrapped (.searchLevel lookupTableLevels) (.levelOutOfRange lookupTableLevels))))
    else if u ∈ I ∧ req.direction.le u req.target then
      (IdentifierSet.nearest I req.target req.direction).map fun r =>
        .ok (.found ⟨req.nonce,req.target,0,r⟩)
    else some (.ok (.found ⟨req.nonce,req.target,0,u⟩))
  | .getMaxLevel introducer _ => some (.ok (.maxLevel (s.node introducer).core.maxLevel))
  | .getNeighbor src direction level _ =>
    if level < lookupTableLevels then some (.ok (.neighbor (s.entry src level direction))) else none
  | _ => none

def Fits (s : Sys) (I : Finset Identifier) (rt : RoundTrip) (reply : Reply) : Prop :=
  match rt.request, reply with
  | .search _ target _ d, .search res => ∃ r, Nearest d I target r ∧ res = ⟨rt.nonce,target,0,r⟩
  | .maxLevel introducer, .maxLevel res => res.maxLevel = (s.node introducer).core.maxLevel
  | .neighbor src d level, .neighbor res =>
    level < lookupTableLevels ∧ res.neighbor = s.entry src level d
  | _, _ => False

/-- The event is the request, at a node from where it can be answered, or its answer. -/
def PacketFits (s : Sys) (I : Finset Identifier) (u : Identifier) (rt : RoundTrip) (p : Packet) :
    Prop :=
  match rt.request with
  | .search _ target _ d =>
    (∃ x level, p = ⟨x,.searchByIdRequest ⟨rt.nonce,target,u,level,d⟩⟩ ∧ x ∈ I ∧ d.le x target ∧
      level < lookupTableLevels) ∨
    ∃ res, p = ⟨u,.searchByIdResponse res⟩ ∧ s.Fits I rt (.search res)
  | .maxLevel introducer => p = ⟨introducer,.getMaxLevelOp ⟨rt.nonce,u⟩⟩ ∨
    ∃ res, p = ⟨u,.retMaxLevelOp res⟩ ∧ s.Fits I rt (.maxLevel res)
  | .neighbor src d level => p = ⟨src,.getNeighborOp ⟨rt.nonce,u,level,d⟩⟩ ∨
    ∃ res, p = ⟨u,.retNeighborOp res⟩ ∧ s.Fits I rt (.neighbor res)
  | .link _ _ _ => False

/-- The requests of reads: a search is sent to a node of the graph that is not past its target. -/
def Routed (s : Sys) (I : Finset Identifier) : Request → Prop
  | .search dest target level d => dest ∈ I ∧ d.le dest target ∧ level < lookupTableLevels
  | .maxLevel introducer => introducer ∈ s.members
  | .neighbor src _ _ => src ∈ s.members
  | .link _ _ _ => False

def Served (_ : Identifier) : Request → Prop
  | .neighbor _ _ level => level < lookupTableLevels
  | _ => True

/-- How far a read can be: it awaits a request whose answer is its own, has returned its
answer, or has failed. In a `strict` run it fails only when there is no answer. -/
def ReadCall (s : Sys) (I : Finset Identifier) (strict : Prop) (u : Identifier) (ca : CallAction) :
    Call → Prop
  | .single rt => s.Routed I rt.request ∧
    (∀ reply, s.Fits I rt reply → s.readAnswer I u ca = some (.ok reply.output)) ∧
    ((s.readAnswer I u ca).isSome = true → Served u rt.request)
  | .returned r => s.readAnswer I u ca = some r ∨
    (∃ e, r = .error e) ∧ (strict → s.readAnswer I u ca = none)
  | .cancelled => ¬ strict
  | _ => False

theorem ReadCall.eq_single {c : Call} (h : s.ReadCall I strict u ca c) (hrt : rt ∈ c.waits) :
    c = .single rt := by
  cases c with
  | single rt' =>
    obtain rfl : rt = rt' := by simpa [Call.waits] using hrt
    rfl
  | returned r => simp [Call.waits] at hrt
  | cancelled => simp [Call.waits] at hrt
  | _ => exact h.elim

theorem maxLevel_congr (h : t.entry = s.entry) (x : Identifier) :
    (t.node x).core.maxLevel = (s.node x).core.maxLevel := by
  have he : ∀ l d, (t.node x).core.lt.entry l d = (s.node x).core.lt.entry l d := fun l d =>
    congrFun (congrFun (congrFun h x) l) d
  refine le_antisymm ?_ ?_
  · exact ArrayLookupTable.maxPopulatedLevel_mono fun l d hl => he l d ▸ hl
  · exact ArrayLookupTable.maxPopulatedLevel_mono fun l d hl => (he l d).symm ▸ hl

theorem packetFits_packet (hr : s.Routed I rt.request) :
    s.PacketFits I u rt (rt.packet (t.node u)) := by
  have hid : (t.node u).id = u := t.node_id u
  obtain ⟨request,nonce,rx⟩ := rt
  cases request with
  | search dest target level d =>
    exact .inl ⟨dest,level,by simp [RoundTrip.packet,Request.event,Request.dest,hid],hr⟩
  | maxLevel introducer => exact .inl (by simp [RoundTrip.packet,Request.event,Request.dest,hid])
  | neighbor src d level => exact .inl (by simp [RoundTrip.packet,Request.event,Request.dest,hid])
  | link dest dir level => exact hr.elim

theorem PacketFits.answers (hp : s.PacketFits I u rt p) (ha : Answers p u rt reply) :
    s.Fits I rt reply := by
  obtain ⟨f,hf,-⟩ := ha.reply_eq
  obtain ⟨request,nonce,rx⟩ := rt
  cases request with
  | search dest target level d =>
    rcases hp with ⟨x,l,rfl,-⟩ | ⟨res,rfl,hb⟩
    · simp [Event.reply?] at hf
    · simp only [Event.reply?,Option.some.injEq,Prod.mk.injEq] at hf
      exact hf.1 ▸ hb
  | maxLevel introducer =>
    rcases hp with rfl | ⟨res,rfl,hb⟩
    · simp [Event.reply?] at hf
    · simp only [Event.reply?,Option.some.injEq,Prod.mk.injEq] at hf
      exact hf.1 ▸ hb
  | neighbor src d level =>
    rcases hp with rfl | ⟨res,rfl,hb⟩
    · simp [Event.reply?] at hf
    · simp only [Event.reply?,Option.some.injEq,Prod.mk.injEq] at hf
      exact hf.1 ▸ hb
  | link dest dir level => exact hp.elim

/-- A node of the graph relays a search towards its target or is the answer. -/
theorem PacketFits.react (hI : s.Initial I) (he : t.entry = s.entry) (hs : t.Sided) {i : ℕ}
    (hp : s.PacketFits I u rt p) (hd : Delivered t i p v) (hq : q ∈ (t.handle p).sent) :
    s.PacketFits I u rt q := by
  have hr := hs.handle_reacts hd.mem hq
  have hent : ∀ x l d, (t.node x).entry l d = s.entry x l d := fun x l d =>
    congrFun (congrFun (congrFun he x) l) d
  obtain ⟨request,nonce,rx⟩ := rt
  cases request with
  | search dest target level d =>
    rcases hp with ⟨x,l,rfl,hx,hle,hl⟩ | ⟨res,rfl,-⟩
    · cases hr with
      | answer req _ hpast =>
        simp only [hent] at hpast
        refine .inr ⟨_,rfl,x,hI.listed.nearest_of_past ⟨nonce,target,u,l,d⟩ hx hle hpast,?_⟩
        rw [show (t.node x).id = x from t.node_id x]
      | relay req l' e _ hl' he' ht _ =>
        rw [hent] at he'
        exact .inl ⟨e.id,l',rfl,hI.entries x (hI.subset hx) l' d e he',ht,lt_of_le_of_lt hl' hl⟩
    · cases hr
  | maxLevel introducer =>
    rcases hp with rfl | ⟨res,rfl,-⟩
    · cases hr
      exact .inr ⟨_,rfl,maxLevel_congr he introducer⟩
    · cases hr
  | neighbor src d level =>
    rcases hp with rfl | ⟨res,rfl,-⟩
    · cases hr with
      | neighbor req hl => exact .inr ⟨_,rfl,hl,hent src level d⟩
    · cases hr
  | link dest dir level => exact hp.elim

theorem PacketFits.progress (hs : t.Sided) {i : ℕ} (hp : s.PacketFits I u rt p)
    (hd : Delivered t i p v) (hserved : Served u rt.request) : v.Progresses p u rt := by
  intro hn
  rcases hs.handle_cases hd.mem with ⟨-,habs⟩ | ⟨q,hq,-,hr⟩
  · right
    obtain ⟨request,nonce,rx⟩ := rt
    cases request with
    | search dest target level d =>
      rcases hp with ⟨x,l,rfl,-,-,hl⟩ | ⟨res,rfl,-⟩
      · exact absurd hl (Nat.not_lt.mpr habs)
      · exact ⟨.search res,rfl,hn,_,rfl,rfl⟩
    | maxLevel introducer =>
      rcases hp with rfl | ⟨res,rfl,-⟩
      · exact habs.elim
      · exact ⟨.maxLevel res,rfl,hn,_,rfl,rfl⟩
    | neighbor src d level =>
      rcases hp with rfl | ⟨res,rfl,-⟩
      · exact absurd hserved (Nat.not_lt.mpr habs)
      · exact ⟨.neighbor res,rfl,hn,_,rfl,rfl⟩
    | link dest dir level => exact hp.elim
  · left
    refine ⟨q,?_,hr.nonce_eq.trans hn⟩
    rw [hd.inflight,hq]
    exact List.mem_append_right _ (by simp)

theorem Initial.owner_mem (hI : s.Initial I) (hx : x ∈ s.members) {l : ℕ} {d : Direction} {e : Identity}
    (he : s.entry x l d = some e) : x ∈ I := by
  by_contra hxI
  simp [hI.unlinked x hx hxI] at he

theorem readCall_search (hI : s.Initial I) (hu : u ∈ s.members) {req : IdSearchReq} {l : ℕ}
    {e : Identity} (hl : req.level < lookupTableLevels) (hle : l ≤ req.level)
    (he : s.entry u l req.direction = some e) (ht : req.direction.le e.id req.target) (rx : ℕ) :
    s.ReadCall I strict u (.searchById req)
      (.single ⟨.search e.id req.target l req.direction,req.nonce,rx⟩) := by
  have huI := hI.owner_mem hu he
  have hut : req.direction.le u req.target :=
    Direction.le_trans (Direction.le_of_lt (hI.sided u hu l _ e he)) ht
  refine ⟨⟨hI.entries u hu l _ e he,ht,lt_of_le_of_lt hle hl⟩,fun reply hfit => ?_,
    fun _ => trivial⟩
  cases reply with
  | search res =>
    obtain ⟨r,hn,rfl⟩ := hfit
    simp [readAnswer,Nat.not_le.mpr hl,huI,hut,IdentifierSet.nearest_eq hn,Reply.output]
  | _ => exact hfit.elim

/-- A read is in order from its first segment on. -/
theorem readCall_begin (hI : s.Initial I) (hu : u ∈ s.members) (he : t.entry = s.entry)
    (hreads : ca.Reads s.members) (hstarts : ca.starts = true) {r : BaseNode × List Packet}
    (h : (t.node u).callStep reliable ca = some r) :
    ∃ c, r.1.calls = (t.node u).calls ++ [c] ∧ s.ReadCall I strict u ca c := by
  have hent : ∀ l d, (t.node u).core.lt.entry l d = s.entry u l d := fun l d =>
    congrFun (congrFun (congrFun he u) l) d
  have hid : (t.node u).core.id = u := t.node_id u
  cases ca with
  | searchById req =>
    obtain rfl := Option.some.inj h
    rcases lt_or_ge req.level lookupTableLevels with hl | hl
    · rcases (t.node u).core.searchById_cases req hl with ⟨hloc,hpast⟩ | ⟨l,e,hle,he',hloc,ht,-⟩
      · refine ⟨.returned (.ok (.found ⟨req.nonce,req.target,0,u⟩)),?_,.inl ?_⟩
        · simp [begin,BaseNode.searchById,hloc,hid]
        · simp only [hent] at hpast
          simp only [readAnswer,Nat.not_le.mpr hl,if_false]
          split
          · rename_i hin
            rw [IdentifierSet.nearest_eq (hI.listed.nearest_of_past req hin.1 hin.2 hpast)]
            rfl
          · rfl
      · rw [hent] at he'
        have hne : e.id ≠ (t.node u).core.id := by
          rw [hid]
          exact (Direction.ne_of_lt (hI.sided u hu l _ e he')).symm
        refine ⟨_,?_,readCall_search hI hu hl hle he' ht (t.node u).oneshots.length⟩
        simp [begin,BaseNode.searchById,hloc,hne,sendSearchByIdReq,suspend_start]
    · refine ⟨.returned (.error (.wrapped .performSearch (.wrapped (.searchLevel lookupTableLevels)
        (.levelOutOfRange lookupTableLevels)))),?_,.inl ?_⟩
      · simp [begin,BaseNode.searchById,BaseCore.searchById_error _ hl]
      · simp only [readAnswer,hl,if_true]
  | getMaxLevel introducer nonce =>
    obtain rfl := Option.some.inj h
    refine ⟨.single ⟨.maxLevel introducer,nonce,(t.node u).oneshots.length⟩,?_,hreads,
      fun reply hfit => ?_,fun _ => trivial⟩
    · simp [begin,BaseNode.getMaxLevel,suspend_start]
    · cases reply with
      | maxLevel res =>
        have hfit : res.maxLevel = (s.node introducer).core.maxLevel := hfit
        simp [readAnswer,Reply.output,hfit]
      | _ => exact hfit.elim
  | getNeighbor src d level nonce =>
    obtain rfl := Option.some.inj h
    refine ⟨.single ⟨.neighbor src d level,nonce,(t.node u).oneshots.length⟩,?_,hreads,
      fun reply hfit => ?_,fun hsome => ?_⟩
    · simp [begin,BaseNode.getNeighbor,suspend_start]
    · cases reply with
      | neighbor res =>
        obtain ⟨hl,hres⟩ := hfit
        simp [readAnswer,Reply.output,hl,hres]
      | _ => exact hfit.elim
    · by_contra hl
      have hl : ¬ level < lookupTableLevels := hl
      simp [readAnswer,hl] at hsome
  | sendLinkRequest | joinStage1LinkLevel0 => exact hreads.elim
  | _ => simp [CallAction.starts] at hstarts

/-- The state `t` of a run of reads from `s`: the tables are as they were, and every call that
was made is in order, with all that is under way for it. -/
structure ReadInv (s : Sys) (I : Finset Identifier) (strict : Prop) (as : List Action) (t : Sys) :
    Prop where
  members : t.members = s.members
  entry : t.entry = s.entry
  offers : ∀ p ∈ t.inflight, ∀ l d c, ¬ p.event.Offers l d c
  addressed : t.Addressed
  channels : t.ChannelsInv
  calls : ∀ u ∈ s.members, ∃ cs, (t.node u).calls = (s.node u).calls ++ cs ∧
    List.Forall₂ (s.ReadCall I strict u) (callsMade u as) cs
  packets : ∀ u ∈ t.members, ∀ rt ∈ (t.node u).waits, ∀ p ∈ t.inflight,
    p.event.nonce? = some rt.nonce → s.PacketFits I u rt p
  replies : ∀ u ∈ t.members, ∀ rt ∈ (t.node u).waits, ∀ reply,
    (t.node u).oneshots[rt.rx]? = some (.sent reply) → s.Fits I rt reply
  live : strict → LiveFor Served t

section Calls

variable {made : List CallAction} {cs : List Call} {c c' : Call} {k : ℕ} (hr : s.Resting)
  (hu : u ∈ s.members) (hcs : List.Forall₂ (s.ReadCall I strict u) made cs)

include hr hu hcs

theorem readCall_of_suspended (hc : c ∈ (s.node u).calls ++ cs) (hrt : rt ∈ c.waits) :
    c = .single rt ∧ c ∉ (s.node u).calls ∧ ∃ ca, s.ReadCall I strict u ca c := by
  have hold : c ∉ (s.node u).calls := by
    intro hc
    rcases hr.ended u hu c hc with ⟨r,rfl⟩ | rfl <;> simp [Call.waits] at hrt
  obtain ⟨ca,hca⟩ := exists_of_forall₂ hcs ((List.mem_append.mp hc).resolve_left hold)
  exact ⟨hca.eq_single hrt,hold,ca,hca⟩

theorem forall₂_resume (hk : ((s.node u).calls ++ cs)[k]? = some (.single rt))
    (hc : ∀ ca, s.ReadCall I strict u ca (.single rt) → s.ReadCall I strict u ca c') :
    ∃ cs', ((s.node u).calls ++ cs).set k c' = (s.node u).calls ++ cs' ∧
      List.Forall₂ (s.ReadCall I strict u) made cs' := by
  obtain ⟨-,hold,-⟩ := readCall_of_suspended hr hu hcs (List.mem_of_getElem? hk)
    (List.mem_singleton_self rt)
  have hle : (s.node u).calls.length ≤ k := by
    by_contra hlt
    rw [List.getElem?_append_left (Nat.not_le.mp hlt)] at hk
    exact hold (List.mem_of_getElem? hk)
  rw [List.getElem?_append_right hle] at hk
  exact ⟨_,List.set_append_right _ _ hle,forall₂_set hcs hk hc⟩

theorem routed_of_calls (hcalls : (t.node u).calls = (s.node u).calls ++ cs)
    (hrt : rt ∈ (t.node u).waits) : s.Routed I rt.request := by
  obtain ⟨c,hc,hm⟩ := mem_waits.mp hrt
  rw [hcalls] at hc
  obtain ⟨rfl,-,ca,hca⟩ := readCall_of_suspended hr hu hcs hc hm
  exact hca.1

end Calls

theorem callsMade_append (a : Action) (h : a.made u = none) :
    callsMade u (as++[a]) = callsMade u as := by
  simp [callsMade,h]

/-- A segment of `u` makes a call that is in order, or keeps one of its calls so. -/
theorem ReadInv.calls_segment (hi : ReadInv s I strict as t) (hI : s.Initial I)
    (hu : u ∈ s.members) (hreads : ca.Reads s.members)
    (hgentle : strict → (Action.call u ca).gentle = true) {r : BaseNode × List Packet}
    (h : (t.node u).callStep reliable ca = some r) :
    ∃ cs, r.1.calls = (s.node u).calls ++ cs ∧
      List.Forall₂ (s.ReadCall I strict u) (callsMade u (as++[.call u ca])) cs := by
  have hut : u ∈ t.members := by rw [hi.members]; exact hu
  obtain ⟨cs,hcalls,hcs⟩ := hi.calls u hu
  by_cases hstarts : ca.starts = true
  · obtain ⟨c,hc',hread⟩ : ∃ c, r.1.calls = (t.node u).calls ++ [c] ∧ s.ReadCall I strict u ca c :=
      readCall_begin hI hu hi.entry hreads hstarts h
    refine ⟨cs++[c],by rw [hc',hcalls,List.append_assoc],?_⟩
    simpa [callsMade,Action.made,hstarts] using List.rel_append hcs (.cons hread .nil)
  · rw [callsMade_append _ (by simp [Action.made,hstarts])]
    obtain ⟨ended,new,n₁,calls,hseg⟩ := callStep_segment h
    have hnode : r.1.calls = calls := by rw [hseg.node]
    have hch := hseg.change
    rw [hnode]
    cases hch with
    | wake k i nonce₁ nonce₂ call rt result new call' hk hi' hrec hres =>
      have hrt : rt ∈ (t.node u).waits :=
        mem_waits.mpr ⟨call,List.mem_of_getElem? hk,List.mem_of_getElem? hi'⟩
      rw [hcalls] at hk ⊢
      obtain ⟨rfl,-⟩ := readCall_of_suspended hI.resting hu hcs (List.mem_of_getElem? hk)
        (List.mem_of_getElem? hi')
      refine forall₂_resume hI.resting hu hcs hk fun ca' hca => ?_
      cases hres
      cases result with
      | ok reply => exact .inl (hca.2.1 reply (hi.replies u hut rt hrt reply (received_ok hrec).1))
      | error e =>
        -- while nothing is lost only a request without an answer fails
        refine .inr ⟨⟨e,rfl⟩,fun hs => ?_⟩
        by_contra hsome
        obtain ⟨reply,hreply⟩ := (hi.live hs).replied hut hrt
          (hca.2.2 (Option.isSome_iff_ne_none.mpr hsome)) hrec
        simp at hreply
    | timeout k i call rt call' hk hi' hres =>
      rw [hcalls] at hk ⊢
      obtain ⟨rfl,-⟩ := readCall_of_suspended hI.resting hu hcs (List.mem_of_getElem? hk)
        (List.mem_of_getElem? hi')
      refine forall₂_resume hI.resting hu hcs hk fun ca' hca => ?_
      cases hres
      exact .inr ⟨⟨_,rfl⟩,fun hs => by simp [Action.gentle] at hgentle; exact absurd hs hgentle⟩
    | cancel k call hk hw =>
      obtain ⟨rt,hrt⟩ := List.exists_mem_of_ne_nil _ hw
      rw [hcalls] at hk ⊢
      obtain ⟨rfl,-⟩ := readCall_of_suspended hI.resting hu hcs (List.mem_of_getElem? hk) hrt
      refine forall₂_resume hI.resting hu hcs hk fun ca' _ hs => ?_
      simp [Action.gentle] at hgentle
      exact hgentle hs
    | answer a r ha => cases ca <;> simp_all [CallAction.plain,CallAction.starts]
    | single a rt ha => cases ca <;> simp_all [CallAction.plain,CallAction.starts]
    | refuse | join => simp [CallAction.starts] at hstarts

theorem ReadInv.calls_step (hi : ReadInv s I strict as t) (hI : s.Initial I)
    (hreads : a.Reads s.members) (hgentle : strict → a.gentle = true) (h : t.step a = some v)
    (hu : u ∈ s.members) : ∃ cs, (v.node u).calls = (s.node u).calls ++ cs ∧
      List.Forall₂ (s.ReadCall I strict u) (callsMade u (as++[a])) cs := by
  rcases step_cases h with ⟨i,p,rfl,hd⟩ | ⟨i,rfl,hl⟩ | ⟨y,ca,r,rfl,hca⟩
  · rw [hd.calls,callsMade_append _ rfl]
    exact hi.calls u hu
  · rw [hl.node,callsMade_append _ rfl]
    exact hi.calls u hu
  · rw [hca.node]
    by_cases huy : y = u
    · subst huy
      rw [Function.update_self]
      exact hi.calls_segment hI hu hreads hgentle hca.step
    · rw [Function.update_of_ne (Ne.symm huy),callsMade_append _ (by simp [Action.made,huy])]
      exact hi.calls u hu

theorem ReadInv.sided (hi : ReadInv s I strict as t) (hI : s.Initial I) : t.Sided := by
  intro x hx l d e he
  rw [hi.members] at hx
  rw [hi.entry] at he
  exact hI.sided x hx l d e he

theorem ReadInv.entry_step (hi : ReadInv s I strict as t) (h : t.step a = some v) :
    v.entry = s.entry := by
  funext x l d
  rcases Sys.entry_step h x l d with he | ⟨i,p,c,-,hw⟩
  · rw [he,hi.entry]
  · exact absurd hw.offers (hi.offers p (List.mem_of_getElem? hw.delivered.get) l d c)

theorem Called.sent_routed {r : BaseNode × List Packet} (h : Called t u ca r v)
    (hrouted : ∀ rt ∈ (v.node u).waits, s.Routed I rt.request) (hq : q ∈ r.2) :
    ∃ rt, q = RoundTrip.packet (t.node u) rt ∧ s.Routed I rt.request := by
  obtain ⟨ended,new,n₁,calls,hseg⟩ := callStep_segment h.step
  rw [hseg.sent] at hq
  obtain ⟨rt,hrt,rfl⟩ := List.mem_map.mp hq
  refine ⟨rt,rfl,hrouted rt ?_⟩
  rw [h.node,Function.update_self]
  exact hseg.new_waits hrt

theorem ReadInv.offers_step (hi : ReadInv s I strict as t) (hI : s.Initial I) (h : t.step a = some v)
    (hrouted : ∀ u ∈ s.members, ∀ rt ∈ (v.node u).waits, s.Routed I rt.request) :
    ∀ p ∈ v.inflight, ∀ l d c, ¬ p.event.Offers l d c := by
  intro q hq l d c ho
  rcases mem_inflight_step h hq with hq | ⟨i,p,-,hd,hq⟩ | ⟨y,ca,r,-,hca,hq⟩
  · exact hi.offers q hq l d c ho
  · have hno := hi.offers p (List.mem_of_getElem? hd.get)
    have hre := (hi.sided hI).handle_reacts hd.mem hq
    obtain ⟨x,ev⟩ := p
    cases hre with
    | forward req e => exact hno _ _ _ (.inl ⟨req.nonce,rfl⟩)
    | accept req => exact hno _ _ _ (.inl ⟨req.nonce,rfl⟩)
    | _ => simp [Event.Offers] at ho
  · have hy : y ∈ s.members := by
      rw [← hi.members]
      exact hca.mem
    obtain ⟨⟨request,nonce,rx⟩,rfl,hro⟩ := hca.sent_routed (hrouted y hy) hq
    cases request with
    | link dest dir level => exact hro
    | _ => simp [RoundTrip.packet,Request.event,Event.Offers] at ho

theorem ReadInv.addressed_step (hi : ReadInv s I strict as t) (hI : s.Initial I)
    (h : t.step a = some v)
    (hrouted : ∀ u ∈ s.members, ∀ rt ∈ (v.node u).waits, s.Routed I rt.request) :
    v.Addressed := by
  intro q hq
  rw [members_step h]
  rcases mem_inflight_step h hq with hq | ⟨i,p,-,hd,hq⟩ | ⟨y,ca,r,-,hca,hq⟩
  · exact hi.addressed q hq
  · obtain ⟨hdest,hreply⟩ := hi.addressed p (List.mem_of_getElem? hd.get)
    have hno := hi.offers p (List.mem_of_getElem? hd.get)
    have hre := (hi.sided hI).handle_reacts hd.mem hq
    obtain ⟨x,ev⟩ := p
    cases hre with
    | relay req l e hl hle he =>
      have he : s.entry x l req.direction = some e := by
        rw [← hi.entry]
        exact he
      refine ⟨?_,hreply⟩
      rw [hi.members] at hdest ⊢
      exact hI.subset (hI.entries x hdest l _ e he)
    | forward req e => exact absurd (.inl ⟨req.nonce,rfl⟩) (hno _ _ _)
    | _ => exact ⟨hreply _ rfl,by simp [Event.replyTo?]⟩
  · have hy := hca.mem
    have hid : (t.node y).id = y := t.node_id y
    rw [hi.members] at hy ⊢
    obtain ⟨⟨request,nonce,rx⟩,rfl,hro⟩ := hca.sent_routed (hrouted y hy) hq
    refine ⟨?_,?_⟩
    · cases request with
      | search dest target level d => exact hI.subset hro.1
      | link dest dir level => exact hro.elim
      | _ => exact hro
    · cases request with
      | link dest dir level => exact hro.elim
      | _ => simp [RoundTrip.packet,Request.event,Event.replyTo?,hid,hy]

theorem ReadInv.step (hi : ReadInv s I strict as t) (hI : s.Initial I)
    (hf : t.DrawsFresh a) (hreads : a.Reads s.members) (hgentle : strict → a.gentle = true)
    (h : t.step a = some v) : ReadInv s I strict (as++[a]) v := by
  have hcalls : ∀ u ∈ s.members, _ := fun u hu => hi.calls_step hI hreads hgentle h hu
  have hrouted : ∀ u ∈ s.members, ∀ rt ∈ (v.node u).waits, s.Routed I rt.request := by
    intro u hu rt hrt
    obtain ⟨cs,he,hcs⟩ := hcalls u hu
    exact routed_of_calls hI.resting hu hcs he hrt
  have hs := hi.sided hI
  refine ⟨(members_step h).trans hi.members,hi.entry_step h,hi.offers_step hI h hrouted,
    hi.addressed_step hI h hrouted,hi.channels.step h,hcalls,?_,?_,fun hstrict => ?_⟩
  · refine pending_packets_step hs hf h hi.packets (fun _ _ _ hp => hp) ?_ ?_
    · exact fun u _ rt _ i p q _ hd hp hq => hp.react hI hi.entry hs hd hq
    · intro u ca r ended new n₁ calls _ hca hseg rt hrt
      refine packetFits_packet (hrouted u (by rw [← hi.members]; exact hca.mem) rt ?_)
      rw [hca.node,Function.update_self]
      exact hseg.new_waits hrt
  · refine pending_replies_step hi.channels h hi.replies (fun _ _ _ _ hfit => hfit) ?_
    intro u hu rt hrt i p reply hd ha
    exact (hi.packets u hu rt hrt p (List.mem_of_getElem? hd.get) ha.nonce_eq).answers ha
  · have hloss : a.loses = false := by
      have hg := hgentle hstrict
      cases a <;> simp_all [Action.gentle,Action.loses]
    refine (hi.live hstrict).step hi.channels hloss hf h fun i p hd u hu rt hrt hserved hn => ?_
    exact (hi.packets u hu rt hrt p (List.mem_of_getElem? hd.get) hn).progress hs hd hserved hn

theorem readInv_start (hI : s.Initial I) (hin : s.inflight = []) : ReadInv s I strict [] s where
  members := rfl
  entry := rfl
  offers := by simp [hin]
  addressed := by simp [Addressed,hin]
  channels := hI.resting.channelsInv
  calls u _ := ⟨[],by simp [callsMade]⟩
  packets := by simp [hin]
  replies u hu rt hrt := by simp [hI.resting.waits hu] at hrt
  live _ := ⟨fun x hx => by simp [hI.resting.waits hx],fun u hu rt hrt => by simp [hI.resting.waits hu] at hrt⟩

/-- A read that wakes up sends nothing, so it can always be run on. -/
theorem ReadInv.moves (hi : ReadInv s I strict as t) (hI : s.Initial I) (hq : ¬ t.Quiet) :
    ∃ a v, (a.runs = true ∧ t.DrawsFresh a) ∧ t.step a = some v := by
  rcases hin : t.inflight with _ | ⟨p,ps⟩
  · obtain ⟨x,hx,k,i,nonce₁,nonce₂,r,hstep⟩ : ∃ x ∈ t.members, ∃ k i nonce₁ nonce₂ r,
        (t.node x).callStep reliable (.wake k i nonce₁ nonce₂) = some r := by
      by_contra hno
      push Not at hno
      exact hq ⟨hin,fun x hx k i nonce₁ nonce₂ => Option.eq_none_iff_forall_ne_some.mpr
        (hno x hx k i nonce₁ nonce₂)⟩
    obtain ⟨v,hv,hca⟩ := exists_call hx hstep
    refine ⟨.call x (.wake k i nonce₁ nonce₂),v,⟨rfl,fun r' hr' => ?_⟩,hv⟩
    obtain rfl := Option.some.inj (hstep.symm.trans hr')
    obtain ⟨ended,new,n₁,calls,hseg⟩ := callStep_segment hstep
    have hsent := hseg.sent
    have hch := hseg.change
    cases hch with
    | wake k i nonce₁ nonce₂ call rt result new call' hk hi' hrec hres =>
      have hxs : x ∈ s.members := hi.members ▸ hx
      obtain ⟨cs,hcalls,hcs⟩ := hi.calls x hxs
      rw [hcalls] at hk
      obtain ⟨rfl,-⟩ := readCall_of_suspended hI.resting hxs hcs (List.mem_of_getElem? hk)
        (List.mem_of_getElem? hi')
      cases hres
      rw [hsent]
      exact ⟨List.nodup_nil,by simp⟩
    | answer a r ha => simp [CallAction.plain] at ha
    | single a rt ha => simp [CallAction.plain] at ha
  · have hp : p ∈ t.inflight := by simp [hin]
    obtain ⟨v,hv,-⟩ := exists_deliver (s := t) (i := 0) (p := p) (by simp [hin])
      (hi.addressed p hp).1
    exact ⟨.deliver 0,v,⟨rfl,trivial⟩,hv⟩

theorem ReadInv.completes (hi : ReadInv s I False as t) (hI : s.Initial I) :
    ∃ bs v, Trace Sys.step (fun s a => a.runs = true ∧ s.DrawsFresh a) t bs v ∧ v.Quiet := by
  refine exists_trace_to (P := fun t => ∃ as, ReadInv s I False as t) (μ := load) ⟨as,hi⟩ ?_ ?_
  · rintro t a v ⟨as,hi⟩ ⟨hruns,hf⟩ hstep
    have hreads : a.Reads s.members ∧ a.starts = false := by
      cases a with
      | call x ca =>
        cases ca with
        | wake k i nonce₁ nonce₂ => exact ⟨trivial,rfl⟩
        | _ => simp [Action.runs] at hruns
      | deliver i => exact ⟨trivial,rfl⟩
      | lose i => exact ⟨trivial,rfl⟩
    refine ⟨⟨_,hi.step hI hf hreads.1 False.elim hstep⟩,?_⟩
    have hload := load_step (hi.sided hI) hstep
    rw [hreads.2] at hload
    simpa using hload
  · rintro t ⟨as,hi⟩ hq
    exact hi.moves hI hq

theorem readInv_of_trace (hI : s.Initial I) (hin : s.inflight = [])
    (h : Trace Sys.step (fun s a => s.DrawsFresh a ∧ a.Reads s.members) s as t)
    (hgentle : strict → ∀ a ∈ as, a.gentle = true) : ReadInv s I strict as t := by
  refine (h.restrict (P := fun a => strict → a.gentle = true) fun a ha hs =>
    hgentle hs a ha).history (readInv_start hI hin) ?_
  rintro as t a v hi ⟨⟨hf,hreads⟩,hg⟩ hstep
  rw [hi.members] at hreads
  exact hi.step hI hf hreads hg hstep

/-- What a read has returned is its answer, and in a quiet state of a strict run a read that
has an answer has returned it. -/
theorem ReadInv.returned (hi : ReadInv s I strict as t) (hu : u ∈ s.members) {c : Call}
    (hc : c ∈ (t.node u).calls) (hread : s.ReadCall I strict u ca c) :
    (∀ out, c = .returned (.ok out) → s.readAnswer I u ca = some (.ok out)) ∧
    (strict → t.Quiet → ∀ answer, s.readAnswer I u ca = some answer → c = .returned answer) := by
  cases c with
  | single rt =>
    refine ⟨by simp,fun hs hq answer ha => ?_⟩
    have hrt : rt ∈ (t.node u).waits := mem_waits.mpr ⟨_,hc,List.mem_singleton_self rt⟩
    have hut : u ∈ t.members := by rw [hi.members]; exact hu
    exact absurd (hread.2.2 (by simp [ha])) ((hi.live hs).not_pending hq hut hrt)
  | returned r =>
    rcases hread with hr | ⟨⟨e,rfl⟩,hnone⟩
    · exact ⟨fun out ho => by rw [hr,Call.returned.inj ho],fun _ _ answer ha => by simpa [hr] using ha⟩
    · exact ⟨by simp,fun hs _ answer ha => by simp [hnone hs] at ha⟩
  | cancelled => exact ⟨by simp,fun hs => absurd hs hread⟩
  | _ => exact hread.elim

/-- Any number of searches and queries at once, in any order of their events, with events lost,
timers that fire and futures that are dropped: the tables do not change, and whatever a call
returns is the answer it would have had alone. Deliveries and resumed calls lead from every
state to one where nothing is left to do; when nothing was lost or given up on the way, every
call that has an answer has returned it there. -/
theorem parallel_reads_exact (hI : s.Initial I) (hin : s.inflight = [])
    (h : Trace Sys.step (fun s a => s.DrawsFresh a ∧ a.Reads s.members) s as t) :
    t.entry = s.entry ∧
    (∀ u ∈ s.members, ∃ cs, (t.node u).calls = (s.node u).calls ++ cs ∧
      List.Forall₂ (fun ca c =>
        (∀ out, c = .returned (.ok out) → s.readAnswer I u ca = some (.ok out)) ∧
        ((∀ a ∈ as, a.gentle = true) → t.Quiet → ∀ answer, s.readAnswer I u ca = some answer →
          c = .returned answer)) (callsMade u as) cs) ∧
    ∃ bs v, Trace Sys.step (fun s a => a.runs = true ∧ s.DrawsFresh a) t bs v ∧ v.Quiet := by
  have hi : ReadInv s I (∀ a ∈ as, a.gentle = true) as t := readInv_of_trace hI hin h id
  refine ⟨hi.entry,fun u hu => ?_,(readInv_of_trace hI hin h False.elim).completes hI⟩
  obtain ⟨cs,hcalls,hcs⟩ := hi.calls u hu
  refine ⟨cs,hcalls,forall₂_imp_mem hcs fun ca c hmem hread => hi.returned hu ?_ hread⟩
  rw [hcalls]
  exact List.mem_append_right _ hmem

/-- Two searches from both ends of a row pass each other, while a query is lost and times out. -/
theorem parallel_reads_exact_in_row :
    let ids : List Identifier := [.ofByte 1,.ofByte 3,.ofByte 5,.ofByte 7]
    let s := row ids []
    let search : CallAction := .searchById ⟨⟨7⟩,.ofByte 6,.ofByte 1,0,.right⟩
    ∃ t : Sys, t.entry = s.entry ∧
      (t.node (.ofByte 1)).calls = [.returned (.ok (.found ⟨⟨7⟩,.ofByte 6,0,.ofByte 5⟩))] ∧
      s.readAnswer ids.toFinset (.ofByte 1) search =
        some (.ok (.found ⟨⟨7⟩,.ofByte 6,0,.ofByte 5⟩)) := by
  intro ids s search
  let run : List Action := [.call (.ofByte 1) search,
    .call (.ofByte 7) (.searchById ⟨⟨8⟩,.ofByte 2,.ofByte 7,0,.left⟩),
    .call (.ofByte 3) (.getNeighbor (.ofByte 5) .right 0 ⟨9⟩),.deliver 1,.deliver 0,.lose 0,
    .deliver 1,.deliver 0,.deliver 0,.deliver 0,.call (.ofByte 3) (.timeout 0 0),
    .call (.ofByte 7) (.wake 0 0 ⟨0⟩ ⟨0⟩),.call (.ofByte 1) (.wake 0 0 ⟨0⟩ ⟨0⟩)]
  obtain ⟨t,ht,hcheck⟩ := exists_trace_of_runWhile Sys.step
    (fun s a => decide (s.DrawsFresh a ∧ a.Reads s.members)) s run
    (fun t : Sys => decide ((t.node (.ofByte 1)).calls =
      [.returned (.ok (.found ⟨⟨7⟩,.ofByte 6,0,.ofByte 5⟩))])) (by decide +kernel)
  have hcalls := of_decide_eq_true hcheck
  obtain ⟨hentry,hread,-⟩ := parallel_reads_exact (initial_row ids []) rfl
    (ht.mono fun _ _ h => of_decide_eq_true h)
  obtain ⟨cs,hcs,hall⟩ := hread (.ofByte 1) (by decide)
  obtain rfl : cs = _ := hcs.symm.trans hcalls
  have hmade : callsMade (.ofByte 1) run = [search] := by decide +kernel
  rw [hmade] at hall
  cases hall with
  | cons hone _ => exact ⟨t,hentry,hcalls,hone.1 _ rfl⟩

end Sys

end SkipGraph
