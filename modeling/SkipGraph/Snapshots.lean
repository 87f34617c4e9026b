import SkipGraph.InitialNodes
import SkipGraph.ClassNeighbors

/-!
# What an answer is still worth

A node answers a query about its table and goes on; when the answer arrives the table may
have changed. No slot is ever emptied and every slot only moves nearer, so the answer is a
bound on the table from the moment it is given on, through every interleaving.
-/

namespace SkipGraph

open Transition BaseNode

namespace ArrayLookupTable

theorem maxPopulatedLevel_mono {t t' : ArrayLookupTable}
    (h : ∀ l d, (t.entry l d).isSome → (t'.entry l d).isSome) :
    t.maxPopulatedLevel.getD 0 ≤ t'.maxPopulatedLevel.getD 0 := by
  have hdesc : (List.range lookupTableLevels).reverse.Pairwise (· > ·) :=
    List.pairwise_reverse.mpr List.pairwise_lt_range
  cases hm : t.maxPopulatedLevel with
  | none => exact Nat.zero_le _
  | some l =>
    obtain ⟨hl,hpop,-⟩ := (ClassNeighbors.find?_eq_some_iff hdesc).mp hm
    have hpop' : ((t'.entry l .left).isSome || (t'.entry l .right).isSome) = true := by
      rw [Bool.or_eq_true] at hpop ⊢
      exact hpop.imp (h l .left) (h l .right)
    cases hm' : t'.maxPopulatedLevel with
    | none => exact absurd hpop' (List.find?_eq_none.mp hm' l hl)
    | some l' =>
      obtain ⟨-,-,hlast⟩ := (ClassNeighbors.find?_eq_some_iff hdesc).mp hm'
      simp only [Option.getD_some]
      by_contra hlt
      have hnot := hlast l hl (Nat.not_le.mp hlt)
      simp [hpop'] at hnot

end ArrayLookupTable

namespace Sys

variable {s t v : Sys} {a : Action} {u x : Identifier} {rt : RoundTrip} {request : Request}
  {reply : Reply}

/-- The answer bounds the table that was asked about: its levels reach at least as high, and
its slot holds a node at least as near. -/
def Bounds (s : Sys) : Request → Reply → Prop
  | .maxLevel introducer, .maxLevel res => res.maxLevel ≤ (s.node introducer).core.maxLevel
  | .neighbor src d l, .neighbor res => res.direction = d ∧ res.level = l ∧
      ∀ e, res.neighbor = some e → ∃ e', s.entry src l d = some e' ∧ d.le e'.id e.id
  | _, _ => True

theorem maxLevel_step (h : s.step a = some t) (x : Identifier) :
    (s.node x).core.maxLevel ≤ (t.node x).core.maxLevel := by
  refine ArrayLookupTable.maxPopulatedLevel_mono fun l d hl => ?_
  obtain ⟨e,he⟩ := Option.isSome_iff_exists.mp hl
  obtain ⟨e',he',-⟩ := entry_step_some h (show s.entry x l d = some e from he)
  exact Option.isSome_iff_exists.mpr ⟨e',he'⟩

theorem Bounds.step (hb : s.Bounds request reply) (h : s.step a = some t) :
    t.Bounds request reply := by
  cases request with
  | maxLevel introducer =>
    cases reply with
    | maxLevel res => exact le_trans hb (maxLevel_step h introducer)
    | _ => trivial
  | neighbor src d l =>
    cases reply with
    | neighbor res =>
      obtain ⟨hd,hl,hb⟩ := hb
      refine ⟨hd,hl,fun e he => ?_⟩
      obtain ⟨e₁,he₁,hle₁⟩ := hb e he
      obtain ⟨e₂,he₂,hle₂⟩ := entry_step_some h he₁
      exact ⟨e₂,he₂,Direction.le_trans hle₂ hle₁⟩
    | _ => trivial
  | _ => trivial

/-- The event is the query on its way, or an answer that bounds the table. -/
def AskOk (s : Sys) (u : Identifier) (rt : RoundTrip) (p : Packet) : Prop :=
  match rt.request with
  | .maxLevel introducer => p = ⟨introducer,.getMaxLevelOp ⟨rt.nonce,u⟩⟩ ∨
      ∃ res, p = ⟨u,.retMaxLevelOp res⟩ ∧ s.Bounds rt.request (.maxLevel res)
  | .neighbor src d l => p = ⟨src,.getNeighborOp ⟨rt.nonce,u,l,d⟩⟩ ∨
      ∃ res, p = ⟨u,.retNeighborOp res⟩ ∧ s.Bounds rt.request (.neighbor res)
  | _ => True

theorem AskOk.step {p : Packet} (hq : s.AskOk u rt p) (h : s.step a = some t) :
    t.AskOk u rt p := by
  obtain ⟨request,nonce,rx⟩ := rt
  cases request with
  | maxLevel introducer =>
    rcases hq with hq | ⟨res,hp,hb⟩
    · exact .inl hq
    · exact .inr ⟨res,hp,hb.step h⟩
  | neighbor src d l =>
    rcases hq with hq | ⟨res,hp,hb⟩
    · exact .inl hq
    · exact .inr ⟨res,hp,hb.step h⟩
  | _ => trivial

theorem AskOk.react (hs : s.Sided) {i : ℕ} {p q : Packet} (hp : s.AskOk u rt p)
    (hd : Delivered s i p t) (hq : q ∈ (s.handle p).sent) : s.AskOk u rt q := by
  have hr := hs.handle_reacts hd.mem hq
  obtain ⟨request,nonce,rx⟩ := rt
  cases request with
  | maxLevel introducer =>
    rcases hp with rfl | ⟨res,rfl,-⟩
    · cases hr
      exact .inr ⟨_,rfl,le_refl _⟩
    · cases hr
  | neighbor src d l =>
    rcases hp with rfl | ⟨res,rfl,-⟩
    · cases hr
      exact .inr ⟨_,rfl,rfl,rfl,fun e he => ⟨e,he,Direction.le_refl⟩⟩
    · cases hr
  | _ => trivial

theorem askOk_packet (s : Sys) (u : Identifier) (rt : RoundTrip) :
    s.AskOk u rt (rt.packet (s.node u)) := by
  obtain ⟨request,nonce,rx⟩ := rt
  have hid : (s.node u).id = u := s.node_id u
  cases request with
  | maxLevel introducer => exact .inl (by simp [RoundTrip.packet,Request.event,Request.dest,hid])
  | neighbor src d l => exact .inl (by simp [RoundTrip.packet,Request.event,Request.dest,hid])
  | _ => trivial

theorem AskOk.answers {p : Packet} (hq : s.AskOk u rt p) (ha : Answers p u rt reply) :
    s.Bounds rt.request reply := by
  obtain ⟨f,hf,-⟩ := ha.reply_eq
  obtain ⟨request,nonce,rx⟩ := rt
  cases request with
  | maxLevel introducer =>
    rcases hq with rfl | ⟨res,rfl,hb⟩
    · simp [Event.reply?] at hf
    · simp only [Event.reply?,Option.some.injEq,Prod.mk.injEq] at hf
      exact hf.1 ▸ hb
  | neighbor src d l =>
    rcases hq with rfl | ⟨res,rfl,hb⟩
    · simp [Event.reply?] at hf
    · simp only [Event.reply?,Option.some.injEq,Prod.mk.injEq] at hf
      exact hf.1 ▸ hb
  | _ => cases reply <;> trivial

structure AskInv (s : Sys) : Prop where
  sided : s.Sided
  channels : s.ChannelsInv
  packets : ∀ u ∈ s.members, ∀ rt ∈ (s.node u).waits, ∀ p ∈ s.inflight,
    p.event.nonce? = some rt.nonce → s.AskOk u rt p
  replies : ∀ u ∈ s.members, ∀ rt ∈ (s.node u).waits, ∀ reply,
    (s.node u).oneshots[rt.rx]? = some (.sent reply) → s.Bounds rt.request reply

theorem AskInv.step (hi : s.AskInv) (hf : s.DrawsFresh a) (h : s.step a = some t) :
    t.AskInv where
  sided := hi.sided.step h
  channels := hi.channels.step h
  packets := by
    refine pending_packets_step hi.sided hf h hi.packets (fun u rt p hq => hq.step h) ?_ ?_
    · intro u _ rt _ i p q _ hd hp hq
      exact (hp.react hi.sided hd hq).step h
    · intro u ca r ended new n₁ calls _ _ _ rt _
      exact (askOk_packet s u rt).step h
  replies := by
    have hkeep : ∀ u ∈ s.members, ∀ (rt : RoundTrip) reply, s.Bounds rt.request reply →
        t.Bounds rt.request reply := fun _ _ _ _ hb => hb.step h
    refine pending_replies_step hi.channels h hi.replies hkeep ?_
    intro u hu rt hrt i p reply hd ha
    have hp := hi.packets u hu rt hrt p (List.mem_of_getElem? hd.get) ha.nonce_eq
    exact (hp.answers ha).step h

/-- Whatever joins, searches and queries interleave, and whatever is lost or late, the answer
that `get_max_level` or `get_neighbor` finds in its channel is a bound on the table it was
asked about, in that state and in every state after it. -/
theorem answers_stay_bounds (hs : s.Sided) (hr : s.Resting) {as bs : List Action}
    (h : Trace Sys.step (fun s a => s.DrawsFresh a) s as t)
    (h' : Trace Sys.step (fun _ _ => True) t bs v) (hu : u ∈ t.members)
    (hrt : rt ∈ (t.node u).waits) (hrec : (t.node u).received rt = some (.ok reply)) :
    t.Bounds rt.request reply ∧ v.Bounds rt.request reply := by
  have hstart : s.AskInv := ⟨hs,hr.channelsInv,
    fun u hu rt hrt => by simp [hr.waits hu] at hrt,fun u hu rt hrt => by simp [hr.waits hu] at hrt⟩
  have hi : t.AskInv := h.invariant hstart fun _ _ _ hi hf hs => hi.step hf hs
  have hb : t.Bounds rt.request reply := by
    refine hi.replies u hu rt hrt reply ?_
    unfold received at hrec
    split at hrec
    · rename_i reply' ho
      split at hrec
      · obtain rfl : reply' = reply := by simpa using hrec
        exact ho
      · simp at hrec
    · simp at hrec
    · simp at hrec
  exact ⟨hb,h'.invariant (P := fun v => v.Bounds rt.request reply) hb
    fun _ _ _ hb _ hs => hb.step hs⟩

/-- Node 1 answers that node 3 is its neighbour, and then takes node 2 in between. -/
theorem answers_stay_bounds_in_row :
    let request : Request := .neighbor (.ofByte 1) .right 0
    ∃ t v : Sys, ∃ res, res.neighbor = some (rowIdentity (.ofByte 3)) ∧
      t.Bounds request (.neighbor res) ∧ v.Bounds request (.neighbor res) ∧
      (v.entry (.ofByte 1) 0 .right).map Identity.id = some (.ofByte 2) := by
  intro request
  let s : Sys := row [.ofByte 1,.ofByte 3] [.ofByte 2]
  let rt : RoundTrip := ⟨request,⟨7⟩,0⟩
  let res : NeighborRes := ⟨⟨7⟩,0,.right,some (rowIdentity (.ofByte 3))⟩
  obtain ⟨t,ht,hc⟩ := exists_trace_of_runWhile Sys.step (fun s a => decide (s.DrawsFresh a)) s
    [.call (.ofByte 2) (.getNeighbor (.ofByte 1) .right 0 ⟨7⟩),.deliver 0,.deliver 0]
    (fun t : Sys => decide (Identifier.ofByte 2 ∈ t.members ∧ rt ∈ (t.node (.ofByte 2)).waits ∧
      (t.node (.ofByte 2)).received rt = some (.ok (.neighbor res))) &&
      (runWhile Sys.step (fun _ _ => true) t
        [.call (.ofByte 2) (.sendLinkRequest (.ofByte 1) .right 0 ⟨8⟩),.deliver 0]).any fun v : Sys =>
          decide ((v.entry (.ofByte 1) 0 .right).map Identity.id = some (Identifier.ofByte 2)))
    (by decide +kernel)
  rw [Bool.and_eq_true,decide_eq_true_eq] at hc
  obtain ⟨⟨hu,hrt,hrec⟩,hv⟩ := hc
  obtain ⟨v,hv,he⟩ := exists_trace_of_runWhile _ _ _ _ _ hv
  have hs := initial_row [.ofByte 1,.ofByte 3] [.ofByte 2]
  have h := answers_stay_bounds hs.sided hs.resting (ht.mono fun _ _ h => of_decide_eq_true h)
    (hv.mono fun _ _ _ => trivial) hu hrt hrec
  exact ⟨t,v,res,rfl,h.1,h.2,of_decide_eq_true he⟩

end Sys

end SkipGraph
