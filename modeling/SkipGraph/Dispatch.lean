import SkipGraph.MockNetwork
import SkipGraph.Completion
import SkipGraph.Search

/-!
# Synchronous dispatch as a schedule

The mock network runs a handler inside the send that caused it. Since a handler sends at
most one event, as its last action, the nested handlers run in the order in which a
message-passing system would deliver one event after the other. A send over the hub is
therefore one particular run of the system `Sys`, and everything that holds in all runs
holds over the mock network.
-/

namespace SkipGraph

open Transition StrictOrder

namespace NetworkHub

variable {h h' : NetworkHub} {s t : Sys} {p : Packet} {r : Except Error Unit} {fuel k : ℕ}
  {x : Identifier} {n : BaseNode}

/-- The hub's processors are the members of the system. -/
structure Runs (h : NetworkHub) (s : Sys) : Prop where
  registered : ∀ x ∈ s.members,
    h.networks x = some ⟨x,(s.node x).address,some (s.node x)⟩
  other : ∀ x ∉ s.members, h.node x = none

theorem Runs.node (hr : h.Runs s) (hx : x ∈ s.members) : h.node x = some (s.node x) := by
  simp [NetworkHub.node,hr.registered x hx]

theorem Runs.setNode (hr : h.Runs s) (hx : x ∈ s.members) (ha : n.address = (s.node x).address)
    (hm : t.members = s.members) (hn : t.node = Function.update s.node x n) :
    (h.setNode x n).Runs t where
  registered y hy := by
    rw [hm] at hy
    rw [setNode_networks,hn,Function.update_apply]
    split
    · rename_i hyx
      subst hyx
      simp [hr.registered y hy,ha]
    · exact hr.registered y hy
  other y hy := by
    rw [hm] at hy
    have hyx : y ≠ x := fun he => hy (he ▸ hx)
    rw [setNode_node_of_ne hyx]
    exact hr.other y hy

def ofSys (s : Sys) : NetworkHub :=
  ⟨fun x => if x ∈ s.members then some ⟨x,(s.node x).address,some (s.node x)⟩ else none⟩

theorem runs_ofSys (s : Sys) : (ofSys s).Runs s :=
  ⟨fun x hx => by simp [ofSys,hx],fun x hx => by simp [NetworkHub.node,ofSys,hx]⟩

theorem Runs.congr (hr : h.Runs s) (hm : t.members = s.members) (hn : t.node = s.node) :
    h.Runs t := by
  refine ⟨fun x hx => ?_,fun x hx => hr.other x (hm ▸ hx)⟩
  rw [hn]
  exact hr.registered x (hm ▸ hx)

theorem Runs.deliver (hr : h.Runs s) (hin : s.inflight = [p]) (hp : p.dest ∈ s.members) :
    ∃ t, s.step (.deliver 0) = some t ∧ (h.setNode p.dest (s.handle p).node).Runs t ∧
      t.inflight = (s.handle p).sent := by
  obtain ⟨t,ht,hd⟩ := Sys.exists_deliver (show s.inflight[0]? = some p by simp [hin]) hp
  have ha : (s.handle p).node.address = (s.node p.dest).address :=
    congrArg Identity.address (BaseNode.process_selfIdentity _ _ _)
  exact ⟨t,ht,hr.setNode hp ha hd.members hd.node,by simp [hd.inflight,hin]⟩

/-- What the hub says about a target that no node is registered for. -/
def refusal (h : NetworkHub) (target : Identifier) : String :=
  match h.networks target with
  | none => s!"network with identifier {target} not found"
  | some _ => "hub failed to process routing event: no event processor registered"

/-- One level of nesting: the target is no member and nothing happens, or its handler is
the next delivery and the rest follows from there. -/
theorem Runs.send_cases (hr : h.Runs s) (hin : s.inflight = [p]) (fuel : ℕ) :
    (p.dest ∉ s.members ∧
      sendEvent (fuel+1) h p.dest p.event = some (h,unrouted (h.refusal p.dest))) ∨
    (p.dest ∈ s.members ∧ ∃ t, s.step (.deliver 0) = some t ∧
      (h.setNode p.dest (s.handle p).node).Runs t ∧ t.inflight = (s.handle p).sent ∧
      ((t.inflight = [] ∧ sendEvent (fuel+1) h p.dest p.event =
        some (h.setNode p.dest (s.handle p).node,routed (s.handle p).result)) ∨
      ∃ q, t.inflight = [q] ∧ (s.handle p).result = .ok () ∧
        sendEvent (fuel+1) h p.dest p.event =
          (sendEvent fuel (h.setNode p.dest (s.handle p).node) q.dest q.event).map
            fun r => (r.1,routed r.2))) := by
  by_cases hp : p.dest ∈ s.members
  · right
    obtain ⟨t,ht,hrt,htin⟩ := hr.deliver hin hp
    refine ⟨hp,t,ht,hrt,htin,?_⟩
    rw [htin]
    have hnet := hr.registered p.dest hp
    rcases sendEvent_cases fuel h p.dest p.event with ⟨hn,-⟩ | ⟨m,hm,hn,-⟩ | ⟨m,n,hm,hn,hc⟩
    · simp [hn] at hnet
    · simp [hm] at hnet
      simp [hnet] at hn
    · obtain rfl := Option.some.inj (hm.symm.trans hnet)
      obtain rfl := Option.some.inj hn
      exact hc
  · left
    refine ⟨hp,?_⟩
    have hnode := hr.other p.dest hp
    rcases sendEvent_cases fuel h p.dest p.event with ⟨hm,he⟩ | ⟨m,hm,-,he⟩ | ⟨m,n,hm,hn,-⟩
    · simpa [refusal,hm] using he
    · simpa [refusal,hm] using he
    · simp [NetworkHub.node,hm,hn] at hnode

def chain (k : ℕ) : List Action := List.replicate k (.deliver 0)

/-- The result of a send tells whether every nested handler has succeeded and the last of
them has left nothing to send. -/
structure Dispatched (s : Sys) (h' : NetworkHub) (r : Except Error Unit) (k : ℕ) (t : Sys) :
    Prop where
  trace : Trace Sys.step (fun _ _ => True) s (chain k) t
  runs : h'.Runs t
  stopped : t.inflight = [] ∨ ∃ q, t.inflight = [q] ∧ q.dest ∉ t.members
  ok_iff : r = .ok () ↔ t.inflight = [] ∧ Trace Sys.step Sys.NoError s (chain k) t

theorem noError_iff (hin : s.inflight = [p]) :
    Sys.NoError s (.deliver 0) ↔ (s.handle p).result = .ok () := by
  simp [Sys.NoError,hin]

theorem trace_cons {ok : Sys → Action → Prop} {u : Sys} (ht : s.step (.deliver 0) = some t) :
    Trace Sys.step ok s (chain (k+1)) u ↔
      ok s (.deliver 0) ∧ Trace Sys.step ok t (chain k) u := by
  constructor
  · intro h
    cases h with
    | cons hs ho h =>
      obtain rfl := Option.some.inj (hs.symm.trans ht)
      exact ⟨ho,h⟩
  · exact fun h => .cons ht h.1 h.2

theorem trace_nil {ok : Sys → Action → Prop} : Trace Sys.step ok s (chain 0) t ↔ s = t := by
  constructor
  · intro h
    cases h
    rfl
  · rintro rfl
    exact .nil s

/-- A send that returns is a run of deliveries. -/
theorem Runs.dispatched (hr : h.Runs s) (hin : s.inflight = [p])
    (hs : sendEvent fuel h p.dest p.event = some (h',r)) :
    ∃ k t, k ≤ fuel ∧ Dispatched s h' r k t := by
  induction fuel generalizing h s p r with
  | zero => simp [sendEvent] at hs
  | succ fuel ih =>
    rcases hr.send_cases hin fuel with ⟨hp,he⟩ | ⟨hp,t,ht,hrt,htin,hc⟩
    · obtain ⟨rfl,rfl⟩ := Prod.mk.inj (Option.some.inj (he.symm.trans hs))
      refine ⟨0,s,Nat.zero_le _,.nil s,hr,.inr ⟨p,hin,hp⟩,?_⟩
      simp [hin]
    · rcases hc with ⟨hnil,he⟩ | ⟨q,hq,hres,he⟩
      · obtain ⟨rfl,rfl⟩ := Prod.mk.inj (Option.some.inj (he.symm.trans hs))
        refine ⟨1,t,by omega,(trace_cons ht).mpr ⟨trivial,.nil t⟩,hrt,.inl hnil,?_⟩
        rw [trace_cons ht,trace_nil,noError_iff hin]
        simp [hnil]
      · obtain ⟨⟨h'',r'⟩,hs',he'⟩ := Option.map_eq_some_iff.mp (he.symm.trans hs)
        obtain ⟨rfl,rfl⟩ := Prod.mk.inj he'
        obtain ⟨k,u,hk,hd⟩ := ih hrt hq hs'
        refine ⟨k+1,u,by omega,(trace_cons ht).mpr ⟨trivial,hd.trace⟩,hd.runs,hd.stopped,?_⟩
        rw [trace_cons ht,noError_iff hin,routed_eq_ok,hd.ok_iff]
        simp [hres]

theorem Runs.send_of_trace (hr : h.Runs s) (hin : s.inflight = [p])
    (ht : Trace Sys.step Sys.NoError s (chain k) t) (hend : t.inflight = []) (hk : k ≤ fuel) :
    ∃ h', sendEvent fuel h p.dest p.event = some (h',.ok ()) ∧ h'.Runs t := by
  induction k generalizing h s p fuel with
  | zero =>
    obtain rfl := trace_nil.mp ht
    simp [hin] at hend
  | succ k ih =>
    obtain ⟨fuel,rfl⟩ : ∃ f, fuel = f+1 := ⟨fuel-1,by omega⟩
    rcases hr.send_cases hin fuel with ⟨hp,-⟩ | ⟨hp,u,hu,hru,huin,hc⟩
    · cases ht with
      | cons hs _ _ => simp [Sys.step,hin,hp] at hs
    · obtain ⟨hok,htr⟩ := (trace_cons hu).mp ht
      rw [noError_iff hin] at hok
      rcases hc with ⟨hnil,he⟩ | ⟨q,hq,-,he⟩
      · cases k with
        | zero =>
          obtain rfl := trace_nil.mp htr
          exact ⟨_,by rw [he,hok]; rfl,hru⟩
        | succ k =>
          cases htr with
          | cons hs _ _ => simp [Sys.step,hnil] at hs
      · obtain ⟨h',hs',hrun⟩ := ih hru hq htr (show k ≤ fuel by omega)
        exact ⟨h',by rw [he,hs']; rfl,hrun⟩

/-- An event sent in reaction to another can cause fewer deliveries. -/
theorem weight_lt (hs : s.Sided) (hp : p.dest ∈ s.members) {q : Packet}
    (hq : q ∈ (s.handle p).sent) :
    2 ≤ p.weight s.members ∧ (q.dest ∈ s.members → q.weight s.members < p.weight s.members) := by
  have hr := hs.handle_reacts hp hq
  obtain ⟨x,ev⟩ := p
  cases hr with
  | relay req l e hl hle he ht hbest =>
    refine ⟨by simp [Packet.weight],fun (hm : e.id ∈ s.members) => ?_⟩
    have hlt := card_past_lt hm (hs x hp l req.direction e he)
    simp only [Packet.weight]
    omega
  | forward req e hb he hlt =>
    refine ⟨by simp [Packet.weight],fun (hm : e.id ∈ s.members) => ?_⟩
    have hlt := card_past_lt hm (hs x hp req.level req.dir e he)
    simp only [Packet.weight]
    omega
  | answer => exact ⟨by simp [Packet.weight],fun _ => by simp only [Packet.weight]; omega⟩
  | maxLevel => exact ⟨by simp [Packet.weight],fun _ => by simp [Packet.weight]⟩
  | neighbor => exact ⟨by simp [Packet.weight],fun _ => by simp [Packet.weight]⟩
  | accept => exact ⟨by simp [Packet.weight],fun _ => by simp only [Packet.weight]; omega⟩

theorem weight_le (M : Finset Identifier) (hp : p.dest ∈ M) : p.weight M ≤ M.card + 1 := by
  have hlt : ∀ d : Direction, (past d.lt M p.dest).card < M.card := fun d => card_past_lt_card hp
  have hpos : 0 < M.card := Finset.card_pos.mpr ⟨_,hp⟩
  unfold Packet.weight
  split
  · rename_i req _
    have := hlt req.direction
    omega
  · rename_i req _
    have := hlt req.dir
    omega
  all_goals omega

theorem Runs.returns (hr : h.Runs s) (hs : s.Sided) (hin : s.inflight = [p]) :
    ∃ res, sendEvent (p.weight s.members) h p.dest p.event = some res := by
  induction hw : p.weight s.members using Nat.strong_induction_on generalizing h s p with
  | _ w ih =>
  have hpos := p.weight_pos s.members
  obtain ⟨fuel,rfl⟩ : ∃ f, w = f+1 := ⟨w-1,by omega⟩
  rcases hr.send_cases hin fuel with ⟨-,he⟩ | ⟨hp,t,ht,hrt,htin,hc⟩
  · exact ⟨_,he⟩
  · rcases hc with ⟨-,he⟩ | ⟨q,hq,-,he⟩
    · exact ⟨_,he⟩
    · have hm := Sys.members_step ht
      obtain ⟨h2,hlt⟩ := weight_lt hs hp (q := q) (by simp [← htin,hq])
      rw [he]
      suffices hres : ∃ res, sendEvent fuel (h.setNode p.dest (s.handle p).node) q.dest q.event =
          some res by
        obtain ⟨res,hres⟩ := hres
        exact ⟨_,by rw [hres]; rfl⟩
      by_cases hqm : q.dest ∈ s.members
      · have hlt := hlt hqm
        obtain ⟨res,hres⟩ := ih (q.weight t.members) (by rw [hm]; omega) hrt (hs.step ht) hq rfl
        exact ⟨res,sendEvent_mono (by rw [hm]; omega) hres⟩
      · obtain ⟨fuel,rfl⟩ : ∃ f, fuel = f+1 := ⟨fuel-1,by omega⟩
        rcases hrt.send_cases hq fuel with ⟨-,he⟩ | ⟨hqm',-⟩
        · exact ⟨_,he⟩
        · exact absurd (hm ▸ hqm') hqm

/-- The text that reaches a sender says nothing about what went wrong further on. -/
theorem Runs.send_text (hr : h.Runs s) (hin : s.inflight = [p]) (hp : p.dest ∈ s.members)
    (hs : sendEvent fuel h p.dest p.event = some (h',r)) :
    r = .ok () ∨ r = .error (.transport ("failed to route event: " ++
      "hub failed to process routing event: failed to process incoming event")) := by
  cases fuel with
  | zero => simp [sendEvent] at hs
  | succ fuel =>
    rcases hr.send_cases hin fuel with ⟨hn,-⟩ | ⟨-,t,-,-,-,⟨-,he⟩ | ⟨q,-,-,he⟩⟩
    · exact absurd hp hn
    · obtain ⟨-,rfl⟩ := Prod.mk.inj (Option.some.inj (he.symm.trans hs))
      exact routed_cases _
    · obtain ⟨r',-,he'⟩ := Option.map_eq_some_iff.mp (he.symm.trans hs)
      obtain ⟨-,rfl⟩ := Prod.mk.inj he'
      exact routed_cases _

theorem Runs.send_refused (hr : h.Runs s) (hin : s.inflight = [p]) (hp : p.dest ∉ s.members)
    (hs : sendEvent fuel h p.dest p.event = some (h',r)) :
    h' = h ∧ r = unrouted (h.refusal p.dest) := by
  cases fuel with
  | zero => simp [sendEvent] at hs
  | succ fuel =>
    rcases hr.send_cases hin fuel with ⟨-,he⟩ | ⟨hp',-⟩
    · obtain ⟨rfl,rfl⟩ := Prod.mk.inj (Option.some.inj (he.symm.trans hs))
      exact ⟨rfl,rfl⟩
    · exact absurd hp' hp

/-- A send over the mock network returns, whatever the tables hold on their proper sides: it
nests no deeper than there are members, plus one. It is a run of deliveries one after the
other, and it succeeds exactly when none of them fails and the last leaves nothing to send.
Otherwise its error has one text for every member, and for other targets the hub's refusal. -/
theorem synchronous_send_is_a_run (hr : h.Runs s) (hs : s.Sided) (hin : s.inflight = [p]) :
    ∃ h' r k t, (∀ fuel ≥ s.members.card + 1, sendEvent fuel h p.dest p.event = some (h',r)) ∧
      k ≤ s.members.card + 1 ∧ Trace Sys.step (fun _ _ => True) s (List.replicate k (.deliver 0)) t ∧
      h'.Runs t ∧ (t.inflight = [] ∨ ∃ q, t.inflight = [q] ∧ q.dest ∉ t.members) ∧
      (r = .ok () ↔ t.inflight = [] ∧
        Trace Sys.step Sys.NoError s (List.replicate k (.deliver 0)) t) ∧
      (p.dest ∈ s.members → r = .ok () ∨ r = .error (.transport ("failed to route event: " ++
        "hub failed to process routing event: failed to process incoming event"))) ∧
      (p.dest ∉ s.members → h' = h ∧ r = unrouted (h.refusal p.dest)) := by
  obtain ⟨⟨h',r⟩,hres⟩ : ∃ res, sendEvent (s.members.card + 1) h p.dest p.event = some res := by
    by_cases hp : p.dest ∈ s.members
    · obtain ⟨res,hres⟩ := hr.returns hs hin
      exact ⟨res,sendEvent_mono (weight_le s.members hp) hres⟩
    · rcases hr.send_cases hin s.members.card with ⟨-,he⟩ | ⟨hp',-⟩
      · exact ⟨_,he⟩
      · exact absurd hp' hp
  obtain ⟨k,t,hk,hd⟩ := hr.dispatched hin hres
  exact ⟨h',r,k,t,fun fuel hf => sendEvent_mono hf hres,hk,hd.trace,hd.runs,hd.stopped,hd.ok_iff,
    fun hp => hr.send_text hin hp hres,fun hp => hr.send_refused hin hp hres⟩

/-- In a row of four nodes a search from node 1 is relayed to node 5, which answers node 7. -/
theorem synchronous_send_in_row :
    let s := { Sys.row [.ofByte 1,.ofByte 3,.ofByte 5,.ofByte 7] [] with
      inflight := [⟨.ofByte 1,.searchByIdRequest ⟨⟨9⟩,.ofByte 6,.ofByte 7,2,.right⟩⟩] }
    ∃ h' r, sendEvent 5 (ofSys s) (.ofByte 1)
      (.searchByIdRequest ⟨⟨9⟩,.ofByte 6,.ofByte 7,2,.right⟩) = some (h',r) := by
  intro s
  have hs : s.Sided := fun x hx l d e he =>
    (Sys.honest_row [.ofByte 1,.ofByte 3,.ofByte 5,.ofByte 7] []).sided x hx l d e he
  obtain ⟨h',r,-,-,h,-⟩ := synchronous_send_is_a_run (runs_ofSys s) hs rfl
  exact ⟨h',r,h 5 (by decide)⟩

end NetworkHub

end SkipGraph
