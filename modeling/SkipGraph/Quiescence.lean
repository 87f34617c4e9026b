import SkipGraph.Dispatch

/-!
# The cost of a run

Whatever is in flight and whoever forged it, an event among nodes with ordered tables can
cause only so many others, and so can a call. The `load` of a system bounds what it can
still do by itself, so a run is at most linear in the calls that are made in it.
-/

namespace SkipGraph

open Transition StrictOrder BaseNode

/-- The segments in which a node makes a new call. -/
def CallAction.starts : CallAction → Bool
  | wake _ _ _ _ => false
  | timeout _ _ => false
  | cancel _ => false
  | _ => true

def Action.starts : Action → Bool
  | call _ a => a.starts
  | _ => false

/-- A bound on the deliveries and losses that an event can cause among the nodes `M`. -/
def Packet.cost (M : Finset Identifier) (p : Packet) : ℕ := if p.dest ∈ M then p.weight M else 1

theorem Packet.cost_pos (M : Finset Identifier) (p : Packet) : 0 < p.cost M := by
  unfold cost
  split
  · exact p.weight_pos M
  · exact Nat.one_pos

theorem Packet.cost_le_weight (M : Finset Identifier) (p : Packet) : p.cost M ≤ p.weight M := by
  unfold cost
  split
  · exact le_refl _
  · exact p.weight_pos M

theorem Packet.cost_le (M : Finset Identifier) (p : Packet) : p.cost M ≤ M.card + 1 := by
  unfold cost
  split
  · rename_i hp
    exact NetworkHub.weight_le M hp
  · omega

theorem Call.rank_le (N : ℕ) (c : Call) : c.rank N ≤ 10 + 2 * N := by
  have hwaits : ∀ f : LinkFuture, f.waits.length ≤ 1 := fun f => by
    cases f <;> simp [LinkFuture.waits]
  cases c with
  | joinLink d a q sl ql =>
    have hs := hwaits sl
    cases ql with
    | none =>
      simp only [rank,waits,Option.map_none,Option.getD_none,List.append_nil]
      omega
    | some f =>
      have hf := hwaits f
      simp only [rank,waits,Option.map_some,Option.getD_some,List.length_append]
      omega
  | joinNeighbor d a rt =>
    simp only [rank]
    omega
  | joinSearch d rt => exact le_refl _
  | single rt =>
    simp only [rank,waits,List.length_singleton]
    omega
  | returned r => exact Nat.zero_le _
  | cancelled => exact Nat.zero_le _

theorem Call.rank_pos {N : ℕ} {c : Call} (h : c.waits ≠ []) : 0 < c.rank N := by
  cases c with
  | joinSearch d rt =>
    simp only [rank]
    omega
  | joinNeighbor d a rt =>
    simp only [rank]
    omega
  | _ => exact List.length_pos_iff.mpr h

theorem Call.sum_rank_le (N : ℕ) (cs : List Call) : (cs.map (rank N)).sum ≤
    (10+2*N) * (cs.filter fun c => decide (c.waits ≠ [])).length := by
  induction cs with
  | nil => simp
  | cons c cs ih =>
    have hc := c.rank_le N
    by_cases hw : c.waits = []
    · have hzero : c.rank N = 0 := by cases c <;> simp_all [rank,waits]
      simpa [hw,hzero] using ih
    · rw [List.map_cons,List.sum_cons,List.filter_cons_of_pos (by simpa using hw),
        List.length_cons,Nat.mul_add,Nat.mul_one]
      omega

theorem sum_set {α : Type*} (f : α → ℕ) {xs : List α} {k : ℕ} {x : α} (y : α)
    (hk : xs[k]? = some x) : ((xs.set k y).map f).sum + f x = (xs.map f).sum + f y := by
  induction xs generalizing k with
  | nil => simp at hk
  | cons z xs ih =>
    cases k with
    | zero =>
      obtain rfl : z = x := by simpa using hk
      simp only [List.set_cons_zero,List.map_cons,List.sum_cons]
      omega
    | succ k =>
      have hh := ih (by simpa using hk)
      simp only [List.set_cons_succ,List.map_cons,List.sum_cons]
      omega

namespace Sys

variable {s t : Sys} {a : Action} {u x : Identifier}

/-- What the system can still do without a new call. -/
def load (s : Sys) : ℕ :=
  ∑ x ∈ s.members, s.callRank x + (s.inflight.map (Packet.cost s.members)).sum

def pending (s : Sys) : ℕ :=
  ∑ x ∈ s.members, ((s.node x).calls.filter fun c => decide (c.waits ≠ [])).length

theorem load_deliver (hs : s.Sided) {i : ℕ} {p : Packet} (hd : Delivered s i p t) :
    t.load < s.load := by
  have hcalls : ∀ x, t.callRank x = s.callRank x := by
    intro x
    rw [callRank,callRank,hd.calls,hd.members]
  have hsum := sum_eraseIdx (Packet.cost s.members) hd.get
  have hpos := p.cost_pos s.members
  simp only [load,hcalls,hd.members,hd.inflight,List.map_append,List.sum_append]
  rcases hs.handle_cases hd.mem with ⟨hnil,-⟩ | ⟨q,hq,-⟩
  · simp only [hnil,List.map_nil,List.sum_nil]
    omega
  · obtain ⟨h2,hlt⟩ := NetworkHub.weight_lt hs hd.mem (q := q) (hq ▸ List.mem_singleton_self q)
    have hqp : q.cost s.members < p.cost s.members := by
      simp only [Packet.cost,hd.mem,if_true]
      split
      · rename_i hqm
        exact hlt hqm
      · omega
    simp only [hq,List.map_cons,List.map_nil,List.sum_cons,List.sum_nil]
    omega

theorem load_lose {i : ℕ} (hl : Lost s i t) : t.load < s.load := by
  have hcalls : ∀ x, t.callRank x = s.callRank x := by
    intro x
    rw [callRank,callRank,hl.node,hl.members]
  obtain ⟨p,hp⟩ : ∃ p, s.inflight[i]? = some p := ⟨_,List.getElem?_eq_getElem hl.lt⟩
  have hsum := sum_eraseIdx (Packet.cost s.members) hp
  have hpos := p.cost_pos s.members
  simp only [load,hcalls,hl.members,hl.inflight]
  omega

theorem load_called {ca : CallAction} {r : BaseNode × List Packet} (hc : Called s u ca r t) :
    t.load + s.callRank u = s.load + t.callRank u + (r.2.map (Packet.cost s.members)).sum := by
  have hother : ∑ x ∈ s.members.erase u, t.callRank x = ∑ x ∈ s.members.erase u, s.callRank x := by
    refine Finset.sum_congr rfl fun x hx => ?_
    rw [callRank,callRank,hc.node,Function.update_of_ne (Finset.ne_of_mem_erase hx),hc.members]
  have hs := Finset.add_sum_erase s.members s.callRank hc.mem
  have ht := Finset.add_sum_erase s.members t.callRank hc.mem
  simp only [load,hc.members,hc.inflight,List.map_append,List.sum_append]
  omega

theorem sum_cost_le (M : Finset Identifier) (ps : List Packet) :
    (ps.map (Packet.cost M)).sum ≤ (ps.map (Packet.weight M)).sum :=
  List.sum_le_sum fun p _ => p.cost_le_weight M

/-- What one segment adds to the load of its caller and to the events in flight. -/
theorem load_segment {ca : CallAction} {r : BaseNode × List Packet} (hc : Called s u ca r t) :
    if ca.starts then t.callRank u + (r.2.map (Packet.cost s.members)).sum ≤
      s.callRank u + (11 + 3 * s.members.card)
    else t.callRank u + (r.2.map (Packet.cost s.members)).sum < s.callRank u := by
  obtain ⟨ended,new,n₁,calls,hseg⟩ := callStep_segment hc.step
  have hcalls : (t.node u).calls = calls := by
    rw [hc.node,Function.update_self,hseg.node]
  have hchange := hseg.change
  simp only [callRank,hcalls,hc.members,hseg.sent]
  have hset : ∀ (k : ℕ) (c c' : Call), (s.node u).calls[k]? = some c →
      c'.rank s.members.card + ((new.map (RoundTrip.packet (s.node u))).map
        (Packet.weight s.members)).sum < c.rank s.members.card → calls = (s.node u).calls.set k c' →
      (calls.map (Call.rank s.members.card)).sum +
        ((new.map (RoundTrip.packet (s.node u))).map (Packet.cost s.members)).sum <
      ((s.node u).calls.map (Call.rank s.members.card)).sum := by
    rintro k c c' hk hlt rfl
    have hsum := sum_set (Call.rank s.members.card) c' hk
    have hcost := sum_cost_le s.members (new.map (RoundTrip.packet (s.node u)))
    omega
  have hbegin : ∀ (c : Call) (rts : List RoundTrip), c.rank s.members.card ≤ 10+2*s.members.card →
      rts.length ≤ 1 →
      (((s.node u).calls++[c]).map (Call.rank s.members.card)).sum +
        ((rts.map (RoundTrip.packet (s.node u))).map (Packet.cost s.members)).sum ≤
      ((s.node u).calls.map (Call.rank s.members.card)).sum + (11+3*s.members.card) := by
    intro c rts hrank hlen
    have hcost : ((rts.map (RoundTrip.packet (s.node u))).map (Packet.cost s.members)).sum ≤
        s.members.card+1 := by
      cases rts with
      | nil => simp
      | cons rt rts =>
        obtain rfl : rts = [] := by simpa using hlen
        simpa using Packet.cost_le s.members (rt.packet (s.node u))
    simp only [List.map_append,List.map_cons,List.map_nil,List.sum_append,List.sum_cons,List.sum_nil]
    omega
  cases hchange with
  | answer a r ha hr =>
    cases ca <;> simp [CallAction.plain] at ha <;>
      exact hbegin _ [] (Call.rank_le _ _) (by simp)
  | single a rt ha =>
    cases ca <;> simp [CallAction.plain] at ha <;>
      exact hbegin _ [rt] (Call.rank_le _ _) (by simp)
  | refuse level nonce => exact hbegin _ [] (Call.rank_le _ _) (by simp)
  | join introducer level nonce d rx hd => exact hbegin _ [_] (Call.rank_le _ _) (by simp)
  | wake k i nonce₁ nonce₂ call rt result new call' hk hi hr h =>
    exact hset k call call' hk (h.rank_lt (List.mem_of_getElem? hi)) rfl
  | timeout k i call rt call' hk hi h =>
    exact hset k call call' hk (h.rank_lt (List.mem_of_getElem? hi)) rfl
  | cancel k call hk hw =>
    exact hset k call .cancelled hk (by simpa [Call.rank,Call.waits] using Call.rank_pos hw) rfl

theorem load_step (hs : s.Sided) (h : s.step a = some t) :
    t.load + 1 ≤ s.load + if a.starts then 12 + 3 * s.members.card else 0 := by
  rcases step_cases h with ⟨i,p,rfl,hd⟩ | ⟨i,rfl,hl⟩ | ⟨u,ca,r,rfl,hc⟩
  · simpa [Action.starts] using load_deliver hs hd
  · simpa [Action.starts] using load_lose hl
  · have hsum := load_called hc
    have hseg := load_segment hc
    simp only [Action.starts]
    split at hseg
    · rename_i hst
      simp only [hst,if_true]
      omega
    · rename_i hst
      simp only [hst]
      omega

theorem load_le (s : Sys) : s.load ≤
    (10 + 2 * s.members.card) * s.pending + (s.members.card + 1) * s.inflight.length := by
  have hcalls : ∑ x ∈ s.members, s.callRank x ≤ (10 + 2 * s.members.card) * s.pending := by
    rw [pending,Finset.mul_sum]
    exact Finset.sum_le_sum fun x _ => Call.sum_rank_le _ _
  have hevents : (s.inflight.map (Packet.cost s.members)).sum ≤
      (s.members.card + 1) * s.inflight.length := by
    have hle := List.sum_le_card_nsmul (s.inflight.map (Packet.cost s.members))
      (s.members.card + 1) (by
        intro c hc
        obtain ⟨p,-,rfl⟩ := List.mem_map.mp hc
        exact p.cost_le s.members)
    simpa [Nat.mul_comm] using hle
  unfold load
  omega

/-- In every run among nodes with ordered tables, whatever events are in flight in the
beginning, the number of steps is at most linear in the calls pending, the events in flight and
the calls started in the run, with factors linear in the number of nodes. So a system in which
no new call is made comes to rest. -/
theorem run_linear_in_calls (hs : s.Sided) {as : List Action}
    (h : Trace Sys.step (fun _ _ => True) s as t) :
    as.length ≤ (10 + 2 * s.members.card) * s.pending +
      (s.members.card + 1) * s.inflight.length +
      (12 + 3 * s.members.card) * as.countP Action.starts := by
  have hload : as.length + t.load ≤
      s.load + (12 + 3 * s.members.card) * as.countP Action.starts := by
    induction h with
    | nil => simp
    | cons hstep _ _ ih =>
      have hone := load_step hs hstep
      have hrest := ih (hs.step hstep)
      rw [members_step hstep] at hrest
      simp only [List.length_cons,List.countP_cons]
      split at hone
      · rename_i hst
        simp only [hst,if_true,Nat.mul_add,Nat.mul_one]
        omega
      · rename_i hst
        simp only [hst,Bool.false_eq_true,if_false,Nat.add_zero]
        omega
  have hle := s.load_le
  omega

/-- Two nodes in a row; a search from the first is sent and answered. -/
theorem run_linear_in_row :
    let s := row [.ofByte 1,.ofByte 2] []
    let run : List Action :=
      [.call (.ofByte 1) (.searchById ⟨⟨7⟩,.ofByte 2,.ofByte 1,0,.right⟩),.deliver 0,.deliver 0]
    ∃ t, Trace Sys.step (fun _ _ => True) s run t ∧
      run.length ≤ (10 + 2 * s.members.card) * s.pending +
        (s.members.card + 1) * s.inflight.length +
        (12 + 3 * s.members.card) * run.countP Action.starts := by
  intro s run
  obtain ⟨t,ht,-⟩ := exists_trace_of_runWhile Sys.step (fun _ _ => true) s run (fun _ => true)
    (by decide +kernel)
  have ht' := ht.mono fun _ _ _ => trivial
  exact ⟨t,ht',run_linear_in_calls (graph_row [.ofByte 1,.ofByte 2]).sided ht'⟩

end Sys

end SkipGraph
