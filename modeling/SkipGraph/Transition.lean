import Mathlib.Logic.Basic
import Mathlib.Data.List.Basic

/-!
# Runs of a partial step function

A system is a partial step function: an action is either refused in a state or
leads to exactly one next state. A trace is a run of enabled actions, each of
which meets a side condition on the state it is taken in; the side condition is
what separates one class of schedules from another.
-/

namespace Transition

variable {σ τ α ι ω : Type*} {step : σ → α → Option σ} {ok ok' : σ → α → Prop}

/-- `Trace step ok s as t` takes the actions `as` one by one from `s` to `t`. -/
inductive Trace (step : σ → α → Option σ) (ok : σ → α → Prop) : σ → List α → σ → Prop
  | nil (s) : Trace step ok s [] s
  | cons {s t u a as} : step s a = some t → ok s a → Trace step ok t as u →
      Trace step ok s (a::as) u

namespace Trace

theorem append {s t u : σ} {as bs : List α} (h : Trace step ok s as t)
    (h' : Trace step ok t bs u) : Trace step ok s (as++bs) u := by
  induction h with
  | nil => simpa using h'
  | cons hs ho _ ih => exact cons hs ho (ih h')

theorem append_inv {s u : σ} {as bs : List α} (h : Trace step ok s (as++bs) u) :
    ∃ t, Trace step ok s as t ∧ Trace step ok t bs u := by
  induction as generalizing s with
  | nil => exact ⟨s,nil s,h⟩
  | cons a as ih =>
    cases h with
    | cons hs ho h =>
      obtain ⟨t,ht,hu⟩ := ih h
      exact ⟨t,cons hs ho ht,hu⟩

theorem mono {s t : σ} {as : List α} (h : Trace step ok s as t)
    (hok : ∀ s a, ok s a → ok' s a) : Trace step ok' s as t := by
  induction h with
  | nil => exact nil _
  | cons hs ho _ ih => exact cons hs (hok _ _ ho) ih

theorem restrict {P : α → Prop} {s t : σ} {as : List α} (h : Trace step ok s as t)
    (hP : ∀ a ∈ as, P a) : Trace step (fun s a => ok s a ∧ P a) s as t := by
  induction h with
  | nil => exact nil _
  | cons hs ho _ ih => exact cons hs ⟨ho,hP _ (by simp)⟩ (ih fun a ha => hP a (by simp [ha]))

/-- What holds at the start and is kept by every admissible step holds at the end. -/
theorem invariant {P : σ → Prop} {s t : σ} {as : List α} (h : Trace step ok s as t)
    (hs : P s) (hstep : ∀ s a t, P s → ok s a → step s a = some t → P t) : P t := by
  induction h with
  | nil => exact hs
  | cons ha ho _ ih => exact ih (hstep _ _ _ hs ho ha)

theorem snoc {s t u : σ} {a : α} {as : List α} (h : Trace step ok s as t)
    (hs : step t a = some u) (ho : ok t a) : Trace step ok s (as++[a]) u :=
  h.append (cons hs ho (nil _))

/-- What holds of the empty history and is kept as the history grows holds of every run. -/
theorem history {P : List α → σ → Prop} {s t : σ} {as : List α} (h : Trace step ok s as t)
    (hs : P [] s) (hstep : ∀ as s a t, P as s → ok s a → step s a = some t → P (as++[a]) t) :
    P as t := by
  have hgen : ∀ {s t as}, Trace step ok s as t → ∀ past, P past s → P (past++as) t := by
    intro s t as h
    induction h with
    | nil => simp
    | cons ha ho _ ih =>
      intro past hp
      simpa using ih _ (hstep past _ _ _ hp ho ha)
  exact hgen h [] hs

/-- What no step can undo and does not hold at the end holds nowhere along the run. -/
theorem avoids {P Q : σ → Prop} {s t : σ} {as : List α} (h : Trace step ok s as t) (hs : Q s)
    (hQ : ∀ s a t, Q s → ok s a → step s a = some t → Q t)
    (hP : ∀ s a t, Q s → ok s a → step s a = some t → P s → P t) (ht : ¬ P t) :
    ¬ P s ∧ Trace step (fun s a => ok s a ∧ ∀ t, step s a = some t → ¬ P t) s as t := by
  induction h with
  | nil => exact ⟨ht,nil _⟩
  | cons ha ho _ ih =>
    obtain ⟨hn,htr⟩ := ih (hQ _ _ _ hs ho ha) ht
    refine ⟨fun hp => hn (hP _ _ _ hs ho ha hp),cons ha ⟨ho,fun t ht => ?_⟩ htr⟩
    obtain rfl := Option.some.inj (ha.symm.trans ht)
    exact hn

theorem length_le {P : σ → Prop} {μ : σ → ℕ} {s t : σ} {as : List α}
    (h : Trace step ok s as t) (hs : P s)
    (hstep : ∀ s a t, P s → ok s a → step s a = some t → P t ∧ μ t < μ s) :
    as.length + μ t ≤ μ s := by
  induction h with
  | nil => simp
  | cons ha ho _ ih =>
    obtain ⟨hp,hm⟩ := hstep _ _ _ hs ho ha
    have hh := ih hp
    simp only [List.length_cons]
    omega

end Trace

/-- If every admissible step decreases a measure, and one is possible wherever `Q` does not
hold, then a run leads to `Q`. -/
theorem exists_trace_to {P Q : σ → Prop} {μ : σ → ℕ} {s : σ} (hs : P s)
    (hstep : ∀ s a t, P s → ok s a → step s a = some t → P t ∧ μ t < μ s)
    (hmove : ∀ s, P s → ¬ Q s → ∃ a t, ok s a ∧ step s a = some t) :
    ∃ as t, Trace step ok s as t ∧ Q t := by
  induction hm : μ s using Nat.strongRecOn generalizing s with
  | _ m ih =>
  by_cases hq : Q s
  · exact ⟨[],s,.nil s,hq⟩
  · obtain ⟨a,t,ho,ha⟩ := hmove s hs hq
    obtain ⟨hp,hlt⟩ := hstep s a t hs ho ha
    obtain ⟨as,u,htr,hu⟩ := ih (μ t) (hm ▸ hlt) hp rfl
    exact ⟨a::as,u,.cons ha ho htr,hu⟩

def runWhile (step : σ → α → Option σ) (ok : σ → α → Bool) (s : σ) : List α → Option σ
  | [] => some s
  | a::as => if ok s a then (step s a).bind fun t => runWhile step ok t as else none

theorem trace_of_runWhile {okb : σ → α → Bool} {s t : σ} {as : List α}
    (h : runWhile step okb s as = some t) : Trace step (fun s a => okb s a = true) s as t := by
  induction as generalizing s with
  | nil =>
    simp only [runWhile,Option.some.injEq] at h
    subst h
    exact .nil _
  | cons a as ih =>
    simp only [runWhile] at h
    split at h
    · rename_i ho
      obtain ⟨m,hm,ht⟩ := Option.bind_eq_some_iff.mp h
      exact .cons hm ho (ih ht)
    · simp at h

/-- A concrete run, from an evaluation of its actions and of a check on its last state. -/
theorem exists_trace_of_runWhile (step : σ → α → Option σ) (okb : σ → α → Bool) (s : σ)
    (as : List α) (check : σ → Bool)
    (h : (runWhile step okb s as).any check = true) :
    ∃ t, Trace step (fun s a => okb s a = true) s as t ∧ check t = true := by
  cases hr : runWhile step okb s as with
  | none => simp [hr] at h
  | some t => exact ⟨t,trace_of_runWhile hr,by simpa [hr] using h⟩

def execute (exec : σ → ι → ω × σ) (s : σ) : List ι → List ω × σ
  | [] => ([],s)
  | op::ops =>
    let r := exec s op
    let rs := execute exec r.2 ops
    (r.1::rs.1,rs.2)

/-- If every single operation gives the same result on related states and leads to related
states, then so does every sequence of operations. -/
theorem execute_simulates {R : σ → τ → Prop} {exec : σ → ι → ω × σ} {exec' : τ → ι → ω × τ}
    (h : ∀ s t op, R s t → (exec s op).1 = (exec' t op).1 ∧ R (exec s op).2 (exec' t op).2)
    {s : σ} {t : τ} (hs : R s t) (ops : List ι) :
    (execute exec s ops).1 = (execute exec' t ops).1 ∧
      R (execute exec s ops).2 (execute exec' t ops).2 := by
  induction ops generalizing s t with
  | nil => exact ⟨rfl,hs⟩
  | cons op ops ih =>
    obtain ⟨hr,hs'⟩ := h s t op hs
    obtain ⟨hrs,hend⟩ := ih hs'
    exact ⟨by simp only [execute,hr,hrs],hend⟩

end Transition
