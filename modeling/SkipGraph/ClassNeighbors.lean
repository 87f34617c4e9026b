import Mathlib.Data.List.FinRange
import Mathlib.Order.Basic
import Mathlib.Logic.Relation

/-!
# Neighbours within the classes of a relation

Positions `0, …, n-1` on a line, and a relation that divides them into classes. The
neighbours of a position are the nearest related ones on its two sides, as a scan of the
line finds them.
-/

namespace ClassNeighbors

theorem find?_eq_some_iff {α : Type*} {R : α → α → Prop} [Std.Irrefl R] [Std.Asymm R] {l : List α}
    {p : α → Bool} {a : α} (hl : l.Pairwise R) :
    l.find? p = some a ↔ a ∈ l ∧ p a = true ∧ ∀ b ∈ l, R b a → p b = false := by
  induction l with
  | nil => simp
  | cons x l ih =>
    obtain ⟨hx,hl⟩ := List.pairwise_cons.mp hl
    cases hp : p x with
    | true =>
      rw [List.find?_cons_of_pos hp]
      constructor
      · rintro ⟨⟩
        refine ⟨by simp,hp,fun b hb hbx => ?_⟩
        rcases List.mem_cons.mp hb with rfl | hb
        · exact absurd hbx (irrefl_of R b)
        · exact absurd hbx (asymm_of R (hx b hb))
      · rintro ⟨ha,-,hb⟩
        rcases List.mem_cons.mp ha with rfl | ha
        · rfl
        · have hpx := hb x (by simp) (hx a ha)
          simp [hp] at hpx
    | false =>
      rw [List.find?_cons_of_neg (by simp [hp]),ih hl]
      constructor
      · rintro ⟨ha,hpa,hb⟩
        refine ⟨by simp [ha],hpa,fun b hb' hba => ?_⟩
        rcases List.mem_cons.mp hb' with rfl | hb'
        · exact hp
        · exact hb b hb' hba
      · rintro ⟨ha,hpa,hb⟩
        rcases List.mem_cons.mp ha with rfl | ha
        · simp [hp] at hpa
        · exact ⟨ha,hpa,fun b hb' => hb b (by simp [hb'])⟩

variable {n : ℕ}

theorem mem_take_finRange {k : Fin n} {m : ℕ} : k ∈ (List.finRange n).take m ↔ k.val < m := by
  constructor
  · intro h
    obtain ⟨i,hi,rfl⟩ := List.mem_iff_getElem.mp h
    rw [List.length_take] at hi
    have hm : i < m := by omega
    simpa using hm
  · intro h
    have hlt := k.isLt
    refine List.mem_iff_getElem.mpr ⟨k.val,?_,?_⟩
    · rw [List.length_take,List.length_finRange]
      omega
    · simp

theorem mem_drop_finRange {k : Fin n} {m : ℕ} : k ∈ (List.finRange n).drop m ↔ m ≤ k.val := by
  constructor
  · intro h
    obtain ⟨i,hi,rfl⟩ := List.mem_iff_getElem.mp h
    simp
  · intro h
    have hlt := k.isLt
    refine List.mem_iff_getElem.mpr ⟨k-m,?_,?_⟩
    · simp only [List.length_drop,List.length_finRange]
      omega
    · ext
      simp
      omega

/-- The positions before `m`, the last one first. -/
def scan (n m : ℕ) : List (Fin n) := ((List.finRange n).take m).reverse

theorem mem_scan {k : Fin n} {m : ℕ} : k ∈ scan n m ↔ k.val < m := by
  simp [scan,mem_take_finRange]

theorem pairwise_scan (m : ℕ) : (scan n m).Pairwise (· > ·) := by
  rw [scan,List.pairwise_reverse]
  exact (List.pairwise_lt_finRange n).take

section Relation

variable (r : Fin n → Fin n → Prop) [DecidableRel r]

def before (i : Fin n) : Option (Fin n) := (scan n i).find? fun j => decide (r i j)

def after (i : Fin n) : Option (Fin n) :=
  ((List.finRange n).drop (i+1)).find? fun j => decide (r i j)

variable {r} {i j : Fin n}

theorem scan_find?_eq_some {m : ℕ} : (scan n m).find? (fun j => decide (r i j)) = some j ↔
    j.val < m ∧ r i j ∧ ∀ k, j < k → k.val < m → ¬ r i k := by
  rw [find?_eq_some_iff (pairwise_scan m),mem_scan,decide_eq_true_iff]
  refine and_congr_right fun _ => and_congr_right fun _ => ⟨fun h k hk hm => ?_,fun h k hm hk => ?_⟩
  · exact of_decide_eq_false (h k (mem_scan.mpr hm) hk)
  · exact decide_eq_false (h k hk (mem_scan.mp hm))

theorem scan_find?_eq_none {m : ℕ} : (scan n m).find? (fun j => decide (r i j)) = none ↔
    ∀ k : Fin n, k.val < m → ¬ r i k := by
  simp [List.find?_eq_none,mem_scan]

theorem before_eq_some : before r i = some j ↔ j < i ∧ r i j ∧ ∀ k, j < k → k < i → ¬ r i k :=
  scan_find?_eq_some

theorem before_eq_none : before r i = none ↔ ∀ k < i, ¬ r i k := scan_find?_eq_none

theorem after_eq_some : after r i = some j ↔ i < j ∧ r i j ∧ ∀ k, i < k → k < j → ¬ r i k := by
  rw [after,find?_eq_some_iff (List.pairwise_lt_finRange n).drop,mem_drop_finRange,
    decide_eq_true_iff]
  refine and_congr_right fun _ => and_congr_right fun _ => ⟨fun h k hk hm => ?_,fun h k hm hk => ?_⟩
  · exact of_decide_eq_false (h k (mem_drop_finRange.mpr hk) hm)
  · exact decide_eq_false (h k (mem_drop_finRange.mp hm) hk)

theorem after_eq_none : after r i = none ↔ ∀ k, i < k → ¬ r i k := by
  simp only [after,List.find?_eq_none,mem_drop_finRange,decide_eq_true_iff]
  exact forall_congr' fun k => Iff.rfl

/-- The two sides mirror each other. -/
theorem before_eq_some_iff_after (hr : Equivalence r) : before r i = some j ↔ after r j = some i := by
  rw [before_eq_some,after_eq_some]
  refine and_congr_right fun _ => ⟨fun ⟨h,hb⟩ => ?_,fun ⟨h,hb⟩ => ?_⟩
  · exact ⟨hr.symm h,fun k hjk hki hk => hb k hjk hki (hr.trans h hk)⟩
  · exact ⟨hr.symm h,fun k hjk hki hk => hb k hjk hki (hr.trans h hk)⟩

end Relation

section Nested

variable {r r' : Fin n → Fin n → Prop} [DecidableRel r] [DecidableRel r'] {i j : Fin n}

/-- For a finer relation the scan may start at the neighbour for the coarser one. -/
theorem before_of_finer (hle : ∀ i j, r' i j → r i j) (h : before r i = some j) :
    before r' i = (scan n (j+1)).find? fun k => decide (r' i k) := by
  obtain ⟨hji,-,hb⟩ := before_eq_some.mp h
  have hlast : ∀ k, k < i → r' i k → k.val < j+1 := by
    intro k hki hk
    by_contra hkj
    exact hb k (Fin.lt_def.mpr (by omega)) hki (hle i k hk)
  cases hf : (scan n (j+1)).find? fun k => decide (r' i k) with
  | none =>
    rw [scan_find?_eq_none] at hf
    exact before_eq_none.mpr fun k hk hr => hf k (hlast k hk hr) hr
  | some k =>
    obtain ⟨hk,hr,hb'⟩ := scan_find?_eq_some.mp hf
    refine before_eq_some.mpr ⟨Fin.lt_def.mpr (by omega),hr,fun l hkl hli hl => ?_⟩
    exact hb' l hkl (hlast l hli hl) hl

theorem before_none_of_finer (hle : ∀ i j, r' i j → r i j) (h : before r i = none) :
    before r' i = none :=
  before_eq_none.mpr fun k hk hr => before_eq_none.mp h k hk (hle i k hr)

end Nested

end ClassNeighbors
