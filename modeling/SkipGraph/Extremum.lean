import Mathlib.Order.Lattice
import Mathlib.Data.List.Basic

/-!
# Extremal elements of a list by a key

Ties go to the last element for the maximum and to the first for the minimum.
-/

namespace Extremum

variable {α κ : Type*} [LinearOrder κ] (key : α → κ)

def maxByKey : List α → Option α
  | [] => none
  | x::xs =>
    match maxByKey xs with
    | none => some x
    | some y => if key y < key x then some x else some y

def minByKey : List α → Option α
  | [] => none
  | x::xs =>
    match minByKey xs with
    | none => some x
    | some y => if key y < key x then some y else some x

variable {key}

theorem maxByKey_eq_none {xs : List α} : maxByKey key xs = none ↔ xs = [] := by
  cases xs with
  | nil => simp [maxByKey]
  | cons x xs => simp only [maxByKey]; split <;> (try split) <;> simp

theorem minByKey_eq_none {xs : List α} : minByKey key xs = none ↔ xs = [] := by
  cases xs with
  | nil => simp [minByKey]
  | cons x xs => simp only [minByKey]; split <;> (try split) <;> simp

theorem maxByKey_eq_some {xs : List α} {m : α} (h : maxByKey key xs = some m) :
    m ∈ xs ∧ ∀ y ∈ xs, key y ≤ key m := by
  induction xs generalizing m with
  | nil => simp [maxByKey] at h
  | cons x xs ih =>
    simp only [maxByKey] at h
    split at h
    · rename_i hn
      obtain rfl : x = m := by simpa using h
      simp [maxByKey_eq_none.mp hn]
    · rename_i y hy
      obtain ⟨hmem,hmax⟩ := ih hy
      split at h
      · rename_i hlt
        obtain rfl : x = m := by simpa using h
        refine ⟨by simp,fun z hz => ?_⟩
        rcases List.mem_cons.mp hz with rfl | hz
        · exact le_refl _
        · exact le_trans (hmax z hz) (le_of_lt hlt)
      · rename_i hge
        obtain rfl : y = m := by simpa using h
        refine ⟨by simp [hmem],fun z hz => ?_⟩
        rcases List.mem_cons.mp hz with rfl | hz
        · exact not_lt.mp hge
        · exact hmax z hz

theorem minByKey_eq_some {xs : List α} {m : α} (h : minByKey key xs = some m) :
    m ∈ xs ∧ ∀ y ∈ xs, key m ≤ key y := by
  induction xs generalizing m with
  | nil => simp [minByKey] at h
  | cons x xs ih =>
    simp only [minByKey] at h
    split at h
    · rename_i hn
      obtain rfl : x = m := by simpa using h
      simp [minByKey_eq_none.mp hn]
    · rename_i y hy
      obtain ⟨hmem,hmin⟩ := ih hy
      split at h
      · rename_i hlt
        obtain rfl : y = m := by simpa using h
        refine ⟨by simp [hmem],fun z hz => ?_⟩
        rcases List.mem_cons.mp hz with rfl | hz
        · exact le_of_lt hlt
        · exact hmin z hz
      · rename_i hge
        obtain rfl : x = m := by simpa using h
        refine ⟨by simp,fun z hz => ?_⟩
        rcases List.mem_cons.mp hz with rfl | hz
        · exact le_refl _
        · exact le_trans (not_lt.mp hge) (hmin z hz)

theorem maxByKey_last {r : α → α → Prop} {xs : List α} {m : α} (hxs : xs.Pairwise r)
    (h : maxByKey key xs = some m) : ∀ y ∈ xs, key y = key m → y = m ∨ r y m := by
  induction xs generalizing m with
  | nil => simp
  | cons x xs ih =>
    obtain ⟨hx,hxs⟩ := List.pairwise_cons.mp hxs
    simp only [maxByKey] at h
    intro y hy heq
    split at h
    · rename_i hn
      obtain rfl : x = m := by simpa using h
      exact .inl (by simpa [maxByKey_eq_none.mp hn] using hy)
    · rename_i w hw
      obtain ⟨hmem,hmax⟩ := maxByKey_eq_some hw
      split at h
      · rename_i hlt
        obtain rfl : x = m := by simpa using h
        rcases List.mem_cons.mp hy with rfl | hy
        · exact .inl rfl
        · exact absurd (hmax y hy) (not_le.mpr (heq ▸ hlt))
      · obtain rfl : w = m := by simpa using h
        rcases List.mem_cons.mp hy with rfl | hy
        · exact .inr (hx w hmem)
        · exact ih hxs hw y hy heq

theorem minByKey_first {r : α → α → Prop} {xs : List α} {m : α} (hxs : xs.Pairwise r)
    (h : minByKey key xs = some m) : ∀ y ∈ xs, key y = key m → y = m ∨ r m y := by
  induction xs generalizing m with
  | nil => simp
  | cons x xs ih =>
    obtain ⟨hx,hxs⟩ := List.pairwise_cons.mp hxs
    simp only [minByKey] at h
    intro y hy heq
    split at h
    · rename_i hn
      obtain rfl : x = m := by simpa using h
      exact .inl (by simpa [minByKey_eq_none.mp hn] using hy)
    · rename_i w hw
      split at h
      · rename_i hlt
        obtain rfl : w = m := by simpa using h
        rcases List.mem_cons.mp hy with rfl | hy
        · exact absurd hlt (heq ▸ lt_irrefl _)
        · exact ih hxs hw y hy heq
      · obtain rfl : x = m := by simpa using h
        rcases List.mem_cons.mp hy with rfl | hy
        · exact .inl rfl
        · exact .inr (hx y hy)

/-- A downward scan stops at the greatest index that passes the test. -/
theorem find?_range_reverse_eq_some {p : ℕ → Bool} {n i : ℕ} :
    (List.range n).reverse.find? p = some i ↔
      i < n ∧ p i = true ∧ ∀ j < n, p j = true → j ≤ i := by
  induction n with
  | zero => simp
  | succ n ih =>
    rw [List.range_succ,List.reverse_append,List.reverse_singleton,List.singleton_append,
      List.find?_cons]
    cases hp : p n with
    | true =>
      constructor
      · intro h
        obtain rfl : n = i := by simpa using h
        exact ⟨by omega,hp,fun j hj _ => by omega⟩
      · rintro ⟨hi,-,hmax⟩
        have hh := hmax n (by omega) hp
        simp only [Option.some.injEq]
        omega
    | false =>
      simp only [ih]
      constructor
      · rintro ⟨hi,hpi,hmax⟩
        refine ⟨by omega,hpi,fun j hj hpj => hmax j ?_ hpj⟩
        have hne : j ≠ n := by rintro rfl; simp [hp] at hpj
        omega
      · rintro ⟨hi,hpi,hmax⟩
        have hne : i ≠ n := by rintro rfl; simp [hp] at hpi
        exact ⟨by omega,hpi,fun j hj hpj => hmax j (by omega) hpj⟩

end Extremum
