import Mathlib.Data.List.Basic
import Mathlib.Order.Nat
import Mathlib.Order.Bounds.Defs

/-!
# Lengths of common prefixes

`sharedLength` is characterized by equality of truncations, which makes "share
at least `n` leading symbols" an equivalence relation for every `n`.
-/

namespace CommonPrefix

variable {α : Type*} [DecidableEq α]

def sharedLength : List α → List α → ℕ
  | x::xs, y::ys => if x = y then sharedLength xs ys + 1 else 0
  | _, _ => 0

theorem le_sharedLength_iff (n : ℕ) (xs ys : List α) :
    n ≤ sharedLength xs ys ↔ n ≤ xs.length ∧ n ≤ ys.length ∧ xs.take n = ys.take n := by
  induction xs generalizing n ys with
  | nil => cases n <;> simp [sharedLength]
  | cons x xs ih =>
    cases ys with
    | nil => cases n <;> simp [sharedLength]
    | cons y ys =>
      cases n with
      | zero => simp
      | succ n =>
        by_cases hxy : x = y
        · simp [sharedLength,hxy,ih]
        · simp [sharedLength,hxy]

theorem isGreatest_sharedLength (xs ys : List α) :
    IsGreatest {n | ∃ p, p <+: xs ∧ p <+: ys ∧ p.length = n} (sharedLength xs ys) := by
  constructor
  · obtain ⟨hx,-,ht⟩ := (le_sharedLength_iff _ xs ys).mp le_rfl
    have hy : xs.take (sharedLength xs ys) <+: ys := ht ▸ List.take_prefix _ _
    exact ⟨xs.take (sharedLength xs ys),List.take_prefix _ _,hy,List.length_take_of_le hx⟩
  · rintro n ⟨p,hx,hy,rfl⟩
    have hp := (List.prefix_iff_eq_take.mp hx).symm.trans (List.prefix_iff_eq_take.mp hy)
    exact (le_sharedLength_iff _ xs ys).mpr ⟨hx.length_le,hy.length_le,hp⟩

theorem sharedLength_le (xs ys : List α) : sharedLength xs ys ≤ xs.length :=
  ((le_sharedLength_iff _ xs ys).mp le_rfl).1

theorem sharedLength_eq_length_iff {xs ys : List α} (hlen : xs.length = ys.length) :
    sharedLength xs ys = xs.length ↔ xs = ys := by
  have h := le_sharedLength_iff xs.length xs ys
  rw [hlen,List.take_length,← hlen,List.take_length] at h
  simp only [le_refl,true_and] at h
  rw [← h]
  exact ⟨fun he => he.ge,fun hle => (sharedLength_le xs ys).antisymm hle⟩

theorem sharedLength_comm (xs ys : List α) : sharedLength xs ys = sharedLength ys xs := by
  apply Nat.le_antisymm
  · obtain ⟨hx,hy,ht⟩ := (le_sharedLength_iff _ xs ys).mp le_rfl
    exact (le_sharedLength_iff _ ys xs).mpr ⟨hy,hx,ht.symm⟩
  · obtain ⟨hy,hx,ht⟩ := (le_sharedLength_iff _ ys xs).mp le_rfl
    exact (le_sharedLength_iff _ xs ys).mpr ⟨hx,hy,ht.symm⟩

/-- The ultrametric inequality, in the form of transitivity at every length. -/
theorem le_sharedLength_trans {n : ℕ} {xs ys zs : List α} (h : n ≤ sharedLength xs ys)
    (h' : n ≤ sharedLength ys zs) : n ≤ sharedLength xs zs := by
  obtain ⟨hx,-,ht⟩ := (le_sharedLength_iff _ _ _).mp h
  obtain ⟨-,hz,ht'⟩ := (le_sharedLength_iff _ _ _).mp h'
  exact (le_sharedLength_iff _ _ _).mpr ⟨hx,hz,ht.trans ht'⟩

theorem sharedLength_append_left (bs xs ys : List α) :
    sharedLength (bs++xs) (bs++ys) = bs.length + sharedLength xs ys := by
  induction bs with
  | nil => simp
  | cons b bs ih => simp [sharedLength,ih]; omega

/-- Blocks of one length that differ decide the answer among themselves. -/
theorem sharedLength_append_of_ne {as bs : List α} (hlen : as.length = bs.length) (hne : as ≠ bs)
    (xs ys : List α) : sharedLength (as++xs) (bs++ys) = sharedLength as bs := by
  induction as generalizing bs with
  | nil => cases bs <;> simp_all
  | cons a as ih =>
    cases bs with
    | nil => simp at hlen
    | cons b bs =>
      by_cases hab : a = b
      · subst hab
        have hh := ih (by simpa using hlen) (by simpa using hne)
        simp [sharedLength,hh]
      · simp [sharedLength,hab]

/-- Two different words of one length part at the end of their common prefix. -/
theorem exists_fork {xs ys : List α} (hlen : xs.length = ys.length) (hne : xs ≠ ys) :
    ∃ p x y xs' ys', xs = p ++ x::xs' ∧ ys = p ++ y::ys' ∧ x ≠ y := by
  induction xs generalizing ys with
  | nil => cases ys <;> simp_all
  | cons x xs ih =>
    cases ys with
    | nil => simp at hlen
    | cons y ys =>
      by_cases hxy : x = y
      · subst hxy
        obtain ⟨p,x',y',xs',ys',rfl,rfl,hne'⟩ := ih (by simpa using hlen) (by simpa using hne)
        exact ⟨x::p,x',y',xs',ys',rfl,rfl,hne'⟩
      · exact ⟨[],x,y,xs,ys,rfl,rfl,hxy⟩

theorem sharedLength_fork (p xs ys : List α) {x y : α} (hne : x ≠ y) :
    sharedLength (p ++ x::xs) (p ++ y::ys) = p.length := by
  simp [sharedLength_append_left,sharedLength,hne]

theorem sharedLength_map {β : Type*} [DecidableEq β] {f : α → β} (hf : Function.Injective f)
    (xs ys : List α) : sharedLength (xs.map f) (ys.map f) = sharedLength xs ys := by
  induction xs generalizing ys with
  | nil => simp [sharedLength]
  | cons x xs ih =>
    cases ys with
    | nil => simp [sharedLength]
    | cons y ys => simp [sharedLength,hf.eq_iff,ih]

end CommonPrefix
