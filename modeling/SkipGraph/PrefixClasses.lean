import Mathlib.Data.Setoid.Partition
import Mathlib.Data.Set.Card

/-!
# Classes of words by their prefixes

Objects named by words over two letters, all of one length, are divided by their
first `l` letters. One letter more divides every class in two.
-/

namespace CommonPrefix

/-- A class of a relation lies in exactly one class of a coarser relation. -/
theorem existsUnique_superclass {α : Type*} {r s : Setoid α} (h : r ≤ s) {D : Set α}
    (hD : D ∈ r.classes) : ∃! C, C ∈ s.classes ∧ D ⊆ C := by
  obtain ⟨a,rfl⟩ := hD
  refine ⟨{x | s x a},⟨s.mem_classes a,fun x hx => h hx⟩,?_⟩
  rintro C ⟨hC,hsub⟩
  exact Setoid.eq_of_mem_classes hC (hsub (r.refl a)) (s.mem_classes a) (s.refl a)

variable {ι : Type*} (word : ι → List Bool)

def takeSetoid (l : ℕ) : Setoid ι := Setoid.ker fun a => (word a).take l

theorem takeSetoid_succ_le (l : ℕ) : takeSetoid word (l+1) ≤ takeSetoid word l := by
  intro a b h
  have ht : (word a).take (l+1) = (word b).take (l+1) := h
  change (word a).take l = (word b).take l
  simpa [List.take_take] using congrArg (List.take l) ht

variable {n : ℕ} (hlen : ∀ a, (word a).length = n)
  (hsurj : ∀ w : List Bool, w.length = n → ∃ a, word a = w)

include hlen

theorem take_succ_word {l : ℕ} (hl : l < n) (a : ι) :
    ∃ x, (word a).take (l+1) = (word a).take l ++ [x] :=
  ⟨_,(List.take_concat_get' (word a) l (by rw [hlen]; exact hl)).symm⟩

theorem take_succ_eq_or {l : ℕ} (hl : l < n) {a b d : ι}
    (hb : (word b).take l = (word a).take l) (hd : (word d).take l = (word a).take l)
    (hne : (word b).take (l+1) ≠ (word a).take (l+1)) :
    (word d).take (l+1) = (word a).take (l+1) ∨ (word d).take (l+1) = (word b).take (l+1) := by
  obtain ⟨x,hx⟩ := take_succ_word word hlen hl a
  obtain ⟨y,hy⟩ := take_succ_word word hlen hl b
  obtain ⟨z,hz⟩ := take_succ_word word hlen hl d
  rw [hx,hy,hb] at hne
  rw [hx,hy,hz,hb,hd]
  revert hne
  cases x <;> cases y <;> cases z <;> simp

include hsurj

theorem exists_other_branch {l : ℕ} (hl : l < n) (a : ι) :
    ∃ b, (word b).take l = (word a).take l ∧ (word b).take (l+1) ≠ (word a).take (l+1) := by
  obtain ⟨x,hx⟩ := take_succ_word word hlen hl a
  have hal := hlen a
  obtain ⟨b,hb⟩ := hsurj ((word a).take l ++ (!x)::(word a).drop (l+1)) (by simp; omega)
  have hl' : ((word a).take l).length = l := by simp; omega
  refine ⟨b,?_,?_⟩
  · rw [hb,List.take_left' hl']
  · rw [hb,hx,List.take_append,hl']
    simp [List.take_take]

/-- Every class is the union of exactly two classes of the next length. -/
theorem splits_in_two {l : ℕ} (hl : l < n) {C : Set ι} (hC : C ∈ (takeSetoid word l).classes) :
    {D | D ∈ (takeSetoid word (l+1)).classes ∧ D ⊆ C}.ncard = 2 ∧
      ⋃₀ {D | D ∈ (takeSetoid word (l+1)).classes ∧ D ⊆ C} = C := by
  obtain ⟨a,rfl⟩ := hC
  obtain ⟨b,hb,hne⟩ := exists_other_branch word hlen hsurj hl a
  have hcases : ∀ d, takeSetoid word l d a →
      takeSetoid word (l+1) d a ∨ takeSetoid word (l+1) d b :=
    fun d hd => take_succ_eq_or word hlen hl hb hd hne
  have hsub : ∀ c, takeSetoid word l c a →
      {x | takeSetoid word (l+1) x c} ⊆ {x | takeSetoid word l x a} := by
    intro c hc x hx
    exact (takeSetoid word l).trans (takeSetoid_succ_le word l hx) hc
  have hpair : {D | D ∈ (takeSetoid word (l+1)).classes ∧ D ⊆ {x | takeSetoid word l x a}} =
      {{x | takeSetoid word (l+1) x a},{x | takeSetoid word (l+1) x b}} := by
    ext D
    constructor
    · rintro ⟨hD,hDC⟩
      obtain ⟨d,rfl⟩ := id hD
      have hd : d ∈ {x | takeSetoid word (l+1) x d} := (takeSetoid word (l+1)).refl d
      rcases hcases d (hDC hd) with h | h
      · exact .inl (Setoid.eq_of_mem_classes hD hd (Setoid.mem_classes _ a) h)
      · exact .inr (Setoid.eq_of_mem_classes hD hd (Setoid.mem_classes _ b) h)
    · rintro (rfl | rfl)
      · exact ⟨Setoid.mem_classes _ a,hsub a ((takeSetoid word l).refl a)⟩
      · exact ⟨Setoid.mem_classes _ b,hsub b hb⟩
  have hdistinct : {x | takeSetoid word (l+1) x a} ≠ {x | takeSetoid word (l+1) x b} := by
    intro h
    have hmem : b ∈ {x | takeSetoid word (l+1) x b} := (takeSetoid word (l+1)).refl b
    rw [← h] at hmem
    exact hne hmem
  rw [hpair]
  refine ⟨Set.ncard_pair hdistinct,?_⟩
  rw [Set.sUnion_pair]
  apply Set.Subset.antisymm
  · exact Set.union_subset (hsub a ((takeSetoid word l).refl a)) (hsub b hb)
  · exact fun d hd => hcases d hd

end CommonPrefix
