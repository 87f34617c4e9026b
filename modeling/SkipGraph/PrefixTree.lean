import SkipGraph.Handlers
import SkipGraph.PrefixClasses

/-!
# The tree of membership prefixes

`prefix_match` at level `l` is an equivalence relation on membership vectors. Its
classes, level by level, are the nodes of a full binary tree of height 256, and on
the nodes of a skip graph they are the level-`l` lists.
-/

namespace SkipGraph

open CommonPrefix

namespace MembershipVector

theorem commonPrefixBit_equivalence {l : ℕ} (hl : l ≤ 256) :
    Equivalence fun a b : MembershipVector => a.commonPrefixBit b ≥ l where
  refl a := (le_commonPrefixBit_iff hl a a).mpr rfl
  symm h := by rwa [commonPrefixBit_comm]
  trans h h' := le_commonPrefixBit_trans h h'

/-- The relation that `prefix_match` tests at level `l`. -/
def prefixSetoid (l : ℕ) (hl : l ≤ 256) : Setoid MembershipVector where
  r a b := a.commonPrefixBit b ≥ l
  iseqv := commonPrefixBit_equivalence hl

theorem prefixSetoid_eq_takeSetoid (l : ℕ) (hl : l ≤ 256) :
    prefixSetoid l hl = takeSetoid bits l := by
  ext a b
  exact le_commonPrefixBit_iff hl a b

theorem prefixSetoid_succ_le (l : ℕ) (hl : l+1 ≤ 256) :
    prefixSetoid (l+1) hl ≤ prefixSetoid l (Nat.le_of_succ_le hl) :=
  fun _ _ h => Nat.le_of_succ_le h

end MembershipVector

open MembershipVector

def levelSetoid (nodes : Set Identity) (l : ℕ) (hl : l ≤ 256) : Setoid nodes :=
  (prefixSetoid l hl).comap fun n => n.1.memVec

theorem levelSetoid_succ_le (nodes : Set Identity) (l : ℕ) (hl : l+1 ≤ 256) :
    levelSetoid nodes (l+1) hl ≤ levelSetoid nodes l (Nat.le_of_succ_le hl) :=
  fun _ _ h => prefixSetoid_succ_le l hl h

def levelLists (nodes : Set Identity) (l : ℕ) (hl : l ≤ 256) : Set (Set nodes) :=
  (levelSetoid nodes l hl).classes

/-- Membership prefixes form a binary refinement tree, and the lists of any set of
nodes are its classes. -/
theorem membership_prefixes_form_tree :
    (∀ l ≤ 256, Equivalence fun a b : MembershipVector => a.commonPrefixBit b ≥ l) ∧
    (∀ (core : BaseCore) (candidate : MembershipVector) (level : ℕ),
      core.prefixMatch candidate level = true ↔
        core.memVec.commonPrefixBit candidate ≥ level) ∧
    (∀ (n : BaseNode) (level : ℕ) (direction : Direction) (candidate : Identity),
      n.belongsInOwnSlot level direction candidate = true ↔
        level < lookupTableLevels ∧ direction.lt n.id candidate.id ∧
        n.memVec.commonPrefixBit candidate.memVec ≥ level) ∧
    (∀ (l : ℕ) (a b : MembershipVector),
      a.commonPrefixBit b ≥ l+1 → a.commonPrefixBit b ≥ l) ∧
    (∀ (l : ℕ) (hl : l < 256), ∀ C ∈ (prefixSetoid l hl.le).classes,
      {D | D ∈ (prefixSetoid (l+1) hl).classes ∧ D ⊆ C}.ncard = 2 ∧
      ⋃₀ {D | D ∈ (prefixSetoid (l+1) hl).classes ∧ D ⊆ C} = C) ∧
    (∀ a b : MembershipVector, a.commonPrefixBit b ≥ 256 ↔ a = b) ∧
    (∀ (nodes : Set Identity) (l : ℕ) (hl : l ≤ 256),
      Setoid.IsPartition (levelLists nodes l hl) ∧
      ∀ C ∈ levelLists nodes l hl, ∀ D ∈ levelLists nodes l hl, C ≠ D → C ∩ D = ∅) ∧
    (∀ (nodes : Set Identity) (l : ℕ) (hl : l < 256), ∀ D ∈ levelLists nodes (l+1) hl,
      ∃! C, C ∈ levelLists nodes l hl.le ∧ D ⊆ C) := by
  refine ⟨fun l hl => commonPrefixBit_equivalence hl,?_,?_,?_,?_,?_,?_,?_⟩
  · intro core candidate level
    simp [BaseCore.prefixMatch]
  · intro n level direction candidate
    exact BaseNode.belongsInOwnSlot_iff
  · intro l a b h
    exact Nat.le_of_succ_le h
  · intro l hl C hC
    rw [prefixSetoid_eq_takeSetoid] at hC ⊢
    exact splits_in_two bits bits_length bits_surjective hl hC
  · intro a b
    rw [ge_iff_le,le_commonPrefixBit_iff le_rfl,List.take_of_length_le (by simp),
      List.take_of_length_le (by simp),bits_injective.eq_iff]
  · intro nodes l hl
    have hp : Setoid.IsPartition (levelLists nodes l hl) := Setoid.isPartition_classes _
    refine ⟨hp,fun C hC D hD hne => ?_⟩
    exact Set.disjoint_iff_inter_eq_empty.mp (hp.pairwiseDisjoint hC hD hne)
  · intro nodes l hl D hD
    exact existsUnique_superclass (levelSetoid_succ_le nodes l hl) hD

/-- All membership vectors agree on no bits, and the first bit divides them in two. -/
theorem first_bit_divides_in_two :
    {D | D ∈ (prefixSetoid 1 (by decide)).classes ∧ D ⊆ Set.univ}.ncard = 2 := by
  obtain ⟨-,-,-,-,hsplit,-⟩ := membership_prefixes_form_tree
  have hC : Set.univ ∈ (prefixSetoid 0 (by decide)).classes :=
    ⟨⟨Vector.replicate identifierSizeBytes 0⟩,
      (Set.eq_univ_of_forall fun _ => Nat.zero_le _).symm⟩
  exact (hsplit 0 (by decide) Set.univ hC).1

end SkipGraph
