import SkipGraph.Codecs

/-!
# Comparing identifiers

Left padding keeps the number a byte string denotes, so `from_bytes` embeds the
order of numbers below `256^32` in the order of identifiers. The byte at which
`compare` stops is the end of the longest common prefix.
-/

namespace SkipGraph

open CommonPrefix

variable {ε : Type}

namespace ComparisonResult

def reverse : ComparisonResult → ComparisonResult
  | .compareGreater => .compareLess
  | .compareEqual => .compareEqual
  | .compareLess => .compareGreater

def ofOrdering : Ordering → ComparisonResult
  | .lt => .compareLess
  | .eq => .compareEqual
  | .gt => .compareGreater

theorem ofOrdering_swap (o : Ordering) : ofOrdering o.swap = (ofOrdering o).reverse := by
  cases o <;> rfl

end ComparisonResult

open ComparisonResult

/-- `Display`: both identifiers up to the differing byte, in full when there is none. -/
def ComparisonContext.display (hex : Hex ε) (self : ComparisonContext) : Option String := do
  match self.result with
  | .compareGreater =>
    let left ← sliceTo self.left.bytes.toList (self.diffIndex+1)
    let right ← sliceTo self.right.bytes.toList (self.diffIndex+1)
    return s!"{hex.encode left} > {hex.encode right} (at byte {self.diffIndex})"
  | .compareEqual => return s!"{self.left.display hex} == {self.right.display hex}"
  | .compareLess =>
    let left ← sliceTo self.left.bytes.toList (self.diffIndex+1)
    let right ← sliceTo self.right.bytes.toList (self.diffIndex+1)
    return s!"{hex.encode left} < {hex.encode right} (at byte {self.diffIndex})"

theorem compareFrom_fst (i : ℕ) (as bs : List UInt8) (hlen : as.length = bs.length) :
    (compareFrom i as bs).1 = ofOrdering (Ord.compare (bigEndian as) (bigEndian bs)) := by
  obtain ⟨hlt,hgt⟩ := compareFrom_bigEndian i as bs hlen
  rcases lt_trichotomy (bigEndian as) (bigEndian bs) with h | h | h
  · rw [hlt.mpr h,compare_lt_iff_lt.mpr h,ofOrdering]
  · rw [h,compare_eq_iff_eq.mpr rfl,ofOrdering]
    cases hc : (compareFrom i as bs).1 with
    | compareGreater => exact absurd (hgt.mp hc) h.not_gt
    | compareEqual => rfl
    | compareLess => exact absurd (hlt.mp hc) h.not_lt
  · rw [hgt.mpr h,compare_gt_iff_gt.mpr h,ofOrdering]

theorem compareFrom_snd (i : ℕ) (as bs : List UInt8) :
    (compareFrom i as bs).2 = i + sharedLength as bs := by
  induction as generalizing i bs with
  | nil => simp [compareFrom,sharedLength]
  | cons a as ih =>
    cases bs with
    | nil => simp [compareFrom,sharedLength]
    | cons b bs =>
      by_cases hab : a = b
      · subst hab
        simp only [compareFrom,sharedLength,Std.ReflCmp.compare_self,ih,if_true]
        omega
      · have hne : Ord.compare a b ≠ .eq := fun h => hab (Std.LawfulEqCmp.eq_of_compare h)
        cases hc : Ord.compare a b with
        | lt => simp [compareFrom,sharedLength,hc,hab]
        | eq => exact absurd hc hne
        | gt => simp [compareFrom,sharedLength,hc,hab]

namespace Identifier

/-- `PartialOrd::partial_cmp`. -/
def partialCmp (self other : Identifier) : Option Ordering := some (self.cmp other)

theorem compare_result (a b : Identifier) :
    (a.compare b).result = ofOrdering (Ord.compare a.toNat b.toNat) :=
  compareFrom_fst 0 a.bytes.toList b.bytes.toList (by simp)

theorem compare_diffIndex (a b : Identifier) :
    (a.compare b).diffIndex = sharedLength a.bytes.toList b.bytes.toList := by
  simpa [compare] using compareFrom_snd 0 a.bytes.toList b.bytes.toList

theorem cmp_eq (a b : Identifier) : a.cmp b = Ord.compare a.toNat b.toNat := by
  rw [cmp,compare_result]
  cases Ord.compare a.toNat b.toNat <;> rfl

theorem compare_reverse (a b : Identifier) :
    (b.compare a).result = (a.compare b).result.reverse := by
  rw [compare_result,compare_result,← ofOrdering_swap,Std.OrientedOrd.eq_swap]

theorem compare_diffIndex_comm (a b : Identifier) :
    (b.compare a).diffIndex = (a.compare b).diffIndex := by
  rw [compare_diffIndex,compare_diffIndex,sharedLength_comm]

theorem compare_diffIndex_lt {a b : Identifier} (hne : a ≠ b) :
    (a.compare b).diffIndex < identifierSizeBytes := by
  have hl : a.bytes.toList.length = b.bytes.toList.length := by simp
  have hd : sharedLength a.bytes.toList b.bytes.toList ≠ a.bytes.toList.length := by
    intro h
    exact hne (eq_of_toList_eq ((sharedLength_eq_length_iff hl).mp h))
  have hle := sharedLength_le a.bytes.toList b.bytes.toList
  rw [compare_diffIndex]
  simp only [Vector.length_toList] at hd hle
  omega

theorem sliceTo_succ (a : Identifier) {n : ℕ} (h : n < identifierSizeBytes) :
    sliceTo a.bytes.toList (n+1) = some (a.bytes.toList.take (n+1)) := by
  simp [sliceTo,Nat.succ_le_of_lt h]

theorem fromBytes_ok (x : List UInt8) (hx : x.length ≤ identifierSizeBytes) :
    ∃ a, fromBytes x = .ok a ∧ a.toNat = bigEndian x := by
  obtain ⟨v,hv⟩ := exists_leftpad x hx
  refine ⟨⟨v⟩,(fromBytes_eq_ok x _).mpr ⟨hx,hv⟩,?_⟩
  rw [toNat,hv,bigEndian_leftpad]

end Identifier

theorem ComparisonContext.display_isSome (hex : Hex ε) (a b : Identifier) :
    ((a.compare b).display hex).isSome := by
  by_cases hab : a = b
  · subst hab
    have he : (a.compare a).result = .compareEqual := by
      rw [Identifier.compare_result,compare_eq_iff_eq.mpr rfl,ofOrdering]
    simp [ComparisonContext.display,he]
  · have hd := Identifier.compare_diffIndex_lt hab
    have hl : sliceTo (a.compare b).left.bytes.toList ((a.compare b).diffIndex+1) = _ :=
      a.sliceTo_succ hd
    have hr : sliceTo (a.compare b).right.bytes.toList ((a.compare b).diffIndex+1) = _ :=
      b.sliceTo_succ hd
    cases hc : (a.compare b).result <;> simp [ComparisonContext.display,hc,hl,hr]

/-- `from_bytes` followed by any of the comparisons is the order of big-endian
numbers, and a comparison can always be printed. -/
theorem comparison_is_numeric (hex : Hex ε) :
    (∀ x y : List UInt8, x.length ≤ 32 → y.length ≤ 32 → ∃ a b,
      Identifier.fromBytes x = .ok a ∧ Identifier.fromBytes y = .ok b ∧
      a.cmp b = Ord.compare (bigEndian x) (bigEndian y) ∧
      a.partialCmp b = some (Ord.compare (bigEndian x) (bigEndian y)) ∧
      (a.compare b).result = ofOrdering (Ord.compare (bigEndian x) (bigEndian y))) ∧
    (∀ a b : Identifier, a.cmp b = .eq ↔ (a == b) = true) ∧
    (∀ a b : Identifier, b.cmp a = (a.cmp b).swap) ∧
    (∀ a b c : Identifier, a.cmp b ≠ .gt → b.cmp c ≠ .gt → a.cmp c ≠ .gt) ∧
    (∀ a b : Identifier,
      (b.compare a).result = (a.compare b).result.reverse ∧
      (b.compare a).diffIndex = (a.compare b).diffIndex ∧
      IsGreatest {n | ∃ p, p <+: a.bytes.toList ∧ p <+: b.bytes.toList ∧ p.length = n}
        (a.compare b).diffIndex ∧
      (a ≠ b → (a.compare b).diffIndex < 32) ∧
      ((a.compare b).display hex).isSome) := by
  refine ⟨?_,?_,?_,?_,?_⟩
  · intro x y hx hy
    obtain ⟨a,ha,hna⟩ := Identifier.fromBytes_ok x hx
    obtain ⟨b,hb,hnb⟩ := Identifier.fromBytes_ok y hy
    have hc : a.cmp b = Ord.compare (bigEndian x) (bigEndian y) := by
      rw [Identifier.cmp_eq,hna,hnb]
    refine ⟨a,b,ha,hb,hc,congrArg some hc,?_⟩
    rw [Identifier.compare_result,hna,hnb]
  · intro a b
    rw [Identifier.cmp_eq,compare_eq_iff_eq,beq_iff_eq,Identifier.toNat_injective.eq_iff]
  · intro a b
    rw [Identifier.cmp_eq,Identifier.cmp_eq,Std.OrientedOrd.eq_swap]
  · intro a b c hab hbc
    exact le_trans (α := Identifier) hab hbc
  · intro a b
    refine ⟨a.compare_reverse b,a.compare_diffIndex_comm b,?_,Identifier.compare_diffIndex_lt,
      ComparisonContext.display_isSome hex a b⟩
    rw [Identifier.compare_diffIndex]
    exact isGreatest_sharedLength _ _

/-- A short string against a longer one of a greater number. -/
theorem comparison_of_lengths_one_and_two : ∃ a b, Identifier.fromBytes [7] = .ok a ∧
    Identifier.fromBytes [1,0] = .ok b ∧ a.cmp b = .lt ∧ (a.compare b).diffIndex < 32 := by
  obtain ⟨hnum,heq,-,-,hctx⟩ := comparison_is_numeric hexCrate
  obtain ⟨a,b,ha,hb,hc,-⟩ := hnum [7] [1,0] (by decide) (by decide)
  have hlt : a.cmp b = .lt := hc.trans (by decide)
  have hne : a ≠ b := by
    rintro rfl
    have he := (heq a a).mpr (by simp)
    rw [he] at hlt
    cases hlt
  exact ⟨a,b,ha,hb,hlt,(hctx a b).2.2.2.1 hne⟩

end SkipGraph
