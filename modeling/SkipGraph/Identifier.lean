import Mathlib.Data.Nat.Digits.Defs
import Mathlib.Order.Defs.LinearOrder

/-!
# Identifiers

A node identifier is a string of 32 bytes. Every ordering decision of the skip
graph goes through the byte loop of `compare`, so the linear order below is read
off that loop; `lt_iff_toNat` says that it is the order of big-endian numbers.
-/

namespace SkipGraph

/-- The size of both an identifier and a membership vector in bytes. -/
def identifierSizeBytes : ℕ := 32

def bigEndian (bs : List UInt8) : ℕ := Nat.ofDigits 256 (bs.reverse.map UInt8.toNat)

theorem bigEndian_cons (b : UInt8) (bs : List UInt8) :
    bigEndian (b::bs) = bigEndian bs + 256^bs.length * b.toNat := by
  simp [bigEndian,Nat.ofDigits_append]

theorem toNat_lt_of_mem {bs : List UInt8} {n : ℕ} (h : n ∈ bs.map UInt8.toNat) : n < 256 := by
  obtain ⟨b,-,rfl⟩ := List.mem_map.mp h
  exact b.toNat_lt_size

theorem bigEndian_lt (bs : List UInt8) : bigEndian bs < 256^bs.length := by
  have h := Nat.ofDigits_lt_base_pow_length (b := 256) (l := bs.reverse.map UInt8.toNat)
    (by norm_num) fun n hn => toNat_lt_of_mem hn
  simpa [bigEndian] using h

/-- The lower-case digits of `hex::encode`. -/
def hexEncode (bs : List UInt8) : String :=
  String.ofList (bs.flatMap fun b => [Nat.digitChar (b.toNat / 16),Nat.digitChar (b.toNat % 16)])

inductive ComparisonResult
  | compareGreater | compareEqual | compareLess
  deriving DecidableEq, Repr

structure Identifier where
  bytes : Vector UInt8 identifierSizeBytes
  deriving DecidableEq, Repr

/-- The result of comparing two identifiers, with the index of the first byte
where they differ. -/
structure ComparisonContext where
  result : ComparisonResult
  left : Identifier
  right : Identifier
  diffIndex : ℕ
  deriving DecidableEq, Repr

/-- The byte loop of `compare`, entered at byte `i`. -/
def compareFrom (i : ℕ) : List UInt8 → List UInt8 → ComparisonResult × ℕ
  | a::as, b::bs =>
    match Ord.compare a b with
    | .lt => (.compareLess,i)
    | .gt => (.compareGreater,i)
    | .eq => compareFrom (i+1) as bs
  | _, _ => (.compareEqual,i)

/-- The loop computes the order of the two strings read as numbers. -/
theorem compareFrom_bigEndian (i : ℕ) (as bs : List UInt8) (hlen : as.length = bs.length) :
    ((compareFrom i as bs).1 = .compareLess ↔ bigEndian as < bigEndian bs) ∧
    ((compareFrom i as bs).1 = .compareGreater ↔ bigEndian bs < bigEndian as) := by
  induction as generalizing bs i with
  | nil =>
    cases bs with
    | nil => simp [compareFrom]
    | cons b bs => simp at hlen
  | cons a as ih =>
    cases bs with
    | nil => simp at hlen
    | cons b bs =>
      have hl : as.length = bs.length := by simpa using hlen
      have hA := bigEndian_lt as
      have hB := bigEndian_lt bs
      rw [← hl] at hB
      simp only [bigEndian_cons,compareFrom,← hl]
      set p := 256^as.length
      rcases lt_trichotomy a.toNat b.toNat with h | h | h
      · have hc : Ord.compare a b = .lt := by
          simp [Ord.compare,compareOfLessAndEq,UInt8.lt_iff_toNat_lt,h]
        have hm : p * (a.toNat+1) ≤ p * b.toNat := Nat.mul_le_mul_left _ h
        simp only [hc,true_iff,reduceCtorEq,false_iff,not_lt]
        rw [Nat.mul_add,Nat.mul_one] at hm
        omega
      · have he : a = b := UInt8.toNat_inj.mp h
        subst he
        have hc : Ord.compare a a = .eq := by simp [Ord.compare,compareOfLessAndEq]
        have hh := ih (i+1) bs hl
        simpa only [hc,Nat.add_lt_add_iff_right] using hh
      · have hc : Ord.compare a b = .gt := by
          have hne : a ≠ b := fun he => h.ne (congrArg UInt8.toNat he).symm
          simp [Ord.compare,compareOfLessAndEq,UInt8.lt_iff_toNat_lt,h.le,hne]
        have hm : p * (b.toNat+1) ≤ p * a.toNat := Nat.mul_le_mul_left _ h
        simp only [hc,true_iff,reduceCtorEq,false_iff,not_lt]
        rw [Nat.mul_add,Nat.mul_one] at hm
        omega

namespace Identifier

instance : ToString Identifier := ⟨fun a => hexEncode a.bytes.toList⟩

def compare (self other : Identifier) : ComparisonContext :=
  let r := compareFrom 0 self.bytes.toList other.bytes.toList
  ⟨r.1,self,other,r.2⟩

/-- `Ord::cmp`. -/
def cmp (self other : Identifier) : Ordering :=
  match (self.compare other).result with
  | .compareLess => .lt
  | .compareEqual => .eq
  | .compareGreater => .gt

def toNat (a : Identifier) : ℕ := bigEndian a.bytes.toList

theorem eq_of_toList_eq {a b : Identifier} (h : a.bytes.toList = b.bytes.toList) : a = b := by
  cases a; cases b
  simpa using Vector.toList_inj.mp h

theorem toNat_injective : Function.Injective toNat := by
  intro a b h
  have hd : a.bytes.toList.reverse.map UInt8.toNat = b.bytes.toList.reverse.map UInt8.toNat :=
    Nat.ofDigits_inj_of_len_eq (by norm_num) (by simp)
      (fun n hn => toNat_lt_of_mem hn) (fun n hn => toNat_lt_of_mem hn) h
  have hm := (List.map_inj_right fun x y hxy => UInt8.toNat_inj.mp hxy).mp hd
  exact eq_of_toList_eq (List.reverse_inj.mp hm)

theorem cmp_lt_iff (a b : Identifier) : a.cmp b = .lt ↔ a.toNat < b.toNat := by
  have h := compareFrom_bigEndian 0 a.bytes.toList b.bytes.toList (by simp)
  rw [toNat,toNat,← h.1,cmp,compare]
  cases (compareFrom 0 a.bytes.toList b.bytes.toList).1 <;> simp

theorem cmp_gt_iff (a b : Identifier) : a.cmp b = .gt ↔ b.toNat < a.toNat := by
  have h := compareFrom_bigEndian 0 a.bytes.toList b.bytes.toList (by simp)
  rw [toNat,toNat,← h.2,cmp,compare]
  cases (compareFrom 0 a.bytes.toList b.bytes.toList).1 <;> simp

instance : LT Identifier := ⟨fun a b => a.cmp b = .lt⟩
instance : LE Identifier := ⟨fun a b => a.cmp b ≠ .gt⟩

instance (a b : Identifier) : Decidable (a < b) := inferInstanceAs (Decidable (a.cmp b = .lt))
instance (a b : Identifier) : Decidable (a ≤ b) := inferInstanceAs (Decidable (a.cmp b ≠ .gt))

theorem lt_iff_toNat {a b : Identifier} : a < b ↔ a.toNat < b.toNat := cmp_lt_iff a b

theorem le_iff_toNat {a b : Identifier} : a ≤ b ↔ a.toNat ≤ b.toNat := by
  change a.cmp b ≠ .gt ↔ _
  rw [Ne,cmp_gt_iff,not_lt]

instance : LinearOrder Identifier where
  le_refl a := le_iff_toNat.mpr le_rfl
  le_trans a b c hab hbc := le_iff_toNat.mpr ((le_iff_toNat.mp hab).trans (le_iff_toNat.mp hbc))
  lt_iff_le_not_ge a b := by rw [lt_iff_toNat,le_iff_toNat,le_iff_toNat]; omega
  le_antisymm a b hab hba :=
    toNat_injective (le_antisymm (le_iff_toNat.mp hab) (le_iff_toNat.mp hba))
  le_total a b := by rw [le_iff_toNat,le_iff_toNat]; omega
  toDecidableLE := inferInstance
  toDecidableLT := inferInstance
  toDecidableEq := inferInstance

/-- `from_bytes` of one byte, padded with zeros from the left. -/
def ofByte (b : UInt8) : Identifier := ⟨Vector.ofFn fun i => if i.val + 1 = 32 then b else 0⟩

end Identifier

end SkipGraph
