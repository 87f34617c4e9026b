import SkipGraph.Identifier
import SkipGraph.CommonPrefix
import Mathlib.Data.Nat.Bitwise
import Mathlib.Tactic

/-!
# Membership vectors

`commonPrefixBit` walks two vectors byte by byte and, inside the first differing
byte, bit by bit. `commonPrefixBit_eq` identifies it with the length of the common
prefix of the two 256-bit strings.
-/

namespace SkipGraph

open CommonPrefix

structure MembershipVector where
  bytes : Vector UInt8 identifierSizeBytes
  deriving DecidableEq, Repr

/-- The inner loop over the bits of a nonzero XOR: `.inl` is the early return at
the first set bit, `.inr` the count carried on after the loop. -/
def bitLoop (xor : UInt8) (commonBits : ℕ) : List UInt8 → ℕ ⊕ ℕ
  | [] => .inr commonBits
  | i::is => if xor &&& (1 <<< i) ≠ 0 then .inl commonBits else bitLoop xor (commonBits+1) is

/-- The outer loop over the bytes of both vectors. -/
def byteLoop (commonBits : ℕ) : List (UInt8 × UInt8) → ℕ
  | [] => commonBits
  | (a,b)::rest =>
    let xor := a ^^^ b
    if xor = 0 then byteLoop (commonBits+8) rest
    else
      match bitLoop xor commonBits [7,6,5,4,3,2,1,0] with
      | .inl result => result
      | .inr commonBits => byteLoop commonBits rest

namespace MembershipVector

/-- The number of leading bits two membership vectors share. -/
def commonPrefixBit (self other : MembershipVector) : ℕ :=
  byteLoop 0 (self.bytes.toList.zip other.bytes.toList)

end MembershipVector

/-- The bits of a byte, most significant first. -/
def byteBits (b : UInt8) : List Bool := [7,6,5,4,3,2,1,0].map b.toNat.testBit

@[simp] theorem byteBits_length (b : UInt8) : (byteBits b).length = 8 := rfl

theorem mask_ne_zero (b : UInt8) {i : ℕ} (hi : i < 8) :
    b &&& (1 <<< UInt8.ofNat i) ≠ 0 ↔ b.toNat.testBit i = true := by
  rw [Ne,← UInt8.toNat_inj]
  have hs : (1 : ℕ) <<< i % 256 = 2^i := by interval_cases i <;> rfl
  have ht : ((1 : UInt8) <<< UInt8.ofNat i).toNat = 2^i := by
    rw [UInt8.toNat_shiftLeft]
    simpa [Nat.mod_eq_of_lt hi,Nat.mod_eq_of_lt (hi.trans (by norm_num : 8 < 256))] using hs
  rw [UInt8.toNat_and,ht,Nat.and_two_pow]
  cases b.toNat.testBit i <;> simp

theorem byteBits_injective : Function.Injective byteBits := by
  intro a b h
  apply UInt8.toNat_inj.mp
  apply Nat.eq_of_testBit_eq
  intro i
  by_cases hi : i < 8
  · simp only [byteBits,List.map_cons,List.map_nil,List.cons.injEq,and_true] at h
    interval_cases i <;> tauto
  · have hp : 2^8 ≤ 2^i := Nat.pow_le_pow_right (by norm_num) (by omega)
    rw [Nat.testBit_eq_false_of_lt (a.toNat_lt_size.trans_le hp),
      Nat.testBit_eq_false_of_lt (b.toNat_lt_size.trans_le hp)]

theorem byteBits_ofNat : ∀ a b c d e f g h : Bool,
    byteBits (UInt8.ofNat ([a,b,c,d,e,f,g,h].foldl (fun n x => 2*n + x.toNat) 0)) =
      [a,b,c,d,e,f,g,h] := by
  decide +kernel

theorem byteBits_surjective : ∀ w : List Bool, w.length = 8 → ∃ b, byteBits b = w
  | [a,b,c,d,e,f,g,h], _ => ⟨_,byteBits_ofNat a b c d e f g h⟩

theorem flatMap_byteBits_inj {as bs : List UInt8} (hlen : as.length = bs.length)
    (h : as.flatMap byteBits = bs.flatMap byteBits) : as = bs := by
  induction as generalizing bs with
  | nil => cases bs <;> simp_all
  | cons a as ih =>
    cases bs with
    | nil => simp at hlen
    | cons b bs =>
      rw [List.flatMap_cons,List.flatMap_cons] at h
      obtain ⟨hb,hr⟩ := List.append_inj h (by simp)
      rw [byteBits_injective hb,ih (by simpa using hlen) hr]

theorem exists_flatMap_byteBits (n : ℕ) (w : List Bool) (hw : w.length = 8*n) :
    ∃ bs : List UInt8, bs.length = n ∧ bs.flatMap byteBits = w := by
  induction n generalizing w with
  | zero => exact ⟨[],rfl,(List.eq_nil_of_length_eq_zero hw).symm⟩
  | succ n ih =>
    obtain ⟨b,hb⟩ := byteBits_surjective (w.take 8) (by simp; omega)
    obtain ⟨bs,hl,hbs⟩ := ih (w.drop 8) (by simp; omega)
    exact ⟨b::bs,by simp [hl],by simp [hb,hbs]⟩

/-- On a nonzero XOR the inner loop returns early, at the first differing bit. -/
theorem bitLoop_xor (a b : UInt8) (n : ℕ) (hne : a ≠ b) :
    bitLoop (a ^^^ b) n [7,6,5,4,3,2,1,0] = .inl (n + sharedLength (byteBits a) (byteBits b)) := by
  have hbits : byteBits a ≠ byteBits b := fun h => hne (byteBits_injective h)
  have hm : ∀ i < 8, (a ^^^ b) &&& (1 <<< UInt8.ofNat i) ≠ 0 ↔
      a.toNat.testBit i ≠ b.toNat.testBit i := by
    intro i hi
    rw [mask_ne_zero _ hi,UInt8.toNat_xor,Nat.testBit_xor]
    cases a.toNat.testBit i <;> cases b.toNat.testBit i <;> simp
  have loop : ∀ (is : List ℕ) (n : ℕ), (∀ i ∈ is, i < 8) →
      is.map a.toNat.testBit ≠ is.map b.toNat.testBit →
      bitLoop (a ^^^ b) n (is.map UInt8.ofNat) =
        .inl (n + sharedLength (is.map a.toNat.testBit) (is.map b.toNat.testBit)) := by
    intro is
    induction is with
    | nil => simp
    | cons i is ih =>
      intro n hlt hd
      simp only [List.map_cons,bitLoop,hm i (hlt i (by simp)),sharedLength]
      by_cases he : a.toNat.testBit i = b.toNat.testBit i
      · have hh := ih (n+1) (fun j hj => hlt j (by simp [hj])) (by simpa [he] using hd)
        simp only [he,ne_eq,not_true_eq_false,if_false,if_true,hh]
        congr 1
        omega
      · simp [he]
  exact loop [7,6,5,4,3,2,1,0] n (by simp) hbits

theorem byteLoop_eq (n : ℕ) (as bs : List UInt8) (hlen : as.length = bs.length) :
    byteLoop n (as.zip bs) = n + sharedLength (as.flatMap byteBits) (bs.flatMap byteBits) := by
  induction as generalizing bs n with
  | nil => simp [byteLoop,sharedLength]
  | cons a as ih =>
    cases bs with
    | nil => simp at hlen
    | cons b bs =>
      have hl : as.length = bs.length := by simpa using hlen
      simp only [List.zip_cons_cons,byteLoop,List.flatMap_cons]
      by_cases he : a = b
      · subst he
        simp only [UInt8.xor_self,if_true,ih _ bs hl,sharedLength_append_left,byteBits_length]
        omega
      · have hx : a ^^^ b ≠ 0 := by simpa using he
        rw [if_neg hx,bitLoop_xor a b n he]
        rw [sharedLength_append_of_ne (by simp) (fun h => he (byteBits_injective h))]

namespace MembershipVector

/-- The 256 bits of a membership vector. -/
def bits (a : MembershipVector) : List Bool := a.bytes.toList.flatMap byteBits

@[simp] theorem bits_length (a : MembershipVector) : a.bits.length = 256 := by
  have hl : a.bytes.toList.length = 32 := a.bytes.length_toList
  simp [bits,hl]

theorem eq_of_toList_eq {a b : MembershipVector} (h : a.bytes.toList = b.bytes.toList) :
    a = b := by
  cases a; cases b
  simpa using Vector.toList_inj.mp h

theorem bits_injective : Function.Injective bits :=
  fun _ _ h => eq_of_toList_eq (flatMap_byteBits_inj (by simp) h)

theorem bits_surjective (w : List Bool) (hw : w.length = 256) :
    ∃ a : MembershipVector, a.bits = w := by
  obtain ⟨bs,hl,hb⟩ := exists_flatMap_byteBits identifierSizeBytes w hw
  exact ⟨⟨⟨bs.toArray,by simpa using hl⟩⟩,by simpa [bits] using hb⟩

theorem commonPrefixBit_eq (a b : MembershipVector) :
    a.commonPrefixBit b = sharedLength a.bits b.bits := by
  simpa [commonPrefixBit,bits] using byteLoop_eq 0 a.bytes.toList b.bytes.toList (by simp)

theorem commonPrefixBit_comm (a b : MembershipVector) :
    a.commonPrefixBit b = b.commonPrefixBit a := by
  rw [commonPrefixBit_eq,commonPrefixBit_eq,sharedLength_comm]

theorem le_commonPrefixBit_iff {l : ℕ} (hl : l ≤ 256) (a b : MembershipVector) :
    l ≤ a.commonPrefixBit b ↔ a.bits.take l = b.bits.take l := by
  simp [commonPrefixBit_eq,le_sharedLength_iff,hl]

theorem commonPrefixBit_eq_256_iff (a b : MembershipVector) :
    a.commonPrefixBit b = 256 ↔ a = b := by
  have h := sharedLength_eq_length_iff (show a.bits.length = b.bits.length by simp)
  rw [commonPrefixBit_eq,← bits_injective.eq_iff,← h,bits_length]

theorem le_commonPrefixBit_trans {l : ℕ} {a b c : MembershipVector}
    (h : l ≤ a.commonPrefixBit b) (h' : l ≤ b.commonPrefixBit c) : l ≤ a.commonPrefixBit c := by
  rw [commonPrefixBit_eq] at *
  exact le_sharedLength_trans h h'

end MembershipVector

end SkipGraph
