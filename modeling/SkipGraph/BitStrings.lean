import SkipGraph.Codecs

/-!
# Bit strings of membership vectors

`to_bit_string` prints the bits that `common_prefix_bit` counts, and
`decompose_at_bit` cuts two vectors at the byte whose printed digits are the first
to differ.
-/

namespace SkipGraph

open CommonPrefix Hexadecimal

variable {ε : Type}

/-- The format `{:08b}`. -/
def binary08 (b : UInt8) : String := String.ofList ((Nat.toDigits 2 b.toNat).leftpad 8 '0')

/-- The loop of `to_bit_string` over the bytes from index `i` on. -/
def bitStringLoop (i : ℕ) (result : String) : List UInt8 → String
  | [] => result
  | b::bs =>
    let result := if i > 0 then result.push ' ' else result
    bitStringLoop (i+1) (result ++ binary08 b) bs

namespace MembershipVector

def toBitString (self : MembershipVector) : String := bitStringLoop 0 "" self.bytes.toList

/-- The hex digits left of the byte with the pivot bit, that byte in binary, and the
hex digits right of it; `none` where the source panics. -/
def decomposeAtBit (hex : Hex ε) (self : MembershipVector) (bitIndex : ℕ) :
    Option (String × String × String) := do
  let prefixByteIndex := bitIndex / 8
  let leftPrefix ← sliceTo self.bytes.toList prefixByteIndex
  if prefixByteIndex = identifierSizeBytes - 1 then
    let pivot ← self.bytes.toList[prefixByteIndex]?
    return (hex.encode leftPrefix,binary08 pivot,"")
  let pivot ← self.bytes.toList[prefixByteIndex]?
  let right ← sliceFrom self.bytes.toList (prefixByteIndex+1)
  return (hex.encode leftPrefix,binary08 pivot,hex.encode right)

end MembershipVector

def bitChar (x : Bool) : Char := if x then '1' else '0'

theorem bitChar_injective : Function.Injective bitChar := by decide

theorem binary08_toList (b : UInt8) : (binary08 b).toList = (byteBits b).map bitChar := by
  have h : ∀ n < 256, (Nat.toDigits 2 n).leftpad 8 '0' =
      [7,6,5,4,3,2,1,0].map fun i => bitChar (n.testBit i) := by decide +kernel
  simpa [binary08,byteBits] using h b.toNat b.toNat_lt

def withoutSpaces (s : String) : List Char := s.toList.filter (· ≠ ' ')

@[simp] theorem withoutSpaces_append (s t : String) :
    withoutSpaces (s++t) = withoutSpaces s ++ withoutSpaces t := by
  simp [withoutSpaces]

@[simp] theorem withoutSpaces_push_space (s : String) :
    withoutSpaces (s.push ' ') = withoutSpaces s := by
  simp [withoutSpaces]

@[simp] theorem withoutSpaces_binary08 (b : UInt8) :
    withoutSpaces (binary08 b) = (byteBits b).map bitChar := by
  rw [withoutSpaces,binary08_toList,List.filter_eq_self]
  intro c hc
  obtain ⟨x,-,rfl⟩ := List.mem_map.mp hc
  cases x <;> decide

theorem withoutSpaces_bitStringLoop (i : ℕ) (result : String) (bs : List UInt8) :
    withoutSpaces (bitStringLoop i result bs) =
      withoutSpaces result ++ (bs.flatMap byteBits).map bitChar := by
  induction bs generalizing i result with
  | nil => simp [bitStringLoop]
  | cons b bs ih =>
    rw [bitStringLoop,ih]
    split <;> simp

namespace MembershipVector

theorem withoutSpaces_toBitString (a : MembershipVector) :
    withoutSpaces a.toBitString = a.bits.map bitChar := by
  rw [toBitString,withoutSpaces_bitStringLoop,bits]
  simp [withoutSpaces]

theorem decomposeAtBit_eq {hex : Hex ε} (hd : hex.Documented) {a : MembershipVector}
    {left right : List UInt8} {pivot : UInt8} (h : a.bytes.toList = left ++ pivot::right) {i : ℕ}
    (hi : i / 8 = left.length) : a.decomposeAtBit hex i =
      some (hex.encode left,binary08 pivot,hex.encode right) := by
  have hl : left.length + right.length + 1 = identifierSizeBytes := by
    have hlen := a.bytes.length_toList
    rw [h] at hlen
    simpa [Nat.add_assoc] using hlen
  have hp : (left ++ pivot::right)[left.length]? = some pivot := by simp
  have hleft : sliceTo (left ++ pivot::right) left.length = some left := by simp [sliceTo]
  have hright : sliceFrom (left ++ pivot::right) (left.length+1) = some right := by
    simp [sliceFrom]
  simp only [decomposeAtBit,h,hi,hp,hleft,hright,Option.bind_eq_bind,Option.bind_some,
    Option.pure_def]
  split
  -- the special case of the last byte returns "" for the right part, which is the empty slice
  · have hr : right = [] := List.eq_nil_of_length_eq_zero (by omega)
    rw [hr,hd.encode_write [],write_nil]
  · rfl

-- the example of the documentation of `decompose_at_bit`
example : (fromString hexCrate
      "a738f14dc0750b7f7e4c418fdda32c424e9ecf7280892d14648e405466a76f29").toOption.bind
      (decomposeAtBit hexCrate · 40) =
    some ("a738f14dc0","01110101","0b7f7e4c418fdda32c424e9ecf7280892d14648e405466a76f29") := by
  decide +kernel

/-- Two different vectors part at a byte, and its digits part at a bit. -/
theorem exists_fork_byte {a b : MembershipVector} (hne : a ≠ b) :
    ∃ left x y as bs, a.bytes.toList = left ++ x::as ∧ b.bytes.toList = left ++ y::bs ∧ x ≠ y ∧
      a.commonPrefixBit b = 8 * left.length + sharedLength (byteBits x) (byteBits y) := by
  obtain ⟨left,x,y,as,bs,ha,hb,hxy⟩ := exists_fork
    (show a.bytes.toList.length = b.bytes.toList.length by simp) fun h => hne (eq_of_toList_eq h)
  refine ⟨left,x,y,as,bs,ha,hb,hxy,?_⟩
  -- the shared bytes are skipped whole, and the first differing byte decides
  rw [commonPrefixBit_eq,bits,bits,ha,hb,List.flatMap_append,List.flatMap_append,
    sharedLength_append_left,List.flatMap_cons,List.flatMap_cons,
    sharedLength_append_of_ne (by simp) (fun h => hxy (byteBits_injective h))]
  simp [Nat.mul_comm]

theorem exists_pivot (a : MembershipVector) {i : ℕ} (hi : i < 256) :
    ∃ left pivot right, a.bytes.toList = left ++ pivot::right ∧ i / 8 = left.length := by
  have hl : a.bytes.toList.length = 32 := a.bytes.length_toList
  have hk : i / 8 < a.bytes.toList.length := by omega
  refine ⟨a.bytes.toList.take (i / 8),a.bytes.toList[i / 8],a.bytes.toList.drop (i / 8 + 1),?_,?_⟩
  · rw [← List.drop_eq_getElem_cons hk,List.take_append_drop]
  · rw [List.length_take]
    omega

end MembershipVector

theorem binary08_fork {x y : UInt8} (hne : x ≠ y) :
    ∃ k < 8, sharedLength (byteBits x) (byteBits y) = k ∧
      (binary08 x).toList.take k = (binary08 y).toList.take k ∧
      ∃ c d, (binary08 x).toList[k]? = some c ∧ (binary08 y).toList[k]? = some d ∧ c ≠ d := by
  obtain ⟨p,c,d,xs,ys,hx,hy,hcd⟩ := exists_fork
    (show (byteBits x).length = (byteBits y).length by simp) fun h => hne (byteBits_injective h)
  have hlen := byteBits_length x
  refine ⟨p.length,?_,?_,?_,bitChar c,bitChar d,?_,?_,fun h => hcd (bitChar_injective h)⟩
  · rw [hx,List.length_append,List.length_cons] at hlen
    omega
  · rw [hx,hy,sharedLength_fork p xs ys hcd]
  · rw [binary08_toList,binary08_toList,hx,hy]
    simp
  · rw [binary08_toList,hx]
    simp
  · rw [binary08_toList,hy]
    simp

/-- The three routines read the same bits. -/
theorem bit_routines_agree (hex : Hex ε) (hd : hex.Documented) :
    (∀ a b : MembershipVector,
      IsGreatest {n | ∃ p, p <+: withoutSpaces a.toBitString ∧ p <+: withoutSpaces b.toBitString ∧
        p.length = n} (a.commonPrefixBit b) ∧
      a.commonPrefixBit b = b.commonPrefixBit a ∧
      (a.commonPrefixBit b = 256 ↔ a = b)) ∧
    (∀ a b : MembershipVector, a ≠ b → ∃ left pa ra pb rb,
      a.decomposeAtBit hex (a.commonPrefixBit b) = some (left,pa,ra) ∧
      b.decomposeAtBit hex (a.commonPrefixBit b) = some (left,pb,rb) ∧
      pa.toList.take (a.commonPrefixBit b % 8) = pb.toList.take (a.commonPrefixBit b % 8) ∧
      ∃ c d, pa.toList[a.commonPrefixBit b % 8]? = some c ∧
        pb.toList[a.commonPrefixBit b % 8]? = some d ∧ c ≠ d) ∧
    (∀ (a : MembershipVector) (i : ℕ), i < 256 → ∃ left pivot right,
      a.bytes.toList[i / 8]? = some pivot ∧
      a.decomposeAtBit hex i = some (left,binary08 pivot,right) ∧
      left ++ hex.encode [pivot] ++ right = a.display hex) := by
  refine ⟨?_,?_,?_⟩
  · intro a b
    refine ⟨?_,a.commonPrefixBit_comm b,a.commonPrefixBit_eq_256_iff b⟩
    have hs : a.commonPrefixBit b =
        sharedLength (withoutSpaces a.toBitString) (withoutSpaces b.toBitString) := by
      rw [a.withoutSpaces_toBitString,b.withoutSpaces_toBitString,
        sharedLength_map bitChar_injective,a.commonPrefixBit_eq]
    rw [hs]
    exact isGreatest_sharedLength _ _
  · intro a b hne
    obtain ⟨left,x,y,as,bs,ha,hb,hxy,hcpb⟩ := MembershipVector.exists_fork_byte hne
    obtain ⟨k,hk,hxyk,htake,hfork⟩ := binary08_fork hxy
    have hdiv : a.commonPrefixBit b / 8 = left.length := by omega
    have hmod : a.commonPrefixBit b % 8 = k := by omega
    rw [hmod]
    exact ⟨hex.encode left,binary08 x,hex.encode as,binary08 y,hex.encode bs,
      MembershipVector.decomposeAtBit_eq hd ha hdiv,
      MembershipVector.decomposeAtBit_eq hd hb hdiv,htake,hfork⟩
  · intro a i hi
    obtain ⟨left,pivot,right,ha,hdiv⟩ := a.exists_pivot hi
    refine ⟨hex.encode left,pivot,hex.encode right,?_,
      MembershipVector.decomposeAtBit_eq hd ha hdiv,?_⟩
    · rw [ha,hdiv]
      simp
    · apply String.toList_inj.mp
      simp [MembershipVector.display,hd.encode_write,ha]

/-- Vectors that part at the last bit of the last byte. -/
theorem bit_routines_last_bit :
    let a : MembershipVector := ⟨Vector.replicate 32 0⟩
    let b : MembershipVector := ⟨(Vector.replicate 32 0).set 31 1⟩
    hexCrate.Documented ∧ a ≠ b ∧ a.commonPrefixBit b = 255 ∧ ∃ left pa ra pb rb,
      a.decomposeAtBit hexCrate (a.commonPrefixBit b) = some (left,pa,ra) ∧
      b.decomposeAtBit hexCrate (a.commonPrefixBit b) = some (left,pb,rb) := by
  intro a b
  have hne : a ≠ b := by decide
  obtain ⟨left,pa,ra,pb,rb,ha,hb,-⟩ :=
    (bit_routines_agree hexCrate hexCrate_documented).2.1 a b hne
  exact ⟨hexCrate_documented,hne,by decide,left,pa,ra,pb,rb,ha,hb⟩

end SkipGraph
