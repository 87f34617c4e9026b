import SkipGraph.MembershipVector
import SkipGraph.Hexadecimal

/-!
# Reading and printing identifiers and membership vectors

Both types are read from hexadecimal text of at most 32 bytes, padded with zeros
from the left, and printed with all their bytes. The hex crate is a parameter, of
which `Hex.Documented` is assumed.
-/

namespace SkipGraph

open Hexadecimal

variable {ε : Type}

/-- The hex crate, with its own errors. -/
structure Hex (ε : Type) where
  encode : List UInt8 → String
  decode : String → Except ε (List UInt8)

/-- What the crate documents: `encode` writes lower-case digits, `decode` reads the
texts of whole bytes in either case and refuses every other string. -/
structure Hex.Documented (hex : Hex ε) : Prop where
  encode_eq : ∀ bs, hex.encode bs = hexEncode bs
  decode_ok : ∀ s, IsText s.toList → hex.decode s = .ok (read s.toList)
  decode_error : ∀ s, ¬ IsText s.toList → ∃ e, hex.decode s = .error e

theorem Hex.Documented.encode_write {hex : Hex ε} (hd : hex.Documented) (bs : List UInt8) :
    hex.encode bs = String.ofList (write bs) := hd.encode_eq bs

/-- The `anyhow` errors of the codecs: a message, an error of the hex crate, and
such an error under a context. -/
inductive CodecError (ε : Type)
  | message (text : String)
  | hex (e : ε)
  | context (text : String) (e : ε)
  deriving DecidableEq, Repr

/-- `&bs[..n]`, with `none` for the panic of a bound out of range. -/
def sliceTo (bs : List UInt8) (n : ℕ) : Option (List UInt8) :=
  if n ≤ bs.length then some (bs.take n) else none

def sliceFrom (bs : List UInt8) (n : ℕ) : Option (List UInt8) :=
  if n ≤ bs.length then some (bs.drop n) else none

/-- `from_bytes` of both types; `what` begins the message of a refusal. -/
def padBytes (what : String) (bytes : List UInt8) :
    Except String (Vector UInt8 identifierSizeBytes) :=
  if h : bytes.length > identifierSizeBytes then
    .error (what ++ s!" size is too large, expected {identifierSizeBytes} bytes, " ++
      s!"got {bytes.length} bytes")
  else
    let offset := identifierSizeBytes - bytes.length
    .ok ⟨(List.replicate offset 0 ++ bytes).toArray,by simp [offset]; omega⟩

theorem padBytes_eq_ok (what : String) (bytes : List UInt8)
    (v : Vector UInt8 identifierSizeBytes) : padBytes what bytes = .ok v ↔
      bytes.length ≤ identifierSizeBytes ∧ v.toList = bytes.leftpad identifierSizeBytes 0 := by
  unfold padBytes
  split
  · rename_i h
    simp [Nat.not_le.mpr h]
  · rename_i h
    simp only [Except.ok.injEq,← Vector.toList_inj]
    simp [Nat.not_lt.mp h,List.leftpad,eq_comm]

theorem map_padBytes_eq_ok {α : Type} {mk : Vector UInt8 identifierSizeBytes → α}
    (hmk : Function.Injective mk) (what : String) (bytes : List UInt8)
    (v : Vector UInt8 identifierSizeBytes) : (padBytes what bytes).map mk = .ok (mk v) ↔
      bytes.length ≤ identifierSizeBytes ∧ v.toList = bytes.leftpad identifierSizeBytes 0 := by
  rw [← padBytes_eq_ok what]
  cases padBytes what bytes <;> simp [Except.map,hmk.eq_iff]

theorem exists_leftpad (bytes : List UInt8) (h : bytes.length ≤ identifierSizeBytes) :
    ∃ v : Vector UInt8 identifierSizeBytes, v.toList = bytes.leftpad identifierSizeBytes 0 :=
  ⟨⟨(bytes.leftpad identifierSizeBytes 0).toArray,by simp; omega⟩,by simp⟩

namespace Identifier

def fromBytes (bytes : List UInt8) : Except String Identifier :=
  (padBytes "identifier" bytes).map Identifier.mk

def fromString (hex : Hex ε) (s : String) : Except (CodecError ε) Identifier := do
  let decoded ← (hex.decode s).mapError .hex
  (fromBytes decoded).mapError .message

/-- `Display`, and with it `to_string`. -/
def display (hex : Hex ε) (self : Identifier) : String := hex.encode self.bytes.toList

theorem display_eq_toString {hex : Hex ε} (hd : hex.Documented) (a : Identifier) :
    a.display hex = toString a := hd.encode_eq _

theorem fromBytes_eq_ok (bytes : List UInt8) (a : Identifier) : fromBytes bytes = .ok a ↔
    bytes.length ≤ identifierSizeBytes ∧
      a.bytes.toList = bytes.leftpad identifierSizeBytes 0 :=
  map_padBytes_eq_ok (fun _ _ => Identifier.mk.inj) "identifier" bytes a.bytes

/-- The identifiers of the concrete systems come from `from_bytes`. -/
theorem fromBytes_singleton (b : UInt8) : fromBytes [b] = .ok (ofByte b) := by
  have hs : identifierSizeBytes = 32 := rfl
  refine (fromBytes_eq_ok [b] (ofByte b)).mpr ⟨by simp [hs],?_⟩
  rw [List.leftpad,List.length_singleton]
  apply List.ext_getElem
  · simp [hs]
  · intro i hi hi'
    have hlt : i < identifierSizeBytes := by simpa using hi
    by_cases he : i = 31
    · rw [List.getElem_append_right (by simp; omega)]
      simp [ofByte,he]
    · rw [List.getElem_append_left (by simp; omega)]
      simp [ofByte,he]

end Identifier

namespace MembershipVector

def fromBytes (bytes : List UInt8) : Except String MembershipVector :=
  (padBytes "membership vector" bytes).map MembershipVector.mk

def fromString (hex : Hex ε) (s : String) : Except (CodecError ε) MembershipVector := do
  let bytes ← (hex.decode s).mapError (.context "failed to decode hex string")
  (fromBytes bytes).mapError .message

def display (hex : Hex ε) (self : MembershipVector) : String := hex.encode self.bytes.toList

theorem fromBytes_eq_ok (bytes : List UInt8) (v : MembershipVector) : fromBytes bytes = .ok v ↔
    bytes.length ≤ identifierSizeBytes ∧
      v.bytes.toList = bytes.leftpad identifierSizeBytes 0 :=
  map_padBytes_eq_ok (fun _ _ => MembershipVector.mk.inj) "membership vector" bytes v.bytes

end MembershipVector

/-- The bytes a text stands for: its own, after as many zeros as are missing. -/
def Denotes (s : String) (bytes : Vector UInt8 identifierSizeBytes) : Prop :=
  IsText s.toList ∧ s.length ≤ 2 * identifierSizeBytes ∧
    bytes.toList = (read s.toList).leftpad identifierSizeBytes 0

theorem denotes_iff {s : String} {bytes : Vector UInt8 identifierSizeBytes} :
    Denotes s bytes ↔ IsText s.toList ∧ (read s.toList).length ≤ identifierSizeBytes ∧
      bytes.toList = (read s.toList).leftpad identifierSizeBytes 0 := by
  refine and_congr_right fun h => and_congr_left' ?_
  rw [← String.length_toList,← length_read h]
  omega

theorem Hex.Documented.bind_eq_ok {hex : Hex ε} (hd : hex.Documented) {α : Type}
    (wrap : ε → CodecError ε) (fromBytes : List UInt8 → Except String α) (s : String) (a : α) :
    ((hex.decode s).mapError wrap >>= fun bytes => (fromBytes bytes).mapError .message) = .ok a ↔
      IsText s.toList ∧ fromBytes (read s.toList) = .ok a := by
  by_cases ht : IsText s.toList
  · cases hf : fromBytes (read s.toList) <;>
      simp [ht,hd.decode_ok s ht,hf,Except.mapError,bind,Except.bind]
  · obtain ⟨e,he⟩ := hd.decode_error s ht
    simp [ht,he,Except.mapError,bind,Except.bind]

theorem Identifier.fromString_eq_ok {hex : Hex ε} (hd : hex.Documented) (s : String)
    (a : Identifier) : Identifier.fromString hex s = .ok a ↔ Denotes s a.bytes := by
  rw [denotes_iff,← Identifier.fromBytes_eq_ok]
  exact hd.bind_eq_ok .hex Identifier.fromBytes s a

theorem MembershipVector.fromString_eq_ok {hex : Hex ε} (hd : hex.Documented) (s : String)
    (v : MembershipVector) : MembershipVector.fromString hex s = .ok v ↔ Denotes s v.bytes := by
  rw [denotes_iff,← MembershipVector.fromBytes_eq_ok]
  exact hd.bind_eq_ok (.context "failed to decode hex string") MembershipVector.fromBytes s v

theorem exists_denotes (s : String) :
    (∃ bytes, Denotes s bytes) ↔ IsText s.toList ∧ s.length ≤ 2 * identifierSizeBytes := by
  refine ⟨fun ⟨_,ht,hl,_⟩ => ⟨ht,hl⟩,fun ⟨ht,hl⟩ => ?_⟩
  have hr : (read s.toList).length ≤ identifierSizeBytes := by
    rw [← String.length_toList,← length_read ht] at hl
    omega
  obtain ⟨bytes,hb⟩ := exists_leftpad (read s.toList) hr
  exact ⟨bytes,ht,hl,hb⟩

theorem Denotes.encode_eq {hex : Hex ε} (hd : hex.Documented) {s : String}
    {bytes : Vector UInt8 identifierSizeBytes} (h : Denotes s bytes) : hex.encode bytes.toList =
      String.ofList ((s.toList.map Char.toLower).leftpad (2 * identifierSizeBytes) '0') := by
  obtain ⟨ht,-,hb⟩ := h
  have hl := length_read ht
  rw [hd.encode_write,hb,List.leftpad,write_append,write_replicate_zero,write_read ht,List.leftpad,
    List.length_map,← hl,Nat.mul_sub]

theorem denotes_encode {hex : Hex ε} (hd : hex.Documented)
    (bytes : Vector UInt8 identifierSizeBytes) : Denotes (hex.encode bytes.toList) bytes := by
  rw [hd.encode_write]
  refine ⟨?_,?_,?_⟩
  · simpa using isText_write bytes.toList
  · simp [← String.length_toList]
  · simp [read_write,List.leftpad]

theorem bigEndian_leftpad (n : ℕ) (bs : List UInt8) :
    bigEndian (bs.leftpad n 0) = bigEndian bs := by
  simp [bigEndian,List.leftpad,Nat.ofDigits_append_replicate_zero]

theorem Denotes.bigEndian_eq {s : String} {bytes : Vector UInt8 identifierSizeBytes}
    (h : Denotes s bytes) : bigEndian bytes.toList = number s.toList := by
  obtain ⟨ht,-,hb⟩ := h
  rw [hb,bigEndian_leftpad]
  exact ofDigits_read ht

theorem Denotes.eq_iff {s t : String} {as bs : Vector UInt8 identifierSizeBytes}
    (ha : Denotes s as) (hb : Denotes t bs) : as = bs ↔ number s.toList = number t.toList := by
  rw [← ha.bigEndian_eq,← hb.bigEndian_eq]
  refine ⟨fun h => by rw [h],fun h => ?_⟩
  have he : Identifier.mk as = Identifier.mk bs := Identifier.toNat_injective h
  exact congrArg Identifier.bytes he

/-- Both codecs accept the same texts, agree on their bytes, print them back in
lower case with leading zeros, and identify texts of one number only. -/
theorem hex_codecs_exact (hex : Hex ε) (hd : hex.Documented) :
    (∀ s : String,
      ((∃ a, Identifier.fromString hex s = .ok a) ↔
        ∃ v, MembershipVector.fromString hex s = .ok v) ∧
      ((∃ v, MembershipVector.fromString hex s = .ok v) ↔
        Even s.length ∧ s.length ≤ 64 ∧ ∀ c ∈ s.toList, c ∈ digits) ∧
      ∀ a v, Identifier.fromString hex s = .ok a → MembershipVector.fromString hex s = .ok v →
        a.bytes = v.bytes ∧
        a.display hex = String.ofList ((s.toList.map Char.toLower).leftpad 64 '0') ∧
        v.display hex = String.ofList ((s.toList.map Char.toLower).leftpad 64 '0')) ∧
    (∀ a : Identifier, Identifier.fromString hex (a.display hex) = .ok a) ∧
    (∀ v : MembershipVector, MembershipVector.fromString hex (v.display hex) = .ok v) ∧
    (∀ s t a b, Identifier.fromString hex s = .ok a → Identifier.fromString hex t = .ok b →
      (a = b ↔ number s.toList = number t.toList)) ∧
    (∀ s t v w, MembershipVector.fromString hex s = .ok v →
      MembershipVector.fromString hex t = .ok w →
      (v = w ↔ number s.toList = number t.toList)) := by
  simp only [Identifier.fromString_eq_ok hd,MembershipVector.fromString_eq_ok hd]
  refine ⟨fun s => ⟨?_,?_,?_⟩,?_,?_,?_,?_⟩
  · exact ⟨fun ⟨a,h⟩ => ⟨⟨a.bytes⟩,h⟩,fun ⟨v,h⟩ => ⟨⟨v.bytes⟩,h⟩⟩
  · have hs : (∃ v : MembershipVector, Denotes s v.bytes) ↔ ∃ bytes, Denotes s bytes :=
      ⟨fun ⟨v,h⟩ => ⟨v.bytes,h⟩,fun ⟨bytes,h⟩ => ⟨⟨bytes⟩,h⟩⟩
    rw [hs,exists_denotes,IsText,String.length_toList]
    exact and_right_comm.trans and_assoc
  · intro a v ha hv
    exact ⟨(ha.eq_iff hv).mpr rfl,ha.encode_eq hd,hv.encode_eq hd⟩
  · intro a
    exact denotes_encode hd a.bytes
  · intro v
    exact denotes_encode hd v.bytes
  · intro s t a b ha hb
    rw [← ha.eq_iff hb]
    cases a; cases b
    simp
  · intro s t v w hv hw
    rw [← hv.eq_iff hw]
    cases v; cases w
    simp

inductive FromHexError
  | oddLength
  | invalidHexCharacter (c : Char) (index : ℕ)
  deriving DecidableEq, Repr

def firstInvalid (i : ℕ) : List Char → Option (Char × ℕ)
  | [] => none
  | c::cs => if c ∈ digits then firstInvalid (i+1) cs else some (c,i)

theorem firstInvalid_eq_none (i : ℕ) (cs : List Char) :
    firstInvalid i cs = none ↔ ∀ c ∈ cs, c ∈ digits := by
  induction cs generalizing i with
  | nil => simp [firstInvalid]
  | cons c cs ih =>
    by_cases hc : c ∈ digits
    · simp [firstInvalid,hc,ih]
    · simp [firstInvalid,hc]

/-- The crate as it behaves on ASCII strings: an odd length is reported first. -/
def hexCrate : Hex FromHexError where
  encode := hexEncode
  decode s :=
    if s.length % 2 ≠ 0 then .error .oddLength
    else
      match firstInvalid 0 s.toList with
      | some (c,i) => .error (.invalidHexCharacter c i)
      | none => .ok (read s.toList)

theorem hexCrate_documented : hexCrate.Documented where
  encode_eq _ := rfl
  decode_ok s ht := by
    have he : s.length % 2 = 0 := by
      simpa [Nat.even_iff,String.length_toList] using ht.1
    simp [hexCrate,he,(firstInvalid_eq_none 0 s.toList).mpr ht.2]
  decode_error s ht := by
    by_cases he : s.length % 2 = 0
    · cases hf : firstInvalid 0 s.toList with
      | none =>
        have hd := (firstInvalid_eq_none 0 s.toList).mp hf
        have hl : Even s.toList.length := by simpa [Nat.even_iff,String.length_toList] using he
        exact absurd ⟨hl,hd⟩ ht
      | some ci => exact ⟨.invalidHexCharacter ci.1 ci.2,by simp [hexCrate,he,hf]⟩
    · exact ⟨.oddLength,by simp [hexCrate,he]⟩

/-- A short text in mixed case, read by both codecs and printed by the first. -/
theorem hex_codecs_mixed_case :
    hexCrate.Documented ∧ ∃ a v, Identifier.fromString hexCrate "1aF0" = .ok a ∧
      MembershipVector.fromString hexCrate "1aF0" = .ok v ∧ a.bytes = v.bytes ∧
      a.display hexCrate = String.ofList (['1','a','f','0'].leftpad 64 '0') := by
  obtain ⟨hiff,htext,hboth⟩ := (hex_codecs_exact hexCrate hexCrate_documented).1 "1aF0"
  have ht : IsText "1aF0".toList := by decide
  obtain ⟨v,hv⟩ := htext.mpr ⟨ht.1,by decide,ht.2⟩
  obtain ⟨a,ha⟩ := hiff.mpr ⟨v,hv⟩
  obtain ⟨hb,hs,-⟩ := hboth a v ha hv
  exact ⟨hexCrate_documented,a,v,ha,hv,hb,hs.trans (by decide)⟩

end SkipGraph
