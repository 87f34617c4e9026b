import Mathlib.Data.Nat.Digits.Defs

/-!
# Hexadecimal text

Two digits a byte, the more significant one first. Reading what was written gives
the bytes back, and writing what was read gives the text back in lower case.
-/

namespace Hexadecimal

/-- The characters `[0-9a-fA-F]`. -/
def digits : List Char :=
  ['0','1','2','3','4','5','6','7','8','9','a','b','c','d','e','f','A','B','C','D','E','F']

def value (c : Char) : ℕ :=
  if c.isDigit then c.toNat - '0'.toNat
  else if c.isLower then c.toNat - 'a'.toNat + 10
  else c.toNat - 'A'.toNat + 10

/-- Whole bytes, written with hexadecimal digits only. -/
def IsText (cs : List Char) : Prop := Even cs.length ∧ ∀ c ∈ cs, c ∈ digits

instance (cs : List Char) : Decidable (IsText cs) :=
  decidable_of_iff (Even cs.length ∧ cs.all (· ∈ digits) = true) (by simp [IsText])

/-- The digits of a byte string, in lower case. -/
def write (bs : List UInt8) : List Char :=
  bs.flatMap fun b => [Nat.digitChar (b.toNat / 16),Nat.digitChar (b.toNat % 16)]

/-- The bytes of a text, pair by pair. -/
def read : List Char → List UInt8
  | a::b::cs => UInt8.ofNat (16 * value a + value b) :: read cs
  | _ => []

def number (cs : List Char) : ℕ := Nat.ofDigits 16 (cs.reverse.map value)

-- `List.all` keeps the check to the 22 digits; over `∀ c ∈ digits` it runs through all characters.
theorem value_spec (c : Char) (hc : c ∈ digits) :
    value c < 16 ∧ Nat.digitChar (value c) = c.toLower := by
  have h : digits.all (fun c => value c < 16 ∧ Nat.digitChar (value c) = c.toLower) = true := by
    decide
  simpa using List.all_eq_true.mp h c hc

theorem value_lt {c : Char} (hc : c ∈ digits) : value c < 16 := (value_spec c hc).1

theorem digitChar_value {c : Char} (hc : c ∈ digits) : Nat.digitChar (value c) = c.toLower :=
  (value_spec c hc).2

theorem value_digitChar : ∀ n < 16, value (Nat.digitChar n) = n := by decide

theorem digitChar_mem_digits : ∀ n < 16, Nat.digitChar n ∈ digits := by decide

@[simp] theorem write_nil : write [] = [] := rfl

@[simp] theorem write_cons (b : UInt8) (bs : List UInt8) : write (b::bs) =
    Nat.digitChar (b.toNat / 16)::Nat.digitChar (b.toNat % 16)::write bs := rfl

@[simp] theorem write_append (as bs : List UInt8) : write (as++bs) = write as ++ write bs := by
  simp [write]

@[simp] theorem length_write (bs : List UInt8) : (write bs).length = 2 * bs.length := by
  induction bs with
  | nil => simp
  | cons b bs ih => simp [ih]; omega

theorem write_replicate_zero (n : ℕ) :
    write (List.replicate n 0) = List.replicate (2 * n) '0' := by
  induction n with
  | zero => simp
  | succ n ih => simp [List.replicate_succ,Nat.mul_succ,ih,Nat.digitChar]

theorem isText_write (bs : List UInt8) : IsText (write bs) := by
  refine ⟨by simp,?_⟩
  induction bs with
  | nil => simp
  | cons b bs ih =>
    have hb := b.toNat_lt
    intro c hc
    simp only [write_cons,List.mem_cons] at hc
    rcases hc with rfl | rfl | hc
    · exact digitChar_mem_digits _ (by omega)
    · exact digitChar_mem_digits _ (by omega)
    · exact ih c hc

/-- Texts are built two digits at a time. -/
theorem IsText.induct {motive : (cs : List Char) → IsText cs → Prop} (nil : ∀ h, motive [] h)
    (cons : ∀ a b cs, a ∈ digits → b ∈ digits → ∀ hcs h, motive cs hcs → motive (a::b::cs) h) :
    ∀ {cs : List Char} (h : IsText cs), motive cs h
  | [], h => nil h
  | [a], h => by simp [IsText] at h
  | a::b::cs, h => by
    have hd := h.2
    have hcs : IsText cs := by
      refine ⟨?_,fun c hc => hd c (by simp [hc])⟩
      simpa [Nat.even_add_one] using h.1
    exact cons a b cs (hd a (by simp)) (hd b (by simp)) hcs h (induct nil cons hcs)

theorem read_write (bs : List UInt8) : read (write bs) = bs := by
  induction bs with
  | nil => simp [read]
  | cons b bs ih =>
    have hb := b.toNat_lt
    have hv : 16 * (b.toNat / 16) + b.toNat % 16 = b.toNat := Nat.div_add_mod _ _
    rw [write_cons,read,value_digitChar _ (by omega),value_digitChar _ (by omega),hv,ih]
    simp

theorem toNat_pair {a b : Char} (ha : a ∈ digits) (hb : b ∈ digits) :
    (UInt8.ofNat (16 * value a + value b)).toNat = 16 * value a + value b := by
  have hx := value_lt ha
  have hy := value_lt hb
  simp only [UInt8.toNat_ofNat']
  omega

theorem write_read {cs : List Char} (h : IsText cs) : write (read cs) = cs.map Char.toLower := by
  induction h using IsText.induct with
  | nil => simp [read]
  | cons a b cs ha hb hcs h ih =>
    have hx := value_lt ha
    have hy := value_lt hb
    have hdiv : (16 * value a + value b) / 16 = value a := by omega
    have hmod : (16 * value a + value b) % 16 = value b := by omega
    rw [read,write_cons,toNat_pair ha hb,hdiv,hmod,digitChar_value ha,digitChar_value hb,ih]
    simp

theorem length_read {cs : List Char} (h : IsText cs) : 2 * (read cs).length = cs.length := by
  have hl := congrArg List.length (write_read h)
  simpa using hl

theorem number_cons (c : Char) (cs : List Char) :
    number (c::cs) = number cs + 16^cs.length * value c := by
  simp [number,Nat.ofDigits_append]

theorem ofDigits_read {cs : List Char} (h : IsText cs) :
    Nat.ofDigits 256 ((read cs).reverse.map UInt8.toNat) = number cs := by
  induction h using IsText.induct with
  | nil => simp [read,number]
  | cons a b cs ha hb hcs h ih =>
    have hp : (256 : ℕ)^(read cs).length = 16^cs.length := by
      rw [← length_read hcs,pow_mul]
      norm_num
    rw [number_cons,number_cons,← ih,read,List.reverse_cons,List.map_append,Nat.ofDigits_append,
      List.map_singleton,toNat_pair ha hb,Nat.ofDigits_singleton,List.length_map,
      List.length_reverse,hp,List.length_cons]
    ring

end Hexadecimal
