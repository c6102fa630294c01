import LlmGuard.Lib.Splice
import Mathlib.Algebra.Group.Int.Defs
import Mathlib.Algebra.GroupWithZero.Nat

/-!
# Byte strings

A C++ `std::string` is a list of bytes here. Nothing below depends on the program: text
constants and decimal numbers.
-/

namespace LlmGuard

export Splice (slice)

abbrev Byte := UInt8

abbrev Bytes := List Byte

instance : LawfulBEq Bytes := inferInstance

def ch (c : Char) : Byte := c.toNat.toUInt8

/-- A fact about every byte has 256 cases. -/
instance (priority := low) decidableForallByte (P : Byte → Prop) [DecidablePred P] : Decidable (∀ b, P b) :=
  decidable_of_iff (∀ n < 256, P n.toUInt8)
    ⟨fun h b => (UInt8.ofNat_toNat : b.toNat.toUInt8 = b) ▸ h b.toNat b.toNat_lt, fun h n _ => h n.toUInt8⟩

/-- One about the bytes of a text has as many cases as the text is long. -/
instance (priority := high) decidableForallMem (l : Bytes) (P : Byte → Prop) [DecidablePred P] :
    Decidable (∀ b ∈ l, P b) :=
  List.decidableBAll P l

/-- The bytes of a text constant of the source. -/
def ascii (s : String) : Bytes := s.toList.map ch

/-- `SIZE_MAX`, with 64-bit sizes. -/
def sizeMax : Nat := 2 ^ 64 - 1

/-- `haystack.find(needle) != npos`. -/
def contains (haystack needle : Bytes) : Bool := decide (needle <:+: haystack)

/-! ## Decimal numbers -/

/-- `std::to_string` of a number that is not negative. -/
def decimal (n : Nat) : Bytes := (Nat.toDigits 10 n).map ch

def isDigit (b : Byte) : Bool := ch '0' ≤ b && b ≤ ch '9'

/-- The value of a digit string. -/
def digitsVal (l : Bytes) : Nat := l.foldl (fun v b => 10 * v + (b.toNat - 48)) 0

theorem toNat_ch (c : Char) (h : c.toNat < 256) : (ch c).toNat = c.toNat := by
  simp [ch, Nat.mod_eq_of_lt h]

theorem isDigit_ch (c : Char) (h : c.isDigit) : isDigit (ch c) ∧ (ch c).toNat = c.toNat := by
  simp only [Char.isDigit, Bool.and_eq_true, decide_eq_true_eq, ge_iff_le, UInt32.le_iff_toNat_le] at h
  obtain ⟨hlo, hhi⟩ := h
  have hlo' : 48 ≤ c.toNat := hlo
  have hhi' : c.toNat ≤ 57 := hhi
  have hval := toNat_ch c (by omega)
  refine ⟨?_, hval⟩
  simp only [isDigit, Bool.and_eq_true, decide_eq_true_eq, UInt8.le_iff_toNat_le, hval]
  exact ⟨hlo', hhi'⟩

theorem decimal_ne_nil (n : Nat) : decimal n ≠ [] := by
  simp [decimal]

theorem decimal_digits (n : Nat) : ∀ b ∈ decimal n, isDigit b := by
  intro b hb
  obtain ⟨c, hc, rfl⟩ := List.mem_map.mp hb
  exact (isDigit_ch c (Nat.isDigit_of_mem_toDigits (by omega) (by omega) hc)).1

theorem foldl_digits (l : List Char) (h : ∀ c ∈ l, c.isDigit) (v : Nat) :
    (l.map ch).foldl (fun v b => 10 * v + (b.toNat - 48)) v = Nat.ofDigitChars 10 l v := by
  induction l generalizing v with
  | nil => simp
  | cons c cs ih =>
    have hc := (isDigit_ch c (h c List.mem_cons_self)).2
    rw [List.map_cons, List.foldl_cons, Nat.ofDigitChars_cons, hc]
    exact ih (fun d hd => h d (List.mem_cons_of_mem _ hd)) _

theorem digitsVal_decimal (n : Nat) : digitsVal (decimal n) = n := by
  have h := foldl_digits (Nat.toDigits 10 n)
    (fun c hc => Nat.isDigit_of_mem_toDigits (by omega) (by omega) hc) 0
  rw [Nat.ofDigitChars_ten_toDigits] at h
  exact h

theorem decimal_injective : Function.Injective decimal := by
  intro m n h
  rw [← digitsVal_decimal m, h, digitsVal_decimal]

theorem not_mem_decimal (n : Nat) (b : Byte) (hb : isDigit b = false) : b ∉ decimal n := by
  intro h
  rw [decimal_digits n b h] at hb
  exact absurd hb (by decide)

/-! ## Substrings -/

theorem contains_iff (haystack needle : Bytes) :
    contains haystack needle = true ↔ needle <:+: haystack := by
  simp [contains]

end LlmGuard
