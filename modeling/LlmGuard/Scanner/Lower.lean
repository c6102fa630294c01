import LlmGuard.Code.Validators
import LlmGuard.Lib.Utf8

/-!
# Lower case, character by character

The lower case of a text holds the lower case of every part of it between two boundaries.
-/

namespace LlmGuard

open Utf8

/-- utf8proc decodes the characters and nothing else, and knows ASCII. -/
structure Utf8procSpec (u : Utf8proc) : Prop where
  iterate : ∀ s codepoint consumed, u.iterate s = some (codepoint, consumed) ↔
    ∃ c : Char, encode c <+: s ∧ codepoint = c.toNat ∧ consumed = (encode c).length
  ascii : ∀ b : Byte, b < 0x80 → u.encodeChar (u.tolower b.toNat) = [asciiToLower b]

/-- The lower case of one character. -/
def lowerChar (u : Utf8proc) (c : Char) : Bytes :=
  if (u.encodeChar (u.tolower c.toNat)).isEmpty then encode c else u.encodeChar (u.tolower c.toNat)

section Lower

variable {u : Utf8proc} (hu : Utf8procSpec u)

theorem toLowerLoop_skip (w s : Bytes) : toLowerLoop u w.length (w ++ s) = toLowerLoop u 0 s := by
  induction w with
  | nil => rfl
  | cons b w ih => exact ih

include hu

theorem toLowerLoop_char (c : Char) (s : Bytes) :
    toLowerLoop u 0 (encode c ++ s) = lowerChar u c ++ toLowerLoop u 0 s := by
  have hiter : u.iterate (encode c ++ s) = some (c.toNat, (encode c).length) :=
    (hu.iterate _ _ _).mpr ⟨c, ⟨s, rfl⟩, rfl, rfl⟩
  have htake : (encode c ++ s).take (encode c).length = encode c := by simp
  obtain ⟨b, w, hw⟩ := List.exists_cons_of_ne_nil (encode_ne_nil c)
  have hskip : toLowerLoop u ((encode c).length - 1) (w ++ s) = toLowerLoop u 0 s := by
    rw [hw]
    exact toLowerLoop_skip w s
  rw [lowerChar]
  rw [hw] at hiter htake hskip ⊢
  rw [List.cons_append] at hiter htake ⊢
  rw [toLowerLoop, hiter]
  simp only [htake, hskip]

theorem toLowerLoop_broken (b : Byte) (s : Bytes) (hb : ∀ c, ¬ encode c <+: b :: s) :
    toLowerLoop u 0 (b :: s) = b :: toLowerLoop u 0 s := by
  rw [toLowerLoop]
  cases hiter : u.iterate (b :: s) with
  | none => rfl
  | some p =>
    obtain ⟨c, hc, -⟩ := (hu.iterate _ p.1 p.2).mp hiter
    exact absurd hc (hb c)

theorem toLowerUtf8_eq (s : Bytes) : toLowerUtf8 u s = toLowerLoop u 0 s := by
  unfold toLowerUtf8
  split
  · rename_i hascii
    induction s with
    | nil => rfl
    | cons b s ih =>
      simp only [isAscii, List.all_cons, Bool.and_eq_true, decide_eq_true_eq] at hascii ih
      obtain ⟨c, hc, hval⟩ := exists_one b hascii.1
      have hloop := toLowerLoop_char hu c s
      rw [hc, lowerChar, hval, hu.ascii b hascii.1] at hloop
      rw [List.map_cons, ih hascii.2]
      exact hloop.symm
  · rfl

theorem toLowerLoop_split {s : Bytes} {i : Nat} (h : Boundary s i) :
    toLowerLoop u 0 s = toLowerLoop u 0 (s.take i) ++ toLowerLoop u 0 (s.drop i) := by
  induction h with
  | zero s => simp [toLowerLoop]
  | @char c s i h ih =>
    have htake : (encode c ++ s).take ((encode c).length + i) = encode c ++ s.take i := by
      rw [List.take_append, List.take_of_length_le (by omega), Nat.add_sub_cancel_left]
    have hdrop : (encode c ++ s).drop ((encode c).length + i) = s.drop i := by
      rw [List.drop_append, List.drop_eq_nil_of_le (by omega), Nat.add_sub_cancel_left, List.nil_append]
    rw [htake, hdrop, toLowerLoop_char hu, toLowerLoop_char hu, ih, List.append_assoc]
  | @broken b s i hb h ih =>
    have hb' : ∀ c, ¬ encode c <+: b :: s.take i := fun c hc =>
      hb c (hc.trans (List.cons_prefix_cons.mpr ⟨rfl, List.take_prefix i s⟩))
    rw [List.take_succ_cons, List.drop_succ_cons, toLowerLoop_broken hu b s hb,
      toLowerLoop_broken hu b _ hb', ih, List.cons_append]

theorem toLowerUtf8_slice {s : Bytes} {i j : Nat} (hi : Boundary s i) (hj : Boundary s j) (hij : i ≤ j) :
    toLowerUtf8 u (slice s i j) <:+: toLowerUtf8 u s := by
  rw [toLowerUtf8_eq hu, toLowerUtf8_eq hu, toLowerLoop_split hu hi, toLowerLoop_split hu (hi.drop hj hij)]
  exact ⟨_, _, List.append_assoc _ _ _⟩

end Lower

end LlmGuard
