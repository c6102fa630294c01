import LlmGuard.Spec.Bytes

/-!
# Canonical decimal numbers

A digit string without a leading zero is the decimal form of its value, and there is no other.
-/

namespace LlmGuard

theorem digitsVal_concat (s : Bytes) (d : Byte) : digitsVal (s ++ [d]) = 10 * digitsVal s + (d.toNat - 48) := by
  unfold digitsVal
  rw [List.foldl_append, List.foldl_cons, List.foldl_nil]

theorem isDigit_iff (b : Byte) : isDigit b ↔ 48 ≤ b.toNat ∧ b.toNat ≤ 57 := by
  unfold isDigit
  rw [Bool.and_eq_true, decide_eq_true_eq, decide_eq_true_eq, UInt8.le_iff_toNat_le, UInt8.le_iff_toNat_le]
  rfl

theorem decimal_small {n : Nat} (h : n < 10) : decimal n = [(48 + n).toUInt8] := by
  have hall : ∀ n < 10, decimal n = [(48 + n).toUInt8] := by decide
  exact hall n h

theorem decimal_large {n : Nat} (h : 10 ≤ n) : decimal n = decimal (n / 10) ++ decimal (n % 10) := by
  unfold decimal
  rw [Nat.toDigits_of_base_le (by decide) h, List.map_append, Nat.toDigits_of_lt_base (Nat.mod_lt n (by decide))]

theorem decimal_digit {d : Byte} (h : isDigit d) : decimal (d.toNat - 48) = [d] := by
  obtain ⟨hlow, hhigh⟩ := (isDigit_iff d).mp h
  rw [decimal_small (by omega), Nat.add_sub_cancel' hlow]
  exact congrArg (· :: []) UInt8.ofNat_toNat

theorem decimal_concat {n : Nat} (hn : 1 ≤ n) {d : Byte} (hd : isDigit d) :
    decimal (10 * n + (d.toNat - 48)) = decimal n ++ [d] := by
  obtain ⟨hlow, hhigh⟩ := (isDigit_iff d).mp hd
  rw [decimal_large (by omega), show (10 * n + (d.toNat - 48)) / 10 = n by omega,
    show (10 * n + (d.toNat - 48)) % 10 = d.toNat - 48 by omega, decimal_digit hd]

theorem decimal_head_ne {n : Nat} (h : 1 ≤ n) : (decimal n).head? ≠ some (ch '0') := by
  induction n using Nat.strong_induction_on with
  | _ n ih =>
    by_cases hsmall : n < 10
    · have hall : ∀ n < 10, 1 ≤ n → (decimal n).head? ≠ some (ch '0') := by decide
      exact hall n hsmall h
    · rw [decimal_large (by omega), List.head?_append_of_ne_nil _ (decimal_ne_nil _)]
      exact ih (n / 10) (by omega) (by omega)

/-- No digit follows a leading zero. -/
structure Canonical (s : Bytes) : Prop where
  nonempty : s ≠ []
  digits : ∀ b ∈ s, isDigit b
  head : 1 < s.length → s.head? ≠ some (ch '0')

theorem canonical_decimal (n : Nat) : Canonical (decimal n) where
  nonempty := decimal_ne_nil n
  digits := decimal_digits n
  head hlong := by
    refine decimal_head_ne (Nat.one_le_iff_ne_zero.mpr ?_)
    rintro rfl
    exact absurd hlong (by decide)

theorem Canonical.decimal_eq {s : Bytes} (h : Canonical s) : decimal (digitsVal s) = s := by
  induction s using List.reverseRecOn with
  | nil => exact absurd rfl h.nonempty
  | append_singleton s d ih =>
    have hd : isDigit d := h.digits d (by simp)
    rw [digitsVal_concat]
    by_cases hnil : s = []
    · subst hnil
      rw [List.nil_append]
      simpa [digitsVal] using decimal_digit hd
    · -- The digits before the last one have no leading zero either, and their value is not zero.
      have hlong : 1 < (s ++ [d]).length := by
        have := List.length_pos_iff.mpr hnil
        simp only [List.length_append, List.length_singleton]
        omega
      have hhead : s.head? ≠ some (ch '0') := by
        rw [← @List.head?_append_of_ne_nil _ s [d] hnil]
        exact h.head hlong
      have hs : decimal (digitsVal s) = s := ih ⟨hnil, fun b hb => h.digits b (by simp [hb]), fun _ => hhead⟩
      have hpos : 1 ≤ digitsVal s := by
        rw [Nat.one_le_iff_ne_zero]
        intro hzero
        rw [← hs, hzero] at hhead
        exact hhead (by decide)
      rw [decimal_concat hpos hd, hs]

end LlmGuard
