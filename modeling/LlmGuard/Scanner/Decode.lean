import LlmGuard.Code.Validators
import LlmGuard.Lib.Utf8

/-!
# `decode_utf8` reads one character or one broken byte

The bit tests of the decoder are ranges of the lead byte. What it reads then depends on the value that the
bytes tell.
-/

namespace LlmGuard

open Utf8

theorem decodeUtf8_drop (s : Bytes) (i : Nat) : decodeUtf8 s i = decodeUtf8 (s.drop i) 0 := by
  unfold decodeUtf8 cont
  simp only [List.getD_eq_getElem?_getD, List.getElem?_drop, Nat.add_zero, Nat.zero_add]

theorem decodeUtf8_pos (s : Bytes) (i : Nat) : 0 < (decodeUtf8 s i).2 := by
  unfold decodeUtf8
  dsimp only
  repeat' split
  all_goals exact Nat.zero_lt_succ _

theorem and_eq_iff (b mask v : Byte) : b &&& mask = v ↔ b.toNat &&& mask.toNat = v.toNat := by
  rw [← UInt8.toNat_inj, UInt8.toNat_and]

set_option maxRecDepth 8192 in
theorem and_80 (b : Byte) : b &&& 0x80 = 0 ↔ b.toNat < 0x80 := by
  have h : ∀ n < 256, n &&& 0x80 = 0 ↔ n < 0x80 := by decide
  exact (and_eq_iff b 0x80 0).trans (h b.toNat b.toNat_lt)

set_option maxRecDepth 8192 in
theorem and_C0 (b : Byte) : b &&& 0xC0 = 0x80 ↔ IsTail b := by
  have h : ∀ n < 256, n &&& 0xC0 = 0x80 ↔ 0x80 ≤ n ∧ n < 0xC0 := by decide
  exact (and_eq_iff b 0xC0 0x80).trans (h b.toNat b.toNat_lt)

set_option maxRecDepth 8192 in
theorem and_E0 (b : Byte) : b &&& 0xE0 = 0xC0 ↔ 0xC0 ≤ b.toNat ∧ b.toNat < 0xE0 := by
  have h : ∀ n < 256, n &&& 0xE0 = 0xC0 ↔ 0xC0 ≤ n ∧ n < 0xE0 := by decide
  exact (and_eq_iff b 0xE0 0xC0).trans (h b.toNat b.toNat_lt)

set_option maxRecDepth 8192 in
theorem and_F0 (b : Byte) : b &&& 0xF0 = 0xE0 ↔ 0xE0 ≤ b.toNat ∧ b.toNat < 0xF0 := by
  have h : ∀ n < 256, n &&& 0xF0 = 0xE0 ↔ 0xE0 ≤ n ∧ n < 0xF0 := by decide
  exact (and_eq_iff b 0xF0 0xE0).trans (h b.toNat b.toNat_lt)

set_option maxRecDepth 8192 in
theorem and_F8 (b : Byte) : b &&& 0xF8 = 0xF0 ↔ 0xF0 ≤ b.toNat ∧ b.toNat < 0xF8 := by
  have h : ∀ n < 256, n &&& 0xF8 = 0xF0 ↔ 0xF0 ≤ n ∧ n < 0xF8 := by decide
  exact (and_eq_iff b 0xF8 0xF0).trans (h b.toNat b.toNat_lt)

theorem and_low (b : Byte) : (b &&& 0x3F).toNat = b.toNat % 64 ∧ (b &&& 0x1F).toNat = b.toNat % 32 ∧
    (b &&& 0x0F).toNat = b.toNat % 16 ∧ (b &&& 0x07).toNat = b.toNat % 8 :=
  ⟨Nat.and_two_pow_sub_one_eq_mod _ 6, Nat.and_two_pow_sub_one_eq_mod _ 5, Nat.and_two_pow_sub_one_eq_mod _ 4,
    Nat.and_two_pow_sub_one_eq_mod _ 3⟩

/-- A character, or one broken byte. -/
def ReadsOne (s : Bytes) (read : Nat × Nat) : Prop :=
  (∃ c, encode c <+: s ∧ read = (c.toNat, (encode c).length)) ∨ (∀ c, ¬ encode c <+: s) ∧ read = (0xFFFD, 1)

theorem cont_eq_some {b : Byte} {s : Bytes} {i v : Nat} :
    cont (b :: s) (i + 1) = some v ↔ ∃ c, s[i]? = some c ∧ IsTail c ∧ v = c.toNat % 64 := by
  unfold cont
  rw [List.getElem?_cons_succ]
  cases s[i]? with
  | none => simp
  | some c =>
    simp only [and_C0, and_low]
    by_cases hc : IsTail c
    · simp [hc, eq_comm]
    · simp [hc]

theorem decodeUtf8_reads (b : Byte) (s : Bytes) : ReadsOne (b :: s) (decodeUtf8 (b :: s) 0) := by
  have hrefuse : (∀ c, ¬ encode c <+: b :: s) → ReadsOne (b :: s) (0xFFFD, 1) := fun h => .inr ⟨h, rfl⟩
  have hread : ∀ {c w v}, encode c = w ∧ c.toNat = v → w <+: b :: s → ReadsOne (b :: s) (v, w.length) := by
    rintro c _ _ ⟨rfl, rfl⟩ hw
    exact .inl ⟨c, hw, rfl⟩
  unfold decodeUtf8
  simp only [List.getD_cons_zero, and_80, and_E0, and_F0, and_F8, and_low, Nat.zero_add]
  split
  · rename_i h0
    obtain ⟨c, hc⟩ := exists_one b h0
    exact hread hc ⟨s, rfl⟩
  rename_i h0
  split
  · rename_i h1
    split
    · rename_i hnone
      refine hrefuse (no_char (by omega) ?_ (by omega) (by omega))
      rintro - - b₁ t rfl h
      rw [cont_eq_some.mpr ⟨b₁, rfl, h, rfl⟩] at hnone
      cases hnone
    · rename_i c1 hsome
      obtain ⟨b₁, hb₁, htail, rfl⟩ := cont_eq_some.mp hsome
      obtain ⟨t, rfl⟩ : ∃ t, s = b₁ :: t := by
        rcases s with _ | ⟨b', s⟩ <;> simp at hb₁
        exact ⟨s, by rw [hb₁]⟩
      unfold IsTail at htail
      split
      · refine hrefuse (no_char (by omega) ?_ (by omega) (by omega))
        rintro - - _ _ ⟨⟩ -
        assumption
      · obtain ⟨c, hc⟩ := exists_two b b₁ (b.toNat % 32 * 64 + b₁.toNat % 64) (by omega) (by omega) (by omega)
        exact hread hc ⟨t, rfl⟩
  rename_i h1
  split
  · rename_i h2
    split
    · rename_i c1 c2 hsome₁ hsome₂
      obtain ⟨b₁, hb₁, htail₁, rfl⟩ := cont_eq_some.mp hsome₁
      obtain ⟨b₂, hb₂, htail₂, rfl⟩ := cont_eq_some.mp hsome₂
      obtain ⟨t, rfl⟩ : ∃ t, s = b₁ :: b₂ :: t := by
        rcases s with _ | ⟨b₁', _ | ⟨b₂', s⟩⟩ <;> simp at hb₁ hb₂
        exact ⟨s, by rw [hb₁, hb₂]⟩
      unfold IsTail at htail₁ htail₂
      split
      · rename_i hcp
        simp only [Bool.or_eq_true, decide_eq_true_eq, Bool.and_eq_true] at hcp
        refine hrefuse (no_char (by omega) (by omega) ?_ (by omega))
        rintro - - _ _ _ ⟨⟩ - -
        exact hcp
      · rename_i hcp
        simp only [Bool.or_eq_true, decide_eq_true_eq, Bool.and_eq_true] at hcp
        obtain ⟨c, hc⟩ := exists_three b b₁ b₂ (b.toNat % 16 * 4096 + b₁.toNat % 64 * 64 + b₂.toNat % 64)
          (by omega) (by omega) (by omega) (by omega) (by omega)
        exact hread hc ⟨t, rfl⟩
    · rename_i hnone
      refine hrefuse (no_char (by omega) (by omega) ?_ (by omega))
      rintro - - b₁ b₂ t rfl h h'
      exact (hnone _ _ (cont_eq_some.mpr ⟨b₁, rfl, h, rfl⟩) (cont_eq_some.mpr ⟨b₂, rfl, h', rfl⟩)).elim
  rename_i h2
  split
  · rename_i h3
    split
    · rename_i c1 c2 c3 hsome₁ hsome₂ hsome₃
      obtain ⟨b₁, hb₁, htail₁, rfl⟩ := cont_eq_some.mp hsome₁
      obtain ⟨b₂, hb₂, htail₂, rfl⟩ := cont_eq_some.mp hsome₂
      obtain ⟨b₃, hb₃, htail₃, rfl⟩ := cont_eq_some.mp hsome₃
      obtain ⟨t, rfl⟩ : ∃ t, s = b₁ :: b₂ :: b₃ :: t := by
        rcases s with _ | ⟨b₁', _ | ⟨b₂', _ | ⟨b₃', s⟩⟩⟩ <;> simp at hb₁ hb₂ hb₃
        exact ⟨s, by rw [hb₁, hb₂, hb₃]⟩
      unfold IsTail at htail₁ htail₂ htail₃
      split
      · rename_i hcp
        simp only [Bool.or_eq_true, decide_eq_true_eq] at hcp
        refine hrefuse (no_char (by omega) (by omega) (by omega) ?_)
        rintro - - _ _ _ _ ⟨⟩ - - -
        exact hcp
      · rename_i hcp
        simp only [Bool.or_eq_true, decide_eq_true_eq] at hcp
        obtain ⟨c, hc⟩ := exists_four b b₁ b₂ b₃
          (b.toNat % 8 * 262144 + b₁.toNat % 64 * 4096 + b₂.toNat % 64 * 64 + b₃.toNat % 64)
          (by omega) (by omega) (by omega) (by omega) (by omega)
        exact hread hc ⟨t, rfl⟩
    · rename_i hnone
      refine hrefuse (no_char (by omega) (by omega) (by omega) ?_)
      rintro - - b₁ b₂ b₃ t rfl h h' h''
      exact (hnone _ _ _ (cont_eq_some.mpr ⟨b₁, rfl, h, rfl⟩) (cont_eq_some.mpr ⟨b₂, rfl, h', rfl⟩)
        (cont_eq_some.mpr ⟨b₃, rfl, h'', rfl⟩)).elim
  · exact hrefuse (no_char (by omega) (by omega) (by omega) (by omega))

end LlmGuard
