import Mathlib.Data.List.Basic
import Mathlib.Data.List.Infix

/-!
# UTF-8 text with broken bytes in it

A text is read from the left: a character where one is encoded, else one broken byte. The positions
between what was read are the boundaries of the text.
-/

namespace Utf8

abbrev encode (c : Char) : List UInt8 := String.utf8EncodeChar c

theorem encode_cases (c : Char) :
    (c.toNat < 0x80 ∧ ∃ a, encode c = [a] ∧ a.toNat = c.toNat) ∨
    (0x80 ≤ c.toNat ∧ c.toNat < 0x800 ∧ ∃ a b, encode c = [a, b] ∧
      a.toNat = 0xC0 + c.toNat / 64 ∧ b.toNat = 0x80 + c.toNat % 64) ∨
    (0x800 ≤ c.toNat ∧ c.toNat < 0x10000 ∧ ∃ a b d, encode c = [a, b, d] ∧
      a.toNat = 0xE0 + c.toNat / 4096 ∧ b.toNat = 0x80 + c.toNat / 64 % 64 ∧ d.toNat = 0x80 + c.toNat % 64) ∨
    (0x10000 ≤ c.toNat ∧ c.toNat < 0x110000 ∧ ∃ a b d e, encode c = [a, b, d, e] ∧
      a.toNat = 0xF0 + c.toNat / 262144 ∧ b.toNat = 0x80 + c.toNat / 4096 % 64 ∧
      d.toNat = 0x80 + c.toNat / 64 % 64 ∧ e.toNat = 0x80 + c.toNat % 64) := by
  have hmax : c.toNat < 0x110000 := by
    rcases c.valid with h | ⟨-, h⟩
    · exact Nat.lt_trans h (by omega)
    · exact h
  have hval : c.val.toNat = c.toNat := rfl
  simp only [encode, String.utf8EncodeChar, hval]
  split
  · exact .inl ⟨by omega, _, rfl, by simp; omega⟩
  · split
    · exact .inr (.inl ⟨by omega, by omega, _, _, rfl, by simp; omega, by simp; omega⟩)
    · split
      · exact .inr (.inr (.inl ⟨by omega, by omega, _, _, _, rfl, by simp; omega, by simp; omega, by simp; omega⟩))
      · exact .inr (.inr (.inr ⟨by omega, by omega, _, _, _, _, rfl, by simp; omega, by simp; omega, by simp; omega,
          by simp; omega⟩))

theorem encode_ne_nil (c : Char) : encode c ≠ [] := by
  rcases encode_cases c with ⟨-, a, h, -⟩ | ⟨-, -, a, b, h, -⟩ | ⟨-, -, a, b, d, h, -⟩ | ⟨-, -, a, b, d, e, h, -⟩ <;>
    simp [h]

theorem encode_pos (c : Char) : 0 < (encode c).length := List.length_pos_iff.mpr (encode_ne_nil c)

theorem encode_length_le (c : Char) : (encode c).length ≤ 4 := by
  rcases encode_cases c with ⟨-, a, h, -⟩ | ⟨-, -, a, b, h, -⟩ | ⟨-, -, a, b, d, h, -⟩ | ⟨-, -, a, b, d, e, h, -⟩ <;>
    simp [h]

theorem encode_length_ascii {c : Char} (hc : c.toNat < 0x80) : (encode c).length = 1 := by
  rcases encode_cases c with ⟨-, a, h, -⟩ | ⟨hc', -⟩ | ⟨hc', -⟩ | ⟨hc', -⟩
  · rw [h, List.length_singleton]
  all_goals omega

theorem encode_length_mono {c d : Char} (h : c.toNat ≤ d.toNat) : (encode c).length ≤ (encode d).length := by
  rcases encode_cases c with ⟨hc, a, he, -⟩ | ⟨hc, hc', a, x, he, -⟩ | ⟨hc, hc', a, x, y, he, -⟩ |
    ⟨hc, hc', a, x, y, z, he, -⟩ <;>
  rcases encode_cases d with ⟨hd, a', he', -⟩ | ⟨hd, hd', a', x', he', -⟩ | ⟨hd, hd', a', x', y', he', -⟩ |
    ⟨hd, hd', a', x', y', z', he', -⟩ <;>
  rw [he, he'] <;> simp only [List.length_cons, List.length_nil] <;> omega

theorem toNat_injective {c d : Char} (h : c.toNat = d.toNat) : c = d := Char.toNat_inj.mp h

theorem exists_char (n : Nat) (h : n.isValidChar) : ∃ c : Char, c.toNat = n := ⟨Char.ofNatAux n h, rfl⟩

theorem exists_one (a : UInt8) (h : a.toNat < 0x80) : ∃ c, encode c = [a] ∧ c.toNat = a.toNat := by
  obtain ⟨c, hc⟩ := exists_char a.toNat (.inl (by omega))
  refine ⟨c, ?_, hc⟩
  rcases encode_cases c with ⟨-, a', he, ha⟩ | ⟨k, -⟩ | ⟨k, -⟩ | ⟨k, -⟩
  · rw [he, UInt8.toNat_inj.mp (ha.trans hc)]
  all_goals omega

theorem encode_of_ascii {b : UInt8} {c : Char} (hb : b.toNat < 0x80) (hc : c.toNat = b.toNat) : encode c = [b] := by
  obtain ⟨d, hd, hval⟩ := exists_one b hb
  rw [← toNat_injective (hval.trans hc.symm), hd]

theorem exists_two (a b : UInt8) (v : Nat) (hv : 0x80 ≤ v ∧ v < 0x800) (ha : a.toNat = 0xC0 + v / 64)
    (hb : b.toNat = 0x80 + v % 64) : ∃ c, encode c = [a, b] ∧ c.toNat = v := by
  obtain ⟨c, hc⟩ := exists_char v (.inl (by omega))
  refine ⟨c, ?_, hc⟩
  rcases encode_cases c with ⟨k, -⟩ | ⟨-, -, a', b', he, ha', hb'⟩ | ⟨k, -⟩ | ⟨k, -⟩
  · omega
  · rw [he, UInt8.toNat_inj.mp (show a'.toNat = a.toNat by omega),
      UInt8.toNat_inj.mp (show b'.toNat = b.toNat by omega)]
  all_goals omega

theorem exists_three (a b d : UInt8) (v : Nat) (hv : 0x800 ≤ v ∧ v < 0x10000) (hvalid : v < 0xD800 ∨ 0xDFFF < v)
    (ha : a.toNat = 0xE0 + v / 4096) (hb : b.toNat = 0x80 + v / 64 % 64) (hd : d.toNat = 0x80 + v % 64) :
    ∃ c, encode c = [a, b, d] ∧ c.toNat = v := by
  obtain ⟨c, hc⟩ := exists_char v (by unfold Nat.isValidChar; omega)
  refine ⟨c, ?_, hc⟩
  rcases encode_cases c with ⟨k, -⟩ | ⟨-, k, -⟩ | ⟨-, -, a', b', d', he, ha', hb', hd'⟩ | ⟨k, -⟩
  · omega
  · omega
  · rw [he, UInt8.toNat_inj.mp (show a'.toNat = a.toNat by omega),
      UInt8.toNat_inj.mp (show b'.toNat = b.toNat by omega), UInt8.toNat_inj.mp (show d'.toNat = d.toNat by omega)]
  · omega

theorem exists_four (a b d e : UInt8) (v : Nat) (hv : 0x10000 ≤ v ∧ v < 0x110000)
    (ha : a.toNat = 0xF0 + v / 262144) (hb : b.toNat = 0x80 + v / 4096 % 64) (hd : d.toNat = 0x80 + v / 64 % 64)
    (he : e.toNat = 0x80 + v % 64) : ∃ c, encode c = [a, b, d, e] ∧ c.toNat = v := by
  obtain ⟨c, hc⟩ := exists_char v (.inr (by omega))
  refine ⟨c, ?_, hc⟩
  rcases encode_cases c with ⟨k, -⟩ | ⟨-, k, -⟩ | ⟨-, k, -⟩ | ⟨-, -, a', b', d', e', hc', ha', hb', hd', he'⟩
  · omega
  · omega
  · omega
  · rw [hc', UInt8.toNat_inj.mp (show a'.toNat = a.toNat by omega),
      UInt8.toNat_inj.mp (show b'.toNat = b.toNat by omega), UInt8.toNat_inj.mp (show d'.toNat = d.toNat by omega),
      UInt8.toNat_inj.mp (show e'.toNat = e.toNat by omega)]

theorem encode_unique {c d : Char} {s : List UInt8} (hc : encode c <+: s) (hd : encode d <+: s) : c = d := by
  obtain ⟨t, rfl⟩ := hc
  apply toNat_injective
  rcases encode_cases c with ⟨h, a, he, h₀⟩ | ⟨h, h', a, b, he, h₀, h₁⟩ | ⟨h, h', a, b, x, he, h₀, h₁, h₂⟩ |
      ⟨h, h', a, b, x, y, he, h₀, h₁, h₂, h₃⟩ <;>
    rcases encode_cases d with ⟨k, a', he', k₀⟩ | ⟨k, k', a', b', he', k₀, k₁⟩ |
      ⟨k, k', a', b', x', he', k₀, k₁, k₂⟩ | ⟨k, k', a', b', x', y', he', k₀, k₁, k₂, k₃⟩ <;>
    rw [he, he'] at hd <;>
    simp only [List.cons_append, List.nil_append, List.cons_prefix_cons] at hd <;>
    grind

/-- Where a character begins, its bytes tell its value `v`. -/
theorem prefix_cases {c : Char} {b : UInt8} {s : List UInt8} (h : encode c <+: b :: s) :
    b.toNat < 0x80 ∨
    (∃ v b₁ t, s = b₁ :: t ∧ 0x80 ≤ v ∧ v < 0x800 ∧ b.toNat = 0xC0 + v / 64 ∧ b₁.toNat = 0x80 + v % 64) ∨
    (∃ v b₁ b₂ t, s = b₁ :: b₂ :: t ∧ 0x800 ≤ v ∧ v < 0x10000 ∧ (v < 0xD800 ∨ 0xDFFF < v) ∧
      b.toNat = 0xE0 + v / 4096 ∧ b₁.toNat = 0x80 + v / 64 % 64 ∧ b₂.toNat = 0x80 + v % 64) ∨
    (∃ v b₁ b₂ b₃ t, s = b₁ :: b₂ :: b₃ :: t ∧ 0x10000 ≤ v ∧ v < 0x110000 ∧ b.toNat = 0xF0 + v / 262144 ∧
      b₁.toNat = 0x80 + v / 4096 % 64 ∧ b₂.toNat = 0x80 + v / 64 % 64 ∧ b₃.toNat = 0x80 + v % 64) := by
  obtain ⟨t, ht⟩ := h
  have hvalid : c.toNat < 0xD800 ∨ 0xDFFF < c.toNat := by
    rcases c.valid with h | ⟨h, -⟩
    · exact .inl h
    · exact .inr h
  rcases encode_cases c with ⟨h, a, he, h₀⟩ | ⟨h, h', a, b, he, h₀, h₁⟩ | ⟨h, h', a, b, x, he, h₀, h₁, h₂⟩ |
    ⟨h, h', a, b, x, y, he, h₀, h₁, h₂, h₃⟩ <;>
    rw [he] at ht <;>
    simp only [List.cons_append, List.nil_append, List.cons.injEq] at ht <;>
    obtain ⟨rfl, rfl⟩ := ht
  · exact .inl (by omega)
  · exact .inr (.inl ⟨c.toNat, _, _, rfl, h, h', h₀, h₁⟩)
  · exact .inr (.inr (.inl ⟨c.toNat, _, _, _, rfl, h, h', hvalid, h₀, h₁, h₂⟩))
  · exact .inr (.inr (.inr ⟨c.toNat, _, _, _, _, rfl, h, h', h₀, h₁, h₂, h₃⟩))

def IsTail (b : UInt8) : Prop := 0x80 ≤ b.toNat ∧ b.toNat < 0xC0

instance (b : UInt8) : Decidable (IsTail b) := inferInstanceAs (Decidable (_ ∧ _))

theorem no_char {b : UInt8} {s : List UInt8} (h₁ : 0x80 ≤ b.toNat)
    (h₂ : 0xC0 ≤ b.toNat → b.toNat < 0xE0 → ∀ b₁ t, s = b₁ :: t → IsTail b₁ →
      b.toNat % 32 * 64 + b₁.toNat % 64 < 0x80)
    (h₃ : 0xE0 ≤ b.toNat → b.toNat < 0xF0 → ∀ b₁ b₂ t, s = b₁ :: b₂ :: t → IsTail b₁ → IsTail b₂ →
      let v := b.toNat % 16 * 4096 + b₁.toNat % 64 * 64 + b₂.toNat % 64
      v < 0x800 ∨ 0xD800 ≤ v ∧ v ≤ 0xDFFF)
    (h₄ : 0xF0 ≤ b.toNat → b.toNat < 0xF8 → ∀ b₁ b₂ b₃ t, s = b₁ :: b₂ :: b₃ :: t → IsTail b₁ → IsTail b₂ →
      IsTail b₃ →
      let v := b.toNat % 8 * 262144 + b₁.toNat % 64 * 4096 + b₂.toNat % 64 * 64 + b₃.toNat % 64
      v < 0x10000 ∨ 0x10FFFF < v) :
    ∀ c, ¬ encode c <+: b :: s := by
  intro c hc
  unfold IsTail at h₂ h₃ h₄
  rcases prefix_cases hc with h | ⟨v, b₁, t, rfl, h, h', k, k₁⟩ | ⟨v, b₁, b₂, t, rfl, h, h', hv, k, k₁, k₂⟩ |
    ⟨v, b₁, b₂, b₃, t, rfl, h, h', k, k₁, k₂, k₃⟩
  · omega
  · have := h₂ (by omega) (by omega) _ _ rfl (by omega)
    omega
  · have := h₃ (by omega) (by omega) _ _ _ rfl (by omega) (by omega)
    omega
  · have := h₄ (by omega) (by omega) _ _ _ _ rfl (by omega) (by omega) (by omega)
    omega

/-! ## Well-formed sequences -/

/-- The value that a lead byte and its continuation bytes tell. -/
def told : List UInt8 → Option Nat
  | [a] => if a.toNat < 0x80 then some a.toNat else none
  | [a, b] => if 0xC0 ≤ a.toNat ∧ a.toNat < 0xE0 ∧ IsTail b then some (a.toNat % 32 * 64 + b.toNat % 64) else none
  | [a, b, d] =>
    if 0xE0 ≤ a.toNat ∧ a.toNat < 0xF0 ∧ IsTail b ∧ IsTail d then
      some (a.toNat % 16 * 4096 + b.toNat % 64 * 64 + d.toNat % 64)
    else none
  | [a, b, d, e] =>
    if 0xF0 ≤ a.toNat ∧ a.toNat < 0xF8 ∧ IsTail b ∧ IsTail d ∧ IsTail e then
      some (a.toNat % 8 * 262144 + b.toNat % 64 * 4096 + d.toNat % 64 * 64 + e.toNat % 64)
    else none
  | _ => none

/-- The least value that needs `n` bytes. -/
def least (n : Nat) : Nat := if n = 2 then 0x80 else if n = 3 then 0x800 else if n = 4 then 0x10000 else 0

/-- The bytes tell the value `v`. The form is not overlong, and `v` is no surrogate and at most U+10FFFF. -/
structure WellFormed (w : List UInt8) (v : Nat) : Prop where
  value : told w = some v
  shortest : least w.length ≤ v
  noSurrogate : ¬ (0xD800 ≤ v ∧ v ≤ 0xDFFF)
  inRange : v ≤ 0x10FFFF

theorem WellFormed.exists_char {w : List UInt8} {v : Nat} (h : WellFormed w v) : ∃ c, encode c = w ∧ c.toNat = v := by
  obtain ⟨hvalue, hleast, hsurrogate, hmax⟩ := h
  unfold told at hvalue
  split at hvalue
  · obtain ⟨h, hv⟩ := Option.ite_none_right_eq_some.mp hvalue
    obtain ⟨c, hc, hcv⟩ := exists_one _ h
    exact ⟨c, hc, hcv.trans (Option.some.inj hv)⟩
  · rename_i a b
    obtain ⟨⟨hlo, hhi, hb⟩, hv⟩ := Option.ite_none_right_eq_some.mp hvalue
    have hv := Option.some.inj hv
    have hleast : 0x80 ≤ v := hleast
    unfold IsTail at hb
    exact exists_two a b v (by omega) (by omega) (by omega)
  · rename_i a b d
    obtain ⟨⟨hlo, hhi, hb, hd⟩, hv⟩ := Option.ite_none_right_eq_some.mp hvalue
    have hv := Option.some.inj hv
    have hleast : 0x800 ≤ v := hleast
    unfold IsTail at hb hd
    exact exists_three a b d v (by omega) (by omega) (by omega) (by omega) (by omega)
  · rename_i a b d e
    obtain ⟨⟨hlo, hhi, hb, hd, he⟩, hv⟩ := Option.ite_none_right_eq_some.mp hvalue
    have hv := Option.some.inj hv
    have hleast : 0x10000 ≤ v := hleast
    unfold IsTail at hb hd he
    exact exists_four a b d e v (by omega) (by omega) (by omega) (by omega) (by omega)
  · cases hvalue

theorem wellFormed_encode (c : Char) : WellFormed (encode c) c.toNat := by
  have hvalid : c.toNat < 0xD800 ∨ 0xDFFF < c.toNat ∧ c.toNat < 0x110000 := c.valid
  have hscalar : told (encode c) = some c.toNat → least (encode c).length ≤ c.toNat → WellFormed (encode c) c.toNat :=
    fun hvalue hleast => ⟨hvalue, hleast, by omega, by omega⟩
  rcases encode_cases c with ⟨h, a, he, h₀⟩ | ⟨h, h', a, b, he, h₀, h₁⟩ | ⟨h, h', a, b, d, he, h₀, h₁, h₂⟩ |
    ⟨h, h', a, b, d, e, he, h₀, h₁, h₂, h₃⟩ <;> rw [he] at hscalar ⊢
  · refine hscalar ?_ (Nat.zero_le _)
    rw [told, if_pos (by omega), h₀]
  · refine hscalar ?_ h
    rw [told, if_pos (by unfold IsTail; omega), Option.some.injEq]
    omega
  · refine hscalar ?_ h
    rw [told, if_pos (by unfold IsTail; omega), Option.some.injEq]
    omega
  · refine hscalar ?_ h
    rw [told, if_pos (by unfold IsTail; omega), Option.some.injEq]
    omega

/-! ## Boundaries -/

inductive Boundary : List UInt8 → Nat → Prop
  | zero (s : List UInt8) : Boundary s 0
  | char (c : Char) {s : List UInt8} {i : Nat} (h : Boundary s i) :
      Boundary (encode c ++ s) ((encode c).length + i)
  | broken {b : UInt8} {s : List UInt8} {i : Nat} (hb : ∀ c, ¬ encode c <+: b :: s) (h : Boundary s i) :
      Boundary (b :: s) (i + 1)

theorem Boundary.drop {s : List UInt8} {i j : Nat} (hi : Boundary s i) (hj : Boundary s j) (hij : i ≤ j) :
    Boundary (s.drop i) (j - i) := by
  induction hi generalizing j with
  | zero s => simpa using hj
  | @char c s i hi ih =>
    rw [List.drop_append, List.drop_eq_nil_of_le (by omega), List.nil_append, Nat.add_sub_cancel_left]
    generalize htext : encode c ++ s = t at hj
    cases hj with
    | zero => have := encode_pos c; omega
    | @char d s' j' hj =>
      obtain rfl : c = d := encode_unique ⟨s, htext⟩ ⟨s', rfl⟩
      obtain rfl := List.append_cancel_left htext
      have := ih hj (by omega)
      rwa [Nat.add_sub_add_left]
    | broken hb hj => exact absurd ⟨s, htext⟩ (hb c)
  | @broken b s i hb hi ih =>
    rw [List.drop_succ_cons]
    generalize htext : b :: s = t at hj
    cases hj with
    | zero => omega
    | @char d s' j' hj => exact absurd ⟨s', htext.symm⟩ (hb d)
    | @broken b' s' j' hb' hj =>
      obtain ⟨rfl, rfl⟩ := List.cons.inj htext
      have := ih hj (by omega)
      rwa [Nat.add_sub_add_right]

theorem Boundary.add {s : List UInt8} {i j : Nat} (hi : Boundary s i) (hj : Boundary (s.drop i) j) :
    Boundary s (i + j) := by
  induction hi with
  | zero s => simpa using hj
  | @char c s i hi ih =>
    rw [List.drop_append, List.drop_eq_nil_of_le (by omega), List.nil_append, Nat.add_sub_cancel_left] at hj
    rw [Nat.add_assoc]
    exact .char c (ih hj)
  | @broken b s i hb hi ih =>
    rw [List.drop_succ_cons] at hj
    rw [Nat.add_right_comm]
    exact .broken hb (ih hj)

theorem encode_of_ascii_mem {c : Char} {b : UInt8} (hb : b ∈ encode c) (h : b.toNat < 0x80) : encode c = [b] := by
  rcases encode_cases c with ⟨-, a, he, -⟩ | ⟨-, -, a, d, he, h₀, h₁⟩ | ⟨-, -, a, d, x, he, h₀, h₁, h₂⟩ |
    ⟨-, -, a, d, x, y, he, h₀, h₁, h₂, h₃⟩ <;>
    rw [he] at hb ⊢ <;>
    simp only [List.mem_cons, List.not_mem_nil, or_false] at hb
  · rw [hb]
  · rcases hb with rfl | rfl <;> omega
  · rcases hb with rfl | rfl | rfl <;> omega
  · rcases hb with rfl | rfl | rfl | rfl <;> omega

theorem encode_ascii_front {c : Char} {b : UInt8} {s t : List UInt8} (h : encode c ++ s = b :: t) (hb : b.toNat < 0x80) :
    encode c = [b] ∧ s = t := by
  have hmem : b ∈ encode c := by
    obtain ⟨a, w, hw⟩ := List.exists_cons_of_ne_nil (encode_ne_nil c)
    rw [hw] at h ⊢
    rw [(List.cons.inj h).1]
    exact List.mem_cons_self
  have hc := encode_of_ascii_mem hmem hb
  rw [hc] at h
  exact ⟨hc, (List.cons.inj h).2⟩

theorem encode_injective {c d : Char} (h : encode c = encode d) : c = d :=
  encode_unique (List.prefix_refl (encode c)) (h ▸ List.prefix_refl _)

theorem Boundary.of_ascii {s : List UInt8} {i : Nat} {b : UInt8} (hi : s[i]? = some b) (hb : b.toNat < 0x80) :
    Boundary s i := by
  induction hlen : s.length using Nat.strong_induction_on generalizing s i with
  | h n ih =>
    subst hlen
    match s, i with
    | s, 0 => exact .zero s
    | a :: t, i + 1 =>
      by_cases h : ∃ c, encode c <+: a :: t
      · obtain ⟨c, rest, hrest⟩ := h
        have hpos := encode_pos c
        rw [← hrest] at hi ih ⊢
        rcases Nat.lt_or_ge (i + 1) (encode c).length with hlt | hge
        · rw [List.getElem?_append_left hlt] at hi
          rw [encode_of_ascii_mem (List.mem_of_getElem? hi) hb, List.length_singleton] at hlt
          omega
        · rw [List.getElem?_append_right hge] at hi
          have := Boundary.char c (ih rest.length (by rw [List.length_append]; omega) hi rfl)
          rwa [Nat.add_sub_cancel' hge] at this
      · rw [List.getElem?_cons_succ] at hi
        exact .broken (not_exists.mp h) (ih t.length (by rw [List.length_cons]; omega) hi rfl)

theorem Boundary.after_ascii {s : List UInt8} {i : Nat} {b : UInt8} (hi : s[i]? = some b) (hb : b.toNat < 0x80) :
    Boundary s (i + 1) := by
  apply (Boundary.of_ascii hi hb).add
  obtain ⟨hlt, hget⟩ := List.getElem?_eq_some_iff.mp hi
  obtain ⟨c, hc, -⟩ := exists_one b hb
  rw [List.drop_eq_getElem_cons hlt, hget]
  simpa [hc] using Boundary.char c (.zero (s.drop (i + 1)))

end Utf8
