import LlmGuard.Lib.Utf8

/-!
# Valid UTF-8

A text without broken bytes: the encodings of its characters, one behind the other. Its boundaries are the
places where no continuation byte stands.
-/

namespace Utf8

/-- The text is valid UTF-8. -/
inductive Text : List UInt8 → Prop
  | nil : Text []
  | char (c : Char) {s : List UInt8} (h : Text s) : Text (encode c ++ s)

theorem Text.append {s t : List UInt8} (hs : Text s) (ht : Text t) : Text (s ++ t) := by
  induction hs with
  | nil => exact ht
  | char c _ ih =>
    rw [List.append_assoc]
    exact .char c ih

theorem Text.encode (c : Char) : Text (encode c) := by
  have := Text.char c .nil
  rwa [List.append_nil] at this

theorem Text.of_ascii {s : List UInt8} (h : ∀ b ∈ s, b.toNat < 0x80) : Text s := by
  induction s with
  | nil => exact .nil
  | cons b s ih =>
    obtain ⟨c, hc, -⟩ := exists_one b (h b List.mem_cons_self)
    have := Text.char c (ih fun b hb => h b (List.mem_cons_of_mem _ hb))
    rwa [hc] at this

theorem Text.exists_char {s : List UInt8} (h : Text s) (hne : s ≠ []) : ∃ c t, s = Utf8.encode c ++ t ∧ Text t := by
  cases h with
  | nil => exact absurd rfl hne
  | char c h => exact ⟨c, _, rfl, h⟩

theorem Text.of_char {c : Char} {s : List UInt8} (h : Text (Utf8.encode c ++ s)) : Text s := by
  have hne : Utf8.encode c ++ s ≠ [] := by simp [encode_ne_nil c]
  obtain ⟨d, t, heq, ht⟩ := h.exists_char hne
  obtain rfl : c = d := encode_unique ⟨s, rfl⟩ ⟨t, heq.symm⟩
  rwa [List.append_cancel_left heq]

/-! ## Boundaries -/

theorem Text.split {s : List UInt8} {i : Nat} (h : Text s) (hi : Boundary s i) : Text (s.take i) ∧ Text (s.drop i) := by
  induction hi with
  | zero s => exact ⟨.nil, h⟩
  | @char c s i hi ih =>
    obtain ⟨htake, hdrop⟩ := ih h.of_char
    rw [List.take_append, List.take_of_length_le (by omega), List.drop_append, List.drop_eq_nil_of_le (by omega),
      Nat.add_sub_cancel_left, List.nil_append]
    exact ⟨.char c htake, hdrop⟩
  | broken hb _ _ =>
    obtain ⟨c, t, heq, -⟩ := h.exists_char (List.cons_ne_nil _ _)
    exact absurd ⟨t, heq.symm⟩ (hb c)

theorem encode_tails (c : Char) : ∃ b w, Utf8.encode c = b :: w ∧ ¬ IsTail b ∧ ∀ d ∈ w, IsTail d := by
  unfold IsTail
  rcases encode_cases c with ⟨hlow, a, h, h₀⟩ | ⟨-, -, a, b, h, h₀, h₁⟩ | ⟨-, -, a, b, d, h, h₀, h₁, h₂⟩ |
    ⟨-, -, a, b, d, e, h, h₀, h₁, h₂, h₃⟩
  · exact ⟨a, [], h, by omega, by simp⟩
  · refine ⟨a, [b], h, by omega, ?_⟩
    simp only [List.mem_singleton, forall_eq]
    omega
  · refine ⟨a, [b, d], h, by omega, ?_⟩
    simp only [List.mem_cons, List.not_mem_nil, or_false, forall_eq_or_imp, forall_eq]
    omega
  · refine ⟨a, [b, d, e], h, by omega, ?_⟩
    simp only [List.mem_cons, List.not_mem_nil, or_false, forall_eq_or_imp, forall_eq]
    omega

/-- A place of a text where no continuation byte stands is a boundary. -/
theorem Text.boundary_of_not_tail {s : List UInt8} {i : Nat} {b : UInt8} (h : Text s) (hi : s[i]? = some b)
    (hb : ¬ IsTail b) : Boundary s i := by
  induction h generalizing i with
  | nil => cases hi
  | @char c s _ ih =>
    rcases Nat.lt_or_ge i (Utf8.encode c).length with hlt | hge
    · obtain ⟨a, w, hc, -, htails⟩ := encode_tails c
      cases i with
      | zero => exact .zero _
      | succ i =>
        rw [List.getElem?_append_left hlt, hc, List.getElem?_cons_succ] at hi
        exact absurd (htails b (List.mem_of_getElem? hi)) hb
    · rw [List.getElem?_append_right hge] at hi
      have := Boundary.char c (ih hi)
      rwa [Nat.add_sub_cancel' hge] at this

theorem Text.not_tail_of_boundary {s : List UInt8} {i : Nat} {b : UInt8} (h : Text s) (hi : Boundary s i)
    (hb : s[i]? = some b) : ¬ IsTail b := by
  obtain ⟨-, hdrop⟩ := h.split hi
  have hhead : (s.drop i)[0]? = some b := by rw [List.getElem?_drop, Nat.add_zero, hb]
  obtain ⟨c, t, heq, -⟩ := hdrop.exists_char (by rintro hnil; rw [hnil] at hhead; cases hhead)
  obtain ⟨a, w, hc, ha, -⟩ := encode_tails c
  rw [heq, hc] at hhead
  obtain rfl := Option.some.inj hhead
  exact ha

theorem Text.before_ascii {s t : List UInt8} {b : UInt8} (h : Text (s ++ b :: t)) (hb : b.toNat < 0x80) : Text s := by
  have hat : (s ++ b :: t)[s.length]? = some b := by simp
  have := (h.split (.of_ascii hat hb)).1
  rwa [List.take_left] at this

theorem Text.behind_ascii {s t : List UInt8} {b : UInt8} (h : Text (s ++ b :: t)) (hb : b.toNat < 0x80) : Text t := by
  have hat : (s ++ b :: t)[s.length]? = some b := by simp
  have := (h.split (.after_ascii hat hb)).2
  rwa [List.drop_append, List.drop_eq_nil_of_le (by omega), List.nil_append, Nat.add_sub_cancel_left,
    List.drop_succ_cons, List.drop_zero] at this

end Utf8
