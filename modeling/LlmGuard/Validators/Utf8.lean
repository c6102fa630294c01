import LlmGuard.Code.JsonString
import LlmGuard.Scanner.Decode

/-!
# `decode_utf8` and `append_utf8`

The decoder goes through a text by whole characters and single broken bytes, and comes out at its end. On what the
encoder of the JSON reader writes it finds the code points again.
-/

namespace LlmGuard

open Utf8

/-! ## One step -/

theorem decodeUtf8_le {s : Bytes} {i : Nat} (hi : i < s.length) : i + (decodeUtf8 s i).2 ≤ s.length := by
  rw [decodeUtf8_drop]
  obtain ⟨b, t, ht⟩ := List.exists_cons_of_ne_nil (List.drop_eq_nil_iff.not.mpr (by omega : ¬ s.length ≤ i))
  have hlen : (b :: t).length = s.length - i := by rw [← ht, List.length_drop]
  rw [ht]
  rcases decodeUtf8_reads b t with ⟨c, hc, hread⟩ | ⟨-, hread⟩
  · have := hc.length_le
    rw [hread]
    omega
  · rw [hread]
    omega

theorem decodeUtf8_char {s : Bytes} {i : Nat} {c : Char} (h : encode c <+: s.drop i) :
    decodeUtf8 s i = (c.toNat, (encode c).length) := by
  rw [decodeUtf8_drop]
  obtain ⟨b, t, ht⟩ : ∃ b t, s.drop i = b :: t := by
    refine List.exists_cons_of_ne_nil fun hnil => ?_
    rw [hnil, List.prefix_nil] at h
    exact encode_ne_nil c h
  rw [ht] at h ⊢
  rcases decodeUtf8_reads b t with ⟨d, hd, hread⟩ | ⟨hbroken, -⟩
  · rw [hread, encode_unique h hd]
  · exact absurd h (hbroken c)

/-- More than one byte is read where a well-formed sequence of that length begins, and its value is what is read. -/
theorem decodeUtf8_long {s : Bytes} {i v n : Nat} (hi : i < s.length) (hn : 1 < n) :
    decodeUtf8 s i = (v, n) ↔ ∃ w, WellFormed w v ∧ w.length = n ∧ w <+: s.drop i := by
  constructor
  · intro h
    obtain ⟨b, t, ht⟩ := List.exists_cons_of_ne_nil (List.drop_eq_nil_iff.not.mpr (by omega : ¬ s.length ≤ i))
    rw [decodeUtf8_drop, ht] at h
    rcases decodeUtf8_reads b t with ⟨c, hc, hread⟩ | ⟨-, hread⟩
    · obtain ⟨rfl, rfl⟩ := Prod.mk.inj (hread.symm.trans h)
      exact ⟨encode c, wellFormed_encode c, rfl, ht ▸ hc⟩
    · obtain ⟨-, rfl⟩ := Prod.mk.inj (hread.symm.trans h)
      omega
  · rintro ⟨w, hw, rfl, hfront⟩
    obtain ⟨c, rfl, rfl⟩ := hw.exists_char
    exact decodeUtf8_char hfront

/-! ## The whole text -/

/-- `while (i < s.size())` in `shannon_entropy`: the code points with their offsets, and where the loop ends. -/
def decodeRunes (s : Bytes) (i : Nat) : List (Nat × Nat) × Nat :=
  if i < s.length then
    let decoded := decodeUtf8 s i
    let rest := decodeRunes s (i + decoded.2)
    ((i, decoded.1) :: rest.1, rest.2)
  else ([], i)
termination_by s.length - i
decreasing_by
  have := decodeUtf8_pos s i
  omega

theorem decodeRunes_step {s : Bytes} {i : Nat} (hi : i < s.length) : decodeRunes s i =
    ((i, (decodeUtf8 s i).1) :: (decodeRunes s (i + (decodeUtf8 s i).2)).1,
      (decodeRunes s (i + (decodeUtf8 s i).2)).2) := by
  rw [decodeRunes, if_pos hi]

theorem decodeRunes_stop {s : Bytes} {i : Nat} (hi : ¬ i < s.length) : decodeRunes s i = ([], i) := by
  rw [decodeRunes, if_neg hi]

theorem decodeRunes_spec (s : Bytes) (i : Nat) (hi : i ≤ s.length) :
    (decodeRunes s i).2 = s.length ∧ (decodeRunes s i).1.Pairwise (fun a b => a.1 < b.1) ∧
      ∀ a ∈ (decodeRunes s i).1, i ≤ a.1 ∧ a.1 < s.length := by
  induction i using decodeRunes.induct s with
  | case1 i hlt decoded ih =>
    have hpos := decodeUtf8_pos s i
    obtain ⟨hend, hgrow, hin⟩ := ih (decodeUtf8_le hlt)
    rw [decodeRunes_step hlt]
    have hlater : ∀ a ∈ (decodeRunes s (i + (decodeUtf8 s i).2)).1, i < a.1 ∧ a.1 < s.length := by
      intro a ha
      have hnext : i + (decodeUtf8 s i).2 ≤ a.1 := (hin a ha).1
      exact ⟨by omega, (hin a ha).2⟩
    refine ⟨hend, List.pairwise_cons.mpr ⟨fun a ha => (hlater a ha).1, hgrow⟩, ?_⟩
    exact List.forall_mem_cons.mpr ⟨⟨Nat.le_refl i, hlt⟩, fun a ha => ⟨(hlater a ha).1.le, (hlater a ha).2⟩⟩
  | case2 i hge =>
    rw [decodeRunes_stop hge]
    exact ⟨by dsimp only; omega, .nil, by simp⟩

/-! ## The encoder -/

theorem appendUtf8_eq (c : Char) : Json.appendUtf8 c.toNat = encode c := by
  unfold Json.appendUtf8
  rcases encode_cases c with ⟨h, a, he, h₀⟩ | ⟨h, h', a, b, he, h₀, h₁⟩ | ⟨h, h', a, b, d, he, h₀, h₁, h₂⟩ |
    ⟨h, h', a, b, d, e, he, h₀, h₁, h₂, h₃⟩
  · rw [if_pos (by omega), he, ← h₀]
    simp [Json.byteOf]
  · rw [if_neg (by omega), if_pos (by omega), he, ← h₀, ← h₁]
    simp [Json.byteOf]
  · rw [if_neg (by omega), if_neg (by omega), if_pos (by omega), he, ← h₀, ← h₁, ← h₂]
    simp [Json.byteOf]
  · rw [if_neg (by omega), if_neg (by omega), if_neg (by omega), he, ← h₀, ← h₁, ← h₂, ← h₃]
    simp [Json.byteOf]

theorem decodeRunes_append (pre : Bytes) (cs : List Char) :
    (decodeRunes (pre ++ cs.flatMap encode) pre.length).1.map (·.2) = cs.map Char.toNat := by
  induction cs generalizing pre with
  | nil =>
    rw [decodeRunes_stop (by simp)]
    rfl
  | cons c cs ih =>
    have hpos := encode_pos c
    have hlt : pre.length < (pre ++ (c :: cs).flatMap encode).length := by
      rw [List.flatMap_cons, List.length_append, List.length_append]
      omega
    have hread : decodeUtf8 (pre ++ (c :: cs).flatMap encode) pre.length = (c.toNat, (encode c).length) := by
      apply decodeUtf8_char
      rw [List.drop_left, List.flatMap_cons]
      exact List.prefix_append _ _
    have hrest := ih (pre ++ encode c)
    rw [List.append_assoc, ← List.flatMap_cons, List.length_append] at hrest
    rw [decodeRunes_step hlt, hread, List.map_cons, List.map_cons, hrest]

/-- A text is gone through without a step back and without a step past its end, a step over more than one byte is a
well-formed sequence, and a list of scalar values comes back from its encoding. -/
theorem decodeUtf8_appendUtf8 (s : Bytes) :
    ((decodeRunes s 0).2 = s.length ∧ (decodeRunes s 0).1.Pairwise (fun a b => a.1 < b.1) ∧
      ∀ a ∈ (decodeRunes s 0).1, a.1 < s.length) ∧
    (∀ i < s.length, ∀ v n, 1 < n →
      (decodeUtf8 s i = (v, n) ↔ ∃ w, WellFormed w v ∧ w.length = n ∧ w <+: s.drop i)) ∧
    ∀ cs : List Char,
      (decodeRunes (cs.flatMap fun c => Json.appendUtf8 c.toNat) 0).1.map (·.2) = cs.map Char.toNat := by
  refine ⟨?_, fun i hi v n hn => decodeUtf8_long hi hn, fun cs => ?_⟩
  · obtain ⟨hend, hgrow, hin⟩ := decodeRunes_spec s 0 (Nat.zero_le _)
    exact ⟨hend, hgrow, fun a ha => (hin a ha).2⟩
  · have hencode : (cs.flatMap fun c => Json.appendUtf8 c.toNat) = cs.flatMap encode :=
      List.flatMap_congr fun c _ => appendUtf8_eq c
    have happend := decodeRunes_append [] cs
    rw [hencode]
    simpa using happend

end LlmGuard
