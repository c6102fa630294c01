import LlmGuard.Json.Tokens

/-!
# Encoding and decoding strings

`encode_string` writes a body of the grammar, and `decode_string` undoes each of its escapes.
-/

namespace LlmGuard.Json

open Rfc8259 (IsBody quoted)

/-! ## One step of each loop -/

theorem encodeBody_skip (n : Nat) (s : Bytes) : encodeBody n s = encodeBody 0 (s.drop n) := by
  induction n generalizing s with
  | zero => rfl
  | succ n ih =>
    cases s with
    | nil => rfl
    | cons c s => exact ih s

theorem decodeBody_skip (n : Nat) (s : Bytes) : decodeBody n s = decodeBody 0 (s.drop n) := by
  induction n generalizing s with
  | zero => rfl
  | succ n ih =>
    cases s with
    | nil => rfl
    | cons c s => exact ih s

theorem encodeBody_cons (c : Byte) (s : Bytes) :
    encodeBody 0 (c :: s) = (encodeFront c s).1 ++ encodeBody 0 (s.drop ((encodeFront c s).2 - 1)) := by
  rw [← encodeBody_skip]
  rfl

theorem decodeBody_plain {c : Byte} (h : c ≠ ch '\\') (s : Bytes) : decodeBody 0 (c :: s) = c :: decodeBody 0 s := by
  rw [decodeBody, if_neg h]

theorem decodeBody_escape (s : Bytes) :
    decodeBody 0 (ch '\\' :: s) = (decodeEscape s).1 ++ decodeBody 0 (s.drop (decodeEscape s).2) := by
  rw [← decodeBody_skip, decodeBody, if_pos rfl]

/-! ## What is written for the bytes at the front -/

/-- Text that stands for the bytes `raw` in a body. -/
structure Writes (out raw : Bytes) : Prop where
  body : ∀ s, IsBody s → IsBody (out ++ s)
  decoded : ∀ s, decodeBody 0 (out ++ s) = raw ++ decodeBody 0 s

theorem writes_plain {c : Byte} (hlow : 0x20 ≤ c) (hquote : c ≠ ch '"') (hback : c ≠ ch '\\') : Writes [c] [c] where
  body _ hs := .plain hlow hquote hback hs
  decoded s := decodeBody_plain hback s

theorem writes_escape {e c : Byte} (he : Rfc8259.simpleEscape e) (hdec : ∀ s, decodeEscape (e :: s) = ([c], 1)) :
    Writes [ch '\\', e] [c] where
  body _ hs := .escape he hs
  decoded s := by
    change decodeBody 0 (ch '\\' :: e :: s) = _
    rw [decodeBody_escape, hdec]
    rfl

theorem hexValue_hexDigit : ∀ n < 16, Rfc8259.hexDigit (hexDigit n) = true ∧ hexValue (hexDigit n) = some n := by
  decide

theorem decodeUnicode_of_low {r : Nat} {s : Bytes} (hr : readHex4 s = some r) (hlow : r < 0xD800) :
    decodeUnicode s = (appendUtf8 r, 4) := by
  unfold decodeUnicode
  simp only [hr]
  rw [if_neg (by simp; omega), if_neg (by simp; omega)]

theorem decodeEscape_unicode {r : Nat} {s : Bytes} (hr : readHex4 s = some r) (hlow : r < 0xD800) :
    decodeEscape (ch 'u' :: s) = (appendUtf8 r, 5) := by
  simp only [decodeEscape, decodeUnicode_of_low hr hlow]
  rfl

theorem writes_unicode {h₁ h₂ h₃ h₄ : Byte} {raw : Bytes} {r : Nat} (hex₁ : Rfc8259.hexDigit h₁)
    (hex₂ : Rfc8259.hexDigit h₂) (hex₃ : Rfc8259.hexDigit h₃) (hex₄ : Rfc8259.hexDigit h₄)
    (hr : ∀ s, readHex4 (h₁ :: h₂ :: h₃ :: h₄ :: s) = some r) (hlow : r < 0xD800) (hraw : appendUtf8 r = raw) :
    Writes [ch '\\', ch 'u', h₁, h₂, h₃, h₄] raw where
  body _ hs := .unicode hex₁ hex₂ hex₃ hex₄ hs
  decoded s := by
    change decodeBody 0 (ch '\\' :: ch 'u' :: h₁ :: h₂ :: h₃ :: h₄ :: s) = _
    rw [decodeBody_escape, decodeEscape_unicode (hr s) hlow, hraw]
    rfl

theorem writes_control {c : Byte} (hlow : c < 0x20) :
    Writes (ascii "\\u00" ++ [hexDigit (c.toNat / 16), hexDigit (c.toNat % 16)]) [c] := by
  have hlt : c.toNat < 32 := hlow
  obtain ⟨hd₁, hv₁⟩ := hexValue_hexDigit (c.toNat / 16) (by omega)
  obtain ⟨hd₂, hv₂⟩ := hexValue_hexDigit (c.toNat % 16) (by omega)
  have hread : ∀ s, readHex4 (ch '0' :: ch '0' :: hexDigit (c.toNat / 16) :: hexDigit (c.toNat % 16) :: s) =
      some c.toNat := by
    intro s
    simp only [readHex4, hv₁, hv₂, show hexValue (ch '0') = some 0 from rfl, Option.bind_eq_bind, Option.bind_some]
    congr 1
    omega
  apply writes_unicode (r := c.toNat) (by decide) (by decide) hd₁ hd₂ hread (by omega)
  rw [appendUtf8, if_pos (by omega)]
  simp [byteOf]

theorem lineSeparator_eq_some {s out : Bytes} (h : lineSeparator s = some out) :
    (∃ t, s = 0xE2 :: 0x80 :: 0xA8 :: t ∧ out = ascii "\\u2028") ∨
      ∃ t, s = 0xE2 :: 0x80 :: 0xA9 :: t ∧ out = ascii "\\u2029" := by
  rcases s with _ | ⟨c, _ | ⟨b, _ | ⟨d, s⟩⟩⟩
  · cases h
  · cases h
  · cases h
  rw [lineSeparator] at h
  split at h
  · rename_i hc
    simp only [Bool.and_eq_true, decide_eq_true_eq] at hc
    obtain ⟨⟨rfl, rfl⟩, rfl⟩ := hc
    exact .inl ⟨s, rfl, (Option.some.inj h).symm⟩
  · split at h
    · rename_i hc
      simp only [Bool.and_eq_true, decide_eq_true_eq] at hc
      obtain ⟨⟨rfl, rfl⟩, rfl⟩ := hc
      exact .inr ⟨s, rfl, (Option.some.inj h).symm⟩
    · cases h

theorem writes_lineSeparator {c : Byte} {s out : Bytes} (h : lineSeparator (c :: s) = some out) :
    ∃ raw s', c :: s = raw ++ s' ∧ raw.length = 3 ∧ Writes out raw := by
  rcases lineSeparator_eq_some h with ⟨t, hs, rfl⟩ | ⟨t, hs, rfl⟩
  · exact ⟨[0xE2, 0x80, 0xA8], t, hs, rfl, writes_unicode (r := 0x2028) (by decide) (by decide) (by decide)
      (by decide) (fun _ => rfl) (by decide) (by decide)⟩
  · exact ⟨[0xE2, 0x80, 0xA9], t, hs, rfl, writes_unicode (r := 0x2029) (by decide) (by decide) (by decide)
      (by decide) (fun _ => rfl) (by decide) (by decide)⟩

theorem hexDigit_ascii (n : Nat) (hn : n < 16) : (hexDigit n).toNat < 0x80 := by
  have hall : ∀ n < 16, (hexDigit n).toNat < 0x80 := by decide
  exact hall n hn

/-- What is written for the front: an ASCII escape of an ASCII byte or of a line separator, or the byte itself. -/
theorem encodeFront_cases (c : Byte) (s : Bytes) :
    (c.toNat < 0x80 ∧ ∃ out, encodeFront c s = (out, 1) ∧ Writes out [c] ∧ ∀ b ∈ out, b.toNat < 0x80) ∨
      (∃ out, lineSeparator (c :: s) = some out ∧ encodeFront c s = (out, 3)) ∨
      (encodeFront c s = ([c], 1) ∧ Writes [c] [c]) := by
  by_cases hesc : c ∈ [ch '"', ch '\\', 8, 12, 10, 13, 9]
  · simp only [List.mem_cons, List.not_mem_nil, or_false] at hesc
    rcases hesc with rfl | rfl | rfl | rfl | rfl | rfl | rfl <;>
      exact .inl ⟨by decide, _, rfl, writes_escape (by decide) fun _ => rfl, by decide⟩
  · simp only [List.mem_cons, List.not_mem_nil, or_false, not_or] at hesc
    obtain ⟨hq, hb, h₁, h₂, h₃, h₄, h₅⟩ := hesc
    by_cases hlow : c < 0x20
    · have hlt : c.toNat < 0x20 := hlow
      refine .inl ⟨by omega, ascii "\\u00" ++ [hexDigit (c.toNat / 16), hexDigit (c.toNat % 16)], ?_, writes_control hlow,
        List.forall_mem_append.mpr ⟨by decide, ?_⟩⟩
      · rewrite [encodeFront, if_neg hq, if_neg hb, if_neg h₁, if_neg h₂, if_neg h₃, if_neg h₄, if_neg h₅, if_pos hlow]
        rfl
      · simp only [List.mem_cons, List.not_mem_nil, or_false, forall_eq_or_imp, forall_eq]
        exact ⟨hexDigit_ascii _ (by omega), hexDigit_ascii _ (by omega)⟩
    · refine .inr ?_
      cases hline : lineSeparator (c :: s) with
      | none =>
        refine .inr ⟨?_, writes_plain (by simpa using hlow) hq hb⟩
        rewrite [encodeFront, if_neg hq, if_neg hb, if_neg h₁, if_neg h₂, if_neg h₃, if_neg h₄, if_neg h₅,
          if_neg hlow, hline]
        rfl
      | some out =>
        refine .inl ⟨out, rfl, ?_⟩
        rewrite [encodeFront, if_neg hq, if_neg hb, if_neg h₁, if_neg h₂, if_neg h₃, if_neg h₄, if_neg h₅,
          if_neg hlow, hline]
        rfl

theorem writes_encodeFront (c : Byte) (s : Bytes) :
    ∃ raw, c :: s = raw ++ s.drop ((encodeFront c s).2 - 1) ∧ raw ≠ [] ∧ Writes (encodeFront c s).1 raw := by
  rcases encodeFront_cases c s with ⟨-, out, hfront, hwrites, -⟩ | ⟨out, hline, hfront⟩ | ⟨hfront, hwrites⟩
  · rw [hfront]
    exact ⟨[c], rfl, by simp, hwrites⟩
  · obtain ⟨raw, s', hraw, hlen, hwrites⟩ := writes_lineSeparator hline
    rw [hfront]
    have hdrop : s.drop 2 = s' := by
      have := congrArg (List.drop 3) hraw
      rw [← hlen, List.drop_left, hlen] at this
      exact this
    exact ⟨raw, by rw [hraw, ← hdrop]; rfl, List.ne_nil_of_length_eq_add_one hlen, hwrites⟩
  · rw [hfront]
    exact ⟨[c], rfl, by simp, hwrites⟩

/-! ## The whole string -/

theorem encodeBody_spec (s : Bytes) : IsBody (encodeBody 0 s) ∧ decodeBody 0 (encodeBody 0 s) = s := by
  induction hn : s.length using Nat.strong_induction_on generalizing s with
  | _ n ih =>
    cases s with
    | nil => exact ⟨.nil, rfl⟩
    | cons c s =>
      obtain ⟨raw, hraw, hne, hwrites⟩ := writes_encodeFront c s
      have hlt : (s.drop ((encodeFront c s).2 - 1)).length < n := by
        rw [← hn, List.length_drop, List.length_cons]
        omega
      obtain ⟨hbody, hdecoded⟩ := ih _ hlt _ rfl
      rw [encodeBody_cons]
      exact ⟨hwrites.body _ hbody, by rw [hwrites.decoded, hdecoded, ← hraw]⟩

theorem decodeString_quoted (b : Bytes) : decodeString (quoted b) = decodeBody 0 b := by
  have hlast : (ch '"' :: (b ++ [ch '"'])).getLast? = some (ch '"') := by
    rw [← List.cons_append, List.getLast?_concat]
  change decodeString (ch '"' :: (b ++ [ch '"'])) = _
  unfold decodeString
  rw [hlast, if_neg (by simp), List.drop_one, List.tail_cons, List.dropLast_concat]

/-- An encoded string is one literal, and decoding gives the string back. -/
theorem encodeString_roundTrip (s : Bytes) :
    skipString (encodeString s true) = some [] ∧ decodeString (encodeString s true) = s := by
  obtain ⟨hbody, hdecoded⟩ := encodeBody_spec s
  have hquoted : encodeString s true = quoted (encodeBody 0 s) := rfl
  have hskip := skipString_quoted ⟨_, hbody⟩ []
  rw [List.append_nil] at hskip
  rw [hquoted, decodeString_quoted]
  exact ⟨hskip, hdecoded⟩

end LlmGuard.Json
