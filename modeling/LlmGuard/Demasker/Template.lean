import LlmGuard.Demasker.Spec
import LlmGuard.Code.Registry
import LlmGuard.Masker.Reserved

/-!
# The words of a recogniser

What RE2 matches with the template of `build_placeholder_pattern`. The recogniser is anchored nowhere, so a
word is recognised wherever it stands.
-/

namespace LlmGuard

open Fence

/-- `\s` of RE2. -/
def isBlankByte (b : Byte) : Bool := b = 32 || b = 9 || b = 10 || b = 12 || b = 13

/-- `[\s_-]`. -/
def isSepByte (b : Byte) : Bool := isBlankByte b || b = ch '_' || b = ch '-'

/-- A token and what it matches under `(?i)`. Brackets have no other case. -/
structure CaseFold (fold : Bytes → Bytes → Prop) : Prop where
  brackets : ∀ token w, fold token w → ∀ b ∈ w, b = ch '<' ∨ b = ch '>' → b ∈ token

/-- Up to `n` bytes of one kind. -/
def AtMost (n : Nat) (kind : Byte → Bool) (w : Bytes) : Prop := w.length ≤ n ∧ w.all kind

/-- The tokens, each with a separator behind it. -/
inductive TokenWords (fold : Bytes → Bytes → Prop) : List Bytes → Bytes → Prop
  | nil : TokenWords fold [] []
  | cons {token word sep rest : Bytes} {tokens : List Bytes} (htoken : fold token word)
      (hsep : AtMost 3 isSepByte sep) (hrest : TokenWords fold tokens rest) :
      TokenWords fold (token :: tokens) (word ++ (sep ++ rest))

/-- `(?i)<\s{0,3}` tokens `([0-9]{1,9})\s{0,3}>`. -/
inductive TemplateWord (fold : Bytes → Bytes → Prop) (name : Bytes) : Bytes → Bytes → Prop
  | intro {before words digits after : Bytes} (hbefore : AtMost 3 isBlankByte before)
      (hwords : TokenWords fold (splitOnUnderscore name) words) (hne : digits ≠ [])
      (hdigits : AtMost 9 isDigit digits) (hafter : AtMost 3 isBlankByte after) :
      TemplateWord fold name (ch '<' :: (before ++ (words ++ (digits ++ (after ++ [ch '>']))))) digits

/-- The recogniser of a rule, as it is compiled. -/
def recogniser (re2 : Re2) (r : Rule) : Regex :=
  ascii "(?m)" ++ buildPlaceholderPatternString re2 (asciiTrim r.masking.placeholder)

/-- RE2 on the recognisers of these rules. -/
structure ReadsTemplates (re2 : Re2) (fold : Bytes → Bytes → Prop) (spell : Spelling) (rules : List Rule) : Prop where
  folds : CaseFold fold
  finds : ∀ r ∈ rules, Finds re2 (recogniser re2 r) (spell (recogniser re2 r))
  sound : ∀ r ∈ rules, ∀ w digits, spell (recogniser re2 r) w = some digits →
    TemplateWord fold (asciiTrim r.masking.placeholder) w digits
  complete : ∀ r ∈ rules, ∀ w digits, TemplateWord fold (asciiTrim r.masking.placeholder) w digits →
    (spell (recogniser re2 r) w).isSome

/-! ## Reading a word -/

/-- The fronts of `w` with up to `n` bytes of one kind, and what is left. -/
def splitsAtMost (n : Nat) (kind : Byte → Bool) (w : Bytes) : List (Bytes × Bytes) :=
  ((List.range (n + 1)).map fun k => (w.take k, w.drop k)).filter fun p => p.1.all kind

theorem mem_splitsAtMost {n : Nat} {kind : Byte → Bool} {w front rest : Bytes} :
    (front, rest) ∈ splitsAtMost n kind w ↔ AtMost n kind front ∧ w = front ++ rest := by
  unfold splitsAtMost AtMost
  simp only [List.mem_filter, List.mem_map, List.mem_range, Prod.mk.injEq]
  constructor
  · rintro ⟨⟨k, hk, rfl, rfl⟩, hall⟩
    exact ⟨⟨by rw [List.length_take]; omega, hall⟩, (List.take_append_drop k w).symm⟩
  · rintro ⟨⟨hlen, hall⟩, rfl⟩
    exact ⟨⟨front.length, by omega, by simp⟩, hall⟩

/-- A token under `(?i)`, for ASCII tokens and words. -/
def asciiFold (token w : Bytes) : Prop := token.map asciiToLower = w.map asciiToLower

instance (token w : Bytes) : Decidable (asciiFold token w) := inferInstanceAs (Decidable (_ = _))

/-- What is left behind the tokens. -/
def readTokens : List Bytes → Bytes → List Bytes
  | [], w => [w]
  | token :: tokens, w =>
    if asciiFold token (w.take token.length) then
      (splitsAtMost 3 isSepByte (w.drop token.length)).flatMap fun p => readTokens tokens p.2
    else []

/-- The digits that the template captures in a word. -/
def readTemplate (name : Bytes) : Bytes → List Bytes
  | [] => []
  | b :: w =>
    if b = ch '<' then
      (splitsAtMost 3 isBlankByte w).flatMap fun p =>
        (readTokens (splitOnUnderscore name) p.2).flatMap fun rest =>
          (splitsAtMost 9 isDigit rest).flatMap fun q =>
            if q.1 ≠ [] ∧ ∃ r ∈ splitsAtMost 3 isBlankByte q.2, r.2 = [ch '>'] then [q.1] else []
    else []

theorem mem_readTokens {tokens : List Bytes} {w rest : Bytes} :
    rest ∈ readTokens tokens w ↔ ∃ words, TokenWords asciiFold tokens words ∧ w = words ++ rest := by
  induction tokens generalizing w with
  | nil =>
    rw [readTokens, List.mem_singleton]
    constructor
    · rintro rfl
      exact ⟨[], .nil, rfl⟩
    · rintro ⟨_, ⟨⟩, rfl⟩
      rfl
  | cons token tokens ih =>
    rw [readTokens]
    constructor
    · intro h
      split at h
      · rename_i hfold
        obtain ⟨⟨sep, w'⟩, hsplit, h⟩ := List.mem_flatMap.mp h
        obtain ⟨hsep, hdrop⟩ := mem_splitsAtMost.mp hsplit
        obtain ⟨words, hwords, rfl⟩ := ih.mp h
        refine ⟨_, .cons hfold hsep hwords, ?_⟩
        rw [List.append_assoc, List.append_assoc, ← hdrop, List.take_append_drop]
      · cases h
    · rintro ⟨_, hwords, rfl⟩
      cases hwords with
      | @cons _ word sep words _ hfold hsep hwords =>
        have hlen : word.length = token.length := by
          have := congrArg List.length hfold
          simpa using this.symm
        rw [← hlen, List.append_assoc, List.take_left, List.drop_left, if_pos hfold]
        exact List.mem_flatMap.mpr ⟨(sep, words ++ rest), mem_splitsAtMost.mpr ⟨hsep, by simp⟩, ih.mpr ⟨words, hwords, rfl⟩⟩

theorem mem_readTemplate {name w digits : Bytes} :
    digits ∈ readTemplate name w ↔ TemplateWord asciiFold name w digits := by
  constructor
  · intro h
    unfold readTemplate at h
    split at h
    · cases h
    · split at h
      · rename_i hb
        subst hb
        obtain ⟨⟨before, rest₁⟩, hbefore, h⟩ := List.mem_flatMap.mp h
        obtain ⟨rest₂, hrest, h⟩ := List.mem_flatMap.mp h
        obtain ⟨⟨digits', rest₃⟩, hdigits, h⟩ := List.mem_flatMap.mp h
        split at h
        · rename_i hend
          obtain rfl := List.mem_singleton.mp h
          obtain ⟨hne, ⟨after, _⟩, hafter, rfl⟩ := hend
          obtain ⟨kbefore, rfl⟩ := mem_splitsAtMost.mp hbefore
          obtain ⟨words, hwords, heq₁⟩ := mem_readTokens.mp hrest
          obtain ⟨kdigits, heq₂⟩ := mem_splitsAtMost.mp hdigits
          obtain ⟨kafter, heq₃⟩ := mem_splitsAtMost.mp hafter
          simp only at heq₁ heq₂ heq₃
          rw [heq₁, heq₂, heq₃]
          exact .intro kbefore hwords hne kdigits kafter
        · cases h
      · cases h
  · rintro ⟨hbefore, hwords, hne, hdigits, hafter⟩
    rename_i before words after
    rw [readTemplate, if_pos rfl]
    refine List.mem_flatMap.mpr ⟨(before, _), mem_splitsAtMost.mpr ⟨hbefore, rfl⟩, ?_⟩
    refine List.mem_flatMap.mpr ⟨_, mem_readTokens.mpr ⟨words, hwords, rfl⟩, ?_⟩
    refine List.mem_flatMap.mpr ⟨(digits, _), mem_splitsAtMost.mpr ⟨hdigits, rfl⟩, ?_⟩
    rw [if_pos ⟨hne, (after, [ch '>']), mem_splitsAtMost.mpr ⟨hafter, rfl⟩, rfl⟩]
    exact List.mem_singleton_self _

/-! ## Words between brackets -/

theorem mem_splitFields {current s field : Bytes} {b : Byte} (hf : field ∈ splitFields current s) (hb : b ∈ field) :
    b ∈ current ∨ b ∈ s := by
  induction s generalizing current with
  | nil =>
    unfold splitFields at hf
    split at hf
    · cases hf
    · exact .inl (List.mem_singleton.mp hf ▸ hb)
  | cons c s ih =>
    unfold splitFields at hf
    split at hf
    · split at hf
      · rcases ih hf with h | h
        · cases h
        · exact .inr (List.mem_cons_of_mem _ h)
      · rcases List.mem_cons.mp hf with rfl | hf
        · exact .inl hb
        · rcases ih hf with h | h
          · cases h
          · exact .inr (List.mem_cons_of_mem _ h)
    · rcases ih hf with h | h
      · rcases List.mem_append.mp h with h | h
        · exact .inl h
        · exact .inr (List.mem_cons.mpr (.inl (List.mem_singleton.mp h)))
      · exact .inr (List.mem_cons_of_mem _ h)

theorem mem_splitOnUnderscore {name token : Bytes} {b : Byte} (ht : token ∈ splitOnUnderscore name) (hb : b ∈ token) :
    b ∈ name := by
  unfold splitOnUnderscore at ht
  simp only at ht
  split at ht
  · exact List.mem_singleton.mp ht ▸ hb
  · simpa using mem_splitFields ht hb

theorem mem_asciiTrim {s : Bytes} {b : Byte} (h : b ∈ asciiTrim s) : b ∈ s := by
  unfold asciiTrim at h
  have := (List.dropWhile_suffix isSpace).mem (List.mem_reverse.mp h)
  exact (List.dropWhile_suffix isSpace).mem (List.mem_reverse.mp this)

def IsBracket (b : Byte) : Prop := b = ch '<' ∨ b = ch '>'

/-- A placeholder type without brackets. -/
def Bracketless (type : Bytes) : Prop := ∀ b ∈ type, ¬ IsBracket b

theorem AtMost.no_bracket {n : Nat} {kind : Byte → Bool} {w : Bytes} (h : AtMost n kind w)
    (hkind : kind (ch '<') = false ∧ kind (ch '>') = false) : Bracketless w := by
  intro b hb hbracket
  have hall := List.all_eq_true.mp h.2 b hb
  rcases hbracket with rfl | rfl
  · rw [hkind.1] at hall
    cases hall
  · rw [hkind.2] at hall
    cases hall

theorem Bracketless.append {v w : Bytes} (hv : Bracketless v) (hw : Bracketless w) : Bracketless (v ++ w) := by
  intro b hb
  rcases List.mem_append.mp hb with hb | hb
  · exact hv b hb
  · exact hw b hb

theorem Bracketless.isPlaceholder {w : Bytes} (h : Bracketless w) : IsPlaceholder (ch '<' :: (w ++ [ch '>'])) :=
  ⟨w, rfl, fun hb => h _ hb (.inl rfl), fun hb => h _ hb (.inr rfl)⟩

theorem TokenWords.no_bracket {fold : Bytes → Bytes → Prop} (hfold : CaseFold fold) {tokens : List Bytes} {w : Bytes}
    (h : TokenWords fold tokens w) (htokens : ∀ token ∈ tokens, Bracketless token) : Bracketless w := by
  induction h with
  | nil => simp [Bracketless]
  | cons htoken hsep _ ih =>
    refine .append ?_ ((hsep.no_bracket (by decide)).append (ih fun t ht => htokens t (List.mem_cons_of_mem _ ht)))
    exact fun b hb hbracket => htokens _ (by simp) b (hfold.brackets _ _ htoken b hb hbracket) hbracket

theorem TemplateWord.isPlaceholder {fold : Bytes → Bytes → Prop} (hfold : CaseFold fold) {name w digits : Bytes}
    (h : TemplateWord fold name w digits) (hname : Bracketless name) : IsPlaceholder w := by
  obtain ⟨hbefore, hwords, -, hdigits, hafter⟩ := h
  have hwords := hwords.no_bracket hfold fun t ht b hb => hname b (mem_splitOnUnderscore ht hb)
  have := ((hbefore.no_bracket (by decide)).append (hwords.append ((hdigits.no_bracket (by decide)).append
    (hafter.no_bracket (by decide))))).isPlaceholder
  simpa using this

end LlmGuard
