import LlmGuard.Demasker.LookAlikes
import LlmGuard.Pattern.Grammar
import LlmGuard.Pattern.MaxLen

/-!
# The hold-back

`regex_max_len` of a recogniser is at least the length of every word that RE2 matches with it. So nothing that
starts in the emitted front of a text reaches beyond its end.
-/

namespace LlmGuard

/-! ## Words under `(?i)` -/

/-- What an ASCII byte matches under `(?i)`: itself in both cases, U+017F for `s` and U+212A for `k`. -/
def FoldsTo (c : Byte) (w : Bytes) : Prop :=
  (∃ d, w = [d] ∧ asciiToLower d = asciiToLower c) ∨ (asciiToLower c = ch 's' ∧ w = [0xC5, 0xBF]) ∨
    (asciiToLower c = ch 'k' ∧ w = [0xE2, 0x84, 0xAA])

inductive UnicodeFold : Bytes → Bytes → Prop
  | nil : UnicodeFold [] []
  | cons {c : Byte} {w token words : Bytes} : FoldsTo c w → UnicodeFold token words →
      UnicodeFold (c :: token) (w ++ words)

/-- `QuoteMeta` on an ASCII byte. -/
def quotedByte (c : Byte) : Bytes :=
  if isLower c || (ch 'A' ≤ c && c ≤ ch 'Z') || isDigit c || c = ch '_' then [c]
  else if c = 0 then ascii "\\x00"
  else [ch '\\', c]

/-- `QuoteMeta` on ASCII. -/
def QuotesAscii (re2 : Re2) : Prop :=
  ∀ token : Bytes, (∀ c ∈ token, c < 0x80) → re2.quoteMeta token = token.flatMap quotedByte

/-- RE2 on the recognisers of these rules, whose names are ASCII. -/
structure MatchesTemplates (re2 : Re2) (rules : List Rule) : Prop where
  quotes : ∀ token : Bytes, (∀ c ∈ token, c < 0x80) → re2.quoteMeta token = token.flatMap quotedByte
  sound : ∀ r ∈ rules, ∀ text pos g, re2.search (recogniser re2 r) text pos = some g →
    g.whole.1 ≤ g.whole.2 ∧ g.whole.2 ≤ text.length ∧
      ∃ digits, TemplateWord UnicodeFold (asciiTrim r.masking.placeholder) (slice text g.whole.1 g.whole.2) digits

/-- The length that the parser gives to a token. -/
def tokenLen (token : Bytes) : Nat := (token.map fun c => runeLen [c] true).sum

set_option maxRecDepth 8192 in
/-- The bytes that fold to `s` or `k` count for three. -/
theorem runeLen_wide (c : Byte) :
    1 ≤ runeLen [c] true ∧ (asciiToLower c = ch 's' ∨ asciiToLower c = ch 'k' → runeLen [c] true = 3) := by
  revert c
  decide

theorem UnicodeFold.length_le {token w : Bytes} (h : UnicodeFold token w) : w.length ≤ tokenLen token := by
  induction h with
  | nil => exact Nat.le_refl 0
  | @cons c w token words hw _ ih =>
    obtain ⟨hone, hwide⟩ := runeLen_wide c
    have hle : w.length ≤ runeLen [c] true := by
      rcases hw with ⟨d, rfl, -⟩ | ⟨hs, rfl⟩ | ⟨hk, rfl⟩
      · exact hone
      · rw [hwide (.inl hs)]
        decide
      · rw [hwide (.inr hk)]
        decide
    rw [List.length_append]
    unfold tokenLen at ih ⊢
    rw [List.map_cons, List.sum_cons]
    exact Nat.add_le_add hle ih

theorem TokenWords.length_le {tokens : List Bytes} {w : Bytes} (h : TokenWords UnicodeFold tokens w) :
    w.length ≤ (tokens.map fun token => tokenLen token + 3).sum := by
  induction h with
  | nil => exact Nat.le_refl 0
  | cons htoken hsep _ ih =>
    rw [List.length_append, List.length_append, List.map_cons, List.sum_cons, Nat.add_assoc]
    have := htoken.length_le
    have := hsep.1
    omega

theorem TemplateWord.length_le {name w digits : Bytes} (h : TemplateWord UnicodeFold name w digits) :
    w.length ≤ ((splitOnUnderscore name).map fun token => tokenLen token + 3).sum + 17 := by
  obtain ⟨hbefore, hwords, -, hdigits, hafter⟩ := h
  have hwords := hwords.length_le
  have hbefore := hbefore.1
  have hdigits := hdigits.1
  have hafter := hafter.1
  simp only [List.length_cons, List.length_append, List.length_nil]
  omega

/-! ## The parser on the template -/

/-- The pieces of a text are those of its front, of these lengths, and those of the rest. -/
def Prefixes (depth : Nat) (front : Bytes) (lens : List Nat) (rest : Bytes) : Prop :=
  ∀ ps st, Reads.Pieces lengthActions depth ⟨front ++ rest, true⟩ ps st →
    ∃ ps', Reads.Pieces lengthActions depth ⟨rest, true⟩ ps' st ∧ ps.map (·.1) = lens ++ ps'.map (·.1)

theorem Prefixes.nil (depth : Nat) (rest : Bytes) : Prefixes depth [] [] rest := fun ps _ h => ⟨ps, h, rfl⟩

theorem Prefixes.append {depth : Nat} {front₁ front₂ rest : Bytes} {lens₁ lens₂ : List Nat}
    (h₁ : Prefixes depth front₁ lens₁ (front₂ ++ rest)) (h₂ : Prefixes depth front₂ lens₂ rest) :
    Prefixes depth (front₁ ++ front₂) (lens₁ ++ lens₂) rest := by
  intro ps st h
  rw [List.append_assoc] at h
  obtain ⟨ps₁, hps₁, hlens₁⟩ := h₁ ps st h
  obtain ⟨ps₂, hps₂, hlens₂⟩ := h₂ ps₁ st hps₁
  exact ⟨ps₂, hps₂, by rw [hlens₁, hlens₂, List.append_assoc]⟩

theorem Prefixes.append_nil {depth : Nat} {front₁ front₂ : Bytes} {lens₁ lens₂ : List Nat}
    (h₁ : Prefixes depth front₁ lens₁ front₂) (h₂ : Prefixes depth front₂ lens₂ []) :
    Prefixes depth (front₁ ++ front₂) (lens₁ ++ lens₂) [] := by
  rw [← List.append_nil front₂] at h₁
  exact h₁.append h₂

/-- The front of a text is an atom of this length, whatever follows. -/
def IsAtomOf (depth : Nat) (front : Bytes) (len : Nat) : Prop :=
  ∀ rest, endsConcat (front ++ rest) = false ∧
    ∀ x st, Reads.Atom lengthActions depth ⟨front ++ rest, true⟩ x st → x = len ∧ st = ⟨rest, true⟩

theorem IsAtomOf.prefixes {depth : Nat} {front rest : Bytes} {len : Nat} (hatom : IsAtomOf depth front len)
    (hrest : NoQuantifier rest) : Prefixes depth front [len] rest := by
  obtain ⟨hne, hatom⟩ := hatom rest
  obtain ⟨hnone, -⟩ := quantifierAt_none hrest
  intro ps st h
  cases h with
  | done hend => exact absurd hend (by simp [hne])
  | quantified _ hx hq _ =>
    obtain ⟨rfl, rfl⟩ := hatom _ _ hx
    rw [hnone] at hq
    cases hq
  | single _ hx _ hps =>
    obtain ⟨rfl, rfl⟩ := hatom _ _ hx
    exact ⟨_, hps, rfl⟩

theorem IsAtomOf.prefixes_quantified {depth : Nat} {front more rest : Bytes} {len : Nat} {q : Quantifier}
    (hatom : IsAtomOf depth front len) (hq : quantifierAt (more ++ rest) = some (q, rest)) :
    Prefixes depth (front ++ more) [quantifiedLen len q] rest := by
  obtain ⟨hne, hatom⟩ := hatom (more ++ rest)
  intro ps st h
  rw [List.append_assoc] at h
  cases h with
  | done hend => exact absurd hend (by simp [hne])
  | quantified _ hx hq' hps =>
    obtain ⟨rfl, rfl⟩ := hatom _ _ hx
    rw [hq] at hq'
    obtain ⟨rfl, rfl⟩ := Prod.mk.inj (Option.some.inj hq')
    exact ⟨_, hps, rfl⟩
  | single _ hx hnone _ =>
    obtain ⟨rfl, rfl⟩ := hatom _ _ hx
    rw [hq] at hnone
    cases hnone

theorem skipLazyMarker_of_noQuantifier {rest : Bytes} (hrest : NoQuantifier rest) : skipLazyMarker rest = rest := by
  cases rest with
  | nil => rfl
  | cons c rest =>
    refine if_neg fun hc => ?_
    rw [NoQuantifier, hc] at hrest
    exact absurd hrest (by decide)

theorem IsAtomOf.prefixes_drift {depth : Nat} {front rest : Bytes} (hatom : IsAtomOf depth front 1)
    (hrest : NoQuantifier rest) : Prefixes depth (front ++ ascii "\x7b0,3\x7d") [3] rest := by
  have hq : quantifierAt (ascii "\x7b0,3\x7d" ++ rest) = some (.braces [ch '0'] (some [ch '3']), skipLazyMarker rest) :=
    rfl
  rw [skipLazyMarker_of_noQuantifier hrest] at hq
  exact hatom.prefixes_quantified hq

theorem isAtomOf_blank (depth : Nat) : IsAtomOf depth (ascii "\\s") 1 := by
  refine fun rest => ⟨rfl, fun x st h => ?_⟩
  obtain ⟨s, hs, rfl⟩ := Reads.Atom.of_escape h
  obtain ⟨rfl, rfl⟩ := Prod.mk.inj (Except.ok.inj hs)
  exact ⟨rfl, rfl⟩

theorem isAtomOf_class (depth : Nat) (members : Bytes)
    (hmembers : ∀ s, parseCharClass lengthActions true (members ++ s) = .ok (1, s)) :
    IsAtomOf depth (ch '[' :: members) 1 := by
  refine fun rest => ⟨rfl, fun x st h => ?_⟩
  obtain ⟨s, hs, rfl⟩ := Reads.Atom.of_charClass h
  rw [show parseCharClass lengthActions true (List.append members rest) = _ from hmembers rest] at hs
  obtain ⟨rfl, rfl⟩ := Prod.mk.inj (Except.ok.inj hs)
  exact ⟨rfl, rfl⟩

/-- `[\s_-]`. Behind the `]` the loop looks for a `-`. -/
theorem isAtomOf_sep (depth : Nat) : IsAtomOf depth (ascii "[\\s_-]") 1 :=
  isAtomOf_class depth (ascii "\\s_-]") fun s => by cases s <;> rfl

theorem isAtomOf_digit (depth : Nat) : IsAtomOf depth (ascii "[0-9]") 1 :=
  isAtomOf_class depth (ascii "0-9]") fun s => by cases s <;> rfl

theorem isAtomOf_literal (depth : Nat) {c : Byte} (hplain : isPlain c = true) (hlead : leadLength c = 1)
    (hend : endsConcat [c] = false) : IsAtomOf depth [c] (runeLen [c] true) := by
  refine fun rest => ⟨hend, fun x st h => ?_⟩
  obtain ⟨rfl, rfl⟩ := Reads.Atom.of_plain hplain h
  unfold consumeRune
  rw [hlead]
  exact ⟨rfl, rfl⟩

theorem isAtomOf_index : IsAtomOf 0 (ascii "([0-9]\x7b1,9\x7d)") 9 := by
  refine fun rest => ⟨rfl, fun x st h => ?_⟩
  have hfront : ∀ s, ascii "([0-9]\x7b1,9\x7d)" ++ s = ch '(' :: (ascii "[0-9]" ++ (ascii "\x7b1,9\x7d" ++ ch ')' :: s)) :=
    fun _ => rfl
  rw [hfront] at h
  obtain ⟨y, st₁, rest', hbody, hclose, rfl, rfl⟩ := Reads.Group.of_capture (by decide) (Reads.Atom.of_group h)
  cases hbody with
  | intro hpieces hbranches =>
    have hinner : Prefixes 1 (ascii "[0-9]" ++ ascii "\x7b1,9\x7d") [9] (ch ')' :: rest) :=
      (isAtomOf_digit 1).prefixes_quantified (q := .braces [ch '1'] (some [ch '9'])) rfl
    obtain ⟨ps', hps', hlens⟩ := hinner _ _ hpieces
    obtain ⟨rfl, rfl⟩ := hps'.of_end rfl
    obtain ⟨rfl, rfl⟩ := hbranches.of_end (by simp only [List.head?_cons]; decide)
    obtain ⟨-, rfl⟩ := List.cons.inj hclose
    refine ⟨?_, rfl⟩
    rename_i ps
    match ps, hlens with
    | [(len, b)], hlens =>
      obtain ⟨rfl, -⟩ := List.cons.inj hlens
      rfl

/-! ## The template -/

/-- A letter, a digit or an underscore. -/
def isWordByte (c : Byte) : Bool := isLower c || (ch 'A' ≤ c && c ≤ ch 'Z') || isDigit c || c = ch '_'

set_option maxRecDepth 8192 in
theorem wordByte_spec {c : Byte} (hc : isWordByte c = true) :
    isPlain c = true ∧ leadLength c = 1 ∧ endsConcat [c] = false ∧ peekIsQuantifierStart [c] = false := by
  revert c
  decide

set_option maxRecDepth 8192 in
theorem escapeLen_quoted {c : Byte} (hc : isWordByte c = false) (hascii : c < 0x80) (s : Bytes) :
    escapeLen true c s = .ok (runeLen [c] true, s) := by
  have hall : ∀ c : Byte, isWordByte c = false → c < 0x80 → Regexp.wordByte c = false ∧ leadLength c = 1 := by decide
  obtain ⟨hword, hlead⟩ := hall c hc hascii
  rw [escapeLen_other (.inl (.inl hword)), not_octal (.inl hword), consumeRune, hlead]
  rfl

theorem isAtomOf_quotedByte (depth : Nat) {c : Byte} (hascii : c < 0x80) :
    IsAtomOf depth (quotedByte c) (runeLen [c] true) := by
  unfold quotedByte
  change IsAtomOf depth (if isWordByte c = true then _ else _) _
  split
  · rename_i hword
    obtain ⟨hplain, hlead, hend, -⟩ := wordByte_spec hword
    exact isAtomOf_literal depth hplain hlead hend
  · rename_i hword
    split
    · refine fun rest => ⟨rfl, fun x st h => ?_⟩
      obtain ⟨s, hs, -⟩ := Reads.Atom.of_escape h
      cases hs
    · refine fun rest => ⟨rfl, fun x st h => ?_⟩
      obtain ⟨s, hs, rfl⟩ := Reads.Atom.of_escape h
      have hs : escapeLen true c rest = .ok (x, s) := hs
      rw [escapeLen_quoted (by simpa using hword) hascii] at hs
      obtain ⟨rfl, rfl⟩ := Prod.mk.inj (Except.ok.inj hs)
      exact ⟨rfl, rfl⟩

theorem noQuantifier_quotedByte (c : Byte) (s : Bytes) : NoQuantifier (quotedByte c ++ s) := by
  unfold quotedByte
  change NoQuantifier ((if isWordByte c = true then _ else _) ++ s)
  split
  · rename_i hword
    exact (wordByte_spec hword).2.2.2
  · split <;> exact (by decide : peekIsQuantifierStart [ch '\\'] = false)

theorem prefixes_token {depth : Nat} {token rest : Bytes} (hascii : ∀ c ∈ token, c < 0x80) (hrest : NoQuantifier rest) :
    Prefixes depth (token.flatMap quotedByte) (token.map fun c => runeLen [c] true) rest ∧
      NoQuantifier (token.flatMap quotedByte ++ rest) := by
  induction token with
  | nil => exact ⟨.nil depth rest, hrest⟩
  | cons c token ih =>
    obtain ⟨htoken, hnext⟩ := ih fun d hd => hascii d (List.mem_cons_of_mem _ hd)
    have hc := (isAtomOf_quotedByte depth (hascii c List.mem_cons_self)).prefixes hnext
    refine ⟨hc.append htoken, ?_⟩
    rw [List.flatMap_cons, List.append_assoc]
    exact noQuantifier_quotedByte c _

/-- A separator. -/
def sepText : Bytes := ascii "[\\s_-]\x7b0,3\x7d"

theorem prefixes_tokens {depth : Nat} {tokens : List Bytes} {rest : Bytes}
    (hascii : ∀ token ∈ tokens, ∀ c ∈ token, c < 0x80) (hrest : NoQuantifier rest) :
    Prefixes depth (tokens.flatMap fun token => token.flatMap quotedByte ++ sepText)
        (tokens.flatMap fun token => (token.map fun c => runeLen [c] true) ++ [3]) rest ∧
      NoQuantifier ((tokens.flatMap fun token => token.flatMap quotedByte ++ sepText) ++ rest) := by
  induction tokens with
  | nil => exact ⟨.nil depth rest, hrest⟩
  | cons token tokens ih =>
    obtain ⟨htokens, hnext⟩ := ih fun t ht => hascii t (List.mem_cons_of_mem _ ht)
    have hsep : Prefixes depth sepText [3] _ := (isAtomOf_sep depth).prefixes_drift hnext
    have hsepNext : NoQuantifier (sepText ++ ((tokens.flatMap fun token => token.flatMap quotedByte ++ sepText) ++ rest)) :=
      (by decide : peekIsQuantifierStart [ch '['] = false)
    obtain ⟨htoken, hfirst⟩ := prefixes_token (hascii token List.mem_cons_self) hsepNext
    refine ⟨?_, ?_⟩
    · rw [List.flatMap_cons, List.flatMap_cons]
      apply Prefixes.append _ htokens
      exact htoken.append hsep
    · rw [List.flatMap_cons, List.append_assoc, List.append_assoc]
      exact hfirst

theorem intercalate_append (sep : Bytes) {tokens : List Bytes} (hne : tokens ≠ []) :
    sep.intercalate tokens ++ sep = tokens.flatMap fun token => token ++ sep := by
  induction tokens with
  | nil => exact absurd rfl hne
  | cons token tokens ih =>
    cases tokens with
    | nil => simp
    | cons t ts =>
      rw [List.intercalate_cons_cons, List.append_assoc, ih (by simp), List.flatMap_cons]
      simp

theorem splitOnUnderscore_ne_nil (name : Bytes) : splitOnUnderscore name ≠ [] := by
  unfold splitOnUnderscore
  simp only
  split
  · simp
  · rename_i h
    simpa using h

/-- The template, with the separator behind each token. -/
theorem template_eq {re2 : Re2} (hquotes : QuotesAscii re2) {name : Bytes} (hascii : ∀ c ∈ name, c < 0x80) :
    buildPlaceholderPatternString re2 name = ascii "(?i)" ++ (ascii "<" ++ (ascii "\\s\x7b0,3\x7d" ++
      (((splitOnUnderscore name).flatMap fun token => token.flatMap quotedByte ++ sepText) ++
        (ascii "([0-9]\x7b1,9\x7d)" ++ (ascii "\\s\x7b0,3\x7d" ++ ascii ">"))))) := by
  have hquoted : (splitOnUnderscore name).map re2.quoteMeta =
      (splitOnUnderscore name).map fun token => token.flatMap quotedByte :=
    List.map_congr_left fun token ht => hquotes token fun c hc => hascii c (mem_splitOnUnderscore ht hc)
  have hne : ((splitOnUnderscore name).map fun token => token.flatMap quotedByte) ≠ [] := by
    simp [splitOnUnderscore_ne_nil name]
  have hsep := intercalate_append sepText hne
  rw [List.flatMap_map] at hsep
  unfold buildPlaceholderPatternString
  simp only
  rw [hquoted]
  change ascii "(?i)<\\s\x7b0,3\x7d" ++ sepText.intercalate _ ++ sepText ++ _ = _
  have hfront : ascii "(?i)<\\s\x7b0,3\x7d" = ascii "(?i)" ++ (ascii "<" ++ ascii "\\s\x7b0,3\x7d") := rfl
  have hback : ascii "([0-9]\x7b1,9\x7d)\\s\x7b0,3\x7d>" =
    ascii "([0-9]\x7b1,9\x7d)" ++ (ascii "\\s\x7b0,3\x7d" ++ ascii ">") := rfl
  rw [List.append_assoc (ascii "(?i)<\\s\x7b0,3\x7d"), hsep, hfront, hback]
  simp only [List.append_assoc]

theorem noQuantifier_cons {c : Byte} (hc : peekIsQuantifierStart [c] = false) (s : Bytes) : NoQuantifier (c :: s) := hc

theorem prefixes_template {tokens : List Bytes} (hascii : ∀ token ∈ tokens, ∀ c ∈ token, c < 0x80) :
    Prefixes 0 (ascii "<" ++ (ascii "\\s\x7b0,3\x7d" ++
      ((tokens.flatMap fun token => token.flatMap quotedByte ++ sepText) ++
        (ascii "([0-9]\x7b1,9\x7d)" ++ (ascii "\\s\x7b0,3\x7d" ++ ascii ">")))))
      ([1] ++ ([3] ++ ((tokens.flatMap fun token => (token.map fun c => runeLen [c] true) ++ [3]) ++ ([9] ++ ([3] ++ [1])))))
      [] := by
  have hclose : Prefixes 0 (ascii ">") [1] [] :=
    (isAtomOf_literal 0 (c := ch '>') (by decide) (by decide) (by decide)).prefixes trivial
  have hblank : Prefixes 0 (ascii "\\s\x7b0,3\x7d") [3] (ascii ">") :=
    (isAtomOf_blank 0).prefixes_drift (noQuantifier_cons (by decide) _)
  have hindex : Prefixes 0 (ascii "([0-9]\x7b1,9\x7d)") [9] (ascii "\\s\x7b0,3\x7d" ++ ascii ">") :=
    isAtomOf_index.prefixes (noQuantifier_cons (by decide) _)
  have hnext : NoQuantifier (ascii "([0-9]\x7b1,9\x7d)" ++ (ascii "\\s\x7b0,3\x7d" ++ ascii ">")) :=
    noQuantifier_cons (by decide : peekIsQuantifierStart [ch '('] = false) _
  obtain ⟨htokens, hfirst⟩ := prefixes_tokens hascii hnext
  have hbefore : Prefixes 0 (ascii "\\s\x7b0,3\x7d") [3] _ := (isAtomOf_blank 0).prefixes_drift hfirst
  have hopen : ∀ rest, Prefixes 0 (ascii "<") [1] (ch '\\' :: rest) := fun rest =>
    (isAtomOf_literal 0 (c := ch '<') (by decide) (by decide) (by decide)).prefixes (noQuantifier_cons (by decide) rest)
  exact (hopen _).append_nil (hbefore.append_nil (htokens.append_nil (hindex.append_nil (hblank.append_nil hclose))))

theorem atom_flag {s : Bytes} {x : Nat} {st : ParserState}
    (h : Reads.Atom lengthActions 0 ⟨ascii "(?i)" ++ s, false⟩ x st) : x = 0 ∧ st = ⟨s, true⟩ :=
  Reads.Group.of_setter (ascii "i") (by decide) (by decide) (Reads.Atom.of_group h)

theorem sum_tokens (tokens : List Bytes) :
    (tokens.flatMap fun token => (token.map fun c => runeLen [c] true) ++ [3]).sum =
      (tokens.map fun token => tokenLen token + 3).sum := by
  induction tokens with
  | nil => rfl
  | cons token tokens ih =>
    rw [List.flatMap_cons, List.sum_append, List.sum_append, ih]
    rfl

/-- What the parser makes of a template, unless it saturates, is the length of its longest words. -/
theorem regexMaxLen_template {re2 : Re2} {rules : List Rule} (hre : MatchesTemplates re2 rules) {name : Bytes}
    (hascii : ∀ c ∈ name, c < 0x80) (hbounded : regexMaxLen (buildPlaceholderPatternString re2 name) ≠ sizeMax) :
    regexMaxLen (buildPlaceholderPatternString re2 name) =
      ((splitOnUnderscore name).map fun token => tokenLen token + 3).sum + 17 := by
  have htokens : ∀ token ∈ splitOnUnderscore name, ∀ c ∈ token, c < 0x80 := fun token ht c hc =>
    hascii c (mem_splitOnUnderscore ht hc)
  have htemplate := prefixes_template htokens
  unfold regexMaxLen at hbounded ⊢
  split at hbounded
  · rename_i len hparse
    obtain ⟨st, hreads, -⟩ := reads_of_parsePattern hparse
    rw [template_eq hre.quotes hascii] at hreads
    cases hreads with
    | intro hpieces hbranches =>
      -- The first piece is `(?i)`.
      cases hpieces with
      | done hend => cases hend
      | quantified _ hatom hq _ =>
        obtain ⟨rfl, rfl⟩ := atom_flag hatom
        cases hq
      | single _ hatom _ hrest =>
        obtain ⟨rfl, rfl⟩ := atom_flag hatom
        rw [← List.append_nil (ascii "<" ++ _)] at hrest
        obtain ⟨ps', hend, hlens⟩ := htemplate _ _ hrest
        obtain ⟨rfl, rfl⟩ := hend.of_end rfl
        obtain ⟨rfl, rfl⟩ := hbranches.of_end (by simp)
        apply ((sumLen_exact _ 0).resolve_left hbounded).trans
        rw [List.map_cons, List.sum_cons, hlens]
        simp only [List.sum_append, List.sum_cons, List.sum_nil, List.map_nil, sum_tokens]
        omega
  · exact absurd rfl hbounded

/-! ## The hold-back of `make_config` -/

section Snapshot

variable {env : Env} {rules : List Rule} {reg : Registry} {state : MaskingState}

theorem foldl_max_le {α : Type} (f : α → Nat) (l : List α) (m : Nat) :
    m ≤ l.foldl (fun m x => if m < f x then f x else m) m ∧
      ∀ x ∈ l, f x ≤ l.foldl (fun m x => if m < f x then f x else m) m := by
  induction l generalizing m with
  | nil => exact ⟨Nat.le_refl m, by simp⟩
  | cons y l ih =>
    obtain ⟨hle, hall⟩ := ih (if m < f y then f y else m)
    have hstep : m ≤ (if m < f y then f y else m) ∧ f y ≤ (if m < f y then f y else m) := by split <;> omega
    rw [List.foldl_cons]
    refine ⟨hstep.1.trans hle, fun x hx => ?_⟩
    rcases List.mem_cons.mp hx with rfl | hx
    · exact hstep.2.trans hle
    · exact hall x hx

theorem placeholderLen_le (env : Env) (state : MaskingState) (reg : Registry) {cr : CompiledRule}
    (hcr : cr ∈ triggeredRules state reg) : cr.placeholderLen ≤ (makeConfig env state (some reg)).maxPending := by
  have := (foldl_max_le CompiledRule.placeholderLen (triggeredRules state reg) 0).2 cr hcr
  unfold makeConfig
  simp only
  split <;> simp only <;> split <;> omega

theorem scanRule_length (hbuild : Registry.build env rules = .ok reg)
    (hnames : ∀ r ∈ rules, ∀ c ∈ r.masking.placeholder, c < 0x80) (hre : MatchesTemplates env.re2 rules)
    {cr : CompiledRule} (hcr : cr ∈ triggeredRules state reg) {text : Bytes} {m : PlaceholderMatch}
    (hm : m ∈ scanRule env text cr) : m.stop - m.start ≤ cr.placeholderLen := by
  obtain ⟨r, hr, hcompile⟩ := rule_of_mem hbuild (mem_of_triggered hcr)
  obtain ⟨re, pos, g, n, hsome, -, hg, -, rfl⟩ := mem_scanRule hm
  rw [placeholderRe_of_compiled hcompile hsome] at hg
  obtain ⟨hle, hend, digits, hword⟩ := hre.sound r hr text pos g hg
  obtain ⟨pp, hpp, -, hlen⟩ := compiled_placeholder hcompile hsome
  obtain ⟨hpattern, hmax, hbounded⟩ := buildPlaceholderPattern_ok hpp
  rw [hmax, hpattern] at hbounded
  have htemplate := regexMaxLen_template hre (fun c hc => hnames r hr c (mem_asciiTrim hc)) hbounded
  have hlength := hword.length_le
  rw [Splice.slice_length text _ _ hend] at hlength
  rw [hlen, hmax, hpattern, htemplate]
  exact hlength

theorem demaskChunk_ok {d d' : Demasker} {chunk out : Bytes} (h : d.demaskChunk chunk false = (.ok out, d'))
    (hne : out ≠ []) :
    applyPlaceholderRegex d.cfg d.jsonEscape (applyExact d.cfg d.jsonEscape (d.pending ++ chunk)) =
      .ok (out ++ d'.pending) ∧ out.length + d.cfg.maxPending ≤ (out ++ d'.pending).length := by
  unfold Demasker.demaskChunk at h
  simp only at h
  split at h
  · exact absurd (Except.ok.inj (Prod.mk.inj h).1).symm hne
  split at h
  · cases (Prod.mk.inj h).1
  rename_i text htext
  simp only [Bool.false_eq_true, if_false] at h
  split at h
  · exact absurd (Except.ok.inj (Prod.mk.inj h).1).symm hne
  rename_i hlong
  split at h
  · exact absurd (Except.ok.inj (Prod.mk.inj h).1).symm hne
  · obtain ⟨hout, rfl⟩ := Prod.mk.inj h
    obtain rfl := Except.ok.inj hout
    have hle := utf8SafePrefixEnd_le text (text.length - d.cfg.maxPending)
    simp only [List.take_append_drop]
    refine ⟨htext, ?_⟩
    rw [List.length_take]
    omega

/-- The hold-back covers every placeholder and every match of the tolerant scan. So nothing that starts in what a
call emits, in whatever the stream goes on with, reaches beyond the text that the call has seen. -/
theorem holdBack_covers (env : Env) (hbuild : Registry.build env rules = .ok reg)
    (hnames : ∀ r ∈ rules, ∀ c ∈ r.masking.placeholder, c < 0x80) (hre : MatchesTemplates env.re2 rules)
    (state : MaskingState) :
    (∀ e ∈ (makeConfig env state (some reg)).entries,
      e.placeholder.length ≤ (makeConfig env state (some reg)).maxPending) ∧
    (∀ scan text ms, (makeConfig env state (some reg)).scan = some scan → scan text = .ok ms →
      ∀ m ∈ ms, m.stop - m.start ≤ (makeConfig env state (some reg)).maxPending) ∧
    ∀ (d d' : Demasker) chunk out, d.cfg = makeConfig env state (some reg) →
      d.demaskChunk chunk false = (.ok out, d') → out ≠ [] →
      ∃ text, applyPlaceholderRegex d.cfg d.jsonEscape (applyExact d.cfg d.jsonEscape (d.pending ++ chunk)) = .ok text ∧
        text = out ++ d'.pending ∧ ∀ more i j, i < out.length → text.length < j → j ≤ (text ++ more).length →
          (∀ e ∈ d.cfg.entries, slice (text ++ more) i j ≠ e.placeholder) ∧
          ∀ scan ms, d.cfg.scan = some scan → scan (text ++ more) = .ok ms → ∀ m ∈ ms, ¬ (m.start = i ∧ m.stop = j) := by
  have hentries : ∀ e ∈ (makeConfig env state (some reg)).entries,
      e.placeholder.length ≤ (makeConfig env state (some reg)).maxPending := by
    have htables := makeConfig_tables env state (some reg)
    exact fun e he => htables.pending e.placeholder (htables.entry e he)
  have hmatches : ∀ scan text ms, (makeConfig env state (some reg)).scan = some scan → scan text = .ok ms →
      ∀ m ∈ ms, m.stop - m.start ≤ (makeConfig env state (some reg)).maxPending := by
    intro scan text ms hscan hms m hm
    rcases makeConfig_scan env state (some reg) with ⟨hnone, -⟩ | hsome
    · rw [hnone] at hscan
      cases hscan
    · rw [hsome] at hscan
      obtain rfl := Option.some.inj hscan
      obtain rfl := Except.ok.inj hms
      obtain ⟨cr, hcr, hm⟩ := mem_scanPlaceholders hm
      exact (scanRule_length hbuild hnames hre hcr hm).trans (placeholderLen_le env state reg hcr)
  refine ⟨hentries, hmatches, ?_⟩
  intro d d' chunk out hcfg hchunk hne
  obtain ⟨htext, hroom⟩ := demaskChunk_ok hchunk hne
  refine ⟨_, htext, rfl, ?_⟩
  intro more i j hi hj hend
  rw [hcfg] at hroom ⊢
  constructor
  · intro e he heq
    have hlen := congrArg List.length heq
    rw [Splice.slice_length _ _ _ hend] at hlen
    have := hentries e he
    omega
  · rintro scan ms hscan hms m hm ⟨rfl, rfl⟩
    have := hmatches scan _ ms hscan hms m hm
    omega

end Snapshot

/-! ## One rule -/

theorem asciiFold_unicodeFold {token w : Bytes} (h : asciiFold token w) : UnicodeFold token w := by
  induction token generalizing w with
  | nil =>
    obtain rfl : w = [] := List.map_eq_nil_iff.mp h.symm
    exact .nil
  | cons c token ih =>
    cases w with
    | nil => cases h
    | cons d w =>
      obtain ⟨hc, hw⟩ := List.cons.inj h
      exact .cons (w := [d]) (.inl ⟨d, rfl, hc.symm⟩) (ih hw)

theorem TokenWords.mono {fold fold' : Bytes → Bytes → Prop} (hmono : ∀ token w, fold token w → fold' token w)
    {tokens : List Bytes} {w : Bytes} (h : TokenWords fold tokens w) : TokenWords fold' tokens w := by
  induction h with
  | nil => exact .nil
  | cons htoken hsep _ ih => exact .cons (hmono _ _ htoken) hsep ih

theorem TemplateWord.mono {fold fold' : Bytes → Bytes → Prop} (hmono : ∀ token w, fold token w → fold' token w)
    {name w digits : Bytes} (h : TemplateWord fold name w digits) : TemplateWord fold' name w digits := by
  cases h with
  | intro hbefore hwords hne hdigits hafter => exact .intro hbefore (hwords.mono hmono) hne hdigits hafter

/-- The engine of the example before, with the real `QuoteMeta`. -/
def quotingEnv : Env :=
  { sampleEnv annSpelling with
    re2 := { sampleRe2 annSpelling with quoteMeta := fun token => token.flatMap quotedByte } }

def quotingRegistry : Registry where
  rules := compiledWith quotingEnv [annRule]
  distinct := by decide +kernel

theorem build_quoting : Registry.build quotingEnv [annRule] = .ok quotingRegistry := by
  have hrules : (Registry.build quotingEnv [annRule]).map Registry.rules = .ok quotingRegistry.rules := by
    decide +kernel
  cases hbuild : Registry.build quotingEnv [annRule] with
  | error e =>
    rw [hbuild] at hrules
    cases hrules
  | ok reg =>
    rw [hbuild] at hrules
    obtain ⟨rules, distinct⟩ := reg
    cases hrules
    rfl

theorem matchesTemplates_ann : MatchesTemplates quotingEnv.re2 [annRule] where
  quotes token _ := rfl
  sound r hr text pos g hg := by
    obtain ⟨-, hle, hend, -, captured, hsome, -⟩ := sampleSearch_some hg
    have hrecogniser : recogniser quotingEnv.re2 annRule = recogniser (sampleEnv annSpelling).re2 annRule := by
      decide
    rw [List.mem_singleton.mp hr, hrecogniser, annSpelling_recogniser] at hsome
    rw [List.mem_singleton.mp hr]
    have hword := mem_readTemplate.mp (List.mem_of_head? hsome)
    exact ⟨hle, hend, captured, hword.mono fun _ _ => asciiFold_unicodeFold⟩

/-- A demasker of the request in the example before. -/
def annDemasker : Demasker := ⟨makeConfig quotingEnv lookAlikeResult.state (some quotingRegistry), false, []⟩

/-- A chunk that ends inside a placeholder. -/
def cutChunk : Bytes := ascii "a long answer about several things, to <EMAIL"

theorem demaskChunk_cut : (annDemasker.demaskChunk cutChunk false).1 = .ok (ascii "a long answer about ") := by
  decide +kernel

/-- Neither the placeholder of the request nor another spelling of it can end behind the text. -/
theorem holdBack_covers_sample :
    ∃ text scan, text = ascii "a long answer about " ++ (annDemasker.demaskChunk cutChunk false).2.pending ∧
      annDemasker.cfg.scan = some scan ∧
      ∀ more i j, i < 20 → text.length < j → j ≤ (text ++ more).length →
        (∀ e ∈ annDemasker.cfg.entries, slice (text ++ more) i j ≠ e.placeholder) ∧
        ∀ ms, scan (text ++ more) = .ok ms → ∀ m ∈ ms, ¬ (m.start = i ∧ m.stop = j) := by
  obtain ⟨scan, hscan⟩ := Option.isSome_iff_exists.mp (by decide +kernel : annDemasker.cfg.scan.isSome)
  obtain ⟨text, -, htext, hapart⟩ := (holdBack_covers quotingEnv build_quoting (by decide) matchesTemplates_ann
    lookAlikeResult.state).2.2 annDemasker (annDemasker.demaskChunk cutChunk false).2 cutChunk
    (ascii "a long answer about ") rfl (Prod.ext demaskChunk_cut rfl) (by decide)
  refine ⟨text, scan, htext, hscan, fun more i j hi hj hend => ?_⟩
  obtain ⟨hentries, hmatches⟩ := hapart more i j hi hj hend
  exact ⟨hentries, fun ms => hmatches scan ms hscan⟩

end LlmGuard
