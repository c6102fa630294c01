import LlmGuard.Pattern.Blocked
import LlmGuard.Pattern.Fuel

/-!
# Reading a pattern as RE2 does

The walk and RE2 take a pattern apart at the same places, as long as it has no POSIX class and no flags or quotes
stand between an operand and its quantifier. What the walk builds then simulates the tree.
-/

namespace LlmGuard

open Utf8

/-! ## Ordinary patterns -/

/-- No POSIX classes, no quantifier that stands apart from its operand, and what is asked of the leaves. -/
def Ordinary (leaf : Regexp.Tree → Prop) : Regexp.Tree → Prop
  | .cat s t => Ordinary leaf s ∧ Ordinary leaf t
  | .alt s t => Ordinary leaf s ∧ Ordinary leaf t
  | .repeat apart _ _ t => apart = false ∧ Ordinary leaf t
  | .charClass fold negated items =>
    (∀ excluded p behind, .posix excluded p behind ∉ items) ∧ leaf (.charClass fold negated items)
  | .literal fold c => leaf (.literal fold c)
  | .brace fold behind => leaf (.brace fold behind)
  | .quote behind t => leaf (.quote behind t) ∧ Ordinary leaf t
  | .capture t => Ordinary leaf t
  | .empty | .anyChar _ | .anyByte | .assertion _ => True

section Suffix

variable {leaf : Regexp.Tree → Prop} {m m' : Regexp.Mode} {s s' : Bytes} {t t' : Regexp.Tree}

theorem Suffix.operand {stacked : Bool} (h : Regexp.Suffix stacked m s t m' s' t') (ht' : Ordinary leaf t') :
    Ordinary leaf t := by
  induction h with
  | done => exact ht'
  | here _ _ _ ih => exact (ih ht').2
  | apart _ _ _ _ _ ih => exact (ih ht').2

theorem Suffix.not_apart {stacked : Bool} {min : Nat} {max : Option Nat}
    (h : Regexp.Suffix stacked m s (.repeat true min max t) m' s' t') : ¬ Ordinary leaf t' :=
  fun ht' => absurd (Suffix.operand h ht').1 (by decide)

theorem Suffix.of_stacked (h : Regexp.Suffix true m s t m' s' t') (ht' : Ordinary leaf t') : m' = m ∧ s' = s ∧ t' = t := by
  cases h with
  | done => exact ⟨rfl, rfl, rfl⟩
  | apart _ _ _ _ hrest => exact absurd ht' (Suffix.not_apart hrest)

/-- An ordinary operand has at most one quantifier, right behind it. -/
theorem Suffix.of_ordinary (h : Regexp.Suffix false m s t m' s' t') (ht' : Ordinary leaf t') :
    m' = m ∧ ((s' = s ∧ t' = t) ∨ ∃ min max, Regexp.Quantifier s min max s' ∧ t' = .repeat false min max t) := by
  cases h with
  | done => exact ⟨rfl, .inl ⟨rfl, rfl⟩⟩
  | @here _ _ _ s₁ _ min max _ _ _ hq hrest =>
    obtain ⟨rfl, rfl, rfl⟩ := Suffix.of_stacked hrest ht'
    exact ⟨rfl, .inr ⟨min, max, hq, rfl⟩⟩
  | apart _ _ _ _ hrest => exact absurd ht' (Suffix.not_apart hrest)

end Suffix

/-! ## Quotes -/

/-- What `\Q` begins is text outside of quotes too, up to the end or to `\E`. -/
inductive PlainQuote : Bytes → Prop
  | stop : PlainQuote []
  | close {s : Bytes} : PlainQuote (ch '\\' :: ch 'E' :: s)
  | char {c : Char} {s : Bytes} : (∀ b ∈ (encode c).head?, isPlain b = true) → PlainQuote s → PlainQuote (encode c ++ s)

theorem isPlain_not_quantifier {b : Byte} (hb : isPlain b = true) : peekIsQuantifierStart [b] = false := by
  obtain ⟨-, -, -, -, -, -, hplace⟩ := Reads.isPlain_spec.mp hb
  unfold outOfPlace at hplace
  simp only [Bool.or_eq_false_iff, decide_eq_false_iff_not] at hplace
  obtain ⟨⟨⟨⟨⟨⟨⟨-, -⟩, hstar⟩, hplus⟩, hquest⟩, hopen⟩, -⟩, -⟩ := hplace
  simp [peekIsQuantifierStart, hstar, hplus, hquest, hopen]

/-- No quantifier stands at the front. -/
def NoQuantifier : Bytes → Prop
  | [] => True
  | c :: _ => peekIsQuantifierStart [c] = false

theorem quantifierAt_none {s : Bytes} (h : NoQuantifier s) : quantifierAt s = none ∧ peekIsQuantifierStart s = false := by
  cases s with
  | nil => exact ⟨rfl, rfl⟩
  | cons c s =>
    unfold NoQuantifier at h
    refine ⟨?_, h⟩
    unfold peekIsQuantifierStart at h
    simp only [Bool.or_eq_false_iff, decide_eq_false_iff_not] at h
    obtain ⟨⟨⟨hstar, hplus⟩, hquest⟩, hbrace⟩ := h
    rw [quantifierAt, if_neg hstar, if_neg hplus, if_neg hquest, if_neg hbrace]

theorem PlainQuote.noQuantifier {s : Bytes} (h : PlainQuote s) : NoQuantifier s := by
  cases h with
  | stop => trivial
  | close => exact (by decide : peekIsQuantifierStart [ch '\\'] = false)
  | @char c s hc _ =>
    obtain ⟨b, w, hbw⟩ := List.exists_cons_of_ne_nil (encode_ne_nil c)
    rw [hbw] at hc ⊢
    exact isPlain_not_quantifier (hc b rfl)

theorem PlainQuote.of_char {c : Char} {s : Bytes} (hnot : ∀ t, encode c ++ s ≠ ch '\\' :: ch 'E' :: t)
    (h : PlainQuote (encode c ++ s)) : (∀ b ∈ (encode c).head?, isPlain b = true) ∧ PlainQuote s := by
  generalize htext : encode c ++ s = text at h
  cases h with
  | stop => exact absurd (List.append_eq_nil_iff.mp htext).1 (encode_ne_nil c)
  | close => exact absurd htext (hnot _)
  | @char d t hd ht =>
    obtain ⟨b, w, hbw⟩ := List.exists_cons_of_ne_nil (encode_ne_nil c)
    have htext' : encode c ++ s = b :: (w ++ s) := by rw [hbw]; rfl
    have h := consumeRune_encode htext'
    rw [consumeRune_encode (htext.symm.trans htext')] at h
    obtain ⟨he, rfl⟩ := Prod.mk.inj h
    rw [← he]
    exact ⟨hd, ht⟩

/-! ## Quantifiers -/

/-- What the walk keeps of a quantifier, and the counts. -/
inductive Counts : Quantifier → Nat → Option Nat → Prop
  | star : Counts .star 0 none
  | plus : Counts .plus 1 none
  | quest : Counts .quest 0 (some 1)
  | exactly {ds : Bytes} : Regexp.IsCount ds → Counts (.braces ds none) (digitsVal ds) (some (digitsVal ds))
  | atLeast {ds : Bytes} : Regexp.IsCount ds → Counts (.braces ds (some [])) (digitsVal ds) none
  | between {ds es : Bytes} : Regexp.IsCount ds → Regexp.IsCount es →
      Counts (.braces ds (some es)) (digitsVal ds) (some (digitsVal es))

theorem dropLazy_eq (s : Bytes) : Regexp.dropLazy s = skipLazyMarker s := by
  cases s <;> rfl

theorem takeWhile_digits {ds : Bytes} (hds : ∀ d ∈ ds, isDigit d = true) {b : Byte} (hb : isDigit b = false) (s : Bytes) :
    (ds ++ b :: s).takeWhile isDigit = ds ∧ (ds ++ b :: s).dropWhile isDigit = b :: s := by
  constructor
  · rw [List.takeWhile_append_of_pos hds, List.takeWhile_cons_of_neg (by rw [hb]; decide), List.append_nil]
  · rw [List.dropWhile_append_of_pos hds, List.dropWhile_cons_of_neg (by rw [hb]; decide)]

theorem braceQuantifier_exactly {ds : Bytes} (hds : ∀ d ∈ ds, isDigit d = true) (hne : ds ≠ []) (s : Bytes) :
    braceQuantifier (ds ++ ch '\x7d' :: s) = some (.braces ds none, skipLazyMarker s) := by
  obtain ⟨htake, hdrop⟩ := takeWhile_digits hds (b := ch '\x7d') (by decide) s
  unfold braceQuantifier
  simp only [htake, hdrop, if_neg (show ¬ ch '\x7d' = ch ',' by decide)]
  rw [if_neg (by simpa using hne)]

theorem braceQuantifier_comma {ds es : Bytes} (hds : ∀ d ∈ ds, isDigit d = true) (hes : ∀ d ∈ es, isDigit d = true)
    (hne : ds ≠ []) (s : Bytes) :
    braceQuantifier (ds ++ ch ',' :: (es ++ ch '\x7d' :: s)) = some (.braces ds (some es), skipLazyMarker s) := by
  obtain ⟨htake, hdrop⟩ := takeWhile_digits hds (b := ch ',') (by decide) (es ++ ch '\x7d' :: s)
  obtain ⟨htake', hdrop'⟩ := takeWhile_digits hes (b := ch '\x7d') (by decide) s
  unfold braceQuantifier
  simp only [htake, hdrop, if_pos, htake', hdrop']
  rw [if_neg (by simpa using hne)]

theorem quantifierAt_of_quantifier {s rest : Bytes} {min : Nat} {max : Option Nat}
    (h : Regexp.Quantifier s min max rest) : ∃ q, quantifierAt s = some (q, rest) ∧ Counts q min max := by
  cases h with
  | star => exact ⟨.star, by rw [dropLazy_eq]; rfl, .star⟩
  | plus => exact ⟨.plus, by rw [dropLazy_eq]; rfl, .plus⟩
  | quest => exact ⟨.quest, by rw [dropLazy_eq]; rfl, .quest⟩
  | counted hrep _ =>
    rw [dropLazy_eq]
    have hne : ∀ {ds}, Regexp.IsCount ds → ds ≠ [] := fun h => List.length_pos_iff.mp h.pos
    cases hrep with
    | exactly hds => exact ⟨_, braceQuantifier_exactly hds.digits (hne hds) _, .exactly hds⟩
    | atLeast hds =>
      have hnone : ∀ d ∈ ([] : Bytes), isDigit d = true := by simp
      exact ⟨_, braceQuantifier_comma hds.digits hnone (hne hds) _, .atLeast hds⟩
    | between hds hes => exact ⟨_, braceQuantifier_comma hds.digits hes.digits (hne hds) _, .between hds hes⟩

/-! ## Text that the walk takes for a count -/

/-- What RE2 makes of such text. -/
inductive TextTree : Regexp.Tree → Prop
  | literal {fold : Bool} {c : Char} : TextTree (.literal fold c)
  | brace {fold : Bool} {behind : Bytes} : TextTree (.brace fold behind)
  | repeat {min : Nat} {max : Option Nat} {fold : Bool} {c : Char} : TextTree (.repeat false min max (.literal fold c))

/-- The second tree is what the first one has behind some text. -/
inductive Behind : Regexp.Tree → Regexp.Tree → Prop
  | refl {u : Regexp.Tree} : Behind u u
  | text {t v u : Regexp.Tree} : TextTree t → Behind v u → Behind (.cat t v) u

theorem Behind.ordinary {leaf : Regexp.Tree → Prop} {v u : Regexp.Tree} (h : Behind v u) (hv : Ordinary leaf v) :
    Ordinary leaf u := by
  induction h with
  | refl => exact hv
  | text _ _ ih => exact ih hv.2

theorem Behind.trans {t u v : Regexp.Tree} (h : Behind t u) (h' : Behind u v) : Behind t v := by
  induction h with
  | refl => exact h'
  | text ht _ ih => exact .text ht (ih h')

theorem quantifierStart_of_quantifier {s rest : Bytes} {min : Nat} {max : Option Nat}
    (h : Regexp.Quantifier s min max rest) : peekIsQuantifierStart s = true := by
  cases h <;> rfl

/-- The bytes that begin a setter, a group, a class, an escape, an assertion or a dot, and those that end the pieces. -/
def beginsConstruct (b : Byte) : Bool :=
  b = ch '(' || b = ch '[' || b = ch '\\' || b = ch '^' || b = ch '$' || b = ch '.' || b = ch '|' || b = ch ')'

section First

variable {m m' : Regexp.Mode} {b : Byte} {s s' : Bytes} {t u : Regexp.Tree}

theorem ne_of_beginsConstruct {b' : Byte} (hb' : beginsConstruct b' = true) (hfirst : beginsConstruct b = false) :
    b ≠ b' := by
  rintro rfl
  rw [hfirst] at hb'
  cases hb'

theorem Pieces.of_first (hquoted : m.quoted = false) (hfirst : beginsConstruct b = false)
    (h : Regexp.Pieces m (b :: s) u m' s') :
    ∃ m₁ s₁ s₂ t t' v, u = .cat t' v ∧ Regexp.Atom m (b :: s) t s₁ ∧ Regexp.Suffix false m s₁ t m₁ s₂ t' ∧
      Regexp.Pieces m₁ s₂ v m' s' := by
  have hne : ∀ {b' : Byte}, beginsConstruct b' = true → b ≠ b' := fun hb' => ne_of_beginsConstruct hb' hfirst
  have hsetter : ∀ {m₁ s₁}, ¬ Regexp.Setter m (b :: s) m₁ s₁ := by
    intro m₁ s₁ hsetter
    generalize htext : b :: s = text at hsetter
    cases hsetter with
    | flags _ _ => exact hne (by decide) (List.cons.inj htext).1
    | quote _ => exact hne (by decide) (List.cons.inj htext).1
    | unquote hq => rw [hquoted] at hq; cases hq
  cases h with
  | done hend =>
    rcases hend with hnil | ⟨-, hbar | hclose⟩
    · cases hnil
    · exact absurd (Option.some.inj hbar) (hne (by decide))
    · exact absurd (Option.some.inj hclose) (hne (by decide))
  | flags h _ _ => exact absurd h hsetter
  | quote h _ _ => exact absurd h hsetter
  | piece hatom hsuffix hpieces => exact ⟨_, _, _, _, _, _, rfl, hatom, hsuffix, hpieces⟩

theorem Atom.of_first (hquoted : m.quoted = false) (hascii : b.toNat < 0x80) (hfirst : beginsConstruct b = false)
    (h : Regexp.Atom m (b :: s) t s') :
    s' = s ∧ ((∃ c, t = .literal m.fold c ∧ Regexp.metaByte b = false) ∨ b = ch '\x7b' ∧ t = .brace m.fold s) := by
  have hne : ∀ {b' : Byte}, beginsConstruct b' = true → b ≠ b' := fun hb' => ne_of_beginsConstruct hb' hfirst
  generalize htext : b :: s = text at h
  cases h with
  | @literal _ c _ _ hmeta =>
    obtain ⟨he, hs⟩ := encode_ascii_front htext.symm hascii
    rw [he] at hmeta
    exact ⟨hs, .inl ⟨c, rfl, hmeta b rfl⟩⟩
  | quoted hq _ => rw [hquoted] at hq; cases hq
  | brace _ _ =>
    obtain ⟨rfl, rfl⟩ := List.cons.inj htext
    exact ⟨rfl, .inr ⟨rfl, rfl⟩⟩
  | caret _ => exact absurd (List.cons.inj htext).1 (hne (by decide))
  | dollar _ => exact absurd (List.cons.inj htext).1 (hne (by decide))
  | dot _ => exact absurd (List.cons.inj htext).1 (hne (by decide))
  | charClass _ _ => exact absurd (List.cons.inj htext).1 (hne (by decide))
  | escape _ _ => exact absurd (List.cons.inj htext).1 (hne (by decide))
  | capture _ _ _ => exact absurd (List.cons.inj htext).1 (hne (by decide))
  | named _ _ _ _ => exact absurd (List.cons.inj htext).1 (hne (by decide))
  | flagged _ _ _ => exact absurd (List.cons.inj htext).1 (hne (by decide))

theorem beginsConstruct_of_literal (hmeta : Regexp.metaByte b = false) : beginsConstruct b = false := by
  have hall : ∀ b' : Byte, b' ∈ ascii "([\\^$.|)" → Regexp.metaByte b' = true := by decide
  have hne : ∀ b' : Byte, b' ∈ ascii "([\\^$.|)" → b ≠ b' := by
    rintro _ hb' rfl
    exact absurd (hall b hb') (by simp [hmeta])
  simp only [beginsConstruct, Bool.or_eq_false_iff, decide_eq_false_iff_not]
  exact ⟨⟨⟨⟨⟨⟨⟨hne _ (by decide), hne _ (by decide)⟩, hne _ (by decide)⟩, hne _ (by decide)⟩, hne _ (by decide)⟩,
    hne _ (by decide)⟩, hne _ (by decide)⟩, hne _ (by decide)⟩

end First

theorem Pieces.of_plain {leaf : Regexp.Tree → Prop} {m m' : Regexp.Mode} {b : Byte} {s s' : Bytes} {u : Regexp.Tree}
    (hquoted : m.quoted = false) (hb : b.toNat < 0x80) (hmeta : Regexp.metaByte b = false)
    (hu : Ordinary leaf u) (h : Regexp.Pieces m (b :: s) u m' s') :
    ∃ c t s₂ v, u = .cat t v ∧ Regexp.Pieces m s₂ v m' s' ∧
      ((s₂ = s ∧ t = .literal m.fold c) ∨
        ∃ min max, Regexp.Quantifier s min max s₂ ∧ t = .repeat false min max (.literal m.fold c)) := by
  have hfirst := beginsConstruct_of_literal hmeta
  obtain ⟨m₁, s₁, s₂, t, t', v, rfl, hatom, hsuffix, hpieces⟩ := Pieces.of_first hquoted hfirst h
  obtain ⟨rfl, ⟨c, rfl, -⟩ | ⟨rfl, -⟩⟩ := Atom.of_first hquoted hb hfirst hatom
  · obtain ⟨rfl, hquantifier⟩ := Suffix.of_ordinary hsuffix hu.1
    refine ⟨c, t', s₂, v, rfl, hpieces, ?_⟩
    rcases hquantifier with ⟨rfl, rfl⟩ | ⟨min, max, hq, rfl⟩
    · exact .inl ⟨rfl, rfl⟩
    · exact .inr ⟨min, max, hq, rfl⟩
  · cases hmeta

theorem Pieces.letter {m m' : Regexp.Mode} {c : Char} {b : Byte} {s s' : Bytes} {t : Regexp.Tree}
    (hquoted : m.quoted = false) (hc : encode c = [b]) (hmeta : Regexp.metaByte b = false)
    (h : Regexp.Pieces m s t m' s') : Regexp.Pieces m (b :: s) (.cat (.literal m.fold c) t) m' s' := by
  have hatom : Regexp.Atom m (encode c ++ s) (.literal m.fold c) s := by
    refine .literal hquoted fun d hd => ?_
    rw [hc] at hd
    obtain rfl : b = d := Option.some.inj hd
    exact hmeta
  rw [hc] at hatom
  exact .piece hatom .done h

theorem Pieces.not_quantifier {m m' : Regexp.Mode} {b : Byte} {s s' : Bytes} {u : Regexp.Tree}
    (hquoted : m.quoted = false) (hb : b = ch '*' ∨ b = ch '+' ∨ b = ch '?') :
    ¬ Regexp.Pieces m (b :: s) u m' s' := by
  intro h
  have hbyte : b.toNat < 0x80 ∧ Regexp.metaByte b = true ∧ b ≠ ch '\x7b' ∧ beginsConstruct b = false := by
    rcases hb with rfl | rfl | rfl <;> decide
  obtain ⟨hascii, hmeta, hbrace, hfirst⟩ := hbyte
  obtain ⟨_, _, _, _, _, _, -, hatom, -, -⟩ := Pieces.of_first hquoted hfirst h
  obtain ⟨-, ⟨_, -, hliteral⟩ | ⟨hb, -⟩⟩ := Atom.of_first hquoted hascii hfirst hatom
  · rw [hmeta] at hliteral
    cases hliteral
  · exact hbrace hb

section Text

variable {leaf : Regexp.Tree → Prop} {m m' : Regexp.Mode} {s' : Bytes} {u : Regexp.Tree}

theorem Pieces.of_digits (hquoted : m.quoted = false) {w : Bytes} (hw : ∀ b ∈ w, isDigit b = true ∨ b = ch ',') {c : Byte}
    (hc : peekIsQuantifierStart [c] = false) {r : Bytes} (hu : Ordinary leaf u)
    (h : Regexp.Pieces m (w ++ c :: r) u m' s') : ∃ v, Behind u v ∧ Regexp.Pieces m (c :: r) v m' s' := by
  induction w generalizing u with
  | nil => exact ⟨u, .refl, h⟩
  | cons b w ih =>
    obtain ⟨hb, hw⟩ := List.forall_mem_cons.mp hw
    obtain ⟨⟨hascii, -⟩, hmeta, -⟩ := count_plain hb
    have hnext : peekIsQuantifierStart (w ++ c :: r) = false := by
      cases w with
      | nil => exact hc
      | cons d w => exact (count_plain (hw d List.mem_cons_self)).2.2
    obtain ⟨d, t, s₂, v, rfl, hpieces, hcase⟩ := Pieces.of_plain hquoted hascii hmeta hu h
    rcases hcase with ⟨rfl, rfl⟩ | ⟨min, max, hq, -⟩
    · obtain ⟨v', hbehind, hpieces⟩ := ih hw hu.2 hpieces
      exact ⟨v', .text .literal hbehind, hpieces⟩
    · exact absurd ((quantifierStart_of_quantifier hq).symm.trans hnext) (by decide)

/-- A closing brace is text, and a question mark behind it makes it optional. -/
theorem Pieces.of_close (hquoted : m.quoted = false) {r : Bytes} (hnext : peekIsQuantifierStart (skipLazyMarker r) = false)
    (hu : Ordinary leaf u) (h : Regexp.Pieces m (ch '\x7d' :: r) u m' s') :
    ∃ v, Behind u v ∧ Regexp.Pieces m (skipLazyMarker r) v m' s' := by
  obtain ⟨d, t, s₂, v, rfl, hpieces, hcase⟩ := Pieces.of_plain hquoted (by decide) (by decide) hu h
  cases r with
  | nil =>
    rcases hcase with ⟨rfl, rfl⟩ | ⟨min, max, hq, -⟩
    · exact ⟨v, .text .literal .refl, hpieces⟩
    · exact absurd (quantifierStart_of_quantifier hq) (by decide)
  | cons b r =>
    by_cases hb : b = ch '?'
    · subst hb
      have hskip : skipLazyMarker (ch '?' :: r) = r := rfl
      rw [hskip] at hnext ⊢
      rcases hcase with ⟨rfl, rfl⟩ | ⟨min, max, hq, rfl⟩
      · exact absurd hpieces (Pieces.not_quantifier hquoted (.inr (.inr rfl)))
      · have hdrop : Regexp.dropLazy r = r := by
          cases r with
          | nil => rfl
          | cons d r =>
            refine if_neg fun hd => ?_
            subst hd
            cases hnext
        generalize htext : ch '?' :: r = text at hq
        cases hq with
        | star => exact absurd (List.cons.inj htext).1 (by decide)
        | plus => exact absurd (List.cons.inj htext).1 (by decide)
        | quest =>
          obtain ⟨-, rfl⟩ := List.cons.inj htext
          rw [hdrop] at hpieces
          exact ⟨v, .text .repeat .refl, hpieces⟩
        | counted _ _ => exact absurd (List.cons.inj htext).1 (by decide)
    · have hskip : skipLazyMarker (b :: r) = b :: r := if_neg hb
      rw [hskip] at hnext ⊢
      rcases hcase with ⟨rfl, rfl⟩ | ⟨min, max, hq, -⟩
      · exact ⟨v, .text .literal .refl, hpieces⟩
      · rw [quantifierStart_of_quantifier hq] at hnext
        cases hnext

theorem Pieces.of_open (hquoted : m.quoted = false) {behind : Bytes} (hstart : peekIsQuantifierStart behind = false)
    (hu : Ordinary leaf u) (h : Regexp.Pieces m (ch '\x7b' :: behind) u m' s') :
    ∃ v, leaf (.brace m.fold behind) ∧ Behind u v ∧ Regexp.Pieces m behind v m' s' := by
  obtain ⟨m₁, s₁, s₂, t, t', v, rfl, hatom, hsuffix, hpieces⟩ := Pieces.of_first hquoted (by decide) h
  obtain ⟨rfl, ⟨_, -, hmeta⟩ | ⟨-, rfl⟩⟩ := Atom.of_first hquoted (by decide) (by decide) hatom
  · exact absurd hmeta (by decide)
  · obtain ⟨rfl, ⟨rfl, rfl⟩ | ⟨min, max, hq, rfl⟩⟩ := Suffix.of_ordinary hsuffix hu.1
    · exact ⟨v, Suffix.operand hsuffix hu.1, .text .brace .refl, hpieces⟩
    · exact absurd ((quantifierStart_of_quantifier hq).symm.trans hstart) (by decide)

/-- Where the walk sees a count and RE2 does not, RE2 reads text. -/
theorem Pieces.of_count (hquoted : m.quoted = false) {s rest : Bytes} {q : Quantifier} (hq : quantifierAt s = some (q, rest))
    (hnext : peekIsQuantifierStart rest = false) (hu : Ordinary leaf u) (h : Regexp.Pieces m s u m' s') :
    ∃ behind v, braceQuantifier behind = some (q, rest) ∧ leaf (.brace m.fold behind) ∧ Behind u v ∧
      Regexp.Pieces m rest v m' s' := by
  cases s with
  | nil => cases hq
  | cons b behind =>
    simp only [quantifierAt] at hq
    split at hq
    · rename_i hb
      exact absurd h (Pieces.not_quantifier hquoted (.inl hb))
    split at hq
    · rename_i hb
      exact absurd h (Pieces.not_quantifier hquoted (.inr (.inl hb)))
    split at hq
    · rename_i hb
      exact absurd h (Pieces.not_quantifier hquoted (.inr (.inr hb)))
    split at hq
    · rename_i hb
      subst hb
      obtain ⟨w, r, rfl, hw, rfl⟩ := braceQuantifier_shape hq
      have hstart : peekIsQuantifierStart (w ++ ch '\x7d' :: r) = false := by
        cases w with
        | nil => rfl
        | cons d w => exact (count_plain (hw d List.mem_cons_self)).2.2
      obtain ⟨v, hbrace, htext, hpieces⟩ := Pieces.of_open hquoted hstart hu h
      obtain ⟨v', hdigits, hpieces⟩ := Pieces.of_digits hquoted hw (by decide) (htext.ordinary hu) hpieces
      obtain ⟨v'', hclose, hpieces⟩ := Pieces.of_close hquoted hnext ((htext.trans hdigits).ordinary hu) hpieces
      exact ⟨_, v'', hq, hbrace, (htext.trans hdigits).trans hclose, hpieces⟩
    · cases hq

end Text

end LlmGuard
