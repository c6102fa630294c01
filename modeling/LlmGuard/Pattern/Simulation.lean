import LlmGuard.Pattern.Aligned

/-!
# What is built simulates the tree

One relation between what the walk builds and trees, kept by every construct. Then it holds between what is built
from an ordinary pattern and the tree that RE2 builds from it.
-/

namespace LlmGuard

open Utf8

variable {α : Type}

/-! ## The relation -/

/-- The pieces of a concatenation. What flags and the marks of a quote are built into stands for nothing. -/
inductive Strung (A : Actions α) (leaf : Regexp.Tree → Prop) (nothing : α → Prop) (R : α → Regexp.Tree → Prop) :
    List (α × Bool) → Regexp.Tree → Prop
  | nil : Strung A leaf nothing R [] .empty
  | piece {x : α} {quantified : Bool} {ps : List (α × Bool)} {t u : Regexp.Tree} : R x t →
      Strung A leaf nothing R ps u → Strung A leaf nothing R ((x, quantified) :: ps) (.cat t u)
  | setter {x : α} {ps : List (α × Bool)} {u : Regexp.Tree} : nothing x → Strung A leaf nothing R ps u →
      Strung A leaf nothing R ((x, false) :: ps) u
  | quote {ps : List (α × Bool)} {behind : Bytes} {u : Regexp.Tree} : Strung A leaf nothing R ps u →
      Strung A leaf nothing R ps (.quote behind u)
  /-- The walk takes text for a count. -/
  | count {x : α} {q : Quantifier} {ps : List (α × Bool)} {t u v : Regexp.Tree} {fold : Bool} {behind rest : Bytes} :
      R x t → leaf (.brace fold behind) → braceQuantifier behind = some (q, rest) → Behind v u →
      Strung A leaf nothing R ps u → Strung A leaf nothing R ((A.quantified q x, true) :: ps) (.cat t v)
  | setterCount {x : α} {q : Quantifier} {ps : List (α × Bool)} {u v : Regexp.Tree} {fold : Bool} {behind rest : Bytes} :
      nothing x → leaf (.brace fold behind) → braceQuantifier behind = some (q, rest) → Behind v u →
      Strung A leaf nothing R ps u → Strung A leaf nothing R ((A.quantified q x, true) :: ps) v

/-- The branches of an alternation. -/
inductive Branched (R : α → Regexp.Tree → Prop) : α → List α → Regexp.Tree → Prop
  | one {x : α} {t : Regexp.Tree} : R x t → Branched R x [] t
  | more {x y : α} {ys : List α} {t u : Regexp.Tree} : R x t → Branched R y ys u → Branched R x (y :: ys) (.alt t u)

/-- Every construct keeps the relation. -/
structure Simulates (A : Actions α) (blind nothing : α → Prop) (perl : Bool → α) (leaf : Regexp.Tree → Prop)
    (R : α → Regexp.Tree → Prop) : Prop where
  consumes : A.Consumes
  escapes : Escapes A blind perl
  literal : ∀ {fold fold' c}, (fold' = true → fold = true) → leaf (.literal fold' c) →
    R (A.literal (encode c) fold) (.literal fold' c)
  blindChar : ∀ {x fold c}, blind x → R x (.literal fold c)
  blindProperty : ∀ {x fold s item s'}, Regexp.PropertyText s item s' → blind x → R x (.charClass fold false [item])
  perlClass : ∀ {fold negated p}, leaf (.charClass fold false [.perl negated p]) →
    R (perl negated) (.charClass fold false [.perl negated p])
  charClass : ∀ {fold fold' negated items ks xs}, (fold' = true → fold = true) → leaf (.charClass fold' negated items) →
    xs ≠ [] → StandsFor A blind perl fold ks xs → (∀ item ∈ items, SpelledBy ks item) →
    R (A.charClass negated xs) (.charClass fold' negated items)
  anchor : ∀ a, R A.anchor (.assertion a)
  assertion : ∀ {fold b a s x rest}, (b, a) ∈ Regexp.assertions → A.escape fold b s = .ok (x, rest) →
    rest = s ∧ R x (.assertion a)
  anyByte : ∀ {fold s x rest}, A.escape fold (ch 'C') s = .ok (x, rest) → rest = s ∧ R x .anyByte
  dot : ∀ newline, R A.dot (.anyChar newline)
  flagSetter : nothing A.flagSetter
  quoteMark : ∀ {fold b s x rest}, b = ch 'Q' ∨ b = ch 'E' → A.escape fold b s = .ok (x, rest) → rest = s ∧ nothing x
  quote : ∀ {behind t fold s r}, leaf (.quote behind t) → A.escape fold (ch 'Q') s = .ok r → PlainQuote behind
  capture : ∀ {x t}, R x t → R (A.capture x) (.capture t)
  quantified : ∀ {q min max x t}, Counts q min max → R x t → R (A.quantified q x) (.repeat false min max t)
  concat : ∀ {ps u}, Strung A leaf nothing R ps u → R (A.concat ps) u
  alternation : ∀ {x xs t}, Branched R x xs t → R (A.alternation x xs) t

/-! ## One pattern, two readers -/

/-- Both readers do the same with every text that is shorter. An open quote reaches to the end. -/
structure AlignedBelow (A : Actions α) (leaf : Regexp.Tree → Prop) (nothing : α → Prop) (R : α → Regexp.Tree → Prop)
    (n : Nat) : Prop where
  pieces : ∀ {m m' : Regexp.Mode} {s s' : Bytes} {t : Regexp.Tree} {fold : Bool} {depth : Nat} {ps : List (α × Bool)}
    {st : ParserState}, s.length < n → (m.quoted = true → PlainQuote s) → (m.fold = true → fold = true) →
    Ordinary leaf t → Regexp.Pieces m s t m' s' → Reads.Pieces A depth ⟨s, fold⟩ ps st →
    st.rest = s' ∧ (s' = [] ∨ m'.quoted = false) ∧ (m'.fold = true → st.fold = true) ∧ Strung A leaf nothing R ps t
  alternation : ∀ {m m' : Regexp.Mode} {s s' : Bytes} {t : Regexp.Tree} {fold : Bool} {depth : Nat} {ps : List (α × Bool)}
    {xs : List α} {st₁ st : ParserState}, s.length < n → m.quoted = false → (m.fold = true → fold = true) →
    Ordinary leaf t → Regexp.Alternation m s t m' s' → Reads.Pieces A depth ⟨s, fold⟩ ps st₁ →
    Reads.Branches A depth st₁ xs st → st.rest = s' ∧ Branched R (A.concat ps) xs t

section Step

variable {A : Actions α} {blind nothing : α → Prop} {perl : Bool → α} {leaf : Regexp.Tree → Prop}
  {R : α → Regexp.Tree → Prop} {n : Nat} {m m' : Regexp.Mode} {s s' : Bytes} {t : Regexp.Tree} {fold : Bool} {depth : Nat}
  {x : α} {st : ParserState}

theorem AlignedBelow.group (ih : AlignedBelow A leaf nothing R n) (hsim : Simulates A blind nothing perl leaf R)
    (hlen : s.length < n) (hquoted : m.quoted = false) (hfold : m.fold = true → fold = true) (ht : Ordinary leaf t)
    (hre : Regexp.Alternation m s t m' s') (hwalk : Reads.Alternation A depth ⟨s, fold⟩ x st) :
    st.rest = s' ∧ R x t := by
  cases hwalk with
  | intro hpieces hbranches =>
    obtain ⟨hrest, hbranched⟩ := ih.alternation hlen hquoted hfold ht hre hpieces hbranches
    exact ⟨hrest, hsim.alternation hbranched⟩

theorem AlignedBelow.closed (ih : AlignedBelow A leaf nothing R n) (hsim : Simulates A blind nothing perl leaf R)
    (hlen : s.length < n) (hquoted : m.quoted = false) (hfold : m.fold = true → fold = true) (ht : Ordinary leaf t)
    (hre : Regexp.Alternation m s t m' (ch ')' :: s')) (hwalk : Reads.Alternation A depth ⟨s, fold⟩ x st) {rest : Bytes}
    (hclose : st.rest = ch ')' :: rest) : rest = s' ∧ R x t := by
  obtain ⟨hrest, hx⟩ := ih.group hsim hlen hquoted hfold ht hre hwalk
  rw [hclose] at hrest
  exact ⟨(List.cons.inj hrest).2, hx⟩

theorem FlagText.spec {m₁ : Regexp.Mode} {fs : Bytes} (h : Regexp.FlagText m fs m₁) :
    fs.all isFlagByte = true ∧ m₁.quoted = m.quoted ∧ ∀ {fold : Bool}, (m.fold = true → fold = true) →
      m₁.fold = true → (fold || fs.contains (ch 'i')) = true := by
  have hflag : ∀ {l : Bytes}, l.all Regexp.flagByte = true → l.all isFlagByte = true := by
    intro l hl
    refine List.all_eq_true.mpr fun b hb => ?_
    have := List.all_eq_true.mp hl b hb
    unfold Regexp.flagByte at this
    unfold isFlagByte
    simp only [Bool.or_eq_true, decide_eq_true_eq] at this ⊢
    rcases this with ((h | h) | h) | h <;> simp [h]
  cases h with
  | on hon =>
    refine ⟨hflag hon, rfl, fun hfold h => ?_⟩
    have h : m.fold = true ∨ fs.contains (ch 'i') = true := by simpa [Regexp.Mode.set] using h
    exact Bool.or_eq_true_iff.mpr (h.imp_left hfold)
  | @off on off hon hoff _ =>
    refine ⟨?_, rfl, fun hfold h => ?_⟩
    · rw [List.all_append, List.all_cons, hflag hon, hflag hoff]
      rfl
    · simp only [Regexp.Mode.set, Bool.and_eq_true, Bool.or_eq_true] at h
      refine Bool.or_eq_true_iff.mpr (h.1.imp hfold fun hi => ?_)
      rw [List.contains_iff_mem] at hi ⊢
      exact List.mem_append_left _ hi

theorem AlignedBelow.escape (hsim : Simulates A blind nothing perl leaf R) (hfold : m.fold = true → fold = true)
    (ht : Ordinary leaf t) {rest : Bytes} (hre : Regexp.Escape m s t s') (hwalk : parseEscape A fold s = .ok (x, rest)) :
    rest = s' ∧ R x t := by
  cases hre with
  | char hchar =>
    obtain ⟨rfl, rfl | hblind⟩ := hsim.escapes.char hchar hwalk
    · exact ⟨rfl, hsim.literal hfold ht⟩
    · exact ⟨rfl, hsim.blindChar hblind⟩
  | perl hperl =>
    obtain ⟨rfl, rfl⟩ := hsim.escapes.perl hperl hwalk
    exact ⟨rfl, hsim.perlClass ht.2⟩
  | property hprop =>
    obtain ⟨rfl, hblind⟩ := hsim.escapes.property hprop hwalk
    exact ⟨rfl, hsim.blindProperty hprop hblind⟩
  | assertion ha => exact hsim.assertion ha hwalk
  | anyByte => exact hsim.anyByte hwalk

theorem AlignedBelow.literal (hsim : Simulates A blind nothing perl leaf R) (hfold : m.fold = true → fold = true)
    {c : Char} (hplain : ∀ b ∈ (encode c).head?, isPlain b = true) (ht : leaf (.literal m.fold c))
    (hwalk : Reads.Atom A depth ⟨encode c ++ s, fold⟩ x st) : st = ⟨s, fold⟩ ∧ R x (.literal m.fold c) := by
  obtain ⟨b, w, hbw⟩ := List.exists_cons_of_ne_nil (encode_ne_nil c)
  have htext : encode c ++ s = b :: (w ++ s) := by rw [hbw]; rfl
  rw [htext] at hwalk
  obtain ⟨rfl, rfl⟩ := hwalk.of_plain (hplain b (by rw [hbw]; rfl))
  rw [consumeRune_encode htext]
  exact ⟨rfl, hsim.literal hfold ht⟩

/-- Outside of quotes RE2 takes more bytes for literals than the walk, which refuses these. -/
theorem isPlain_of_walk {c : Char} (hmeta : ∀ b ∈ (encode c).head?, Regexp.metaByte b = false)
    (hwalk : Reads.Atom A depth ⟨encode c ++ s, fold⟩ x st) : ∀ b ∈ (encode c).head?, isPlain b = true := by
  intro b hb
  obtain ⟨w, hbw⟩ := List.head?_eq_some_iff.mp hb
  have hb := hmeta b hb
  rw [hbw] at hwalk
  rw [Reads.isPlain_spec]
  unfold Regexp.metaByte at hb
  simp only [Bool.or_eq_false_iff, decide_eq_false_iff_not] at hb
  obtain ⟨⟨⟨⟨⟨⟨⟨⟨⟨⟨⟨hescape, hcaret⟩, hdollar⟩, hdot⟩, hclass⟩, hopen⟩, -⟩, -⟩, -⟩, -⟩, -⟩, -⟩ := hb
  exact ⟨hopen, hclass, hescape, hcaret, hdollar, hdot, hwalk.not_outOfPlace⟩

theorem AlignedBelow.single (hsim : Simulates A blind nothing perl leaf R) (hgroup : s.head? ≠ some (ch '('))
    (hquoted : m.quoted = true → PlainQuote s) (hfold : m.fold = true → fold = true) (ht : Ordinary leaf t)
    (hre : Regexp.Atom m s t s') (hwalk : Reads.Atom A depth ⟨s, fold⟩ x st) : st = ⟨s', fold⟩ ∧ R x t := by
  cases hre with
  | literal _ hmeta => exact AlignedBelow.literal hsim hfold (isPlain_of_walk hmeta hwalk) ht hwalk
  | quoted hq hnot => exact AlignedBelow.literal hsim hfold ((hquoted hq).of_char hnot).1 ht hwalk
  | brace _ _ => exact absurd hwalk.not_outOfPlace (by decide)
  | caret _ =>
    obtain ⟨rfl, rfl⟩ := hwalk.of_anchor (.inl rfl)
    exact ⟨rfl, hsim.anchor _⟩
  | dollar _ =>
    obtain ⟨rfl, rfl⟩ := hwalk.of_anchor (.inr rfl)
    exact ⟨rfl, hsim.anchor _⟩
  | dot _ =>
    obtain ⟨rfl, rfl⟩ := hwalk.of_dot
    exact ⟨rfl, hsim.dot _⟩
  | charClass _ htext =>
    obtain ⟨rest, hparse, rfl⟩ := hwalk.of_charClass
    rcases parseCharClass_aligned hsim.escapes htext hparse with
      ⟨rfl, ks, xs, rfl, hne, hfor, hspelled⟩ | ⟨excluded, p, hposix⟩
    · exact ⟨rfl, hsim.charClass hfold ht.2 hne hfor hspelled⟩
    · exact absurd hposix (ht.1 excluded p rest)
  | escape _ hescape =>
    obtain ⟨rest, hparse, rfl⟩ := hwalk.of_escape
    obtain ⟨rfl, hx⟩ := AlignedBelow.escape hsim hfold ht hescape hparse
    exact ⟨rfl, hx⟩
  | capture _ _ _ => exact absurd rfl hgroup
  | named _ _ _ _ => exact absurd rfl hgroup
  | flagged _ _ _ => exact absurd rfl hgroup

theorem AlignedBelow.atom (ih : AlignedBelow A leaf nothing R n) (hsim : Simulates A blind nothing perl leaf R)
    (hlen : s.length < n + 1) (hquoted : m.quoted = true → PlainQuote s) (hfold : m.fold = true → fold = true)
    (ht : Ordinary leaf t) (hre : Regexp.Atom m s t s') (hwalk : Reads.Atom A depth ⟨s, fold⟩ x st) :
    st.rest = s' ∧ R x t := by
  have hsingle : s.head? ≠ some (ch '(') → st.rest = s' ∧ R x t := by
    intro hgroup
    obtain ⟨rfl, hx⟩ := AlignedBelow.single hsim hgroup hquoted hfold ht hre hwalk
    exact ⟨rfl, hx⟩
  cases hre with
  | @capture _ _ s _ u hplain hhead hbody =>
    have hu : Ordinary leaf u := ht
    have hgroup := hwalk.of_group
    cases s with
    | nil => cases hgroup <;> contradiction
    | cons c s =>
      obtain ⟨y, st₁, rest, hbody', hclose, rfl, rfl⟩ := hgroup.of_capture fun hc => hhead (by rw [hc]; rfl)
      exact (ih.closed hsim (Nat.lt_of_succ_lt_succ hlen) hplain hfold hu hbody hbody' hclose).imp_right hsim.capture
  | @named _ _ _ _ _ _ u hplain hopening hname hbody =>
    have hu : Ordinary leaf u := ht
    have hgroup := hwalk.of_group
    rcases hopening with rfl | rfl
    · obtain ⟨y, st₁, rest, hbody', hclose, rfl, rfl⟩ := Reads.Group.of_named hname hgroup
      simp only [List.length_cons, List.length_append] at hlen
      exact (ih.closed hsim (by omega) hplain hfold hu hbody hbody' hclose).imp_right hsim.capture
    · exact (Reads.Group.not_angle hgroup).elim
  | flagged hplain hflags hbody =>
    obtain ⟨hall, hquoted', hfold'⟩ := FlagText.spec hflags
    obtain ⟨st₁, rest, hbody', hclose, rfl⟩ := Reads.Group.of_flagged _ hall hwalk.of_group
    simp only [List.length_cons, List.length_append] at hlen
    exact ih.closed hsim (by omega) (hquoted'.trans hplain) (hfold' hfold) ht hbody hbody' hclose
  | @literal _ c _ _ hmeta =>
    refine hsingle fun hhead => ?_
    rw [List.head?_append_of_ne_nil _ (encode_ne_nil c)] at hhead
    exact absurd (hmeta _ hhead) (by decide)
  | @quoted _ c _ hq hnot =>
    refine hsingle fun hhead => ?_
    rw [List.head?_append_of_ne_nil _ (encode_ne_nil c)] at hhead
    exact absurd (((hquoted hq).of_char hnot).1 _ hhead) (by decide)
  | brace _ _ => exact hsingle fun h => absurd (Option.some.inj h) (by decide)
  | caret _ => exact hsingle fun h => absurd (Option.some.inj h) (by decide)
  | dollar _ => exact hsingle fun h => absurd (Option.some.inj h) (by decide)
  | dot _ => exact hsingle fun h => absurd (Option.some.inj h) (by decide)
  | charClass _ _ => exact hsingle fun h => absurd (Option.some.inj h) (by decide)
  | escape _ _ => exact hsingle fun h => absurd (Option.some.inj h) (by decide)

theorem endsConcat_of_done (h : s = [] ∨ m.quoted = false ∧ (s.head? = some (ch '|') ∨ s.head? = some (ch ')'))) :
    endsConcat s = true := by
  cases s with
  | nil => rfl
  | cons b s =>
    rcases h with h | ⟨-, h | h⟩
    · cases h
    · rw [Option.some.inj h]
      rfl
    · rw [Option.some.inj h]
      rfl

theorem Atom.not_end (hquoted : m.quoted = true → PlainQuote s) (h : Regexp.Atom m s t s') : endsConcat s = false := by
  have hliteral : ∀ {c : Char} {s : Bytes}, (∀ b ∈ (encode c).head?, b ≠ ch '|' ∧ b ≠ ch ')') →
      endsConcat (encode c ++ s) = false := by
    intro c s hc
    obtain ⟨b, w, hbw⟩ := List.exists_cons_of_ne_nil (encode_ne_nil c)
    obtain ⟨hbar, hclose⟩ := hc b (by rw [hbw]; rfl)
    rw [hbw]
    simp [endsConcat, hbar, hclose]
  cases h with
  | literal _ hmeta =>
    refine hliteral fun b hb => ?_
    constructor <;> rintro rfl <;> exact absurd (hmeta _ hb) (by decide)
  | quoted hq hnot =>
    refine hliteral fun b hb => ?_
    constructor <;> rintro rfl <;> exact absurd (((hquoted hq).of_char hnot).1 _ hb) (by decide)
  | brace _ _ => rfl
  | caret _ => rfl
  | dollar _ => rfl
  | dot _ => rfl
  | charClass _ _ => rfl
  | escape _ _ => rfl
  | capture _ _ _ => rfl
  | named _ _ _ _ => rfl
  | flagged _ _ _ => rfl

theorem PlainQuote.behind (hquoted : m.quoted = true → PlainQuote s) (h : Regexp.Atom m s t s') :
    m.quoted = true → PlainQuote s' := by
  intro hq
  cases h with
  | quoted _ hnot => exact ((hquoted hq).of_char hnot).2
  | literal h _ | brace h _ | caret h | dollar h | dot h | charClass h _ | escape h _ | capture h _ _ | named h _ _ _
  | flagged h _ _ =>
    rw [hq] at h
    cases h

/-- Flags and the marks of a quote are one piece of the walk and none of the tree. -/
theorem AlignedBelow.setter (ih : AlignedBelow A leaf nothing R n) {m₁ : Regexp.Mode} {s₁ : Bytes} {ps : List (α × Bool)}
    (hend : endsConcat s = false) (hlen : s₁.length < n) (hquoted : m₁.quoted = true → PlainQuote s₁)
    (ht : Ordinary leaf t) (hre : Regexp.Pieces m₁ s₁ t m' s') {fold₁ : Bool} (hfold : m₁.fold = true → fold₁ = true)
    (hatom : ∀ {x st₁}, Reads.Atom A depth ⟨s, fold⟩ x st₁ → nothing x ∧ st₁ = ⟨s₁, fold₁⟩)
    (hwalk : Reads.Pieces A depth ⟨s, fold⟩ ps st) :
    st.rest = s' ∧ (s' = [] ∨ m'.quoted = false) ∧ (m'.fold = true → st.fold = true) ∧ Strung A leaf nothing R ps t := by
  cases hwalk with
  | done hdone =>
    rw [hend] at hdone
    cases hdone
  | quantified _ hx hq hpieces =>
    obtain ⟨hnothing, rfl⟩ := hatom hx
    have hshort := quantifierAt_length hq
    cases hq₁ : m₁.quoted with
    | true =>
      rw [(quantifierAt_none (hquoted hq₁).noQuantifier).1] at hq
      cases hq
    | false =>
      obtain ⟨behind, v, hbrace, hleaf, hbehind, hre⟩ := Pieces.of_count hq₁ hq hpieces.head ht hre
      obtain ⟨hrest, hquoted', hfold', hstrung⟩ := ih.pieces (by simp only at hshort; omega)
        (fun h => by rw [hq₁] at h; cases h) hfold (hbehind.ordinary ht) hre hpieces
      exact ⟨hrest, hquoted', hfold', .setterCount hnothing hleaf hbrace hbehind hstrung⟩
  | single _ hx _ hpieces =>
    obtain ⟨hnothing, rfl⟩ := hatom hx
    obtain ⟨hrest, hquoted', hfold', hstrung⟩ := ih.pieces hlen hquoted hfold ht hre hpieces
    have hnone : peekIsQuantifierStart s₁ = false := hpieces.head
    exact ⟨hrest, hquoted', hfold', hnone ▸ .setter hnothing hstrung⟩

theorem AlignedBelow.piece (ih : AlignedBelow A leaf nothing R n) (hsim : Simulates A blind nothing perl leaf R)
    {m₁ : Regexp.Mode} {s₁ s₂ : Bytes} {t' u : Regexp.Tree} {ps : List (α × Bool)} (hlen : s.length < n + 1)
    (hquoted : m.quoted = true → PlainQuote s) (hfold : m.fold = true → fold = true) (ht : Ordinary leaf (.cat t' u))
    (hatom : Regexp.Atom m s t s₁) (hsuffix : Regexp.Suffix false m s₁ t m₁ s₂ t') (hre : Regexp.Pieces m₁ s₂ u m' s')
    (hwalk : Reads.Pieces A depth ⟨s, fold⟩ ps st) :
    st.rest = s' ∧ (s' = [] ∨ m'.quoted = false) ∧ (m'.fold = true → st.fold = true) ∧
      Strung A leaf nothing R ps (.cat t' u) := by
  have hoperand := Suffix.operand hsuffix ht.1
  have hquoted₁ := PlainQuote.behind hquoted hatom
  cases hwalk with
  | done hend =>
    rw [Atom.not_end hquoted hatom] at hend
    cases hend
  | @quantified _ _ st₁ _ x q rest ps _ hatom' hq hpieces =>
    obtain ⟨hrest₁, hx⟩ := ih.atom hsim hlen hquoted hfold hoperand hatom hatom'
    have hfold₁ := fun h => hatom'.sticky (hfold h)
    have hshort := quantifierAt_length hq
    have hshort₁ := hatom'.shrinks hsim.consumes
    obtain ⟨r, f⟩ := st₁
    subst hrest₁
    simp only at hshort hshort₁ hfold₁ hq
    cases hq₁ : m.quoted with
    | true =>
      rw [(quantifierAt_none (hquoted₁ hq₁).noQuantifier).1] at hq
      cases hq
    | false =>
    have hplain : m.quoted = true → ∀ {s}, PlainQuote s := fun h => by rw [hq₁] at h; cases h
    obtain ⟨rfl, ⟨rfl, rfl⟩ | ⟨min, max, hquantifier, rfl⟩⟩ := Suffix.of_ordinary hsuffix ht.1
    · obtain ⟨behind, v, hbrace, hleaf, hbehind, hre⟩ := Pieces.of_count hq₁ hq hpieces.head ht.2 hre
      obtain ⟨hrest, hquoted', hfold', hstrung⟩ :=
        ih.pieces (by omega) (fun h => hplain h) hfold₁ (hbehind.ordinary ht.2) hre hpieces
      exact ⟨hrest, hquoted', hfold', .count hx hleaf hbrace hbehind hstrung⟩
    · obtain ⟨q', hq', hcounts⟩ := quantifierAt_of_quantifier hquantifier
      obtain ⟨rfl, rfl⟩ := Prod.mk.inj (Option.some.inj (hq'.symm.trans hq))
      obtain ⟨hrest, hquoted', hfold', hstrung⟩ := ih.pieces (by omega) (fun h => hplain h) hfold₁ ht.2 hre hpieces
      exact ⟨hrest, hquoted', hfold', .piece (hsim.quantified hcounts hx) hstrung⟩
  | @single _ _ st₁ _ x ps _ hatom' hq hpieces =>
    obtain ⟨hrest₁, hx⟩ := ih.atom hsim hlen hquoted hfold hoperand hatom hatom'
    have hfold₁ := fun h => hatom'.sticky (hfold h)
    have hshort₁ := hatom'.shrinks hsim.consumes
    obtain ⟨r, f⟩ := st₁
    subst hrest₁
    simp only at hshort₁ hfold₁ hq
    obtain ⟨rfl, ⟨rfl, rfl⟩ | ⟨min, max, hquantifier, rfl⟩⟩ := Suffix.of_ordinary hsuffix ht.1
    · simp only at hpieces hquoted₁
      obtain ⟨hrest, hquoted', hfold', hstrung⟩ := ih.pieces (by omega) hquoted₁ hfold₁ ht.2 hre hpieces
      exact ⟨hrest, hquoted', hfold', .piece hx hstrung⟩
    · obtain ⟨q', hq', -⟩ := quantifierAt_of_quantifier hquantifier
      rw [hq] at hq'
      cases hq'

theorem Simulates.mark (hsim : Simulates A blind nothing perl leaf R) {b : Byte} (hb : b = ch 'Q' ∨ b = ch 'E')
    (hwalk : Reads.Atom A depth ⟨ch '\\' :: b :: s, fold⟩ x st) : nothing x ∧ st = ⟨s, fold⟩ := by
  obtain ⟨rest, hparse, rfl⟩ := hwalk.of_escape
  obtain ⟨rfl, hx⟩ := hsim.quoteMark hb hparse
  exact ⟨hx, rfl⟩

theorem AlignedBelow.pieces_step (ih : AlignedBelow A leaf nothing R n) (hsim : Simulates A blind nothing perl leaf R)
    {ps : List (α × Bool)} (hlen : s.length < n + 1) (hquoted : m.quoted = true → PlainQuote s)
    (hfold : m.fold = true → fold = true) (ht : Ordinary leaf t) (hre : Regexp.Pieces m s t m' s')
    (hwalk : Reads.Pieces A depth ⟨s, fold⟩ ps st) :
    st.rest = s' ∧ (s' = [] ∨ m'.quoted = false) ∧ (m'.fold = true → st.fold = true) ∧ Strung A leaf nothing R ps t := by
  cases hre with
  | done hend =>
    obtain ⟨rfl, rfl⟩ := hwalk.of_end (endsConcat_of_done hend)
    exact ⟨rfl, hend.imp_right And.left, hfold, .nil⟩
  | @flags _ m₁ _ _ _ _ _ hsetter hquoted₁ hre =>
    have hplain : ∀ {s₁ : Bytes}, m₁.quoted = true → PlainQuote s₁ := fun h => by rw [hquoted₁] at h; cases h
    cases hsetter with
    | @flags _ fs _ _ hflags =>
      obtain ⟨hall, -, hfold₁⟩ := FlagText.spec hflags
      simp only [List.length_cons, List.length_append] at hlen
      refine ih.setter rfl (by omega) hplain ht hre (hfold₁ hfold) (fun hatom => ?_) hwalk
      cases fs with
      | nil => exact (Reads.Group.flags_ne hatom.of_group).elim
      | cons b fs =>
        obtain ⟨rfl, rfl⟩ := Reads.Group.of_setter _ hall (List.cons_ne_nil _ _) hatom.of_group
        exact ⟨hsim.flagSetter, rfl⟩
    | quote _ => cases hquoted₁
    | unquote _ =>
      simp only [List.length_cons] at hlen
      exact ih.setter rfl (by omega) hplain ht hre hfold (hsim.mark (.inr rfl)) hwalk
  | quote hsetter hquoted₁ hre =>
    rename_i s₁ _
    cases hsetter with
    | flags hq hflags =>
      rw [(FlagText.spec hflags).2.1, hq] at hquoted₁
      cases hquoted₁
    | quote _ =>
      simp only [List.length_cons] at hlen
      -- The walk gets past the mark only where the quote is plain.
      have hplain : PlainQuote s₁ := by
        have hatom : ∀ {x st₁}, Reads.Atom A depth ⟨ch '\\' :: ch 'Q' :: s₁, fold⟩ x st₁ → PlainQuote s₁ := by
          intro x st₁ hatom
          obtain ⟨rest, hparse, -⟩ := hatom.of_escape
          exact hsim.quote ht.1 hparse
        cases hwalk with
        | done hend => cases hend
        | quantified _ hx _ _ => exact hatom hx
        | single _ hx _ _ => exact hatom hx
      obtain ⟨hrest, hquoted', hfold', hstrung⟩ :=
        ih.setter rfl (by omega) (fun _ => hplain) ht.2 hre hfold (hsim.mark (.inl rfl)) hwalk
      exact ⟨hrest, hquoted', hfold', .quote hstrung⟩
    | unquote _ => cases hquoted₁
  | piece hatom hsuffix hre => exact ih.piece hsim hlen hquoted hfold ht hatom hsuffix hre hwalk

theorem AlignedBelow.alternation_step (ih : AlignedBelow A leaf nothing R n)
    (hsim : Simulates A blind nothing perl leaf R) {ps : List (α × Bool)} {xs : List α} {st₁ : ParserState}
    (hlen : s.length < n + 1) (hquoted : m.quoted = false) (hfold : m.fold = true → fold = true) (ht : Ordinary leaf t)
    (hre : Regexp.Alternation m s t m' s') (hpieces : Reads.Pieces A depth ⟨s, fold⟩ ps st₁)
    (hbranches : Reads.Branches A depth st₁ xs st) : st.rest = s' ∧ Branched R (A.concat ps) xs t := by
  have hplain : m.quoted = true → PlainQuote s := fun h => by rw [hquoted] at h; cases h
  cases hre with
  | one hre hend =>
    obtain ⟨hrest, -, -, hstrung⟩ := ih.pieces_step hsim hlen hplain hfold ht hre hpieces
    obtain ⟨rfl, rfl⟩ := hbranches.of_end (hrest ▸ hend)
    exact ⟨hrest, .one (hsim.concat hstrung)⟩
  | more hre hmore =>
    obtain ⟨hrest, hquoted₁, hfold₁, hstrung⟩ := ih.pieces_step hsim hlen hplain hfold ht.1 hre hpieces
    have hquoted₁ := hquoted₁.resolve_left (List.cons_ne_nil _ _)
    have hshort := hpieces.shrinks hsim.consumes
    rw [hrest] at hshort
    cases hbranches with
    | done hend => exact absurd (by rw [hrest, List.head?_cons]) hend
    | more hbar hbranch hmore' =>
      obtain ⟨-, rfl⟩ := List.cons.inj (hrest.symm.trans hbar)
      simp only [List.length_cons] at hshort
      obtain ⟨hrest', hbranched⟩ := ih.alternation (by omega) hquoted₁ hfold₁ ht.2 hmore hbranch hmore'
      exact ⟨hrest', .more (hsim.concat hstrung) hbranched⟩

end Step

theorem alignedBelow {A : Actions α} {blind nothing : α → Prop} {perl : Bool → α} {leaf : Regexp.Tree → Prop}
    {R : α → Regexp.Tree → Prop} (hsim : Simulates A blind nothing perl leaf R) (n : Nat) :
    AlignedBelow A leaf nothing R n := by
  induction n with
  | zero => exact ⟨fun h => absurd h (Nat.not_lt_zero _), fun h => absurd h (Nat.not_lt_zero _)⟩
  | succ n ih => exact ⟨ih.pieces_step hsim, ih.alternation_step hsim⟩

end LlmGuard
