import LlmGuard.Pattern.Simulation

/-!
# Refused before it is misread

A pattern that the walk refuses may hold anything behind the construct that is refused. Up to there the walk takes
it apart at the same places as RE2, save for text that it may take for a count.
-/

namespace LlmGuard

open Utf8

variable {α : Type}

/-- Any tree but a quote. -/
def Unquoted : Regexp.Tree → Prop
  | .quote _ _ => False
  | _ => True

/-- From here the walk comes to a construct that it refuses. With the modes of the groups around, the mode, and whether
an operand stands in front. -/
inductive Halts (A : Actions α) : List Regexp.Mode → Regexp.Mode → Bool → Bytes → Prop
  /-- No piece begins with the byte. -/
  | misplaced {K : List Regexp.Mode} {m : Regexp.Mode} {b : Byte} {s : Bytes} : outOfPlace b = true → b ≠ ch '|' →
      b ≠ ch ')' → Halts A K m false (b :: s)
  | escape {K : List Regexp.Mode} {m : Regexp.Mode} {s : Bytes} : (∀ fold, parseEscape A fold s = .error .refused) →
      Halts A K m false (ch '\\' :: s)
  | charClass {K : List Regexp.Mode} {m : Regexp.Mode} {s : Bytes} :
      (∀ fold, parseCharClass A fold s = .error .refused) → Halts A K m false (ch '[' :: s)
  | group {K : List Regexp.Mode} {m : Regexp.Mode} {b : Byte} {s : Bytes} : b = ch '<' ∨ b = ch ')' →
      Halts A K m false (ch '(' :: ch '?' :: b :: s)
  | deep {K : List Regexp.Mode} {m : Regexp.Mode} {s : Bytes} : kMaxGroupDepth ≤ K.length →
      Halts A K m false (ch '(' :: s)
  | blocked {K : List Regexp.Mode} {m : Regexp.Mode} {operand : Bool} {s : Bytes} : Blocked s → Halts A K m operand s
  /-- The walk ends the class too early, and is blocked there. -/
  | posix {K : List Regexp.Mode} {m : Regexp.Mode} {negated excluded : Bool} {items : List Regexp.ClassItem}
      {p : Regexp.Posix} {behind s s' : Bytes} : Regexp.ClassText s negated items s' → .posix excluded p behind ∈ items →
      (∀ excluded p behind, .posix excluded p behind ∈ items → Blocked behind) → Halts A K m false (ch '[' :: s)
  | atom {K : List Regexp.Mode} {m : Regexp.Mode} {t : Regexp.Tree} {s s' : Bytes} : s.head? ≠ some (ch '(') →
      (m.quoted = true → PlainQuote s) → Regexp.Atom m s t s' → Ordinary Unquoted t → Halts A K m true s' →
      Halts A K m false s
  | capture {K : List Regexp.Mode} {m : Regexp.Mode} {s : Bytes} : m.quoted = false → s.head? ≠ some (ch '?') →
      Halts A (m :: K) m false s → Halts A K m false (ch '(' :: s)
  | named {K : List Regexp.Mode} {m : Regexp.Mode} {name s : Bytes} : m.quoted = false → ch '>' ∉ name →
      Halts A (m :: K) m false s → Halts A K m false (ch '(' :: ch '?' :: ch 'P' :: ch '<' :: (name ++ ch '>' :: s))
  | flagged {K : List Regexp.Mode} {m m₁ : Regexp.Mode} {fs s : Bytes} : m.quoted = false → Regexp.FlagText m fs m₁ →
      Halts A (m :: K) m₁ false s → Halts A K m false (ch '(' :: ch '?' :: (fs ++ ch ':' :: s))
  | close {K : List Regexp.Mode} {m m₁ : Regexp.Mode} {s : Bytes} : m₁.quoted = false → Halts A K m true s →
      Halts A (m :: K) m₁ false (ch ')' :: s)
  | branch {K : List Regexp.Mode} {m : Regexp.Mode} {s : Bytes} : m.quoted = false → Halts A K m false s →
      Halts A K m false (ch '|' :: s)
  /-- A quantifier behind flags would be misread. So it would be behind the marks of a quote. -/
  | flags {K : List Regexp.Mode} {m m₁ : Regexp.Mode} {fs s : Bytes} : m.quoted = false → Regexp.FlagText m fs m₁ →
      quantifierAt s = none → Halts A K m₁ false s → Halts A K m false (ch '(' :: ch '?' :: (fs ++ ch ')' :: s))
  | quote {K : List Regexp.Mode} {m : Regexp.Mode} {s : Bytes} : m.quoted = false → quantifierAt s = none →
      Halts A K { m with quoted := true } false s → Halts A K m false (ch '\\' :: ch 'Q' :: s)
  | unquote {K : List Regexp.Mode} {m : Regexp.Mode} {s : Bytes} : m.quoted = true → quantifierAt s = none →
      Halts A K { m with quoted := false } false s → Halts A K m false (ch '\\' :: ch 'E' :: s)
  | quantified {K : List Regexp.Mode} {m : Regexp.Mode} {q : Quantifier} {s s' : Bytes} : quantifierAt s = some (q, s') →
      Halts A K m false s' → Halts A K m true s
  | next {K : List Regexp.Mode} {m : Regexp.Mode} {s : Bytes} : quantifierAt s = none → Halts A K m false s →
      Halts A K m true s

/-- Both readers agree on a pattern, to its end or up to a construct that the walk refuses. -/
def ReadAlike (A : Actions α) (leaf : Regexp.Tree → Prop) (pattern : Bytes) (t : Regexp.Tree) : Prop :=
  Ordinary leaf t ∨ Halts A [] {} false pattern

section Inversion

variable {A : Actions α} {K : List Regexp.Mode} {m : Regexp.Mode} {s : Bytes}

theorem Halts.ne_nil {operand : Bool} (h : Halts A K m operand s) : s ≠ [] := by
  induction h with
  | blocked h => exact h.ne_nil
  | atom _ _ hatom _ _ _ =>
    rintro rfl
    generalize hs : ([] : Bytes) = s at hatom
    cases hatom with
    | literal | quoted => exact encode_ne_nil _ (List.append_eq_nil_iff.mp hs.symm).1
    | brace | caret | dollar | dot | charClass | escape | capture | named | flagged => cases hs
  | quantified hq _ _ =>
    rintro rfl
    cases hq
  | next _ _ ih => exact ih
  | misplaced | escape | charClass | group | deep | posix | capture | named | flagged | close | branch | flags | quote
  | unquote => exact List.cons_ne_nil _ _

theorem Atom.not_ends {b : Byte} {t : Regexp.Tree} {s' : Bytes} (hb : b = ch '|' ∨ b = ch ')')
    (hquoted : m.quoted = true → PlainQuote (b :: s)) : ¬ Regexp.Atom m (b :: s) t s' := by
  intro h
  have := Atom.not_end hquoted h
  rcases hb with rfl | rfl <;> cases this

theorem Halts.of_close (h : Halts A K m false (ch ')' :: s)) :
    Blocked s ∨ ∃ m₁ K', K = m₁ :: K' ∧ Halts A K' m₁ true s := by
  generalize htext : ch ')' :: s = text at h
  cases h with
  | misplaced _ _ hclose => exact absurd (List.cons.inj htext).1.symm hclose
  | blocked h =>
    subst htext
    exact .inl (Blocked.tail (by decide) (by decide) h).1
  | atom _ hquoted hatom _ _ =>
    subst htext
    exact absurd hatom (Atom.not_ends (.inr rfl) hquoted)
  | close _ h =>
    obtain ⟨-, rfl⟩ := List.cons.inj htext
    exact .inr ⟨_, _, rfl, h⟩
  | escape | charClass | group | deep | posix | capture | named | flagged | branch | flags | quote | unquote =>
    exact absurd (List.cons.inj htext).1 (by decide)

theorem Halts.of_branch (h : Halts A K m false (ch '|' :: s)) : Halts A K m false s := by
  generalize htext : ch '|' :: s = text at h
  cases h with
  | misplaced _ hbar _ => exact absurd (List.cons.inj htext).1.symm hbar
  | blocked h =>
    subst htext
    exact .blocked (Blocked.tail (by decide) (by decide) h).1
  | atom _ hquoted hatom _ _ =>
    subst htext
    exact absurd hatom (Atom.not_ends (.inl rfl) hquoted)
  | branch _ h =>
    obtain ⟨-, rfl⟩ := List.cons.inj htext
    exact h
  | escape | charClass | group | deep | posix | capture | named | flagged | close | flags | quote | unquote =>
    exact absurd (List.cons.inj htext).1 (by decide)

theorem Halts.of_quantified {q : Quantifier} {rest : Bytes} (hq : quantifierAt s = some (q, rest))
    (h : Halts A K m true s) : Halts A K m false rest := by
  cases h with
  | blocked h => exact .blocked (h.quantifierAt hq)
  | quantified hq' h =>
    obtain ⟨-, rfl⟩ := Prod.mk.inj (Option.some.inj (hq'.symm.trans hq))
    exact h
  | next hnone _ =>
    rw [hnone] at hq
    cases hq

theorem Halts.of_single (hnone : quantifierAt s = none) (h : Halts A K m true s) : Halts A K m false s := by
  cases h with
  | blocked h => exact .blocked h
  | quantified hq _ =>
    rw [hnone] at hq
    cases hq
  | next _ h => exact h

end Inversion

/-! ## The walk halts -/

/-- The walk does not get past any text that is shorter. -/
structure HaltsBelow (A : Actions α) (n : Nat) : Prop where
  pieces : ∀ {K : List Regexp.Mode} {m : Regexp.Mode} {s : Bytes} {fold : Bool} {ps : List (α × Bool)} {st : ParserState},
    s.length < n → (∀ k ∈ m :: K, k.fold = true → fold = true) → Halts A K m false s →
    Reads.Pieces A K.length ⟨s, fold⟩ ps st → ∃ m', Halts A K m' false st.rest ∧ (m'.fold = true → st.fold = true)
  alternation : ∀ {K : List Regexp.Mode} {m : Regexp.Mode} {s : Bytes} {fold : Bool} {ps : List (α × Bool)} {xs : List α}
    {st₁ st : ParserState}, s.length < n → (∀ k ∈ m :: K, k.fold = true → fold = true) → Halts A K m false s →
    Reads.Pieces A K.length ⟨s, fold⟩ ps st₁ → Reads.Branches A K.length st₁ xs st →
    ∃ m', Halts A K m' false st.rest

section Step

theorem Simulates.unquoted {A : Actions α} {blind nothing : α → Prop} {perl : Bool → α} {leaf : Regexp.Tree → Prop}
    {R : α → Regexp.Tree → Prop} (h : Simulates A blind nothing perl leaf R) :
    Simulates A blind nothing perl Unquoted fun _ _ => True where
  consumes := h.consumes
  escapes := h.escapes
  literal _ _ := trivial
  blindChar _ := trivial
  blindProperty _ _ := trivial
  perlClass _ := trivial
  charClass _ _ _ _ _ := trivial
  anchor _ := trivial
  assertion ha hescape := ⟨(h.assertion ha hescape).1, trivial⟩
  anyByte hescape := ⟨(h.anyByte hescape).1, trivial⟩
  dot _ := trivial
  flagSetter := h.flagSetter
  quoteMark := h.quoteMark
  quote hleaf _ := hleaf.elim
  capture _ := trivial
  quantified _ _ := trivial
  concat _ := trivial
  alternation _ := trivial

variable {A : Actions α} {blind nothing : α → Prop} {perl : Bool → α} {n : Nat} {K : List Regexp.Mode}
  {m m₁ : Regexp.Mode} {s : Bytes} {fold : Bool} {x : α}
  {st : ParserState}

theorem Reads.Group.depth_lt {depth : Nat} (h : Reads.Group A depth ⟨s, fold⟩ x st) : depth < kMaxGroupDepth := by
  cases h <;> assumption

theorem HaltsBelow.closed (ih : HaltsBelow A n) (hlen : s.length < n)
    (hfold : ∀ k ∈ m₁ :: m :: K, k.fold = true → fold = true) (h : Halts A (m :: K) m₁ false s)
    (hwalk : Reads.Alternation A (K.length + 1) ⟨s, fold⟩ x st) {rest : Bytes} (hclose : st.rest = ch ')' :: rest) :
    Halts A K m true rest := by
  cases hwalk with
  | intro hpieces hbranches =>
    obtain ⟨m', h'⟩ := ih.alternation hlen hfold h hpieces hbranches
    rw [hclose] at h'
    rcases h'.of_close with hblocked | ⟨m₂, K', heq, h'⟩
    · exact .blocked hblocked
    · obtain ⟨rfl, rfl⟩ := List.cons.inj heq
      exact h'

theorem HaltsBelow.atom (ih : HaltsBelow A n) (hsim : Simulates A blind nothing perl Unquoted fun _ _ => True)
    (hlen : s.length < n + 1) (hfold : ∀ k ∈ m :: K, k.fold = true → fold = true) (h : Halts A K m false s)
    (hwalk : Reads.Atom A K.length ⟨s, fold⟩ x st) :
    ∃ m', Halts A K m' true st.rest ∧ (m'.fold = true → st.fold = true) := by
  have hmode : m.fold = true → st.fold = true := fun h => hwalk.sticky (hfold m List.mem_cons_self h)
  have hgroup : ∀ k ∈ m :: m :: K, k.fold = true → fold = true :=
    List.forall_mem_cons.mpr ⟨hfold m List.mem_cons_self, hfold⟩
  cases h with
  | misplaced hplace _ _ =>
    rw [hwalk.not_outOfPlace] at hplace
    cases hplace
  | escape hrefused =>
    obtain ⟨rest, hparse, -⟩ := hwalk.of_escape
    rw [hrefused] at hparse
    cases hparse
  | charClass hrefused =>
    obtain ⟨rest, hparse, -⟩ := hwalk.of_charClass
    rw [hrefused] at hparse
    cases hparse
  | group hb =>
    rcases hb with rfl | rfl
    · exact (Reads.Group.not_angle hwalk.of_group).elim
    · exact (Reads.Group.flags_ne hwalk.of_group).elim
  | deep hdeep => exact absurd hwalk.of_group.depth_lt (Nat.not_lt.mpr hdeep)
  | blocked hblocked => exact ⟨m, .blocked (Blocked.atom hsim.escapes hwalk hblocked), hmode⟩
  | posix htext hmem hblocked =>
    obtain ⟨rest, hparse, rfl⟩ := hwalk.of_charClass
    rcases parseCharClass_aligned hsim.escapes htext hparse with ⟨-, ks, xs, -, -, -, hspelled⟩ | ⟨excluded, p, hposix⟩
    · exact (hspelled _ hmem).elim
    · exact ⟨m, .blocked (hblocked excluded p rest hposix), hmode⟩
  | atom hsingle hquoted hatom ht h =>
    obtain ⟨rfl, -⟩ := AlignedBelow.single hsim hsingle hquoted (hfold m List.mem_cons_self) ht hatom hwalk
    exact ⟨m, h, hmode⟩
  | @capture _ _ s _ hhead h =>
    have hgroup' := hwalk.of_group
    cases s with
    | nil => exact absurd rfl h.ne_nil
    | cons c s =>
      obtain ⟨y, st₁, rest, hbody, hclose, rfl, rfl⟩ := hgroup'.of_capture fun hc => hhead (by rw [hc]; rfl)
      exact ⟨m, ih.closed (Nat.lt_of_succ_lt_succ hlen) hgroup h hbody hclose, hmode⟩
  | named _ hname h =>
    obtain ⟨y, st₁, rest, hbody, hclose, rfl, rfl⟩ := Reads.Group.of_named hname hwalk.of_group
    simp only [List.length_cons, List.length_append] at hlen
    exact ⟨m, ih.closed (by omega) hgroup h hbody hclose, hmode⟩
  | @flagged _ _ m₁ fs s _ hflags h =>
    obtain ⟨hall, -, hfold₁⟩ := FlagText.spec hflags
    obtain ⟨st₁, rest, hbody, hclose, rfl⟩ := Reads.Group.of_flagged _ hall hwalk.of_group
    simp only [List.length_cons, List.length_append] at hlen
    refine ⟨m, ih.closed (by omega) ?_ h hbody hclose, hmode⟩
    refine List.forall_mem_cons.mpr ⟨hfold₁ (hfold m List.mem_cons_self), fun k hk hset => ?_⟩
    exact Bool.or_eq_true_iff.mpr (.inl (hfold k hk hset))
  | close _ _ => exact absurd hwalk.not_outOfPlace (by decide)
  | branch _ _ => exact absurd hwalk.not_outOfPlace (by decide)
  | @flags _ _ m₁ fs s _ hflags hnone h =>
    obtain ⟨hall, -, hfold₁⟩ := FlagText.spec hflags
    cases fs with
    | nil => exact (Reads.Group.flags_ne hwalk.of_group).elim
    | cons b fs =>
      obtain ⟨rfl, rfl⟩ := Reads.Group.of_setter _ hall (List.cons_ne_nil _ _) hwalk.of_group
      exact ⟨m₁, .next hnone h, hfold₁ (hfold m List.mem_cons_self)⟩
  | quote _ hnone h =>
    obtain ⟨-, rfl⟩ := hsim.mark (.inl rfl) hwalk
    exact ⟨_, .next hnone h, hmode⟩
  | unquote _ hnone h =>
    obtain ⟨-, rfl⟩ := hsim.mark (.inr rfl) hwalk
    exact ⟨_, .next hnone h, hmode⟩

theorem HaltsBelow.pieces_step (ih : HaltsBelow A n) (hsim : Simulates A blind nothing perl Unquoted fun _ _ => True)
    {ps : List (α × Bool)} (hlen : s.length < n + 1) (hfold : ∀ k ∈ m :: K, k.fold = true → fold = true)
    (h : Halts A K m false s) (hwalk : Reads.Pieces A K.length ⟨s, fold⟩ ps st) :
    ∃ m', Halts A K m' false st.rest ∧ (m'.fold = true → st.fold = true) := by
  have hmodes : ∀ {x st₁ m'}, Reads.Atom A K.length ⟨s, fold⟩ x st₁ → (m'.fold = true → st₁.fold = true) →
      ∀ k ∈ m' :: K, k.fold = true → st₁.fold = true := fun hatom hm' =>
    List.forall_mem_cons.mpr ⟨hm', fun k hk hset => hatom.sticky (hfold k (List.mem_cons_of_mem m hk) hset)⟩
  cases hwalk with
  | done _ => exact ⟨m, h, hfold m List.mem_cons_self⟩
  | quantified _ hatom hq hpieces =>
    obtain ⟨m', h', hm'⟩ := ih.atom hsim hlen hfold h hatom
    have hshort := quantifierAt_length hq
    have hshort₁ := hatom.shrinks hsim.consumes
    simp only at hshort₁
    exact ih.pieces (by omega) (hmodes hatom hm') (h'.of_quantified hq) hpieces
  | single _ hatom hnone hpieces =>
    obtain ⟨m', h', hm'⟩ := ih.atom hsim hlen hfold h hatom
    have hshort₁ := hatom.shrinks hsim.consumes
    simp only at hshort₁
    exact ih.pieces (by omega) (hmodes hatom hm') (h'.of_single hnone) hpieces

theorem HaltsBelow.alternation_step (ih : HaltsBelow A n) (hsim : Simulates A blind nothing perl Unquoted fun _ _ => True)
    {ps : List (α × Bool)} {xs : List α} {st₁ : ParserState} (hlen : s.length < n + 1)
    (hfold : ∀ k ∈ m :: K, k.fold = true → fold = true) (h : Halts A K m false s)
    (hpieces : Reads.Pieces A K.length ⟨s, fold⟩ ps st₁) (hbranches : Reads.Branches A K.length st₁ xs st) :
    ∃ m', Halts A K m' false st.rest := by
  obtain ⟨m', h', hm'⟩ := ih.pieces_step hsim hlen hfold h hpieces
  have hshort := hpieces.shrinks hsim.consumes
  cases hbranches with
  | done _ => exact ⟨m', h'⟩
  | more hbar hbranch hmore =>
    rw [hbar] at h' hshort
    simp only [List.length_cons] at hshort
    refine ih.alternation (by omega) ?_ h'.of_branch hbranch hmore
    exact List.forall_mem_cons.mpr ⟨hm', fun k hk hset => hpieces.sticky (hfold k (List.mem_cons_of_mem m hk) hset)⟩

end Step

section Whole

variable {A : Actions α} {blind nothing : α → Prop} {perl : Bool → α} {leaf : Regexp.Tree → Prop}
  {R : α → Regexp.Tree → Prop} {pattern : Bytes} {m : Regexp.Mode} {x : α}

theorem haltsBelow (hsim : Simulates A blind nothing perl Unquoted fun _ _ => True) (n : Nat) : HaltsBelow A n := by
  induction n with
  | zero => exact ⟨fun h => absurd h (Nat.not_lt_zero _), fun h => absurd h (Nat.not_lt_zero _)⟩
  | succ n ih => exact ⟨ih.pieces_step hsim, ih.alternation_step hsim⟩

theorem Halts.refused (hsim : Simulates A blind nothing perl leaf R) (hfold : m.fold = false)
    (h : Halts A [] m false pattern) : parsePattern A pattern ≠ .ok x := by
  intro hparse
  obtain ⟨st, hwalk, hend⟩ := reads_of_parsePattern hparse
  cases hwalk with
  | intro hpieces hbranches =>
    have hmodes : ∀ k ∈ [m], k.fold = true → false = true := by
      rw [List.forall_mem_singleton, hfold]
      exact id
    obtain ⟨m', h'⟩ := (haltsBelow hsim.unquoted (pattern.length + 1)).alternation (Nat.lt_succ_self _) hmodes h
      hpieces hbranches
    exact h'.ne_nil hend

/-- What is built from a pattern that is read alike simulates the tree that RE2 builds from it. -/
theorem simulates_of_reads (hsim : Simulates A blind nothing perl leaf R) (hfold : m.fold = false)
    (hquoted : m.quoted = false) {m' : Regexp.Mode} {t : Regexp.Tree}
    (halike : Ordinary leaf t ∨ Halts A [] m false pattern) (hre : Regexp.Alternation m pattern t m' [])
    (hwalk : parsePattern A pattern = .ok x) : R x t := by
  rcases halike with hordinary | hhalts
  · obtain ⟨st, hwalk, -⟩ := reads_of_parsePattern hwalk
    have hplain : m.fold = true → false = true := fun h => by rw [hfold] at h; cases h
    exact ((alignedBelow hsim (pattern.length + 1)).group hsim (Nat.lt_succ_self _) hquoted hplain hordinary hre hwalk).2
  · exact absurd hwalk (hhalts.refused hsim hfold)

end Whole

end LlmGuard
