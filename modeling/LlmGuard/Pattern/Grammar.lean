import LlmGuard.Code.PatternParser

/-!
# The patterns that the parser reads

Big steps of the walk, without its fuel: a text, what is built from its front, and the text that is left.
-/

namespace LlmGuard

variable {α : Type}

def ParserState.at (st : ParserState) (rest : Bytes) : ParserState := { st with rest := rest }

@[simp] theorem ParserState.at_rest (st : ParserState) (rest : Bytes) : (st.at rest).rest = rest := rfl
@[simp] theorem ParserState.at_fold (st : ParserState) (rest : Bytes) : (st.at rest).fold = st.fold := rfl

/-- The bytes that begin a literal. -/
def isPlain (c : Byte) : Bool :=
  c ≠ ch '(' && c ≠ ch '[' && c ≠ ch '\\' && c ≠ ch '^' && c ≠ ch '$' && c ≠ ch '.' && !outOfPlace c

/-- The flags of a group, and the state behind them. -/
def flagState (st : ParserState) (flags rest : Bytes) : ParserState := ⟨rest, st.fold || flags.contains (ch 'i')⟩

namespace Reads

mutual

inductive Alternation (A : Actions α) : Nat → ParserState → α → ParserState → Prop
  | intro {depth : Nat} {st st₁ st₂ : ParserState} {first : List (α × Bool)} {more : List α} :
      Pieces A depth st first st₁ → Branches A depth st₁ more st₂ →
      Alternation A depth st (A.alternation (A.concat first) more) st₂

inductive Branches (A : Actions α) : Nat → ParserState → List α → ParserState → Prop
  | done {depth : Nat} {st : ParserState} : st.rest.head? ≠ some (ch '|') → Branches A depth st [] st
  | more {depth : Nat} {st st₁ st₂ : ParserState} {s : Bytes} {branch : List (α × Bool)} {more : List α} :
      st.rest = ch '|' :: s → Pieces A depth (st.at s) branch st₁ → Branches A depth st₁ more st₂ →
      Branches A depth st (A.concat branch :: more) st₂

inductive Pieces (A : Actions α) : Nat → ParserState → List (α × Bool) → ParserState → Prop
  | done {depth : Nat} {st : ParserState} : endsConcat st.rest = true → Pieces A depth st [] st
  | quantified {depth : Nat} {st st₁ st₂ : ParserState} {x : α} {q : Quantifier} {rest : Bytes} {ps : List (α × Bool)} :
      endsConcat st.rest = false → Atom A depth st x st₁ → quantifierAt st₁.rest = some (q, rest) →
      Pieces A depth (st₁.at rest) ps st₂ → Pieces A depth st ((A.quantified q x, true) :: ps) st₂
  | single {depth : Nat} {st st₁ st₂ : ParserState} {x : α} {ps : List (α × Bool)} :
      endsConcat st.rest = false → Atom A depth st x st₁ → quantifierAt st₁.rest = none →
      Pieces A depth st₁ ps st₂ → Pieces A depth st ((x, peekIsQuantifierStart st₁.rest) :: ps) st₂

inductive Atom (A : Actions α) : Nat → ParserState → α → ParserState → Prop
  | group {depth : Nat} {st st₁ : ParserState} {s : Bytes} {x : α} :
      st.rest = ch '(' :: s → Group A depth (st.at s) x st₁ → Atom A depth st x st₁
  | charClass {depth : Nat} {st : ParserState} {s rest : Bytes} {x : α} :
      st.rest = ch '[' :: s → parseCharClass A st.fold s = .ok (x, rest) → Atom A depth st x (st.at rest)
  | escape {depth : Nat} {st : ParserState} {s rest : Bytes} {x : α} :
      st.rest = ch '\\' :: s → parseEscape A st.fold s = .ok (x, rest) → Atom A depth st x (st.at rest)
  | anchor {depth : Nat} {st : ParserState} {c : Byte} {s : Bytes} :
      st.rest = c :: s → c = ch '^' ∨ c = ch '$' → Atom A depth st A.anchor (st.at s)
  | dot {depth : Nat} {st : ParserState} {s : Bytes} : st.rest = ch '.' :: s → Atom A depth st A.dot (st.at s)
  | literal {depth : Nat} {st : ParserState} {c : Byte} {s : Bytes} :
      st.rest = c :: s → isPlain c = true →
      Atom A depth st (A.literal (consumeRune c s).1 st.fold) (st.at (consumeRune c s).2)

/-- What stands behind `(`. -/
inductive Group (A : Actions α) : Nat → ParserState → α → ParserState → Prop
  | capture {depth : Nat} {st st₁ : ParserState} {c : Byte} {s rest : Bytes} {x : α} :
      depth < kMaxGroupDepth → st.rest = c :: s → c ≠ ch '?' → Alternation A (depth + 1) st x st₁ →
      st₁.rest = ch ')' :: rest → Group A depth st (A.capture x) (st₁.at rest)
  | plain {depth : Nat} {st st₁ : ParserState} {s rest : Bytes} {x : α} :
      depth < kMaxGroupDepth → st.rest = ch '?' :: ch ':' :: s → Alternation A (depth + 1) (st.at s) x st₁ →
      st₁.rest = ch ')' :: rest → Group A depth st x (st₁.at rest)
  | named {depth : Nat} {st st₁ : ParserState} {name s rest : Bytes} {x : α} :
      depth < kMaxGroupDepth → st.rest = ch '?' :: ch 'P' :: ch '<' :: (name ++ ch '>' :: s) → ch '>' ∉ name →
      Alternation A (depth + 1) (st.at s) x st₁ → st₁.rest = ch ')' :: rest →
      Group A depth st (A.capture x) (st₁.at rest)
  | setter {depth : Nat} {st : ParserState} {flags s : Bytes} :
      depth < kMaxGroupDepth → st.rest = ch '?' :: (flags ++ ch ')' :: s) → flags ≠ [] → flags.all isFlagByte →
      Group A depth st A.flagSetter (flagState st flags s)
  | flagged {depth : Nat} {st st₁ : ParserState} {flags s rest : Bytes} {x : α} :
      depth < kMaxGroupDepth → st.rest = ch '?' :: (flags ++ ch ':' :: s) → flags ≠ [] → flags.all isFlagByte →
      Alternation A (depth + 1) (flagState st flags s) x st₁ → st₁.rest = ch ')' :: rest →
      Group A depth st x (st₁.at rest)

end

/-! ## The parser takes these steps -/

theorem expectClose_ok {s rest : Bytes} (h : expectClose s = .ok rest) : s = ch ')' :: rest := by
  unfold expectClose at h
  split at h
  · cases h
  · rename_i c s
    split at h
    · rename_i hc
      rw [hc, Except.ok.inj h]
    · cases h

theorem split_takeWhile {p : Byte → Bool} {s rest : Bytes} {c : Byte} (h : s.dropWhile p = c :: rest) :
    s = s.takeWhile p ++ c :: rest ∧ p c = false := by
  constructor
  · rw [← h, List.takeWhile_append_dropWhile]
  · have := List.head?_dropWhile_not p s
    rw [h] at this
    simpa using this

theorem pieces_step {A : Actions α} {fuel depth : Nat} {st st' : ParserState} {ps : List (α × Bool)}
    (hatom : ∀ {depth st x st'}, parseAtom A fuel depth st = .ok (x, st') → Atom A depth st x st')
    (hpieces : ∀ {depth st ps st'}, parsePieces A fuel depth st = .ok (ps, st') → Pieces A depth st ps st')
    (h : parsePieces A (fuel + 1) depth st = .ok (ps, st')) : Pieces A depth st ps st' := by
  unfold parsePieces at h
  split at h
  · rename_i hend
    obtain ⟨rfl, rfl⟩ := Prod.mk.inj (Except.ok.inj h)
    exact .done hend
  · rename_i hend
    obtain ⟨⟨x, st₁⟩, hx, h⟩ := bind_eq_ok.mp h
    simp only at h
    split at h
    · rename_i q rest hq
      obtain ⟨⟨ps', st₂⟩, hps, h⟩ := bind_eq_ok.mp h
      obtain ⟨rfl, rfl⟩ := Prod.mk.inj (Except.ok.inj h)
      exact .quantified (by simpa using hend) (hatom hx) hq (hpieces hps)
    · rename_i hq
      obtain ⟨⟨ps', st₂⟩, hps, h⟩ := bind_eq_ok.mp h
      obtain ⟨rfl, rfl⟩ := Prod.mk.inj (Except.ok.inj h)
      exact .single (by simpa using hend) (hatom hx) hq (hpieces hps)

theorem branches_step {A : Actions α} {fuel depth : Nat} {st st' : ParserState} {xs : List α}
    (hpieces : ∀ {depth st ps st'}, parsePieces A fuel depth st = .ok (ps, st') → Pieces A depth st ps st')
    (hbranches : ∀ {depth st xs st'}, parseBranches A fuel depth st = .ok (xs, st') → Branches A depth st xs st')
    (h : parseBranches A (fuel + 1) depth st = .ok (xs, st')) : Branches A depth st xs st' := by
  unfold parseBranches at h
  split at h
  · rename_i hrest
    obtain ⟨rfl, rfl⟩ := Prod.mk.inj (Except.ok.inj h)
    exact .done (by rw [hrest]; exact fun hc => by cases hc)
  · rename_i c s hrest
    split at h
    · rename_i hc
      obtain ⟨⟨branch, st₁⟩, hbranch, h⟩ := bind_eq_ok.mp h
      obtain ⟨⟨more, st₂⟩, hmore, h⟩ := bind_eq_ok.mp h
      obtain ⟨rfl, rfl⟩ := Prod.mk.inj (Except.ok.inj h)
      exact .more (by rw [hrest, hc]) (hpieces hbranch) (hbranches hmore)
    · rename_i hc
      obtain ⟨rfl, rfl⟩ := Prod.mk.inj (Except.ok.inj h)
      exact .done (by rw [hrest]; simpa using hc)

theorem atom_step {A : Actions α} {fuel depth : Nat} {st st' : ParserState} {x : α}
    (hgroup : ∀ {depth st x st'}, parseGroup A fuel depth st = .ok (x, st') → Group A depth st x st')
    (h : parseAtom A (fuel + 1) depth st = .ok (x, st')) : Atom A depth st x st' := by
  unfold parseAtom at h
  split at h
  · cases h
  · rename_i c s hrest
    split at h
    · rename_i hc
      exact .group (by rw [hrest, hc]) (hgroup h)
    split at h
    · rename_i hc
      obtain ⟨⟨y, s'⟩, hy, h⟩ := bind_eq_ok.mp h
      obtain ⟨rfl, rfl⟩ := Prod.mk.inj (Except.ok.inj h)
      exact .charClass (by rw [hrest, hc]) hy
    split at h
    · rename_i hc
      obtain ⟨⟨y, s'⟩, hy, h⟩ := bind_eq_ok.mp h
      obtain ⟨rfl, rfl⟩ := Prod.mk.inj (Except.ok.inj h)
      exact .escape (by rw [hrest, hc]) hy
    split at h
    · rename_i hc
      obtain ⟨rfl, rfl⟩ := Prod.mk.inj (Except.ok.inj h)
      exact .anchor hrest (by simpa using hc)
    split at h
    · rename_i hc
      obtain ⟨rfl, rfl⟩ := Prod.mk.inj (Except.ok.inj h)
      exact .dot (by rw [hrest, hc])
    split at h
    · cases h
    · rename_i hopen hclass hescape hanchor hdot hplace
      obtain ⟨rfl, rfl⟩ := Prod.mk.inj (Except.ok.inj h)
      refine .literal hrest ?_
      simp only [Bool.or_eq_true, decide_eq_true_eq, not_or] at hanchor
      simp [isPlain, hopen, hclass, hescape, hanchor, hdot, hplace]

theorem group_step {A : Actions α} {fuel depth : Nat} {st st' : ParserState} {x : α}
    (halternation : ∀ {depth st x st'}, parseAlternation A fuel depth st = .ok (x, st') → Alternation A depth st x st')
    (h : parseGroup A (fuel + 1) depth st = .ok (x, st')) : Group A depth st x st' := by
  unfold parseGroup at h
  split at h
  · cases h
  rename_i hdepth
  have hdepth := Nat.lt_of_not_le hdepth
  split at h
  · cases h
  rename_i c s hrest
  split at h
  · rename_i hc
    obtain ⟨⟨y, st₁⟩, hy, h⟩ := bind_eq_ok.mp h
    obtain ⟨rest, hclose, h⟩ := bind_eq_ok.mp h
    obtain ⟨rfl, rfl⟩ := Prod.mk.inj (Except.ok.inj h)
    exact .capture hdepth hrest hc (halternation hy) (expectClose_ok hclose)
  rename_i hc
  rw [not_not.mp hc] at hrest
  split at h
  · cases h
  rename_i d s'
  split at h
  · rename_i hd
    obtain ⟨⟨y, st₁⟩, hy, h⟩ := bind_eq_ok.mp h
    obtain ⟨rest, hclose, h⟩ := bind_eq_ok.mp h
    obtain ⟨rfl, rfl⟩ := Prod.mk.inj (Except.ok.inj h)
    exact .plain hdepth (by rw [hrest, hd]) (halternation hy) (expectClose_ok hclose)
  split at h
  · rename_i hd
    simp only [Bool.and_eq_true, decide_eq_true_eq] at hd
    obtain ⟨hP, hopen⟩ := hd
    split at h
    · cases h
    rename_i e s'' hname
    obtain ⟨⟨y, st₁⟩, hy, h⟩ := bind_eq_ok.mp h
    obtain ⟨rest, hclose, h⟩ := bind_eq_ok.mp h
    obtain ⟨rfl, rfl⟩ := Prod.mk.inj (Except.ok.inj h)
    obtain ⟨hsplit, he⟩ := split_takeWhile hname
    have he : e = ch '>' := by simpa using he
    have hs' : s' = ch '<' :: s'.drop 1 := by
      cases s' with
      | nil => cases hopen
      | cons b s' => rw [Option.some.inj hopen, List.drop_succ_cons, List.drop_zero]
    have hname : ch '>' ∉ (s'.drop 1).takeWhile (· ≠ ch '>') := by
      intro hmem
      simpa using List.all_eq_true.mp List.all_takeWhile _ hmem
    refine .named hdepth ?_ hname (halternation hy) (expectClose_ok hclose)
    subst he
    rw [hrest, hP, ← hsplit, ← hs']
  simp only at h
  split at h
  · cases h
  rename_i e s'' hflags
  obtain ⟨hsplit, -⟩ := split_takeWhile hflags
  have hall : ((d :: s').takeWhile isFlagByte).all isFlagByte := List.all_takeWhile
  split at h
  · cases h
  rename_i hne
  have hne : (d :: s').takeWhile isFlagByte ≠ [] := fun hnil => hne (by rw [hnil]; rfl)
  split at h
  · rename_i he
    obtain ⟨rfl, rfl⟩ := Prod.mk.inj (Except.ok.inj h)
    exact .setter hdepth (by rw [hrest, ← he, ← hsplit]) hne hall
  split at h
  · rename_i he
    obtain ⟨⟨y, st₁⟩, hy, h⟩ := bind_eq_ok.mp h
    obtain ⟨rest, hclose, h⟩ := bind_eq_ok.mp h
    obtain ⟨rfl, rfl⟩ := Prod.mk.inj (Except.ok.inj h)
    exact .flagged hdepth (by rw [hrest, ← he, ← hsplit]) hne hall (halternation hy) (expectClose_ok hclose)
  · cases h

theorem parser_steps (A : Actions α) (fuel : Nat) :
    (∀ {depth st x st'}, parseAlternation A fuel depth st = .ok (x, st') → Alternation A depth st x st') ∧
      (∀ {depth st xs st'}, parseBranches A fuel depth st = .ok (xs, st') → Branches A depth st xs st') ∧
      (∀ {depth st ps st'}, parsePieces A fuel depth st = .ok (ps, st') → Pieces A depth st ps st') ∧
      (∀ {depth st x st'}, parseAtom A fuel depth st = .ok (x, st') → Atom A depth st x st') ∧
      (∀ {depth st x st'}, parseGroup A fuel depth st = .ok (x, st') → Group A depth st x st') := by
  induction fuel with
  | zero =>
    refine ⟨?_, ?_, ?_, ?_, ?_⟩ <;> intro depth st x st' h
    · unfold parseAlternation at h
      cases h
    · unfold parseBranches at h
      cases h
    · unfold parsePieces at h
      cases h
    · unfold parseAtom at h
      cases h
    · unfold parseGroup at h
      cases h
  | succ fuel ih =>
    obtain ⟨halternation, hbranches, hpieces, hatom, hgroup⟩ := ih
    refine ⟨?_, branches_step hpieces hbranches, pieces_step hatom hpieces, atom_step hgroup, group_step halternation⟩
    intro depth st x st' h
    unfold parseAlternation at h
    obtain ⟨⟨first, st₁⟩, hfirst, h⟩ := bind_eq_ok.mp h
    obtain ⟨⟨more, st₂⟩, hmore, h⟩ := bind_eq_ok.mp h
    obtain ⟨rfl, rfl⟩ := Prod.mk.inj (Except.ok.inj h)
    exact .intro (hpieces hfirst) (hbranches hmore)

/-! ## Ends -/

theorem Pieces.of_end {A : Actions α} {depth : Nat} {st st' : ParserState} {ps : List (α × Bool)}
    (h : Pieces A depth st ps st') (hend : endsConcat st.rest = true) : ps = [] ∧ st' = st := by
  cases h with
  | done _ => exact ⟨rfl, rfl⟩
  | quantified hne _ _ _ => rw [hend] at hne; cases hne
  | single hne _ _ _ => rw [hend] at hne; cases hne

theorem Branches.of_end {A : Actions α} {depth : Nat} {st st' : ParserState} {xs : List α}
    (h : Branches A depth st xs st') (hend : st.rest.head? ≠ some (ch '|')) : xs = [] ∧ st' = st := by
  cases h with
  | done _ => exact ⟨rfl, rfl⟩
  | more hrest _ _ => exact absurd (by rw [hrest, List.head?_cons]) hend

/-! ## The first byte tells the atom -/

section FirstByte

variable {A : Actions α} {depth : Nat} {s : Bytes} {fold : Bool} {x : α} {st : ParserState}

theorem isPlain_spec {c : Byte} : isPlain c = true ↔ c ≠ ch '(' ∧ c ≠ ch '[' ∧ c ≠ ch '\\' ∧ c ≠ ch '^' ∧ c ≠ ch '$' ∧
    c ≠ ch '.' ∧ outOfPlace c = false := by
  unfold isPlain
  simp only [Bool.and_eq_true, decide_eq_true_eq, Bool.not_eq_true', and_assoc]

theorem Atom.byte_cases {c : Byte} (h : Atom A depth ⟨c :: s, fold⟩ x st) :
    (c = ch '(' ∧ Group A depth ⟨s, fold⟩ x st) ∨
      (c = ch '[' ∧ ∃ rest, parseCharClass A fold s = .ok (x, rest) ∧ st = ⟨rest, fold⟩) ∨
      (c = ch '\\' ∧ ∃ rest, parseEscape A fold s = .ok (x, rest) ∧ st = ⟨rest, fold⟩) ∨
      ((c = ch '^' ∨ c = ch '$') ∧ x = A.anchor ∧ st = ⟨s, fold⟩) ∨ (c = ch '.' ∧ x = A.dot ∧ st = ⟨s, fold⟩) ∨
      isPlain c = true ∧ x = A.literal (consumeRune c s).1 fold ∧ st = ⟨(consumeRune c s).2, fold⟩ := by
  cases h with
  | group hrest hgroup =>
    obtain ⟨rfl, rfl⟩ := List.cons.inj hrest
    exact .inl ⟨rfl, hgroup⟩
  | charClass hrest hx =>
    obtain ⟨rfl, rfl⟩ := List.cons.inj hrest
    exact .inr (.inl ⟨rfl, _, hx, rfl⟩)
  | escape hrest hx =>
    obtain ⟨rfl, rfl⟩ := List.cons.inj hrest
    exact .inr (.inr (.inl ⟨rfl, _, hx, rfl⟩))
  | anchor hrest hc =>
    obtain ⟨rfl, rfl⟩ := List.cons.inj hrest
    exact .inr (.inr (.inr (.inl ⟨hc, rfl, rfl⟩)))
  | dot hrest =>
    obtain ⟨rfl, rfl⟩ := List.cons.inj hrest
    exact .inr (.inr (.inr (.inr (.inl ⟨rfl, rfl, rfl⟩))))
  | literal hrest hplain =>
    obtain ⟨rfl, rfl⟩ := List.cons.inj hrest
    exact .inr (.inr (.inr (.inr (.inr ⟨hplain, rfl, rfl⟩))))

theorem Atom.of_group (h : Atom A depth ⟨ch '(' :: s, fold⟩ x st) : Group A depth ⟨s, fold⟩ x st := by
  rcases h.byte_cases with ⟨-, hgroup⟩ | ⟨hc, -⟩ | ⟨hc, -⟩ | ⟨hc, -⟩ | ⟨hc, -⟩ | ⟨hc, -⟩
  · exact hgroup
  all_goals exact absurd hc (by decide)

theorem Atom.of_charClass (h : Atom A depth ⟨ch '[' :: s, fold⟩ x st) :
    ∃ rest, parseCharClass A fold s = .ok (x, rest) ∧ st = ⟨rest, fold⟩ := by
  rcases h.byte_cases with ⟨hc, -⟩ | ⟨-, hx⟩ | ⟨hc, -⟩ | ⟨hc, -⟩ | ⟨hc, -⟩ | ⟨hc, -⟩
  case inr.inl => exact hx
  all_goals exact absurd hc (by decide)

theorem Atom.of_escape (h : Atom A depth ⟨ch '\\' :: s, fold⟩ x st) :
    ∃ rest, parseEscape A fold s = .ok (x, rest) ∧ st = ⟨rest, fold⟩ := by
  rcases h.byte_cases with ⟨hc, -⟩ | ⟨hc, -⟩ | ⟨-, hx⟩ | ⟨hc, -⟩ | ⟨hc, -⟩ | ⟨hc, -⟩
  case inr.inr.inl => exact hx
  all_goals exact absurd hc (by decide)

theorem Atom.of_plain {c : Byte} (hc : isPlain c = true) (h : Atom A depth ⟨c :: s, fold⟩ x st) :
    x = A.literal (consumeRune c s).1 fold ∧ st = ⟨(consumeRune c s).2, fold⟩ := by
  obtain ⟨hopen, hclass, hescape, hcaret, hdollar, hdot, -⟩ := isPlain_spec.mp hc
  rcases h.byte_cases with ⟨hc, -⟩ | ⟨hc, -⟩ | ⟨hc, -⟩ | ⟨hc, -⟩ | ⟨hc, -⟩ | ⟨-, hliteral⟩
  · exact absurd hc hopen
  · exact absurd hc hclass
  · exact absurd hc hescape
  · exact absurd hc (not_or.mpr ⟨hcaret, hdollar⟩)
  · exact absurd hc hdot
  · exact hliteral

theorem Atom.of_anchor {c : Byte} (hc : c = ch '^' ∨ c = ch '$') (h : Atom A depth ⟨c :: s, fold⟩ x st) :
    x = A.anchor ∧ st = ⟨s, fold⟩ := by
  rcases h.byte_cases with ⟨rfl, -⟩ | ⟨rfl, -⟩ | ⟨rfl, -⟩ | ⟨-, hanchor⟩ | ⟨rfl, -⟩ | ⟨hplain, -⟩
  case inr.inr.inr.inl => exact hanchor
  case inr.inr.inr.inr.inr =>
    obtain ⟨-, -, -, hcaret, hdollar, -, -⟩ := isPlain_spec.mp hplain
    exact absurd hc (not_or.mpr ⟨hcaret, hdollar⟩)
  all_goals exact absurd hc (by decide)

theorem Atom.of_dot (h : Atom A depth ⟨ch '.' :: s, fold⟩ x st) : x = A.dot ∧ st = ⟨s, fold⟩ := by
  rcases h.byte_cases with ⟨hc, -⟩ | ⟨hc, -⟩ | ⟨hc, -⟩ | ⟨hc, -⟩ | ⟨-, hdot⟩ | ⟨hc, -⟩
  case inr.inr.inr.inr.inl => exact hdot
  all_goals exact absurd hc (by decide)

theorem Atom.not_outOfPlace {c : Byte} (h : Atom A depth ⟨c :: s, fold⟩ x st) : outOfPlace c = false := by
  rcases h.byte_cases with ⟨rfl, -⟩ | ⟨rfl, -⟩ | ⟨rfl, -⟩ | ⟨rfl | rfl, -⟩ | ⟨rfl, -⟩ | ⟨hplain, -⟩
  case inr.inr.inr.inr.inr => exact (isPlain_spec.mp hplain).2.2.2.2.2.2
  all_goals rfl

theorem Pieces.head {ps : List (α × Bool)} (h : Pieces A depth ⟨s, fold⟩ ps st) : peekIsQuantifierStart s = false := by
  cases s with
  | nil => rfl
  | cons c s =>
    have hplace : outOfPlace c = false → peekIsQuantifierStart (c :: s) = false := by
      unfold outOfPlace peekIsQuantifierStart
      simp only [Bool.or_eq_false_iff]
      rintro ⟨⟨⟨⟨⟨⟨⟨-, -⟩, hstar⟩, hplus⟩, hquest⟩, hopen⟩, -⟩, -⟩
      exact ⟨⟨⟨hstar, hplus⟩, hquest⟩, hopen⟩
    cases h with
    | done hend =>
      unfold endsConcat at hend
      simp only [Bool.or_eq_true, decide_eq_true_eq] at hend
      rcases hend with rfl | rfl <;> rfl
    | quantified _ hatom _ _ => exact hplace hatom.not_outOfPlace
    | single _ hatom _ _ => exact hplace hatom.not_outOfPlace

theorem Group.of_capture {c : Byte} (hc : c ≠ ch '?') (h : Group A depth ⟨c :: s, fold⟩ x st) :
    ∃ y st₁ rest, Alternation A (depth + 1) ⟨c :: s, fold⟩ y st₁ ∧ st₁.rest = ch ')' :: rest ∧ x = A.capture y ∧
      st = st₁.at rest := by
  cases h with
  | capture _ _ _ hbody hclose => exact ⟨_, _, _, hbody, hclose, rfl, rfl⟩
  | plain _ hrest _ _ => exact absurd (List.cons.inj hrest).1 hc
  | named _ hrest _ _ _ => exact absurd (List.cons.inj hrest).1 hc
  | setter _ hrest _ _ => exact absurd (List.cons.inj hrest).1 hc
  | flagged _ hrest _ _ _ _ => exact absurd (List.cons.inj hrest).1 hc

theorem flags_unique {flags flags' s s' : Bytes} {c c' : Byte} (hflags : flags.all isFlagByte)
    (hflags' : flags'.all isFlagByte) (hc : isFlagByte c = false) (hc' : isFlagByte c' = false)
    (h : flags ++ c :: s = flags' ++ c' :: s') : flags = flags' ∧ c = c' ∧ s = s' := by
  induction flags generalizing flags' with
  | nil =>
    cases flags' with
    | nil =>
      obtain ⟨rfl, rfl⟩ := List.cons.inj h
      exact ⟨rfl, rfl, rfl⟩
    | cons b flags' =>
      obtain ⟨rfl, -⟩ := List.cons.inj h
      rw [List.all_cons, hc] at hflags'
      cases hflags'
  | cons b flags ih =>
    cases flags' with
    | nil =>
      obtain ⟨rfl, -⟩ := List.cons.inj h
      rw [List.all_cons, hc'] at hflags
      cases hflags
    | cons b' flags' =>
      obtain ⟨rfl, htail⟩ := List.cons.inj h
      rw [List.all_cons, Bool.and_eq_true] at hflags hflags'
      obtain ⟨rfl, rfl, rfl⟩ := ih hflags.2 hflags'.2 htail
      exact ⟨rfl, rfl, rfl⟩

theorem Group.of_setter (flags : Bytes) (hflags : flags.all isFlagByte) (hne : flags ≠ [])
    (h : Group A depth ⟨ch '?' :: (flags ++ ch ')' :: s), fold⟩ x st) :
    x = A.flagSetter ∧ st = ⟨s, fold || flags.contains (ch 'i')⟩ := by
  obtain ⟨b, flags', rfl⟩ := List.exists_cons_of_ne_nil hne
  have hb : isFlagByte b = true := by
    rw [List.all_cons, Bool.and_eq_true] at hflags
    exact hflags.1
  cases h with
  | capture _ hrest hc _ _ => exact absurd (List.cons.inj hrest).1.symm hc
  | plain _ hrest _ _ =>
    obtain ⟨rfl, -⟩ := List.cons.inj (List.cons.inj hrest).2
    exact absurd hb (by decide)
  | named _ hrest _ _ _ =>
    obtain ⟨rfl, -⟩ := List.cons.inj (List.cons.inj hrest).2
    exact absurd hb (by decide)
  | setter _ hrest _ hflags' =>
    obtain ⟨rfl, -, rfl⟩ := flags_unique hflags hflags' (by decide) (by decide) (List.cons.inj hrest).2
    exact ⟨rfl, rfl⟩
  | flagged _ hrest _ hflags' _ _ =>
    obtain ⟨-, hc, -⟩ := flags_unique hflags hflags' (by decide) (by decide) (List.cons.inj hrest).2
    exact absurd hc (by decide)

theorem Group.flags_ne (h : Group A depth ⟨ch '?' :: ch ')' :: s, fold⟩ x st) : False := by
  have hnone : ([] : Bytes).all isFlagByte := rfl
  cases h with
  | capture _ hrest hc _ _ => exact hc (List.cons.inj hrest).1.symm
  | plain _ hrest _ _ => exact absurd (List.cons.inj (List.cons.inj hrest).2).1 (by decide)
  | named _ hrest _ _ _ => exact absurd (List.cons.inj (List.cons.inj hrest).2).1 (by decide)
  | setter _ hrest hne hflags' =>
    exact hne (flags_unique hnone hflags' (by decide) (by decide) (List.cons.inj hrest).2).1.symm
  | flagged _ hrest hne hflags' _ _ =>
    exact hne (flags_unique hnone hflags' (by decide) (by decide) (List.cons.inj hrest).2).1.symm

theorem Group.of_flagged (flags : Bytes) (hflags : flags.all isFlagByte)
    (h : Group A depth ⟨ch '?' :: (flags ++ ch ':' :: s), fold⟩ x st) :
    ∃ st₁ rest, Alternation A (depth + 1) ⟨s, fold || flags.contains (ch 'i')⟩ x st₁ ∧ st₁.rest = ch ')' :: rest ∧
      st = st₁.at rest := by
  cases h with
  | capture _ hrest hc _ _ => exact absurd (List.cons.inj hrest).1.symm hc
  | plain _ hrest hbody hclose =>
    have hnone : ([] : Bytes).all isFlagByte := rfl
    obtain ⟨rfl, -, rfl⟩ := flags_unique hflags hnone (by decide) (by decide) (List.cons.inj hrest).2
    refine ⟨_, _, ?_, hclose, rfl⟩
    rwa [List.contains_nil, Bool.or_false]
  | named _ hrest _ _ _ =>
    have hP := (List.cons.inj hrest).2
    cases flags with
    | nil => exact absurd (List.cons.inj hP).1 (by decide)
    | cons b flags =>
      obtain ⟨rfl, -⟩ := List.cons.inj hP
      exact absurd hflags (by simp [isFlagByte, show ¬ ch 'P' = ch 'i' by decide, show ¬ ch 'P' = ch 's' by decide,
        show ¬ ch 'P' = ch 'm' by decide, show ¬ ch 'P' = ch 'U' by decide, show ¬ ch 'P' = ch '-' by decide])
  | setter _ hrest _ hflags' =>
    obtain ⟨-, hc, -⟩ := flags_unique hflags hflags' (by decide) (by decide) (List.cons.inj hrest).2
    exact absurd hc (by decide)
  | flagged _ hrest _ hflags' hbody hclose =>
    obtain ⟨rfl, -, rfl⟩ := flags_unique hflags hflags' (by decide) (by decide) (List.cons.inj hrest).2
    exact ⟨_, _, hbody, hclose, rfl⟩

theorem name_unique {name name' s s' : Bytes} (hname : ch '>' ∉ name) (hname' : ch '>' ∉ name')
    (h : name ++ ch '>' :: s = name' ++ ch '>' :: s') : name = name' ∧ s = s' := by
  have hfront : ∀ {name s : Bytes}, ch '>' ∉ name → (name ++ ch '>' :: s).takeWhile (· ≠ ch '>') = name := by
    intro name s hname
    rw [List.takeWhile_append_of_pos, List.takeWhile_cons_of_neg (by simp), List.append_nil]
    exact fun b hb => decide_eq_true fun hc => hname (hc ▸ hb)
  have heq := congrArg (List.takeWhile (· ≠ ch '>')) h
  rw [hfront hname, hfront hname'] at heq
  subst heq
  exact ⟨rfl, (List.cons.inj (List.append_cancel_left h)).2⟩

theorem flags_front {b : Byte} (hb : isFlagByte b = false) (s : Bytes) {flags t : Bytes} {c : Byte} (hne : flags ≠ [])
    (hflags : flags.all isFlagByte) : b :: s ≠ flags ++ c :: t := by
  intro heq
  obtain ⟨d, flags, rfl⟩ := List.exists_cons_of_ne_nil hne
  rw [List.cons_append] at heq
  rw [List.all_cons, ← (List.cons.inj heq).1, hb] at hflags
  cases hflags

theorem Group.of_named {name : Bytes} (hname : ch '>' ∉ name)
    (h : Group A depth ⟨ch '?' :: ch 'P' :: ch '<' :: (name ++ ch '>' :: s), fold⟩ x st) :
    ∃ y st₁ rest, Alternation A (depth + 1) ⟨s, fold⟩ y st₁ ∧ st₁.rest = ch ')' :: rest ∧ x = A.capture y ∧
      st = st₁.at rest := by
  cases h with
  | capture _ hrest hc _ _ => exact absurd (List.cons.inj hrest).1.symm hc
  | plain _ hrest _ _ => exact absurd (List.cons.inj (List.cons.inj hrest).2).1 (by decide)
  | named _ hrest hname' hbody hclose =>
    obtain ⟨-, rfl⟩ := name_unique hname hname' (List.cons.inj (List.cons.inj (List.cons.inj hrest).2).2).2
    exact ⟨_, _, _, hbody, hclose, rfl, rfl⟩
  | setter _ hrest hne hflags => exact absurd (List.cons.inj hrest).2 (flags_front (by decide) _ hne hflags)
  | flagged _ hrest hne hflags _ _ => exact absurd (List.cons.inj hrest).2 (flags_front (by decide) _ hne hflags)

theorem Group.not_angle (h : Group A depth ⟨ch '?' :: ch '<' :: s, fold⟩ x st) : False := by
  cases h with
  | capture _ hrest hc _ _ => exact hc (List.cons.inj hrest).1.symm
  | plain _ hrest _ _ => exact absurd (List.cons.inj (List.cons.inj hrest).2).1 (by decide)
  | named _ hrest _ _ _ => exact absurd (List.cons.inj (List.cons.inj hrest).2).1 (by decide)
  | setter _ hrest hne hflags => exact absurd (List.cons.inj hrest).2 (flags_front (by decide) _ hne hflags)
  | flagged _ hrest hne hflags _ _ => exact absurd (List.cons.inj hrest).2 (flags_front (by decide) _ hne hflags)

end FirstByte

/-! ## Folding is sticky -/

mutual

theorem Alternation.sticky {A : Actions α} {depth : Nat} {st st' : ParserState} {x : α} :
    Alternation A depth st x st' → st.fold = true → st'.fold = true
  | .intro hpieces hbranches, h => Branches.sticky hbranches (Pieces.sticky hpieces h)

theorem Branches.sticky {A : Actions α} {depth : Nat} {st st' : ParserState} {xs : List α} :
    Branches A depth st xs st' → st.fold = true → st'.fold = true
  | .done _, h => h
  | .more _ hbranch hmore, h => Branches.sticky hmore (Pieces.sticky hbranch h)

theorem Pieces.sticky {A : Actions α} {depth : Nat} {st st' : ParserState} {ps : List (α × Bool)} :
    Pieces A depth st ps st' → st.fold = true → st'.fold = true
  | .done _, h => h
  | .quantified _ hatom _ hpieces, h => by
    have h := Atom.sticky hatom h
    exact Pieces.sticky hpieces h
  | .single _ hatom _ hpieces, h => Pieces.sticky hpieces (Atom.sticky hatom h)

theorem Atom.sticky {A : Actions α} {depth : Nat} {st st' : ParserState} {x : α} :
    Atom A depth st x st' → st.fold = true → st'.fold = true
  | .group _ hgroup, h => Group.sticky hgroup h
  | .charClass _ _, h => h
  | .escape _ _, h => h
  | .anchor _ _, h => h
  | .dot _, h => h
  | .literal _ _, h => h

theorem Group.sticky {A : Actions α} {depth : Nat} {st st' : ParserState} {x : α} :
    Group A depth st x st' → st.fold = true → st'.fold = true
  | .capture _ _ _ hbody _, h => by
    have hbody := Alternation.sticky hbody h
    exact hbody
  | .plain _ _ hbody _, h => by
    have hbody := Alternation.sticky hbody h
    exact hbody
  | .named _ _ _ hbody _, h => by
    have hbody := Alternation.sticky hbody h
    exact hbody
  | .setter _ _ _ _, h => by rw [flagState, h, Bool.true_or]
  | .flagged _ _ _ _ hbody _, h => by
    have hbody := Alternation.sticky hbody
    rw [flagState, h, Bool.true_or] at hbody
    exact hbody rfl

end

end Reads

/-- What is built from a pattern is read from the whole of it. -/
theorem reads_of_parsePattern {A : Actions α} {pattern : Bytes} {x : α} (h : parsePattern A pattern = .ok x) :
    ∃ st, Reads.Alternation A 0 ⟨pattern, false⟩ x st ∧ st.rest = [] := by
  unfold parsePattern at h
  obtain ⟨⟨y, st⟩, hy, h⟩ := bind_eq_ok.mp h
  simp only at h
  split at h
  · rename_i hrest
    obtain rfl := Except.ok.inj h
    exact ⟨st, (Reads.parser_steps A _).1 hy, List.isEmpty_iff.mp hrest⟩
  · cases h

end LlmGuard
