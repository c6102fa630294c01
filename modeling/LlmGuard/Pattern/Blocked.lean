import LlmGuard.Pattern.Bracket

/-!
# Behind a POSIX class

`parse_char_class` ends a bracket expression at the bracket of a POSIX class. No construct of the walk begins with
the bracket that RE2 ends it at, so the walk does not get past it, unless a bracket or a name opens before.
-/

namespace LlmGuard

open Utf8

/-- A closing bracket comes before every bracket that opens, other POSIX classes aside, and before every name. -/
inductive Blocked : Bytes → Prop
  | close {s : Bytes} : Blocked (ch ']' :: s)
  | char {c : Char} {s : Bytes} : c ≠ '[' → c ≠ '\\' → (c = '(' → ¬ ascii "?P<" <+: s) → Blocked s →
      Blocked (encode c ++ s)
  | escape {s s' : Bytes} {k : Token} : TokenText (ch '\\' :: s) k s' → Blocked s' → Blocked (ch '\\' :: s)
  | posix {p : Regexp.Posix} {s : Bytes} : Blocked s →
      Blocked (ch '[' :: ch ':' :: (p.name ++ ch ':' :: ch ']' :: s))
  | notPosix {p : Regexp.Posix} {s : Bytes} : Blocked s →
      Blocked (ch '[' :: ch ':' :: ch '^' :: (p.name ++ ch ':' :: ch ']' :: s))

theorem Blocked.ne_nil {s : Bytes} (h : Blocked s) : s ≠ [] := by
  cases h with
  | char => exact fun hnil => encode_ne_nil _ (List.append_eq_nil_iff.mp hnil).1
  | _ => exact List.cons_ne_nil _ _

theorem Blocked.tail {b : Byte} {s : Bytes} (hb : b < 0x80) (hplain : b ≠ ch '[' ∧ b ≠ ch ']' ∧ b ≠ ch '\\')
    (h : Blocked (b :: s)) : Blocked s ∧ (b = ch '(' → ¬ ascii "?P<" <+: s) := by
  obtain ⟨hopen, hclose, hescape⟩ := hplain
  generalize htext : b :: s = text at h
  cases h with
  | close => exact absurd (List.cons.inj htext).1 hclose
  | @char c _ _ _ hname hs =>
    obtain ⟨he, rfl⟩ := encode_ascii_front htext.symm hb
    refine ⟨hs, ?_⟩
    rintro rfl
    exact hname (encode_injective (d := '(') he)
  | escape => exact absurd (List.cons.inj htext).1 hescape
  | posix => exact absurd (List.cons.inj htext).1 hopen
  | notPosix => exact absurd (List.cons.inj htext).1 hopen

theorem Blocked.behind {w s : Bytes} (hw : ∀ b ∈ w, b < 0x80 ∧ b ≠ ch '[' ∧ b ≠ ch ']' ∧ b ≠ ch '\\')
    (h : Blocked (w ++ s)) : Blocked s := by
  induction w with
  | nil => exact h
  | cons b w ih =>
    obtain ⟨⟨hb, hplain⟩, hw⟩ := List.forall_mem_cons.mp hw
    exact ih hw (Blocked.tail hb hplain h).1

/-! ## Quantifiers -/

theorem braceQuantifier_shape {s rest : Bytes} {q : Quantifier} (h : braceQuantifier s = some (q, rest)) :
    ∃ w r, s = w ++ ch '\x7d' :: r ∧ (∀ b ∈ w, isDigit b = true ∨ b = ch ',') ∧ rest = skipLazyMarker r := by
  have hdigits : ∀ {s : Bytes}, ∀ b ∈ s.takeWhile isDigit, isDigit b = true ∨ b = ch ',' :=
    fun b hb => .inl (List.all_eq_true.mp List.all_takeWhile b hb)
  have hsplit : s.takeWhile isDigit ++ s.dropWhile isDigit = s := List.takeWhile_append_dropWhile
  unfold braceQuantifier at h
  simp only at h
  generalize hbehind : s.dropWhile isDigit = behind at h hsplit
  cases behind with
  | nil => cases h
  | cons c t =>
    by_cases hc : c = ch ','
    · simp only [if_pos hc] at h
      have hsplit' : t.takeWhile isDigit ++ t.dropWhile isDigit = t := List.takeWhile_append_dropWhile
      generalize hbehind' : t.dropWhile isDigit = behind' at h hsplit'
      cases behind' with
      | nil => cases h
      | cons d r =>
        simp only at h
        split at h
        · cases h
        · rename_i hd
          simp only [Bool.or_eq_true, decide_eq_true_eq, not_or, not_not] at hd
          obtain ⟨-, rfl⟩ := Prod.mk.inj (Option.some.inj h)
          refine ⟨s.takeWhile isDigit ++ ch ',' :: t.takeWhile isDigit, r, ?_, ?_, rfl⟩
          · rw [hc, ← hsplit', hd.2] at hsplit
            exact hsplit.symm.trans (by rw [List.append_assoc, List.cons_append])
          · intro b hb
            rcases List.mem_append.mp hb with hb | hb
            · exact hdigits b hb
            · exact (List.mem_cons.mp hb).elim .inr (hdigits b)
    · simp only [if_neg hc] at h
      split at h
      · cases h
      · rename_i hd
        simp only [Bool.or_eq_true, decide_eq_true_eq, not_or, not_not] at hd
        obtain ⟨-, rfl⟩ := Prod.mk.inj (Option.some.inj h)
        rw [hd.2] at hsplit
        exact ⟨s.takeWhile isDigit, t, hsplit.symm, hdigits, rfl⟩

set_option maxRecDepth 8192 in
/-- The bytes of a count begin no other construct. -/
theorem count_plain {b : Byte} : isDigit b = true ∨ b = ch ',' → (b < 0x80 ∧ b ≠ ch '[' ∧ b ≠ ch ']' ∧ b ≠ ch '\\') ∧
    Regexp.metaByte b = false ∧ peekIsQuantifierStart [b] = false := by
  revert b
  decide

theorem Blocked.skipLazyMarker {s : Bytes} (h : Blocked s) : Blocked (skipLazyMarker s) := by
  unfold LlmGuard.skipLazyMarker
  split
  · exact h
  · split
    · rename_i c s hc
      subst hc
      exact (Blocked.tail (by decide) (by decide) h).1
    · exact h

theorem Blocked.quantifierAt {s rest : Bytes} {q : Quantifier} (hq : quantifierAt s = some (q, rest)) (h : Blocked s) :
    Blocked rest := by
  cases s with
  | nil => cases hq
  | cons c s =>
    have hlazy : ∀ {q' : Quantifier}, c < 0x80 ∧ c ≠ ch '[' ∧ c ≠ ch ']' ∧ c ≠ ch '\\' →
        some (q', LlmGuard.skipLazyMarker s) = some (q, rest) → Blocked rest := by
      intro q' hc hq
      obtain ⟨-, rfl⟩ := Prod.mk.inj (Option.some.inj hq)
      exact (Blocked.tail hc.1 hc.2 h).1.skipLazyMarker
    simp only [LlmGuard.quantifierAt] at hq
    split at hq
    · rename_i hc
      subst hc
      exact hlazy (by decide) hq
    split at hq
    · rename_i hc
      subst hc
      exact hlazy (by decide) hq
    split at hq
    · rename_i hc
      subst hc
      exact hlazy (by decide) hq
    split at hq
    · rename_i hc
      subst hc
      obtain ⟨w, r, rfl, hw, rfl⟩ := braceQuantifier_shape hq
      have hclose := (Blocked.tail (by decide) (by decide) h).1.behind fun b hb => (count_plain (hw b hb)).1
      exact (Blocked.tail (by decide) (by decide) hclose).1.skipLazyMarker
    · cases hq

/-! ## The walk -/

section Walk

variable {α : Type} {A : Actions α} {blind : α → Prop} {perl : Bool → α}

theorem Blocked.parseCharClass (hA : Escapes A blind perl) {fold : Bool} {s rest : Bytes} {x : α}
    (h : Blocked (ch '[' :: s)) (hparse : parseCharClass A fold s = .ok (x, rest)) : Blocked rest := by
  have hloop : ∀ {s t fuel ks}, TokensText s ks t → Blocked t →
      (classLoop A fold fuel s >>= fun p => if p.1.isEmpty then Except.error ParseFailure.refused
        else Except.ok (A.charClass false p.1, p.2)) = .ok (x, rest) → Blocked rest := by
    intro s t fuel ks hks ht h
    obtain ⟨⟨ms, s₁⟩, hms, h⟩ := bind_eq_ok.mp h
    obtain ⟨rfl, -⟩ := classLoop_tokens hA hks hms
    simp only at h
    split at h
    · cases h
    · obtain ⟨-, rfl⟩ := Prod.mk.inj (Except.ok.inj h)
      exact ht
  generalize htext : ch '[' :: s = text at h
  cases h with
  | close => exact absurd (List.cons.inj htext).1 (by decide)
  | char hopen _ _ _ =>
    obtain ⟨he, -⟩ := encode_ascii_front htext.symm (by decide)
    exact absurd (encode_injective (d := '[') he) hopen
  | escape => exact absurd (List.cons.inj htext).1 (by decide)
  | @posix p t ht =>
    obtain ⟨-, rfl⟩ := List.cons.inj htext
    obtain ⟨⟨ks, hks⟩, -⟩ := Posix.tokens p t
    exact hloop hks ht hparse
  | @notPosix p t ht =>
    obtain ⟨-, rfl⟩ := List.cons.inj htext
    obtain ⟨-, ks, hks⟩ := Posix.tokens p t
    exact hloop hks ht hparse

theorem Blocked.parseEscape (hA : Escapes A blind perl) {fold : Bool} {s rest : Bytes} {x : α}
    (h : Blocked (ch '\\' :: s)) (hparse : parseEscape A fold s = .ok (x, rest)) : Blocked rest := by
  have hmember : classMember A fold (ch '\\') s = .ok (x, rest) := hparse
  generalize htext : ch '\\' :: s = text at h
  cases h with
  | close => exact absurd (List.cons.inj htext).1 (by decide)
  | char _ hescape _ _ =>
    obtain ⟨he, -⟩ := encode_ascii_front htext.symm (by decide)
    exact absurd (encode_injective (d := '\\') he) hescape
  | escape htoken hs =>
    obtain ⟨-, rfl⟩ := List.cons.inj htext
    obtain ⟨rfl, -⟩ := classMember_token hA htoken hmember
    exact hs
  | posix => exact absurd (List.cons.inj htext).1 (by decide)
  | notPosix => exact absurd (List.cons.inj htext).1 (by decide)

theorem Blocked.consumeRune {c : Byte} {s : Bytes} (hc : isPlain c = true) (h : Blocked (c :: s)) :
    Blocked (consumeRune c s).2 := by
  generalize htext : c :: s = text at h
  cases h with
  | close =>
    rw [(List.cons.inj htext).1] at hc
    cases hc
  | char _ _ _ hs => rwa [consumeRune_encode htext.symm]
  | escape =>
    rw [(List.cons.inj htext).1] at hc
    cases hc
  | posix =>
    rw [(List.cons.inj htext).1] at hc
    cases hc
  | notPosix =>
    rw [(List.cons.inj htext).1] at hc
    cases hc

set_option maxRecDepth 8192 in
theorem flag_plain {b : Byte} : isFlagByte b = true → b < 0x80 ∧ b ≠ ch '[' ∧ b ≠ ch ']' ∧ b ≠ ch '\\' := by
  revert b
  decide

theorem Blocked.flags {flags s : Bytes} (hflags : flags.all isFlagByte) (h : Blocked (flags ++ s)) : Blocked s :=
  h.behind fun b hb => flag_plain (List.all_eq_true.mp hflags b hb)

theorem Blocked.close_group {st : ParserState} {rest : Bytes} (h : Blocked st.rest) (hclose : st.rest = ch ')' :: rest) :
    Blocked rest := by
  rw [hclose] at h
  exact (Blocked.tail (by decide) (by decide) h).1

mutual

theorem Blocked.alternation (hA : Escapes A blind perl) {depth : Nat} {st st' : ParserState} {x : α} :
    Reads.Alternation A depth st x st' → Blocked st.rest → Blocked st'.rest
  | .intro hpieces hbranches, h => Blocked.branches hA hbranches (Blocked.pieces hA hpieces h)

theorem Blocked.branches (hA : Escapes A blind perl) {depth : Nat} {st st' : ParserState} {xs : List α} :
    Reads.Branches A depth st xs st' → Blocked st.rest → Blocked st'.rest
  | .done _, h => h
  | .more hbar hbranch hmore, h => by
    rw [hbar] at h
    exact Blocked.branches hA hmore (Blocked.pieces hA hbranch (Blocked.tail (by decide) (by decide) h).1)

theorem Blocked.pieces (hA : Escapes A blind perl) {depth : Nat} {st st' : ParserState} {ps : List (α × Bool)} :
    Reads.Pieces A depth st ps st' → Blocked st.rest → Blocked st'.rest
  | .done _, h => h
  | .quantified _ hatom hq hpieces, h =>
    Blocked.pieces hA hpieces (Blocked.quantifierAt hq (Blocked.atom hA hatom h))
  | .single _ hatom _ hpieces, h => Blocked.pieces hA hpieces (Blocked.atom hA hatom h)

theorem Blocked.atom (hA : Escapes A blind perl) {depth : Nat} {st st' : ParserState} {x : α} :
    Reads.Atom A depth st x st' → Blocked st.rest → Blocked st'.rest
  | .group hrest hgroup, h => by
    rw [hrest] at h
    obtain ⟨hs, hname⟩ := Blocked.tail (by decide) (by decide) h
    exact Blocked.group hA hgroup hs (hname rfl)
  | .charClass hrest hparse, h => by
    rw [hrest] at h
    exact h.parseCharClass hA hparse
  | .escape hrest hparse, h => by
    rw [hrest] at h
    exact h.parseEscape hA hparse
  | .anchor hrest hc, h => by
    rw [hrest] at h
    rcases hc with rfl | rfl <;> exact (Blocked.tail (by decide) (by decide) h).1
  | .dot hrest, h => by
    rw [hrest] at h
    exact (Blocked.tail (by decide) (by decide) h).1
  | .literal hrest hc, h => by
    rw [hrest] at h
    exact h.consumeRune hc

theorem Blocked.group (hA : Escapes A blind perl) {depth : Nat} {st st' : ParserState} {x : α} :
    Reads.Group A depth st x st' → Blocked st.rest → ¬ ascii "?P<" <+: st.rest → Blocked st'.rest
  | .capture _ _ _ hbody hclose, h, _ => (Blocked.alternation hA hbody h).close_group hclose
  | .plain _ hrest hbody hclose, h, _ => by
    rw [hrest] at h
    have hmark := (Blocked.tail (by decide) (by decide) h).1
    exact (Blocked.alternation hA hbody (Blocked.tail (by decide) (by decide) hmark).1).close_group hclose
  | .named _ hrest _ _ _, _, hname => (hname (by rw [hrest]; exact ⟨_, rfl⟩)).elim
  | .setter _ hrest _ hflags, h, _ => by
    rw [hrest] at h
    have hflag := (Blocked.tail (by decide) (by decide) h).1.flags hflags
    exact (Blocked.tail (by decide) (by decide) hflag).1
  | .flagged _ hrest _ hflags hbody hclose, h, _ => by
    rw [hrest] at h
    have hflag := (Blocked.tail (by decide) (by decide) h).1.flags hflags
    exact (Blocked.alternation hA hbody (Blocked.tail (by decide) (by decide) hflag).1).close_group hclose

end

end Walk

end LlmGuard
