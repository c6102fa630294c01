import LlmGuard.Code.PlaceholderRegex
import LlmGuard.Code.Prefilter
import LlmGuard.Pattern.Grammar

/-!
# The walk ends

No round of the pattern parser gives text back, and only four calls in a row leave the text as it is. So the fuel
of `parsePattern` is enough.
-/

namespace LlmGuard

variable {α : Type} {A : Actions α}

/-- What the actions on an escape leave to the walk. -/
structure Actions.Consumes (A : Actions α) : Prop where
  rest_le : ∀ {fold c s x rest}, A.escape fold c s = .ok (x, rest) → rest.length ≤ s.length
  unstuck : ∀ fold c s, A.escape fold c s ≠ .error .stuck

theorem bind_unstuck {β γ : Type} {x : Except ParseFailure β} {f : β → Except ParseFailure γ}
    (hx : x ≠ .error .stuck) (hf : ∀ b, x = .ok b → f b ≠ .error .stuck) : (x >>= f) ≠ .error .stuck := by
  cases x with
  | error e => exact fun h => hx (congrArg Except.error (Except.error.inj h))
  | ok b => exact hf b rfl

theorem consumeRune_length (c : Byte) (s : Bytes) : (consumeRune c s).2.length ≤ s.length := by
  unfold consumeRune
  rw [List.length_drop]
  omega

theorem skipLazyMarker_length (s : Bytes) : (skipLazyMarker s).length ≤ s.length := by
  unfold skipLazyMarker
  split
  · exact Nat.le_refl _
  · split
    · exact Nat.le_succ _
    · exact Nat.le_refl _

theorem dropWhile_length (p : Byte → Bool) (s : Bytes) : (s.dropWhile p).length ≤ s.length :=
  (List.dropWhile_suffix p).length_le

theorem braceQuantifier_length {s rest : Bytes} {q : Quantifier} (h : braceQuantifier s = some (q, rest)) :
    rest.length < s.length := by
  unfold braceQuantifier at h
  simp only at h
  split at h
  · cases h
  · rename_i c t ht
    have hmin := dropWhile_length isDigit s
    have hle : (c :: t).length ≤ s.length := by
      rw [← ht]
      split
      · exact Nat.zero_le _
      · rename_i b s' hs
        rw [hs, List.length_cons] at hmin
        split
        · exact (dropWhile_length isDigit s').trans (Nat.le_of_succ_le hmin)
        · exact hmin
    split at h
    · cases h
    · obtain ⟨-, rfl⟩ := Prod.mk.inj (Option.some.inj h)
      exact Nat.lt_of_le_of_lt (skipLazyMarker_length t) hle

theorem quantifierAt_length {s rest : Bytes} {q : Quantifier} (h : quantifierAt s = some (q, rest)) :
    rest.length < s.length := by
  unfold quantifierAt at h
  cases s with
  | nil => cases h
  | cons c s =>
    have hmarker := skipLazyMarker_length s
    rw [List.length_cons]
    simp only at h
    split at h
    · obtain ⟨-, rfl⟩ := Prod.mk.inj (Option.some.inj h)
      omega
    split at h
    · obtain ⟨-, rfl⟩ := Prod.mk.inj (Option.some.inj h)
      omega
    split at h
    · obtain ⟨-, rfl⟩ := Prod.mk.inj (Option.some.inj h)
      omega
    split at h
    · exact Nat.lt_succ_of_lt (braceQuantifier_length h)
    · cases h

/-! ## Classes -/

theorem parseEscape_length (hA : A.Consumes) {fold : Bool} {s rest : Bytes} {x : α}
    (h : parseEscape A fold s = .ok (x, rest)) : rest.length < s.length := by
  unfold parseEscape at h
  split at h
  · cases h
  · exact Nat.lt_succ_of_le (hA.rest_le h)

theorem parseEscape_unstuck (hA : A.Consumes) (fold : Bool) (s : Bytes) : parseEscape A fold s ≠ .error .stuck := by
  unfold parseEscape
  split
  · exact fun h => by cases h
  · exact hA.unstuck _ _ _

theorem classMember_length (hA : A.Consumes) {fold : Bool} {c : Byte} {s rest : Bytes} {x : α}
    (h : classMember A fold c s = .ok (x, rest)) : rest.length ≤ s.length := by
  unfold classMember at h
  split at h
  · exact Nat.le_of_lt (parseEscape_length hA h)
  · obtain ⟨-, rfl⟩ := Prod.mk.inj (Except.ok.inj h)
    exact consumeRune_length c s

theorem classMember_unstuck (hA : A.Consumes) (fold : Bool) (c : Byte) (s : Bytes) :
    classMember A fold c s ≠ .error .stuck := by
  unfold classMember
  split
  · exact parseEscape_unstuck hA fold s
  · exact fun h => by cases h

theorem classLoop_length (hA : A.Consumes) {fold : Bool} {fuel : Nat} {s rest : Bytes} {xs : List α}
    (h : classLoop A fold fuel s = .ok (xs, rest)) : rest.length < s.length := by
  induction fuel generalizing s xs with
  | zero => cases h
  | succ fuel ih =>
    cases s with
    | nil => cases h
    | cons c s =>
      unfold classLoop at h
      split at h
      · obtain ⟨-, rfl⟩ := Prod.mk.inj (Except.ok.inj h)
        exact Nat.lt_succ_self _
      · obtain ⟨⟨m, s₁⟩, hm, h⟩ := bind_eq_ok.mp h
        have hm := classMember_length hA hm
        have hnext : ∀ {s₂ : Bytes} {f : List α → List α}, s₂.length ≤ s₁.length →
            (classLoop A fold fuel s₂ >>= fun p => Except.ok (f p.1, p.2)) = .ok (xs, rest) →
            rest.length < (c :: s).length := by
          intro s₂ f hle h
          obtain ⟨⟨ms, s₃⟩, hms, h⟩ := bind_eq_ok.mp h
          obtain ⟨-, rfl⟩ := Prod.mk.inj (Except.ok.inj h)
          have := ih hms
          rw [List.length_cons]
          omega
        simp only at h
        split at h
        · rename_i _ dash d s'
          split at h
          · obtain ⟨⟨hi, s₂⟩, hhi, h⟩ := bind_eq_ok.mp h
            have hhi := classMember_length hA hhi
            exact hnext (f := fun ms => m :: hi :: ms) (by simp only [List.length_cons]; omega) h
          · exact hnext (f := fun ms => m :: ms) (Nat.le_refl _) h
        · exact hnext (f := fun ms => m :: ms) (Nat.le_refl _) h

theorem classLoop_unstuck (hA : A.Consumes) (fold : Bool) {fuel : Nat} {s : Bytes} (hfuel : s.length < fuel) :
    classLoop A fold fuel s ≠ .error .stuck := by
  induction fuel generalizing s with
  | zero => omega
  | succ fuel ih =>
    cases s with
    | nil => exact fun h => by cases h
    | cons c s =>
      rw [List.length_cons] at hfuel
      unfold classLoop
      split
      · exact fun h => by cases h
      · apply bind_unstuck (classMember_unstuck hA fold c s)
        rintro ⟨m, s₁⟩ hm
        have hm := classMember_length hA hm
        have hnext : ∀ {s₂ : Bytes} (f : List α → List α), s₂.length ≤ s₁.length →
            (classLoop A fold fuel s₂ >>= fun p => Except.ok (f p.1, p.2)) ≠ .error .stuck := by
          intro s₂ f hle
          exact bind_unstuck (ih (by omega)) fun _ _ h => by cases h
        simp only
        split
        · rename_i dash d s' _
          split
          · apply bind_unstuck (classMember_unstuck hA fold d s')
            rintro ⟨hi, s₂⟩ hhi
            have hhi := classMember_length hA hhi
            exact hnext (fun ms => m :: hi :: ms) (by simp only [List.length_cons]; omega)
          · exact hnext (fun ms => m :: ms) (Nat.le_refl _)
        · exact hnext (fun ms => m :: ms) (Nat.le_refl _)

theorem parseCharClass_length (hA : A.Consumes) {fold : Bool} {s rest : Bytes} {x : α}
    (h : parseCharClass A fold s = .ok (x, rest)) : rest.length < s.length := by
  unfold parseCharClass at h
  obtain ⟨⟨ms, rest'⟩, hms, h⟩ := bind_eq_ok.mp h
  have hlt := classLoop_length hA hms
  simp only at h
  split at h
  · cases h
  · obtain ⟨-, rfl⟩ := Prod.mk.inj (Except.ok.inj h)
    apply Nat.lt_of_lt_of_le hlt
    split
    · exact Nat.le_refl _
    · split
      · exact Nat.le_succ _
      · exact Nat.le_refl _

theorem parseCharClass_unstuck (hA : A.Consumes) (fold : Bool) (s : Bytes) :
    parseCharClass A fold s ≠ .error .stuck := by
  unfold parseCharClass
  apply bind_unstuck (classLoop_unstuck hA fold (Nat.lt_succ_self _))
  rintro ⟨ms, rest⟩ -
  simp only
  split <;> exact fun h => by cases h

/-! ## The walk -/

namespace Reads

mutual

theorem Alternation.shrinks (hA : A.Consumes) {depth : Nat} {st st' : ParserState} {x : α} :
    Alternation A depth st x st' → st'.rest.length ≤ st.rest.length
  | .intro hpieces hbranches => (Branches.shrinks hA hbranches).trans (Pieces.shrinks hA hpieces)

theorem Branches.shrinks (hA : A.Consumes) {depth : Nat} {st st' : ParserState} {xs : List α} :
    Branches A depth st xs st' → st'.rest.length ≤ st.rest.length
  | .done _ => Nat.le_refl _
  | .more hrest hbranch hmore => by
    have hbranch := Pieces.shrinks hA hbranch
    have hmore := Branches.shrinks hA hmore
    rw [ParserState.at_rest] at hbranch
    rw [hrest, List.length_cons]
    omega

theorem Pieces.shrinks (hA : A.Consumes) {depth : Nat} {st st' : ParserState} {ps : List (α × Bool)} :
    Pieces A depth st ps st' → st'.rest.length ≤ st.rest.length
  | .done _ => Nat.le_refl _
  | .quantified _ hatom hq hpieces => by
    have hatom := Atom.shrinks hA hatom
    have hq := quantifierAt_length hq
    have hpieces := Pieces.shrinks hA hpieces
    rw [ParserState.at_rest] at hpieces
    omega
  | .single _ hatom _ hpieces => by
    have hatom := Atom.shrinks hA hatom
    have hpieces := Pieces.shrinks hA hpieces
    omega

theorem Atom.shrinks (hA : A.Consumes) {depth : Nat} {st st' : ParserState} {x : α} :
    Atom A depth st x st' → st'.rest.length < st.rest.length
  | .group hrest hgroup => by
    have hgroup := Group.shrinks hA hgroup
    rw [ParserState.at_rest] at hgroup
    rw [hrest, List.length_cons]
    omega
  | .charClass hrest hx => by
    rw [hrest, ParserState.at_rest, List.length_cons]
    exact Nat.lt_succ_of_lt (parseCharClass_length hA hx)
  | .escape hrest hx => by
    rw [hrest, ParserState.at_rest, List.length_cons]
    exact Nat.lt_succ_of_lt (parseEscape_length hA hx)
  | .anchor hrest _ => by
    rw [hrest, ParserState.at_rest, List.length_cons]
    omega
  | .dot hrest => by
    rw [hrest, ParserState.at_rest, List.length_cons]
    omega
  | .literal hrest _ => by
    rw [hrest, ParserState.at_rest, List.length_cons]
    exact Nat.lt_succ_of_le (consumeRune_length _ _)

theorem Group.shrinks (hA : A.Consumes) {depth : Nat} {st st' : ParserState} {x : α} :
    Group A depth st x st' → st'.rest.length ≤ st.rest.length
  | .capture _ _ _ hbody hclose => by
    have hbody := Alternation.shrinks hA hbody
    rw [hclose, List.length_cons] at hbody
    rw [ParserState.at_rest]
    omega
  | .plain _ hrest hbody hclose => by
    have hbody := Alternation.shrinks hA hbody
    rw [hclose, ParserState.at_rest, List.length_cons] at hbody
    rw [hrest, ParserState.at_rest, List.length_cons, List.length_cons]
    omega
  | .named _ hrest _ hbody hclose => by
    have hbody := Alternation.shrinks hA hbody
    rw [hclose, ParserState.at_rest, List.length_cons] at hbody
    rw [hrest, ParserState.at_rest]
    simp only [List.length_cons, List.length_append]
    omega
  | .setter _ hrest _ _ => by
    rw [hrest, flagState]
    simp only [List.length_cons, List.length_append]
    omega
  | .flagged _ hrest _ _ hbody hclose => by
    have hbody := Alternation.shrinks hA hbody
    simp only [hclose, flagState, List.length_cons] at hbody
    rw [hrest, ParserState.at_rest]
    simp only [List.length_cons, List.length_append]
    omega

end
end Reads

/-- The fuel that each step of the walk needs. -/
structure Enough (A : Actions α) (fuel : Nat) : Prop where
  alternation : ∀ depth st, 4 * st.rest.length + 2 ≤ fuel → parseAlternation A fuel depth st ≠ .error .stuck
  branches : ∀ depth st, 4 * st.rest.length + 1 ≤ fuel → parseBranches A fuel depth st ≠ .error .stuck
  pieces : ∀ depth st, 4 * st.rest.length + 1 ≤ fuel → parsePieces A fuel depth st ≠ .error .stuck
  atom : ∀ depth st, 0 < st.rest.length → 4 * st.rest.length ≤ fuel → parseAtom A fuel depth st ≠ .error .stuck
  group : ∀ depth st, 4 * st.rest.length + 3 ≤ fuel → parseGroup A fuel depth st ≠ .error .stuck

section Step

variable {fuel : Nat} (hA : A.Consumes) (h : Enough A fuel)
include hA h

theorem alternation_enough (depth : Nat) (st : ParserState) (hfuel : 4 * st.rest.length + 2 ≤ fuel + 1) :
    parseAlternation A (fuel + 1) depth st ≠ .error .stuck := by
  unfold parseAlternation
  apply bind_unstuck (h.pieces depth st (by omega))
  rintro ⟨first, st₁⟩ hfirst
  have hle := ((Reads.parser_steps A fuel).2.2.1 hfirst).shrinks hA
  apply bind_unstuck (h.branches depth st₁ (by omega))
  exact fun _ _ h => by cases h

theorem branches_enough (depth : Nat) (st : ParserState) (hfuel : 4 * st.rest.length + 1 ≤ fuel + 1) :
    parseBranches A (fuel + 1) depth st ≠ .error .stuck := by
  unfold parseBranches
  split
  · exact fun h => by cases h
  · rename_i c s hrest
    rw [hrest, List.length_cons] at hfuel
    split
    · apply bind_unstuck (h.pieces depth { st with rest := s } (by simp only; omega))
      rintro ⟨branch, st₁⟩ hbranch
      have hle := ((Reads.parser_steps A fuel).2.2.1 hbranch).shrinks hA
      simp only at hle
      apply bind_unstuck (h.branches depth st₁ (by omega))
      exact fun _ _ h => by cases h
    · exact fun h => by cases h

theorem pieces_enough (depth : Nat) (st : ParserState) (hfuel : 4 * st.rest.length + 1 ≤ fuel + 1) :
    parsePieces A (fuel + 1) depth st ≠ .error .stuck := by
  unfold parsePieces
  split
  · exact fun h => by cases h
  · rename_i hend
    have hpos : 0 < st.rest.length := by
      rw [List.length_pos_iff]
      intro hnil
      rw [hnil] at hend
      exact hend rfl
    apply bind_unstuck (h.atom depth st hpos (by omega))
    rintro ⟨x, st₁⟩ hatom
    have hlt := ((Reads.parser_steps A fuel).2.2.2.1 hatom).shrinks hA
    simp only
    split
    · rename_i q rest hq
      have hq := quantifierAt_length hq
      apply bind_unstuck (h.pieces depth { st₁ with rest := rest } (by simp only; omega))
      exact fun _ _ h => by cases h
    · apply bind_unstuck (h.pieces depth st₁ (by omega))
      exact fun _ _ h => by cases h

theorem atom_enough (depth : Nat) (st : ParserState) (hfuel : 4 * st.rest.length ≤ fuel + 1) :
    parseAtom A (fuel + 1) depth st ≠ .error .stuck := by
  unfold parseAtom
  split
  · exact fun h => by cases h
  · rename_i c s hrest
    rw [hrest, List.length_cons] at hfuel
    split
    · exact h.group depth { st with rest := s } (by simp only; omega)
    split
    · exact bind_unstuck (parseCharClass_unstuck hA _ _) fun _ _ h => by cases h
    split
    · exact bind_unstuck (parseEscape_unstuck hA _ _) fun _ _ h => by cases h
    split
    · exact fun h => by cases h
    split
    · exact fun h => by cases h
    split <;> exact fun h => by cases h

omit hA in
theorem body_enough (depth : Nat) {st : ParserState} (hfuel : 4 * st.rest.length + 2 ≤ fuel)
    (f : α → ParserState → Bytes → α × ParserState) :
    (parseAlternation A fuel depth st >>= fun p => expectClose p.2.rest >>= fun s => Except.ok (f p.1 p.2 s)) ≠
      .error .stuck := by
  apply bind_unstuck (h.alternation depth st hfuel)
  rintro ⟨x, st₁⟩ -
  refine bind_unstuck ?_ fun _ _ h => by cases h
  unfold expectClose
  split
  · exact fun h => by cases h
  · split <;> exact fun h => by cases h

omit hA in
theorem group_enough (depth : Nat) (st : ParserState) (hfuel : 4 * st.rest.length + 3 ≤ fuel + 1) :
    parseGroup A (fuel + 1) depth st ≠ .error .stuck := by
  have hbody := fun {s : Bytes} {fold : Bool} (hle : s.length ≤ st.rest.length) =>
    @body_enough _ _ _ h (depth + 1) ⟨s, fold⟩ (by simp only; omega)
  unfold parseGroup
  split
  · exact fun h => by cases h
  split
  · exact fun h => by cases h
  rename_i c s hrest
  rw [hrest, List.length_cons] at hbody
  split
  · exact body_enough h (depth + 1) (by omega) fun x st s => (A.capture x, { st with rest := s })
  split
  · exact fun h => by cases h
  rename_i d s'
  simp only [List.length_cons] at hbody
  split
  · exact hbody (by omega) fun x st s => (x, { st with rest := s })
  split
  · split
    · exact fun h => by cases h
    rename_i b s'' hname
    have hle := dropWhile_length (· ≠ ch '>') (s'.drop 1)
    rw [hname, List.length_cons, List.length_drop] at hle
    exact hbody (by omega) fun x st s => (A.capture x, { st with rest := s })
  simp only
  split
  · exact fun h => by cases h
  rename_i e s'' hflags
  have hle := dropWhile_length isFlagByte (d :: s')
  rw [hflags, List.length_cons, List.length_cons] at hle
  split
  · exact fun h => by cases h
  split
  · exact fun h => by cases h
  split
  · exact hbody (by omega) fun x st s => (x, { st with rest := s })
  · exact fun h => by cases h

end Step

theorem enough (hA : A.Consumes) (fuel : Nat) : Enough A fuel := by
  induction fuel with
  | zero => constructor <;> intros <;> omega
  | succ fuel ih =>
    exact ⟨alternation_enough hA ih, branches_enough hA ih, pieces_enough hA ih,
      fun depth st _ => atom_enough hA ih depth st, group_enough ih⟩

/-- The parser never runs out of fuel. -/
theorem parse_not_stuck (hA : A.Consumes) (pattern : Bytes) : parsePattern A pattern ≠ .error .stuck := by
  unfold parsePattern
  apply bind_unstuck ((enough hA _).alternation 0 ⟨pattern, false⟩ (by simp only; omega))
  rintro ⟨x, st⟩ -
  simp only
  split <;> exact fun h => by cases h

/-! ## The two parsers -/

theorem lengthActions_consumes : lengthActions.Consumes where
  rest_le {fold c s x rest} h := by
    simp only [lengthActions] at h
    unfold escapeLen at h
    have hkeep : ∀ n, (Except.ok (n, s) : Except ParseFailure _) = .ok (x, rest) → rest.length ≤ s.length := by
      intro n h
      rw [(Prod.mk.inj (Except.ok.inj h)).2]
    split at h
    · exact hkeep _ h
    split at h
    · exact hkeep _ h
    split at h
    · exact hkeep _ h
    split at h
    · exact hkeep _ h
    split at h
    · cases h
    split at h
    · cases h
    · obtain ⟨-, rfl⟩ := Prod.mk.inj (Except.ok.inj h)
      exact consumeRune_length c s
  unstuck fold c s := by
    simp only [lengthActions]
    unfold escapeLen
    repeat' split
    all_goals exact fun h => by cases h

theorem skipBraced_spec (s : Bytes) :
    skipBraced s ≠ .error .stuck ∧ ∀ rest, skipBraced s = .ok rest → rest.length < s.length := by
  unfold skipBraced
  split
  · exact ⟨fun h => (by cases h), fun _ h => (by cases h)⟩
  · rename_i c t ht
    refine ⟨fun h => (by cases h), fun rest h => ?_⟩
    obtain rfl := Except.ok.inj h
    have hle := dropWhile_length (· ≠ ch '\x7d') s
    rwa [ht] at hle

theorem skipProperty_spec (s : Bytes) :
    skipProperty s ≠ .error .stuck ∧ ∀ rest, skipProperty s = .ok rest → rest.length ≤ s.length := by
  unfold skipProperty
  split
  · exact ⟨fun h => (by cases h), fun rest h => (by rw [Except.ok.inj h])⟩
  · rename_i c t
    split
    · exact ⟨(skipBraced_spec t).1, fun rest h => Nat.le_succ_of_le (Nat.le_of_lt ((skipBraced_spec t).2 rest h))⟩
    · exact ⟨fun h => (by cases h), fun rest h => (by rw [← Except.ok.inj h]; exact Nat.le_succ _)⟩

theorem skipHex_spec (s : Bytes) :
    skipHex s ≠ .error .stuck ∧ ∀ rest, skipHex s = .ok rest → rest.length ≤ s.length := by
  unfold skipHex
  split
  · exact ⟨fun h => (by cases h), fun rest h => (by rw [Except.ok.inj h])⟩
  · rename_i c t
    split
    · exact ⟨(skipBraced_spec t).1, fun rest h => Nat.le_succ_of_le (Nat.le_of_lt ((skipBraced_spec t).2 rest h))⟩
    · refine ⟨fun h => (by cases h), fun rest h => ?_⟩
      rw [← Except.ok.inj h, List.length_drop]
      exact Nat.sub_le _ _

theorem nodeActions_consumes : nodeActions.Consumes where
  rest_le {fold c s x rest} h := by
    simp only [nodeActions] at h
    unfold escapeNode at h
    split at h
    · rw [(Prod.mk.inj (Except.ok.inj h)).2]
    split at h
    · rw [(Prod.mk.inj (Except.ok.inj h)).2]
    split at h
    · obtain ⟨s', hs, h⟩ := bind_eq_ok.mp h
      obtain ⟨-, rfl⟩ := Prod.mk.inj (Except.ok.inj h)
      exact (skipProperty_spec s).2 s' hs
    split at h
    · obtain ⟨s', hs, h⟩ := bind_eq_ok.mp h
      obtain ⟨-, rfl⟩ := Prod.mk.inj (Except.ok.inj h)
      exact (skipHex_spec s).2 s' hs
    split at h
    · rw [← (Prod.mk.inj (Except.ok.inj h)).2, List.length_drop]
      exact Nat.sub_le _ _
    split at h
    · cases h
    · obtain ⟨-, rfl⟩ := Prod.mk.inj (Except.ok.inj h)
      exact consumeRune_length c s
  unstuck fold c s := by
    simp only [nodeActions]
    unfold escapeNode
    split
    · exact fun h => by cases h
    split
    · exact fun h => by cases h
    split
    · exact bind_unstuck (skipProperty_spec s).1 fun _ _ h => by cases h
    split
    · exact bind_unstuck (skipHex_spec s).1 fun _ _ h => by cases h
    repeat' split
    all_goals exact fun h => by cases h

end LlmGuard
