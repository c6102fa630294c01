import LlmGuard.Code.Demasker
import LlmGuard.Lib.Streaming

/-!
# What demasking is for

A text holds placeholders and spellings of placeholders that a recogniser of a triggered rule accepts.
Each stands for an original of the request, or for nothing.
-/

namespace LlmGuard

open Tokens

/-- The bytes that are restored for an original. -/
def restored (jsonEscape : Bool) (original : Bytes) : Bytes :=
  if jsonEscape then Json.encodeString original false else original

/-- The original of a placeholder: the first replacement that names it. -/
def exactOriginal (replacements : List Replacement) (jsonEscape : Bool) (w : Bytes) : Option Bytes :=
  if w = [] then none
  else (replacements.find? fun r => r.placeholder = w).map fun r => restored jsonEscape r.original

/-- The digits that a recogniser captures in a spelling. `none` when it does not match the spelling. -/
abbrev Spelling := Regex → Bytes → Option Bytes

/-- A rule without a placeholder recognises nothing. -/
def ruleSpelling (spell : Spelling) (cr : CompiledRule) (w : Bytes) : Option Bytes :=
  match cr.placeholderRe with
  | none => none
  | some re => if isBlankPlaceholder cr.rule.masking.placeholder then none else spell re w

/-- The placeholder that a rule reads in a spelling. -/
def readPlaceholder (spell : Spelling) (w : Bytes) (cr : CompiledRule) : Option Bytes :=
  ((ruleSpelling spell cr w).bind parsePlaceholderIndex).map
    (renderPlaceholder cr.rule.masking.placeholder)

/-- The original of a spelling. Where several rules read it, the first one counts. -/
def tolerantOriginal (spell : Spelling) (rules : List CompiledRule) (replacements : List Replacement)
    (jsonEscape : Bool) (w : Bytes) : Option Bytes :=
  (rules.findSome? (readPlaceholder spell w)).bind (exactOriginal replacements jsonEscape)

/-- `Match` on a recogniser finds the leftmost spelling at or after `pos`. It has no anchors, so which
bytes are a spelling does not depend on what stands around them. -/
structure Finds (re2 : Re2) (re : Regex) (spell : Bytes → Option Bytes) : Prop where
  found : ∀ text pos g, re2.search re text pos = some g →
    pos ≤ g.whole.1 ∧ g.whole.1 < g.whole.2 ∧ g.whole.2 ≤ text.length ∧
      ∃ span, g.get 1 = some span ∧
        spell (slice text g.whole.1 g.whole.2) = some (slice text span.1 span.2)
  leftmost : ∀ text pos g, re2.search re text pos = some g →
    ∀ i j, pos ≤ i → i < g.whole.1 → i ≤ j → j ≤ text.length → spell (slice text i j) = none
  nothing : ∀ text pos, re2.search re text pos = none →
    ∀ i j, pos ≤ i → i ≤ j → j ≤ text.length → spell (slice text i j) = none

/-- RE2 on the recognisers of these rules. -/
def FindsAll (re2 : Re2) (spell : Spelling) (rules : List CompiledRule) : Prop :=
  ∀ cr ∈ rules, ∀ re, cr.placeholderRe = some re → Finds re2 re (spell re)

end LlmGuard
