import LlmGuard.Code.Registry
import LlmGuard.Code.Scanner
import LlmGuard.Lib.Runs

/-!
# What scanning is for

The candidates of all rules are merged: every chain of overlapping candidates becomes one match, with the
rule of the candidate that is preferred.
-/

namespace LlmGuard

/-- `Match` looks forward and reports spans of the text. -/
structure InText (re2 : Re2) : Prop where
  whole : ∀ re text pos g, re2.search re text pos = some g →
    pos ≤ g.whole.1 ∧ g.whole.1 ≤ g.whole.2 ∧ g.whole.2 ≤ text.length
  groups : ∀ re text pos g span, re2.search re text pos = some g → some span ∈ g.groups →
    span.2 ≤ text.length

/-- `std::sort`. Candidates that compare equal may end up in any order. -/
structure SortSpec (sort : List ScanMatch → List ScanMatch) : Prop where
  perm : ∀ ms, (sort ms).Perm ms
  sorted : ∀ ms, (sort ms).Pairwise fun a b => scanMatchLess b a = false

/-- A rule that can be scanned with. -/
def Usable (cr : Option CompiledRule) : Prop := ∃ c re, cr = some c ∧ c.re = some re

/-- The candidates of one rule. -/
def ruleMatches (env : Env) (text : Bytes) (cr : Option CompiledRule) : List ScanMatch :=
  match cr.bind fun c => c.re.map fun re => (c, re) with
  | none => []
  | some (c, re) => if text.isEmpty then [] else scanLoop env text c re (text.length + 2) 0 none

/-- The rules that the pre-filter leaves. -/
def activeRules (env : Env) (text : Bytes) (rules : List (Option CompiledRule)) (opts : ScanOptions) :
    List (Option CompiledRule) :=
  if opts.prefilterEnabled then filterByKeywords env text rules else rules

/-- A chain of overlapping candidates. -/
abbrev Linked (cs : List ScanMatch) : ScanMatch → ScanMatch → Prop := Runs.Linked ScanMatch.start ScanMatch.stop cs

/-- A candidate that no other one of its chain is preferred to. -/
def Preferred (cs : List ScanMatch) (p : ScanMatch) : Prop :=
  ∀ m ∈ cs, Linked cs p m → preferAsPrimary m p = false

/-- A candidate of a rule that replaces what it finds. -/
def HasPlaceholder (m : ScanMatch) : Prop := ∃ cr, m.rule = some cr ∧ cr.rule.masking.placeholder ≠ []

instance (m : ScanMatch) : Decidable (HasPlaceholder m) :=
  decidable_of_iff ((m.rule.map fun cr => cr.rule.masking.placeholder).getD [] ≠ []) <| by
    unfold HasPlaceholder
    cases m.rule <;> simp

end LlmGuard
