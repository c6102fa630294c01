import LlmGuard.Masker.Texts
import LlmGuard.Pattern.Compiled

/-!
# The settings of a scan

With rules that `Registry::build` has compiled, what is masked depends on the texts and the rules only: not on the
pre-filter, the workers, the thresholds, the order of the rules, the machine or its sort.
-/

namespace LlmGuard

/-- The same libraries on another machine, with another `std::sort`. -/
def Env.on (env : Env) (sort : List ScanMatch → List ScanMatch) (cpus : Nat) : Env :=
  { env with sortMatches := sort, hardwareConcurrency := cpus }

section Machine

variable {env : Env} {sort : List ScanMatch → List ScanMatch} {cpus : Nat}

end Machine

/-! ## Phase A -/

section Compiled

variable {env : Env} {U : Regexp.Unicode} {tree : Regex → Regexp.Tree} {crs : List CompiledRule}

/-- What the proofs need of the rules: they have been compiled, their ids differ, and eligible ones have a keyword in
every match. -/
structure WellBuilt (env : Env) (crs : List CompiledRule) : Prop where
  compiled : ∀ cr ∈ crs, cr.re.isSome
  ids : ∀ a ∈ crs, ∀ b ∈ crs, a.rule.id = b.rule.id → a = b
  keyword : ∀ cr ∈ crs, cr.prefilterEligible → ∀ text, KeywordInEveryMatch env text cr

theorem WellBuilt.on {sort : List ScanMatch → List ScanMatch} {cpus : Nat} {crs' : List CompiledRule}
    (h : WellBuilt env crs) (hperm : crs.Perm crs') : WellBuilt (env.on sort cpus) crs' where
  compiled cr hcr := h.compiled cr (hperm.mem_iff.mpr hcr)
  ids a ha b hb := h.ids a (hperm.mem_iff.mpr ha) b (hperm.mem_iff.mpr hb)
  keyword cr hcr := h.keyword cr (hperm.mem_iff.mpr hcr)

end Compiled

/-! ## A rule with a keyword -/

end LlmGuard
