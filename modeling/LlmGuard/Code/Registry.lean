import LlmGuard.Code.PlaceholderRegex
import LlmGuard.Code.Prefilter
import LlmGuard.Code.Validators

/-! # `Registry.hpp` -/

namespace LlmGuard

/-- The codes of `RuleError` that the registry throws. -/
inductive RuleErrorCode where
  | invalidId
  | duplicateId
  | unknownValidator
  | badRegex
  | badCaptureGroup
  | unboundedPlaceholder
deriving DecidableEq, Repr

structure RuleError where
  code : RuleErrorCode
  what : Bytes
deriving DecidableEq, Repr

def isValidRuleId (id : Bytes) : Bool :=
  !id.isEmpty && id.length ≤ 128 &&
    id.all fun c => isLower c || isDigit c || c = ch '_' || c = ch '.' || c = ch '-'

def buildPlaceholderPattern (re2 : Re2) (placeholderName : Bytes) : Except RuleError PlaceholderPattern :=
  let pattern := buildPlaceholderPatternString re2 placeholderName
  let maxLen := regexMaxLen pattern
  if maxLen = sizeMax then
    .error ⟨.unboundedPlaceholder,
      ascii "placeholder regex for '" ++ placeholderName ++ ascii "' is unbounded: " ++ pattern⟩
  else .ok ⟨pattern, maxLen⟩

/-! ## `compile_rule` -/

def ruleText (id what : Bytes) : Bytes := ascii "compile guardrails rule '" ++ id ++ ascii "'" ++ what

def checkValidators (id : Bytes) : List Bytes → Except RuleError Unit
  | [] => .ok ()
  | validator :: validators =>
    if isKnownValidator validator then checkValidators id validators
    else .error ⟨.unknownValidator, ruleText id (ascii ": unsupported validator '" ++ validator ++ ascii "'")⟩

def checkCaptureGroups (id : Bytes) (numGroups : Nat) : List Int → Except RuleError Unit
  | [] => .ok ()
  | group :: groups =>
    if group ≤ 0 then
      .error ⟨.badCaptureGroup, ruleText id (ascii ": capture_groups must contain positive indexes")⟩
    else if numGroups < group.toNat then
      .error ⟨.badCaptureGroup, ruleText id (ascii ": capture group " ++ decimal group.toNat ++
        ascii " exceeds regex capture groups " ++ decimal numGroups)⟩
    else checkCaptureGroups id numGroups groups

/-- The recogniser and its length. A blank placeholder has none. -/
def compilePlaceholder (re2 : Re2) (id placeholder : Bytes) : Except RuleError (Option Regex × Nat) :=
  if placeholder.isEmpty then .ok (none, 0)
  else
    match buildPlaceholderPattern re2 placeholder with
    | .error e => .error ⟨e.code, ruleText id (ascii " placeholder: " ++ e.what)⟩
    | .ok pp =>
      let re := ascii "(?m)" ++ pp.pattern
      if !re2.ok re then .error ⟨.badRegex, ruleText id (ascii " placeholder regex: " ++ re2.error re)⟩
      else if re2.numberOfCapturingGroups re < 1 then
        .error ⟨.badRegex,
          ruleText id (ascii " placeholder regex must have capture group #1 for the placeholder index")⟩
      else .ok (some re, pp.maxLen)

def compileRule (env : Env) (r : Rule) : Except RuleError CompiledRule :=
  if !isValidRuleId r.id then
    .error ⟨.invalidId, ascii "compile guardrails rule: invalid rule_id '" ++ r.id ++
      ascii "'; must match ^[a-z0-9_.-]\x7b1,128\x7d$"⟩
  else do
    checkValidators r.id r.validators
    let re := ascii "(?m)" ++ r.regex
    if !env.re2.ok re then
      .error ⟨.badRegex, ruleText r.id (ascii " regex: " ++ env.re2.error re)⟩
    else do
      checkCaptureGroups r.id (env.re2.numberOfCapturingGroups re) r.masking.captureGroups
      let (placeholderRe, placeholderLen) ← compilePlaceholder env.re2 r.id (asciiTrim r.masking.placeholder)
      .ok
        { rule := r
          re := some re
          placeholderRe := placeholderRe
          placeholderLen := placeholderLen
          prefilterEligible := !r.keywords.isEmpty && regexGuaranteesKeyword env.utf8proc r.regex r.keywords
          prefilterKeywords := r.keywords.map (toLowerUtf8 env.utf8proc) }

theorem checkCaptureGroups_ok {id : Bytes} {numGroups : Nat} {groups : List Int}
    (h : checkCaptureGroups id numGroups groups = .ok ()) :
    ∀ group ∈ groups, 0 < group ∧ group.toNat ≤ numGroups := by
  induction groups with
  | nil => simp
  | cons group groups ih =>
    unfold checkCaptureGroups at h
    split at h
    · cases h
    · split at h
      · cases h
      · intro g hg
        rcases List.mem_cons.mp hg with rfl | hg
        · omega
        · exact ih h g hg

theorem compileRule_ok {env : Env} {r : Rule} {cr : CompiledRule} (h : compileRule env r = .ok cr) :
    cr.rule = r ∧ cr.re = some (ascii "(?m)" ++ r.regex) ∧
      (∀ group ∈ r.masking.captureGroups,
        0 < group ∧ group.toNat ≤ env.re2.numberOfCapturingGroups (ascii "(?m)" ++ r.regex)) ∧
      compilePlaceholder env.re2 r.id (asciiTrim r.masking.placeholder) = .ok (cr.placeholderRe, cr.placeholderLen) ∧
      cr.prefilterEligible = (!r.keywords.isEmpty && regexGuaranteesKeyword env.utf8proc r.regex r.keywords) ∧
      cr.prefilterKeywords = r.keywords.map (toLowerUtf8 env.utf8proc) := by
  unfold compileRule at h
  split at h
  · cases h
  obtain ⟨⟨⟩, -, h⟩ := bind_eq_ok.mp h
  simp only at h
  split at h
  · cases h
  obtain ⟨⟨⟩, hgroups, h⟩ := bind_eq_ok.mp h
  obtain ⟨⟨placeholderRe, placeholderLen⟩, hplaceholder, h⟩ := bind_eq_ok.mp h
  obtain rfl := Except.ok.inj h
  exact ⟨rfl, rfl, checkCaptureGroups_ok hgroups, hplaceholder, rfl, rfl⟩

/-! ## `Registry` -/

def Registry.push (reg : Registry) (cr : CompiledRule) (h : cr.rule.id ∉ reg.rules.map (·.rule.id)) : Registry where
  rules := reg.rules ++ [cr]
  distinct := by
    rw [List.map_append, List.map_singleton, List.nodup_append]
    refine ⟨reg.distinct, by simp, ?_⟩
    rintro id hid _ hcr rfl
    exact h (List.mem_singleton.mp hcr ▸ hid)

/-- The duplicate check comes before the compilation. -/
def Registry.buildFrom (env : Env) (reg : Registry) : List Rule → Except RuleError Registry
  | [] => .ok reg
  | r :: rs =>
    if hdup : r.id ∈ reg.rules.map (·.rule.id) then
      .error ⟨.duplicateId, ruleText r.id (ascii ": duplicate rule_id")⟩
    else
      match hcr : compileRule env r with
      | .error e => .error e
      | .ok cr => buildFrom env (reg.push cr (by rw [(compileRule_ok hcr).1]; exact hdup)) rs

def Registry.build (env : Env) (rules : List Rule) : Except RuleError Registry :=
  buildFrom env ⟨[], List.nodup_nil⟩ rules

theorem Registry.buildFrom_rules {env : Env} {reg reg' : Registry} {rules : List Rule}
    (h : reg.buildFrom env rules = .ok reg') :
    ∃ crs, reg'.rules = reg.rules ++ crs ∧ List.Forall₂ (fun r cr => compileRule env r = .ok cr) rules crs := by
  induction rules generalizing reg with
  | nil =>
    obtain rfl := Except.ok.inj h
    exact ⟨[], by simp, .nil⟩
  | cons r rs ih =>
    unfold buildFrom at h
    split at h
    · cases h
    · split at h
      · cases h
      · rename_i cr hcr
        obtain ⟨crs, hrules, hall⟩ := ih h
        exact ⟨cr :: crs, by simp [hrules, push], .cons hcr hall⟩

theorem Registry.build_rules {env : Env} {reg : Registry} {rules : List Rule}
    (h : Registry.build env rules = .ok reg) :
    List.Forall₂ (fun r cr => compileRule env r = .ok cr) rules reg.rules := by
  obtain ⟨crs, hrules, hall⟩ := buildFrom_rules h
  rw [hrules, List.nil_append]
  exact hall

end LlmGuard
