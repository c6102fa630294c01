import LlmGuard.Demasker.Tolerant
import LlmGuard.Masker.Reserved
import LlmGuard.Spec.Sample

/-!
# Where the cuts of a stream make no difference

The pending buffer holds text that was demasked already and is demasked again. A stream gives what the
whole text gives when no restored original makes a placeholder or a spelling of one.
-/

namespace LlmGuard

open Tokens Streaming Fence

/-- The rules whose recognisers a configuration uses. -/
def pinnedRules (state : MaskingState) : Option Registry → List CompiledRule
  | none => []
  | some reg => triggeredRules state reg

theorem byId_id {reg : Registry} {id : Bytes} {cr : CompiledRule} (h : reg.byId id = some cr) :
    cr ∈ reg.rules ∧ cr.rule.id = id :=
  ⟨List.mem_of_find?_eq_some h, by simpa using List.find?_some h⟩

theorem bytesLess_le_total (a b : Bytes) : (!bytesLess b a) || !bytesLess a b := by
  simp only [bytesLess, Bool.or_eq_true, Bool.not_eq_true', decide_eq_false_iff_not, List.not_lt]
  exact List.le_total a b

theorem bytesLess_le_trans (a b c : Bytes) (hab : !bytesLess b a) (hbc : !bytesLess c b) :
    !bytesLess c a := by
  simp only [bytesLess, Bool.not_eq_true', decide_eq_false_iff_not, List.not_lt] at hab hbc ⊢
  exact List.le_trans hab hbc

theorem pinnedRules_inIdOrder (state : MaskingState) (pinned : Option Registry) :
    InIdOrder (pinnedRules state pinned) := by
  cases pinned with
  | none => exact ⟨.nil, by simp [pinnedRules]⟩
  | some reg =>
    constructor
    · apply List.pairwise_filterMap.mpr
      apply (List.pairwise_mergeSort bytesLess_le_trans bytesLess_le_total _).imp
      intro id id' hle cr hcr cr' hcr'
      simp only [bytesLess, Bool.not_eq_true', decide_eq_false_iff_not, List.not_lt] at hle
      rw [(byId_id hcr).2, (byId_id hcr').2]
      exact hle
    · intro a ha b hb hid
      obtain ⟨ida, -, ha⟩ := List.mem_filterMap.mp (show a ∈ triggeredRules state reg from ha)
      obtain ⟨idb, -, hb⟩ := List.mem_filterMap.mp (show b ∈ triggeredRules state reg from hb)
      exact List.inj_on_of_nodup_map reg.distinct (byId_id ha).1 (byId_id hb).1 hid

theorem makeConfig_scan (env : Env) (state : MaskingState) (pinned : Option Registry) :
    (makeConfig env state pinned).scan = none ∧ pinnedRules state pinned = [] ∨
      (makeConfig env state pinned).scan = some fun text => .ok (scanPlaceholders env (pinnedRules state pinned) text) := by
  cases pinned with
  | none => exact .inl ⟨makeConfig_none_scan env state, rfl⟩
  | some reg =>
    unfold makeConfig pinnedRules
    simp only
    split
    · rename_i hempty
      exact .inl ⟨foldl_addReplacement_scan _ _, List.isEmpty_iff.mp hempty⟩
    · exact .inr rfl

section Config

variable {env : Env} {spell : Spelling} {state : MaskingState} {pinned : Option Registry} {jsonEscape : Bool}

theorem makeConfig_neverFails (hfinds : FindsAll env.re2 spell (pinnedRules state pinned)) :
    NeverFails (makeConfig env state pinned) jsonEscape := by
  rcases makeConfig_scan env state pinned with ⟨hscan, -⟩ | hscan
  · exact neverFails_of_no_scan jsonEscape hscan
  · exact neverFails_of_scan hscan hfinds

theorem makeConfig_tolerant (hfinds : FindsAll env.re2 spell (pinnedRules state pinned))
    {special : Bytes → Prop} (hspecial : ∀ w, Recognised spell (pinnedRules state pinned) w → special w) :
    Pass special (tolerantPass (makeConfig env state pinned) jsonEscape)
      (tolerantOriginal spell (pinnedRules state pinned) state.replacements jsonEscape) := by
  rcases makeConfig_scan env state pinned with ⟨hscan, hnil⟩ | hscan
  · rw [hnil]
    exact tolerantPass_of_no_scan hscan special
  · exact tolerant_pass (makeConfig_tables env state pinned) hscan hfinds (pinnedRules_inIdOrder state pinned) hspecial

end Config

/-- A placeholder of the request, or a spelling that a triggered rule recognises. -/
def Special (spell : Spelling) (state : MaskingState) (pinned : Option Registry) (jsonEscape : Bool)
    (w : Bytes) : Prop :=
  (exactOriginal state.replacements jsonEscape w).isSome ∨ Recognised spell (pinnedRules state pinned) w

/-- The placeholders and spellings in the text do not overlap, none is longer than the hold-back, and
restoring the front of them, or the exact ones among the next, makes no new one. -/
def Settled (env : Env) (spell : Spelling) (state : MaskingState) (pinned : Option Registry)
    (jsonEscape : Bool) (text : Bytes) : Prop :=
  ∃ items, render items = text ∧
    (∀ w, .tok w ∈ items → w.length ≤ (makeConfig env state pinned).maxPending) ∧
    Stable (Special spell state pinned jsonEscape) (exactOriginal state.replacements jsonEscape)
      (tolerantOriginal spell (pinnedRules state pinned) state.replacements jsonEscape) items

/-- Every run over a settled text gives what the one-shot demask gives, whatever the cuts. -/
theorem demaskStream_eq_demaskAll (env : Env) (spell : Spelling) (state : MaskingState)
    (pinned : Option Registry) (jsonEscape : Bool)
    (hfinds : FindsAll env.re2 spell (pinnedRules state pinned)) (text : Bytes)
    (hsettled : Settled env spell state pinned jsonEscape text) (chunks : List Bytes) (hne : chunks ≠ [])
    (hchunks : chunks.flatten = text) :
    Demasker.demaskStream ⟨makeConfig env state pinned, jsonEscape, []⟩ chunks =
      demaskAll (makeConfig env state pinned) text jsonEscape := by
  obtain ⟨items, rfl, hroom, hstable⟩ := hsettled
  have hfails : NeverFails (makeConfig env state pinned) jsonEscape := makeConfig_neverFails hfinds
  have hexact : Pass (Special spell state pinned jsonEscape) (applyExact (makeConfig env state pinned) jsonEscape)
      (exactOriginal state.replacements jsonEscape) :=
    exact_pass (makeConfig_tables env state pinned) fun w hw => .inl hw
  have htolerant : Pass (Special spell state pinned jsonEscape)
      (tolerantPass (makeConfig env state pinned) jsonEscape)
      (tolerantOriginal spell (pinnedRules state pinned) state.replacements jsonEscape) :=
    makeConfig_tolerant hfinds fun w hw => .inr hw
  have hrun : ∀ cs : List Bytes, cs.flatten = render items → cs ≠ [] →
      ((makeConfig env state pinned).rewriter jsonEscape).run [] cs = _ := fun cs =>
    run_eq hexact htolerant hstable hroom
  rw [demaskStream_eq hfails, demaskAll_eq hfails, hrun chunks hchunks hne]
  exact congrArg _ (hrun [render items] (by simp) (by simp)).symm

/-! ## A drifted spelling -/

/-- Recognises `<email_1>`. -/
def emailSpelling : Spelling := fun re w => if re = ascii "email" ∧ w = ascii "<email_1>" then some (ascii "1") else none

def emailRegistry : Registry where
  rules := [{ sampleCompiled "r" "" "EMAIL" with placeholderRe := some (ascii "email"), placeholderLen := 9 }]
  distinct := by decide

def emailState : MaskingState where
  triggeredRuleIds := [ascii "r"]
  triggeredDataTypes := []
  replacements := [⟨ascii "r", .personalData, ascii "ann", ascii "<EMAIL_1>"⟩]

theorem emailSpelling_captures : Captures emailSpelling := by
  intro re w captured h
  unfold emailSpelling at h
  split at h
  · rename_i hw
    rw [← Option.some.inj h, hw.2]
    decide
  · cases h

theorem triggeredRules_email : triggeredRules emailState emailRegistry = emailRegistry.rules := by
  unfold triggeredRules emailState
  rw [List.mergeSort_singleton]
  rfl

theorem email_special {w : Bytes} (h : Special emailSpelling emailState (some emailRegistry) false w) :
    w = ascii "<EMAIL_1>" ∨ w = ascii "<email_1>" := by
  rcases h with h | ⟨cr, -, h⟩
  · left
    simp only [exactOriginal, emailState, List.find?_cons, List.find?_nil] at h
    grind
  · right
    unfold ruleSpelling emailSpelling at h
    grind

theorem demaskStream_eq_demaskAll_sample :
    Demasker.demaskStream ⟨makeConfig (sampleEnv emailSpelling) emailState (some emailRegistry), false, []⟩
        [ascii "to <em", ascii "ail_1>."] =
      demaskAll (makeConfig (sampleEnv emailSpelling) emailState (some emailRegistry)) (ascii "to <email_1>.") false := by
  refine demaskStream_eq_demaskAll (sampleEnv emailSpelling) emailSpelling emailState (some emailRegistry) false
    ?_ (ascii "to <email_1>.") ?_ [ascii "to <em", ascii "ail_1>."] (by simp) (by decide)
  · intro cr _ re _
    exact sampleRe2_finds emailSpelling_captures (by simp [emailSpelling, ascii])
  · have htok : ∀ w, .tok w ∈ (ascii "to ").map Item.raw ++ [.tok (ascii "<email_1>"), .raw (ch '.')] →
        w = ascii "<email_1>" := by simp
    refine ⟨(ascii "to ").map .raw ++ [.tok (ascii "<email_1>"), .raw (ch '.')], by decide, ?_, ?_⟩
    · intro w hw
      rw [htok w hw]
      simp only [makeConfig, triggeredRules_email]
      decide
    · refine stable_of_greedy angle_ne ?_ ?_ (greedy_of_absent ?_)
      · intro w hw
        rcases email_special hw with rfl | rfl
        · exact ⟨ascii "EMAIL_1", by decide, by decide, by decide⟩
        · exact ⟨ascii "email_1", by decide, by decide, by decide⟩
      · intro w hw
        rw [htok w hw]
        exact .inr ⟨_, by rw [pinnedRules, triggeredRules_email]; exact List.mem_singleton_self _, by decide⟩
      · intro w hw
        rw [pinnedRules, triggeredRules_email]
        rcases email_special hw with rfl | rfl <;> decide

/-! ## A restored original that is demasked again -/

def rescanState : MaskingState where
  triggeredRuleIds := []
  triggeredDataTypes := []
  replacements :=
    [⟨ascii "p", .custom, ascii "<Q_1>", ascii "<P_1>"⟩, ⟨ascii "q", .custom, ascii "BOOM", ascii "<Q_1>"⟩]

/-- The whole text restores `<Q_1>`. In a stream it waits in the pending buffer, and the next call takes
it for a placeholder. -/
theorem demaskStream_rescans :
    ¬ ∀ (env : Env) (state : MaskingState) (pinned : Option Registry) (jsonEscape : Bool) (text : Bytes)
        (chunks : List Bytes), chunks ≠ [] → chunks.flatten = text →
        Demasker.demaskStream ⟨makeConfig env state pinned, jsonEscape, []⟩ chunks =
          demaskAll (makeConfig env state pinned) text jsonEscape := by
  intro h
  have hone : demaskAll (makeConfig (sampleEnv fun _ _ => none) rescanState none) (ascii "<P_1>") false =
      .ok (ascii "<Q_1>") := by decide
  have hstream : Demasker.demaskStream ⟨makeConfig (sampleEnv fun _ _ => none) rescanState none, false, []⟩
      [ascii "<P_1>", []] = .ok (ascii "BOOM") := by decide
  have := h (sampleEnv fun _ _ => none) rescanState none false (ascii "<P_1>") [ascii "<P_1>", []] (by simp) (by simp)
  rw [hone, hstream] at this
  exact absurd this (by decide)

end LlmGuard
