import LlmGuard.Scanner.Prefilter

/-!
# How the rules are spread over workers changes nothing

The workers find the candidates of all rules, in another order. The merge does not depend on the order.
-/

namespace LlmGuard

section FanOut

variable {env : Env} {text : Bytes} {rules : List (Option CompiledRule)}

theorem resolveConflicts_of_candidates (hsort : SortSpec env.sortMatches) (hre : InText env.re2)
    (hids : ∀ a b, some a ∈ rules → some b ∈ rules → a.rule.id = b.rule.id → a = b)
    (husable : ∀ cr ∈ rules, Usable cr) {rules' : List (Option CompiledRule)} (hperm : rules.Perm rules')
    {cs : List ScanMatch} (hcs : cs.Perm (rules'.flatMap (ruleMatches env text))) :
    resolveConflicts env cs = resolveConflicts env (rules.flatMap (ruleMatches env text)) := by
  have hnull : none ∉ rules := fun h => by
    obtain ⟨_, _, h, _⟩ := husable none h
    cases h
  have hall := hcs.trans (hperm.flatMap_right (ruleMatches env text)).symm
  exact resolveConflicts_perm hsort hall (determined_of_distinct hre hids hnull fun m hm => hall.subset hm)

/-- Scanning in one thread and scanning in many gives the same matches, whatever the order of the rules. Both
fail on a rule that cannot be scanned with. -/
theorem fanOut_invisible (env : Env) (hsort : SortSpec env.sortMatches) (hre : InText env.re2) (text : Bytes)
    (rules : List (Option CompiledRule))
    (hids : ∀ a b, some a ∈ rules → some b ∈ rules → a.rule.id = b.rule.id → a = b) :
    ((∀ cr ∈ rules, Usable cr) → ∃ ms, ∀ rules', rules.Perm rules' → ∀ maxWorkers,
      (scanSerial env text rules').map (resolveConflicts env) = .ok ms ∧
        (scanParallel env text rules' maxWorkers).map (resolveConflicts env) = .ok ms) ∧
    ((∃ cr ∈ rules, ¬ Usable cr) → ∀ rules', rules.Perm rules' → ∀ maxWorkers,
      (∃ e, scanSerial env text rules' = .error e) ∧ ∃ e, scanParallel env text rules' maxWorkers = .error e) := by
  constructor
  · intro husable
    refine ⟨resolveConflicts env (rules.flatMap (ruleMatches env text)), fun rules' hperm maxWorkers => ?_⟩
    have husable' : ∀ cr ∈ rules', Usable cr := fun cr hcr => husable cr (hperm.symm.subset hcr)
    have hmerge : ∀ cs : List ScanMatch, cs.Perm (rules'.flatMap (ruleMatches env text)) →
        resolveConflicts env cs = resolveConflicts env (rules.flatMap (ruleMatches env text)) :=
      fun cs => resolveConflicts_of_candidates hsort hre hids husable hperm
    obtain ⟨cs, hcs, hfound⟩ := scanParallel_ok env text husable' maxWorkers
    rw [scanSerial_ok husable', hcs]
    exact ⟨congrArg Except.ok (hmerge _ (.refl _)), congrArg Except.ok (hmerge cs hfound)⟩
  · rintro ⟨cr, hcr, hunusable⟩ rules' hperm maxWorkers
    have hcr' := hperm.subset hcr
    exact ⟨scanSerial_error env text hcr' hunusable, scanParallel_error env text hcr' hunusable maxWorkers⟩

end FanOut

/-- Two rules that find the same place, in both orders. -/
theorem fanOut_invisible_sample : ∃ ms, ∀ rules',
    [some keyRule, some (sampleCompiled "pass" "key" "PASS")].Perm rules' → ∀ maxWorkers,
      (scanSerial (sampleEnv keySpelling) (ascii "a key b") rules').map (resolveConflicts (sampleEnv keySpelling)) =
        .ok ms ∧
      (scanParallel (sampleEnv keySpelling) (ascii "a key b") rules' maxWorkers).map
        (resolveConflicts (sampleEnv keySpelling)) = .ok ms := by
  refine (fanOut_invisible (sampleEnv keySpelling) sampleSort_spec (sampleRe2_inText keySpelling_captures)
    (ascii "a key b") [some keyRule, some (sampleCompiled "pass" "key" "PASS")] ?_).1 ?_
  · have hne : keyRule.rule.id ≠ (sampleCompiled "pass" "key" "PASS").rule.id := by decide
    simp only [List.mem_cons, List.not_mem_nil, or_false, Option.some_inj]
    rintro a b (rfl | rfl) (rfl | rfl) hid
    · rfl
    · exact absurd hid hne
    · exact absurd hid.symm hne
    · rfl
  · simp only [List.mem_cons, List.not_mem_nil, or_false]
    rintro cr (rfl | rfl)
    · exact ⟨keyRule, _, rfl, rfl⟩
    · exact ⟨sampleCompiled "pass" "key" "PASS", _, rfl, rfl⟩

end LlmGuard
