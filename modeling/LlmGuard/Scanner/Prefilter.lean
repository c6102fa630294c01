import LlmGuard.Scanner.Lower
import LlmGuard.Scanner.Proofs
import LlmGuard.Spec.Sample

/-!
# The pre-filter changes nothing

A rule that is left out has no match in the text: the lower case of a match would hold a keyword, and the
lower case of the text holds the lower case of every match.
-/

namespace LlmGuard

open Utf8

/-- A match starts and ends between characters. -/
def AtBoundaries (re2 : Re2) : Prop :=
  ∀ re text pos g, Boundary text pos → re2.search re text pos = some g →
    Boundary text g.whole.1 ∧ Boundary text g.whole.2

/-- Every match of the rule's regex in the text lowers to a string that holds one of its keywords. -/
def KeywordInEveryMatch (env : Env) (text : Bytes) (cr : CompiledRule) : Prop :=
  ∀ re pos g, cr.re = some re → env.re2.search re text pos = some g →
    ∃ kw ∈ cr.prefilterKeywords, kw ≠ [] ∧ kw <:+: toLowerUtf8 env.utf8proc (slice text g.whole.1 g.whole.2)

/-! ## The merge depends on the candidates only -/

theorem scanMatchLess_antisymm {a b : ScanMatch} (hab : scanMatchLess a b = false)
    (hba : scanMatchLess b a = false) : a.start = b.start ∧ a.length = b.length ∧ a.ruleId = b.ruleId := by
  have hstart : a.start = b.start :=
    Nat.le_antisymm (start_le_of_not_less hba) (start_le_of_not_less hab)
  unfold scanMatchLess at hab hba
  rw [if_neg (by simp [hstart])] at hab hba
  by_cases hlen : a.length = b.length
  · rw [if_neg (by simp [hlen])] at hab hba
    simp only [decide_eq_false_iff_not, List.not_lt] at hab hba
    exact ⟨hstart, hlen, List.le_antisymm hba hab⟩
  · rw [if_pos (by simpa using hlen)] at hab
    rw [if_pos (by simpa using Ne.symm hlen)] at hba
    simp only [decide_eq_false_iff_not] at hab hba
    omega

/-- Candidates that agree in place and rule id are the same. -/
def Determined (cs : List ScanMatch) : Prop :=
  ∀ a ∈ cs, ∀ b ∈ cs, a.start = b.start → a.length = b.length → a.ruleId = b.ruleId → a = b

theorem resolveConflicts_perm {env : Env} (hsort : SortSpec env.sortMatches) {cs cs' : List ScanMatch}
    (hperm : cs.Perm cs') (hdet : Determined cs) : resolveConflicts env cs = resolveConflicts env cs' := by
  have hsorted : env.sortMatches cs = env.sortMatches cs' := by
    refine List.Perm.eq_of_pairwise ?_ (hsort.sorted cs) (hsort.sorted cs')
      (((hsort.perm cs).trans hperm).trans (hsort.perm cs').symm)
    intro a b ha hb hab hba
    obtain ⟨hstart, hlen, hid⟩ := scanMatchLess_antisymm hba hab
    exact hdet a ((hsort.perm cs).subset ha) b (hperm.symm.subset ((hsort.perm cs').subset hb)) hstart hlen hid
  unfold resolveConflicts
  rw [← hperm.length_eq, hsorted]
  split
  · rename_i hlen
    match cs, hlen with
    | [], _ => exact (List.nil_perm.mp hperm).symm
    | [m], _ => exact (List.singleton_perm.mp hperm)
  · rfl

/-! ## The rules that are left out -/

section Filter

variable {env : Env} {text : Bytes} {rules : List (Option CompiledRule)}

theorem keywordHit_of_match (hu : Utf8procSpec env.utf8proc) (hre : InText env.re2) (hbound : AtBoundaries env.re2)
    {cr : CompiledRule} (hguar : KeywordInEveryMatch env text cr) {re : Regex} (hcr : cr.re = some re)
    {g : Submatches} (hg : env.re2.search re text 0 = some g) :
    keywordHit (toLowerUtf8 env.utf8proc text) cr.prefilterKeywords = true := by
  obtain ⟨kw, hkw, hne, hin⟩ := hguar re 0 g hcr hg
  obtain ⟨hstart, hstop⟩ := hbound re text 0 g (.zero text) hg
  have hslice := toLowerUtf8_slice hu hstart hstop (hre.whole re text 0 g hg).2.1
  refine List.any_eq_true.mpr ⟨kw, hkw, ?_⟩
  rw [Bool.and_eq_true, contains_iff]
  exact ⟨by simpa using hne, hin.trans hslice⟩

/-- A rule that the pre-filter leaves out has no candidate. -/
theorem ruleMatches_of_not_keep (hu : Utf8procSpec env.utf8proc) (hre : InText env.re2)
    (hbound : AtBoundaries env.re2) {cr : Option CompiledRule}
    (hguar : ∀ c, cr = some c → c.prefilterEligible → KeywordInEveryMatch env text c)
    (hkeep : keepRule (toLowerUtf8 env.utf8proc text) cr = false) : ruleMatches env text cr = [] := by
  cases cr with
  | none => rfl
  | some c =>
    simp only [keepRule, Bool.or_eq_false_iff, Bool.not_eq_false'] at hkeep
    unfold ruleMatches
    cases hcre : c.re with
    | none => simp [hcre]
    | some re =>
      simp only [hcre, Option.bind_some, Option.map_some]
      split
      · rfl
      · cases hg : env.re2.search re text 0 with
        | none => simp [scanLoop, hg]
        | some g =>
          have := keywordHit_of_match hu hre hbound (hguar c rfl hkeep.1) hcre hg
          rw [hkeep.2] at this
          cases this

theorem flatMap_filter_of_nil {α β : Type} {f : α → List β} {p : α → Bool} {l : List α}
    (h : ∀ x ∈ l, p x = false → f x = []) : (l.filter p).flatMap f = l.flatMap f := by
  induction l with
  | nil => rfl
  | cons x l ih =>
    have hrest := ih fun y hy => h y (List.mem_cons_of_mem _ hy)
    by_cases hx : p x
    · rw [List.filter_cons_of_pos hx, List.flatMap_cons, List.flatMap_cons, hrest]
    · rw [List.filter_cons_of_neg hx, List.flatMap_cons, hrest, h x (by simp) (by simpa using hx), List.nil_append]

theorem determined_of_distinct (hre : InText env.re2)
    (hids : ∀ a b, some a ∈ rules → some b ∈ rules → a.rule.id = b.rule.id → a = b) (hnull : none ∉ rules)
    {cs : List ScanMatch} (hcs : ∀ m ∈ cs, m ∈ rules.flatMap (ruleMatches env text)) : Determined cs := by
  intro a ha b hb hstart hlen hid
  obtain ⟨ra, hra, hma⟩ := List.mem_flatMap.mp (hcs a ha)
  obtain ⟨rb, hrb, hmb⟩ := List.mem_flatMap.mp (hcs b hb)
  obtain ⟨rfl, hsa⟩ := mem_ruleMatches hre hma
  obtain ⟨rfl, hsb⟩ := mem_ruleMatches hre hmb
  obtain ⟨i, j, ra⟩ := a
  obtain ⟨i', j', rb⟩ := b
  cases ra with
  | none => exact absurd hra hnull
  | some ca =>
    cases rb with
    | none => exact absurd hrb hnull
    | some cb =>
      obtain rfl : ca = cb := hids ca cb hra hrb hid
      have := hsa.nonempty
      have := hsb.nonempty
      simp only [ScanMatch.length] at *
      rw [hstart, show j = j' by omega]

/-- The pre-filter is invisible. -/
theorem prefilter_invisible (env : Env) (hu : Utf8procSpec env.utf8proc) (hsort : SortSpec env.sortMatches)
    (hre : InText env.re2) (hbound : AtBoundaries env.re2) (text : Bytes) (rules : List (Option CompiledRule))
    (hids : ∀ a b, some a ∈ rules → some b ∈ rules → a.rule.id = b.rule.id → a = b)
    (hcompiled : ∀ cr, some cr ∈ rules → cr.re.isSome)
    (hguar : ∀ cr, some cr ∈ rules → cr.prefilterEligible → KeywordInEveryMatch env text cr) (maxWorkers : Nat) :
    (none ∉ rules → ∃ ms, scanRules env text rules ⟨true, maxWorkers⟩ = .ok ms ∧
      scanRules env text rules ⟨false, maxWorkers⟩ = .ok ms) ∧
    (none ∈ rules → (∃ e, scanRules env text rules ⟨true, maxWorkers⟩ = .error e) ∧
      ∃ e, scanRules env text rules ⟨false, maxWorkers⟩ = .error e) := by
  have hfiltered : activeRules env text rules ⟨true, maxWorkers⟩ =
      rules.filter (keepRule (toLowerUtf8 env.utf8proc text)) := rfl
  have hall : activeRules env text rules ⟨false, maxWorkers⟩ = rules := rfl
  rw [scanRules_eq, scanRules_eq, hfiltered, hall]
  constructor
  · intro hnull
    have husable : ∀ cr ∈ rules, Usable cr := by
      intro cr hcr
      cases cr with
      | none => exact absurd hcr hnull
      | some c =>
        obtain ⟨re, hre⟩ := Option.isSome_iff_exists.mp (hcompiled c hcr)
        exact ⟨c, re, rfl, hre⟩
    have husable' : ∀ cr ∈ rules.filter (keepRule (toLowerUtf8 env.utf8proc text)), Usable cr :=
      fun cr hcr => husable cr (List.mem_filter.mp hcr).1
    obtain ⟨cs, hcs, hperm⟩ := scanCandidates_ok env text husable maxWorkers
    obtain ⟨cs', hcs', hperm'⟩ := scanCandidates_ok env text husable' maxWorkers
    rw [flatMap_filter_of_nil fun cr hcr => ruleMatches_of_not_keep hu hre hbound fun c hc => hguar c (hc ▸ hcr)] at hperm'
    have hsame := resolveConflicts_perm hsort (hperm.trans hperm'.symm)
      (determined_of_distinct hre hids hnull fun m hm => hperm.subset hm)
    refine ⟨resolveConflicts env cs, ?_, ?_⟩
    · rw [hcs', hsame]
      rfl
    · rw [hcs]
      rfl
  · intro hnull
    have hkept : none ∈ rules.filter (keepRule (toLowerUtf8 env.utf8proc text)) :=
      List.mem_filter.mpr ⟨hnull, rfl⟩
    have hunusable : ¬ Usable none := fun ⟨_, _, h, _⟩ => by cases h
    obtain ⟨e, he⟩ := scanCandidates_error env text hkept hunusable maxWorkers
    obtain ⟨e', he'⟩ := scanCandidates_error env text hnull hunusable maxWorkers
    exact ⟨⟨e, by rw [he]; rfl⟩, e', by rw [he']; rfl⟩

end Filter

/-! ## Rules with keywords -/

/-- The regexes `key` and `door` match themselves. -/
def keySpelling : Spelling := fun re w => if (re = ascii "key" ∨ re = ascii "door") ∧ w = re then some w else none

def keyRule : CompiledRule :=
  { sampleCompiled "key" "key" "KEY" with prefilterEligible := true, prefilterKeywords := [ascii "key"] }

def doorRule : CompiledRule :=
  { sampleCompiled "door" "door" "DOOR" with prefilterEligible := true, prefilterKeywords := [ascii "door"] }

theorem keySpelling_eq_some {re w captured : Bytes} (h : keySpelling re w = some captured) :
    (re = ascii "key" ∨ re = ascii "door") ∧ w = re ∧ captured = w := by
  unfold keySpelling at h
  split at h
  · rename_i hkey
    exact ⟨hkey.1, hkey.2, (Option.some.inj h).symm⟩
  · cases h

theorem keySpelling_captures : Captures keySpelling := by
  intro re w captured h
  rw [(keySpelling_eq_some h).2.2]

theorem slice_of_match {re text : Bytes} {pos : Nat} {g : Submatches}
    (h : (sampleEnv keySpelling).re2.search re text pos = some g) :
    (re = ascii "key" ∨ re = ascii "door") ∧ slice text g.whole.1 g.whole.2 = re :=
  let ⟨_, _, _, _, _, hspell, _⟩ := sampleSearch_some h
  ⟨(keySpelling_eq_some hspell).1, (keySpelling_eq_some hspell).2.1⟩

theorem boundaries_of_slice {text : Bytes} {i j : Nat} (hle : i < j) (hj : j ≤ text.length)
    (hascii : ∀ b ∈ slice text i j, b.toNat < 0x80) : Boundary text i ∧ Boundary text j := by
  have hget : ∀ k, i ≤ k → (hk : k < j) → ∃ b, text[k]? = some b ∧ b.toNat < 0x80 := by
    intro k hik hk
    refine ⟨text[k], List.getElem?_eq_getElem (by omega), hascii _ (List.mem_iff_getElem?.mpr ⟨k - i, ?_⟩)⟩
    rw [slice, List.getElem?_take, List.getElem?_drop, if_pos (by omega), Nat.add_sub_cancel' hik]
    exact List.getElem?_eq_getElem (by omega)
  obtain ⟨first, hfirst, hlow⟩ := hget i (Nat.le_refl i) hle
  obtain ⟨last, hlast, hlow'⟩ := hget (j - 1) (by omega) (by omega)
  have hend := Boundary.after_ascii hlast hlow'
  rw [Nat.sub_add_cancel (by omega)] at hend
  exact ⟨.of_ascii hfirst hlow, hend⟩

theorem keySpelling_atBoundaries : AtBoundaries (sampleEnv keySpelling).re2 := by
  intro re text pos g _ h
  obtain ⟨-, hle, hlen, -⟩ := sampleSearch_some h
  obtain ⟨hre, hslice⟩ := slice_of_match h
  have hword : (∀ b ∈ re, b.toNat < 0x80) ∧ 0 < re.length := by
    rcases hre with rfl | rfl <;> decide
  refine boundaries_of_slice ?_ hlen (hslice ▸ hword.1)
  have := congrArg List.length hslice
  rw [Splice.slice_length text _ _ hlen] at this
  omega

/-- The text shows the keyword of one rule only, and the other is not even tried. -/
theorem prefilter_invisible_sample :
    (filterByKeywords (sampleEnv keySpelling) (ascii "a key b") [some doorRule, some keyRule]).map
        (fun cr => cr.map fun c => c.rule.id) = [some (ascii "key")] ∧
      ∃ ms, scanRules (sampleEnv keySpelling) (ascii "a key b") [some doorRule, some keyRule] ⟨true, 2⟩ = .ok ms ∧
        scanRules (sampleEnv keySpelling) (ascii "a key b") [some doorRule, some keyRule] ⟨false, 2⟩ = .ok ms := by
  have hrules : ∀ cr, some cr ∈ [some doorRule, some keyRule] → cr = doorRule ∨ cr = keyRule := by simp
  refine ⟨by decide, (prefilter_invisible (sampleEnv keySpelling) sampleUtf8proc_spec sampleSort_spec
    (sampleRe2_inText keySpelling_captures) keySpelling_atBoundaries (ascii "a key b") [some doorRule, some keyRule]
    ?_ ?_ ?_ 2).1 (by simp)⟩
  · intro a b ha hb hid
    have hne : doorRule.rule.id ≠ keyRule.rule.id := by decide
    rcases hrules a ha with rfl | rfl <;> rcases hrules b hb with rfl | rfl
    · rfl
    · exact absurd hid hne
    · exact absurd hid.symm hne
    · rfl
  · intro cr hcr
    rcases hrules cr hcr with rfl | rfl <;> rfl
  · intro cr hcr _ re pos g hre h
    rw [(slice_of_match h).2]
    rcases hrules cr hcr with rfl | rfl
    · obtain rfl := Option.some.inj hre
      exact ⟨ascii "door", by decide, by decide, by decide⟩
    · obtain rfl := Option.some.inj hre
      exact ⟨ascii "key", by decide, by decide, by decide⟩

end LlmGuard
