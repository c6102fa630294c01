import LlmGuard.Scanner.Spec

/-!
# `scan_rules` scans every rule and merges every chain

One spec for the loop over one rule, one for the loops over many, and one for the merge.
-/

namespace LlmGuard

open Runs

/-! ## One rule -/

theorem firstGroup_spec {g : Submatches} {n : Nat} {groups : List Int} {span : Span}
    (h : firstGroup g n groups = some span) : span.1 < span.2 ∧ ∃ i, g.get i = some span := by
  induction groups with
  | nil => cases h
  | cons group rest ih =>
    unfold firstGroup at h
    split at h
    · exact ih h
    · split at h
      · exact ih h
      · rename_i i j hget
        split at h
        · exact ih h
        · obtain rfl := Option.some.inj h
          exact ⟨by dsimp only; omega, _, hget⟩

theorem sensitiveSpan_spec {g : Submatches} {n : Nat} {rule : Rule} {span : Span}
    (h : sensitiveSpan g n rule = some span) : span.1 < span.2 ∧ ∃ i, g.get i = some span := by
  unfold sensitiveSpan at h
  split at h
  · split at h
    · rename_i hlt
      obtain rfl := Option.some.inj h
      exact ⟨hlt, 0, rfl⟩
    · cases h
  · exact firstGroup_spec h

theorem get_inText {re2 : Re2} (hre : InText re2) {re : Regex} {text : Bytes} {pos : Nat} {g : Submatches}
    (h : re2.search re text pos = some g) {i : Nat} {span : Span} (hget : g.get i = some span) :
    span.2 ≤ text.length := by
  unfold Submatches.get at hget
  split at hget
  · obtain rfl := Option.some.inj hget
    exact (hre.whole re text pos g h).2.2
  · exact hre.groups re text pos g span h (List.mem_of_getElem? (Option.join_eq_some_iff.mp hget))

/-- A candidate of the text. -/
structure IsSpan (text : Bytes) (m : ScanMatch) : Prop where
  nonempty : m.start < m.stop
  inside : m.stop ≤ text.length

theorem scanLoop_mem {env : Env} (hre : InText env.re2) {text : Bytes} {cr : CompiledRule} {re : Regex}
    {fuel pos : Nat} {prev : Option Nat} {m : ScanMatch} (h : m ∈ scanLoop env text cr re fuel pos prev) :
    m.rule = some cr ∧ IsSpan text m := by
  induction fuel generalizing pos prev with
  | zero => cases h
  | succ fuel ih =>
    unfold scanLoop at h
    split at h
    · cases h
    · split at h
      · cases h
      · rename_i g hg
        simp only at h
        split at h
        · exact ih h
        · split at h
          · exact ih h
          · rename_i span hspan
            split at h
            · rcases List.mem_cons.mp h with rfl | h
              · obtain ⟨hlt, i, hget⟩ := sensitiveSpan_spec hspan
                exact ⟨rfl, hlt, get_inText hre hg hget⟩
              · exact ih h
            · exact ih h

/-- Every round goes forward, so more fuel finds nothing more. -/
theorem scanLoop_fuel {env : Env} (hre : InText env.re2) {text : Bytes} {cr : CompiledRule} {re : Regex}
    (fuel extra pos : Nat) (prev : Option Nat) (hfuel : text.length + 2 ≤ fuel + pos) :
    scanLoop env text cr re (fuel + extra) pos prev = scanLoop env text cr re fuel pos prev := by
  induction fuel generalizing pos prev with
  | zero =>
    cases extra with
    | zero => rfl
    | succ extra =>
      have hend : text.length < pos := by omega
      simp only [scanLoop, if_pos hend]
  | succ fuel ih =>
    rw [Nat.succ_add_eq_add_succ, Nat.add_succ]
    unfold scanLoop
    split
    · rfl
    · split
      · rfl
      · rename_i g hg
        obtain ⟨hpos, hle, -⟩ := hre.whole re text pos g hg
        simp only
        generalize (if g.whole.1 < text.length then (decodeUtf8 text g.whole.1).2 else 0) = width
        generalize hnext : (if g.whole.2 = g.whole.1 then
          (if 0 < width then g.whole.1 + width else text.length + 1) else g.whole.2) = next
        have hlt : pos < next := by
          rw [← hnext]
          split
          · split <;> omega
          · omega
        rw [ih next _ (by omega)]

theorem mem_ruleMatches {env : Env} (hre : InText env.re2) {text : Bytes} {cr : Option CompiledRule} {m : ScanMatch}
    (h : m ∈ ruleMatches env text cr) : m.rule = cr ∧ IsSpan text m := by
  unfold ruleMatches at h
  split at h
  · cases h
  · rename_i c re hcr
    obtain ⟨c', rfl, hmap⟩ := Option.bind_eq_some_iff.mp hcr
    obtain ⟨re', -, heq⟩ := Option.map_eq_some_iff.mp hmap
    obtain ⟨rfl, rfl⟩ := Prod.mk.inj heq
    split at h
    · cases h
    · exact scanLoop_mem hre h

/-! ## Many rules -/

section Many

variable {env : Env} {text : Bytes} {rules : List (Option CompiledRule)}

theorem scanOneRule_ok {cr : Option CompiledRule} (h : Usable cr) :
    scanOneRule env text cr = .ok (ruleMatches env text cr) := by
  obtain ⟨c, re, rfl, hre⟩ := h
  unfold scanOneRule ruleMatches
  simp only [hre, Option.bind_some, Option.map_some]
  split <;> rfl

theorem scanSerial_ok (h : ∀ cr ∈ rules, Usable cr) :
    scanSerial env text rules = .ok (rules.flatMap (ruleMatches env text)) := by
  induction rules with
  | nil => rfl
  | cons cr rules ih =>
    rw [scanSerial, scanOneRule_ok (h cr (by simp)), ih fun c hc => h c (by simp [hc])]
    rfl

theorem scanOneRule_error {cr : Option CompiledRule} (h : ¬ Usable cr) : ∃ e, scanOneRule env text cr = .error e := by
  cases cr with
  | none => exact ⟨_, rfl⟩
  | some c =>
    have hre : c.re = none := by
      cases hre : c.re with
      | none => rfl
      | some re => exact absurd ⟨c, re, rfl, hre⟩ h
    exact ⟨nullRegexError c.rule.id, by simp [scanOneRule, hre]⟩

theorem scanSerial_error (env : Env) (text : Bytes) {cr : Option CompiledRule} (hcr : cr ∈ rules) (h : ¬ Usable cr) :
    ∃ e, scanSerial env text rules = .error e := by
  induction rules with
  | nil => cases hcr
  | cons c rules ih =>
    rw [scanSerial]
    cases hone : scanOneRule env text c with
    | error e => exact ⟨e, rfl⟩
    | ok ms =>
      rcases List.mem_cons.mp hcr with rfl | hcr
      · obtain ⟨e, he⟩ := scanOneRule_error h
        rw [he] at hone
        cases hone
      · obtain ⟨e, he⟩ := ih hcr
        exact ⟨e, by rw [he]; rfl⟩

theorem collectBuckets_ok {α : Type} (found : α → List ScanMatch) (ws : List α) :
    collectBuckets (ws.map fun w => .ok (found w)) = .ok (ws.flatMap found) := by
  induction ws with
  | nil => rfl
  | cons w ws ih => simp [collectBuckets, ih]

theorem collectBuckets_error {rs : List (Except Error (List ScanMatch))} {e : Error} (h : .error e ∈ rs) :
    ∃ e', collectBuckets rs = .error e' := by
  induction rs with
  | nil => cases h
  | cons r rs ih =>
    cases r with
    | error e' => exact ⟨_, rfl⟩
    | ok ms =>
      obtain ⟨e', he'⟩ := ih (by simpa using h)
      exact ⟨e', by rw [collectBuckets, he']⟩

theorem classes_perm {α : Type} (f : α → Nat) (n : Nat) (l : List α) (h : ∀ x ∈ l, f x < n) :
    ((List.range n).flatMap fun w => l.filter fun x => f x = w).Perm l := by
  induction n generalizing l with
  | zero =>
    cases l with
    | nil => simp
    | cons x l => exact absurd (h x (by simp)) (Nat.not_lt_zero _)
  | succ n ih =>
    rw [List.range_succ, List.flatMap_append, List.flatMap_singleton]
    have hbelow : (List.range n).flatMap (fun w => l.filter fun x => f x = w) =
        (List.range n).flatMap fun w => (l.filter fun x => f x < n).filter fun x => f x = w := by
      refine List.flatMap_congr fun w hw => ?_
      rw [List.filter_filter]
      refine List.filter_congr fun x _ => ?_
      have := List.mem_range.mp hw
      by_cases hx : f x = w
      · simp [hx, this]
      · simp [hx]
    have hlast : l.filter (fun x => f x = n) = l.filter fun x => !decide (f x < n) := by
      refine List.filter_congr fun x hx => ?_
      have := h x hx
      by_cases hx : f x = n
      · simp [hx]
      · simp [hx]; omega
    rw [hbelow, hlast]
    exact ((ih _ (by simp)).append_right _).trans (List.filter_append_perm _ _)

theorem buckets_perm (rules : List (Option CompiledRule)) {n : Nat} (hn : 0 < n) :
    ((List.range n).flatMap (bucket rules n)).Perm rules := by
  have hclasses := (classes_perm (fun p : Option CompiledRule × Nat => p.2 % n) n rules.zipIdx
    fun _ _ => Nat.mod_lt _ hn).map (·.1)
  rw [List.map_flatMap, List.zipIdx_map_fst] at hclasses
  exact hclasses

theorem mem_bucket {cr : Option CompiledRule} {n w : Nat} (h : cr ∈ bucket rules n w) : cr ∈ rules := by
  obtain ⟨⟨cr', i⟩, hp, rfl⟩ := List.mem_map.mp h
  exact List.fst_mem_of_mem_zipIdx (List.mem_filter.mp hp).1

theorem scanParallel_eq (env : Env) (text : Bytes) (maxWorkers : Nat) (hne : rules ≠ []) :
    0 < computeWorkerCount env rules.length maxWorkers ∧
      scanParallel env text rules maxWorkers =
        collectBuckets ((List.range (computeWorkerCount env rules.length maxWorkers)).map fun w =>
          scanSerial env text (bucket rules (computeWorkerCount env rules.length maxWorkers) w)) := by
  have hpos : 0 < computeWorkerCount env rules.length maxWorkers := by
    unfold computeWorkerCount
    have := List.length_pos_iff.mpr hne
    simp only [Nat.lt_min]
    split
    · split <;> omega
    · omega
  refine ⟨hpos, ?_⟩
  unfold scanParallel
  simp only
  rw [if_neg (by omega)]

theorem scanParallel_ok (env : Env) (text : Bytes) (h : ∀ cr ∈ rules, Usable cr) (maxWorkers : Nat) :
    ∃ cs, scanParallel env text rules maxWorkers = .ok cs ∧ cs.Perm (rules.flatMap (ruleMatches env text)) := by
  by_cases hne : rules = []
  · subst hne
    exact ⟨[], by simp [scanParallel, computeWorkerCount], .refl _⟩
  · obtain ⟨hpos, hscan⟩ := scanParallel_eq env text maxWorkers hne
    have hok : ∀ w, scanSerial env text (bucket rules (computeWorkerCount env rules.length maxWorkers) w) =
        .ok ((bucket rules (computeWorkerCount env rules.length maxWorkers) w).flatMap (ruleMatches env text)) :=
      fun w => scanSerial_ok fun cr hcr => h cr (mem_bucket hcr)
    simp only [hok] at hscan
    rw [hscan, collectBuckets_ok]
    refine ⟨_, rfl, ?_⟩
    rw [← List.flatMap_assoc]
    exact (buckets_perm rules hpos).flatMap_right _

theorem scanParallel_error (env : Env) (text : Bytes) {cr : Option CompiledRule} (hcr : cr ∈ rules) (h : ¬ Usable cr)
    (maxWorkers : Nat) : ∃ e, scanParallel env text rules maxWorkers = .error e := by
  obtain ⟨hpos, hscan⟩ := scanParallel_eq env text maxWorkers (List.ne_nil_of_mem hcr)
  obtain ⟨w, hw, hin⟩ := List.mem_flatMap.mp ((buckets_perm rules hpos).mem_iff.mpr hcr)
  obtain ⟨e, he⟩ := scanSerial_error env text hin h
  rw [hscan]
  exact collectBuckets_error (List.mem_map.mpr ⟨w, hw, he⟩)

theorem scanCandidates_ok (env : Env) (text : Bytes) (h : ∀ cr ∈ rules, Usable cr) (maxWorkers : Nat) :
    ∃ cs, scanCandidates env text rules maxWorkers = .ok cs ∧ cs.Perm (rules.flatMap (ruleMatches env text)) := by
  unfold scanCandidates
  split
  · exact ⟨_, scanSerial_ok h, .refl _⟩
  · exact scanParallel_ok env text h maxWorkers

theorem scanCandidates_error (env : Env) (text : Bytes) {cr : Option CompiledRule} (hcr : cr ∈ rules)
    (h : ¬ Usable cr) (maxWorkers : Nat) : ∃ e, scanCandidates env text rules maxWorkers = .error e := by
  unfold scanCandidates
  split
  · exact scanSerial_error env text hcr h
  · exact scanParallel_error env text hcr h maxWorkers

end Many

/-! ## Overlaps -/

theorem scanMatchLess_eq_false (a b : ScanMatch) : scanMatchLess b a = false ↔
    a.start < b.start ∨
      a.start = b.start ∧ (b.length < a.length ∨ a.length = b.length ∧ a.ruleId ≤ b.ruleId) := by
  unfold scanMatchLess
  split
  · simp only [decide_eq_false_iff_not]
    omega
  · split
    · simp only [decide_eq_false_iff_not]
      omega
    · simp only [decide_eq_false_iff_not, List.not_lt]
      constructor
      · exact fun h => .inr ⟨by omega, .inr ⟨by omega, h⟩⟩
      · rintro (h | ⟨-, h | ⟨-, h⟩⟩)
        · omega
        · omega
        · exact h

theorem scanMatchLess_trans {a b c : ScanMatch} (hab : scanMatchLess b a = false) (hbc : scanMatchLess c b = false) :
    scanMatchLess c a = false := by
  rw [scanMatchLess_eq_false] at *
  rcases hab with h | ⟨h, h' | ⟨h', h''⟩⟩ <;> rcases hbc with k | ⟨k, k' | ⟨k', k''⟩⟩
  all_goals first
    | exact .inl (by omega)
    | exact .inr ⟨by omega, .inl (by omega)⟩
    | exact .inr ⟨by omega, .inr ⟨by omega, List.le_trans h'' k''⟩⟩

theorem scanMatchLess_total (a b : ScanMatch) : scanMatchLess b a = false ∨ scanMatchLess a b = false := by
  simp only [scanMatchLess_eq_false]
  rcases List.le_total a.ruleId b.ruleId with h | h <;> grind

theorem preferAsPrimary_iff (a b : ScanMatch) : preferAsPrimary a b = true ↔
    b.length < a.length ∨
      a.length = b.length ∧ (a.start < b.start ∨ a.start = b.start ∧ a.ruleId < b.ruleId) := by
  unfold preferAsPrimary
  split
  · simp only [decide_eq_true_eq]
    omega
  · split
    · simp only [decide_eq_true_eq]
      omega
    · simp only [decide_eq_true_eq]
      grind

theorem preferAsPrimary_eq_false (a b : ScanMatch) : preferAsPrimary a b = false ↔
    a.length < b.length ∨
      a.length = b.length ∧ (b.start < a.start ∨ a.start = b.start ∧ b.ruleId ≤ a.ruleId) := by
  rw [Bool.eq_false_iff, ne_eq, preferAsPrimary_iff, ← List.not_lt]
  constructor
  · intro h
    by_contra hcon
    apply h
    by_cases hlt : a.ruleId < b.ruleId
    · simp only [hlt, not_true, and_true, and_false, or_false] at hcon ⊢
      omega
    · simp only [hlt, not_false_eq_true, and_true, and_false, or_false] at hcon ⊢
      omega
  · rintro (h | ⟨h, h' | ⟨h', h''⟩⟩) (k | ⟨k, k' | ⟨k', k''⟩⟩)
    all_goals first | omega | exact h'' k''

theorem preferAsPrimary_asymm {a b : ScanMatch} (h : preferAsPrimary a b = true) : preferAsPrimary b a = false := by
  rw [preferAsPrimary_eq_false]
  rcases (preferAsPrimary_iff a b).mp h with h | ⟨h, h' | ⟨h', h''⟩⟩
  · exact .inl h
  · exact .inr ⟨h.symm, .inl h'⟩
  · exact .inr ⟨h.symm, .inr ⟨h'.symm, List.le_of_lt h''⟩⟩

theorem preferAsPrimary_trans_false {a b c : ScanMatch} (hab : preferAsPrimary a b = false)
    (hbc : preferAsPrimary b c = false) : preferAsPrimary a c = false := by
  rw [preferAsPrimary_eq_false] at *
  rcases hab with h | ⟨h, h' | ⟨h', h''⟩⟩ <;> rcases hbc with k | ⟨k, k' | ⟨k', k''⟩⟩
  all_goals first
    | exact .inl (by omega)
    | exact .inr ⟨by omega, .inl (by omega)⟩
    | exact .inr ⟨by omega, .inr ⟨by omega, List.le_trans k'' h''⟩⟩

theorem preferAsPrimary_self (m : ScanMatch) : preferAsPrimary m m = false := by
  simp [preferAsPrimary]

theorem primaryOf_spec (first : ScanMatch) (rest : List ScanMatch) :
    primaryOf first rest ∈ first :: rest ∧
      ∀ m ∈ first :: rest, preferAsPrimary m (primaryOf first rest) = false := by
  unfold primaryOf
  induction rest generalizing first with
  | nil => simp [preferAsPrimary_self]
  | cons m rest ih =>
    rw [List.foldl_cons]
    split
    · rename_i hpref
      obtain ⟨hmem, hall⟩ := ih m
      refine ⟨List.mem_cons_of_mem _ hmem, fun m' hm' => ?_⟩
      rcases List.mem_cons.mp hm' with rfl | hm'
      · exact preferAsPrimary_trans_false (preferAsPrimary_asymm hpref) (hall m (by simp))
      · exact hall m' hm'
    · rename_i hpref
      obtain ⟨hmem, hall⟩ := ih first
      refine ⟨?_, fun m' hm' => ?_⟩
      · rcases List.mem_cons.mp hmem with h | h
        · rw [h]
          exact List.mem_cons_self
        · exact List.mem_cons_of_mem _ (List.mem_cons_of_mem _ h)
      · rcases List.mem_cons.mp hm' with rfl | hm'
        · exact hall m' (by simp)
        · rcases List.mem_cons.mp hm' with rfl | hm'
          · exact preferAsPrimary_trans_false (by simpa using hpref) (hall first (by simp))
          · exact hall m' (List.mem_cons_of_mem _ hm')

/-- Where a run ends. -/
def runStop (first : ScanMatch) (rest : List ScanMatch) : Nat :=
  rest.foldl (fun runEnd m => if runEnd < m.stop then m.stop else runEnd) first.stop

/-- The match that a run becomes. -/
def unionOf : List ScanMatch → ScanMatch
  | [] => ⟨0, 0, none⟩
  | first :: rest => coalesceRun first.start (runStop first rest) first rest

theorem runStop_append (first : ScanMatch) (rest : List ScanMatch) (m : ScanMatch) :
    runStop first (rest ++ [m]) = if runStop first rest < m.stop then m.stop else runStop first rest := by
  unfold runStop
  rw [List.foldl_append]
  rfl

theorem runStop_spec (first : ScanMatch) (rest : List ScanMatch) :
    (∀ m ∈ first :: rest, m.stop ≤ runStop first rest) ∧ ∃ m ∈ first :: rest, m.stop = runStop first rest := by
  induction rest using List.reverseRecOn with
  | nil => simp [runStop]
  | append_singleton rest m ih =>
    obtain ⟨hle, m', hm', hend⟩ := ih
    rw [runStop_append, ← List.cons_append]
    constructor
    · intro x hx
      rcases List.mem_append.mp hx with hx | hx
      · have := hle x hx
        split <;> omega
      · rw [List.mem_singleton.mp hx]
        split <;> omega
    · split
      · exact ⟨m, by simp, rfl⟩
      · exact ⟨m', List.mem_append_left _ hm', hend⟩

theorem sweep_eq (first : ScanMatch) (rest ms : List ScanMatch) :
    sweep first rest (runStop first rest) ms =
      (runs ScanMatch.start ScanMatch.stop (first :: rest) (runStop first rest) ms).map unionOf := by
  induction ms generalizing first rest with
  | nil => rfl
  | cons m ms ih =>
    unfold sweep runs
    split
    · rw [← runStop_append, ih, List.cons_append]
    · rw [List.map_cons]
      exact congrArg _ (ih m [])

theorem unionOf_spec {r : List ScanMatch} (hne : r ≠ []) (hstart : r.Pairwise fun a b => a.start ≤ b.start) :
    (∃ a ∈ r, (unionOf r).start = a.start) ∧ (∃ b ∈ r, (unionOf r).stop = b.stop) ∧
      (∀ m ∈ r, (unionOf r).start ≤ m.start ∧ m.stop ≤ (unionOf r).stop) ∧
      ∃ first rest, r = first :: rest ∧ (unionOf r).rule = (primaryOf first rest).rule := by
  obtain ⟨first, rest, rfl⟩ := List.exists_cons_of_ne_nil hne
  have hunion : (unionOf (first :: rest)).start = first.start ∧
      (unionOf (first :: rest)).stop = runStop first rest ∧
      (unionOf (first :: rest)).rule = (primaryOf first rest).rule := by
    cases rest with
    | nil => simp [unionOf, coalesceRun, runStop, primaryOf]
    | cons m rest => simp [unionOf, coalesceRun]
  obtain ⟨hle, b, hb, hend⟩ := runStop_spec first rest
  refine ⟨⟨first, by simp, hunion.1⟩, ⟨b, hb, hunion.2.1.trans hend.symm⟩, ?_, first, rest, rfl, hunion.2.2⟩
  intro m hm
  rw [hunion.1, hunion.2.1]
  refine ⟨?_, hle m hm⟩
  rcases List.mem_cons.mp hm with rfl | hm
  · exact Nat.le_refl _
  · exact (List.pairwise_cons.mp hstart).1 m hm

/-- The chains of the candidates, in the order of the text. -/
structure Chains (cs : List ScanMatch) (rs : List (List ScanMatch)) : Prop where
  nonempty : ∀ r ∈ rs, r ≠ []
  sorted : ∀ r ∈ rs, r.Pairwise fun a b => scanMatchLess b a = false
  members : ∀ m, m ∈ cs ↔ ∃ r ∈ rs, m ∈ r
  chain : ∀ r ∈ rs, ∀ a ∈ r, ∀ b, b ∈ r ↔ b ∈ cs ∧ Linked cs a b
  apart : rs.Pairwise (Before ScanMatch.start ScanMatch.stop)

theorem start_le_of_not_less {a b : ScanMatch} (h : scanMatchLess b a = false) : a.start ≤ b.start := by
  unfold scanMatchLess at h
  split at h
  · simpa using h
  · omega

theorem resolveConflicts_spec {env : Env} (hsort : SortSpec env.sortMatches) {cs : List ScanMatch}
    (hspan : ∀ m ∈ cs, m.start < m.stop) :
    ∃ rs, resolveConflicts env cs = rs.map unionOf ∧ Chains cs rs ∧ ∀ r ∈ rs, r.Sublist (env.sortMatches cs) := by
  unfold resolveConflicts
  split
  · rename_i hlen
    match cs, hlen with
    | [], _ => exact ⟨[], rfl, by constructor <;> simp, by simp⟩
    | [m], _ =>
      refine ⟨[[m]], rfl, ?_, by simp [List.perm_singleton.mp (hsort.perm [m])]⟩
      constructor <;> simp
      exact .refl
  · rename_i hlen
    have hperm := hsort.perm cs
    have hless := hsort.sorted cs
    cases hs : env.sortMatches cs with
    | nil =>
      rw [hs, List.nil_perm] at hperm
      simp [hperm] at hlen
    | cons m ms =>
      rw [hs] at hperm hless
      have hsorted : Sorted ScanMatch.start ScanMatch.stop ([m] ++ ms) :=
        ⟨hless.imp start_le_of_not_less, fun a ha => hspan a (hperm.subset ha)⟩
      have hopen : Open ScanMatch.start ScanMatch.stop [m] m.stop := open_singleton m
      obtain ⟨hopens, hapart⟩ := runs_spec hsorted hopen
      have hflat := flatten_runs ScanMatch.start ScanMatch.stop [m] m.stop ms
      have hsub : ∀ r ∈ runs ScanMatch.start ScanMatch.stop [m] m.stop ms, r.Sublist (m :: ms) := by
        intro r hr
        have := List.sublist_flatten_of_mem hr
        rwa [hflat] at this
      refine ⟨runs ScanMatch.start ScanMatch.stop [m] m.stop ms, sweep_eq m [] ms, ⟨?_, ?_, ?_, ?_, hapart⟩, hsub⟩
      · rintro r hr rfl
        obtain ⟨e, he⟩ := hopens [] hr
        obtain ⟨a, ha, -⟩ := he.reached
        cases ha
      · exact fun r hr => hless.sublist (hsub r hr)
      · intro x
        rw [← hperm.mem_iff, ← List.mem_flatten, hflat]
        rfl
      · intro r hr a ha b
        rw [mem_run_iff hsorted hopen hr ha b]
        have hlink : ∀ {l l' : List ScanMatch}, l.Perm l' → Linked l a b → Linked l' a b := fun hp h =>
          Runs.Linked.mono hp.subset h
        exact and_congr hperm.mem_iff ⟨hlink hperm, hlink hperm.symm⟩

/-! ## `scan_rules` -/

theorem scanRules_eq (env : Env) (text : Bytes) (rules : List (Option CompiledRule)) (opts : ScanOptions) :
    scanRules env text rules opts =
      (do
        let cs ← scanCandidates env text (activeRules env text rules opts) opts.maxWorkers
        .ok (resolveConflicts env cs)) := by
  have hnil : scanCandidates env text [] opts.maxWorkers = .ok [] := by
    simp [scanCandidates, scanSerial]
  unfold scanRules
  split
  · rename_i hempty
    have hactive : activeRules env text rules opts = [] := by
      simp [activeRules, filterByKeywords, List.isEmpty_iff.mp hempty]
    rw [hactive, hnil]
    rfl
  · change (if (activeRules env text rules opts).isEmpty then Except.ok [] else _) = _
    split
    · rename_i hempty
      rw [List.isEmpty_iff.mp hempty, hnil]
      rfl
    · rfl

end LlmGuard
