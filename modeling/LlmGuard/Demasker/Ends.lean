import LlmGuard.Demasker.Arguments
import LlmGuard.Demasker.LookAlikes
import LlmGuard.Demasker.Recogniser
import LlmGuard.Demasker.Replacer

/-!
# What demasking leaves at the ends of a text

Placeholders and their spellings stand between angle brackets, and nothing empty was masked. So a rewriting step keeps
what stands before the first bracket, keeps a last byte that closes none, and never takes everything away.
-/

namespace LlmGuard

open Streaming (Rewriter)

/-- A rewriting of texts that leaves their ends. -/
structure KeepsEnds (f : Bytes → Bytes) : Prop where
  nonempty : ∀ s, s ≠ [] → f s ≠ []
  front : ∀ p s, ch '<' ∉ p → p <+: f (p ++ s)
  last : ∀ s b, s.getLast? = some b → b ≠ ch '>' → (f s).getLast? = some b

theorem keepsEnds_id : KeepsEnds id where
  nonempty _ h := h
  front _ _ _ := List.prefix_append _ _
  last _ _ h _ := h

theorem KeepsEnds.comp {f g : Bytes → Bytes} (hg : KeepsEnds g) (hf : KeepsEnds f) : KeepsEnds (g ∘ f) where
  nonempty s hs := hg.nonempty _ (hf.nonempty s hs)
  front p s hp := by
    obtain ⟨u, hu⟩ := hf.front p s hp
    rw [Function.comp_apply, ← hu]
    exact hg.front p u hp
  last s b hs hb := hg.last _ _ (hf.last s b hs hb) hb

/-! ## The exact pass -/

/-- What every state says that masking made: nothing empty was masked, and placeholders stand between brackets. -/
structure Angled (reps : List Replacement) : Prop where
  original : ∀ r ∈ reps, r.original ≠ []
  opens : ∀ r ∈ reps, r.placeholder.head? = some (ch '<')
  closes : ∀ r ∈ reps, r.placeholder.getLast? = some (ch '>')

section Exact

variable {reps : List Replacement}

theorem firstAt_mem {s : Bytes} {r : Replacement} (h : firstAt reps s = some r) : r ∈ reps := List.mem_of_find?_eq_some h

theorem replacer_ne_nil (h : Angled reps) {s : Bytes} (hs : s ≠ []) : replacer reps false s ≠ [] := by
  cases s with
  | nil => exact absurd rfl hs
  | cons b t =>
    cases hfirst : firstAt reps (b :: t) with
    | none => simp [replacer_copy hfirst]
    | some r =>
      have horiginal := h.original r (firstAt_mem hfirst)
      simp [replacer_hit hfirst, restored, horiginal]

theorem replacer_cons (h : Angled reps) {b : Byte} (hb : b ≠ ch '<') (s : Bytes) :
    replacer reps false (b :: s) = b :: replacer reps false s := by
  apply replacer_copy
  cases hfirst : firstAt reps (b :: s) with
  | none => rfl
  | some r =>
    have hopens := h.opens r (firstAt_mem hfirst)
    obtain ⟨hpos, hpre⟩ := firstAt_length hfirst
    cases hplace : r.placeholder with
    | nil => simp [hplace] at hpos
    | cons c w =>
      rw [hplace] at hopens hpre
      rw [List.head?_cons, Option.some.injEq] at hopens
      exact absurd ((List.cons_prefix_cons.mp hpre).1.symm.trans hopens) hb

theorem replacer_getLast? (h : Angled reps) {b : Byte} (hb : b ≠ ch '>') {s : Bytes} (hs : s.getLast? = some b) :
    (replacer reps false s).getLast? = some b := by
  induction hn : s.length using Nat.strong_induction_on generalizing s with
  | h n ih =>
    subst hn
    cases s with
    | nil => simp at hs
    | cons c t =>
      cases hfirst : firstAt reps (c :: t) with
      | none =>
        rw [replacer_copy hfirst]
        cases t with
        | nil =>
          rw [replacer]
          exact hs
        | cons d t =>
          rw [List.getLast?_cons_cons] at hs
          have hrest := ih _ (Nat.lt_succ_self _) hs rfl
          rw [List.getLast?_cons, hrest]
          rfl
      | some r =>
        obtain ⟨hpos, u, hu⟩ := firstAt_length hfirst
        have hcloses := h.closes r (firstAt_mem hfirst)
        rw [replacer_hit hfirst, ← hu, List.drop_left]
        rw [← hu] at hs
        cases u with
        | nil =>
          rw [List.append_nil, hcloses] at hs
          exact absurd (Option.some.inj hs).symm hb
        | cons d u =>
          have hshort : (d :: u).length < (c :: t).length := by
            rw [← hu, List.length_append]
            omega
          rw [List.getLast?_append_of_ne_nil _ (List.cons_ne_nil d u)] at hs
          have hrest := ih _ hshort hs rfl
          rw [List.getLast?_append, hrest]
          rfl

theorem keepsEnds_replacer (h : Angled reps) : KeepsEnds (replacer reps false) where
  nonempty _ hs := replacer_ne_nil h hs
  front p s hp := by
    induction p with
    | nil => exact List.nil_prefix
    | cons b p ih =>
      simp only [List.mem_cons, not_or] at hp
      rw [List.cons_append, replacer_cons h (Ne.symm hp.1)]
      exact List.cons_prefix_cons.mpr ⟨rfl, ih hp.2⟩
  last _ _ hs hb := replacer_getLast? h hb hs

end Exact

/-! ## The tolerant pass -/

/-- A replacement of a word between brackets by something. -/
structure AngledSpan (text : Bytes) (r : TextReplacement) : Prop where
  start_lt : r.start < r.stop
  stop_le : r.stop ≤ text.length
  original : r.original ≠ []
  opens : (slice text r.start r.stop).head? = some (ch '<')
  closes : (slice text r.start r.stop).getLast? = some (ch '>')

section Tolerant

variable {text : Bytes}

/-- What the loop adds behind `pos`. -/
structure Added (text : Bytes) (pos : Nat) (u : Bytes) : Prop where
  nonempty : pos < text.length → u ≠ []
  front : ∀ k, pos ≤ k → k ≤ text.length → ch '<' ∉ slice text pos k → slice text pos k <+: u
  last : pos < text.length → ∀ b, text.getLast? = some b → b ≠ ch '>' → u.getLast? = some b

theorem added_tail {pos : Nat} : Added text pos (text.drop pos) where
  nonempty hpos := by simpa using hpos
  front k hle _ _ := List.take_prefix _ _
  last hpos b hb _ := by
    rw [List.getLast?_drop, if_neg (by omega)]
    exact hb

theorem Added.behind {r : TextReplacement} (hr : AngledSpan text r) {pos : Nat} (hpos : pos ≤ r.start) {u : Bytes}
    (h : Added text r.stop u) : Added text pos (slice text pos r.start ++ r.original ++ u) where
  nonempty _ := by simp [hr.original]
  front k hle hk hfree := by
    rcases Nat.lt_or_ge r.start k with hlt | hge
    · -- The bracket at the start of the word is one of these bytes.
      exfalso
      apply hfree
      have hmem : ch '<' ∈ slice text r.start k := by
        have hopens := hr.opens
        rw [slice, List.head?_take, List.head?_drop] at hopens
        rw [slice, show k - r.start = (k - r.start - 1) + 1 by omega]
        split at hopens
        · cases hopens
        · exact List.mem_of_getElem? (i := 0) (by rw [List.getElem?_take_of_lt (by omega)]; simpa using hopens)
      rw [← Splice.slice_append text pos r.start k hpos (by omega)]
      exact List.mem_append_right _ hmem
    · rw [← Splice.slice_append text pos k r.start hle hge, List.append_assoc, List.append_assoc]
      exact List.prefix_append _ _
  last _ b hb hne := by
    have hstop : r.stop < text.length := by
      rcases Nat.lt_or_ge r.stop text.length with hlt | hge
      · exact hlt
      -- A word at the end would close the text.
      have hend : r.stop = text.length := Nat.le_antisymm hr.stop_le hge
      have hcloses := hr.closes
      have htail : slice text r.start r.stop = text.drop r.start := by
        rw [slice, hend, List.take_of_length_le (by simp)]
      rw [htail, List.getLast?_drop, if_neg (by have := hr.start_lt; omega), hb] at hcloses
      exact absurd (Option.some.inj hcloses) hne
    rw [List.getLast?_append, h.last hstop b hb hne]
    rfl

theorem spliceLoop_added {reps : List TextReplacement} (hreps : ∀ r ∈ reps, AngledSpan text r) (pos : Nat) (out : Bytes)
    (hpos : pos ≤ text.length) : ∃ u, spliceLoop text reps pos out = .ok (out ++ u) ∧ Added text pos u := by
  induction reps generalizing pos out with
  | nil => exact ⟨text.drop pos, by rw [spliceLoop, substr_tail text pos hpos]; rfl, added_tail⟩
  | cons r reps ih =>
    obtain ⟨hr, hrest⟩ := List.forall_mem_cons.mp hreps
    unfold spliceLoop
    split
    · exact ih hrest pos out hpos
    · rename_i hle
      obtain ⟨u, hloop, hadded⟩ := ih hrest r.stop (out ++ slice text pos r.start ++ r.original) hr.stop_le
      refine ⟨slice text pos r.start ++ r.original ++ u, ?_, hadded.behind hr (Nat.not_lt.mp hle)⟩
      rw [substr_gap text pos r.start (Nat.not_lt.mp hle) (by have := hr.start_lt; have := hr.stop_le; omega)]
      simp only [bind, Except.bind, hloop]
      simp only [List.append_assoc]

theorem added_zero {u : Bytes} (h : Added text 0 u) : (text ≠ [] → u ≠ []) ∧
    (∀ p s, text = p ++ s → ch '<' ∉ p → p <+: u) ∧
    ∀ b, text.getLast? = some b → b ≠ ch '>' → u.getLast? = some b := by
  refine ⟨fun hne => h.nonempty (List.length_pos_iff.mpr hne), ?_, fun b hb => ?_⟩
  · rintro p s rfl hp
    have hslice : slice (p ++ s) 0 p.length = p := by simp [slice]
    have hfront := h.front p.length (Nat.zero_le _) (by simp) (by rwa [hslice])
    rwa [hslice] at hfront
  · refine h.last (List.length_pos_iff.mpr ?_) b hb
    rintro rfl
    cases hb

theorem keepsEnds_tolerant {env : Env} {spell : Spelling} {rules : List CompiledRule} {reps : List Replacement}
    {cfg : DemaskConfig} (htables : Tables reps cfg) (hreps : Angled reps)
    (hscan : cfg.scan = some fun text => .ok (scanPlaceholders env rules text)) (hfinds : FindsAll env.re2 spell rules)
    (hangled : ∀ w, Recognised spell rules w → w.head? = some (ch '<') ∧ w.getLast? = some (ch '>')) :
    KeepsEnds (tolerantPass cfg false) := by
  have hpass : ∀ text, ∃ u, tolerantPass cfg false text = u ∧ (text ≠ [] → u ≠ []) ∧
      (∀ p s, text = p ++ s → ch '<' ∉ p → p <+: u) ∧
      ∀ b, text.getLast? = some b → b ≠ ch '>' → u.getLast? = some b := by
    intro text
    have hsame : ∃ u, text = u ∧ (text ≠ [] → u ≠ []) ∧ (∀ p s, text = p ++ s → ch '<' ∉ p → p <+: u) ∧
        ∀ b, text.getLast? = some b → b ≠ ch '>' → u.getLast? = some b :=
      ⟨text, rfl, id, fun p s hp _ => hp ▸ List.prefix_append _ _, fun _ hb _ => hb⟩
    have hin := scanPlaceholders_inRange hfinds text
    have hspans : ∀ r ∈ (scanPlaceholders env rules text).filterMap fun m =>
        (cfg.lookup m.placeholder false).map fun o => (⟨m.start, m.stop, o⟩ : TextReplacement), AngledSpan text r := by
      intro r hr
      obtain ⟨m, hm, hr⟩ := List.mem_filterMap.mp hr
      obtain ⟨o, ho, rfl⟩ := Option.map_eq_some_iff.mp hr
      obtain ⟨cr, hcr, hread⟩ := scanPlaceholders_reads hfinds hm
      have hword : Recognised spell rules (slice text m.start m.stop) := by
        refine ⟨cr, hcr, ?_⟩
        unfold readPlaceholder at hread
        obtain ⟨n, hn, -⟩ := Option.map_eq_some_iff.mp hread
        obtain ⟨digits, hdigits, -⟩ := Option.bind_eq_some_iff.mp hn
        rw [hdigits]
        rfl
      refine ⟨(hin m hm).start_lt, (hin m hm).stop_le, ?_, (hangled _ hword).1, (hangled _ hword).2⟩
      rw [htables.lookup] at ho
      unfold exactOriginal at ho
      split at ho
      · cases ho
      · obtain ⟨q, hq, rfl⟩ := Option.map_eq_some_iff.mp ho
        exact hreps.original q (List.mem_of_find?_eq_some hq)
    unfold tolerantPass applyPlaceholderRegex
    simp only [hscan, bind, Except.bind, textReplacements_eq cfg false text _ hin]
    by_cases hnone : (scanPlaceholders env rules text).isEmpty = true
    · simpa only [hnone, if_true] using hsame
    simp only [hnone, Bool.false_eq_true, if_false, applyTextReplacements]
    split
    · rename_i out hout
      split at hout
      · obtain rfl := Except.ok.inj hout
        exact hsame
      · obtain ⟨u, hloop, hadded⟩ := spliceLoop_added (fun r hr => hspans r ((stableSort_perm _ _).subset hr)) 0 []
          (Nat.zero_le _)
        obtain rfl := Except.ok.inj (hloop.symm.trans hout)
        exact ⟨_, rfl, added_zero hadded⟩
    · exact hsame
  refine ⟨fun s hs => ?_, fun p s hp => ?_, fun s b hs hb => ?_⟩
  · obtain ⟨u, rfl, hne, -⟩ := hpass s
    exact hne hs
  · obtain ⟨u, rfl, -, hfront, -⟩ := hpass (p ++ s)
    exact hfront p s rfl hp
  · obtain ⟨u, rfl, -, -, hlast⟩ := hpass s
    exact hlast b hs hb

end Tolerant

/-! ## A rewriting step -/

/-- A snapshot whose recognisers RE2 runs: it was built from rules with ASCII names. -/
structure RunsSnapshot (env : Env) (U : Regexp.Unicode) (reg : Registry) : Prop where
  folds : Regexp.FoldsCases U
  quotes : QuotesAscii env.re2
  built : ∃ rules, Registry.build env rules = .ok reg ∧ (∀ r ∈ rules, ∀ c ∈ r.masking.placeholder, c < 0x80) ∧
    ∀ r ∈ rules, ∃ t, RunsAs U env.re2 (recogniser env.re2 r) t

theorem TemplateWord.angled {fold : Bytes → Bytes → Prop} {name w digits : Bytes} (h : TemplateWord fold name w digits) :
    w.head? = some (ch '<') ∧ w.getLast? = some (ch '>') := by
  cases h
  refine ⟨rfl, ?_⟩
  rw [← List.append_assoc, ← List.append_assoc, ← List.append_assoc, ← List.cons_append]
  exact List.getLast?_concat

section Snapshot

variable {env : Env} {U : Regexp.Unicode} {state : MaskingState} {pinned : Option Registry}
  (hpinned : ∀ reg, pinned = some reg → RunsSnapshot env U reg)

include hpinned

theorem findsAll_pinned : FindsAll env.re2 (treeSpelling U) (pinnedRules state pinned) := by
  cases pinned with
  | none => exact fun cr hcr => absurd hcr List.not_mem_nil
  | some reg =>
    obtain ⟨hU, hquotes, rules, hbuild, hnames, hruns⟩ := hpinned reg rfl
    exact findsAll_of_reads hbuild (readsTemplates_of_runs hU hquotes hnames hruns)

theorem angled_recognised {w : Bytes} (h : Recognised (treeSpelling U) (pinnedRules state pinned) w) :
    w.head? = some (ch '<') ∧ w.getLast? = some (ch '>') := by
  cases pinned with
  | none =>
    obtain ⟨cr, hcr, -⟩ := h
    exact absurd hcr List.not_mem_nil
  | some reg =>
    obtain ⟨hU, hquotes, rules, hbuild, hnames, hruns⟩ := hpinned reg rfl
    obtain ⟨cr, hcr, hword⟩ := h
    obtain ⟨r, hr, hcompile⟩ := rule_of_mem hbuild (mem_of_triggered hcr)
    unfold ruleSpelling at hword
    split at hword
    · cases hword
    · rename_i re hre
      split at hword
      · cases hword
      · obtain ⟨digits, hdigits⟩ := Option.isSome_iff_exists.mp hword
        rw [placeholderRe_of_compiled hcompile hre] at hdigits
        exact ((readsTemplates_of_runs hU hquotes hnames hruns).sound r hr w digits hdigits).angled

/-- Demasking keeps the ends of a text, and never fails. -/
theorem keepsEnds_rewrite (hreps : Angled state.replacements) :
    KeepsEnds ((makeConfig env state pinned).rewriter false).rewrite ∧ NeverFails (makeConfig env state pinned) false := by
  have htables := makeConfig_tables env state pinned
  have hexact : applyExact (makeConfig env state pinned) false = replacer state.replacements false := by
    funext text
    rw [applyExact_eq htables, exactLoop_replacer htables (makeConfig_entryOrder env state pinned)]
  refine ⟨?_, makeConfig_neverFails (findsAll_pinned hpinned)⟩
  have hsecond : KeepsEnds (tolerantPass (makeConfig env state pinned) false) := by
    rcases makeConfig_scan env state pinned with ⟨hscan, -⟩ | hscan
    · have hid : tolerantPass (makeConfig env state pinned) false = id := by
        funext text
        simp [tolerantPass, applyPlaceholderRegex, hscan]
      rw [hid]
      exact keepsEnds_id
    · exact keepsEnds_tolerant htables hreps hscan (findsAll_pinned hpinned) fun w hw => angled_recognised hpinned hw
  have hfirst := keepsEnds_replacer hreps
  rw [← hexact] at hfirst
  exact hsecond.comp hfirst

end Snapshot

end LlmGuard
