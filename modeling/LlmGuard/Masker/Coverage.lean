import LlmGuard.Masker.Proofs
import LlmGuard.Scanner.Conflicts
import LlmGuard.Spec.Sample

/-!
# Which detected bytes are hidden

A chain of candidates becomes one match with the rule of the preferred candidate. Its bytes are hidden when
that rule has a placeholder, whatever the other rules of the chain have.
-/

namespace LlmGuard

open Splice Runs

/-- What the scanned rules find, before overlaps are resolved. -/
def candidates (env : Env) (text : Bytes) (crs : List CompiledRule) (opts : ScanOptions) : List ScanMatch :=
  (activeRules env text (crs.map some) opts).flatMap (ruleMatches env text)

/-- No byte of the candidate is copied to the output. -/
def Hidden (c : Call) (m : ScanMatch) : Prop :=
  ∀ i, m.start ≤ i → i < m.stop → ∃ span ∈ c.spans, span.1 ≤ i ∧ i < span.2

/-! ## A scan is a call of the masker -/

section Chains

variable {cs : List ScanMatch} {rs : List (List ScanMatch)} {text : Bytes} {r : List ScanMatch} {m : ScanMatch}

theorem unionOf_isSpan (h : Chains cs rs) (hin : ∀ m ∈ cs, IsSpan text m) (hr : r ∈ rs) : IsSpan text (unionOf r) := by
  obtain ⟨-, ⟨b, hb, hstop⟩, hall, -⟩ := unionOf_run h hr
  have hspan := hin b ((h.members b).mpr ⟨r, hr, hb⟩)
  have := hspan.nonempty
  have := hall b hb
  exact ⟨by omega, hstop ▸ hspan.inside⟩

theorem unions_call {crs : List CompiledRule} (h : Chains cs rs) (hin : ∀ m ∈ cs, IsSpan text m)
    (hrule : ∀ m ∈ cs, ∃ cr ∈ crs, m.rule = some cr) :
    ∃ c : Call, c.text = text ∧ c.ms = rs.map unionOf ∧ ∀ m ∈ c.ms, ∃ cr ∈ crs, m.rule = some cr := by
  have hrules : ∀ m ∈ rs.map unionOf, ∃ cr ∈ crs, m.rule = some cr := by
    intro m hm
    obtain ⟨r, hr, rfl⟩ := List.mem_map.mp hm
    obtain ⟨-, -, -, first, rest, rfl, hprimary⟩ := unionOf_run h hr
    rw [hprimary]
    exact hrule _ ((h.members _).mpr ⟨_, hr, (primaryOf_spec first rest).1⟩)
  refine ⟨⟨text, rs.map unionOf, ordered_of_pairwise (Nat.zero_le _) ?_ ?_, ?_⟩, rfl, rfl, hrules⟩
  · rw [List.map_map]
    intro p hp
    obtain ⟨r, hr, rfl⟩ := List.mem_map.mp hp
    have hspan := unionOf_isSpan h hin hr
    exact ⟨Nat.zero_le _, Nat.le_of_lt hspan.nonempty, hspan.inside⟩
  · rw [List.map_map, List.pairwise_map]
    exact unions_apart h
  · intro m hm
    obtain ⟨cr, -, hcr⟩ := hrules m hm
    rw [hcr]
    rfl

/-! ## The bytes of one chain -/

theorem requestOf_isSome (hspan : IsSpan text m) : (requestOf text m).isSome ↔ HasPlaceholder m := by
  have hne : slice text m.start m.stop ≠ [] := by
    rw [ne_eq, slice_eq_nil text _ _ hspan.inside, Nat.not_le]
    exact hspan.nonempty
  unfold requestOf HasPlaceholder
  cases m.rule with
  | none => simp
  | some cr => simp [hne]

theorem mem_spans {c : Call} (hspan : ∀ m ∈ c.ms, IsSpan c.text m) {span : Span} :
    span ∈ c.spans ↔ ∃ m ∈ c.ms, HasPlaceholder m ∧ m.span = span := by
  unfold Call.spans replacedMatches
  rw [List.mem_map]
  refine exists_congr fun m => ?_
  rw [List.mem_filter, and_assoc]
  exact and_congr_right fun hm => and_congr_left fun _ => requestOf_isSome (hspan m hm)

theorem hidden_iff {c : Call} (h : Chains cs rs) (hin : ∀ m ∈ cs, IsSpan c.text m) (hms : c.ms = rs.map unionOf)
    (hr : r ∈ rs) (hm : m ∈ r) : Hidden c m ↔ HasPlaceholder (unionOf r) := by
  have hspan : ∀ u ∈ c.ms, IsSpan c.text u := by
    intro u hu
    rw [hms] at hu
    obtain ⟨s, hs, rfl⟩ := List.mem_map.mp hu
    exact unionOf_isSpan h hin hs
  obtain ⟨-, -, hall, -⟩ := unionOf_run h hr
  have hcover := hall m hm
  have hnonempty := (hin m ((h.members m).mpr ⟨r, hr, hm⟩)).nonempty
  constructor
  · intro hhidden
    obtain ⟨span, hmem, hle, hlt⟩ := hhidden m.start (Nat.le_refl _) hnonempty
    obtain ⟨u, hu, hplaceholder, rfl⟩ := (mem_spans hspan).mp hmem
    rw [hms] at hu
    obtain ⟨s, hs, rfl⟩ := List.mem_map.mp hu
    -- Two unions that hold the same byte are the same.
    let Apart (r s : List ScanMatch) : Prop :=
      (unionOf r).stop ≤ (unionOf s).start ∨ (unionOf s).stop ≤ (unionOf r).start
    have : Std.Symm Apart := ⟨fun _ _ => Or.symm⟩
    by_cases hrs : r = s
    · rwa [hrs]
    · have := ((unions_apart h).imp Or.inl : rs.Pairwise Apart).forall hr hs hrs
      simp only [ScanMatch.span] at hle hlt
      omega
  · intro hplaceholder i hle hlt
    refine ⟨(unionOf r).span, (mem_spans hspan).mpr ⟨_, hms ▸ List.mem_map_of_mem hr, hplaceholder, rfl⟩, ?_⟩
    simp only [ScanMatch.span]
    omega

end Chains

/-! ## A sort that favours one candidate -/

/-- Like `std::sort`, and `p` comes before what compares equal to it. -/
def favours (p a b : ScanMatch) : Prop := scanMatchLess b a = false ∧ (b = p → a = p ∨ scanMatchLess a b = true)

instance (p : ScanMatch) : DecidableRel (favours p) := fun _ _ => inferInstanceAs (Decidable (_ ∧ _))

def favouringSort (p : ScanMatch) (ms : List ScanMatch) : List ScanMatch := ms.insertionSort (favours p)

theorem favours_total (p a b : ScanMatch) : favours p a b ∨ favours p b a := by
  unfold favours
  rcases scanMatchLess_total a b with h | h <;> grind

theorem favours_trans (p a b c : ScanMatch) (hab : favours p a b) (hbc : favours p b c) : favours p a c := by
  refine ⟨scanMatchLess_trans hab.1 hbc.1, ?_⟩
  rintro rfl
  rcases hbc.2 rfl with rfl | hless
  · exact hab.2 rfl
  · right
    by_contra hcon
    have := scanMatchLess_trans (Bool.eq_false_iff.mpr hcon) hab.1
    rw [hless] at this
    cases this

theorem favouringSort_pairwise (p : ScanMatch) (ms : List ScanMatch) : (favouringSort p ms).Pairwise (favours p) :=
  have : Std.Total (favours p) := ⟨favours_total p⟩
  have : IsTrans ScanMatch (favours p) := ⟨favours_trans p⟩
  List.pairwise_insertionSort _ ms

theorem favouringSort_spec (p : ScanMatch) : SortSpec (favouringSort p) where
  perm ms := List.perm_insertionSort _ ms
  sorted ms := (favouringSort_pairwise p ms).imp fun h => h.1

theorem primaryOf_append_cons {pre post : List ScanMatch} {p first : ScanMatch} {rest : List ScanMatch}
    (hsplit : first :: rest = pre ++ p :: post) (hpre : ∀ a ∈ pre, preferAsPrimary p a = true)
    (hpost : ∀ a ∈ post, preferAsPrimary a p = false) : primaryOf first rest = p := by
  have hkeep : post.foldl (fun primary m => if preferAsPrimary m primary then m else primary) p = p := by
    clear hsplit
    induction post with
    | nil => rfl
    | cons a post ih =>
      rw [List.foldl_cons, hpost a (by simp)]
      exact ih fun b hb => hpost b (List.mem_cons_of_mem _ hb)
  cases pre with
  | nil =>
    obtain ⟨rfl, rfl⟩ := List.cons.inj hsplit
    exact hkeep
  | cons a pre =>
    rw [List.cons_append] at hsplit
    obtain ⟨rfl, rfl⟩ := List.cons.inj hsplit
    have hpref := hpre _ (primaryOf_spec first pre).1
    unfold primaryOf at hpref ⊢
    rw [List.foldl_append, List.foldl_cons, hpref]
    exact hkeep

/-- With the sort that favours it, a preferred candidate gives its chain the rule. -/
theorem primaryOf_favoured {cs : List ScanMatch} {p first : ScanMatch} {rest : List ScanMatch}
    (hmem : p ∈ first :: rest) (hbest : ∀ m ∈ first :: rest, preferAsPrimary m p = false)
    (hsub : (first :: rest).Sublist (favouringSort p cs)) : primaryOf first rest = p := by
  obtain ⟨pre, post, hsplit, hnot⟩ := List.eq_append_cons_of_mem hmem
  refine primaryOf_append_cons hsplit ?_ fun a ha => hbest a (by rw [hsplit]; simp [ha])
  intro a ha
  have hfav : favours p a p := by
    have := (favouringSort_pairwise p cs).sublist hsub
    rw [hsplit] at this
    exact (List.pairwise_append.mp this).2.2 a ha p (by simp)
  have hworse := hbest a (by rw [hsplit]; simp [ha])
  rcases hfav.2 rfl with rfl | hless
  · exact absurd ha hnot
  · -- Neither is preferred only when they agree in what is sorted by.
    by_contra hcon
    have htied : scanMatchLess a p = false := by
      rw [scanMatchLess_eq_false]
      rcases (preferAsPrimary_eq_false p a).mp (Bool.eq_false_iff.mpr hcon) with h | ⟨h, h' | ⟨h', h''⟩⟩ <;>
        rcases (preferAsPrimary_eq_false a p).mp hworse with k | ⟨k, k' | ⟨k', k''⟩⟩
      all_goals first | omega | exact .inr ⟨by omega, .inr ⟨by omega, k''⟩⟩
    rw [htied] at hless
    cases hless

/-! ## What is hidden whatever the sort does -/

section Scan

variable {env : Env} {text : Bytes} {crs : List CompiledRule} {opts : ScanOptions}

theorem scanLoop_sort (sort : List ScanMatch → List ScanMatch) (cr : CompiledRule) (re : Regex) (fuel pos : Nat)
    (prev : Option Nat) :
    scanLoop { env with sortMatches := sort } text cr re fuel pos prev = scanLoop env text cr re fuel pos prev := by
  induction fuel generalizing pos prev with
  | zero => rfl
  | succ fuel ih =>
    unfold scanLoop
    simp only [ih]
    rfl

theorem candidates_sort (sort : List ScanMatch → List ScanMatch) :
    candidates { env with sortMatches := sort } text crs opts = candidates env text crs opts := by
  refine List.flatMap_congr fun cr _ => ?_
  unfold ruleMatches
  simp only [scanLoop_sort]

theorem mem_active {cr : Option CompiledRule} (h : cr ∈ activeRules env text (crs.map some) opts) :
    ∃ c ∈ crs, cr = some c := by
  have hmem : cr ∈ crs.map some := by
    unfold activeRules filterByKeywords at h
    split at h
    · exact (List.mem_filter.mp h).1
    · exact h
  obtain ⟨c, hc, rfl⟩ := List.mem_map.mp hmem
  exact ⟨c, hc, rfl⟩

theorem candidates_spec (hre : InText env.re2) {m : ScanMatch} (h : m ∈ candidates env text crs opts) :
    IsSpan text m ∧ ∃ cr ∈ crs, m.rule = some cr := by
  obtain ⟨cr, hcr, hm⟩ := List.mem_flatMap.mp h
  obtain ⟨hrule, hspan⟩ := mem_ruleMatches hre hm
  obtain ⟨c, hc, rfl⟩ := mem_active hcr
  exact ⟨hspan, c, hc, hrule⟩

theorem Chains.perm {cs cs' : List ScanMatch} {rs : List (List ScanMatch)} (h : Chains cs rs) (hperm : cs.Perm cs') :
    Chains cs' rs where
  nonempty := h.nonempty
  sorted := h.sorted
  members m := hperm.symm.mem_iff.trans (h.members m)
  chain r hr a ha b := (h.chain r hr a ha b).trans
    (and_congr hperm.mem_iff ⟨Runs.Linked.mono hperm.subset, Runs.Linked.mono hperm.symm.subset⟩)
  apart := h.apart

theorem scanRules_chains (env : Env) (hre : InText env.re2) (hsort : SortSpec env.sortMatches)
    (hcompiled : ∀ cr ∈ crs, cr.re.isSome) (text : Bytes) (opts : ScanOptions) :
    ∃ rs, scanRules env text (crs.map some) opts = .ok (rs.map unionOf) ∧ Chains (candidates env text crs opts) rs ∧
      ∃ cs, ∀ r ∈ rs, r.Sublist (env.sortMatches cs) := by
  have husable : ∀ cr ∈ activeRules env text (crs.map some) opts, Usable cr := by
    intro cr hcr
    obtain ⟨c, hc, rfl⟩ := mem_active hcr
    obtain ⟨re, hre⟩ := Option.isSome_iff_exists.mp (hcompiled c hc)
    exact ⟨c, re, rfl, hre⟩
  obtain ⟨cs, hcs, hperm⟩ := scanCandidates_ok env text husable opts.maxWorkers
  obtain ⟨rs, hrs, hchains, hsub⟩ := resolveConflicts_spec hsort
    fun m hm => (candidates_spec hre (hperm.subset hm)).1.nonempty
  refine ⟨rs, ?_, hchains.perm hperm, cs, hsub⟩
  rw [scanRules_eq, hcs, ← hrs]
  rfl

theorem scanRules_call (env : Env) (hre : InText env.re2) (hsort : SortSpec env.sortMatches)
    (hcompiled : ∀ cr ∈ crs, cr.re.isSome) (text : Bytes) (opts : ScanOptions) :
    ∃ c : Call, c.text = text ∧ scanRules env text (crs.map some) opts = .ok c.ms ∧
      ∀ m ∈ c.ms, ∃ cr ∈ crs, m.rule = some cr := by
  obtain ⟨rs, hscan, hchains, -⟩ := scanRules_chains env hre hsort hcompiled text opts
  obtain ⟨c, htext, hms, hrules⟩ := unions_call hchains (fun m hm => (candidates_spec hre hm).1)
    fun m hm => (candidates_spec hre hm).2
  exact ⟨c, htext, hms ▸ hscan, hrules⟩

theorem spans_length (c : Call) : c.spans.length = c.requests.length := by
  unfold Call.spans replacedMatches Call.requests requests
  rw [List.length_map, List.length_filterMap_eq_countP, List.countP_eq_length_filter]

theorem re_of_compiled {rules : List Rule} (h : List.Forall₂ (fun r cr => compileRule env r = .ok cr) rules crs) :
    ∀ cr ∈ crs, cr.re.isSome := by
  induction h with
  | nil => simp
  | cons hcr _ ih =>
    simp only [List.mem_cons, forall_eq_or_imp]
    exact ⟨by rw [(compileRule_ok hcr).2.1]; rfl, ih⟩

/-- Every byte of every candidate with a placeholder is hidden, in whatever order `std::sort` leaves equal
candidates, exactly when every candidate that a chain with one of them may prefer has a placeholder. -/
theorem detected_hidden_iff (env : Env) (hre : InText env.re2) {rules : List Rule} {crs : List CompiledRule}
    (hcompiled : List.Forall₂ (fun r cr => compileRule env r = .ok cr) rules crs) (text : Bytes)
    (opts : ScanOptions) :
    (∀ sort, SortSpec sort → ∃ c : Call, c.text = text ∧
      scanRules { env with sortMatches := sort } text (crs.map some) opts = .ok c.ms ∧
      (∀ st : MaskerState, ∃ placeholders st', placeholders.length = c.spans.length ∧
        st.maskText text c.ms = .ok (weave c.gaps placeholders, st')) ∧
      ∀ m ∈ candidates env text crs opts, HasPlaceholder m → Hidden c m) ↔
    ∀ m ∈ candidates env text crs opts, HasPlaceholder m → ∀ p ∈ candidates env text crs opts,
      Linked (candidates env text crs opts) m p → Preferred (candidates env text crs opts) p → HasPlaceholder p := by
  have hres := re_of_compiled hcompiled
  have hspan : ∀ m ∈ candidates env text crs opts, IsSpan text m := fun m hm => (candidates_spec hre hm).1
  constructor
  · intro h m hm hplaceholder p hp hlink hpref
    obtain ⟨c, rfl, hscan, -, hhidden⟩ := h _ (favouringSort_spec p)
    obtain ⟨rs, hscan', hchains, cs, hsub⟩ := scanRules_chains { env with sortMatches := favouringSort p } hre
      (favouringSort_spec p) hres c.text opts
    rw [candidates_sort] at hchains
    have hms : c.ms = rs.map unionOf := Except.ok.inj (hscan.symm.trans hscan')
    obtain ⟨r, hr, hmr⟩ := (hchains.members m).mp hm
    have hpr : p ∈ r := (hchains.chain r hr m hmr p).mpr ⟨hp, hlink⟩
    obtain ⟨-, -, -, first, rest, rfl, hprimary⟩ := unionOf_run hchains hr
    have hfavoured : primaryOf first rest = p := primaryOf_favoured hpr
      (fun b hb => hpref b ((hchains.chain _ hr p hpr b).mp hb).1 ((hchains.chain _ hr p hpr b).mp hb).2) (hsub _ hr)
    obtain ⟨cr, hrule, hne⟩ := (hidden_iff hchains hspan hms hr hmr).mp (hhidden m hm hplaceholder)
    exact ⟨cr, by rw [← hrule, hprimary, hfavoured], hne⟩
  · intro h sort hsort
    obtain ⟨rs, hscan, hchains, -⟩ := scanRules_chains { env with sortMatches := sort } hre hsort hres text opts
    rw [candidates_sort] at hchains
    obtain ⟨c, rfl, hms, -⟩ := unions_call hchains hspan fun m hm => (candidates_spec hre hm).2
    refine ⟨c, rfl, hms ▸ hscan, ?_, ?_⟩
    · intro st
      obtain ⟨placeholders, st', hserve, hmask⟩ := maskText_spec st c
      exact ⟨placeholders, st', by rw [hserve.length, spans_length], hmask⟩
    · intro m hm hplaceholder
      obtain ⟨r, hr, hmr⟩ := (hchains.members m).mp hm
      obtain ⟨p, hp, hlink, hpref, hrule⟩ := exists_preferred hchains hr hmr
      obtain ⟨cr, hcr, hne⟩ := h m hm hplaceholder p hp hlink hpref
      exact (hidden_iff hchains hspan hms hr hmr).mpr ⟨cr, hrule.trans hcr, hne⟩

end Scan

/-! ## A longer candidate without a placeholder -/

def leakSpelling : Spelling := fun re w =>
  if re = ascii "(?m)key=s3cret" ∧ w = ascii "key=s3cret" ∨ re = ascii "(?m)s3cret" ∧ w = ascii "s3cret" then some w
  else none

def compiledWith (env : Env) (rules : List Rule) : List CompiledRule :=
  rules.filterMap fun r => (compileRule env r).toOption

theorem leakSpelling_captures : Captures leakSpelling := by
  intro re w captured h
  unfold leakSpelling at h
  split at h
  · rw [Option.some.inj h]
  · cases h

/-- Both rules of the chain have a placeholder. -/
theorem detected_hidden_iff_sample :
    let rules := [sampleRule "assignment" "key=s3cret" "KEY", sampleRule "secret" "s3cret" "SECRET"]
    let crs := compiledWith (sampleEnv leakSpelling) rules
    ∀ sort, SortSpec sort → ∃ c : Call, c.text = ascii "key=s3cret" ∧
      scanRules { sampleEnv leakSpelling with sortMatches := sort } (ascii "key=s3cret") (crs.map some) ⟨false, 1⟩ =
        .ok c.ms ∧
      (∀ st : MaskerState, ∃ placeholders st', placeholders.length = c.spans.length ∧
        st.maskText (ascii "key=s3cret") c.ms = .ok (weave c.gaps placeholders, st')) ∧
      ∀ m ∈ candidates (sampleEnv leakSpelling) (ascii "key=s3cret") crs ⟨false, 1⟩, HasPlaceholder m → Hidden c m := by
  intro rules crs
  have hall : ∀ p ∈ candidates (sampleEnv leakSpelling) (ascii "key=s3cret") crs ⟨false, 1⟩, HasPlaceholder p := by
    decide +kernel
  have hcompiled : List.Forall₂ (fun r cr => compileRule (sampleEnv leakSpelling) r = .ok cr) rules crs := by
    decide +kernel
  refine (detected_hidden_iff (sampleEnv leakSpelling) (sampleRe2_inText leakSpelling_captures) hcompiled
    (ascii "key=s3cret") ⟨false, 1⟩).mpr ?_
  exact fun m _ _ p hp _ _ => hall p hp

/-- The assignment is detected and never masked, and its match takes the secret with it. -/
theorem detected_byte_copied :
    ¬ ∀ (env : Env) (rules : List Rule) (crs : List CompiledRule) (text : Bytes) (opts : ScanOptions),
      InText env.re2 → SortSpec env.sortMatches →
      List.Forall₂ (fun r cr => compileRule env r = .ok cr) rules crs →
      ∀ ms, scanRules env text (crs.map some) opts = .ok ms →
      ∀ m ∈ candidates env text crs opts, HasPlaceholder m →
      ∀ i, m.start ≤ i → i < m.stop → ∃ u ∈ replacedMatches text ms, u.start ≤ i ∧ i < u.stop := by
  intro h
  let rules := [sampleRule "assignment" "key=s3cret" "", sampleRule "secret" "s3cret" "SECRET"]
  let crs := compiledWith (sampleEnv leakSpelling) rules
  have hcompiled : List.Forall₂ (fun r cr => compileRule (sampleEnv leakSpelling) r = .ok cr) rules crs := by
    decide +kernel
  have hmatch : ∃ m ∈ candidates (sampleEnv leakSpelling) (ascii "key=s3cret") crs ⟨false, 1⟩,
      HasPlaceholder m ∧ m.start ≤ 4 ∧ 4 < m.stop := by decide +kernel
  have hnone : (scanRules (sampleEnv leakSpelling) (ascii "key=s3cret") (crs.map some) ⟨false, 1⟩).map
      (replacedMatches (ascii "key=s3cret")) = .ok [] := by decide +kernel
  cases hscan : scanRules (sampleEnv leakSpelling) (ascii "key=s3cret") (crs.map some) ⟨false, 1⟩ with
  | error e =>
    rw [hscan] at hnone
    cases hnone
  | ok ms =>
    rw [hscan] at hnone
    obtain ⟨m, hm, hplaceholder, hle, hlt⟩ := hmatch
    obtain ⟨u, hu, -⟩ := h _ rules crs _ _ (sampleRe2_inText leakSpelling_captures) sampleSort_spec hcompiled ms hscan
      m hm hplaceholder 4 hle hlt
    rw [Except.ok.inj hnone] at hu
    cases hu

end LlmGuard
