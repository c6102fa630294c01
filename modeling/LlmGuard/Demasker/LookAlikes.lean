import LlmGuard.Demasker.Chunks
import LlmGuard.Demasker.Literals
import LlmGuard.Demasker.Template
import LlmGuard.Masker.Texts

/-!
# Masking, then demasking with the recognisers

A masked text gives its text back when every look-alike of a placeholder in the text stands for itself. The originals
are parts of the text, so their look-alikes are in it too.
-/

namespace LlmGuard

open Splice Tokens Streaming Fence

/-! ## Look-alikes -/

/-- Some request asked for the rule. -/
def Triggers (reg : Registry) (served : List Request) (cr : CompiledRule) : Prop :=
  cr ∈ reg.rules ∧ ∃ q ∈ served, q.rule.id = cr.rule.id

/-- A triggered rule reads the word as the placeholder. -/
def ReadBySome (spell : Spelling) (reg : Registry) (served : List Request) (w placeholder : Bytes) : Prop :=
  ∃ cr, Triggers reg served cr ∧ readPlaceholder spell w cr = some placeholder

/-- Of the triggered rules that read the word, the one with the smallest id reads it as the placeholder. -/
def ReadByFirst (spell : Spelling) (reg : Registry) (served : List Request) (w placeholder : Bytes) : Prop :=
  ∃ cr, Triggers reg served cr ∧ readPlaceholder spell w cr = some placeholder ∧
    ∀ cr', Triggers reg served cr' → cr'.rule.id < cr.rule.id → readPlaceholder spell w cr' = none

/-- A word of the text is read as the placeholder of this original. -/
def LookAlike (reads : Bytes → Bytes → Prop) (reserved : List Bytes) (served : List Request) (text w original : Bytes) :
    Prop :=
  w <:+: text ∧ ∃ placeholder, reads w placeholder ∧ Minted reserved served placeholder original

def OwnLookAlikes (reads : Bytes → Bytes → Prop) (reserved : List Bytes) (served : List Request) (text : Bytes) : Prop :=
  ∀ w original, LookAlike reads reserved served text w original → original = w

/-- The original of one look-alike is shorter, and that of another one is longer. -/
def MakeUp (reads : Bytes → Bytes → Prop) (reserved : List Bytes) (served : List Request) (text : Bytes) : Prop :=
  (∃ w original, LookAlike reads reserved served text w original ∧ original.length < w.length) ∧
    ∃ w original, LookAlike reads reserved served text w original ∧ w.length < original.length

/-! ## The tolerant pass over the text -/

section Rules

variable {rules : List CompiledRule} {spell : Spelling}

theorem findSome?_inIdOrder (hrules : InIdOrder rules) {α : Type} (f : CompiledRule → Option α) {a : α} :
    rules.findSome? f = some a ↔
      ∃ cr ∈ rules, f cr = some a ∧ ∀ cr' ∈ rules, cr'.rule.id < cr.rule.id → f cr' = none := by
  constructor
  · intro h
    obtain ⟨before, cr, after, rfl, hcr, hnone⟩ := List.findSome?_eq_some_iff.mp h
    refine ⟨cr, by simp, hcr, fun cr' hcr' hlt => ?_⟩
    rcases List.mem_append.mp hcr' with hmem | hmem
    · exact hnone cr' hmem
    · rcases List.mem_cons.mp hmem with rfl | hmem
      · exact absurd hlt (List.lt_irrefl _)
      · have hle := (List.pairwise_cons.mp (List.pairwise_append.mp hrules.sorted).2.1).1 cr' hmem
        exact absurd hlt (List.not_lt.mpr hle)
  · rintro ⟨cr, hcr, ha, hfirst⟩
    have hsome : (rules.findSome? f).isSome := List.findSome?_isSome_iff.mpr ⟨cr, hcr, by rw [ha]; rfl⟩
    obtain ⟨b, hb⟩ := Option.isSome_iff_exists.mp hsome
    obtain ⟨before, cr₁, after, rfl, hcr₁, hnone⟩ := List.findSome?_eq_some_iff.mp hb
    suffices cr = cr₁ by rw [hb, ← hcr₁, ← this, ha]
    rcases List.mem_append.mp hcr with hmem | hmem
    · rw [hnone cr hmem] at ha
      cases ha
    · rcases List.mem_cons.mp hmem with rfl | hmem
      · rfl
      · have hle := (List.pairwise_cons.mp (List.pairwise_append.mp hrules.sorted).2.1).1 cr hmem
        refine (hrules.unique cr₁ (by simp) cr hcr (List.le_antisymm hle (List.not_lt.mp fun hlt => ?_))).symm
        rw [hfirst cr₁ (by simp) hlt] at hcr₁
        cases hcr₁

end Rules

section OneText

variable {env : Env} {spell : Spelling} {state : MaskingState} {reg : Registry} {reserved : List Bytes}
  {served : List Request} {st : MaskerState}

theorem tolerantPass_same {rules : List CompiledRule} {cfg : DemaskConfig} {reps : List Replacement}
    (htables : Tables reps cfg) (hscan : cfg.scan = some fun text => .ok (scanPlaceholders env rules text))
    (hfinds : FindsAll env.re2 spell rules) {text : Bytes}
    (hown : ∀ w, w <:+: text → ∀ cr ∈ rules, ∀ p, readPlaceholder spell w cr = some p →
      ∀ o, exactOriginal reps false p = some o → o = w) : tolerantPass cfg false text = text := by
  have hin := scanPlaceholders_inRange hfinds text
  have hsame : applyTextReplacements text ((scanPlaceholders env rules text).filterMap fun m =>
      (cfg.lookup m.placeholder false).map fun o => ⟨m.start, m.stop, o⟩) = .ok text := by
    unfold applyTextReplacements
    split
    · rfl
    · refine spliceLoop_same text _ 0 (Nat.zero_le _) fun r hr => ?_
      obtain ⟨m, hm, hr'⟩ := List.mem_filterMap.mp ((stableSort_perm _ _).subset hr)
      obtain ⟨o, ho, rfl⟩ := Option.map_eq_some_iff.mp hr'
      obtain ⟨cr, hcr, hread⟩ := scanPlaceholders_reads hfinds hm
      rw [htables.lookup] at ho
      exact ⟨(hin m hm).start_lt.le, (hin m hm).stop_le, hown _ (slice_inside text _ _) cr hcr _ hread o ho⟩
  unfold tolerantPass applyPlaceholderRegex
  simp only [hscan, bind, Except.bind]
  split
  · rename_i out hout
    split at hout
    · exact (Except.ok.inj hout).symm
    · rw [textReplacements_eq cfg false text _ hin] at hout
      simp only [hsame] at hout
      exact (Except.ok.inj hout).symm
  · rfl

theorem exactOriginal_iff_minted (h : TableInv reserved served st) {p o : Bytes} :
    exactOriginal st.replacements false p = some o ↔ Minted reserved served p o := by
  rw [h.minted_iff]
  constructor
  · intro ho
    obtain ⟨r, hr, rfl⟩ := exactOriginal_isSome (Option.isSome_of_eq_some ho)
    rw [exactOriginal_of_mem h.placeholders hr (h.placeholder_ne_nil r hr)] at ho
    exact ⟨r, hr, rfl, Option.some.inj ho⟩
  · rintro ⟨r, hr, rfl, rfl⟩
    exact exactOriginal_of_mem h.placeholders hr (h.placeholder_ne_nil r hr)

theorem triggers_iff (hg : TriggerInv served st) (hids : state.triggeredRuleIds = st.triggeredRules)
    {cr : CompiledRule} : cr ∈ triggeredRules state reg ↔ Triggers reg served cr := by
  have hexact : ∀ id, id ∈ state.triggeredRuleIds ↔ ∃ q ∈ served, q.rule.id = id := by
    intro id
    rw [hids]
    exact hg.rules_exact id
  unfold triggeredRules
  rw [List.mem_filterMap]
  constructor
  · rintro ⟨id, hid, hcr⟩
    obtain ⟨hmem, rfl⟩ := byId_id hcr
    exact ⟨hmem, (hexact _).mp (List.mem_mergeSort.mp hid)⟩
  · rintro ⟨hmem, hid⟩
    refine ⟨cr.rule.id, List.mem_mergeSort.mpr ((hexact _).mpr hid), ?_⟩
    unfold Registry.byId
    have hsome : (reg.rules.find? (·.rule.id = cr.rule.id)).isSome := List.find?_isSome.mpr ⟨cr, hmem, by simp⟩
    obtain ⟨cr', hcr'⟩ := Option.isSome_iff_exists.mp hsome
    have hid' : cr'.rule.id = cr.rule.id := by simpa using List.find?_some hcr'
    rw [hcr', List.inj_on_of_nodup_map reg.distinct (List.mem_of_find?_eq_some hcr') hmem hid']

theorem tolerantOriginal_eq_some (h : TableInv reserved served st) (hg : TriggerInv served st)
    (hids : state.triggeredRuleIds = st.triggeredRules) {w o : Bytes} :
    tolerantOriginal spell (triggeredRules state reg) st.replacements false w = some o ↔
      ∃ p, ReadByFirst spell reg served w p ∧ Minted reserved served p o := by
  have horder : InIdOrder (triggeredRules state reg) := pinnedRules_inIdOrder state (some reg)
  unfold tolerantOriginal
  rw [Option.bind_eq_some_iff]
  refine exists_congr fun p => and_congr ?_ (exactOriginal_iff_minted h)
  rw [findSome?_inIdOrder horder]
  simp only [triggers_iff hg hids]
  rfl

theorem demaskAll_passes (hfinds : FindsAll env.re2 spell (triggeredRules state reg)) (text : Bytes) :
    demaskAll (makeConfig env state (some reg)) text false =
      .ok (tolerantPass (makeConfig env state (some reg)) false
        (applyExact (makeConfig env state (some reg)) false text)) :=
  demaskAll_eq (makeConfig_neverFails hfinds) text

theorem tolerant_pass_pinned (hfinds : FindsAll env.re2 spell (triggeredRules state reg)) :
    Pass (Recognised spell (triggeredRules state reg)) (tolerantPass (makeConfig env state (some reg)) false)
      (tolerantOriginal spell (triggeredRules state reg) state.replacements false) :=
  makeConfig_tolerant hfinds fun _ hw => hw

theorem tolerantPass_own (hfinds : FindsAll env.re2 spell (triggeredRules state reg)) (h : TableInv reserved served st)
    (hg : TriggerInv served st) (hids : state.triggeredRuleIds = st.triggeredRules)
    (hreps : state.replacements = st.replacements) {text : Bytes}
    (hown : OwnLookAlikes (ReadBySome spell reg served) reserved served text) :
    tolerantPass (makeConfig env state (some reg)) false text = text := by
  rcases makeConfig_scan env state (some reg) with ⟨hscan, -⟩ | hscan
  · simp [tolerantPass, applyPlaceholderRegex, hscan]
  · refine tolerantPass_same (makeConfig_tables env state (some reg)) hscan hfinds fun w hw cr hcr p hp o ho => ?_
    rw [hreps, exactOriginal_iff_minted h] at ho
    exact hown w o ⟨hw, p, ⟨cr, (triggers_iff hg hids).mp hcr, hp⟩, ho⟩

/-- Between brackets no two spellings overlap. So the pass keeps the text just where all look-alikes stand for
themselves, or where some of them make up for others. -/
theorem tolerantPass_between (hfinds : FindsAll env.re2 spell (triggeredRules state reg))
    (h : TableInv reserved served st) (hg : TriggerInv served st) (hids : state.triggeredRuleIds = st.triggeredRules)
    (hreps : state.replacements = st.replacements)
    (hwords : ∀ w, Recognised spell (triggeredRules state reg) w → IsPlaceholder w) (text : Bytes) :
    (OwnLookAlikes (ReadByFirst spell reg served) reserved served text →
      tolerantPass (makeConfig env state (some reg)) false text = text) ∧
    (tolerantPass (makeConfig env state (some reg)) false text = text →
      OwnLookAlikes (ReadByFirst spell reg served) reserved served text ∨
        MakeUp (ReadByFirst spell reg served) reserved served text) := by
  obtain ⟨items, rfl, hmarked, hgreedy⟩ := exists_reading (fun w hw => (hwords w hw).ne_nil) text
  have hfaithful := faithful_of_greedy angle_ne hwords hmarked hgreedy
  have hpass := tolerant_pass_pinned hfinds items hfaithful
  rw [hreps] at hpass
  have hlook : ∀ w o, .tok w ∈ items →
      tolerantOriginal spell (triggeredRules state reg) st.replacements false w = some o →
      LookAlike (ReadByFirst spell reg served) reserved served (render items) w o := fun w o hw ho =>
    ⟨infix_render hw, (tolerantOriginal_eq_some h hg hids).mp ho⟩
  rw [hpass]
  constructor
  · intro hown
    exact render_subst_same fun w o hw ho => hown w o (hlook w o hw ho)
  · intro hsame
    rcases same_of_render_subst hsame with hall | ⟨⟨w, o, hw, ho, hshort⟩, v, u, hv, hu, hlong⟩
    · left
      rintro w o ⟨hw, p, hread, hminted⟩
      have hword : Recognised spell (triggeredRules state reg) w := by
        obtain ⟨cr, hcr, hp, -⟩ := hread
        refine ⟨cr, (triggers_iff hg hids).mpr hcr, ?_⟩
        cases hspelling : ruleSpelling spell cr w with
        | none => simp [readPlaceholder, hspelling] at hp
        | some digits => rfl
      obtain ⟨a, b, hab⟩ := hw
      obtain ⟨xs, ys, hitems, -⟩ := hfaithful.only a w b hword hab.symm
      exact hall w o (by simp [hitems]) ((tolerantOriginal_eq_some h hg hids).mpr ⟨p, hread, hminted⟩)
    · exact .inr ⟨⟨w, o, hlook w o hw ho, hshort⟩, v, u, hlook v u hv hu, hlong⟩

end OneText

/-! ## The rules of a snapshot -/

theorem buildPlaceholderPattern_ok {re2 : Re2} {name : Bytes} {pp : PlaceholderPattern}
    (h : buildPlaceholderPattern re2 name = .ok pp) :
    pp.pattern = buildPlaceholderPatternString re2 name ∧ pp.maxLen = regexMaxLen pp.pattern ∧ pp.maxLen ≠ sizeMax := by
  unfold buildPlaceholderPattern at h
  simp only at h
  split at h
  · cases h
  · rename_i hne
    obtain rfl := Except.ok.inj h
    exact ⟨rfl, rfl, hne⟩

theorem compiled_placeholder {env : Env} {r : Rule} {cr : CompiledRule} (h : compileRule env r = .ok cr)
    {re : Regex} (hre : cr.placeholderRe = some re) :
    ∃ pp, buildPlaceholderPattern env.re2 (asciiTrim r.masking.placeholder) = .ok pp ∧
      re = ascii "(?m)" ++ pp.pattern ∧ cr.placeholderLen = pp.maxLen := by
  obtain ⟨-, -, -, hplaceholder, -⟩ := compileRule_ok h
  unfold compilePlaceholder at hplaceholder
  rw [hre] at hplaceholder
  split at hplaceholder
  · cases hplaceholder
  · split at hplaceholder
    · cases hplaceholder
    · rename_i pp hpp
      simp only at hplaceholder
      split at hplaceholder
      · cases hplaceholder
      · split at hplaceholder
        · cases hplaceholder
        · obtain ⟨hpattern, hlen⟩ := Prod.mk.inj (Except.ok.inj hplaceholder)
          exact ⟨pp, hpp, (Option.some.inj hpattern).symm, hlen.symm⟩

theorem placeholderRe_of_compiled {env : Env} {r : Rule} {cr : CompiledRule} (h : compileRule env r = .ok cr)
    {re : Regex} (hre : cr.placeholderRe = some re) : re = recogniser env.re2 r := by
  obtain ⟨pp, hpp, rfl, -⟩ := compiled_placeholder h hre
  rw [(buildPlaceholderPattern_ok hpp).1, recogniser]

section Snapshot

variable {env : Env} {rules : List Rule} {reg : Registry} {fold : Bytes → Bytes → Prop} {spell : Spelling}
  {state : MaskingState}

theorem rule_of_mem (hbuild : Registry.build env rules = .ok reg) {cr : CompiledRule} (hcr : cr ∈ reg.rules) :
    ∃ r ∈ rules, compileRule env r = .ok cr := by
  obtain ⟨r, hr, hcompile⟩ := exists_of_mem_right (Registry.build_rules hbuild) hcr
  exact ⟨r, hr, hcompile⟩

theorem mem_of_triggered {cr : CompiledRule} (h : cr ∈ triggeredRules state reg) : cr ∈ reg.rules := by
  obtain ⟨id, -, hid⟩ := List.mem_filterMap.mp h
  exact (byId_id hid).1

theorem findsAll_of_reads (hbuild : Registry.build env rules = .ok reg)
    (hreads : ReadsTemplates env.re2 fold spell rules) : FindsAll env.re2 spell (triggeredRules state reg) := by
  intro cr hcr re hre
  obtain ⟨r, hr, hcompile⟩ := rule_of_mem hbuild (mem_of_triggered hcr)
  rw [placeholderRe_of_compiled hcompile hre]
  exact hreads.finds r hr

theorem recognised_isPlaceholder (hbuild : Registry.build env rules = .ok reg)
    (hreads : ReadsTemplates env.re2 fold spell rules) (hnames : ∀ r ∈ rules, Bracketless r.masking.placeholder)
    {w : Bytes} (h : Recognised spell (triggeredRules state reg) w) : IsPlaceholder w := by
  obtain ⟨cr, hcr, hword⟩ := h
  obtain ⟨r, hr, hcompile⟩ := rule_of_mem hbuild (mem_of_triggered hcr)
  unfold ruleSpelling at hword
  split at hword
  · cases hword
  · rename_i re hre
    split at hword
    · cases hword
    · obtain ⟨digits, hdigits⟩ := Option.isSome_iff_exists.mp hword
      rw [placeholderRe_of_compiled hcompile hre] at hdigits
      exact (hreads.sound r hr w digits hdigits).isPlaceholder hreads.folds
        fun b hb => hnames r hr b (mem_asciiTrim hb)

theorem types_of_rules (hbuild : Registry.build env rules = .ok reg) {calls : List Call}
    (hrules : ∀ c ∈ calls, ∀ m ∈ c.ms, ∃ cr ∈ reg.rules, m.rule = some cr)
    (htypes : ∀ r ∈ rules, r.masking.placeholder.all isTypeByte) :
    ∀ q ∈ calls.flatMap Call.requests, q.type ≠ [] ∧ q.type.all isTypeByte := by
  intro q hq
  obtain ⟨c, hc, hq⟩ := List.mem_flatMap.mp hq
  obtain ⟨m, hm, hreq⟩ := List.mem_filterMap.mp hq
  obtain ⟨cr, hcr, hrule⟩ := hrules c hc m hm
  obtain ⟨r, hr, hcompile⟩ := rule_of_mem hbuild hcr
  unfold requestOf at hreq
  simp only [hrule] at hreq
  split at hreq
  · cases hreq
  · rename_i hne
    rw [← Option.some.inj hreq, Request.type, (compileRule_ok hcompile).1]
    refine ⟨fun hnil => hne (.inr ?_), htypes r hr⟩
    rw [(compileRule_ok hcompile).1, hnil]

end Snapshot

/-- With the rules of a snapshot: a text comes back if no literal is in the way and every look-alike in it stands for
itself. Where no type has a bracket, it comes back only then, but for look-alikes that make up for each other. -/
theorem demask_masked_lookAlikes (env : Env) (hre : InText env.re2) (hsort : SortSpec env.sortMatches) {rules : List Rule}
    {reg : Registry} (hbuild : Registry.build env rules = .ok reg) {fold : Bytes → Bytes → Prop} {spell : Spelling}
    (hreads : ReadsTemplates env.re2 fold spell rules) {crs : List CompiledRule} (hcrs : crs ⊆ reg.rules)
    (texts : List Bytes) (opts : MaskOptions) :
    ∃ calls result, calls.map Call.text = texts ∧
      (∀ c ∈ calls, scanRules env c.text (crs.map some) opts.scan = .ok c.ms) ∧
      maskTexts env texts (crs.map some) opts = .ok result ∧
      List.Forall₂ (fun c masked =>
        (KeepsLiterals (reservedPlaceholders texts) (calls.flatMap Call.requests) c →
          (OwnLookAlikes (ReadBySome spell reg (calls.flatMap Call.requests)) (reservedPlaceholders texts)
              (calls.flatMap Call.requests) c.text →
            demaskAll (makeConfig env result.state (some reg)) masked false = .ok c.text) ∧
          ((∀ r ∈ rules, Bracketless r.masking.placeholder) →
            (OwnLookAlikes (ReadByFirst spell reg (calls.flatMap Call.requests)) (reservedPlaceholders texts)
                (calls.flatMap Call.requests) c.text →
              demaskAll (makeConfig env result.state (some reg)) masked false = .ok c.text) ∧
            (demaskAll (makeConfig env result.state (some reg)) masked false = .ok c.text →
              OwnLookAlikes (ReadByFirst spell reg (calls.flatMap Call.requests)) (reservedPlaceholders texts)
                (calls.flatMap Call.requests) c.text ∨
              MakeUp (ReadByFirst spell reg (calls.flatMap Call.requests)) (reservedPlaceholders texts)
                (calls.flatMap Call.requests) c.text))) ∧
        ((∀ r ∈ rules, r.masking.placeholder.all isTypeByte) →
          KeepsLiterals (reservedPlaceholders texts) (calls.flatMap Call.requests) c)) calls result.maskedTexts := by
  have hcompiled : ∀ cr ∈ crs, cr.re.isSome := fun cr hcr =>
    re_of_compiled (Registry.build_rules hbuild) cr (hcrs hcr)
  obtain ⟨calls, htexts, hscans, hmask⟩ := scanTexts_calls env hre hsort hcompiled texts opts
  obtain ⟨outs, st, hphase, htable, htrigger, houts⟩ := maskPhase_spec calls
  rw [htexts] at htable
  refine ⟨calls, _, htexts, fun c hc => (hscans c hc).1, hmask.trans hphase, ?_⟩
  let state : MaskingState := ⟨st.triggeredRules, st.triggeredDataTypes, st.replacements⟩
  have hfinds : FindsAll env.re2 spell (triggeredRules state reg) := findsAll_of_reads hbuild hreads
  have hmem : List.Forall₂ (fun c out => c ∈ calls ∧ WritesRecorded st.replacements c out) calls outs :=
    (List.forall₂_and_left _ _).mpr ⟨fun c hc => hc, houts⟩
  apply hmem.imp
  rintro c masked ⟨hc, placeholders, rfl, hrec⟩
  refine ⟨fun hkeeps => ?_, fun htypes => ?_⟩
  · rw [demaskAll_passes hfinds, applyExact_masked env (some reg) htable rfl hkeeps hrec, Except.ok.injEq]
    refine ⟨tolerantPass_own hfinds htable htrigger rfl rfl, fun hnames => ?_⟩
    exact tolerantPass_between hfinds htable htrigger rfl rfl
      (fun w hw => recognised_isPlaceholder hbuild hreads hnames hw) c.text
  · refine htable.keepsLiterals (fun c hc => htexts ▸ List.mem_map_of_mem hc) ?_ hc
    refine types_of_rules hbuild (fun c hc m hm => ?_) htypes
    obtain ⟨cr, hcr, hrule⟩ := (hscans c hc).2 m hm
    exact ⟨cr, hcrs hcr, hrule⟩

/-! ## A look-alike in the text -/

def annRule : Rule := sampleRule "email" "ann" "EMAIL"

def annSpelling : Spelling := fun re w =>
  if re = recogniser (sampleRe2 fun _ _ => none) annRule then (readTemplate (ascii "EMAIL") w).head?
  else if re = ascii "(?m)ann" ∧ w = ascii "ann" then some w
  else none

def annRegistry : Registry where
  rules := compiledWith (sampleEnv annSpelling) [annRule]
  distinct := by decide +kernel

theorem build_ann : Registry.build (sampleEnv annSpelling) [annRule] = .ok annRegistry := by
  have hrules : (Registry.build (sampleEnv annSpelling) [annRule]).map Registry.rules = .ok annRegistry.rules := by
    decide +kernel
  cases hbuild : Registry.build (sampleEnv annSpelling) [annRule] with
  | error e =>
    rw [hbuild] at hrules
    cases hrules
  | ok reg =>
    rw [hbuild] at hrules
    obtain ⟨rules, distinct⟩ := reg
    cases hrules
    rfl

theorem annSpelling_eq_some {re w captured : Bytes} (h : annSpelling re w = some captured) :
    TemplateWord asciiFold (ascii "EMAIL") w captured ∨ captured = w := by
  unfold annSpelling at h
  split at h
  · exact .inl (mem_readTemplate.mp (List.mem_of_head? h))
  · split at h
    · exact .inr (Option.some.inj h).symm
    · cases h

theorem annSpelling_captures : Captures annSpelling := by
  intro re w captured h
  rcases annSpelling_eq_some h with h | rfl
  · cases h with
    | @intro before words digits after =>
      exact ⟨ch '<' :: (before ++ words), after ++ [ch '>'], by simp⟩
  · exact List.infix_refl _

set_option maxRecDepth 8192 in
theorem asciiFold_caseFold : CaseFold asciiFold where
  brackets token w hfold b hb hbracket := by
    have hlower : ∀ a : Byte, asciiToLower a = ch '<' ∨ asciiToLower a = ch '>' → asciiToLower a = a := by
      decide
    have hsame : asciiToLower b = b := by rcases hbracket with rfl | rfl <;> rfl
    have hmem : asciiToLower b ∈ token.map asciiToLower := hfold ▸ List.mem_map_of_mem hb
    obtain ⟨a, ha, heq⟩ := List.mem_map.mp hmem
    rw [hsame] at heq
    rw [← heq, hlower a (heq ▸ hbracket)]
    exact ha

theorem annSpelling_recogniser (w : Bytes) :
    annSpelling (recogniser (sampleEnv annSpelling).re2 annRule) w =
      (readTemplate (asciiTrim annRule.masking.placeholder) w).head? := by
  rw [show asciiTrim annRule.masking.placeholder = ascii "EMAIL" by decide]
  exact if_pos rfl

theorem readsTemplates_ann : ReadsTemplates (sampleEnv annSpelling).re2 asciiFold annSpelling [annRule] where
  folds := asciiFold_caseFold
  finds r hr := by
    rw [List.mem_singleton.mp hr]
    exact sampleRe2_finds annSpelling_captures (by decide)
  sound r hr w digits h := by
    rw [List.mem_singleton.mp hr, annSpelling_recogniser] at h
    rw [List.mem_singleton.mp hr]
    exact mem_readTemplate.mp (List.mem_of_head? h)
  complete r hr w digits h := by
    rw [List.mem_singleton.mp hr] at h ⊢
    rw [annSpelling_recogniser, List.isSome_head?]
    exact List.ne_nil_of_mem (mem_readTemplate.mpr h)

theorem ownLookAlikes_of_unread {text : Bytes}
    (hunread : ∀ i ≤ text.length, ∀ j ≤ text.length, readTemplate (ascii "EMAIL") (slice text i j) = [])
    (reserved : List Bytes) (served : List Request) :
    OwnLookAlikes (ReadBySome annSpelling annRegistry served) reserved served text := by
  rintro w o ⟨⟨a, b, rfl⟩, p, ⟨cr, ⟨hcr, -⟩, hread⟩, -⟩
  obtain ⟨r, hr, hcompile⟩ := rule_of_mem build_ann hcr
  rw [List.mem_singleton.mp hr] at hcompile
  have hslice := hunread a.length (by simp only [List.length_append]; omega) (a.length + w.length)
    (by simp only [List.length_append]; omega)
  rw [slice_middle] at hslice
  unfold readPlaceholder ruleSpelling at hread
  split at hread
  · cases hread
  · rename_i re hre
    rw [placeholderRe_of_compiled hcompile hre, annSpelling_recogniser,
      show asciiTrim annRule.masking.placeholder = ascii "EMAIL" by decide, hslice] at hread
    split at hread <;> cases hread

/-- A spelling that no rule reads, and a text without one. -/
theorem demask_masked_lookAlikes_sample :
    ∃ result, maskTexts (sampleEnv annSpelling) [ascii "<PHONE_1> of ann", ascii "dear ann"]
        (annRegistry.rules.map some) ⟨⟨true, 1⟩, 0⟩ = .ok result ∧
      List.Forall₂ (fun text masked =>
        demaskAll (makeConfig (sampleEnv annSpelling) result.state (some annRegistry)) masked false = .ok text)
        [ascii "<PHONE_1> of ann", ascii "dear ann"] result.maskedTexts := by
  obtain ⟨calls, result, htexts, -, hmask, hall⟩ := demask_masked_lookAlikes (sampleEnv annSpelling)
    (sampleRe2_inText annSpelling_captures) sampleSort_spec build_ann readsTemplates_ann (List.Subset.refl _)
    [ascii "<PHONE_1> of ann", ascii "dear ann"] ⟨⟨true, 1⟩, 0⟩
  have hmem : ∀ c ∈ calls, c.text ∈ [ascii "<PHONE_1> of ann", ascii "dear ann"] := fun c hc =>
    htexts ▸ List.mem_map_of_mem hc
  refine ⟨result, hmask, ?_⟩
  rw [← htexts, List.forall₂_map_left_iff]
  apply ((List.forall₂_and_left _ _).mpr ⟨hmem, hall⟩).imp
  rintro c masked ⟨hc, hback, hkeeps⟩
  have hwords : ∀ r ∈ [annRule], r.masking.placeholder.all isTypeByte := by decide
  refine (hback (hkeeps hwords)).1 (ownLookAlikes_of_unread ?_ _ _)
  have hunread : ∀ text ∈ [ascii "<PHONE_1> of ann", ascii "dear ann"], ∀ i ≤ text.length, ∀ j ≤ text.length,
      readTemplate (ascii "EMAIL") (slice text i j) = [] := by decide +kernel
  exact hunread c.text hc

/-- What masking `<email_1> is ann` gives. -/
def lookAlikeResult : MaskResult where
  maskedTexts := [ascii "<email_1> is <EMAIL_1>"]
  state := ⟨[ascii "email"], [.personalData], [⟨ascii "email", .personalData, ascii "ann", ascii "<EMAIL_1>"⟩]⟩

/-- The recogniser reads a placeholder of the user in lower case as the placeholder of the secret. -/
theorem lookAlike_disturbs :
    ¬ ∀ (env : Env) (rules : List Rule) (reg : Registry) (fold : Bytes → Bytes → Prop) (spell : Spelling)
        (texts : List Bytes) (opts : MaskOptions) (result : MaskResult),
      InText env.re2 → SortSpec env.sortMatches → Registry.build env rules = .ok reg →
      ReadsTemplates env.re2 fold spell rules → maskTexts env texts (reg.rules.map some) opts = .ok result →
      List.Forall₂ (fun text masked => demaskAll (makeConfig env result.state (some reg)) masked false = .ok text)
        texts result.maskedTexts := by
  intro h
  have hmask : maskTexts (sampleEnv annSpelling) [ascii "<email_1> is ann"] (annRegistry.rules.map some)
      ⟨⟨true, 1⟩, 0⟩ = .ok lookAlikeResult := by decide +kernel
  have hdemask : demaskAll (makeConfig (sampleEnv annSpelling) lookAlikeResult.state (some annRegistry))
      (ascii "<email_1> is <EMAIL_1>") false = .ok (ascii "ann is ann") := by decide +kernel
  have hall := h _ _ _ _ _ _ _ lookAlikeResult (sampleRe2_inText annSpelling_captures) sampleSort_spec build_ann
    readsTemplates_ann hmask
  have hone := (List.forall₂_cons.mp hall).1
  rw [hdemask] at hone
  exact absurd hone (by decide)

end LlmGuard
