import LlmGuard.Demasker.RoundTrip
import LlmGuard.Masker.Texts
import LlmGuard.Code.Pipeline

/-!
# Texts that are masked and restored

What the pipeline over a body needs to know about the texts in it.
-/

namespace LlmGuard.Pipeline

open Splice Tokens Streaming

/-! ## Masked texts -/

theorem weave_ne_nil {α : Type} {gs ps : List (List α)} (hlen : ps.length < gs.length) {p : List α} (hp : p ∈ ps)
    (hne : p ≠ []) : weave gs ps ≠ [] := by
  induction ps generalizing gs with
  | nil => cases hp
  | cons q ps ih =>
    cases gs with
    | nil => simp at hlen
    | cons g gs =>
      rw [weave]
      rcases List.mem_cons.mp hp with rfl | hp
      · simp [hne]
      · simp [ih (by simpa using hlen) hp]

section

variable {reps : List Replacement} {c : Call} {out : Bytes}

theorem requests_length_lt_gaps (c : Call) : c.requests.length < c.gaps.length := by
  rw [Call.gaps, gaps_length, spans_length]
  exact Nat.lt_succ_self _

theorem masked_of_none (h : WritesRecorded [] c out) : out = c.text := by
  obtain ⟨ps, rfl, hrec⟩ := h
  have hnone : c.requests = [] := by
    cases hreq : c.requests with
    | nil => rfl
    | cons q qs =>
      rw [hreq] at hrec
      obtain ⟨p, -, ⟨r, hr, -⟩, -⟩ := List.forall₂_cons_left_iff.mp hrec
      exact absurd hr List.not_mem_nil
  rw [hnone] at hrec
  cases hrec
  have hwhole := weave_originals c
  rwa [hnone] at hwhole

theorem masked_ne_nil (hne : ∀ r ∈ reps, r.placeholder ≠ []) (h : WritesRecorded reps c out) (htext : c.text ≠ []) :
    out ≠ [] := by
  obtain ⟨ps, rfl, hrec⟩ := h
  cases hreq : c.requests with
  | nil =>
    rw [hreq] at hrec
    cases hrec
    have hwhole := weave_originals c
    rw [hreq, List.map_nil] at hwhole
    rwa [hwhole]
  | cons q qs =>
    rw [hreq] at hrec
    obtain ⟨p, ps, ⟨r, hr, -, rfl⟩, -, rfl⟩ := List.forall₂_cons_left_iff.mp hrec
    refine weave_ne_nil ?_ List.mem_cons_self (hne r hr)
    have hlen := requests_length_lt_gaps c
    rw [hreq] at hlen
    rw [← List.Forall₂.length_eq hrec]
    exact hlen

end

/-! ## Masking the texts of a body -/

section

variable {env : Env} {crs : List CompiledRule} {texts : List Bytes} {calls : List Call} {result : MaskResult}

/-- What is known about masked texts: the calls that masked them, and the table that the calls share. -/
structure Masked (crs : List CompiledRule) (texts : List Bytes) (result : MaskResult) (calls : List Call) : Prop where
  ofTexts : calls.map Call.text = texts
  rules : ∀ c ∈ calls, ∀ m ∈ c.ms, m.start < m.stop ∧ ∃ cr ∈ crs, m.rule = some cr
  table : ∃ st, TableInv (reservedPlaceholders texts) (calls.flatMap Call.requests) st ∧
    st.replacements = result.state.replacements
  writes : List.Forall₂ (WritesRecorded result.state.replacements) calls result.maskedTexts

theorem exists_masked (hre : InText env.re2) (hsort : SortSpec env.sortMatches) (hcompiled : ∀ cr ∈ crs, cr.re.isSome)
    (texts : List Bytes) (opts : MaskOptions) :
    ∃ calls result, maskTexts env texts (crs.map some) opts = .ok result ∧ Masked crs texts result calls := by
  obtain ⟨calls, rfl, hscans, hmask⟩ := scanTexts_calls env hre hsort hcompiled texts opts
  obtain ⟨outs, st, hphase, htable, -, houts⟩ := maskPhase_spec calls
  refine ⟨calls, _, hmask.trans hphase, rfl, fun c hc m hm => ⟨?_, (hscans c hc).2 m hm⟩, ⟨st, htable, rfl⟩, houts⟩
  obtain ⟨rs, hrs, hchains, -⟩ := scanRules_chains env hre hsort hcompiled c.text opts.scan
  have hms : c.ms = rs.map unionOf := Except.ok.inj ((hscans c hc).1.symm.trans hrs)
  rw [hms] at hm
  obtain ⟨r, hr, rfl⟩ := List.mem_map.mp hm
  exact (unionOf_isSpan hchains (fun m hm => (candidates_spec hre hm).1) hr).nonempty

theorem Masked.placeholder_ne_nil (h : Masked crs texts result calls) :
    ∀ r ∈ result.state.replacements, r.placeholder ≠ [] := by
  obtain ⟨st, htable, hreps⟩ := h.table
  intro r hr
  rw [← hreps] at hr
  obtain ⟨q, -, n, -, heq⟩ := htable.origins r hr
  simp [heq, renderPlaceholder, ascii]

/-- Masking keeps the texts that have something in them, and all texts when it replaces nothing. -/
theorem Masked.keeps (h : Masked crs texts result calls) : List.Forall₂ (fun text masked =>
    (text ≠ [] → masked ≠ []) ∧ (result.state.replacements = [] → masked = text)) texts result.maskedTexts := by
  rw [← h.ofTexts, List.forall₂_map_left_iff]
  refine h.writes.imp fun c masked hwrites => ⟨masked_ne_nil h.placeholder_ne_nil hwrites, fun hnone => ?_⟩
  rw [hnone] at hwrites
  exact masked_of_none hwrites

/-! ## Restoring the texts -/

/-- However the masked text is cut, demasking chunk by chunk gives the text. -/
def Restores (cfg : DemaskConfig) (text masked : Bytes) : Prop :=
  ∀ chunks : List Bytes, chunks ≠ [] → chunks.flatten = masked →
    Demasker.demaskStream ⟨cfg, false, []⟩ chunks = .ok text

/-- The placeholder of a rule is made of letters, digits and underscores. -/
def HasType (cr : CompiledRule) : Prop :=
  cr.rule.masking.placeholder ≠ [] ∧ cr.rule.masking.placeholder.all isTypeByte

theorem Masked.plain (h : Masked crs texts result calls) (htypes : ∀ cr ∈ crs, HasType cr) : ∀ c ∈ calls, Plain c := by
  intro c hc m hm
  obtain ⟨hlt, cr, hcr, hrule⟩ := h.rules c hc m hm
  refine ⟨hlt, fun cr' hcr' => ?_⟩
  rw [← Option.some.inj (hrule.symm.trans hcr')]
  exact htypes cr hcr

theorem Masked.restores (h : Masked crs texts result calls) (htypes : ∀ cr ∈ crs, HasType cr) (env : Env) :
    List.Forall₂ (Restores (makeConfig env result.state none)) texts result.maskedTexts := by
  obtain ⟨st, htable, hreps⟩ := h.table
  have hfind := fun c hc => List.mem_map_of_mem (f := Call.text) (l := calls) (a := c) hc
  rw [h.ofTexts] at hfind
  have hmem : List.Forall₂ (fun c masked => c ∈ calls ∧ WritesRecorded result.state.replacements c masked) calls
      result.maskedTexts := (List.forall₂_and_left _ _).mpr ⟨fun c hc => hc, h.writes⟩
  have htables := makeConfig_tables env result.state none
  have hscan := makeConfig_none_scan env result.state
  have hdistinct : (result.state.replacements.map (·.placeholder)).Nodup := hreps ▸ htable.placeholders
  rw [← h.ofTexts, List.forall₂_map_left_iff]
  refine hmem.imp fun c masked hc chunks hne hchunks => ?_
  obtain ⟨items, hrender, hrestore, hmarked⟩ := masked_reading hdistinct h.placeholder_ne_nil hc.2
  have hspecial : ∀ w, (exactOriginal result.state.replacements false w).isSome → IsPlaceholder w ∧ ¬ w <:+: c.text := by
    intro w hw
    rw [← hreps] at hw
    obtain ⟨hplaceholder, habsent⟩ := minted_not_in_texts hfind (types_of_plain (h.plain htypes)) htable hw
    exact ⟨hplaceholder, habsent c hc.1⟩
  have hstable := masked_stable hspecial hmarked hrestore
  have hpending : ∀ w, .tok w ∈ items → w.length ≤ (makeConfig env result.state none).maxPending := by
    intro w hw
    apply htables.pending w
    rw [← lookup_isSome _ htables.toLookupIndex w false, htables.lookup]
    exact hmarked w hw
  rw [demaskStream_eq (neverFails_of_no_scan false hscan)]
  congr 1
  rw [run_eq (exact_pass htables fun w hw => hw) (tolerantPass_of_no_scan hscan _) hstable hpending
    (hchunks.trans hrender.symm) hne, orElse_none, hrestore]

end

end LlmGuard.Pipeline
