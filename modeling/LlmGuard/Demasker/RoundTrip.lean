import LlmGuard.Demasker.Stream
import LlmGuard.Spec.Sample
import LlmGuard.Masker.Reserved

/-!
# Demasking what was masked

A masked text is read as its gaps and the placeholders between them. No other placeholder stands in it,
also when some placeholders are restored already.
-/

namespace LlmGuard

open Splice Tokens Streaming Fence

/-- Readings of the gaps, and the placeholders between them. -/
def weaveItems (readings : List (List (Item Byte))) (ps : List Bytes) : List (Item Byte) :=
  weave readings (ps.map fun p => [.tok p])

theorem weaveItems_nil (readings : List (List (Item Byte))) : weaveItems readings [] = readings.flatten := by
  cases readings <;> rfl

theorem weaveItems_cons (g : List (Item Byte)) (gs : List (List (Item Byte))) (p : Bytes) (ps : List Bytes) :
    weaveItems (g :: gs) (p :: ps) = g ++ .tok p :: weaveItems gs ps := by
  simp [weaveItems]

theorem weaveItems_empty (ps : List Bytes) : weaveItems [] ps = [] := rfl

theorem render_weaveItems (readings : List (List (Item Byte))) (ps : List Bytes) :
    render (weaveItems readings ps) = weave (readings.map render) ps := by
  induction readings generalizing ps with
  | nil => simp [weaveItems_empty, weave]
  | cons g gs ih =>
    cases ps with
    | nil => rw [weaveItems_nil, render_flatten, weave.eq_2 _ _ (by simp)]
    | cons p ps => simp [weaveItems_cons, ih]

theorem tok_mem_weaveItems {readings : List (List (Item Byte))} {ps : List Bytes} {w : Bytes}
    (h : .tok w ∈ weaveItems readings ps) : w ∈ ps ∨ ∃ g ∈ readings, .tok w ∈ g := by
  induction readings generalizing ps with
  | nil => simp [weaveItems_empty] at h
  | cons g gs ih =>
    cases ps with
    | nil => exact .inr (List.mem_flatten.mp (weaveItems_nil (g :: gs) ▸ h))
    | cons p ps =>
      rw [weaveItems_cons, List.mem_append, List.mem_cons] at h
      rcases h with h | h | h
      · exact .inr ⟨g, by simp, h⟩
      · exact .inl (Item.tok.inj h ▸ List.mem_cons_self)
      · rcases ih h with h | ⟨g', hg', h⟩
        · exact .inl (List.mem_cons_of_mem _ h)
        · exact .inr ⟨g', List.mem_cons_of_mem _ hg', h⟩

theorem subst_weaveItems {r : Bytes → Option Bytes} {readings : List (List (Item Byte))} {ps os : List Bytes}
    (h : List.Forall₂ (fun o p => r p = some o) os ps) :
    render (subst r (weaveItems readings ps)) = weave (readings.map fun g => render (subst r g)) os := by
  induction h generalizing readings with
  | nil =>
    rw [weaveItems_nil, subst_flatten, render_flatten, List.map_map]
    cases readings <;> rfl
  | @cons o p os ps hop _ ih =>
    cases readings with
    | nil => rfl
    | cons g gs => simp [weaveItems_cons, subst_tok_some hop, ih]

/-! ## Restoring the originals -/

theorem exactOriginal_of_mem {reps : List Replacement} (hdistinct : (reps.map (·.placeholder)).Nodup)
    {r : Replacement} (hr : r ∈ reps) (hne : r.placeholder ≠ []) :
    exactOriginal reps false r.placeholder = some r.original := by
  unfold exactOriginal
  rw [if_neg hne]
  cases hf : reps.find? (fun r' => r'.placeholder = r.placeholder) with
  | none =>
    have := List.find?_eq_none.mp hf r hr
    simp at this
  | some r' =>
    have hplace : r'.placeholder = r.placeholder := by simpa using List.find?_some hf
    have : r' = r := List.inj_on_of_nodup_map hdistinct (List.mem_of_find?_eq_some hf) hr hplace
    subst this
    simp [restored]

theorem exactOriginal_of_recorded {reps : List Replacement} {q : Request} {p : Bytes}
    (hdistinct : (reps.map (·.placeholder)).Nodup) (hne : p ≠ []) (h : Recorded reps q p) :
    exactOriginal reps false p = some q.original := by
  obtain ⟨r, hr, ho, rfl⟩ := h
  rw [exactOriginal_of_mem hdistinct hr hne, ho]

theorem exactOriginal_isSome {reps : List Replacement} {jsonEscape : Bool} {w : Bytes}
    (h : (exactOriginal reps jsonEscape w).isSome) : ∃ r ∈ reps, r.placeholder = w := by
  unfold exactOriginal at h
  split at h
  · cases h
  · rw [Option.isSome_map] at h
    obtain ⟨r, hr⟩ := Option.isSome_iff_exists.mp h
    exact ⟨r, List.mem_of_find?_eq_some hr, by simpa using List.find?_some hr⟩

theorem weave_originals (c : Call) : weave c.gaps (c.requests.map Request.original) = c.text := by
  have hsub : ((replacedMatches c.text c.ms).map ScanMatch.span).Sublist (c.ms.map ScanMatch.span) :=
    List.filter_sublist.map _
  have hwhole := weave_pieces c.text 0 c.spans (c.ordered.sublist hsub)
  have hpieces : pieces c.text c.spans = c.requests.map Request.original := by
    unfold Call.spans Call.requests pieces
    induction c.ms with
    | nil => rfl
    | cons m ms ih =>
      rw [replacedMatches_cons, requests_cons]
      cases hreq : requestOf c.text m with
      | none => simpa using ih
      | some q =>
        have hq : slice c.text m.start m.stop = q.original := by
          unfold requestOf at hreq
          split at hreq
          · cases hreq
          · split at hreq
            · cases hreq
            · rw [← Option.some.inj hreq]
        simp only [Option.isSome_some, if_true, List.map_cons, Option.toList_some, List.cons_append,
          List.nil_append]
        rw [← ih, hq.symm]
        rfl
  rw [hpieces] at hwhole
  simpa [Call.gaps] using hwhole

/-! ## Streaming -/

/-- Every match has bytes, and its rule has a placeholder of letters, digits and underscores. -/
def Plain (c : Call) : Prop :=
  ∀ m ∈ c.ms, m.start < m.stop ∧ ∀ cr, m.rule = some cr →
    cr.rule.masking.placeholder ≠ [] ∧ cr.rule.masking.placeholder.all isTypeByte

theorem type_of_mem_requests {c : Call} (hc : Plain c) {q : Request} (hq : q ∈ c.requests) :
    q.type ≠ [] ∧ q.type.all isTypeByte := by
  obtain ⟨m, hm, hreq⟩ := List.mem_filterMap.mp hq
  unfold requestOf at hreq
  split at hreq
  · cases hreq
  · rename_i cr hcr
    split at hreq
    · cases hreq
    · rw [← Option.some.inj hreq]
      exact (hc m hm).2 cr hcr

theorem types_of_plain {calls : List Call} (hplain : ∀ c ∈ calls, Plain c) :
    ∀ q ∈ calls.flatMap Call.requests, q.type ≠ [] ∧ q.type.all isTypeByte := by
  intro q hq
  obtain ⟨c, hc, hq⟩ := List.mem_flatMap.mp hq
  exact type_of_mem_requests (hplain c hc) hq

theorem minted_not_in_texts {texts : List Bytes} {calls : List Call} {st : MaskerState}
    (htexts : ∀ c ∈ calls, c.text ∈ texts)
    (htypes : ∀ q ∈ calls.flatMap Call.requests, q.type ≠ [] ∧ q.type.all isTypeByte)
    (h : TableInv (reservedPlaceholders texts) (calls.flatMap Call.requests) st) {w : Bytes}
    {jsonEscape : Bool} (hw : (exactOriginal st.replacements jsonEscape w).isSome) :
    IsPlaceholder w ∧ ∀ c ∈ calls, ¬ w <:+: c.text := by
  obtain ⟨r, hr, rfl⟩ := exactOriginal_isSome hw
  obtain ⟨q, hq, n, -, heq⟩ := h.origins r hr
  obtain ⟨hne, htype⟩ := htypes q hq
  have hplace : r.placeholder = renderPlaceholder q.type n := by rw [heq]
  rw [hplace]
  refine ⟨(isReserved_render n hne htype).isPlaceholder, fun c hc hinfix => ?_⟩
  apply h.not_reserved r hr
  rw [hplace]
  exact mem_reservedPlaceholders n (htexts c hc) hne htype hinfix

theorem orElse_none (r : Bytes → Option Bytes) : orElse r (fun _ => none) = r := by
  funext w
  unfold orElse
  cases r w <;> rfl

/-- In a masked text, with the front restored or not, only the written placeholders are placeholders. -/
theorem masked_stable {reps : List Replacement} {text : Bytes} {items : List (Item Byte)}
    (hspecial : ∀ w, (exactOriginal reps false w).isSome → IsPlaceholder w ∧ ¬ w <:+: text)
    (hmarked : ∀ w, .tok w ∈ items → (exactOriginal reps false w).isSome)
    (htext : render (subst (exactOriginal reps false) items) = text) :
    Stable (fun w => (exactOriginal reps false w).isSome) (exactOriginal reps false) (fun _ => none) items := by
  refine stable_of_greedy angle_ne (fun w hw => (hspecial w hw).1) hmarked (greedy_of_absent fun w hw => ?_)
  rw [orElse_none, htext]
  exact (hspecial w hw).2

theorem exists_of_mem_right {α β : Type} {R : α → β → Prop} {l : List α} {u : List β} {b : β}
    (h : List.Forall₂ R l u) (hb : b ∈ u) : ∃ a ∈ l, R a b := by
  induction h with
  | nil => simp at hb
  | @cons a b' l u hab _ ih =>
    rcases List.mem_cons.mp hb with rfl | hb
    · exact ⟨a, List.mem_cons_self, hab⟩
    · obtain ⟨a', ha', hr⟩ := ih hb
      exact ⟨a', List.mem_cons_of_mem _ ha', hr⟩

theorem marked_weaveItems {r : Bytes → Option Bytes} {gs ps os : List Bytes}
    (h : List.Forall₂ (fun o p => r p = some o) os ps) (w : Bytes) (hw : .tok w ∈ weaveItems (gs.map plain) ps) :
    (r w).isSome := by
  rcases tok_mem_weaveItems hw with hw | ⟨g, hg, hw⟩
  · obtain ⟨o, -, ho⟩ := exists_of_mem_right h hw
    rw [ho]
    rfl
  · obtain ⟨gap, -, rfl⟩ := List.mem_map.mp hg
    exact absurd hw (tok_not_mem_plain w gap)

theorem render_masked (c : Call) (ps : List Bytes) : render (weaveItems (c.gaps.map plain) ps) = weave c.gaps ps := by
  simp [render_weaveItems, Function.comp_def]

theorem subst_masked {r : Bytes → Option Bytes} {c : Call} {ps : List Bytes}
    (h : List.Forall₂ (fun o p => r p = some o) (c.requests.map Request.original) ps) :
    render (subst r (weaveItems (c.gaps.map plain) ps)) = c.text := by
  simp [subst_weaveItems h, Function.comp_def, weave_originals]

/-- What one masked text is: the reading of it that restores the text. -/
theorem masked_reading {reps : List Replacement} {c : Call} {out : Bytes}
    (hdistinct : (reps.map (·.placeholder)).Nodup)
    (hne : ∀ r ∈ reps, r.placeholder ≠ []) (h : WritesRecorded reps c out) :
    ∃ items, render items = out ∧ render (subst (exactOriginal reps false) items) = c.text ∧
      ∀ w, .tok w ∈ items → (exactOriginal reps false w).isSome := by
  obtain ⟨ps, rfl, hrec⟩ := h
  have hne' : ∀ q p, Recorded reps q p → p ≠ [] := by
    rintro q p ⟨r, hr, -, rfl⟩
    exact hne r hr
  have hos : List.Forall₂ (fun o p => exactOriginal reps false p = some o) (c.requests.map Request.original) ps := by
    rw [List.forall₂_map_left_iff]
    exact hrec.imp fun q p hqp => exactOriginal_of_recorded hdistinct (hne' q p hqp) hqp
  exact ⟨weaveItems (c.gaps.map plain) ps, render_masked c ps, subst_masked hos, marked_weaveItems hos⟩

/-- Every masked text, cut anywhere and demasked chunk by chunk, gives its text back. -/
theorem masked_stream_round_trip (env : Env) (calls : List Call) (hplain : ∀ c ∈ calls, Plain c) :
    ∃ result, maskPhase (calls.map Call.args) = .ok result ∧
      List.Forall₂ (fun c masked => ∀ chunks : List Bytes, chunks ≠ [] → chunks.flatten = masked →
        Demasker.demaskStream ⟨makeConfig env result.state none, false, []⟩ chunks = .ok c.text)
        calls result.maskedTexts := by
  obtain ⟨outs, st, hall, ht, -, houts⟩ := maskPhase_spec calls
  have hspecial : ∀ {w : Bytes}, (exactOriginal st.replacements false w).isSome →
      IsPlaceholder w ∧ ∀ c ∈ calls, ¬ w <:+: c.text := fun hw =>
    minted_not_in_texts (fun c hc => List.mem_map.mpr ⟨c, hc, rfl⟩) (types_of_plain hplain) ht hw
  have hmem : List.Forall₂ (fun c out => c ∈ calls ∧ WritesRecorded st.replacements c out) calls outs :=
    (List.forall₂_and_left _ _).mpr ⟨fun c hc => hc, houts⟩
  refine ⟨_, hall, hmem.imp ?_⟩
  · rintro c masked ⟨hc, hout⟩ chunks hne hchunks
    obtain ⟨items, hrender, hrestore, hmarked⟩ := masked_reading ht.placeholders (fun r hr => by
      obtain ⟨q, -, n, -, heq⟩ := ht.origins r hr
      simp [heq, renderPlaceholder, ascii]) hout
    have htables := makeConfig_tables env ⟨st.triggeredRules, st.triggeredDataTypes, st.replacements⟩ none
    have hscan := makeConfig_none_scan env ⟨st.triggeredRules, st.triggeredDataTypes, st.replacements⟩
    have hstable := masked_stable (fun w hw => ⟨(hspecial hw).1, (hspecial hw).2 c hc⟩) hmarked hrestore
    rw [demaskStream_eq (neverFails_of_no_scan false hscan)]
    congr 1
    rw [run_eq (exact_pass htables fun w hw => hw) (tolerantPass_of_no_scan hscan _) hstable ?_
      (hchunks.trans hrender.symm) hne, orElse_none, hrestore]
    intro w hw
    apply htables.pending w
    rw [← lookup_isSome _ htables.toLookupIndex w false, htables.lookup]
    exact hmarked w hw

/-- The text already holds `<EMAIL_1>`, so `<EMAIL_2>` stands for the address. -/
theorem masked_stream_round_trip_sample :
    ∃ result, maskPhase [(ascii "<EMAIL_1> is ann", [⟨13, 16, sampleCompiled "r" "" "EMAIL"⟩])] = .ok result ∧
      List.Forall₂ (fun c masked => ∀ chunks : List Bytes, chunks ≠ [] → chunks.flatten = masked →
        Demasker.demaskStream ⟨makeConfig (sampleEnv fun _ _ => none) result.state none, false, []⟩ chunks =
          .ok c)
        [ascii "<EMAIL_1> is ann"] result.maskedTexts := by
  obtain ⟨result, hmask, hstream⟩ := masked_stream_round_trip (sampleEnv fun _ _ => none)
    [⟨ascii "<EMAIL_1> is ann", [⟨13, 16, sampleCompiled "r" "" "EMAIL"⟩], by decide, by decide⟩]
    (by
      intro c hc m hm
      obtain rfl := List.mem_singleton.mp hc
      obtain rfl := List.mem_singleton.mp hm
      refine ⟨by decide, ?_⟩
      rintro cr ⟨⟩
      decide)
  refine ⟨result, hmask, ?_⟩
  obtain ⟨masked, rest, h, hnil, heq⟩ := List.forall₂_cons_left_iff.mp hstream
  rw [heq]
  exact .cons h (by cases hnil; exact .nil)

end LlmGuard
