import LlmGuard.Demasker.Spec
import LlmGuard.Masker.Proofs

/-!
# The tables of `make_config` and the exact pass

The pass writes the original of every placeholder in a faithful reading.
-/

namespace LlmGuard

open Tokens Streaming

/-! ## The tables -/

/-- What `buildLookupIndex` keeps about the entries. -/
structure LookupIndex (reps : List Replacement) (cfg : DemaskConfig) : Prop where
  index : ∀ w i, cfg.indexByPlaceholder w = some i → ∃ e, cfg.entries[i]? = some e ∧ e.placeholder = w
  entry : ∀ e ∈ cfg.entries, (cfg.indexByPlaceholder e.placeholder).isSome
  lookup : ∀ w jsonEscape, cfg.lookup w jsonEscape = exactOriginal reps jsonEscape w
  first : ∀ b s, (cfg.indexByPlaceholder (b :: s)).isSome → cfg.placeholderFirstByte b
  pending : ∀ w, (cfg.indexByPlaceholder w).isSome → w.length ≤ cfg.maxPending

theorem lookupIndex_empty : LookupIndex [] DemaskConfig.empty where
  index := by simp [DemaskConfig.empty]
  entry := by simp [DemaskConfig.empty]
  lookup := by simp [DemaskConfig.empty, DemaskConfig.lookup, exactOriginal]
  first := by simp [DemaskConfig.empty]
  pending := by simp [DemaskConfig.empty]

theorem lookup_isSome (cfg : DemaskConfig) {reps : List Replacement} (h : LookupIndex reps cfg) (w : Bytes)
    (jsonEscape : Bool) : (cfg.lookup w jsonEscape).isSome = (cfg.indexByPlaceholder w).isSome := by
  unfold DemaskConfig.lookup
  cases hi : cfg.indexByPlaceholder w with
  | none => rfl
  | some i =>
    obtain ⟨e, he, -⟩ := h.index w i hi
    simp [he]

/-- The tables with one more entry. `b` is the first byte of the placeholder. -/
def DemaskConfig.withEntry (cfg : DemaskConfig) (rep : Replacement) (b : Byte) : DemaskConfig :=
  { cfg with
    entries := cfg.entries ++ [⟨rep.placeholder, rep.original, Json.encodeString rep.original false⟩]
    indexByPlaceholder := fun p => if p = rep.placeholder then some cfg.entries.length else cfg.indexByPlaceholder p
    placeholderFirstByte := fun c => c = b || cfg.placeholderFirstByte c
    maxPending := if cfg.maxPending < rep.placeholder.length then rep.placeholder.length else cfg.maxPending }

@[simp] theorem withEntry_entries (cfg : DemaskConfig) (rep : Replacement) (b : Byte) : (cfg.withEntry rep b).entries =
    cfg.entries ++ [⟨rep.placeholder, rep.original, Json.encodeString rep.original false⟩] := rfl

@[simp] theorem withEntry_known (cfg : DemaskConfig) (rep : Replacement) (b : Byte) :
    (cfg.withEntry rep b).indexByPlaceholder rep.placeholder = some cfg.entries.length := if_pos rfl

theorem withEntry_other (cfg : DemaskConfig) {rep : Replacement} (b : Byte) {w : Bytes} (hw : w ≠ rep.placeholder) :
    (cfg.withEntry rep b).indexByPlaceholder w = cfg.indexByPlaceholder w := if_neg hw

theorem withEntry_pending (cfg : DemaskConfig) (rep : Replacement) (b : Byte) :
    cfg.maxPending ≤ (cfg.withEntry rep b).maxPending ∧ rep.placeholder.length ≤ (cfg.withEntry rep b).maxPending := by
  unfold DemaskConfig.withEntry
  dsimp only
  split <;> omega

theorem addReplacement_cases (cfg : DemaskConfig) (rep : Replacement) :
    (cfg.addReplacement rep = cfg ∧ (rep.placeholder = [] ∨ (cfg.indexByPlaceholder rep.placeholder).isSome)) ∨
      ∃ b rest, rep.placeholder = b :: rest ∧ cfg.indexByPlaceholder rep.placeholder = none ∧
        cfg.addReplacement rep = cfg.withEntry rep b := by
  unfold DemaskConfig.addReplacement
  split
  · rename_i hnil
    exact .inl ⟨rfl, .inl hnil⟩
  · rename_i b rest hcons
    split
    · rename_i hknown
      exact .inl ⟨rfl, .inr hknown⟩
    · rename_i hnew
      exact .inr ⟨b, rest, hcons, by simpa using hnew, rfl⟩

/-- What holds of the empty tables and is kept by every round holds of the tables. -/
theorem foldl_addReplacement_induction {P : List Replacement → DemaskConfig → Prop} (hempty : P [] DemaskConfig.empty)
    (hstep : ∀ reps cfg rep, P reps cfg → P (reps ++ [rep]) (cfg.addReplacement rep)) (reps : List Replacement) :
    P reps (reps.foldl DemaskConfig.addReplacement DemaskConfig.empty) := by
  induction reps using List.reverseRecOn with
  | nil => exact hempty
  | append_singleton reps rep ih =>
    rw [List.foldl_append]
    exact hstep reps _ rep ih

theorem exactOriginal_append (reps : List Replacement) (rep : Replacement) (jsonEscape : Bool) (w : Bytes) :
    exactOriginal (reps ++ [rep]) jsonEscape w = (exactOriginal reps jsonEscape w).or
      (if w ≠ [] ∧ rep.placeholder = w then some (restored jsonEscape rep.original) else none) := by
  unfold exactOriginal
  by_cases hw : w = []
  · simp [hw]
  · rw [if_neg hw, if_neg hw, List.find?_append]
    cases hf : reps.find? (fun r => r.placeholder = w) with
    | some r => simp
    | none => by_cases hr : rep.placeholder = w <;> simp [hr, hw]

theorem exactOriginal_skipped {reps : List Replacement} {cfg : DemaskConfig} (h : LookupIndex reps cfg)
    {rep : Replacement} (hskip : rep.placeholder = [] ∨ (cfg.indexByPlaceholder rep.placeholder).isSome)
    (jsonEscape : Bool) (w : Bytes) :
    exactOriginal (reps ++ [rep]) jsonEscape w = exactOriginal reps jsonEscape w := by
  rw [exactOriginal_append]
  by_cases hw : w ≠ [] ∧ rep.placeholder = w
  · obtain ⟨hne, rfl⟩ := hw
    have hknown := hskip.resolve_left hne
    rw [← lookup_isSome cfg h rep.placeholder jsonEscape, h.lookup] at hknown
    obtain ⟨o, ho⟩ := Option.isSome_iff_exists.mp hknown
    rw [ho, Option.some_or]
  · rw [if_neg hw, Option.or_none]

theorem lookup_withEntry {reps : List Replacement} {cfg : DemaskConfig} (h : LookupIndex reps cfg) {rep : Replacement}
    {b : Byte} {rest : Bytes} (hcons : rep.placeholder = b :: rest)
    (hnew : cfg.indexByPlaceholder rep.placeholder = none) (w : Bytes) (jsonEscape : Bool) :
    (cfg.withEntry rep b).lookup w jsonEscape = exactOriginal (reps ++ [rep]) jsonEscape w := by
  have hne : rep.placeholder ≠ [] := by simp [hcons]
  rw [exactOriginal_append]
  by_cases hw : w = rep.placeholder
  · subst hw
    have hnone := lookup_isSome cfg h rep.placeholder jsonEscape
    rw [hnew, h.lookup, Option.isSome_none, Option.isSome_eq_false_iff, Option.isNone_iff_eq_none] at hnone
    rw [hnone, Option.none_or, if_pos ⟨hne, rfl⟩]
    simp [DemaskConfig.lookup, restored]
  · rw [if_neg fun hand => hw hand.2.symm, Option.or_none, ← h.lookup]
    unfold DemaskConfig.lookup
    rw [withEntry_other cfg b hw]
    cases hi : cfg.indexByPlaceholder w with
    | none => rfl
    | some i =>
      obtain ⟨e, he, -⟩ := h.index w i hi
      simp [List.getElem?_append_left (List.getElem?_eq_some_iff.mp he).1]

theorem lookupIndex_withEntry {reps : List Replacement} {cfg : DemaskConfig} (h : LookupIndex reps cfg)
    {rep : Replacement} {b : Byte} {rest : Bytes} (hcons : rep.placeholder = b :: rest)
    (hnew : cfg.indexByPlaceholder rep.placeholder = none) : LookupIndex (reps ++ [rep]) (cfg.withEntry rep b) where
  index w i hi := by
    by_cases hw : w = rep.placeholder
    · subst hw
      obtain rfl := Option.some.inj ((withEntry_known cfg rep b).symm.trans hi)
      exact ⟨_, List.getElem?_concat_length, rfl⟩
    · rw [withEntry_other cfg b hw] at hi
      obtain ⟨e, he, hplace⟩ := h.index w i hi
      exact ⟨e, List.getElem?_append_left (List.getElem?_eq_some_iff.mp he).1 ▸ he, hplace⟩
  entry e he := by
    rcases List.mem_append.mp he with he | he
    · by_cases hw : e.placeholder = rep.placeholder
      · simp [hw]
      · rw [withEntry_other cfg b hw]
        exact h.entry e he
    · simp [List.mem_singleton.mp he]
  lookup := lookup_withEntry h hcons hnew
  first c s hs := by
    by_cases hw : c :: s = rep.placeholder
    · rw [hcons] at hw
      simp [DemaskConfig.withEntry, (List.cons.inj hw).1]
    · rw [withEntry_other cfg b hw] at hs
      simp [DemaskConfig.withEntry, h.first c s hs]
  pending w hs := by
    obtain ⟨hold, hadded⟩ := withEntry_pending cfg rep b
    by_cases hw : w = rep.placeholder
    · rwa [hw]
    · rw [withEntry_other cfg b hw] at hs
      exact (h.pending w hs).trans hold

theorem lookupIndex_addReplacement {reps : List Replacement} {cfg : DemaskConfig}
    (h : LookupIndex reps cfg) (rep : Replacement) :
    LookupIndex (reps ++ [rep]) (cfg.addReplacement rep) := by
  rcases addReplacement_cases cfg rep with ⟨hsame, hskip⟩ | ⟨b, rest, hcons, hnew, hadd⟩
  · rw [hsame]
    refine ⟨h.index, h.entry, fun w jsonEscape => ?_, h.first, h.pending⟩
    rw [h.lookup, exactOriginal_skipped h hskip]
  · rw [hadd]
    exact lookupIndex_withEntry h hcons hnew

theorem lookupIndex_foldl (reps : List Replacement) :
    LookupIndex reps (reps.foldl DemaskConfig.addReplacement DemaskConfig.empty) :=
  foldl_addReplacement_induction lookupIndex_empty (fun _ _ rep h => lookupIndex_addReplacement h rep) reps

theorem natLess_total (a b : Nat) (hab : decide (a < b) = false) (hba : decide (b < a) = false) : a = b := by
  simp only [decide_eq_false_iff_not] at hab hba
  omega

theorem natLess_trans (a b c : Nat) (hab : decide (a < b)) (hbc : decide (b < c)) : decide (a < c) := by
  simp only [decide_eq_true_eq] at hab hbc ⊢
  omega

theorem sortedLengths_spec (entries : List Entry) :
    (sortedLengths entries).Pairwise (fun a b => decide (a < b)) ∧
      ∀ e ∈ entries, e.placeholder.length ∈ sortedLengths entries := by
  have hrun : ∀ (todo l : List Nat), l.Pairwise (fun a b => decide (a < b)) →
      (todo.foldl (fun l n => setInsert (fun a b => decide (a < b)) n l) l).Pairwise (fun a b => decide (a < b)) ∧
        ∀ n, n ∈ l ∨ n ∈ todo → n ∈ todo.foldl (fun l n => setInsert (fun a b => decide (a < b)) n l) l := by
    intro todo
    induction todo with
    | nil => intro l hl; exact ⟨hl, fun n hn => by simpa using hn⟩
    | cons m todo ih =>
      intro l hl
      obtain ⟨hsorted, hmem⟩ := ih _ (setInsert_sorted natLess_total natLess_trans m l hl)
      refine ⟨hsorted, fun n hn => hmem n ?_⟩
      rw [mem_setInsert natLess_total]
      simp only [List.mem_cons] at hn
      tauto
  obtain ⟨hsorted, hmem⟩ := hrun (entries.map (·.placeholder.length)) [] .nil
  exact ⟨hsorted, fun e he => hmem _ (.inr (List.mem_map.mpr ⟨e, he, rfl⟩))⟩

/-- The tables of a finished configuration. -/
structure Tables (reps : List Replacement) (cfg : DemaskConfig) : Prop extends LookupIndex reps cfg where
  sorted : cfg.placeholderLengths.Pairwise fun a b => decide (a < b)
  lengths : ∀ w, (cfg.indexByPlaceholder w).isSome → w.length ∈ cfg.placeholderLengths

theorem makeConfig_fields (env : Env) (state : MaskingState) (pinned : Option Registry) :
    let cfg := state.replacements.foldl DemaskConfig.addReplacement DemaskConfig.empty
    (makeConfig env state pinned).entries = cfg.entries ∧
      (makeConfig env state pinned).indexByPlaceholder = cfg.indexByPlaceholder ∧
      (makeConfig env state pinned).placeholderFirstByte = cfg.placeholderFirstByte ∧
      (makeConfig env state pinned).placeholderLengths = sortedLengths cfg.entries ∧
      cfg.maxPending ≤ (makeConfig env state pinned).maxPending := by
  unfold makeConfig
  cases pinned with
  | none => exact ⟨rfl, rfl, rfl, rfl, Nat.le_refl _⟩
  | some reg =>
    simp only
    split <;> refine ⟨rfl, rfl, rfl, rfl, ?_⟩ <;> simp only <;> split <;> omega

theorem makeConfig_tables (env : Env) (state : MaskingState) (pinned : Option Registry) :
    Tables state.replacements (makeConfig env state pinned) := by
  have h := lookupIndex_foldl state.replacements
  obtain ⟨hentries, hindex, hfirst, hlengths, hpending⟩ := makeConfig_fields env state pinned
  obtain ⟨hsorted, hmem⟩ :=
    sortedLengths_spec (state.replacements.foldl DemaskConfig.addReplacement DemaskConfig.empty).entries
  constructor
  · constructor
    · rw [hentries, hindex]
      exact h.index
    · rw [hentries, hindex]
      exact h.entry
    · intro w jsonEscape
      rw [← h.lookup]
      unfold DemaskConfig.lookup
      rw [hentries, hindex]
    · rw [hindex, hfirst]
      exact h.first
    · rw [hindex]
      exact fun w hw => (h.pending w hw).trans hpending
  · rw [hlengths]
    exact hsorted
  · rw [hindex, hlengths]
    intro w hw
    obtain ⟨i, hi⟩ := Option.isSome_iff_exists.mp hw
    obtain ⟨e, he, rfl⟩ := h.index w i hi
    exact hmem e (List.mem_of_getElem? he)

/-! ## The exact pass -/

theorem probeLengths_miss (cfg : DemaskConfig) (s : Bytes) (best : Option (Nat × Nat)) (lens : List Nat)
    (h : ∀ len ∈ lens, len ≤ s.length → cfg.indexByPlaceholder (s.take len) = none) :
    probeLengths cfg s lens best = best := by
  induction lens with
  | nil => rfl
  | cons len lens ih =>
    unfold probeLengths
    split
    · rfl
    · rw [h len List.mem_cons_self (by omega)]
      exact ih fun len' hlen' => h len' (List.mem_cons_of_mem _ hlen')

theorem probeLengths_hit (cfg : DemaskConfig) (s w : Bytes) (i : Nat) (lens : List Nat)
    (hsorted : lens.Pairwise fun a b => decide (a < b)) (hmem : w.length ∈ lens) (hw : w <+: s)
    (hi : cfg.indexByPlaceholder w = some i)
    (honly : ∀ v, v <+: s → (cfg.indexByPlaceholder v).isSome → v = w) :
    probeLengths cfg s lens none = some (i, w.length) := by
  induction lens with
  | nil => simp at hmem
  | cons len lens ih =>
    obtain ⟨hhead, htail⟩ := List.pairwise_cons.mp hsorted
    have hlen := hw.length_le
    unfold probeLengths
    rcases List.mem_cons.mp hmem with rfl | hrest
    · rw [if_neg (by omega), ← List.prefix_iff_eq_take.mp hw, hi]
      refine probeLengths_miss cfg s _ lens fun len' hlen' hle => ?_
      have hlt : w.length < len' := by simpa using hhead len' hlen'
      by_contra hsome
      have heq := honly _ (List.take_prefix len' s) (Option.isSome_iff_ne_none.mpr hsome)
      have := congrArg List.length heq
      rw [List.length_take] at this
      omega
    · have hlt : len < w.length := by simpa using hhead _ hrest
      rw [if_neg (by omega)]
      have hnone : cfg.indexByPlaceholder (s.take len) = none := by
        by_contra hsome
        have heq := honly _ (List.take_prefix len s) (Option.isSome_iff_ne_none.mpr hsome)
        have := congrArg List.length heq
        rw [List.length_take] at this
        omega
      rw [hnone]
      exact ih htail hrest

theorem exactLoop_skip (cfg : DemaskConfig) (jsonEscape : Bool) (w s : Bytes) :
    exactLoop cfg jsonEscape w.length (w ++ s) = exactLoop cfg jsonEscape 0 s := by
  induction w with
  | nil => rfl
  | cons b w ih => exact ih

section Exact

variable {reps : List Replacement} {cfg : DemaskConfig} {jsonEscape : Bool}

theorem exactLoop_copy {b : Byte} {s : Bytes}
    (hnone : ∀ v, v <+: b :: s → cfg.indexByPlaceholder v = none) :
    exactLoop cfg jsonEscape 0 (b :: s) = b :: exactLoop cfg jsonEscape 0 s := by
  have hprobe := probeLengths_miss cfg (b :: s) none cfg.placeholderLengths
    fun len _ _ => hnone _ (List.take_prefix len _)
  rw [exactLoop, hprobe]
  simp

theorem exactLoop_hit (h : Tables reps cfg) {w s o : Bytes} (hw : w <+: s)
    (ho : exactOriginal reps jsonEscape w = some o)
    (honly : ∀ v, v <+: s → (cfg.indexByPlaceholder v).isSome → v = w) :
    exactLoop cfg jsonEscape 0 s = o ++ exactLoop cfg jsonEscape 0 (s.drop w.length) := by
  rw [← h.lookup] at ho
  have hsome : (cfg.indexByPlaceholder w).isSome := by
    rw [← lookup_isSome cfg h.toLookupIndex w jsonEscape, ho]
    rfl
  obtain ⟨i, hi⟩ := Option.isSome_iff_exists.mp hsome
  obtain ⟨e, he, -⟩ := h.index w i hi
  have hval : (if jsonEscape then e.jsonOriginal else e.original) = o := by
    simpa [DemaskConfig.lookup, hi, he] using ho
  cases w with
  | nil =>
    have hnil := h.lookup [] jsonEscape
    rw [ho] at hnil
    simp [exactOriginal] at hnil
  | cons b w =>
    obtain ⟨t, rfl⟩ := hw
    have hprobe := probeLengths_hit cfg (b :: w ++ t) (b :: w) i cfg.placeholderLengths h.sorted
      (h.lengths _ hsome) (List.prefix_append _ _) hi honly
    rw [List.cons_append] at hprobe
    rw [List.cons_append, exactLoop, h.first b w hsome, hprobe]
    simp only [Bool.not_true, Bool.false_eq_true, if_false, he, hval]
    rw [List.length_cons, Nat.add_sub_cancel, exactLoop_skip]
    simp

theorem exactLoop_copies (w s : Bytes)
    (hnone : ∀ a b v, w = a ++ b → b ≠ [] → v <+: b ++ s → cfg.indexByPlaceholder v = none) :
    exactLoop cfg jsonEscape 0 (w ++ s) = w ++ exactLoop cfg jsonEscape 0 s := by
  induction w with
  | nil => rfl
  | cons b w ih =>
    have hcopy : exactLoop cfg jsonEscape 0 (b :: (w ++ s)) = b :: exactLoop cfg jsonEscape 0 (w ++ s) :=
      exactLoop_copy fun v hv => hnone [] (b :: w) v rfl (by simp) hv
    rw [List.cons_append, hcopy, List.cons_append]
    congr 1
    exact ih fun a c v hac => hnone (b :: a) c v (by rw [hac, List.cons_append])

/-- The exact pass writes every placeholder of a faithful reading, and nothing else. -/
theorem exactLoop_render (h : Tables reps cfg) {special : Bytes → Prop}
    (hspecial : ∀ w, (exactOriginal reps jsonEscape w).isSome → special w) (items : List (Item Byte))
    (hfaithful : Faithful special items) :
    exactLoop cfg jsonEscape 0 (render items) = render (subst (exactOriginal reps jsonEscape) items) := by
  have hindex : ∀ w, (cfg.indexByPlaceholder w).isSome = (exactOriginal reps jsonEscape w).isSome := by
    intro w
    rw [← lookup_isSome cfg h.toLookupIndex w jsonEscape, h.lookup]
  induction items with
  | nil => rfl
  | cons x items ih =>
    cases x with
    | raw b =>
      have hrest : Faithful special items := by simpa [dropItems] using hfaithful.drop 1
      rw [render_raw, subst_raw, render_raw, ← ih hrest]
      refine exactLoop_copy fun v hv => ?_
      by_contra hsome
      rw [← ne_eq, ← Option.isSome_iff_ne_none, hindex] at hsome
      exact hfaithful.not_special_raw hv (hspecial v hsome)
    | tok w =>
      obtain ⟨hw, hne⟩ := hfaithful.marked w List.mem_cons_self
      have hrest : Faithful special items := by
        have := hfaithful.drop w.length
        simpa [dropItems, hne] using this
      -- A placeholder that begins within the word is the word itself.
      have hinside : ∀ a b v, w = a ++ b → b ≠ [] → v <+: b ++ render items →
          (cfg.indexByPlaceholder v).isSome → v = w := by
        intro a b v hab hb hv hsome
        rw [hindex] at hsome
        exact hfaithful.special_inside hab hb hv (hspecial v hsome)
      rw [render_tok]
      cases ho : exactOriginal reps jsonEscape w with
      | some o =>
        rw [subst_tok_some ho, render_append, render_plain, ← ih hrest,
          exactLoop_hit h (List.prefix_append w _) ho fun v => hinside [] w v rfl hne, List.drop_left]
      | none =>
        rw [subst_tok_none ho, render_tok, ← ih hrest]
        refine exactLoop_copies w _ fun a b v hab hb hv => ?_
        by_contra hsome
        have hv' := Option.isSome_iff_ne_none.mpr hsome
        have := hinside a b v hab hb hv hv'
        rw [hindex, this, ho] at hv'
        cases hv'

theorem applyExact_eq (h : Tables reps cfg) (text : Bytes) :
    applyExact cfg jsonEscape text = exactLoop cfg jsonEscape 0 text := by
  unfold applyExact
  split
  · rename_i hempty
    have hnone : ∀ v, cfg.indexByPlaceholder v = none := by
      intro v
      by_contra hsome
      have := h.lengths v (Option.isSome_iff_ne_none.mpr hsome)
      simp [List.isEmpty_iff.mp hempty] at this
    have hcopy : exactLoop cfg jsonEscape 0 (text ++ []) = text ++ exactLoop cfg jsonEscape 0 [] :=
      exactLoop_copies text [] fun _ _ v _ _ _ => hnone v
    simpa [exactLoop] using hcopy.symm
  · rfl

theorem exact_pass (h : Tables reps cfg) {special : Bytes → Prop}
    (hspecial : ∀ w, (exactOriginal reps jsonEscape w).isSome → special w) :
    Pass special (applyExact cfg jsonEscape) (exactOriginal reps jsonEscape) := by
  intro items hfaithful
  rw [← exactLoop_render h hspecial items hfaithful, applyExact_eq h]

end Exact

end LlmGuard
