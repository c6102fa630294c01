import LlmGuard.Demasker.Stream

/-!
# The exact pass is a plain replacer

The tables of `make_config` stand for a scan of the list of replacements: from left to right, the first one whose
placeholder occurs at a place.
-/

namespace LlmGuard

/-! ## The replacer -/

/-- The first replacement in the list whose placeholder occurs at the front. A blank placeholder occurs nowhere. -/
def firstAt (reps : List Replacement) (s : Bytes) : Option Replacement :=
  reps.find? fun r => r.placeholder ≠ [] && r.placeholder.isPrefixOf s

theorem firstAt_length {reps : List Replacement} {s : Bytes} {r : Replacement} (h : firstAt reps s = some r) :
    0 < r.placeholder.length ∧ r.placeholder <+: s := by
  have hr := List.find?_some h
  simp only [Bool.and_eq_true, decide_eq_true_eq, List.isPrefixOf_iff_prefix] at hr
  exact ⟨List.length_pos_iff.mpr hr.1, hr.2⟩

/-- Writes the original and jumps behind the placeholder, or copies one byte. -/
def replacer (reps : List Replacement) (jsonEscape : Bool) (s : Bytes) : Bytes :=
  match s with
  | [] => []
  | b :: t =>
    match _h : firstAt reps (b :: t) with
    | none => b :: replacer reps jsonEscape t
    | some r => restored jsonEscape r.original ++ replacer reps jsonEscape ((b :: t).drop r.placeholder.length)
termination_by s.length
decreasing_by
  · simp
  · have := (firstAt_length ‹_›).1
    simp only [List.length_drop, List.length_cons]
    omega

theorem replacer_copy {reps : List Replacement} {jsonEscape : Bool} {b : Byte} {t : Bytes}
    (h : firstAt reps (b :: t) = none) : replacer reps jsonEscape (b :: t) = b :: replacer reps jsonEscape t := by
  rw [replacer]
  split
  · rfl
  · rename_i r hr
    rw [h] at hr
    cases hr

theorem replacer_hit {reps : List Replacement} {jsonEscape : Bool} {b : Byte} {t : Bytes} {r : Replacement}
    (h : firstAt reps (b :: t) = some r) : replacer reps jsonEscape (b :: t) =
      restored jsonEscape r.original ++ replacer reps jsonEscape ((b :: t).drop r.placeholder.length) := by
  rw [replacer]
  split
  · rename_i hr
    rw [h] at hr
    cases hr
  · rename_i r' hr
    rw [h] at hr
    rw [Option.some.inj hr]

/-! ## The entries are the replacements in order -/

/-- Every placeholder once, under its first original, in the order of the list. -/
structure EntryOrder (reps : List Replacement) (cfg : DemaskConfig) : Prop where
  distinct : (cfg.entries.map (·.placeholder)).Nodup
  escaped : ∀ e ∈ cfg.entries, e.jsonOriginal = Json.encodeString e.original false
  found : ∀ p : Bytes → Bool,
    (cfg.entries.find? fun e => p e.placeholder).map (fun e => (e.placeholder, e.original)) =
      (reps.find? fun r => r.placeholder ≠ [] && p r.placeholder).map fun r => (r.placeholder, r.original)

theorem entryOrder_empty : EntryOrder [] DemaskConfig.empty where
  distinct := .nil
  escaped := by simp [DemaskConfig.empty]
  found := by simp [DemaskConfig.empty]

theorem find?_placeholder_append (reps : List Replacement) (rep : Replacement) (p : Bytes → Bool) :
    ((reps ++ [rep]).find? fun r => r.placeholder ≠ [] && p r.placeholder) =
      (reps.find? fun r => r.placeholder ≠ [] && p r.placeholder).or
        (if rep.placeholder ≠ [] ∧ p rep.placeholder then some rep else none) := by
  rw [List.find?_append]
  by_cases hp : rep.placeholder ≠ [] ∧ p rep.placeholder
  · rw [if_pos hp, List.find?_cons_of_pos (by simpa using hp)]
  · rw [if_neg hp, List.find?_cons_of_neg (by simpa using hp), List.find?_nil]

theorem found_skipped {reps : List Replacement} {cfg : DemaskConfig} (hindex : LookupIndex reps cfg)
    (h : EntryOrder reps cfg) {rep : Replacement}
    (hskip : rep.placeholder = [] ∨ (cfg.indexByPlaceholder rep.placeholder).isSome) (p : Bytes → Bool) :
    ((reps ++ [rep]).find? fun r => r.placeholder ≠ [] && p r.placeholder).map (fun r => (r.placeholder, r.original)) =
      (reps.find? fun r => r.placeholder ≠ [] && p r.placeholder).map fun r => (r.placeholder, r.original) := by
  rw [find?_placeholder_append]
  by_cases hp : rep.placeholder ≠ [] ∧ p rep.placeholder
  · obtain ⟨i, hi⟩ := Option.isSome_iff_exists.mp (hskip.resolve_left hp.1)
    obtain ⟨e, he, hplace⟩ := hindex.index _ i hi
    have hsome : (cfg.entries.find? fun e => p e.placeholder).isSome :=
      List.find?_isSome.mpr ⟨e, List.mem_of_getElem? he, by rw [hplace]; exact hp.2⟩
    have hfound := congrArg Option.isSome (h.found p)
    simp only [Option.isSome_map, hsome] at hfound
    obtain ⟨r, hr⟩ := Option.isSome_iff_exists.mp hfound.symm
    rw [hr, Option.some_or]
  · rw [if_neg hp, Option.or_none]

theorem entryOrder_withEntry {reps : List Replacement} {cfg : DemaskConfig} (hindex : LookupIndex reps cfg)
    (h : EntryOrder reps cfg) {rep : Replacement} {b : Byte} {rest : Bytes} (hcons : rep.placeholder = b :: rest)
    (hnew : cfg.indexByPlaceholder rep.placeholder = none) : EntryOrder (reps ++ [rep]) (cfg.withEntry rep b) where
  distinct := by
    have hfresh : rep.placeholder ∉ cfg.entries.map (·.placeholder) := by
      intro hmem
      obtain ⟨e, he, hplace⟩ := List.mem_map.mp hmem
      have hknown := hindex.entry e he
      rw [hplace, hnew] at hknown
      cases hknown
    rw [withEntry_entries, List.map_append]
    exact h.distinct.append (List.nodup_singleton _) (List.disjoint_singleton.mpr hfresh)
  escaped e he := by
    rcases List.mem_append.mp he with he | he
    · exact h.escaped e he
    · rw [List.mem_singleton.mp he]
  found p := by
    have hne : rep.placeholder ≠ [] := by simp [hcons]
    have hfound := h.found p
    rw [find?_placeholder_append, withEntry_entries, List.find?_append]
    cases he : cfg.entries.find? fun e => p e.placeholder with
    | some e =>
      rw [he, Option.map_some] at hfound
      obtain ⟨r, hr, heq⟩ := Option.map_eq_some_iff.mp hfound.symm
      rw [hr, Option.some_or, Option.some_or, Option.map_some, Option.map_some, heq]
    | none =>
      rw [he, Option.map_none, eq_comm, Option.map_eq_none_iff] at hfound
      rw [hfound, Option.none_or, Option.none_or]
      by_cases hp : p rep.placeholder
      · rw [if_pos ⟨hne, hp⟩, List.find?_cons_of_pos (by simpa using hp)]
        rfl
      · rw [if_neg fun hand => hp hand.2, List.find?_cons_of_neg (by simpa using hp)]
        rfl

theorem entryOrder_addReplacement {reps : List Replacement} {cfg : DemaskConfig} (hindex : LookupIndex reps cfg)
    (h : EntryOrder reps cfg) (rep : Replacement) : EntryOrder (reps ++ [rep]) (cfg.addReplacement rep) := by
  rcases addReplacement_cases cfg rep with ⟨hsame, hskip⟩ | ⟨b, rest, hcons, hnew, hadd⟩
  · rw [hsame]
    exact ⟨h.distinct, h.escaped, fun p => (h.found p).trans (found_skipped hindex h hskip p).symm⟩
  · rw [hadd]
    exact entryOrder_withEntry hindex h hcons hnew

theorem entryOrder_foldl (reps : List Replacement) :
    EntryOrder reps (reps.foldl DemaskConfig.addReplacement DemaskConfig.empty) :=
  (foldl_addReplacement_induction (P := fun done cfg => LookupIndex done cfg ∧ EntryOrder done cfg)
    ⟨lookupIndex_empty, entryOrder_empty⟩
    (fun _ _ rep h => ⟨lookupIndex_addReplacement h.1 rep, entryOrder_addReplacement h.1 h.2 rep⟩) reps).2

theorem makeConfig_entryOrder (env : Env) (state : MaskingState) (pinned : Option Registry) :
    EntryOrder state.replacements (makeConfig env state pinned) := by
  have h := entryOrder_foldl state.replacements
  obtain ⟨hentries, -⟩ := makeConfig_fields env state pinned
  constructor <;> rw [hentries]
  · exact h.distinct
  · exact h.escaped
  · exact h.found

/-! ## The probe finds the lowest entry -/

/-- What the probe knows: `best` is the lowest index of the placeholders at the front seen so far. -/
structure Probed (cfg : DemaskConfig) (s : Bytes) (seen : List Nat) (best : Option (Nat × Nat)) : Prop where
  hit : ∀ i len, best = some (i, len) → len ≤ s.length ∧ cfg.indexByPlaceholder (s.take len) = some i
  lowest : ∀ len ∈ seen, len ≤ s.length → ∀ j, cfg.indexByPlaceholder (s.take len) = some j →
    ∃ i len', best = some (i, len') ∧ i ≤ j

/-- One more length: the new best is as low as the old one, and as low as what the length finds. -/
theorem Probed.snoc {cfg : DemaskConfig} {s : Bytes} {seen : List Nat} {best best' : Option (Nat × Nat)} {len : Nat}
    (h : Probed cfg s seen best)
    (hit : ∀ i l, best' = some (i, l) → l ≤ s.length ∧ cfg.indexByPlaceholder (s.take l) = some i)
    (hold : ∀ k l, best = some (k, l) → ∃ i l', best' = some (i, l') ∧ i ≤ k)
    (hnew : ∀ j, cfg.indexByPlaceholder (s.take len) = some j → ∃ i l', best' = some (i, l') ∧ i ≤ j) :
    Probed cfg s (seen ++ [len]) best' where
  hit := hit
  lowest l hl hle j hj := by
    rcases List.mem_append.mp hl with hl | hl
    · obtain ⟨k, l', hbest, hk⟩ := h.lowest l hl hle j hj
      obtain ⟨i, l'', hbest', hi⟩ := hold k l' hbest
      exact ⟨i, l'', hbest', hi.trans hk⟩
    · rw [List.mem_singleton.mp hl] at hj
      exact hnew j hj

theorem Probed.tooLong {cfg : DemaskConfig} {s : Bytes} {seen lens : List Nat} {best : Option (Nat × Nat)}
    (h : Probed cfg s seen best) (hlong : ∀ l ∈ lens, s.length < l) : Probed cfg s (seen ++ lens) best where
  hit := h.hit
  lowest l hl hle := by
    rcases List.mem_append.mp hl with hl | hl
    · exact h.lowest l hl hle
    · have := hlong l hl
      omega

theorem probeLengths_probed (cfg : DemaskConfig) (s : Bytes) {seen lens : List Nat} {best : Option (Nat × Nat)}
    (hsorted : lens.Pairwise fun a b => decide (a < b)) (h : Probed cfg s seen best) :
    Probed cfg s (seen ++ lens) (probeLengths cfg s lens best) := by
  induction lens generalizing seen best with
  | nil => rwa [List.append_nil]
  | cons len lens ih =>
    obtain ⟨hhead, htail⟩ := List.pairwise_cons.mp hsorted
    unfold probeLengths
    split
    · rename_i hlong
      refine h.tooLong (List.forall_mem_cons.mpr ⟨hlong, fun l hl => ?_⟩)
      have := of_decide_eq_true (hhead l hl)
      omega
    · rename_i hfits
      rw [List.append_cons]
      cases hi : cfg.indexByPlaceholder (s.take len) with
      | none =>
        refine ih htail (h.snoc h.hit (fun k l hbest => ⟨k, l, hbest, Nat.le_refl k⟩) fun j hj => ?_)
        rw [hi] at hj
        cases hj
      | some i =>
        have hit : ∀ k l, some (i, len) = some (k, l) → l ≤ s.length ∧ cfg.indexByPlaceholder (s.take l) = some k := by
          rintro k l ⟨⟩
          exact ⟨by omega, hi⟩
        have hnew : ∀ j, cfg.indexByPlaceholder (s.take len) = some j → j = i :=
          fun j hj => Option.some.inj (hj.symm.trans hi)
        cases best with
        | none =>
          refine ih htail (h.snoc hit (fun k l hbest => ?_) fun j hj => ⟨i, len, rfl, (hnew j hj).ge⟩)
          cases hbest
        | some b =>
          obtain ⟨k, l⟩ := b
          dsimp only
          split
          · rename_i hlt
            refine ih htail (h.snoc hit ?_ fun j hj => ⟨i, len, rfl, (hnew j hj).ge⟩)
            rintro k' l' ⟨⟩
            exact ⟨i, len, rfl, hlt.le⟩
          · rename_i hge
            refine ih htail (h.snoc h.hit (fun k' l' hbest => ⟨k', l', hbest, Nat.le_refl k'⟩) fun j hj => ?_)
            have := hnew j hj
            exact ⟨k, l, rfl, by omega⟩

section Probe

variable {reps : List Replacement} {cfg : DemaskConfig}

theorem index_eq_some_iff (h : LookupIndex reps cfg) (horder : EntryOrder reps cfg) {w : Bytes} {i : Nat} :
    cfg.indexByPlaceholder w = some i ↔ ∃ e, cfg.entries[i]? = some e ∧ e.placeholder = w := by
  refine ⟨h.index w i, ?_⟩
  rintro ⟨e, he, rfl⟩
  obtain ⟨j, hj⟩ := Option.isSome_iff_exists.mp (h.entry e (List.mem_of_getElem? he))
  obtain ⟨e', he', hplace⟩ := h.index _ j hj
  have hi : (cfg.entries.map (·.placeholder))[i]? = some e.placeholder := by rw [List.getElem?_map, he]; rfl
  have hj' : (cfg.entries.map (·.placeholder))[j]? = some e.placeholder := by rw [List.getElem?_map, he', ← hplace]; rfl
  obtain ⟨hlt, -⟩ := List.getElem?_eq_some_iff.mp hi
  have : i = j := (List.getElem?_inj hlt horder.distinct).mp (hi.trans hj'.symm)
  rw [this, hj]

/-- The probe finds what a scan of the list finds. -/
theorem probeLengths_firstAt (h : Tables reps cfg) (horder : EntryOrder reps cfg) (s : Bytes) :
    match probeLengths cfg s cfg.placeholderLengths none with
    | none => firstAt reps s = none
    | some (i, len) => ∃ e r, cfg.entries[i]? = some e ∧ e.placeholder.length = len ∧ firstAt reps s = some r ∧
        r.placeholder = e.placeholder ∧ r.original = e.original := by
  have hstart : Probed cfg s [] none := ⟨by simp, by simp⟩
  have hprobed := probeLengths_probed cfg s h.sorted hstart
  rw [List.nil_append] at hprobed
  have hindex := fun {w i} => index_eq_some_iff h.toLookupIndex horder (w := w) (i := i)
  have hlowest : ∀ w j, w <+: s → cfg.indexByPlaceholder w = some j →
      ∃ i len, probeLengths cfg s cfg.placeholderLengths none = some (i, len) ∧ i ≤ j := by
    intro w j hw hj
    have hlen := h.lengths w (by rw [hj]; rfl)
    exact hprobed.lowest _ hlen hw.length_le j (by rwa [← List.prefix_iff_eq_take.mp hw])
  have hfound := horder.found fun w => w.isPrefixOf s
  split
  · rename_i hnone
    have hentries : (cfg.entries.find? fun e => e.placeholder.isPrefixOf s) = none := by
      rw [List.find?_eq_none]
      intro e he hpre
      obtain ⟨j, hj⟩ := Option.isSome_iff_exists.mp (h.entry e he)
      obtain ⟨i, len, hbest, -⟩ := hlowest _ j (List.isPrefixOf_iff_prefix.mp hpre) hj
      rw [hnone] at hbest
      cases hbest
    rw [hentries, Option.map_none, eq_comm, Option.map_eq_none_iff] at hfound
    exact hfound
  · rename_i i len hbest
    obtain ⟨hlen, hi⟩ := hprobed.hit i len hbest
    obtain ⟨e, he, hplace⟩ := hindex.mp hi
    have hentries : (cfg.entries.find? fun e => e.placeholder.isPrefixOf s) = some e := by
      rw [List.find?_eq_some_iff_getElem]
      obtain ⟨hlt, hget⟩ := List.getElem?_eq_some_iff.mp he
      refine ⟨?_, i, hlt, hget, fun j hj => ?_⟩
      · rw [List.isPrefixOf_iff_prefix, hplace]
        exact List.take_prefix len s
      · rw [Bool.not_eq_true', Bool.eq_false_iff]
        intro hpre
        obtain ⟨i', len', hbest', hle⟩ := hlowest _ j (List.isPrefixOf_iff_prefix.mp hpre)
          (hindex.mpr ⟨_, List.getElem?_eq_getElem (by omega), rfl⟩)
        rw [hbest] at hbest'
        cases hbest'
        omega
    rw [hentries, Option.map_some] at hfound
    obtain ⟨r, hr, heq⟩ := Option.map_eq_some_iff.mp hfound.symm
    obtain ⟨hp, ho⟩ := Prod.mk.inj heq
    exact ⟨e, r, he, by rw [hplace, List.length_take, Nat.min_eq_left hlen], hr, hp, ho⟩

/-! ## The exact pass -/

theorem firstAt_first (h : Tables reps cfg) (horder : EntryOrder reps cfg) {b : Byte} {t : Bytes}
    (hfirst : cfg.placeholderFirstByte b = false) : firstAt reps (b :: t) = none := by
  have hfound := horder.found fun w => w.isPrefixOf (b :: t)
  have hentries : (cfg.entries.find? fun e => e.placeholder.isPrefixOf (b :: t)) = none := by
    rw [List.find?_eq_none]
    intro e he hpre
    have hsome := h.entry e he
    rw [List.isPrefixOf_iff_prefix] at hpre
    cases hw : e.placeholder with
    | nil =>
      have hnil := h.lookup [] false
      rw [hw, ← lookup_isSome cfg h.toLookupIndex [] false, hnil] at hsome
      simp [exactOriginal] at hsome
    | cons c w =>
      rw [hw] at hsome hpre
      rw [← (List.cons_prefix_cons.mp hpre).1, h.first c w hsome] at hfirst
      cases hfirst
  rw [hentries, Option.map_none, eq_comm, Option.map_eq_none_iff] at hfound
  exact hfound

theorem exactLoop_replacer (h : Tables reps cfg) (horder : EntryOrder reps cfg) (jsonEscape : Bool) (s : Bytes) :
    exactLoop cfg jsonEscape 0 s = replacer reps jsonEscape s := by
  induction hn : s.length using Nat.strong_induction_on generalizing s with
  | _ n ih =>
    cases s with
    | nil => rw [exactLoop, replacer]
    | cons b t =>
      simp only [List.length_cons] at hn
      have hrest : exactLoop cfg jsonEscape 0 t = replacer reps jsonEscape t := ih t.length (by omega) t rfl
      have hprobe := probeLengths_firstAt h horder (b :: t)
      rw [exactLoop]
      split
      · rename_i hfirst
        rw [replacer_copy (firstAt_first h horder (by simpa using hfirst)), hrest]
      · split
        · rename_i hmiss
          rw [hmiss] at hprobe
          rw [replacer_copy hprobe, hrest]
        · rename_i i len hbest
          rw [hbest] at hprobe
          obtain ⟨e, r, he, hlen, hr, hplace, horiginal⟩ := hprobe
          obtain ⟨hpos, hpre⟩ := firstAt_length hr
          have hval : (if jsonEscape then e.jsonOriginal else e.original) = restored jsonEscape r.original := by
            rw [restored, horiginal, horder.escaped e (List.mem_of_getElem? he)]
          obtain ⟨c, w, hw⟩ : ∃ c w, r.placeholder = c :: w := List.exists_cons_of_length_pos hpos
          obtain ⟨u, hu⟩ := hpre
          rw [hw, List.cons_append] at hu
          obtain ⟨-, rfl⟩ := List.cons.inj hu
          have hskip : len - 1 = w.length := by rw [← hlen, ← hplace, hw]; rfl
          have hbehind : exactLoop cfg jsonEscape 0 u = replacer reps jsonEscape u :=
            ih u.length (by simp only [List.length_append] at hn; omega) u rfl
          rw [replacer_hit hr, hw, he]
          simp only [hval, hskip, exactLoop_skip, hbehind, List.length_cons, List.drop_succ_cons, List.drop_left]

/-- The exact pass is the replacer. -/
theorem demaskAll_replacer (env : Env) (state : MaskingState) (text : Bytes) (jsonEscape : Bool) :
    demaskAll (makeConfig env state none) text jsonEscape = .ok (replacer state.replacements jsonEscape text) := by
  have h := makeConfig_tables env state none
  have horder := makeConfig_entryOrder env state none
  have hexact : applyExact (makeConfig env state none) jsonEscape text = replacer state.replacements jsonEscape text := by
    rw [applyExact_eq h, exactLoop_replacer h horder]
  unfold demaskAll Demasker.demaskChunk
  simp only [List.nil_append]
  split
  · rename_i hempty
    rw [List.isEmpty_iff.mp hempty, replacer]
  · have hscan : (makeConfig env state none).scan = none := makeConfig_none_scan env state
    simp only [applyPlaceholderRegex, hscan, if_true, hexact]

end Probe

end LlmGuard
