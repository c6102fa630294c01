import LlmGuard.Masker.Coverage

/-!
# `mask_texts` scans every text

The workers split the texts between them, and each text is scanned once.
-/

namespace LlmGuard

/-! ## Writing at indexes -/

theorem foldl_set_getElem? {α : Type} (value : Nat → α) (l : List Nat) (results : List α) (j : Nat) :
    (l.foldl (fun results i => results.set i (value i)) results)[j]? =
      if j ∈ l then results[j]?.map fun _ => value j else results[j]? := by
  induction l generalizing results with
  | nil => simp
  | cons i l ih =>
    rw [List.foldl_cons, ih, List.getElem?_set]
    by_cases hij : i = j
    · subst hij
      by_cases hlen : i < results.length
      · simp [hlen]
      · simp [hlen]
    · have : j ≠ i := Ne.symm hij
      simp [hij, this]

theorem mem_chunks (n j : Nat) {workers : Nat} (hworkers : 0 < workers) :
    j ∈ (List.range workers).flatMap (fun w =>
      List.range' (chunkRange n workers w).1 ((chunkRange n workers w).2 - (chunkRange n workers w).1)) ↔ j < n := by
  simp only [List.mem_flatMap, List.mem_range, List.mem_range'_1, chunkRange]
  generalize hchunk : (n + workers - 1) / workers = chunk
  have hcover : n ≤ workers * chunk := by
    have := Nat.div_add_mod (n + workers - 1) workers
    have := Nat.mod_lt (n + workers - 1) hworkers
    rw [hchunk] at *
    omega
  constructor
  · rintro ⟨w, -, hlo, hhi⟩
    omega
  · intro hj
    have hpos : 0 < chunk := by
      rcases Nat.eq_zero_or_pos chunk with h | h
      · rw [h, Nat.mul_zero] at hcover
        omega
      · exact h
    have hdiv := Nat.div_add_mod j chunk
    have hmod := Nat.mod_lt j hpos
    refine ⟨j / chunk, ?_, ?_, ?_⟩
    · exact Nat.div_lt_of_lt_mul (by rw [Nat.mul_comm]; omega)
    · rw [Nat.mul_comm]
      omega
    · rw [Nat.mul_comm]
      omega

theorem scanTextsParallel_eq (scan : Bytes → TextScanResult) (texts : List Bytes) {workers : Nat}
    (hworkers : 0 < workers) : scanTextsParallel scan texts workers = texts.map scan := by
  apply List.ext_getElem?
  intro j
  unfold scanTextsParallel scanChunk
  rw [← List.foldl_flatMap, foldl_set_getElem?]
  simp only [mem_chunks texts.length j hworkers, List.getElem?_map]
  split
  · rename_i hj
    simp [hj]
  · rename_i hj
    simp [List.getElem?_eq_none (Nat.le_of_not_lt hj)]

theorem scanTextsSerial_eq {scan : Bytes → TextScanResult} {texts : List Bytes}
    (hok : ∀ t ∈ texts, ∃ ms, scan t = .ok ms) : scanTextsSerial scan texts = texts.map scan := by
  induction texts with
  | nil => rfl
  | cons t ts ih =>
    obtain ⟨ms, hms⟩ := hok t (by simp)
    rw [scanTextsSerial, hms, List.map_cons, ih fun t ht => hok t (List.mem_cons_of_mem _ ht), hms]

theorem propagateFirstScanError_ok (i : Nat) (found : List (List ScanMatch)) :
    propagateFirstScanError i (found.map .ok) = .ok found := by
  induction found generalizing i with
  | nil => rfl
  | cons ms found ih => simp [propagateFirstScanError, ih, bind, Except.bind]

/-- With compiled rules every scan succeeds, and Phase A finds the matches of every text. -/
theorem scanTexts_calls (env : Env) (hre : InText env.re2) (hsort : SortSpec env.sortMatches)
    {crs : List CompiledRule} (hcompiled : ∀ cr ∈ crs, cr.re.isSome) (texts : List Bytes) (opts : MaskOptions) :
    ∃ calls : List Call, calls.map Call.text = texts ∧
      (∀ c ∈ calls, scanRules env c.text (crs.map some) opts.scan = .ok c.ms ∧
        ∀ m ∈ c.ms, ∃ cr ∈ crs, m.rule = some cr) ∧
      maskTexts env texts (crs.map some) opts = maskPhase (calls.map Call.args) := by
  have hcall := fun t => scanRules_call env hre hsort hcompiled t opts.scan
  choose call htext hscan hrules using hcall
  have hself : Call.text ∘ call = id := funext htext
  refine ⟨texts.map call, ?_, ?_, ?_⟩
  · rw [List.map_map, hself, List.map_id]
  · intro c hc
    obtain ⟨t, -, rfl⟩ := List.mem_map.mp hc
    rw [htext]
    exact ⟨hscan t, hrules t⟩
  · have hresults : scanTexts env texts (crs.map some) opts = (texts.map fun t => (call t).ms).map .ok := by
      have hmap : texts.map (fun t => scanRules env t (crs.map some) opts.scan) =
          (texts.map fun t => (call t).ms).map .ok := by simp [hscan]
      unfold scanTexts
      simp only
      split
      · rw [scanTextsSerial_eq fun t _ => ⟨_, hscan t⟩, hmap]
      · rw [scanTextsParallel_eq _ _ (by omega), hmap]
    have hzip : texts.zip (texts.map fun t => (call t).ms) = (texts.map call).map Call.args := by
      rw [List.map_map, List.zip_map_right, List.zip_eq_zipWith, List.zipWith_self, List.map_map]
      exact List.map_congr_left fun t _ => Prod.ext (htext t).symm rfl
    unfold maskTexts
    rw [hresults, propagateFirstScanError_ok]
    simp only [bind, Except.bind, hzip]

end LlmGuard
