import LlmGuard.Masker.Texts

/-!
# The workers of `scan_texts`, in any order

Every worker walks its own chunk and writes the results of the texts in it. The steps of the workers
interleave. What a text gives, matches or a failure, is any function of its index.
-/

namespace LlmGuard

/-! ## The two paths -/

/-- The serial path from index `i` on, with `count` texts to go. -/
def serialScan (outcome : Nat → TextScanResult) : Nat → Nat → List TextScanResult
  | _, 0 => []
  | i, count + 1 =>
    match outcome i with
    | .error e => .error e :: List.replicate count (.ok [])
    | .ok ms => .ok ms :: serialScan outcome (i + 1) count

def chunkIndexes (n workers w : Nat) : List Nat :=
  List.range' (chunkRange n workers w).1 ((chunkRange n workers w).2 - (chunkRange n workers w).1)

/-- What the tasks share, and what each still has ahead. -/
structure ScanState where
  todo : List (List Nat)
  /-- The indexes in the order in which they were scanned. -/
  scanned : List Nat
  results : List TextScanResult

def ScanState.init (n workers : Nat) : ScanState where
  todo := (List.range workers).map (chunkIndexes n workers)
  scanned := []
  results := List.replicate n (.ok [])

/-- Worker `w` scans its next text. A worker that is done does nothing. -/
def ScanState.step (outcome : Nat → TextScanResult) (st : ScanState) (w : Nat) : ScanState :=
  match st.todo[w]? with
  | some (i :: rest) => ⟨st.todo.set w rest, st.scanned ++ [i], st.results.set i (outcome i)⟩
  | _ => st

def ScanState.run (outcome : Nat → TextScanResult) (st : ScanState) (schedule : List Nat) : ScanState :=
  schedule.foldl (ScanState.step outcome) st

/-- Every task has returned. -/
def ScanState.Done (st : ScanState) : Prop := ∀ chunk ∈ st.todo, chunk = []

/-- `mask_texts` behind `scan_texts`. -/
def maskScanned (texts : List Bytes) (results : List TextScanResult) : Except Error MaskResult := do
  let found ← propagateFirstScanError 0 results
  maskPhase (texts.zip found)

theorem maskTexts_eq (env : Env) (texts : List Bytes) (rules : List (Option CompiledRule)) (opts : MaskOptions) :
    maskTexts env texts rules opts = maskScanned texts (scanTexts env texts rules opts) := rfl

/-! ## The chunks are the indexes -/

theorem chunkSize_covers (n : Nat) {workers : Nat} (hworkers : 0 < workers) :
    n ≤ workers * ((n + workers - 1) / workers) := by
  have := Nat.div_add_mod (n + workers - 1) workers
  have := Nat.mod_lt (n + workers - 1) hworkers
  omega

theorem chunkIndexes_append (n workers w : Nat) :
    List.range (min n (w * ((n + workers - 1) / workers))) ++ chunkIndexes n workers w =
      List.range (min n ((w + 1) * ((n + workers - 1) / workers))) := by
  unfold chunkIndexes chunkRange
  simp only
  generalize (n + workers - 1) / workers = chunk
  rw [Nat.succ_mul]
  rcases Nat.le_total n (w * chunk) with hle | hge
  · rw [Nat.min_eq_left hle, Nat.min_eq_left (by omega), Nat.sub_eq_zero_of_le hle]
    exact List.append_nil _
  · rw [Nat.min_eq_right hge]
    apply List.ext_getElem
    · rw [List.length_append, List.length_range, List.length_range', List.length_range]
      omega
    · intro i hi hi'
      rw [List.length_range] at hi'
      rw [List.getElem_append]
      split
      · rw [List.getElem_range, List.getElem_range]
      · rename_i hlt
        rw [List.length_range] at hlt
        simp only [List.length_range, List.getElem_range', List.getElem_range]
        omega

/-- Side by side, the chunks hold every index once and in order. -/
theorem flatten_chunks (n : Nat) {workers : Nat} (hworkers : 0 < workers) :
    ((List.range workers).map (chunkIndexes n workers)).flatten = List.range n := by
  have hfront : ∀ k, ((List.range k).map (chunkIndexes n workers)).flatten =
      List.range (min n (k * ((n + workers - 1) / workers))) := by
    intro k
    induction k with
    | zero => simp
    | succ k ih =>
      rw [List.range_succ, List.map_append, List.flatten_append, ih, List.map_singleton, List.flatten_singleton]
      exact chunkIndexes_append n workers k
  rw [hfront, Nat.min_eq_left (chunkSize_covers n hworkers)]

/-! ## What the steps keep -/

/-- After the texts in `scanned`, the results of these stand and every other place is still empty. -/
structure Scanning (outcome : Nat → TextScanResult) (n : Nat) (st : ScanState) : Prop where
  once : (st.scanned ++ st.todo.flatten).Perm (List.range n)
  written : ∀ j < n, st.results[j]? = some (if j ∈ st.scanned then outcome j else .ok [])
  size : st.results.length = n

theorem flatten_set_perm {α : Type} {l : List (List α)} {w : Nat} {x : α} {rest : List α}
    (h : l[w]? = some (x :: rest)) : l.flatten.Perm (x :: (l.set w rest).flatten) := by
  induction l generalizing w with
  | nil => cases h
  | cons a l ih =>
    cases w with
    | zero =>
      obtain rfl := Option.some.inj h
      rw [List.set_cons_zero, List.flatten_cons, List.flatten_cons, List.cons_append]
    | succ w =>
      rw [List.set_cons_succ, List.flatten_cons, List.flatten_cons]
      exact ((ih h).append_left a).trans List.perm_middle

theorem Scanning.init (outcome : Nat → TextScanResult) (n : Nat) {workers : Nat} (hworkers : 0 < workers) :
    Scanning outcome n (ScanState.init n workers) where
  once := by
    unfold ScanState.init
    rw [List.nil_append, flatten_chunks n hworkers]
  written := by
    intro j hj
    unfold ScanState.init
    rw [List.getElem?_replicate, if_pos hj, if_neg List.not_mem_nil]
  size := List.length_replicate

theorem Scanning.step {outcome : Nat → TextScanResult} {n : Nat} {st : ScanState} (h : Scanning outcome n st)
    (w : Nat) : Scanning outcome n (st.step outcome w) := by
  unfold ScanState.step
  split
  · rename_i i rest hw
    have hperm : (st.scanned ++ [i] ++ (st.todo.set w rest).flatten).Perm (List.range n) := by
      rw [List.append_assoc]
      exact ((flatten_set_perm hw).symm.append_left st.scanned).trans h.once
    have hi : i < n := by
      apply List.mem_range.mp
      apply hperm.subset
      simp
    refine ⟨hperm, ?_, ?_⟩
    · intro j hj
      rw [List.getElem?_set]
      by_cases hij : i = j
      · subst hij
        simp [h.size, hi]
      · rw [if_neg hij, h.written j hj]
        have : j ≠ i := Ne.symm hij
        simp [this]
    · rw [List.length_set]
      exact h.size
  · exact h

theorem Scanning.run {outcome : Nat → TextScanResult} {n : Nat} {st : ScanState} (h : Scanning outcome n st)
    (schedule : List Nat) : Scanning outcome n (st.run outcome schedule) := by
  induction schedule generalizing st with
  | nil => exact h
  | cons w schedule ih => exact ih (h.step w)

theorem ScanState.Done.flatten {st : ScanState} (h : st.Done) : st.todo.flatten = [] := by
  rw [List.flatten_eq_nil_iff]
  exact h

theorem Scanning.results_of_done {outcome : Nat → TextScanResult} {n : Nat} {st : ScanState}
    (h : Scanning outcome n st) (hdone : st.Done) :
    st.scanned.Perm (List.range n) ∧ st.results = (List.range n).map outcome := by
  have hperm : st.scanned.Perm (List.range n) := by
    have := h.once
    rwa [hdone.flatten, List.append_nil] at this
  refine ⟨hperm, List.ext_getElem? fun j => ?_⟩
  rcases Nat.lt_or_ge j n with hj | hj
  · rw [h.written j hj, if_pos (hperm.symm.subset (List.mem_range.mpr hj))]
    simp [hj]
  · rw [List.getElem?_eq_none (by rw [h.size]; exact hj), List.getElem?_eq_none (by simpa using hj)]

/-! ## The first error -/

theorem propagateFirstScanError_serial (outcome : Nat → TextScanResult) (i count : Nat) :
    propagateFirstScanError i (serialScan outcome i count) =
      propagateFirstScanError i ((List.range' i count).map outcome) := by
  induction count generalizing i with
  | zero => rfl
  | succ count ih =>
    rw [List.range'_succ, List.map_cons, serialScan]
    cases outcome i with
    | error e => rfl
    | ok ms =>
      rw [propagateFirstScanError, propagateFirstScanError]
      simp only [ih]

theorem propagateFirstScanError_first {outcome : Nat → TextScanResult} {i count j : Nat} {e : Error}
    (hij : i ≤ j) (hj : j < i + count) (herror : outcome j = .error e)
    (hfirst : ∀ k, i ≤ k → k < j → ∃ ms, outcome k = .ok ms) :
    propagateFirstScanError i ((List.range' i count).map outcome) = .error (scanTextError j e) := by
  induction count generalizing i with
  | zero => omega
  | succ count ih =>
    rw [List.range'_succ, List.map_cons]
    rcases Nat.eq_or_lt_of_le hij with rfl | hlt
    · rw [herror, propagateFirstScanError]
    · obtain ⟨ms, hms⟩ := hfirst i (Nat.le_refl i) hlt
      rw [hms, propagateFirstScanError, ih hlt (by omega) fun k hk => hfirst k (by omega)]
      rfl

/-! ## The scan of the program is one of these runs -/

theorem scanTextsSerial_eq_serialScan {scan : Bytes → TextScanResult} {outcome : Nat → TextScanResult}
    (front texts : List Bytes)
    (houtcome : ∀ i, front.length ≤ i → i < (front ++ texts).length → outcome i = scan ((front ++ texts).getD i [])) :
    scanTextsSerial scan texts = serialScan outcome front.length texts.length := by
  induction texts generalizing front with
  | nil => rfl
  | cons t ts ih =>
    have hhere : outcome front.length = scan t := by
      rw [houtcome front.length (Nat.le_refl _) (by simp)]
      simp
    have hrest := ih (front ++ [t]) fun i hi hlt => by
      rw [List.length_append] at hi
      rw [List.append_assoc, List.singleton_append] at hlt ⊢
      exact houtcome i (by omega) hlt
    rw [List.length_append, List.length_singleton] at hrest
    rw [scanTextsSerial, List.length_cons, serialScan, hhere]
    cases scan t with
    | error e => simp only [List.map_const']
    | ok ms => simp only [hrest]

theorem scanTextsParallel_outcomes {scan : Bytes → TextScanResult} {outcome : Nat → TextScanResult} (texts : List Bytes)
    (houtcome : ∀ i < texts.length, outcome i = scan (texts.getD i [])) {workers : Nat} (hworkers : 0 < workers) :
    scanTextsParallel scan texts workers = (List.range texts.length).map outcome := by
  rw [scanTextsParallel_eq scan texts hworkers]
  apply List.ext_getElem?
  intro j
  rcases Nat.lt_or_ge j texts.length with hj | hj
  · simp [hj, houtcome j hj]
  · simp [hj]

theorem scanTexts_eq {env : Env} {texts : List Bytes} {rules : List (Option CompiledRule)} {opts : MaskOptions}
    {outcome : Nat → TextScanResult}
    (houtcome : ∀ i < texts.length, outcome i = scanRules env (texts.getD i []) rules opts.scan) :
    scanTexts env texts rules opts = if textScanWorkerCount env texts opts ≤ 1 then serialScan outcome 0 texts.length
      else (List.range texts.length).map outcome := by
  unfold scanTexts
  simp only
  split
  · exact scanTextsSerial_eq_serialScan [] texts fun i _ hlt => houtcome i hlt
  · rename_i hworkers
    exact scanTextsParallel_outcomes texts houtcome (by omega)

/-- Whatever scanning gives, and in whatever order the workers run, each text is scanned once and `mask_texts`
gives what it gives on the serial path: the same texts and state, or the error of the first failing text. -/
theorem workers_invisible (texts : List Bytes) (outcome : Nat → TextScanResult) {workers : Nat}
    (hworkers : 0 < workers) (schedule : List Nat)
    (hdone : ((ScanState.init texts.length workers).run outcome schedule).Done) :
    ((ScanState.init texts.length workers).run outcome schedule).scanned.Perm (List.range texts.length) ∧
      maskScanned texts ((ScanState.init texts.length workers).run outcome schedule).results =
        maskScanned texts (serialScan outcome 0 texts.length) ∧
      (∀ i e, i < texts.length → outcome i = .error e → (∀ j < i, ∃ ms, outcome j = .ok ms) →
        maskScanned texts (serialScan outcome 0 texts.length) = .error (scanTextError i e)) ∧
      ∀ env rules opts, (∀ i < texts.length, outcome i = scanRules env (texts.getD i []) rules opts.scan) →
        scanTexts env texts rules opts = (if textScanWorkerCount env texts opts ≤ 1
          then serialScan outcome 0 texts.length
          else ((ScanState.init texts.length workers).run outcome schedule).results) ∧
        maskTexts env texts rules opts =
          maskScanned texts ((ScanState.init texts.length workers).run outcome schedule).results := by
  obtain ⟨hperm, hresults⟩ := ((Scanning.init outcome texts.length hworkers).run schedule).results_of_done hdone
  have hsame : maskScanned texts ((List.range texts.length).map outcome) =
      maskScanned texts (serialScan outcome 0 texts.length) := by
    unfold maskScanned
    rw [List.range_eq_range', propagateFirstScanError_serial]
  rw [hresults]
  refine ⟨hperm, hsame, ?_, fun env rules opts houtcome => ⟨scanTexts_eq houtcome, ?_⟩⟩
  · intro i e hi herror hfirst
    unfold maskScanned
    rw [propagateFirstScanError_serial,
      propagateFirstScanError_first (Nat.zero_le i) (by omega) herror fun j _ hj => hfirst j hj]
    rfl
  · rw [maskTexts_eq, scanTexts_eq houtcome]
    split
    · exact hsame.symm
    · rfl

/-- The text in the middle cannot be scanned. -/
def middleFails : Nat → TextScanResult := fun i => if i = 1 then .error nullMatchError else .ok []

/-- Three texts and two workers. The second worker goes first. -/
theorem workers_invisible_sample :
    ((ScanState.init 3 2).run middleFails [1, 0, 0]).scanned = [2, 0, 1] ∧
      maskScanned [ascii "a", ascii "b", ascii "c"] ((ScanState.init 3 2).run middleFails [1, 0, 0]).results =
        .error (scanTextError 1 nullMatchError) := by
  have hdone : ((ScanState.init 3 2).run middleFails [1, 0, 0]).Done := by
    unfold ScanState.Done
    decide
  have h := workers_invisible [ascii "a", ascii "b", ascii "c"] middleFails (by decide : 0 < 2) [1, 0, 0] hdone
  exact ⟨rfl, h.2.1.trans (h.2.2.1 1 nullMatchError (by decide) rfl fun j hj => ⟨[], if_neg (by omega)⟩)⟩

end LlmGuard
