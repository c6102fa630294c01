import LlmGuard.Demasker.Exact

/-!
# The bytes of a stream, call by call

A call may flush or not, and its scan may answer anything or throw. What a call emits, throws or keeps is the
demasked buffer.
-/

namespace LlmGuard

/-! ## The end of the exact pass -/

section Rounds

variable {cfg : DemaskConfig} {jsonEscape : Bool}

theorem probeLengths_some {s : Bytes} {lens : List Nat} {best : Option (Nat × Nat)} {i len : Nat}
    (hbest : ∀ t, best = some t → cfg.indexByPlaceholder (s.take t.2) = some t.1 ∧ t.2 ≤ s.length)
    (h : probeLengths cfg s lens best = some (i, len)) :
    cfg.indexByPlaceholder (s.take len) = some i ∧ len ≤ s.length := by
  induction lens generalizing best with
  | nil => exact hbest (i, len) h
  | cons l lens ih =>
    unfold probeLengths at h
    split at h
    · exact hbest (i, len) h
    · rename_i hle
      split at h
      · exact ih hbest h
      · rename_i j hj
        have hone : ∀ t, some (j, l) = some t → cfg.indexByPlaceholder (s.take t.2) = some t.1 ∧ t.2 ≤ s.length := by
          intro t ht
          rw [← Option.some.inj ht]
          exact ⟨hj, Nat.le_of_not_lt hle⟩
        split at h
        · exact ih hone h
        · split at h
          · exact ih hone h
          · exact ih hbest h

/-- Without an empty placeholder every round moves the loop, and it ends. -/
theorem exactRounds_eq (hne : cfg.indexByPlaceholder [] = none) (s : Bytes) {rounds : Nat} (hrounds : s.length ≤ rounds) :
    exactRounds cfg jsonEscape rounds s = some (exactLoop cfg jsonEscape 0 s) := by
  induction rounds generalizing s with
  | zero =>
    obtain rfl := List.eq_nil_of_length_eq_zero (Nat.le_zero.mp hrounds)
    rfl
  | succ rounds ih =>
    cases s with
    | nil => rfl
    | cons b s =>
      rw [List.length_cons] at hrounds
      have hcopy := ih s (by omega)
      unfold exactRounds exactLoop
      split
      · rw [hcopy, Option.map_some]
      · cases hprobe : probeLengths cfg (b :: s) cfg.placeholderLengths none with
        | none => simp only [hcopy, Option.map_some]
        | some hit =>
          obtain ⟨i, len⟩ := hit
          obtain ⟨hindex, hlen⟩ := probeLengths_some (by simp) hprobe
          cases len with
          | zero =>
            rw [List.take_zero, hne] at hindex
            cases hindex
          | succ len =>
            have hskip : exactLoop cfg jsonEscape len s = exactLoop cfg jsonEscape 0 (s.drop len) := by
              have hfront : (s.take len).length = len := by
                rw [List.length_take, Nat.min_eq_left (Nat.le_of_succ_le_succ hlen)]
              have := exactLoop_skip cfg jsonEscape (s.take len) (s.drop len)
              rwa [List.take_append_drop, hfront] at this
            have hrest := ih (s.drop len) (by rw [List.length_drop]; omega)
            simp only [List.drop_succ_cons, hrest, Option.map_some, Nat.add_sub_cancel, hskip]

/-- At a hit of an empty placeholder the loop stays. -/
theorem exactRounds_stuck {b : Byte} {s : Bytes} {i : Nat} (hfirst : cfg.placeholderFirstByte b = true)
    (hprobe : probeLengths cfg (b :: s) cfg.placeholderLengths none = some (i, 0)) (rounds : Nat) :
    exactRounds cfg jsonEscape rounds (b :: s) = none := by
  induction rounds with
  | zero => rfl
  | succ rounds ih =>
    rw [exactRounds, hfirst, hprobe]
    simp [ih]

theorem applyExactRounds_eq (hne : cfg.indexByPlaceholder [] = none) (text : Bytes) :
    applyExactRounds cfg jsonEscape text.length text = some (applyExact cfg jsonEscape text) := by
  unfold applyExactRounds applyExact
  split
  · rfl
  · exact exactRounds_eq hne text (Nat.le_refl _)

end Rounds

/-! ## Runs of calls -/

/-- One call of `demask_chunk`, and what the scan function answers during this call. -/
structure ChunkCall where
  chunk : Bytes
  flush : Bool
  scan : Bytes → Except Error (List PlaceholderMatch)

/-- A config without a scan function stays without one. -/
def Demasker.answering (d : Demasker) (scan : Bytes → Except Error (List PlaceholderMatch)) : Demasker :=
  { d with cfg := { d.cfg with scan := d.cfg.scan.map fun _ => scan } }

def Demasker.call (d : Demasker) (c : ChunkCall) : Except DemaskError Bytes × Demasker :=
  (d.answering c.scan).demaskChunk c.chunk c.flush

def Demasker.afterCalls (d : Demasker) (calls : List ChunkCall) : Demasker := calls.foldl (fun d c => (d.call c).2) d

/-- What reaches the stream: the output, or the buffer that the exception carries. -/
def leavingBytes : Except DemaskError Bytes → Bytes
  | .ok out => out
  | .error e => e.unemitted

def Demasker.leaving (d : Demasker) : List ChunkCall → Bytes
  | [] => []
  | c :: calls => leavingBytes (d.call c).1 ++ Demasker.leaving (d.call c).2 calls

/-! ## One call -/

/-- The exact pass of a call ends. Then the call returns the front of the demasked buffer and keeps the rest, or it
throws the exact-demasked buffer and keeps nothing. -/
structure Accounts (d : Demasker) (c : ChunkCall) : Prop where
  ends : applyExactRounds d.cfg d.jsonEscape (d.pending ++ c.chunk).length (d.pending ++ c.chunk) =
    some (applyExact d.cfg d.jsonEscape (d.pending ++ c.chunk))
  returns : ∀ out, (d.call c).1 = .ok out →
    demaskAll (d.answering c.scan).cfg (d.pending ++ c.chunk) d.jsonEscape = .ok (out ++ (d.call c).2.pending)
  throws : ∀ e, (d.call c).1 = .error e →
    e.unemitted = applyExact d.cfg d.jsonEscape (d.pending ++ c.chunk) ∧ (d.call c).2.pending = []
  flushed : c.flush = true → (d.call c).2.pending = []

section Call

variable {cfg : DemaskConfig} {jsonEscape : Bool}

theorem demaskChunk_cases (cfg : DemaskConfig) (jsonEscape : Bool) (pending chunk : Bytes) (flush : Bool) :
    (∃ e, Demasker.demaskChunk ⟨cfg, jsonEscape, pending⟩ chunk flush = (.error e, ⟨cfg, jsonEscape, []⟩) ∧
      e.unemitted = applyExact cfg jsonEscape (pending ++ chunk) ∧
      demaskAll cfg (pending ++ chunk) jsonEscape = .error e) ∨
    ∃ out kept, Demasker.demaskChunk ⟨cfg, jsonEscape, pending⟩ chunk flush = (.ok out, ⟨cfg, jsonEscape, kept⟩) ∧
      demaskAll cfg (pending ++ chunk) jsonEscape = .ok (out ++ kept) ∧ (flush = true → kept = []) := by
  unfold demaskAll Demasker.demaskChunk
  simp only [List.nil_append]
  by_cases hempty : (pending ++ chunk).isEmpty
  · rw [if_pos hempty, if_pos hempty]
    exact .inr ⟨[], [], rfl, rfl, fun _ => rfl⟩
  · rw [if_neg hempty, if_neg hempty]
    cases hpass : applyPlaceholderRegex cfg jsonEscape (applyExact cfg jsonEscape (pending ++ chunk)) with
    | error e => exact .inl ⟨_, rfl, rfl, rfl⟩
    | ok text =>
      right
      simp only [if_true]
      cases flush with
      | true => exact ⟨text, [], rfl, by rw [List.append_nil], fun _ => rfl⟩
      | false =>
        simp only [Bool.false_eq_true, if_false]
        split
        · exact ⟨[], text, rfl, rfl, fun h => nomatch h⟩
        · split
          · exact ⟨[], text, rfl, rfl, fun h => nomatch h⟩
          · exact ⟨_, _, rfl, by rw [List.take_append_drop], fun h => nomatch h⟩

theorem exactLoop_answering (d : Demasker) (scan : Bytes → Except Error (List PlaceholderMatch)) (skip : Nat)
    (s : Bytes) : exactLoop (d.answering scan).cfg d.jsonEscape skip s = exactLoop d.cfg d.jsonEscape skip s := by
  have hprobe : ∀ s lens best, probeLengths (d.answering scan).cfg s lens best = probeLengths d.cfg s lens best := by
    intro s lens
    induction lens with
    | nil => exact fun best => rfl
    | cons len lens ih =>
      intro best
      unfold probeLengths
      simp only [ih]
      rfl
  induction s generalizing skip with
  | nil => cases skip <;> rfl
  | cons b s ih =>
    cases skip with
    | succ skip => exact ih skip
    | zero =>
      unfold exactLoop
      simp only [ih, hprobe]
      rfl

theorem applyExact_answering (d : Demasker) (scan : Bytes → Except Error (List PlaceholderMatch)) (text : Bytes) :
    applyExact (d.answering scan).cfg d.jsonEscape text = applyExact d.cfg d.jsonEscape text := by
  unfold applyExact
  rw [exactLoop_answering]
  rfl

theorem accounts (d : Demasker) (hne : d.cfg.indexByPlaceholder [] = none) (c : ChunkCall) : Accounts d c := by
  have hends : applyExactRounds d.cfg d.jsonEscape _ _ = some _ := applyExactRounds_eq hne (d.pending ++ c.chunk)
  have hcases := demaskChunk_cases (d.answering c.scan).cfg d.jsonEscape d.pending c.chunk c.flush
  have hcall : d.call c = Demasker.demaskChunk ⟨(d.answering c.scan).cfg, d.jsonEscape, d.pending⟩ c.chunk c.flush := rfl
  rw [← hcall] at hcases
  rcases hcases with ⟨e, hresult, hunemitted, -⟩ | ⟨out, kept, hresult, hall, hflush⟩
  · rw [applyExact_answering] at hunemitted
    refine ⟨hends, ?_, ?_, ?_⟩
    · intro out hout
      rw [hresult] at hout
      cases hout
    · intro e' he'
      rw [hresult] at he' ⊢
      obtain rfl := Except.error.inj he'
      exact ⟨hunemitted, rfl⟩
    · intro _
      rw [hresult]
  · refine ⟨hends, ?_, ?_, ?_⟩
    · intro out' hout
      rw [hresult] at hout ⊢
      obtain rfl := Except.ok.inj hout
      exact hall
    · intro e he
      rw [hresult] at he
      cases he
    · intro hc
      rw [hresult]
      exact hflush hc

end Call

/-! ## No entries -/

/-- The two tables of a `Config` are filled together. -/
structure NoEntries (cfg : DemaskConfig) : Prop where
  entries : cfg.entries = []
  index : ∀ p, cfg.indexByPlaceholder p = none

section NoEntries

variable {cfg : DemaskConfig} (h : NoEntries cfg) (jsonEscape : Bool)

include h

theorem NoEntries.probeLengths (s : Bytes) (lens : List Nat) : LlmGuard.probeLengths cfg s lens none = none := by
  induction lens with
  | nil => rfl
  | cons len lens ih =>
    unfold LlmGuard.probeLengths
    rw [h.index]
    simp only [ih, ite_self]

theorem NoEntries.applyExact (text : Bytes) : LlmGuard.applyExact cfg jsonEscape text = text := by
  have hloop : exactLoop cfg jsonEscape 0 text = text := by
    induction text with
    | nil => rfl
    | cons b s ih =>
      unfold exactLoop
      rw [h.probeLengths]
      simp only [ih, ite_self]
  unfold LlmGuard.applyExact
  split
  · rfl
  · exact hloop

theorem NoEntries.textReplacements {text : Bytes} {ms : List PlaceholderMatch} {reps : List TextReplacement}
    (hreps : LlmGuard.textReplacements cfg jsonEscape text ms = .ok reps) : reps = [] := by
  induction ms with
  | nil => exact (Except.ok.inj hreps).symm
  | cons m ms ih =>
    have hlookup : cfg.lookup m.placeholder jsonEscape = none := by
      unfold DemaskConfig.lookup
      rw [h.index]
      rfl
    unfold LlmGuard.textReplacements at hreps
    rw [hlookup] at hreps
    split at hreps
    · exact ih hreps
    · split at hreps
      · cases hreps
      · exact ih hreps

theorem NoEntries.applyPlaceholderRegex {text out : Bytes}
    (hout : LlmGuard.applyPlaceholderRegex cfg jsonEscape text = .ok out) : out = text := by
  unfold LlmGuard.applyPlaceholderRegex at hout
  split at hout
  · exact (Except.ok.inj hout).symm
  · obtain ⟨ms, -, hout⟩ := bind_eq_ok.mp hout
    split at hout
    · exact (Except.ok.inj hout).symm
    · obtain ⟨reps, hreps, hout⟩ := bind_eq_ok.mp hout
      obtain rfl := h.textReplacements jsonEscape hreps
      exact (Except.ok.inj hout).symm

theorem NoEntries.demaskAll {text out : Bytes} (hout : LlmGuard.demaskAll cfg text jsonEscape = .ok out) :
    out = text := by
  unfold LlmGuard.demaskAll Demasker.demaskChunk at hout
  simp only [List.nil_append, if_true] at hout
  split at hout
  · rename_i hempty
    rw [List.isEmpty_iff.mp hempty]
    exact (Except.ok.inj hout).symm
  · split at hout
    · cases hout
    · rename_i text' htext
      rw [← Except.ok.inj hout, h.applyPlaceholderRegex jsonEscape htext, h.applyExact]

end NoEntries

/-! ## The run -/

theorem call_fields (d : Demasker) (c : ChunkCall) :
    (d.call c).2.cfg = (d.answering c.scan).cfg ∧ (d.call c).2.jsonEscape = d.jsonEscape := by
  rcases demaskChunk_cases (d.answering c.scan).cfg d.jsonEscape d.pending c.chunk c.flush with
    ⟨e, hresult, -⟩ | ⟨out, kept, hresult, -⟩
  · exact ⟨congrArg (·.2.cfg) hresult, congrArg (·.2.jsonEscape) hresult⟩
  · exact ⟨congrArg (·.2.cfg) hresult, congrArg (·.2.jsonEscape) hresult⟩

theorem leavingBytes_call {d : Demasker} (h : NoEntries d.cfg) (c : ChunkCall) :
    leavingBytes (d.call c).1 ++ (d.call c).2.pending = d.pending ++ c.chunk := by
  have hanswering : NoEntries (d.answering c.scan).cfg := ⟨h.entries, h.index⟩
  cases hresult : (d.call c).1 with
  | ok out => exact hanswering.demaskAll d.jsonEscape ((accounts d (h.index []) c).returns out hresult)
  | error e =>
    obtain ⟨hunemitted, hpending⟩ := (accounts d (h.index []) c).throws e hresult
    rw [hpending, List.append_nil, leavingBytes, hunemitted, h.applyExact]

theorem leaving_calls {d : Demasker} (h : NoEntries d.cfg) (calls : List ChunkCall) :
    d.leaving calls ++ (d.afterCalls calls).pending = d.pending ++ calls.flatMap (·.chunk) := by
  induction calls generalizing d with
  | nil => simp [Demasker.leaving, Demasker.afterCalls]
  | cons c calls ih =>
    have hnext : NoEntries (d.call c).2.cfg := by
      rw [(call_fields d c).1]
      exact ⟨h.entries, h.index⟩
    have hrest := ih hnext
    have hafter : d.afterCalls (c :: calls) = (d.call c).2.afterCalls calls := rfl
    rw [hafter, Demasker.leaving, List.append_assoc, hrest, ← List.append_assoc, leavingBytes_call h c,
      List.flatMap_cons, List.append_assoc]

theorem afterCalls_index (d : Demasker) (calls : List ChunkCall) :
    (d.afterCalls calls).cfg.indexByPlaceholder = d.cfg.indexByPlaceholder := by
  induction calls generalizing d with
  | nil => rfl
  | cons c calls ih =>
    apply (ih (d.call c).2).trans
    rw [(call_fields d c).1]
    rfl

/-- In every run of calls over tables without an empty placeholder each call accounts for the whole buffer. Without
entries the stream gets the chunks back, but for what is still pending. -/
theorem calls_account (cfg : DemaskConfig) (hne : cfg.indexByPlaceholder [] = none) (jsonEscape : Bool)
    (calls : List ChunkCall) :
    (∀ front c back, calls = front ++ c :: back → Accounts (Demasker.afterCalls ⟨cfg, jsonEscape, []⟩ front) c) ∧
      (NoEntries cfg → Demasker.leaving ⟨cfg, jsonEscape, []⟩ calls ++
        (Demasker.afterCalls ⟨cfg, jsonEscape, []⟩ calls).pending = calls.flatMap (·.chunk)) := by
  refine ⟨fun front c back _ => accounts _ ?_ c, fun h => ?_⟩
  · rw [afterCalls_index]
    exact hne
  · exact leaving_calls (d := ⟨cfg, jsonEscape, []⟩) h calls

/-- A scan that finds a match beyond the end, between two that find nothing. -/
def brokenCalls : List ChunkCall :=
  [⟨ascii "a <K", false, fun _ => .ok []⟩, ⟨ascii "_1> b", false, fun _ => .ok [⟨ascii "key", 2, 99, ascii "<K_1>"⟩]⟩,
    ⟨ascii " c", true, fun _ => .ok []⟩]

def scanningConfig : DemaskConfig := { DemaskConfig.empty with scan := some fun _ => .ok [], maxPending := 5 }

theorem calls_account_sample :
    Demasker.leaving ⟨scanningConfig, false, []⟩ brokenCalls = ascii "a <K_1> b c" ∧
      Accounts (Demasker.afterCalls ⟨scanningConfig, false, []⟩ (brokenCalls.take 1))
        (brokenCalls.getD 1 ⟨[], true, fun _ => .ok []⟩) := by
  have h := calls_account scanningConfig rfl false brokenCalls
  have hall := h.2 ⟨rfl, fun _ => rfl⟩
  have hpending : (Demasker.afterCalls ⟨scanningConfig, false, []⟩ brokenCalls).pending = [] := by decide
  rw [hpending, List.append_nil] at hall
  refine ⟨hall.trans (by decide), h.1 _ _ (brokenCalls.drop 2) rfl⟩

/-- Tables with an empty placeholder next to `<K_1>`. -/
def blankConfig : DemaskConfig where
  entries := [⟨ascii "<K_1>", ascii "k", ascii "k"⟩, ⟨[], ascii "x", ascii "x"⟩]
  indexByPlaceholder p := if p = ascii "<K_1>" then some 0 else if p = [] then some 1 else none
  placeholderLengths := [0, 5]
  placeholderFirstByte b := b = ch '<'
  maxPending := 5
  scan := none

/-- On an opening bracket the exact pass never ends. -/
theorem blank_placeholder_stays :
    (∀ rounds, applyExactRounds blankConfig false rounds (ascii "<b>") = none) ∧
      ¬ ∀ (cfg : DemaskConfig) (jsonEscape : Bool) (calls : List ChunkCall) (front : List ChunkCall) (c : ChunkCall)
        (back : List ChunkCall), calls = front ++ c :: back →
        Accounts (Demasker.afterCalls ⟨cfg, jsonEscape, []⟩ front) c := by
  have hstuck : ∀ rounds, applyExactRounds blankConfig false rounds (ascii "<b>") = none := fun rounds =>
    exactRounds_stuck (i := 1) (by decide) (by decide) rounds
  refine ⟨hstuck, fun h => ?_⟩
  have hends := (h blankConfig false _ [] ⟨ascii "<b>", true, fun _ => .ok []⟩ [] rfl).ends
  exact absurd ((hstuck _).symm.trans hends) (by simp)

end LlmGuard
