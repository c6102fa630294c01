import LlmGuard.Demasker.Exact

/-!
# `demask_chunk` is a step of a stream rewriter

The two passes are the rewriter's passes, and the hold-back is its room.
-/

namespace LlmGuard

open Tokens Streaming

/-! ## The hold-back -/

theorem runeStartBefore_le (s : Bytes) (i j : Nat) (h : runeStartBefore s i = some j) : j ≤ i := by
  induction i with
  | zero =>
    unfold runeStartBefore at h
    split at h
    · exact Nat.le_of_eq (Option.some.inj h).symm
    · cases h
  | succ i ih =>
    unfold runeStartBefore at h
    split at h
    · exact Nat.le_of_eq (Option.some.inj h).symm
    · exact (ih h).trans (Nat.le_succ i)

theorem utf8SafePrefixEnd_le (s : Bytes) (stop : Nat) : utf8SafePrefixEnd s stop ≤ stop := by
  unfold utf8SafePrefixEnd
  split
  · exact Nat.zero_le _
  · split
    · omega
    · split
      · exact Nat.zero_le _
      · rename_i i hi
        have := runeStartBefore_le s (stop - 1) i hi
        split <;> omega

/-- How many bytes of the rewritten buffer leave. -/
def DemaskConfig.safeEnd (cfg : DemaskConfig) (text : Bytes) : Nat :=
  if text.length ≤ cfg.maxPending then 0 else utf8SafePrefixEnd text (text.length - cfg.maxPending)

theorem safeEnd_room (cfg : DemaskConfig) (text : Bytes) :
    cfg.safeEnd text = 0 ∨ cfg.safeEnd text + cfg.maxPending ≤ text.length := by
  unfold DemaskConfig.safeEnd
  split
  · exact .inl rfl
  · have := utf8SafePrefixEnd_le text (text.length - cfg.maxPending)
    exact .inr (by omega)

/-! ## The rewriter -/

/-- The tolerant pass where it does not fail. -/
def tolerantPass (cfg : DemaskConfig) (jsonEscape : Bool) (text : Bytes) : Bytes :=
  match applyPlaceholderRegex cfg jsonEscape text with
  | .ok out => out
  | .error _ => text

def DemaskConfig.rewriter (cfg : DemaskConfig) (jsonEscape : Bool) : Rewriter Byte where
  first := applyExact cfg jsonEscape
  second := tolerantPass cfg jsonEscape
  safe := cfg.safeEnd
  room := cfg.maxPending
  safe_room := safeEnd_room cfg

/-- The tolerant pass never fails, and it leaves an empty buffer empty. -/
structure NeverFails (cfg : DemaskConfig) (jsonEscape : Bool) : Prop where
  ok : ∀ text, ∃ out, applyPlaceholderRegex cfg jsonEscape text = .ok out
  empty : applyPlaceholderRegex cfg jsonEscape [] = .ok []

section Rewriter

variable {cfg : DemaskConfig} {jsonEscape : Bool}

theorem NeverFails.tolerantPass_eq (h : NeverFails cfg jsonEscape) (text : Bytes) :
    applyPlaceholderRegex cfg jsonEscape text = .ok (tolerantPass cfg jsonEscape text) := by
  obtain ⟨out, hout⟩ := h.ok text
  rw [tolerantPass, hout]

theorem applyExact_nil : applyExact cfg jsonEscape [] = [] := by
  unfold applyExact
  split <;> rfl

theorem NeverFails.rewrite_nil (h : NeverFails cfg jsonEscape) : (cfg.rewriter jsonEscape).rewrite [] = [] := by
  change tolerantPass cfg jsonEscape (applyExact cfg jsonEscape []) = []
  rw [applyExact_nil, tolerantPass, h.empty]

theorem demaskChunk_flush (h : NeverFails cfg jsonEscape) (pending chunk : Bytes) :
    (Demasker.demaskChunk ⟨cfg, jsonEscape, pending⟩ chunk true).1 =
      .ok ((cfg.rewriter jsonEscape).rewrite (pending ++ chunk)) := by
  unfold Demasker.demaskChunk
  by_cases hempty : (pending ++ chunk).isEmpty
  · rw [List.isEmpty_iff.mp hempty, h.rewrite_nil]
    rfl
  · simp only [if_neg hempty, h.tolerantPass_eq]
    rfl

theorem demaskChunk_step (h : NeverFails cfg jsonEscape) (pending chunk : Bytes) :
    Demasker.demaskChunk ⟨cfg, jsonEscape, pending⟩ chunk false =
      (.ok ((cfg.rewriter jsonEscape).step pending chunk).1,
        ⟨cfg, jsonEscape, ((cfg.rewriter jsonEscape).step pending chunk).2⟩) := by
  have hstep : ∀ text, (cfg.rewriter jsonEscape).rewrite (pending ++ chunk) = text →
      (cfg.rewriter jsonEscape).step pending chunk = (text.take (cfg.safeEnd text), text.drop (cfg.safeEnd text)) := by
    rintro text rfl
    rfl
  unfold Demasker.demaskChunk
  by_cases hempty : (pending ++ chunk).isEmpty
  · have hnil := List.isEmpty_iff.mp hempty
    rw [hstep [] (by rw [hnil, h.rewrite_nil])]
    simp [hempty]
  · simp only [if_neg hempty, h.tolerantPass_eq, Bool.false_eq_true, if_false]
    rw [hstep (tolerantPass cfg jsonEscape (applyExact cfg jsonEscape (pending ++ chunk))) rfl]
    unfold DemaskConfig.safeEnd
    split
    · simp
    · split
      · rename_i hzero
        simp [hzero]
      · rfl

theorem demaskStream_eq (h : NeverFails cfg jsonEscape) (pending : Bytes) (chunks : List Bytes) :
    Demasker.demaskStream ⟨cfg, jsonEscape, pending⟩ chunks = .ok ((cfg.rewriter jsonEscape).run pending chunks) := by
  induction chunks generalizing pending with
  | nil => rfl
  | cons chunk chunks ih =>
    cases chunks with
    | nil => exact demaskChunk_flush h pending chunk
    | cons chunk' chunks =>
      unfold Demasker.demaskStream
      rw [demaskChunk_step h]
      simp only [ih]
      rfl

theorem demaskAll_eq (h : NeverFails cfg jsonEscape) (text : Bytes) :
    demaskAll cfg text jsonEscape = .ok ((cfg.rewriter jsonEscape).rewrite text) := by
  have := demaskChunk_flush h [] text
  rwa [List.nil_append] at this

end Rewriter

/-! ## Without a snapshot -/

theorem neverFails_of_no_scan {cfg : DemaskConfig} (jsonEscape : Bool) (h : cfg.scan = none) :
    NeverFails cfg jsonEscape := by
  constructor
  · exact fun text => ⟨text, by simp [applyPlaceholderRegex, h]⟩
  · simp [applyPlaceholderRegex, h]

theorem tolerantPass_of_no_scan {cfg : DemaskConfig} {jsonEscape : Bool} (h : cfg.scan = none)
    (special : Bytes → Prop) : Pass special (tolerantPass cfg jsonEscape) (fun _ => none) := by
  intro items _
  rw [subst_id fun _ _ => rfl]
  simp [tolerantPass, applyPlaceholderRegex, h]

theorem foldl_addReplacement_scan (reps : List Replacement) (cfg : DemaskConfig) :
    (reps.foldl DemaskConfig.addReplacement cfg).scan = cfg.scan := by
  induction reps generalizing cfg with
  | nil => rfl
  | cons rep reps ih =>
    rw [List.foldl_cons, ih]
    rcases addReplacement_cases cfg rep with ⟨hsame, -⟩ | ⟨b, rest, -, -, hadd⟩
    · rw [hsame]
    · rw [hadd]
      rfl

theorem makeConfig_none_scan (env : Env) (state : MaskingState) : (makeConfig env state none).scan = none :=
  foldl_addReplacement_scan state.replacements DemaskConfig.empty

end LlmGuard
