import LlmGuard.Code.RequestUtils
import Mathlib.Data.List.Basic

/-!
# What paths look like in metrics and logs

The normal form of a path shows no id and no token, and does not depend on them.
-/

namespace LlmGuard.Api

/-! ## Segments -/

/-- What stands between two slashes. -/
def IsSegment (s : Bytes) : Prop := s ≠ [] ∧ ch '/' ∉ s

theorem segments_slash (rest : Bytes) : segments (ch '/' :: rest) = segments rest := by
  rw [segments, if_pos rfl]

theorem isSegment_of_mem {path s : Bytes} (h : s ∈ segments path) : IsSegment s := by
  induction path using segments.induct with
  | case1 =>
    rw [segments] at h
    exact absurd h List.not_mem_nil
  | case2 rest ih =>
    rw [segments_slash] at h
    exact ih h
  | case3 c rest hc ih =>
    rw [segments, if_neg hc] at h
    rcases List.mem_cons.mp h with rfl | h
    · refine ⟨List.cons_ne_nil _ _, fun hmem => ?_⟩
      rcases List.mem_cons.mp hmem with heq | hmem
      · exact hc heq.symm
      · simpa using List.all_eq_true.mp List.all_takeWhile _ hmem
    · exact ih h

theorem segments_append {s rest : Bytes} (hs : IsSegment s) (hrest : rest.head? = none ∨ rest.head? = some (ch '/')) :
    segments (s ++ rest) = s :: segments rest := by
  obtain ⟨hne, hslash⟩ := hs
  obtain ⟨c, s, rfl⟩ := List.exists_cons_of_ne_nil hne
  obtain ⟨hc, hs⟩ := not_or.mp (List.mem_cons.not.mp hslash)
  have hall : ∀ b ∈ s, (decide (b ≠ ch '/')) = true := fun b hb => decide_eq_true fun heq => hs (heq ▸ hb)
  have hstop : rest.takeWhile (· ≠ ch '/') = [] ∧ rest.dropWhile (· ≠ ch '/') = rest := by
    cases rest with
    | nil => exact ⟨rfl, rfl⟩
    | cons b rest =>
      have hb : b = ch '/' := by simpa using hrest
      simp [hb]
  rw [List.cons_append, segments, if_neg (Ne.symm hc), List.takeWhile_append_of_pos hall, List.dropWhile_append_of_pos hall,
    hstop.1, hstop.2, List.append_nil]

theorem segments_join {segs : List Bytes} (h : ∀ s ∈ segs, IsSegment s) : segments (joinSegments segs) = segs := by
  induction segs with
  | nil => rw [joinSegments, List.flatMap_nil, segments]
  | cons s segs ih =>
    obtain ⟨hs, hsegs⟩ := List.forall_mem_cons.mp h
    have hnext : (joinSegments segs).head? = none ∨ (joinSegments segs).head? = some (ch '/') := by
      cases segs with
      | nil => exact .inl rfl
      | cons t segs => exact .inr rfl
    have hjoin : joinSegments (s :: segs) = ch '/' :: (s ++ joinSegments segs) := rfl
    rw [hjoin, segments_slash, segments_append hs hnext, ih hsegs]

/-! ## The normal form -/

theorem isSegment_rewrite {segs : List Bytes} {k : Nat} {s : Bytes} (h : IsSegment s) :
    IsSegment (rewriteSegment segs k s) := by
  unfold rewriteSegment
  split
  · exact ⟨by decide, by decide⟩
  · split
    · exact ⟨by decide, by decide⟩
    · exact h

/-- The segments of the normal form. -/
def rewritten (segs : List Bytes) : List Bytes := segs.mapIdx (rewriteSegment segs)

theorem segments_normalize (path : Bytes) : segments (normalizePathForMetrics path) = rewritten (segments path) := by
  have hsegs : ∀ s ∈ rewritten (segments path), IsSegment s := by
    intro s hs
    obtain ⟨k, hk, rfl⟩ := List.mem_mapIdx.mp hs
    exact isSegment_rewrite (isSegment_of_mem (List.getElem_mem hk))
  have hjoin := segments_join hsegs
  unfold normalizePathForMetrics
  simp only
  split
  · rename_i hempty
    change joinSegments (rewritten (segments path)) = [] at hempty
    rw [hempty] at hjoin
    exact (segments_slash []).trans hjoin
  · exact hjoin

theorem normalize_of_segments {p q : Bytes} (h : rewritten (segments p) = rewritten (segments q)) :
    normalizePathForMetrics p = normalizePathForMetrics q := by
  unfold rewritten at h
  unfold normalizePathForMetrics
  simp only [h]

theorem isXdigit_of_digit {b : Byte} (h : isDigit b = true) : isXdigit b = true := by
  unfold isXdigit
  rw [h, Bool.true_or, Bool.true_or]

theorem isXdigit_id {b : Byte} {s : Bytes} (h : isIdSegment (b :: s) = true) : isXdigit b = true := by
  unfold isIdSegment at h
  rcases Bool.or_eq_true_iff.mp h with hdigits | huuid
  · simp only [List.isEmpty_cons, Bool.not_false, Bool.true_and, List.all_cons, Bool.and_eq_true] at hdigits
    exact isXdigit_of_digit hdigits.1
  · unfold isUuidSegment at huuid
    simp only [List.zipIdx_cons, List.all_cons, Bool.and_eq_true] at huuid
    exact huuid.2.1

/-! ## Paths that differ in what is hidden -/

/-- An id, or what is put in its place. -/
def IsId (s : Bytes) : Prop := isIdSegment s = true ∨ s = ascii ":id"

/-- Two ids, or two tokens of an account route, where the segments differ. -/
structure Alike (segs segs' : List Bytes) : Prop where
  length : segs.length = segs'.length
  segment : ∀ k s t, segs[k]? = some s → segs'[k]? = some t →
    s = t ∨ IsId s ∧ IsId t ∨ accountTokenRoute segs = true ∧ k = base segs + 2

variable {segs segs' : List Bytes}

theorem base_pos (segs : List Bytes) : 1 ≤ base segs := by
  unfold base
  split <;> omega

theorem Alike.getElem (h : Alike segs segs') (k : Nat) : segs[k]? = none ∧ segs'[k]? = none ∨
    ∃ s t, segs[k]? = some s ∧ segs'[k]? = some t ∧
      (s = t ∨ IsId s ∧ IsId t ∨ accountTokenRoute segs = true ∧ k = base segs + 2) := by
  by_cases hk : k < segs.length
  · have hs : segs[k]? = some segs[k] := List.getElem?_eq_getElem _
    have ht : segs'[k]? = some (segs'.get ⟨k, h.length ▸ hk⟩) := List.getElem?_eq_getElem _
    exact .inr ⟨_, _, hs, ht, h.segment k _ _ hs ht⟩
  · refine .inl ⟨List.getElem?_eq_none_iff.mpr (Nat.le_of_not_lt hk), ?_⟩
    rw [List.getElem?_eq_none_iff, ← h.length]
    exact Nat.le_of_not_lt hk

/-- In front of the token a test that no id passes sees no difference. -/
theorem Alike.any (h : Alike segs segs') {k : Nat} (hk : k < base segs + 2) {f : Bytes → Bool}
    (hf : ∀ s, IsId s → f s = false) : segs[k]?.any f = segs'[k]?.any f := by
  rcases h.getElem k with ⟨hs, ht⟩ | ⟨s, t, hs, ht, hsame | ⟨hids, hidt⟩ | ⟨-, htoken⟩⟩
  · rw [hs, ht]
  · rw [hs, ht, hsame]
  · rw [hs, ht, Option.any_some, Option.any_some, hf s hids, hf t hidt]
  · exact absurd htoken (Nat.ne_of_lt hk)

theorem isVersionSeg_id {s : Bytes} (h : IsId s) : isVersionSeg s = false := by
  rcases h with h | rfl
  · unfold isVersionSeg
    cases s with
    | nil => rfl
    | cons b s =>
      have hb : b ≠ ch 'v' := by
        rintro rfl
        exact absurd (isXdigit_id h) (by decide)
      simp [hb]
  · decide

theorem beq_id {c : Bytes} (hc : isIdSegment c = false) (hne : c ≠ ascii ":id") {s : Bytes} (h : IsId s) :
    (s == c) = false := by
  rw [beq_eq_false_iff_ne]
  rintro rfl
  rcases h with h | h
  · rw [h] at hc
    cases hc
  · exact hne h

theorem contains_id {s : Bytes} (h : IsId s) : tokenVerbs.contains s = false := by
  have hverbs : ∀ verb ∈ tokenVerbs, isIdSegment verb = false ∧ verb ≠ ascii ":id" := by decide
  rw [List.contains_eq_any_beq, List.any_eq_false]
  intro verb hverb
  rw [beq_id (hverbs verb hverb).1 (hverbs verb hverb).2 h]
  exact Bool.false_ne_true

theorem Alike.base_eq (h : Alike segs segs') : base segs = base segs' := by
  have hpos := base_pos segs
  have hversion := h.any (show 1 < base segs + 2 by omega) fun s => isVersionSeg_id
  unfold base
  rw [hversion]

theorem Alike.route_eq (h : Alike segs segs') : accountTokenRoute segs = accountTokenRoute segs' := by
  have hapi := h.any (show 0 < base segs + 2 by omega) fun s => @beq_id (ascii "api") (by decide) (by decide) s
  have haccount := h.any (show base segs < base segs + 2 by omega) fun s =>
    @beq_id (ascii "account") (by decide) (by decide) s
  have hverb := h.any (show base segs + 1 < base segs + 2 by omega) fun s => contains_id
  unfold accountTokenRoute
  rw [hapi, haccount, hverb, ← h.base_eq, h.length]

theorem rewriteSegment_token {k : Nat} (h : accountTokenRoute segs = true ∧ k = base segs + 2) (s : Bytes) :
    rewriteSegment segs k s = ascii ":token" := by
  unfold rewriteSegment
  rw [if_pos (by simp [h.1, h.2])]

theorem rewriteSegment_id {k : Nat} (h : ¬ (accountTokenRoute segs = true ∧ k = base segs + 2)) {s : Bytes} (hs : IsId s) :
    rewriteSegment segs k s = ascii ":id" := by
  unfold rewriteSegment
  rw [if_neg (by simpa using h)]
  rcases hs with hs | rfl
  · rw [if_pos hs]
  · exact ite_self _

theorem rewriteSegment_other {k : Nat} (h : ¬ (accountTokenRoute segs = true ∧ k = base segs + 2)) {s : Bytes}
    (hs : ¬ IsId s) : rewriteSegment segs k s = s := by
  unfold rewriteSegment
  rw [if_neg (by simpa using h), if_neg fun hid => hs (.inl hid)]

theorem rewritten_getElem (segs : List Bytes) (k : Nat) :
    (rewritten segs)[k]? = segs[k]?.map (rewriteSegment segs k) := List.getElem?_mapIdx

/-- What is hidden looks the same everywhere. -/
theorem Alike.rewritten_eq (h : Alike segs segs') : rewritten segs = rewritten segs' := by
  apply List.ext_getElem?
  intro k
  rw [rewritten_getElem, rewritten_getElem]
  rcases h.getElem k with ⟨hs, ht⟩ | ⟨s, t, hs, ht, hsame⟩
  · rw [hs, ht]
    rfl
  · rw [hs, ht, Option.map_some, Option.map_some, Option.some.injEq]
    by_cases htoken : accountTokenRoute segs = true ∧ k = base segs + 2
    · rw [rewriteSegment_token htoken, rewriteSegment_token (h.route_eq ▸ h.base_eq ▸ htoken)]
    · have htoken' : ¬ (accountTokenRoute segs' = true ∧ k = base segs' + 2) := h.route_eq ▸ h.base_eq ▸ htoken
      rcases hsame with rfl | ⟨hids, hidt⟩ | hin
      · by_cases hid : IsId s
        · rw [rewriteSegment_id htoken hid, rewriteSegment_id htoken' hid]
        · rw [rewriteSegment_other htoken hid, rewriteSegment_other htoken' hid]
      · rw [rewriteSegment_id htoken hids, rewriteSegment_id htoken' hidt]
      · exact absurd hin htoken

theorem alike_rewritten (segs : List Bytes) : Alike segs (rewritten segs) where
  length := List.length_mapIdx.symm
  segment k s t hs ht := by
    rw [rewritten_getElem, hs, Option.map_some, Option.some.injEq] at ht
    by_cases htoken : accountTokenRoute segs = true ∧ k = base segs + 2
    · exact .inr (.inr htoken)
    · by_cases hid : IsId s
      · exact .inr (.inl ⟨hid, .inr (ht.symm.trans (rewriteSegment_id htoken hid))⟩)
      · exact .inl ((rewriteSegment_other htoken hid).symm.trans ht)

theorem alike_of_rewritten (h : rewritten segs = rewritten segs') : Alike segs segs' where
  length := by
    have hlen := congrArg List.length h
    unfold rewritten at hlen
    rwa [List.length_mapIdx, List.length_mapIdx] at hlen
  segment k s t hs ht := by
    have hroute : accountTokenRoute segs' = accountTokenRoute segs := by
      rw [(alike_rewritten segs').route_eq, ← h, ← (alike_rewritten segs).route_eq]
    have hbase : base segs' = base segs := by
      rw [(alike_rewritten segs').base_eq, ← h, ← (alike_rewritten segs).base_eq]
    have hsame := congrArg (fun l : List Bytes => l[k]?) h
    simp only [rewritten_getElem, hs, ht, Option.map_some, Option.some.injEq] at hsame
    by_cases htoken : accountTokenRoute segs = true ∧ k = base segs + 2
    · exact .inr (.inr htoken)
    · have htoken' : ¬ (accountTokenRoute segs' = true ∧ k = base segs' + 2) := hroute ▸ hbase ▸ htoken
      by_cases hids : IsId s
      · by_cases hidt : IsId t
        · exact .inr (.inl ⟨hids, hidt⟩)
        · rw [rewriteSegment_id htoken hids, rewriteSegment_other htoken' hidt] at hsame
          exact absurd (.inr hsame.symm) hidt
      · by_cases hidt : IsId t
        · rw [rewriteSegment_other htoken hids, rewriteSegment_id htoken' hidt] at hsame
          exact absurd (.inr hsame) hids
        · rw [rewriteSegment_other htoken hids, rewriteSegment_other htoken' hidt] at hsame
          exact .inl hsame

/-- The normal form is its own, shows no id, and is the same for two paths exactly when they differ in ids and in the
tokens of account routes only. -/
theorem normalize_hides (p : Bytes) :
    normalizePathForMetrics (normalizePathForMetrics p) = normalizePathForMetrics p ∧
    (∀ s ∈ segments (normalizePathForMetrics p), isIdSegment s = false) ∧
    ∀ q, normalizePathForMetrics p = normalizePathForMetrics q ↔ Alike (segments p) (segments q) := by
  have hiff : ∀ p q, normalizePathForMetrics p = normalizePathForMetrics q ↔ Alike (segments p) (segments q) := by
    intro p q
    constructor
    · intro h
      apply alike_of_rewritten
      rw [← segments_normalize, h, segments_normalize]
    · exact fun h => normalize_of_segments h.rewritten_eq
  refine ⟨?_, ?_, hiff p⟩
  · rw [eq_comm, hiff, segments_normalize]
    exact alike_rewritten _
  · intro s hs
    rw [segments_normalize] at hs
    obtain ⟨k, hk, rfl⟩ := List.mem_mapIdx.mp hs
    unfold rewriteSegment
    split
    · decide
    · split
      · decide
      · simpa using ‹¬ isIdSegment _ = true›

example : normalizePathForMetrics (ascii "//api/v2/account/confirm/s3cret/") = ascii "/api/v2/account/confirm/:token" := by
  decide +kernel

end LlmGuard.Api
