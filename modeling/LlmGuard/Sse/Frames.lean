import LlmGuard.Code.Sse
import LlmGuard.Lib.Frames

/-!
# Where frames end

`split_frames` looks for the separator that begins first. That is also the one that ends first, so a frame
is over as soon as it ends in a separator, and the bytes of a later chunk cannot change that.
-/

namespace LlmGuard.Sse

open Frames (Framed Frame Open feed framed_feed)

variable {needle s : Bytes} {i : Nat}

/-! ## `find` -/

theorem find_none (h : find needle s = none) (hne : needle ≠ []) : ¬ needle <:+: s := by
  induction s with
  | nil => rwa [List.infix_nil]
  | cons b s ih =>
    unfold find at h
    split at h
    · cases h
    · rename_i hpre
      rw [Option.map_eq_none_iff] at h
      rw [List.infix_cons_iff, not_or]
      exact ⟨fun hp => hpre (List.isPrefixOf_iff_prefix.mpr hp), ih h⟩

theorem find_at (h : find needle s = some i) : needle <+: s.drop i ∧ i ≤ s.length := by
  induction s generalizing i with
  | nil =>
    unfold find at h
    split at h
    · rename_i hnil
      obtain rfl := Option.some.inj h
      exact ⟨by simp [hnil], Nat.le_refl _⟩
    · cases h
  | cons b s ih =>
    unfold find at h
    split at h
    · rename_i hpre
      obtain rfl := Option.some.inj h
      exact ⟨List.isPrefixOf_iff_prefix.mp hpre, Nat.zero_le _⟩
    · obtain ⟨j, hj, rfl⟩ := Option.map_eq_some_iff.mp h
      obtain ⟨hpre, hle⟩ := ih hj
      exact ⟨hpre, Nat.succ_le_succ hle⟩

theorem find_le {pre post : Bytes} (h : find needle s = some i) (hs : s = pre ++ needle ++ post) :
    i ≤ pre.length := by
  induction pre generalizing s i with
  | nil =>
    have hpre : needle <+: s := ⟨post, by rw [hs, List.nil_append]⟩
    cases s with
    | nil =>
      unfold find at h
      split at h <;> cases h
      exact Nat.le_refl _
    | cons b s =>
      unfold find at h
      rw [if_pos (List.isPrefixOf_iff_prefix.mpr hpre)] at h
      cases h
      exact Nat.le_refl _
  | cons a pre ih =>
    subst hs
    rw [List.cons_append, List.cons_append] at h
    unfold find at h
    split at h
    · cases h
      exact Nat.zero_le _
    · obtain ⟨j, hj, rfl⟩ := Option.map_eq_some_iff.mp h
      exact Nat.succ_le_succ (ih hj rfl)

theorem find_isSome {pre post : Bytes} (hs : s = pre ++ needle ++ post) : ∃ i, find needle s = some i := by
  cases h : find needle s with
  | some i => exact ⟨i, rfl⟩
  | none =>
    by_cases hne : needle = []
    · subst hne
      cases s <;> simp [find] at h
    · exact absurd ⟨pre, post, hs.symm⟩ (find_none h hne)

/-! ## The first separator -/

def separators : List Bytes := [kFrameSepLF, kFrameSepCRLF]

/-- The text ends in a separator. -/
def EndsInSeparator (s : Bytes) : Prop := ∃ sep ∈ separators, sep <:+ s

theorem not_endsInSeparator_nil : ¬ EndsInSeparator [] := by
  rintro ⟨sep, hsep, h⟩
  rw [List.suffix_nil.mp h] at hsep
  exact absurd hsep (by decide)

theorem open_iff (s : Bytes) : Open EndsInSeparator s ↔ ∀ sep ∈ separators, ¬ sep <:+: s := by
  constructor
  · rintro h sep hsep ⟨pre, post, rfl⟩
    exact h (pre ++ sep) (List.prefix_append _ _) ⟨sep, hsep, List.suffix_append _ _⟩
  · rintro h p hp ⟨sep, hsep, hend⟩
    exact h sep hsep (hend.isInfix.trans hp.isInfix)

/-- A frame ends in a separator, and none stands in front of its last byte. -/
theorem frame_iff (f : Bytes) :
    Frame EndsInSeparator f ↔ EndsInSeparator f ∧ ∀ sep ∈ separators, ¬ sep <:+: f.dropLast := by
  have hfronts : EndsInSeparator f →
      ((∀ p, p <+: f → p.length < f.length → ¬ EndsInSeparator p) ↔ Open EndsInSeparator f.dropLast) := by
    intro hends
    have hne : f ≠ [] := by
      rintro rfl
      exact not_endsInSeparator_nil hends
    have hpos := List.length_pos_iff.mpr hne
    have hlen := f.length_dropLast
    constructor
    · intro h p hp
      have := hp.length_le
      exact h p (hp.trans f.dropLast_prefix) (by omega)
    · intro h p hp hlt
      exact h p (List.prefix_of_prefix_length_le hp f.dropLast_prefix (by omega))
  constructor
  · intro h
    exact ⟨h.ends, (open_iff _).mp ((hfronts h.ends).mp h.first)⟩
  · rintro ⟨hends, hclean⟩
    exact ⟨hends, (hfronts hends).mpr ((open_iff _).mpr hclean)⟩

theorem findFrameSeparator_none {data : Bytes} (h : (findFrameSeparator data).idx = none) :
    Open EndsInSeparator data := by
  unfold findFrameSeparator crlfFirst at h
  rw [open_iff]
  simp only [separators, List.mem_cons, List.not_mem_nil, or_false, forall_eq_or_imp, forall_eq]
  cases hcrlf : find kFrameSepCRLF data with
  | none =>
    rw [hcrlf] at h
    exact ⟨find_none h (by decide), find_none hcrlf (by decide)⟩
  | some j =>
    cases hlf : find kFrameSepLF data with
    | none => simp [hcrlf, hlf] at h
    | some i =>
      simp only [hcrlf, hlf] at h
      split at h <;> cases h

/-- Within `"\r\n\r\n"` no `"\n\n"` begins. -/
theorem lf_not_inside_crlf {s q post : Bytes} {j : Nat} (hcrlf : kFrameSepCRLF <+: s.drop j)
    (hs : s = q ++ kFrameSepLF ++ post) : q.length ≠ j + 1 := by
  intro hq
  obtain ⟨t, ht⟩ := hcrlf
  have hdrop : s.drop (j + 2) = (s.drop j).drop 2 := by rw [List.drop_drop]
  have hcr : (s.drop (j + 2)).head? = some (ch '\r') := by
    rw [hdrop, ← ht]
    rfl
  have hlf : (s.drop (j + 2)).head? = some (ch '\n') := by
    rw [hs, show j + 2 = q.length + 1 by omega, List.append_assoc, List.drop_append,
      List.drop_eq_nil_of_le (by omega), Nat.add_sub_cancel_left]
    rfl
  rw [hcr] at hlf
  exact absurd hlf (by decide)

theorem findFrameSeparator_cases {data : Bytes} {idx : Nat} (h : (findFrameSeparator data).idx = some idx) :
    ((findFrameSeparator data).sep = kFrameSepLF ∧ find kFrameSepLF data = some idx ∧
        ∀ k, find kFrameSepCRLF data = some k → idx ≤ k) ∨
      ((findFrameSeparator data).sep = kFrameSepCRLF ∧ find kFrameSepCRLF data = some idx ∧
        ∀ k, find kFrameSepLF data = some k → idx < k) := by
  unfold findFrameSeparator at h ⊢
  dsimp only at h ⊢
  split at h
  · rename_i hfirst
    rw [if_pos hfirst]
    refine .inr ⟨rfl, h, fun k hk => ?_⟩
    rw [hk, show find kFrameSepCRLF data = some idx from h] at hfirst
    simpa [crlfFirst] using hfirst
  · rename_i hfirst
    rw [if_neg hfirst]
    refine .inl ⟨rfl, h, fun k hk => ?_⟩
    rw [hk, show find kFrameSepLF data = some idx from h] at hfirst
    simpa [crlfFirst] using hfirst

theorem frame_of_first {data sep : Bytes} {idx : Nat} (hsep : sep ∈ separators) (hat : find sep data = some idx)
    (hother : ∀ sep' ∈ separators, ∀ q post, data = q ++ sep' ++ post → idx + sep.length ≤ q.length + sep'.length) :
    Frame EndsInSeparator (data.take (idx + sep.length)) := by
  obtain ⟨⟨post, hpost⟩, -⟩ := find_at hat
  refine ⟨⟨sep, hsep, data.take idx, ?_⟩, ?_⟩
  · rw [List.take_add, ← hpost, List.take_left]
  · rintro p hp hlt ⟨sep', hmem, q, rfl⟩
    obtain ⟨u, hu⟩ := hp.trans (List.take_prefix _ _)
    have hlen := Nat.lt_of_lt_of_le hlt (List.length_take_le _ _)
    have := hother sep' hmem q u hu.symm
    rw [List.length_append] at hlen
    omega

theorem findFrameSeparator_some {data : Bytes} {idx : Nat} (h : (findFrameSeparator data).idx = some idx) :
    Frame EndsInSeparator (data.take (idx + (findFrameSeparator data).sep.length)) := by
  have hlf : kFrameSepLF.length = 2 := rfl
  have hcrlf : kFrameSepCRLF.length = 4 := rfl
  rcases findFrameSeparator_cases h with ⟨hsep, hat, hfirst⟩ | ⟨hsep, hat, hfirst⟩
  · rw [hsep]
    apply frame_of_first (by decide) hat
    simp only [separators, List.mem_cons, List.not_mem_nil, or_false, forall_eq_or_imp, forall_eq, hlf, hcrlf]
    constructor
    · intro q post hs
      have := find_le hat hs
      omega
    · intro q post hs
      obtain ⟨k, hk⟩ := find_isSome hs
      have hidx := hfirst k hk
      have := find_le hk hs
      omega
  · rw [hsep]
    apply frame_of_first (by decide) hat
    simp only [separators, List.mem_cons, List.not_mem_nil, or_false, forall_eq_or_imp, forall_eq, hlf, hcrlf]
    constructor
    · intro q post hs
      obtain ⟨k, hk⟩ := find_isSome hs
      have hidx := hfirst k hk
      have := find_le hk hs
      have hinside := lf_not_inside_crlf (find_at hat).1 hs
      omega
    · intro q post hs
      have := find_le hat hs
      omega

/-! ## `split_frames` -/

theorem splitFrames_framed (buf : Bytes) :
    Framed EndsInSeparator buf (splitFrames buf).frames (splitFrames buf).tail := by
  fun_induction splitFrames buf with
  | case1 => exact .tail ((open_iff _).mpr (by decide))
  | case2 buf hne found hidx => exact .tail (findFrameSeparator_none hidx)
  | case3 buf hne found idx hidx stop rest ih =>
    have := Framed.frame (findFrameSeparator_some hidx) ih
    rwa [List.take_append_drop] at this

/-- `split_frames` on the carried tail and each chunk. -/
def feedFrames (chunks : List Bytes) : List Bytes × Bytes :=
  feed (fun buf => ((splitFrames buf).frames, (splitFrames buf).tail)) [] chunks

/-- **The chunks do not matter.** Frame by frame and in its tail, a stream is read the same however it is cut;
nothing is lost, each frame ends with its first separator, and the tail has none. -/
theorem framing_chunks (chunks : List Bytes) :
    feedFrames chunks = ((splitFrames chunks.flatten).frames, (splitFrames chunks.flatten).tail) ∧
      (splitFrames chunks.flatten).frames.flatten ++ (splitFrames chunks.flatten).tail = chunks.flatten ∧
      (∀ f ∈ (splitFrames chunks.flatten).frames,
        (∃ sep ∈ separators, sep <:+ f) ∧ ∀ sep ∈ separators, ¬ sep <:+: f.dropLast) ∧
      ∀ sep ∈ separators, ¬ sep <:+: (splitFrames chunks.flatten).tail := by
  have hwhole := splitFrames_framed chunks.flatten
  have hfed : Framed EndsInSeparator ([] ++ chunks.flatten) (feedFrames chunks).1 (feedFrames chunks).2 :=
    framed_feed splitFrames_framed [] ((open_iff []).mpr (by decide)) chunks
  rw [List.nil_append] at hfed
  obtain ⟨hframes, htail⟩ := hfed.unique hwhole
  refine ⟨Prod.ext hframes htail, hwhole.flatten, ?_, (open_iff _).mp hwhole.tail_open⟩
  intro f hf
  exact (frame_iff f).mp (hwhole.frames f hf)

end LlmGuard.Sse
