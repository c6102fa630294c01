import LlmGuard.Code.Demasker
import LlmGuard.Lib.Sweep
import LlmGuard.Masker.Proofs

/-!
# Conflicts between placeholder matches

`resolve_conflicts` sorts by start, length and rule id, and sweeps. What it keeps lies in order and apart, so the
second policy, in `apply_text_replacements`, passes nothing over.
-/

namespace LlmGuard

/-! ## The order of the sort -/

/-- Earlier, else longer, else of the lower rule id. -/
def Precedes (k m : PlaceholderMatch) : Prop :=
  k.start < m.start ∨ (k.start = m.start ∧
    (m.stop - m.start < k.stop - k.start ∨ (k.stop - k.start = m.stop - m.start ∧ k.ruleId ≤ m.ruleId)))

theorem placeholderMatchLess_eq_false (a b : PlaceholderMatch) : placeholderMatchLess b a = false ↔ Precedes a b := by
  unfold placeholderMatchLess Precedes
  generalize a.stop - a.start = n
  generalize b.stop - b.start = m
  by_cases hstart : b.start = a.start
  · by_cases hlen : m = n
    · simp [hstart, hlen]
    · simp [hstart, hlen]
      omega
  · simp [hstart]
    omega

theorem Precedes.trans {a b c : PlaceholderMatch} (hab : Precedes a b) (hbc : Precedes b c) : Precedes a c := by
  unfold Precedes at hab hbc ⊢
  rcases hab with hab | ⟨hab, hab' | ⟨hab', hid⟩⟩
  · omega
  · omega
  · rcases hbc with hbc | ⟨hbc, hbc' | ⟨hbc', hid'⟩⟩
    · omega
    · omega
    · exact .inr ⟨by omega, .inr ⟨by omega, List.le_trans hid hid'⟩⟩

theorem Precedes.total (a b : PlaceholderMatch) : Precedes a b ∨ Precedes b a := by
  unfold Precedes
  rcases Nat.lt_trichotomy a.start b.start with h | h | h
  · omega
  · rcases Nat.lt_trichotomy (a.stop - a.start) (b.stop - b.start) with h' | h' | h'
    · omega
    · rcases List.le_total a.ruleId b.ruleId with hid | hid
      · exact .inl (.inr ⟨h, .inr ⟨h', hid⟩⟩)
      · exact .inr (.inr ⟨h.symm, .inr ⟨h'.symm, hid⟩⟩)
    · omega
  · omega

theorem Precedes.antisymm {a b : PlaceholderMatch} (ha : a.start < a.stop) (hb : b.start < b.stop)
    (hab : Precedes a b) (hba : Precedes b a) : a.start = b.start ∧ a.stop = b.stop ∧ a.ruleId = b.ruleId := by
  unfold Precedes at hab hba
  rcases hab with h | ⟨hstart, h | ⟨hlen, hid⟩⟩
  · omega
  · omega
  · rcases hba with h | ⟨-, h | ⟨-, hid'⟩⟩
    · omega
    · omega
    · exact ⟨hstart, by omega, List.le_antisymm hid hid'⟩

theorem stableSort_precedes (ms : List PlaceholderMatch) : (stableSort placeholderMatchLess ms).Pairwise Precedes := by
  have hiff : ∀ a b, (!placeholderMatchLess b a) = true ↔ Precedes a b := by
    intro a b
    rw [Bool.not_eq_true', placeholderMatchLess_eq_false]
  refine (List.pairwise_mergeSort ?_ ?_ ms).imp fun {a b} h => (hiff a b).mp h
  · intro a b c hab hbc
    exact (hiff a c).mpr (((hiff a b).mp hab).trans ((hiff b c).mp hbc))
  · intro a b
    rw [Bool.or_eq_true, hiff, hiff]
    exact Precedes.total a b

theorem stableSort_perm {α : Type} (less : α → α → Bool) (l : List α) : (stableSort less l).Perm l :=
  List.mergeSort_perm l _

/-! ## The sweep -/

theorem dropOverlaps_eq (maxEnd : Nat) (ms : List PlaceholderMatch) :
    dropOverlaps maxEnd ms = Sweep.kept PlaceholderMatch.start PlaceholderMatch.stop maxEnd ms := by
  induction ms generalizing maxEnd with
  | nil => rfl
  | cons m ms ih => rw [dropOverlaps, Sweep.kept, ih, ih]

theorem resolvePlaceholderConflicts_eq (ms : List PlaceholderMatch) : resolvePlaceholderConflicts ms =
    Sweep.kept PlaceholderMatch.start PlaceholderMatch.stop 0 (stableSort placeholderMatchLess ms) := by
  rw [← dropOverlaps_eq]
  unfold resolvePlaceholderConflicts
  split
  · rename_i hlen
    rcases ms with _ | ⟨m, _ | ⟨n, ms⟩⟩
    · simp [stableSort, dropOverlaps]
    · simp [stableSort, dropOverlaps]
    · simp at hlen
  · rfl

/-- A match without the placeholder that it names. -/
def PlaceholderMatch.bare (m : PlaceholderMatch) : PlaceholderMatch := { m with placeholder := [] }

/-- The order of the input does not show in the spans and rules that are kept. -/
theorem resolvePlaceholderConflicts_perm {ms ms' : List PlaceholderMatch} (hspan : ∀ m ∈ ms, m.start < m.stop)
    (hperm : ms.Perm ms') :
    (resolvePlaceholderConflicts ms').map PlaceholderMatch.bare =
      (resolvePlaceholderConflicts ms).map PlaceholderMatch.bare := by
  have hbare : ∀ {l : List PlaceholderMatch}, l.Pairwise Precedes → (l.map PlaceholderMatch.bare).Pairwise Precedes :=
    fun h => List.pairwise_map.mpr h
  have hsorted : (stableSort placeholderMatchLess ms').map PlaceholderMatch.bare =
      (stableSort placeholderMatchLess ms).map PlaceholderMatch.bare := by
    refine List.Perm.eq_of_pairwise ?_ (hbare (stableSort_precedes ms')) (hbare (stableSort_precedes ms))
      (((stableSort_perm _ ms').trans (hperm.symm.trans (stableSort_perm _ ms).symm)).map _)
    intro a b ha hb hab hba
    obtain ⟨m, hm, rfl⟩ := List.mem_map.mp ha
    obtain ⟨n, hn, rfl⟩ := List.mem_map.mp hb
    have hm' := hspan m (hperm.symm.subset ((stableSort_perm _ ms').subset hm))
    have hn' := hspan n ((stableSort_perm _ ms).subset hn)
    obtain ⟨hstart, hstop, hid⟩ := Precedes.antisymm (a := m.bare) (b := n.bare) hm' hn' hab hba
    rw [PlaceholderMatch.mk.injEq]
    exact ⟨hid, hstart, hstop, rfl⟩
  have hkept := Sweep.map_kept PlaceholderMatch.start PlaceholderMatch.stop PlaceholderMatch.bare 0
  rw [resolvePlaceholderConflicts_eq, resolvePlaceholderConflicts_eq]
  exact (hkept _).trans ((congrArg _ hsorted).trans (hkept _).symm)

/-! ## Splicing -/

/-- The span and the text of a replacement. -/
def TextReplacement.edit (r : TextReplacement) : (Nat × Nat) × Bytes := ((r.start, r.stop), r.original)

theorem stableSort_of_starts {reps : List TextReplacement} (h : reps.Pairwise fun a b => a.start < b.start) :
    stableSort textReplacementLess reps = reps := by
  refine List.mergeSort_of_pairwise (h.imp fun {a b} hlt => ?_)
  rw [textReplacementLess, if_pos (by omega), Bool.not_eq_true', decide_eq_false_iff_not]
  omega

/-- The second policy passes over nothing that lies in order. -/
theorem spliceLoop_ordered (text : Bytes) (reps : List TextReplacement) (pos : Nat) (out : Bytes)
    (h : Splice.Ordered text.length pos ((reps.map TextReplacement.edit).map (·.1))) :
    spliceLoop text reps pos out = .ok (out ++ Splice.weave
      (Splice.gaps text pos ((reps.map TextReplacement.edit).map (·.1))) ((reps.map TextReplacement.edit).map (·.2))) := by
  induction reps generalizing pos out with
  | nil =>
    rw [spliceLoop, substr_tail text pos h]
    simp [bind, Except.bind]
  | cons r reps ih =>
    obtain ⟨hpos, hspan, hrest⟩ := h
    have hpos : pos ≤ r.start := hpos
    have hspan : r.start ≤ r.stop := hspan
    have hend : r.stop ≤ text.length := hrest.pos_le
    rw [spliceLoop, if_neg (by omega), substr_gap text pos r.start hpos (by omega)]
    simp only [bind, Except.bind]
    rw [ih r.stop _ hrest]
    simp [TextReplacement.edit, Splice.gaps]

theorem applyTextReplacements_ordered (text : Bytes) (reps : List TextReplacement)
    (hspans : ∀ r ∈ reps, r.start < r.stop)
    (h : Splice.Ordered text.length 0 ((reps.map TextReplacement.edit).map (·.1))) :
    applyTextReplacements text reps = .ok (Splice.replaced (reps.map TextReplacement.edit) 0 text) := by
  have hspans' : ∀ e ∈ reps.map TextReplacement.edit, e.1.1 < e.1.2 := by
    intro e he
    obtain ⟨r, hr, rfl⟩ := List.mem_map.mp he
    exact hspans r hr
  have hweave := Splice.weave_eq_replaced text hspans' h
  rw [List.drop_zero] at hweave
  have hstarts : reps.Pairwise fun a b => a.start < b.start := by
    have hapart := h.pairwise
    rw [List.pairwise_map, List.pairwise_map] at hapart
    exact hapart.imp_of_mem fun {a b} ha _ hab => Nat.lt_of_lt_of_le (hspans a ha) hab
  rw [← hweave]
  unfold applyTextReplacements
  split
  · rename_i hempty
    rw [List.isEmpty_iff.mp hempty]
    simp
  · rw [stableSort_of_starts hstarts, spliceLoop_ordered text reps 0 [] h, List.nil_append]

/-! ## Both together -/

/-- The span and the rule of a match. -/
def PlaceholderMatch.key (m : PlaceholderMatch) : Nat × Nat × Bytes := (m.start, m.stop, m.ruleId)

def PlaceholderMatch.Overlaps (m n : PlaceholderMatch) : Prop := m.start < n.stop ∧ n.start < m.stop

/-- The matches that the sweep passes over. -/
def droppedMatches (ms : List PlaceholderMatch) : List PlaceholderMatch :=
  Sweep.dropped PlaceholderMatch.start PlaceholderMatch.stop 0 (stableSort placeholderMatchLess ms)

theorem kept_append_droppedMatches (ms : List PlaceholderMatch) :
    (resolvePlaceholderConflicts ms ++ droppedMatches ms).Perm ms := by
  rw [resolvePlaceholderConflicts_eq]
  exact (Sweep.kept_append_dropped_perm 0 _).trans (stableSort_perm _ ms)

theorem resolvePlaceholderConflicts_subset (ms : List PlaceholderMatch) : resolvePlaceholderConflicts ms ⊆ ms :=
  fun _ hm => (kept_append_droppedMatches ms).subset (List.mem_append_left _ hm)

theorem resolvePlaceholderConflicts_apart (ms : List PlaceholderMatch) :
    (resolvePlaceholderConflicts ms).Pairwise fun m n => m.stop ≤ n.start := by
  rw [resolvePlaceholderConflicts_eq]
  exact Sweep.kept_apart 0 _

theorem overlaps_of_dropped {ms : List PlaceholderMatch} (hspan : ∀ m ∈ ms, m.start < m.stop) {m : PlaceholderMatch}
    (hm : m ∈ droppedMatches ms) : ∃ k ∈ resolvePlaceholderConflicts ms, Precedes k m ∧ k.Overlaps m := by
  have hlt := hspan m ((kept_append_droppedMatches ms).subset (List.mem_append_right _ hm))
  rcases Sweep.blocked (stableSort_precedes ms) hm with hzero | ⟨k, hk, hprec, hover⟩
  · omega
  · have hstart : k.start ≤ m.start := by
      rcases hprec with h | ⟨h, -⟩
      · exact h.le
      · exact h.le
    rw [← resolvePlaceholderConflicts_eq] at hk
    exact ⟨k, hk, hprec, Nat.lt_of_le_of_lt hstart hlt, hover⟩

theorem applyTextReplacements_kept {text : Bytes} {ms : List PlaceholderMatch}
    (hin : ∀ m ∈ ms, m.start < m.stop ∧ m.stop ≤ text.length) (original : PlaceholderMatch → Bytes) :
    applyTextReplacements text ((resolvePlaceholderConflicts ms).map fun m => ⟨m.start, m.stop, original m⟩) =
      .ok (Splice.replaced ((resolvePlaceholderConflicts ms).map fun m => ((m.start, m.stop), original m)) 0 text) := by
  have hkept : ∀ m ∈ resolvePlaceholderConflicts ms, m.start < m.stop ∧ m.stop ≤ text.length :=
    fun m hm => hin m (resolvePlaceholderConflicts_subset ms hm)
  have hspans : (((resolvePlaceholderConflicts ms).map fun m =>
      (⟨m.start, m.stop, original m⟩ : TextReplacement)).map TextReplacement.edit).map (·.1) =
      (resolvePlaceholderConflicts ms).map fun m => (m.start, m.stop) := by
    rw [List.map_map, List.map_map]
    rfl
  rw [applyTextReplacements_ordered, List.map_map]
  · rfl
  · intro r hr
    obtain ⟨m, hm, rfl⟩ := List.mem_map.mp hr
    exact (hkept m hm).1
  · rw [hspans]
    refine Splice.ordered_of_pairwise (Nat.zero_le _) ?_ (List.pairwise_map.mpr (resolvePlaceholderConflicts_apart ms))
    intro p hp
    obtain ⟨m, hm, rfl⟩ := List.mem_map.mp hp
    exact ⟨Nat.zero_le _, (hkept m hm).1.le, (hkept m hm).2⟩

/-- What is kept is sorted and apart. What is dropped overlaps something kept that precedes it. The order of the input
does not matter. Splicing replaces what is kept, all at once, and nothing else. -/
theorem resolvePlaceholderConflicts_splice (text : Bytes) (ms : List PlaceholderMatch)
    (hin : ∀ m ∈ ms, m.start < m.stop ∧ m.stop ≤ text.length) :
    (resolvePlaceholderConflicts ms).Pairwise (fun m n => m.start < n.start ∧ m.stop ≤ n.start) ∧
      (∃ dropped, (resolvePlaceholderConflicts ms ++ dropped).Perm ms ∧
        ∀ m ∈ dropped, ∃ k ∈ resolvePlaceholderConflicts ms, Precedes k m ∧ k.Overlaps m) ∧
      (∀ ms', ms.Perm ms' → (resolvePlaceholderConflicts ms').map PlaceholderMatch.key =
        (resolvePlaceholderConflicts ms).map PlaceholderMatch.key) ∧
      ∀ original : PlaceholderMatch → Bytes,
        applyTextReplacements text
            ((resolvePlaceholderConflicts ms).map fun m => ⟨m.start, m.stop, original m⟩) =
          .ok (Splice.replaced
            ((resolvePlaceholderConflicts ms).map fun m => ((m.start, m.stop), original m)) 0 text) := by
  have hspan : ∀ m ∈ ms, m.start < m.stop := fun m hm => (hin m hm).1
  refine ⟨?_, ⟨droppedMatches ms, kept_append_droppedMatches ms, fun m hm => overlaps_of_dropped hspan hm⟩,
    fun ms' hperm => ?_, applyTextReplacements_kept hin⟩
  · refine (resolvePlaceholderConflicts_apart ms).imp_of_mem fun {m n} hm _ hmn => ⟨?_, hmn⟩
    exact Nat.lt_of_lt_of_le (hspan m (resolvePlaceholderConflicts_subset ms hm)) hmn
  · have hkeys := congrArg (List.map PlaceholderMatch.key) (resolvePlaceholderConflicts_perm hspan hperm)
    rwa [List.map_map, List.map_map] at hkeys

/-- Two rules find one span, and three spans form a chain. -/
theorem resolvePlaceholderConflicts_splice_sample :
    let ms : List PlaceholderMatch :=
      [⟨ascii "a", 0, 3, []⟩, ⟨ascii "b", 0, 3, []⟩, ⟨ascii "a", 2, 5, []⟩, ⟨ascii "a", 4, 6, []⟩]
    ∀ ms', ms.Perm ms' →
      (resolvePlaceholderConflicts ms').map PlaceholderMatch.key = [(0, 3, ascii "a"), (4, 6, ascii "a")] := by
  intro ms ms' h
  have hsorted : stableSort placeholderMatchLess ms = ms := List.mergeSort_of_pairwise (by decide)
  have hkeys : (resolvePlaceholderConflicts ms).map PlaceholderMatch.key = [(0, 3, ascii "a"), (4, 6, ascii "a")] := by
    rw [resolvePlaceholderConflicts_eq, hsorted]
    rfl
  obtain ⟨-, -, hperm, -⟩ := resolvePlaceholderConflicts_splice (ascii "abcdef") ms (by decide)
  exact (hperm ms' h).trans hkeys

end LlmGuard
