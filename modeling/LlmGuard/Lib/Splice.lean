import Mathlib.Data.List.Basic
import Mathlib.Data.List.Infix

/-!
# Replacing spans of a list

A list is cut at spans that lie in order, and put together again with other pieces in the place of the
spans. Nothing here is about text.
-/

namespace Splice

variable {α : Type}

/-! ## Slices -/

/-- The elements from `start` up to `stop`. -/
def slice (s : List α) (start stop : Nat) : List α := (s.drop start).take (stop - start)

@[simp] theorem slice_self (s : List α) (i : Nat) : slice s i i = [] := by simp [slice]

theorem slice_zero_length (s : List α) : slice s 0 s.length = s := by simp [slice]

theorem slice_append (s : List α) (i j k : Nat) (hij : i ≤ j) (hjk : j ≤ k) :
    slice s i j ++ slice s j k = slice s i k := by
  unfold slice
  have hdrop : s.drop j = (s.drop i).drop (j - i) := by rw [List.drop_drop]; congr 1; omega
  rw [hdrop, ← List.take_add]
  congr 1; omega

theorem slice_append_drop (s : List α) (i j : Nat) (hij : i ≤ j) :
    slice s i j ++ s.drop j = s.drop i := by
  have hdrop : s.drop j = (s.drop i).drop (j - i) := by rw [List.drop_drop]; congr 1; omega
  rw [slice, hdrop, List.take_append_drop]

theorem slice_length (s : List α) (i j : Nat) (hj : j ≤ s.length) : (slice s i j).length = j - i := by
  simp [slice]; omega

theorem slice_inside (s : List α) (i j : Nat) : slice s i j <:+: s :=
  (List.take_prefix _ _).isInfix.trans (List.drop_suffix _ _).isInfix

theorem slice_eq_nil (s : List α) (i j : Nat) (hj : j ≤ s.length) : slice s i j = [] ↔ j ≤ i := by
  rw [← List.length_eq_zero_iff, slice_length s i j hj]
  omega

theorem slice_middle (a w b : List α) : slice (a ++ w ++ b) a.length (a.length + w.length) = w := by
  simp [slice]

theorem append_slice_append (s : List α) (i j : Nat) (hij : i ≤ j) :
    s.take i ++ slice s i j ++ s.drop j = s := by
  rw [List.append_assoc, slice_append_drop s i j hij, List.take_append_drop]

/-! ## Spans in order -/

/-- The spans follow each other from `pos` on, without overlap, and end within `size`. -/
def Ordered (size : Nat) : Nat → List (Nat × Nat) → Prop
  | pos, [] => pos ≤ size
  | pos, (i, j) :: spans => pos ≤ i ∧ i ≤ j ∧ Ordered size j spans

instance (size : Nat) : ∀ pos spans, Decidable (Ordered size pos spans)
  | pos, [] => inferInstanceAs (Decidable (pos ≤ size))
  | pos, (i, j) :: spans =>
    have := instDecidableOrdered size j spans
    inferInstanceAs (Decidable (pos ≤ i ∧ i ≤ j ∧ Ordered size j spans))

theorem Ordered.pos_le {size pos : Nat} {spans : List (Nat × Nat)} (h : Ordered size pos spans) :
    pos ≤ size := by
  induction spans generalizing pos with
  | nil => exact h
  | cons p spans ih =>
    obtain ⟨hpos, hij, hrest⟩ := h
    have := ih hrest
    omega

theorem Ordered.mono {size pos pos' : Nat} {spans : List (Nat × Nat)} (h : Ordered size pos spans)
    (hpos : pos' ≤ pos) : Ordered size pos' spans := by
  cases spans with
  | nil => exact hpos.trans h
  | cons p spans => exact ⟨hpos.trans h.1, h.2⟩

theorem Ordered.start_le {size pos : Nat} {spans : List (Nat × Nat)} (h : Ordered size pos spans) {p : Nat × Nat}
    (hp : p ∈ spans) : pos ≤ p.1 := by
  induction spans generalizing pos with
  | nil => cases hp
  | cons q spans ih =>
    obtain ⟨hpos, hij, hrest⟩ := h
    rcases List.mem_cons.mp hp with rfl | hp
    · exact hpos
    · have := ih hrest hp
      omega

theorem Ordered.mem {size pos : Nat} {spans : List (Nat × Nat)} (h : Ordered size pos spans) {p : Nat × Nat}
    (hp : p ∈ spans) : p.1 ≤ p.2 ∧ p.2 ≤ size := by
  induction spans generalizing pos with
  | nil => cases hp
  | cons q spans ih =>
    obtain ⟨hpos, hij, hrest⟩ := h
    rcases List.mem_cons.mp hp with rfl | hp
    · exact ⟨hij, hrest.pos_le⟩
    · exact ih hrest hp

theorem Ordered.pairwise {size pos : Nat} {spans : List (Nat × Nat)} (h : Ordered size pos spans) :
    spans.Pairwise fun p q => p.2 ≤ q.1 := by
  induction spans generalizing pos with
  | nil => exact .nil
  | cons p spans ih =>
    obtain ⟨-, -, hrest⟩ := h
    exact List.pairwise_cons.mpr ⟨fun q hq => hrest.start_le hq, ih hrest⟩

theorem Ordered.sublist {size pos : Nat} {spans some : List (Nat × Nat)} (h : Ordered size pos spans)
    (hsub : some.Sublist spans) : Ordered size pos some := by
  induction hsub generalizing pos with
  | slnil => exact h
  | cons p _ ih => exact (ih h.2.2).mono (h.1.trans h.2.1)
  | cons_cons p _ ih => exact ⟨h.1, h.2.1, ih h.2.2⟩

theorem ordered_of_pairwise {size pos : Nat} {spans : List (Nat × Nat)} (hpos : pos ≤ size)
    (hin : ∀ p ∈ spans, pos ≤ p.1 ∧ p.1 ≤ p.2 ∧ p.2 ≤ size) (hapart : spans.Pairwise fun p q => p.2 ≤ q.1) :
    Ordered size pos spans := by
  induction spans generalizing pos with
  | nil => exact hpos
  | cons p spans ih =>
    obtain ⟨hafter, hrest⟩ := List.pairwise_cons.mp hapart
    obtain ⟨hp, hle, hend⟩ := hin p (by simp)
    refine ⟨hp, hle, ih hend (fun q hq => ⟨hafter q hq, ?_⟩) hrest⟩
    exact (hin q (List.mem_cons_of_mem _ hq)).2

/-! ## Gaps and pieces -/

/-- What lies between the spans, from `pos` on: one gap more than there are spans. -/
def gaps (s : List α) : Nat → List (Nat × Nat) → List (List α)
  | pos, [] => [s.drop pos]
  | pos, (i, j) :: spans => slice s pos i :: gaps s j spans

/-- What the spans hold. -/
def pieces (s : List α) (spans : List (Nat × Nat)) : List (List α) :=
  spans.map fun p => slice s p.1 p.2

/-- A gap, a piece, a gap, a piece, and so on to the last gap. -/
def weave : List (List α) → List (List α) → List α
  | g :: gs, p :: ps => g ++ p ++ weave gs ps
  | gs, _ => gs.flatten

@[simp] theorem gaps_nil (s : List α) (pos : Nat) : gaps s pos [] = [s.drop pos] := rfl

@[simp] theorem weave_singleton (g : List α) : weave [g] [] = g := by simp [weave]

@[simp] theorem weave_cons (g p : List α) (gs ps : List (List α)) :
    weave (g :: gs) (p :: ps) = g ++ p ++ weave gs ps := rfl

theorem gaps_length (s : List α) (pos : Nat) (spans : List (Nat × Nat)) :
    (gaps s pos spans).length = spans.length + 1 := by
  induction spans generalizing pos with
  | nil => rfl
  | cons p spans ih => simp [gaps, ih]

theorem weave_pieces (s : List α) (pos : Nat) (spans : List (Nat × Nat))
    (h : Ordered s.length pos spans) : weave (gaps s pos spans) (pieces s spans) = s.drop pos := by
  induction spans generalizing pos with
  | nil => simp [pieces]
  | cons p spans ih =>
    obtain ⟨i, j⟩ := p
    obtain ⟨hpos, hij, hrest⟩ := h
    have hrest' := ih j hrest
    simp only [pieces, gaps, List.map_cons, weave_cons] at hrest' ⊢
    rw [hrest', List.append_assoc, slice_append_drop s i j hij, slice_append_drop s pos i hpos]

/-! ## All at once -/

/-- What an element becomes: the texts of the edits that begin at its place, and the element itself unless a span
covers it. -/
def placed (edits : List ((Nat × Nat) × List α)) (x : α × Nat) : List α :=
  (edits.filter fun e => e.1.1 = x.2).flatMap (·.2) ++
    if edits.any fun e => e.1.1 ≤ x.2 && x.2 < e.1.2 then [] else [x.1]

/-- All edits at once, in the elements from place `pos` on. -/
def replaced (edits : List ((Nat × Nat) × List α)) (pos : Nat) (s : List α) : List α :=
  (s.zipIdx pos).flatMap (placed edits)

theorem replaced_append (edits : List ((Nat × Nat) × List α)) (pos : Nat) (s t : List α) :
    replaced edits pos (s ++ t) = replaced edits pos s ++ replaced edits (pos + s.length) t := by
  simp [replaced, List.zipIdx_append]

theorem replaced_congr {edits edits' : List ((Nat × Nat) × List α)} {pos : Nat} {s : List α}
    (h : ∀ a i, pos ≤ i → i < pos + s.length → placed edits (a, i) = placed edits' (a, i)) :
    replaced edits pos s = replaced edits' pos s := by
  refine List.flatMap_congr fun x hx => ?_
  obtain ⟨a, i⟩ := x
  obtain ⟨hpos, hlt, -⟩ := List.mem_zipIdx hx
  exact h a i hpos hlt

theorem placed_outside {edits : List ((Nat × Nat) × List α)} {a : α} {i : Nat} (h : ∀ e ∈ edits, i < e.1.1) :
    placed edits (a, i) = [a] := by
  have hnone : edits.filter (fun e => e.1.1 = i) = [] := by
    rw [List.filter_eq_nil_iff]
    intro e he
    have := h e he
    simp only [decide_eq_true_eq]
    omega
  have hfree : edits.any (fun e => e.1.1 ≤ i && i < e.1.2) = false := by
    rw [List.any_eq_false]
    intro e he
    have := h e he
    simp only [Bool.and_eq_true, decide_eq_true_eq]
    omega
  simp [placed, hnone, hfree]

theorem replaced_outside {edits : List ((Nat × Nat) × List α)} {pos : Nat} {s : List α}
    (h : ∀ e ∈ edits, pos + s.length ≤ e.1.1) : replaced edits pos s = s := by
  induction s generalizing pos with
  | nil => rfl
  | cons a s ih =>
    simp only [List.length_cons] at h
    have hrest : replaced edits (pos + 1) s = s := ih fun e he => by have := h e he; omega
    unfold replaced at hrest ⊢
    rw [List.zipIdx_cons, List.flatMap_cons, hrest, placed_outside fun e he => by have := h e he; omega]
    rfl

theorem placed_skip {e : (Nat × Nat) × List α} {edits : List ((Nat × Nat) × List α)} {a : α} {i : Nat}
    (h : i < e.1.1 ∨ e.1.1 < e.1.2 ∧ e.1.2 ≤ i) : placed (e :: edits) (a, i) = placed edits (a, i) := by
  unfold placed
  rw [List.filter_cons_of_neg (by simp only [decide_eq_true_eq]; omega), List.any_cons]
  have : (decide (e.1.1 ≤ i) && decide (i < e.1.2)) = false := by
    rw [Bool.and_eq_false_iff, decide_eq_false_iff_not, decide_eq_false_iff_not]
    omega
  rw [this, Bool.false_or]

theorem replaced_span {e : (Nat × Nat) × List α} {edits : List ((Nat × Nat) × List α)} {s : List α}
    (hspan : e.1.1 < e.1.2) (hlen : s.length = e.1.2 - e.1.1) (hafter : ∀ e' ∈ edits, e.1.2 ≤ e'.1.1) :
    replaced (e :: edits) e.1.1 s = e.2 := by
  have hnone : ∀ i, i < e.1.2 → edits.filter (fun e' => e'.1.1 = i) = [] := by
    intro i hi
    rw [List.filter_eq_nil_iff]
    intro e' he'
    have := hafter e' he'
    simp only [decide_eq_true_eq]
    omega
  cases s with
  | nil =>
    simp only [List.length_nil] at hlen
    omega
  | cons a s =>
    have hfirst : placed (e :: edits) (a, e.1.1) = e.2 := by
      simp [placed, hnone e.1.1 hspan, hspan]
    have hrest : ∀ x ∈ s.zipIdx (e.1.1 + 1), placed (e :: edits) x = [] := by
      rintro ⟨b, i⟩ hx
      obtain ⟨hlow, hhigh, -⟩ := List.mem_zipIdx hx
      simp only [List.length_cons] at hlen
      have hcover : e.1.1 ≤ i ∧ i < e.1.2 := by omega
      have hother : ¬ e.1.1 = i := by omega
      simp [placed, hnone i hcover.2, hcover, hother]
    rw [replaced, List.zipIdx_cons, List.flatMap_cons, hfirst, List.flatMap_eq_nil_iff.mpr hrest, List.append_nil]

/-- One after the other is all at once. -/
theorem weave_eq_replaced (s : List α) {pos : Nat} {edits : List ((Nat × Nat) × List α)}
    (hspans : ∀ e ∈ edits, e.1.1 < e.1.2) (h : Ordered s.length pos (edits.map (·.1))) :
    weave (gaps s pos (edits.map (·.1))) (edits.map (·.2)) = replaced edits pos (s.drop pos) := by
  induction edits generalizing pos with
  | nil => simp [replaced_outside]
  | cons e edits ih =>
    obtain ⟨⟨i, j⟩, t⟩ := e
    simp only [List.map_cons, Ordered] at h
    obtain ⟨hpos, hij, hrest⟩ := h
    have hlt : i < j := hspans ((i, j), t) (by simp)
    have hj : j ≤ s.length := hrest.pos_le
    have hafter : ∀ e ∈ edits, j ≤ e.1.1 := fun e he => hrest.start_le (List.mem_map_of_mem he)
    have hgap : replaced (((i, j), t) :: edits) pos (slice s pos i) = slice s pos i := by
      refine replaced_outside fun e he => ?_
      rw [slice_length s pos i (by omega)]
      rcases List.mem_cons.mp he with rfl | he
      · exact Nat.le_of_eq (Nat.add_sub_cancel' hpos)
      · have := hafter e he
        omega
    have hspan : replaced (((i, j), t) :: edits) i (slice s i j) = t :=
      replaced_span hlt (slice_length s i j hj) hafter
    have hbehind : replaced (((i, j), t) :: edits) j (s.drop j) = replaced edits j (s.drop j) :=
      replaced_congr fun a k hk _ => placed_skip (.inr ⟨hlt, hk⟩)
    rw [List.map_cons, List.map_cons, gaps, weave_cons, ih (fun e he => hspans e (by simp [he])) hrest,
      ← slice_append_drop s pos i hpos, ← slice_append_drop s i j hij, replaced_append, replaced_append, hgap,
      slice_length s pos i (by omega), slice_length s i j hj, Nat.add_sub_cancel' hpos, Nat.add_sub_cancel' hij, hspan,
      hbehind, List.append_assoc]

/-- Spans that share no place. -/
def Apart (e e' : (Nat × Nat) × List α) : Prop := e.1.2 ≤ e'.1.1 ∨ e'.1.2 ≤ e.1.1

/-- At most one span begins at a place, so the order of the edits says nothing. -/
theorem replaced_perm {edits edits' : List ((Nat × Nat) × List α)} (hperm : edits.Perm edits')
    (hspans : ∀ e ∈ edits, e.1.1 < e.1.2) (hapart : edits.Pairwise Apart) (pos : Nat) (s : List α) :
    replaced edits pos s = replaced edits' pos s := by
  refine replaced_congr fun a i _ _ => ?_
  have hfilter := hperm.filter fun e => e.1.1 = i
  have hpair := hapart.sublist (List.filter_sublist (p := fun e => decide (e.1.1 = i)))
  have hsame : edits.filter (fun e => e.1.1 = i) = edits'.filter fun e => e.1.1 = i := by
    match hl : edits.filter fun e => e.1.1 = i with
    | [] =>
      rw [hl, List.nil_perm] at hfilter
      rw [hl, hfilter]
    | [e] =>
      rw [hl, List.singleton_perm] at hfilter
      rw [hl, ← hfilter]
    | e :: e' :: rest =>
      have hin : ∀ x ∈ e :: e' :: rest, x.1.1 = i ∧ x.1.1 < x.1.2 := by
        intro x hx
        rw [← hl] at hx
        obtain ⟨hx, hstart⟩ := List.mem_filter.mp hx
        exact ⟨by simpa using hstart, hspans x hx⟩
      rw [hl] at hpair
      have hclash := (List.pairwise_cons.mp hpair).1 e' (by simp)
      obtain ⟨he, hlt⟩ := hin e (by simp)
      obtain ⟨he', hlt'⟩ := hin e' (by simp)
      unfold Apart at hclash
      omega
  unfold placed
  rw [hsame, hperm.any_eq]

end Splice
