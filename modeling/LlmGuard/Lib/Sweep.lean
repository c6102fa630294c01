import Mathlib.Data.List.Basic
import Mathlib.Data.List.Perm.Basic

/-!
# A greedy choice among overlapping spans

A sweep takes each span that starts behind everything taken before. Who is taken is decided by the order of the
list alone.
-/

namespace Sweep

variable {α β : Type} (start stop : α → Nat)

/-- The spans that are taken, and how far they reach. -/
def kept : Nat → List α → List α
  | _, [] => []
  | reach, a :: l => if start a < reach then kept reach l else a :: kept (if reach < stop a then stop a else reach) l

/-- The spans that are passed over. -/
def dropped : Nat → List α → List α
  | _, [] => []
  | reach, a :: l => if start a < reach then a :: dropped reach l else dropped (if reach < stop a then stop a else reach) l

variable {start stop}

theorem kept_skip {a : α} {reach : Nat} (h : start a < reach) (l : List α) :
    kept start stop reach (a :: l) = kept start stop reach l := by
  rw [kept, if_pos h]

theorem kept_take {a : α} {reach : Nat} (h : ¬ start a < reach) (l : List α) :
    kept start stop reach (a :: l) = a :: kept start stop (if reach < stop a then stop a else reach) l := by
  rw [kept, if_neg h]

theorem dropped_skip {a : α} {reach : Nat} (h : start a < reach) (l : List α) :
    dropped start stop reach (a :: l) = a :: dropped start stop reach l := by
  rw [dropped, if_pos h]

theorem dropped_take {a : α} {reach : Nat} (h : ¬ start a < reach) (l : List α) :
    dropped start stop reach (a :: l) = dropped start stop (if reach < stop a then stop a else reach) l := by
  rw [dropped, if_neg h]

theorem kept_append_dropped_perm (reach : Nat) (l : List α) :
    (kept start stop reach l ++ dropped start stop reach l).Perm l := by
  induction l generalizing reach with
  | nil => exact .nil
  | cons a l ih =>
    by_cases h : start a < reach
    · rw [kept_skip h, dropped_skip h]
      exact List.perm_middle.trans ((ih reach).cons a)
    · rw [kept_take h, dropped_take h, List.cons_append]
      exact (ih _).cons a

theorem reach_le {reach : Nat} {l : List α} {a : α} (ha : a ∈ kept start stop reach l) : reach ≤ start a := by
  induction l generalizing reach with
  | nil => cases ha
  | cons b l ih =>
    by_cases h : start b < reach
    · rw [kept_skip h] at ha
      exact ih ha
    · rw [kept_take h] at ha
      rcases List.mem_cons.mp ha with rfl | ha
      · omega
      · have := ih ha
        split at this <;> omega

theorem kept_apart (reach : Nat) (l : List α) : (kept start stop reach l).Pairwise fun a b => stop a ≤ start b := by
  induction l generalizing reach with
  | nil => exact .nil
  | cons a l ih =>
    by_cases h : start a < reach
    · rw [kept_skip h]
      exact ih reach
    · rw [kept_take h]
      refine List.pairwise_cons.mpr ⟨fun b hb => ?_, ih _⟩
      have := reach_le hb
      split at this <;> omega

/-- What is passed over starts before the end of a span that comes first in the list and was taken. -/
theorem blocked {R : α → α → Prop} {reach : Nat} {l : List α} (hl : l.Pairwise R) {a : α}
    (ha : a ∈ dropped start stop reach l) :
    start a < reach ∨ ∃ k ∈ kept start stop reach l, R k a ∧ start a < stop k := by
  induction l generalizing reach with
  | nil => cases ha
  | cons b l ih =>
    obtain ⟨hb, hl⟩ := List.pairwise_cons.mp hl
    by_cases h : start b < reach
    · rw [dropped_skip h] at ha
      rw [kept_skip h]
      rcases List.mem_cons.mp ha with rfl | ha
      · exact .inl h
      · exact ih hl ha
    · rw [dropped_take h] at ha
      rw [kept_take h]
      have hal : a ∈ l := (kept_append_dropped_perm _ l).subset (List.mem_append_right _ ha)
      rcases ih hl ha with hlt | ⟨k, hk, hrel, hlt⟩
      · by_cases hreach : start a < reach
        · exact .inl hreach
        · refine .inr ⟨b, List.mem_cons_self, hb a hal, ?_⟩
          split at hlt <;> omega
      · exact .inr ⟨k, List.mem_cons_of_mem b hk, hrel, hlt⟩

theorem map_kept (start stop : β → Nat) (f : α → β) (reach : Nat) (l : List α) :
    (kept (start ∘ f) (stop ∘ f) reach l).map f = kept start stop reach (l.map f) := by
  induction l generalizing reach with
  | nil => rfl
  | cons a l ih =>
    by_cases h : (start ∘ f) a < reach
    · rw [kept_skip h l, List.map_cons, kept_skip (a := f a) h, ih]
    · rw [kept_take h l, List.map_cons, List.map_cons, kept_take (a := f a) h, ih]
      rfl

end Sweep
