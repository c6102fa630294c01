import Mathlib.Algebra.Ring.Basic
import Mathlib.Algebra.Group.Units.Basic
import Mathlib.Tactic.Ring

/-!
# Check digits

A number is followed by symbols that are made from a weighted sum of its own. One wrong symbol, or two neighbours that
have changed places, always move the sum; they pass only where the check symbols of the two sums are the same.
-/

namespace CheckDigits

variable {α G : Type} [CommRing G]

/-- The weighted sum of a number whose first symbol is at place `i`. -/
def total (weight : ℕ → G) (value : α → G) : ℕ → List α → G
  | _, [] => 0
  | i, a :: s => weight i * value a + total weight value (i + 1) s

theorem total_append (weight : ℕ → G) (value : α → G) (i : ℕ) (s t : List α) :
    total weight value i (s ++ t) = total weight value i s + total weight value (i + s.length) t := by
  induction s generalizing i with
  | nil => simp [total]
  | cons a s ih =>
    simp only [List.cons_append, total, ih, List.length_cons, add_assoc]
    rw [add_comm 1 s.length]

theorem total_succ (weight : ℕ → G) (value : α → G) (i : ℕ) (s : List α) :
    total weight value (i + 1) s = total (fun j => weight (j + 1)) value i s := by
  induction s generalizing i with
  | nil => rfl
  | cons a s ih => simp only [total, ih]

/-- Each place alone, and the difference of each two neighbours, can be read back from the sum. -/
structure Scheme (α G : Type) [CommRing G] where
  size : ℕ
  legal : α → Prop
  value : α → G
  weight : ℕ → G
  check : G → List α
  value_injective : ∀ {a b}, legal a → legal b → value a = value b → a = b
  weight_unit : ∀ i < size, IsUnit (weight i)
  neighbours_unit : ∀ i, i + 1 < size → IsUnit (weight i - weight (i + 1))

namespace Scheme

variable (S : Scheme α G) {s u v : List α} {a b : α}

def sum (s : List α) : G := total S.weight S.value 0 (s.take S.size)

structure Valid (s : List α) : Prop where
  length : S.size ≤ s.length
  legal : ∀ a ∈ s, S.legal a
  check : s.drop S.size = S.check (S.sum s)

/-- Two sums that the check symbols do not tell apart. -/
def Blurred (s t : List α) : Prop := S.sum s ≠ S.sum t ∧ S.check (S.sum s) = S.check (S.sum t)

variable {S}

theorem take_append_cons (hu : u.length < S.size) (a : α) (v : List α) :
    (u ++ a :: v).take S.size = u ++ a :: v.take (S.size - u.length - 1) := by
  rw [List.take_append, List.take_of_length_le hu.le, List.take_cons (by omega)]

theorem drop_append_cons (hu : u.length < S.size) (a : α) (v : List α) :
    (u ++ a :: v).drop S.size = v.drop (S.size - u.length - 1) := by
  obtain ⟨n, hn⟩ := Nat.exists_eq_add_of_lt hu
  rw [List.drop_append, List.drop_of_length_le hu.le, List.nil_append, hn,
    show u.length + n + 1 - u.length = n + 1 by omega]
  rfl

theorem sum_change (hu : u.length < S.size) (a b : α) (v : List α) : S.sum (u ++ b :: v) =
    S.sum (u ++ a :: v) + S.weight u.length * (S.value b - S.value a) := by
  simp only [sum, take_append_cons hu, total_append, total, zero_add]
  ring

theorem sum_exchange (hu : u.length + 1 < S.size) (a b : α) (v : List α) : S.sum (u ++ b :: a :: v) =
    S.sum (u ++ a :: b :: v) + (S.weight u.length - S.weight (u.length + 1)) * (S.value b - S.value a) := by
  obtain ⟨n, hn⟩ := Nat.exists_eq_add_of_lt hu
  simp only [sum, take_append_cons (Nat.lt_of_succ_lt hu), show S.size - u.length - 1 = n + 1 by omega,
    List.take_succ_cons, total_append, total, zero_add]
  ring

theorem value_sub_ne_zero (ha : S.legal a) (hb : S.legal b) (hne : a ≠ b) : S.value b - S.value a ≠ 0 := by
  intro hzero
  exact hne (S.value_injective ha hb (sub_eq_zero.mp hzero).symm)

theorem sum_change_ne (hu : u.length < S.size) (ha : S.legal a) (hb : S.legal b) (hne : a ≠ b) :
    S.sum (u ++ a :: v) ≠ S.sum (u ++ b :: v) := by
  rw [sum_change hu a b, ne_eq, left_eq_add, (S.weight_unit _ hu).mul_right_eq_zero]
  exact value_sub_ne_zero ha hb hne

theorem sum_exchange_ne (hu : u.length + 1 < S.size) (ha : S.legal a) (hb : S.legal b) (hne : a ≠ b) :
    S.sum (u ++ a :: b :: v) ≠ S.sum (u ++ b :: a :: v) := by
  rw [sum_exchange hu a b, ne_eq, left_eq_add, (S.neighbours_unit _ hu).mul_right_eq_zero]
  exact value_sub_ne_zero ha hb hne

theorem valid_iff_check {s t : List α} (h : S.Valid s) (hlen : S.size ≤ t.length) (hlegal : ∀ a ∈ t, S.legal a)
    (hdrop : t.drop S.size = s.drop S.size) : S.Valid t ↔ S.check (S.sum s) = S.check (S.sum t) := by
  constructor
  · intro ht
    rw [← h.check, ← ht.check, hdrop]
  · intro hcheck
    exact ⟨hlen, hlegal, by rw [hdrop, h.check, hcheck]⟩

theorem valid_change_iff (h : S.Valid (u ++ a :: v)) (hu : u.length < S.size) (hb : S.legal b) (hne : a ≠ b) :
    S.Valid (u ++ b :: v) ↔ S.Blurred (u ++ a :: v) (u ++ b :: v) := by
  have ha : S.legal a := h.legal a (by simp)
  have hlegal : ∀ c ∈ u ++ b :: v, S.legal c := by
    intro c hc
    rcases List.mem_append.mp hc with hc | hc
    · exact h.legal c (by simp [hc])
    · rcases List.mem_cons.mp hc with rfl | hc
      · exact hb
      · exact h.legal c (by simp [hc])
  rw [valid_iff_check h (by simpa using h.length) hlegal (by rw [drop_append_cons hu, drop_append_cons hu])]
  exact (and_iff_right (sum_change_ne hu ha hb hne)).symm

theorem not_valid_change_check (h : S.Valid (u ++ a :: v)) (hu : S.size ≤ u.length) (hne : a ≠ b) :
    ¬ S.Valid (u ++ b :: v) := by
  intro hb
  have hsum : S.sum (u ++ b :: v) = S.sum (u ++ a :: v) := by
    simp only [sum, List.take_append_of_le_length hu]
  have hdrop := (h.check.trans (congrArg S.check hsum.symm)).trans hb.check.symm
  simp only [List.drop_append_of_le_length hu, List.append_cancel_left_eq, List.cons.injEq] at hdrop
  exact hne hdrop.1

theorem valid_exchange_iff (h : S.Valid (u ++ a :: b :: v)) (hu : u.length + 1 < S.size) (hne : a ≠ b) :
    S.Valid (u ++ b :: a :: v) ↔ S.Blurred (u ++ a :: b :: v) (u ++ b :: a :: v) := by
  have hlegal : ∀ c ∈ u ++ b :: a :: v, S.legal c := by
    intro c hc
    apply h.legal c
    simp only [List.mem_append, List.mem_cons] at hc ⊢
    tauto
  have hdrop : (u ++ b :: a :: v).drop S.size = (u ++ a :: b :: v).drop S.size := by
    obtain ⟨n, hn⟩ := Nat.exists_eq_add_of_lt hu
    rw [drop_append_cons (Nat.lt_of_succ_lt hu), drop_append_cons (Nat.lt_of_succ_lt hu),
      show S.size - u.length - 1 = n + 1 by omega]
    rfl
  rw [valid_iff_check h (by simpa using h.length) hlegal hdrop]
  exact (and_iff_right (sum_exchange_ne hu (h.legal a (by simp)) (h.legal b (by simp)) hne)).symm

end Scheme

end CheckDigits
