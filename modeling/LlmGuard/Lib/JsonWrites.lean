import LlmGuard.Lib.JsonPlaces
import Mathlib.Data.List.Forall2

/-!
# Writing to places of a JSON value

The last write to a place counts, and writes to places that lie apart may be made in any order.
-/

namespace Rfc8259

/-! ## One place -/

theorem Items.set_set {k : Kind} (items : Items k) (j : Nat) (x y : Value) : (items.set j x).set j y = items.set j y := by
  induction items using Items.induction generalizing j with
  | last label before v after => cases j <;> rfl
  | more label before v after rest ih =>
    cases j with
    | zero => rfl
    | succ j => simp only [Items.set, ih]

theorem Items.set_comm {k : Kind} (items : Items k) {i j : Nat} (h : i ≠ j) (x y : Value) :
    (items.set i x).set j y = (items.set j y).set i x := by
  induction items using Items.induction generalizing i j with
  | last label before v after =>
    cases i with
    | zero =>
      cases j with
      | zero => exact absurd rfl h
      | succ j => rfl
    | succ i => cases j <;> rfl
  | more label before v after rest ih =>
    cases i with
    | zero =>
      cases j with
      | zero => exact absurd rfl h
      | succ j => rfl
    | succ i =>
      cases j with
      | zero => rfl
      | succ j => simp only [Items.set, ih fun hij : i = j => h (by rw [hij])]

theorem Value.setChild_setChild (v : Value) (j : Nat) (x y : Value) : (v.setChild j x).setChild j y = v.setChild j y := by
  cases v with
  | group k items => simp only [Value.setChild, Items.set_set]
  | scalar | string | empty => rfl

theorem Value.setChild_comm (v : Value) {i j : Nat} (h : i ≠ j) (x y : Value) :
    (v.setChild i x).setChild j y = (v.setChild j y).setChild i x := by
  cases v with
  | group k items => simp only [Value.setChild, Items.set_comm items h]
  | scalar | string | empty => rfl

theorem Value.set_set (v : Value) (a : List Nat) (x y : Value) : (v.set a x).set a y = v.set a y := by
  induction a generalizing v with
  | nil => rfl
  | cons j a ih =>
    cases hc : v.child j with
    | none => simp only [Value.set, hc]
    | some p => simp only [Value.set, hc, Value.child_setChild, Option.map_some, Place.put, ih, Value.setChild_setChild]

theorem Value.set_ne {v : Value} {i j : Nat} (h : i ≠ j) (a b : List Nat) (x y : Value) :
    (v.set (i :: a) x).set (j :: b) y = (v.set (j :: b) y).set (i :: a) x := by
  cases hi : v.child i with
  | none =>
    have hfirst : v.set (i :: a) x = v := by simp only [Value.set, hi]
    have hgone : ((v.set (j :: b) y).child i).map Place.value = none := by
      cases hj : v.child j with
      | none => simp only [Value.set, hj, hi, Option.map_none]
      | some q => simp only [Value.set, hj, Value.child_setChild_ne h, hi, Option.map_none]
    rw [hfirst, Value.set.eq_2 (v.set (j :: b) y), Option.map_eq_none_iff.mp hgone]
  | some p =>
    cases hj : v.child j with
    | none =>
      have hfirst : v.set (j :: b) y = v := by simp only [Value.set, hj]
      have hgone : ((v.set (i :: a) x).child j).map Place.value = none := by
        simp only [Value.set, hi, Value.child_setChild_ne (Ne.symm h), hj, Option.map_none]
      rw [hfirst, Value.set.eq_2 (v.set (i :: a) x), Option.map_eq_none_iff.mp hgone]
    | some q =>
      obtain ⟨p', hp', hpv⟩ := Value.child_setChild_value h (q.value.set b y) hi
      obtain ⟨q', hq', hqv⟩ := Value.child_setChild_value (Ne.symm h) (p.value.set a x) hj
      simp only [Value.set, hi, hj, hp', hq', hpv, hqv]
      exact Value.setChild_comm v h _ _

theorem Value.set_ahead {v : Value} {a b : List Nat} (h : Ahead a b) (x y : Value) :
    (v.set a x).set b y = (v.set b y).set a x := by
  induction h generalizing v with
  | here hij => exact Value.set_ne (Nat.ne_of_lt hij) _ _ x y
  | @inside i a b _ ih =>
    cases hc : v.child i with
    | none => simp only [Value.set, hc]
    | some p => simp only [Value.set, hc, Value.child_setChild, Option.map_some, Place.put, ih, Value.setChild_setChild]

theorem Value.set_apart {v : Value} {a b : List Nat} (h : Apart a b) (x y : Value) :
    (v.set a x).set b y = (v.set b y).set a x := by
  rcases h with h | h
  · exact Value.set_ahead h x y
  · exact (Value.set_ahead h y x).symm

/-! ## Several places -/

theorem Value.setAll_set {v : Value} {a : List Nat} {edits : List (List Nat × Value)} (h : ∀ e ∈ edits, Apart a e.1)
    (x : Value) : (v.set a x).setAll edits = (v.setAll edits).set a x := by
  induction edits with
  | nil => rfl
  | cons e edits ih =>
    rw [Value.setAll, ih fun e' he' => h e' (List.mem_cons_of_mem _ he'), Value.setAll]
    exact Value.set_apart (h e List.mem_cons_self) x e.2

theorem Value.setAll_perm {v : Value} {edits edits' : List (List Nat × Value)} (hperm : edits.Perm edits')
    (hapart : edits.Pairwise fun e e' => Apart e.1 e'.1) : v.setAll edits = v.setAll edits' := by
  induction hperm with
  | nil => rfl
  | cons e _ ih => rw [Value.setAll, Value.setAll, ih (List.pairwise_cons.mp hapart).2]
  | swap e e' edits =>
    simp only [Value.setAll]
    exact Value.set_apart ((List.pairwise_cons.mp hapart).1 e List.mem_cons_self).symm e.2 e'.2
  | trans hfirst _ ih ih' =>
    exact (ih hapart).trans (ih' ((hfirst.pairwise_iff fun h => h.symm).mp hapart))

/-- Where every place is written a second time, the first writes leave no trace. -/
theorem Value.setAll_setAll {v : Value} {edits edits' : List (List Nat × Value)}
    (hapart : edits.Pairwise fun e e' => Apart e.1 e'.1) (hsame : edits.map Prod.fst = edits'.map Prod.fst) :
    (v.setAll edits).setAll edits' = v.setAll edits' := by
  induction edits generalizing edits' with
  | nil =>
    obtain rfl := List.map_eq_nil_iff.mp hsame.symm
    rfl
  | cons e edits ih =>
    obtain ⟨e', edits', rfl⟩ : ∃ e' rest, edits' = e' :: rest := by
      cases edits' with
      | nil => cases hsame
      | cons e' rest => exact ⟨e', rest, rfl⟩
    obtain ⟨haddress, hrest⟩ := List.cons.inj hsame
    obtain ⟨hfirst, hothers⟩ := List.pairwise_cons.mp hapart
    have hbefore : ∀ f ∈ edits', Apart e.1 f.1 := by
      intro f hf
      have hmem : f.1 ∈ edits.map Prod.fst := by
        rw [hrest]
        exact List.mem_map_of_mem hf
      obtain ⟨g, hg, hfg⟩ := List.mem_map.mp hmem
      rw [← hfg]
      exact hfirst g hg
    rw [Value.setAll, Value.setAll, Value.setAll_set hbefore, ih hothers hrest, ← haddress, Value.set_set,
      Value.setAll.eq_2, haddress]

end Rfc8259
