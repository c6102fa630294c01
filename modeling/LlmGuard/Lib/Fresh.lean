import Mathlib.Data.List.Nodup
import Mathlib.Data.List.Perm.Subperm
import Mathlib.Data.List.Range
import Mathlib.Data.Nat.Find

/-!
# Counting names past a finite set

Names are numbered, and some of them are taken. A counter that only moves forward hands out the free
numbers in order, without a gap.
-/

namespace Fresh

variable {α : Type}

/-- `n` is the first number after `c` whose name is free. -/
def IsNext (name : Nat → α) (taken : List α) (c n : Nat) : Prop :=
  c < n ∧ name n ∉ taken ∧ ∀ k, c < k → k < n → name k ∈ taken

theorem IsNext.unique {name : Nat → α} {taken : List α} {c m n : Nat}
    (hm : IsNext name taken c m) (hn : IsNext name taken c n) : m = n := by
  rcases Nat.lt_trichotomy m n with h | h | h
  · exact absurd (hn.2.2 m hm.1 h) hm.2.1
  · exact h
  · exact absurd (hm.2.2 n hn.1 h) hn.2.1

/-- Different names cannot all be taken. -/
theorem exists_free {name : Nat → α} (hinj : Function.Injective name) (taken : List α) (c : Nat) :
    ∃ k, k ≤ taken.length ∧ name (c + 1 + k) ∉ taken := by
  by_contra hall
  have htaken : ∀ k, k ≤ taken.length → name (c + 1 + k) ∈ taken := fun k hk => by
    by_contra hfree
    exact hall ⟨k, hk, hfree⟩
  have hnodup : ((List.range' (c + 1) (taken.length + 1)).map name).Nodup :=
    List.Nodup.map hinj List.nodup_range'
  have hsub : (List.range' (c + 1) (taken.length + 1)).map name ⊆ taken := by
    intro x hx
    obtain ⟨n, hn, rfl⟩ := List.mem_map.mp hx
    obtain ⟨i, hi, rfl⟩ := List.mem_range'.mp hn
    simpa using htaken i (by omega)
  have hlen := (List.subperm_of_subset hnodup hsub).length_le
  simp only [List.length_map, List.length_range'] at hlen
  omega

theorem exists_isNext {name : Nat → α} (hinj : Function.Injective name) (taken : List α) (c : Nat) :
    ∃ n, IsNext name taken c n ∧ n - c ≤ taken.length + 1 := by
  classical
  have hex := exists_free hinj taken c
  obtain ⟨hle, hfree⟩ := Nat.find_spec hex
  refine ⟨c + 1 + Nat.find hex, ⟨by omega, hfree, ?_⟩, by omega⟩
  intro k hck hkn
  by_contra hk
  refine Nat.find_min hex (m := k - (c + 1)) (by omega) ⟨by omega, ?_⟩
  rwa [show c + 1 + (k - (c + 1)) = k by omega]

/-! ## The free numbers -/

variable [DecidableEq α]

/-- The free numbers from 1 to `c`. -/
def freeUpTo (name : Nat → α) (taken : List α) (c : Nat) : List Nat :=
  (List.range' 1 c).filter fun n => name n ∉ taken

theorem freeUpTo_next {name : Nat → α} {taken : List α} {c n : Nat} (h : IsNext name taken c n) :
    freeUpTo name taken n = freeUpTo name taken c ++ [n] := by
  obtain ⟨hlt, hfree, hbetween⟩ := h
  have hsplit : List.range' 1 n = List.range' 1 c ++ List.range' (1 + c) (n - 1 - c) ++ [n] := by
    have hlast : List.range' 1 n = List.range' 1 (n - 1) ++ [n] := by
      have := @List.range'_concat 1 1 (n - 1)
      rw [show n - 1 + 1 = n by omega, show 1 + 1 * (n - 1) = n by omega] at this
      exact this
    have hfront : List.range' 1 (n - 1) = List.range' 1 c ++ List.range' (1 + c) (n - 1 - c) := by
      have := List.range'_append_1 (s := 1) (m := c) (n := n - 1 - c)
      rw [this]; congr 1; omega
    rw [hlast, hfront]
  -- Every number strictly between `c` and `n` is taken, so the middle part vanishes.
  have hmiddle : (List.range' (1 + c) (n - 1 - c)).filter (fun k => name k ∉ taken) = [] := by
    rw [List.filter_eq_nil_iff]
    intro k hk
    obtain ⟨i, hi, rfl⟩ := List.mem_range'.mp hk
    simpa using hbetween (1 + c + 1 * i) (by omega) (by omega)
  unfold freeUpTo
  rw [hsplit, List.filter_append, List.filter_append, hmiddle]
  simp [hfree]

theorem mem_freeUpTo {name : Nat → α} {taken : List α} {c n : Nat} :
    n ∈ freeUpTo name taken c ↔ 1 ≤ n ∧ n ≤ c ∧ name n ∉ taken := by
  simp only [freeUpTo, List.mem_filter, List.mem_range'_1, decide_eq_true_eq]
  constructor
  · rintro ⟨⟨hpos, hlt⟩, hfree⟩
    exact ⟨hpos, by omega, hfree⟩
  · rintro ⟨hpos, hle, hfree⟩
    exact ⟨⟨hpos, by omega⟩, hfree⟩

end Fresh
