import Mathlib.Data.List.Infix

/-! # Fields, each with a run of separators behind it -/

namespace Fields

variable {α : Type} {u : α} {f : List α × Nat} {fs : List (List α × Nat)} {s t : List α}

/-- A field is not empty and has no separator. There is at least one behind it. -/
structure IsField (u : α) (f : List α × Nat) : Prop where
  ne_nil : f.1 ≠ []
  free : u ∉ f.1
  run_pos : 1 ≤ f.2

def render (u : α) : List (List α × Nat) → List α
  | [] => []
  | f :: fs => f.1 ++ (List.replicate f.2 u ++ render u fs)

theorem render_cons (u : α) (f : List α × Nat) (fs : List (List α × Nat)) :
    render u (f :: fs) = f.1 ++ (List.replicate f.2 u ++ render u fs) := rfl

theorem head?_render (hfs : ∀ f ∈ fs, IsField u f) : (render u fs).head? ≠ some u := by
  cases fs with
  | nil => simp [render]
  | cons f fs =>
    obtain ⟨hne, hfree, -⟩ := hfs f List.mem_cons_self
    obtain ⟨a, field, hf⟩ := List.exists_cons_of_ne_nil hne
    rw [render_cons, hf, List.cons_append, List.head?_cons]
    rintro ⟨⟩
    rw [hf] at hfree
    exact hfree List.mem_cons_self

theorem run_unique {j k : Nat} (hs : s.head? ≠ some u) (ht : t.head? ≠ some u)
    (h : List.replicate j u ++ s = List.replicate k u ++ t) : j = k ∧ s = t := by
  induction j generalizing k with
  | zero =>
    cases k with
    | zero => exact ⟨rfl, h⟩
    | succ k =>
      rw [List.replicate_zero, List.nil_append] at h
      simp [h, List.replicate_succ] at hs
  | succ j ih =>
    cases k with
    | zero =>
      rw [List.replicate_zero, List.nil_append] at h
      simp [← h, List.replicate_succ] at ht
    | succ k =>
      rw [List.replicate_succ, List.replicate_succ, List.cons_append, List.cons_append] at h
      obtain ⟨rfl, rfl⟩ := ih (List.cons.inj h).2
      exact ⟨rfl, rfl⟩

/-! ## Runs inside -/

theorem run_inside (hf : f ∈ fs) {k : Nat} (hk : k ≤ f.2) : List.replicate k u <:+: render u fs := by
  induction fs with
  | nil => cases hf
  | cons g fs ih =>
    rw [render_cons]
    rcases List.mem_cons.mp hf with rfl | hf
    · refine List.IsInfix.trans ⟨[], List.replicate (f.2 - k) u, ?_⟩ (List.infix_append' _ _ _)
      rw [List.nil_append, List.replicate_append_replicate, Nat.add_sub_cancel' hk]
    · exact (ih hf).trans ((List.suffix_append _ _).isInfix.trans (List.suffix_append _ _).isInfix)

theorem inside_of_free {field : List α} (hfree : u ∉ field) {k : Nat} (hk : 1 ≤ k)
    (h : List.replicate k u <:+: field ++ t) : List.replicate k u <:+: t := by
  induction field with
  | nil => exact h
  | cons a field ih =>
    rw [List.cons_append, List.infix_cons_iff] at h
    rcases h with hfront | h
    · obtain ⟨k, rfl⟩ := Nat.exists_eq_add_of_le' hk
      rw [List.replicate_succ, List.cons_prefix_cons] at hfront
      exact absurd (hfront.1 ▸ List.mem_cons_self) hfree
    · exact ih (fun hu => hfree (List.mem_cons_of_mem a hu)) h

section Decidable

variable [DecidableEq α]

theorem exists_run (s : List α) : ∃ k rest, s = List.replicate k u ++ rest ∧ rest.head? ≠ some u := by
  induction s with
  | nil => exact ⟨0, [], rfl, by simp⟩
  | cons a s ih =>
    by_cases ha : a = u
    · obtain ⟨k, rest, rfl, hrest⟩ := ih
      exact ⟨k + 1, rest, by rw [ha, List.replicate_succ, List.cons_append], hrest⟩
    · exact ⟨0, a :: s, rfl, by simpa using ha⟩

theorem exists_field (s : List α) :
    ∃ field rest, s = field ++ rest ∧ u ∉ field ∧ (rest = [] ∨ rest.head? = some u) := by
  induction s with
  | nil => exact ⟨[], [], rfl, by simp, .inl rfl⟩
  | cons a s ih =>
    by_cases ha : a = u
    · exact ⟨[], a :: s, rfl, by simp, .inr (by rw [ha, List.head?_cons])⟩
    · obtain ⟨field, rest, rfl, hfree, hrest⟩ := ih
      exact ⟨a :: field, rest, rfl, by simp [Ne.symm ha, hfree], hrest⟩

theorem exists_fields {s : List α} (hhead : s.head? ≠ some u) (hlast : ∀ a ∈ s.getLast?, a = u) :
    ∃ fs, (∀ f ∈ fs, IsField u f) ∧ s = render u fs := by
  induction h : s.length using Nat.strong_induction_on generalizing s with
  | _ n ih =>
    obtain ⟨field, run, rfl, hfree, hrun⟩ := exists_field (u := u) s
    obtain ⟨k, rest, rfl, hbehind⟩ := exists_run (u := u) run
    by_cases hne : field = []
    · -- then the text is empty, since it does not begin with a separator
      subst hne
      rcases hrun with hrun | hrun
      · exact ⟨[], by simp, by rw [hrun]; rfl⟩
      · exact absurd hrun hhead
    have hpos : 1 ≤ k := by
      rcases Nat.eq_zero_or_pos k with rfl | hk
      · rcases hrun with hrun | hrun
        · rw [hrun, List.append_nil] at hlast
          have hmem := List.getLast_mem hne
          rw [hlast _ (List.getLast?_eq_some_getLast hne)] at hmem
          exact absurd hmem hfree
        · exact absurd hrun hbehind
      · exact hk
    have hrest : ∀ a ∈ rest.getLast?, a = u := by
      intro a ha
      apply hlast a
      rw [List.getLast?_append, List.getLast?_append, Option.mem_def.mp ha]
      rfl
    have hlt : rest.length < n := by
      rw [← h, List.length_append, List.length_append, List.length_replicate]
      omega
    obtain ⟨fs, hfs, rfl⟩ := ih rest.length hlt hbehind hrest rfl
    refine ⟨(field, k) :: fs, ?_, rfl⟩
    intro f hf
    rcases List.mem_cons.mp hf with rfl | hf
    · exact ⟨hne, hfree, hpos⟩
    · exact hfs f hf

theorem inside_run (ht : t.head? ≠ some u) {k n : Nat}
    (h : List.replicate k u <:+: List.replicate n u ++ t) : k ≤ n ∨ List.replicate k u <:+: t := by
  induction n with
  | zero => exact .inr h
  | succ n ih =>
    rw [List.replicate_succ, List.cons_append, List.infix_cons_iff] at h
    rcases h with ⟨post, hpost⟩ | h
    · obtain ⟨j, rest, rfl, hrest⟩ := exists_run (u := u) post
      rw [← List.append_assoc, List.replicate_append_replicate, ← List.cons_append, ← List.replicate_succ] at hpost
      have := (run_unique hrest ht hpost).1
      exact .inl (by omega)
    · exact (ih h).imp (fun hle => Nat.le_succ_of_le hle) id

theorem le_of_run_inside {k : Nat} (hfs : ∀ f ∈ fs, IsField u f) (hk : 1 ≤ k)
    (h : List.replicate k u <:+: render u fs) : ∃ f ∈ fs, k ≤ f.2 := by
  induction fs with
  | nil =>
    have := h.length_le
    rw [render, List.length_replicate, List.length_nil] at this
    omega
  | cons f fs ih =>
    have hfs' : ∀ f ∈ fs, IsField u f := fun g hg => hfs g (List.mem_cons_of_mem f hg)
    have hbehind := inside_of_free (hfs f List.mem_cons_self).free hk h
    rcases inside_run (head?_render hfs') hbehind with hle | hinside
    · exact ⟨f, List.mem_cons_self, hle⟩
    · obtain ⟨g, hg, hle⟩ := ih hfs' hinside
      exact ⟨g, List.mem_cons_of_mem f hg, hle⟩

/-- No text has a longer run than its runs. -/
theorem runs_le_iff {k : Nat} (hfs : ∀ f ∈ fs, IsField u f) :
    (∀ f ∈ fs, f.2 ≤ k) ↔ ¬ List.replicate (k + 1) u <:+: render u fs := by
  constructor
  · intro hle hinside
    obtain ⟨f, hf, hlt⟩ := le_of_run_inside hfs (Nat.le_add_left 1 k) hinside
    exact absurd (hle f hf) (by omega)
  · intro hinside f hf
    by_contra hlt
    exact hinside (run_inside hf (by omega))

end Decidable

end Fields
