import Mathlib.Data.List.Basic
import Mathlib.Data.List.Pairwise
import Mathlib.Logic.Relation
import Mathlib.Order.Lattice
import Mathlib.Data.Nat.Basic

/-!
# Runs of overlapping spans

A sweep over spans in the order of their starts cuts them into runs. Two spans are in one run exactly when
a chain of overlapping spans links them.
-/

namespace Runs

variable {α : Type} (start stop : α → Nat)

def Overlap (a b : α) : Prop := start a < stop b ∧ start b < stop a

/-- A chain of overlapping members of `l`. -/
def Linked (l : List α) : α → α → Prop := Relation.ReflTransGen fun a b => b ∈ l ∧ Overlap start stop a b

/-- The open run, where it ends so far, and the spans still to come. -/
def runs (run : List α) (runEnd : Nat) : List α → List (List α)
  | [] => [run]
  | x :: xs =>
    if start x < runEnd then runs (run ++ [x]) (if runEnd < stop x then stop x else runEnd) xs
    else run :: runs [x] (stop x) xs

/-- In the order of their starts, and none is empty. -/
structure Sorted (l : List α) : Prop where
  starts : l.Pairwise fun a b => start a ≤ start b
  spans : ∀ a ∈ l, start a < stop a

variable {start stop} {l run : List α} {runEnd : Nat}

theorem flatten_runs (start stop : α → Nat) (run : List α) (runEnd : Nat) (xs : List α) :
    (runs start stop run runEnd xs).flatten = run ++ xs := by
  induction xs generalizing run runEnd with
  | nil => simp [runs]
  | cons x xs ih =>
    unfold runs
    split
    · rw [ih, List.append_assoc, List.singleton_append]
    · rw [List.flatten_cons, ih, List.singleton_append]

theorem Linked.mono {l l' : List α} (hl : l ⊆ l') {a b : α} (h : Linked start stop l a b) :
    Linked start stop l' a b :=
  Relation.ReflTransGen.mono (fun _ _ h => ⟨hl h.1, h.2⟩) _ _ h

theorem Linked.symm {a b : α} (ha : a ∈ l) (h : Linked start stop l a b) : Linked start stop l b a := by
  induction h with
  | refl => exact .refl
  | @tail b c hab hbc ih =>
    refine .head ⟨?_, hbc.2.2, hbc.2.1⟩ ih
    rcases Relation.ReflTransGen.cases_tail hab with rfl | ⟨d, -, hb, -⟩
    · exact ha
    · exact hb

/-- A chain leaves no gap: what lies between its ends is in one of its spans. -/
theorem Linked.covers {a b : α} (ha : a ∈ l) (h : Linked start stop l a b) {i : Nat} (hlow : start a ≤ i)
    (hhigh : i < stop b) : ∃ c ∈ l, Linked start stop l a c ∧ start c ≤ i ∧ i < stop c := by
  induction h with
  | refl => exact ⟨a, ha, .refl, hlow, hhigh⟩
  | @tail b c hab hbc ih =>
    by_cases hi : i < stop b
    · exact ih hi
    · have hover : start c < stop b := hbc.2.2
      exact ⟨c, hbc.1, hab.tail hbc, by omega, hhigh⟩

/-- What the sweep knows of the open run. -/
structure Open (start stop : α → Nat) (run : List α) (runEnd : Nat) : Prop where
  below : ∀ a ∈ run, stop a ≤ runEnd
  reached : ∃ a ∈ run, stop a = runEnd
  linked : ∀ a ∈ run, ∀ b ∈ run, Linked start stop run a b

theorem open_singleton (x : α) : Open start stop [x] (stop x) where
  below := by simp
  reached := by simp
  linked a ha b hb := by
    rw [List.mem_singleton.mp ha, List.mem_singleton.mp hb]
    exact .refl

theorem Open.push {x : α} (h : Open start stop run runEnd) (hx : start x < runEnd) (hspan : start x < stop x)
    (hstart : ∀ a ∈ run, start a ≤ start x) :
    Open start stop (run ++ [x]) (if runEnd < stop x then stop x else runEnd) := by
  obtain ⟨m, hm, hend⟩ := h.reached
  have hsub : run ⊆ run ++ [x] := List.subset_append_left _ _
  have hmx : Linked start stop (run ++ [x]) m x :=
    .single ⟨by simp, by have := hstart m hm; omega, by omega⟩
  have hin : ∀ a ∈ run ++ [x], Linked start stop (run ++ [x]) a x := by
    intro a ha
    rcases List.mem_append.mp ha with ha | ha
    · exact ((h.linked a ha m hm).mono hsub).trans hmx
    · rw [List.mem_singleton.mp ha]
      exact .refl
  refine ⟨?_, ?_, ?_⟩
  · intro a ha
    rcases List.mem_append.mp ha with ha | ha
    · have := h.below a ha
      split <;> omega
    · rw [List.mem_singleton.mp ha]
      split <;> omega
  · split
    · exact ⟨x, by simp, rfl⟩
    · exact ⟨m, by simp [hm], hend⟩
  · intro a ha b hb
    exact (hin a ha).trans ((hin b hb).symm hb)

/-- Every span of `r` ends before every span of `s` starts. -/
def Before (start stop : α → Nat) (r s : List α) : Prop := ∀ a ∈ r, ∀ b ∈ s, stop a ≤ start b

/-- The runs are linked inside and apart from each other. -/
theorem runs_spec {xs : List α} (hsorted : Sorted start stop (run ++ xs)) (hopen : Open start stop run runEnd) :
    (∀ r ∈ runs start stop run runEnd xs, ∃ e, Open start stop r e) ∧
      (runs start stop run runEnd xs).Pairwise (Before start stop) := by
  induction xs generalizing run runEnd with
  | nil => exact ⟨by simpa [runs] using ⟨runEnd, hopen⟩, by simp [runs]⟩
  | cons x xs ih =>
    obtain ⟨-, hxs, hcross⟩ := List.pairwise_append.mp hsorted.starts
    unfold runs
    split
    · rename_i hlt
      refine ih (by simpa using hsorted) (hopen.push hlt (hsorted.spans x (by simp)) ?_)
      exact fun a ha => hcross a ha x (by simp)
    · rename_i hge
      have hrest : Sorted start stop ([x] ++ xs) :=
        ⟨hxs, fun a ha => hsorted.spans a (List.mem_append_right _ ha)⟩
      obtain ⟨hopens, hapart⟩ := ih hrest (open_singleton x)
      refine ⟨?_, List.pairwise_cons.mpr ⟨?_, hapart⟩⟩
      · intro r hr
        rcases List.mem_cons.mp hr with rfl | hr
        · exact ⟨runEnd, hopen⟩
        · exact hopens r hr
      · intro r hr a ha b hb
        have hb' : b ∈ x :: xs := by
          rw [← List.singleton_append, ← flatten_runs start stop [x] (stop x) xs]
          exact List.mem_flatten.mpr ⟨r, hr, hb⟩
        have hxb : start x ≤ start b := by
          rcases List.mem_cons.mp hb' with rfl | hb'
          · exact Nat.le_refl _
          · exact (List.pairwise_cons.mp hxs).1 b hb'
        have := hopen.below a ha
        omega

theorem mem_run_iff {xs r : List α} (hsorted : Sorted start stop (run ++ xs)) (hopen : Open start stop run runEnd)
    (hr : r ∈ runs start stop run runEnd xs) {a : α} (ha : a ∈ r) (b : α) :
    b ∈ r ↔ b ∈ run ++ xs ∧ Linked start stop (run ++ xs) a b := by
  obtain ⟨hopens, hapart⟩ := runs_spec hsorted hopen
  have hflat := flatten_runs start stop run runEnd xs
  have hsub : r ⊆ run ++ xs := fun c hc => hflat ▸ List.mem_flatten.mpr ⟨r, hr, hc⟩
  constructor
  · intro hb
    obtain ⟨e, he⟩ := hopens r hr
    exact ⟨hsub hb, (he.linked a ha b hb).mono hsub⟩
  · rintro ⟨-, hlink⟩
    induction hlink with
    | refl => exact ha
    | @tail c d _ hcd hc =>
      obtain ⟨s, hs, hd⟩ := List.mem_flatten.mp (hflat ▸ hcd.1)
      by_cases hrs : r = s
      · exact hrs ▸ hd
      · -- Spans of different runs do not overlap.
        let Apart (r s : List α) : Prop := Before start stop r s ∨ Before start stop s r
        have : Std.Symm Apart := ⟨fun _ _ => Or.symm⟩
        have hall : (runs start stop run runEnd xs).Pairwise Apart := hapart.imp Or.inl
        rcases hall.forall hr hs hrs with h | h
        · have := h c hc d hd
          exact absurd hcd.2.2 (by omega)
        · have := h d hd c hc
          exact absurd hcd.2.1 (by omega)

end Runs
