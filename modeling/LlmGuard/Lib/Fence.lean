import LlmGuard.Lib.Streaming

/-!
# Words between brackets

Two words that begin with an opening bracket, end with a closing one and hold no other bracket cannot
overlap. Reading a text from the left is then the only faithful reading.
-/

namespace Fence

open Tokens Streaming

variable {α : Type} {o c : α} {special : List α → Prop}

def IsFence (o c : α) (w : List α) : Prop := ∃ inner, w = o :: (inner ++ [c]) ∧ o ∉ inner ∧ c ∉ inner

/-- No special word begins at an unmarked place. -/
def Greedy (special : List α → Prop) (items : List (Item α)) : Prop :=
  ∀ xs a ys, items = xs ++ .raw a :: ys → ∀ w, special w → ¬ w <+: a :: render ys

theorem IsFence.ne_nil {w : List α} (h : IsFence o c w) : w ≠ [] := by
  obtain ⟨inner, rfl, -⟩ := h
  simp

theorem IsFence.eq_of_prefix {v w s : List α} (hv : IsFence o c v) (hw : IsFence o c w) (hvs : v <+: s)
    (hws : w <+: s) : v = w := by
  obtain ⟨i, rfl, -, hci⟩ := hv
  obtain ⟨j, rfl, -, hcj⟩ := hw
  have hclose : ∀ {i j : List α}, c ∉ j → o :: (i ++ [c]) <+: o :: (j ++ [c]) → i = j := by
    intro i j hcj h
    have hi : i ++ [c] <+: j ++ [c] := (List.cons_prefix_cons.mp h).2
    obtain ⟨t, ht⟩ := hi
    rw [List.append_assoc] at ht
    rcases List.append_eq_append_iff.mp ht with ⟨k, rfl, hk⟩ | ⟨k, rfl, hk⟩
    · cases k with
      | nil => simp
      | cons x k =>
        simp only [List.cons_append, List.nil_append, List.cons.injEq] at hk
        simp [← hk.1] at hcj
    · cases k with
      | nil => simp
      | cons x k =>
        have := congrArg List.length hk
        simp at this
  rcases List.prefix_or_prefix_of_prefix hvs hws with h | h
  · rw [hclose hcj h]
  · rw [hclose hci h]

theorem IsFence.not_inside (hoc : o ≠ c) {v w a b s : List α} (hv : IsFence o c v) (hw : IsFence o c w)
    (ha : a ≠ []) (hav : a.length < v.length) (h : v ++ s = a ++ w ++ b) : False := by
  obtain ⟨i, rfl, hoi, -⟩ := hv
  obtain ⟨j, rfl, -⟩ := hw
  cases a with
  | nil => exact ha rfl
  | cons x a =>
    simp only [List.cons_append, List.cons.injEq] at h
    obtain ⟨rfl, h⟩ := h
    have hlt : a.length < (i ++ [c]).length := by simpa using hav
    have hget : (i ++ [c] ++ s)[a.length]? = some o := by rw [h]; simp
    rw [List.getElem?_append_left hlt] at hget
    rcases List.mem_append.mp (List.mem_of_getElem? hget) with hmem | hmem
    · exact hoi hmem
    · exact hoc (List.mem_singleton.mp hmem)

theorem Greedy.tail {x : Item α} {items : List (Item α)} (h : Greedy special (x :: items)) :
    Greedy special items :=
  fun xs a ys heq => h (x :: xs) a ys (by rw [heq, List.cons_append])

theorem faithful_of_greedy (hoc : o ≠ c) {items : List (Item α)} (hs : ∀ w, special w → IsFence o c w)
    (hmarked : ∀ w, .tok w ∈ items → special w) (hgreedy : Greedy special items) :
    Faithful special items := by
  refine ⟨fun w hw => ⟨hmarked w hw, (hs w (hmarked w hw)).ne_nil⟩, ?_⟩
  intro a w b hw heq
  induction items generalizing a with
  | nil =>
    have : w = [] := by
      simp only [render_nil, List.nil_eq, List.append_eq_nil_iff] at heq
      exact heq.1.2
    exact absurd this (hs w hw).ne_nil
  | cons x items ih =>
    have hmarked' : ∀ v, .tok v ∈ items → special v := fun v hv => hmarked v (List.mem_cons_of_mem _ hv)
    cases x with
    | raw d =>
      cases a with
      | nil =>
        refine absurd ?_ (hgreedy [] d items rfl w hw)
        exact ⟨b, by simpa using heq.symm⟩
      | cons e a =>
        simp only [render_raw, List.cons_append, List.cons.injEq] at heq
        obtain ⟨rfl, heq⟩ := heq
        obtain ⟨xs, ys, rfl, rfl⟩ := ih hmarked' hgreedy.tail a heq
        exact ⟨.raw d :: xs, ys, rfl, rfl⟩
    | tok v =>
      have hv := hs v (hmarked v List.mem_cons_self)
      rw [render_tok] at heq
      by_cases ha : a = []
      · subst ha
        rw [List.nil_append] at heq
        obtain rfl := hv.eq_of_prefix (hs w hw) ⟨_, rfl⟩ ⟨b, heq.symm⟩
        exact ⟨[], items, rfl, rfl⟩
      · by_cases hlt : a.length < v.length
        · exact absurd heq fun h => hv.not_inside hoc (hs w hw) ha hlt h
        · obtain ⟨a', rfl⟩ : v <+: a := by
            have hpre : v <+: a ++ (w ++ b) := ⟨_, by rw [heq, List.append_assoc]⟩
            exact List.prefix_of_prefix_length_le hpre (List.prefix_append _ _) (by omega)
          simp only [List.append_assoc, List.append_cancel_left_eq] at heq
          rw [← List.append_assoc] at heq
          obtain ⟨xs, ys, rfl, rfl⟩ := ih hmarked' hgreedy.tail a' heq
          exact ⟨.tok v :: xs, ys, rfl, rfl⟩

/-! ## Reading any text -/

theorem exists_reading (hne : ∀ w, special w → w ≠ []) (s : List α) :
    ∃ items, render items = s ∧ (∀ w, .tok w ∈ items → special w) ∧ Greedy special items := by
  induction h : s.length using Nat.strong_induction_on generalizing s with
  | _ n ih =>
    by_cases hword : ∃ w, special w ∧ w <+: s
    · obtain ⟨w, hw, t, rfl⟩ := hword
      have hpos := List.length_pos_iff.mpr (hne w hw)
      obtain ⟨items, rfl, hmarked, hgreedy⟩ := ih t.length (by rw [← h, List.length_append]; omega) t rfl
      refine ⟨.tok w :: items, by simp, ?_, ?_⟩
      · intro v hv
        rcases List.mem_cons.mp hv with hv | hv
        · exact (Item.tok.inj hv) ▸ hw
        · exact hmarked v hv
      · intro xs a ys heq
        cases xs with
        | nil => simp at heq
        | cons x xs => exact hgreedy xs a ys (List.cons.inj heq).2
    · cases s with
      | nil =>
        refine ⟨[], rfl, by simp, ?_⟩
        intro xs a ys heq
        simp at heq
      | cons d s =>
        obtain ⟨items, rfl, hmarked, hgreedy⟩ := ih s.length (by simp [← h]) s rfl
        refine ⟨.raw d :: items, rfl, by simpa using hmarked, ?_⟩
        intro xs a ys heq w hw hpre
        cases xs with
        | nil =>
          obtain ⟨hd, rfl⟩ := List.cons.inj heq
          exact hword ⟨w, hw, (Item.raw.inj hd) ▸ hpre⟩
        | cons x xs => exact hgreedy xs a ys (List.cons.inj heq).2 w hw hpre

/-! ## Substituted readings -/

theorem prefix_subst {r : List α → Option (List α)} {items : List (Item α)} {p : List α} (hp : o ∉ p)
    (hmarked : ∀ w, .tok w ∈ items → IsFence o c w) (h : p <+: render items) :
    p <+: render (subst r items) := by
  induction items generalizing p with
  | nil => exact h
  | cons x items ih =>
    have hmarked' : ∀ w, .tok w ∈ items → IsFence o c w := fun w hw => hmarked w (List.mem_cons_of_mem _ hw)
    cases p with
    | nil => exact List.nil_prefix
    | cons d p =>
      cases x with
      | raw a =>
        rw [render_raw, List.cons_prefix_cons] at h
        rw [subst_raw, render_raw, List.cons_prefix_cons]
        exact ⟨h.1, ih (fun hmem => hp (List.mem_cons_of_mem _ hmem)) hmarked' h.2⟩
      | tok w =>
        obtain ⟨inner, rfl, -⟩ := hmarked w List.mem_cons_self
        rw [render_tok, List.cons_append, List.cons_prefix_cons] at h
        exact absurd List.mem_cons_self (h.1 ▸ hp)

theorem greedy_of_absent {items : List (Item α)} (h : ∀ w, special w → ¬ w <:+: render items) :
    Greedy special items := by
  rintro xs a ys rfl w hw hpre
  refine h w hw (hpre.isInfix.trans ?_)
  rw [render_append, render_raw]
  exact (List.suffix_append _ _).isInfix

theorem Greedy.of_subst (hoc : o ≠ c) {r : List α → Option (List α)} {items : List (Item α)}
    (hs : ∀ w, special w → IsFence o c w) (hmarked : ∀ w, .tok w ∈ items → special w)
    (h : Greedy special (subst r items)) : Greedy special items := by
  rintro xs a ys rfl w hw hpre
  obtain ⟨inner, rfl, hoi, -⟩ := hs w hw
  rw [List.cons_prefix_cons] at hpre
  obtain ⟨rfl, hpre⟩ := hpre
  have ho : o ∉ inner ++ [c] := by simp [hoi, hoc]
  have hys := prefix_subst (r := r) ho (fun v hv => hs v (hmarked v (by simp [hv]))) hpre
  apply h (subst r xs) o (subst r ys) (by rw [subst_append, subst_raw]) _ hw
  exact List.cons_prefix_cons.mpr ⟨rfl, hys⟩

/-- With words between brackets, it is enough to read the text in which everything is written. -/
theorem stable_of_greedy (hoc : o ≠ c) {r₁ r₂ : List α → Option (List α)} {items : List (Item α)}
    (hs : ∀ w, special w → IsFence o c w) (hmarked : ∀ w, .tok w ∈ items → special w)
    (h : Greedy special (subst (orElse r₁ r₂) items)) : Stable special r₁ r₂ items := by
  rintro as bs cs rfl
  have hboth : orElse (orElse r₁ r₂) (orElse r₁ r₂) = orElse r₁ r₂ := by
    funext w
    unfold orElse
    cases r₁ w <;> cases r₂ w <;> rfl
  have hfirst : orElse r₁ (orElse r₁ r₂) = orElse r₁ r₂ := by
    funext w
    unfold orElse
    cases r₁ w <;> rfl
  have hmem : ∀ w, .tok w ∈ subst (orElse r₁ r₂) as ++ subst r₁ bs ++ cs → special w := by
    intro w hw
    simp only [List.mem_append] at hw
    rcases hw with (hw | hw) | hw
    · exact hmarked w (by simp [(tok_of_mem_subst hw).1])
    · exact hmarked w (by simp [(tok_of_mem_subst hw).1])
    · exact hmarked w (by simp [hw])
  refine faithful_of_greedy hoc hs hmem (Greedy.of_subst (r := orElse r₁ r₂) hoc hs hmem ?_)
  rwa [subst_append, subst_append, subst_subst, subst_subst, hboth, hfirst, ← subst_append, ← subst_append]

end Fence
