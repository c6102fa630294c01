import Mathlib.Data.List.Basic
import Mathlib.Data.List.Infix

/-!
# Texts with marked words

Some words are special. A reading of a text marks the places where they stand, and a substitution writes
something else in place of the marked words. A reading is faithful when special words stand nowhere else.
-/

namespace Tokens

variable {α : Type}

inductive Item (α : Type) where
  | raw (a : α)
  | tok (w : List α)
deriving DecidableEq, Repr

def Item.text : Item α → List α
  | .raw a => [a]
  | .tok w => w

def render (items : List (Item α)) : List α := items.flatMap Item.text

/-- The unmarked text. -/
def plain (s : List α) : List (Item α) := s.map .raw

/-- Write `r w` for every marked `w`. A word without a substitute stays marked. -/
def subst (r : List α → Option (List α)) (items : List (Item α)) : List (Item α) :=
  items.flatMap fun
    | .raw a => [.raw a]
    | .tok w => match r w with
      | some o => plain o
      | none => [.tok w]

@[simp] theorem render_nil : render ([] : List (Item α)) = [] := rfl

@[simp] theorem render_raw (a : α) (items : List (Item α)) : render (.raw a :: items) = a :: render items := rfl

@[simp] theorem render_tok (w : List α) (items : List (Item α)) :
    render (.tok w :: items) = w ++ render items := rfl

@[simp] theorem render_append (xs ys : List (Item α)) : render (xs ++ ys) = render xs ++ render ys := by
  simp [render]

@[simp] theorem render_plain (s : List α) : render (plain s) = s := by
  induction s with
  | nil => rfl
  | cons a s ih =>
    rw [plain, List.map_cons, render_raw]
    exact congrArg _ ih

@[simp] theorem tok_not_mem_plain (w s : List α) : .tok w ∉ plain s := by simp [plain]

@[simp] theorem subst_nil (r : List α → Option (List α)) : subst r [] = [] := rfl

@[simp] theorem subst_append (r : List α → Option (List α)) (xs ys : List (Item α)) :
    subst r (xs ++ ys) = subst r xs ++ subst r ys := by
  simp [subst]

@[simp] theorem subst_raw (r : List α → Option (List α)) (a : α) (items : List (Item α)) :
    subst r (.raw a :: items) = .raw a :: subst r items := rfl

theorem infix_render {items : List (Item α)} {w : List α} (h : .tok w ∈ items) : w <:+: render items := by
  obtain ⟨xs, ys, rfl⟩ := List.append_of_mem h
  rw [render_append, render_tok]
  exact ⟨render xs, render ys, by simp⟩

theorem render_flatten (readings : List (List (Item α))) : render readings.flatten = (readings.map render).flatten := by
  induction readings with
  | nil => rfl
  | cons g gs ih => simp [ih]

theorem subst_flatten (r : List α → Option (List α)) (readings : List (List (Item α))) :
    subst r readings.flatten = (readings.map (subst r)).flatten := by
  induction readings with
  | nil => rfl
  | cons g gs ih => simp [ih]

theorem subst_tok_some {r : List α → Option (List α)} {w o : List α} (h : r w = some o)
    (items : List (Item α)) : subst r (.tok w :: items) = plain o ++ subst r items := by
  simp [subst, h]

theorem subst_tok_none {r : List α → Option (List α)} {w : List α} (h : r w = none)
    (items : List (Item α)) : subst r (.tok w :: items) = .tok w :: subst r items := by
  simp [subst, h]

@[simp] theorem subst_plain (r : List α → Option (List α)) (s : List α) : subst r (plain s) = plain s := by
  induction s with
  | nil => rfl
  | cons a s ih =>
    unfold plain at ih ⊢
    rw [List.map_cons, subst_raw, ih]

/-- The second substitute counts where there is no first one. -/
def orElse (r₁ r₂ : List α → Option (List α)) (w : List α) : Option (List α) :=
  match r₁ w with
  | some o => some o
  | none => r₂ w

theorem subst_subst (r₁ r₂ : List α → Option (List α)) (items : List (Item α)) :
    subst r₂ (subst r₁ items) = subst (orElse r₁ r₂) items := by
  induction items with
  | nil => rfl
  | cons x items ih =>
    cases x with
    | raw a => rw [subst_raw, subst_raw, subst_raw, ih]
    | tok w =>
      cases h₁ : r₁ w with
      | some o =>
        rw [subst_tok_some h₁, subst_append, subst_plain, ih, subst_tok_some]
        simp [orElse, h₁]
      | none =>
        rw [subst_tok_none h₁]
        cases h₂ : r₂ w with
        | some o =>
          rw [subst_tok_some h₂, ih, subst_tok_some]
          simp [orElse, h₁, h₂]
        | none =>
          rw [subst_tok_none h₂, ih, subst_tok_none]
          simp [orElse, h₁, h₂]

theorem tok_of_mem_subst {r : List α → Option (List α)} {items : List (Item α)} {w : List α}
    (h : .tok w ∈ subst r items) : .tok w ∈ items ∧ r w = none := by
  obtain ⟨x, hx, hmem⟩ := List.mem_flatMap.mp h
  cases x with
  | raw a => simp at hmem
  | tok v =>
    cases hv : r v with
    | some o => simp [hv, plain] at hmem
    | none =>
      simp only [hv, List.mem_singleton, Item.tok.injEq] at hmem
      subst hmem
      exact ⟨hx, hv⟩

theorem subst_id {r : List α → Option (List α)} {items : List (Item α)}
    (h : ∀ w, .tok w ∈ items → r w = none) : subst r items = items := by
  induction items with
  | nil => rfl
  | cons x items ih =>
    have hrest := ih fun w hw => h w (List.mem_cons_of_mem _ hw)
    cases x with
    | raw a => rw [subst_raw, hrest]
    | tok w => rw [subst_tok_none (h w List.mem_cons_self), hrest]

/-! ## Substitutes that change nothing -/

theorem render_subst_same {r : List α → Option (List α)} {items : List (Item α)}
    (h : ∀ w o, .tok w ∈ items → r w = some o → o = w) : render (subst r items) = render items := by
  induction items with
  | nil => rfl
  | cons x items ih =>
    have hrest := ih fun w o hw => h w o (List.mem_cons_of_mem _ hw)
    cases x with
    | raw a => rw [subst_raw, render_raw, render_raw, hrest]
    | tok w =>
      cases hw : r w with
      | none => rw [subst_tok_none hw, render_tok, render_tok, hrest]
      | some o => rw [subst_tok_some hw, render_append, render_plain, render_tok, hrest, h w o (by simp) hw]

theorem length_render_subst_le {r : List α → Option (List α)} {items : List (Item α)}
    (h : ∀ w o, .tok w ∈ items → r w = some o → o.length ≤ w.length) :
    (render (subst r items)).length ≤ (render items).length := by
  induction items with
  | nil => exact Nat.le_refl _
  | cons x items ih =>
    have hrest := ih fun w o hw => h w o (List.mem_cons_of_mem _ hw)
    cases x with
    | raw a => simpa using hrest
    | tok w =>
      cases hw : r w with
      | none => simpa [subst_tok_none hw] using hrest
      | some o =>
        have := h w o (by simp) hw
        simp only [subst_tok_some hw, render_append, render_plain, render_tok, List.length_append]
        omega

theorem length_le_render_subst {r : List α → Option (List α)} {items : List (Item α)}
    (h : ∀ w o, .tok w ∈ items → r w = some o → w.length ≤ o.length) :
    (render items).length ≤ (render (subst r items)).length := by
  induction items with
  | nil => exact Nat.le_refl _
  | cons x items ih =>
    have hrest := ih fun w o hw => h w o (List.mem_cons_of_mem _ hw)
    cases x with
    | raw a => simpa using hrest
    | tok w =>
      cases hw : r w with
      | none => simpa [subst_tok_none hw] using hrest
      | some o =>
        have := h w o (by simp) hw
        simp only [subst_tok_some hw, render_append, render_plain, render_tok, List.length_append]
        omega

theorem same_of_none_longer {r : List α → Option (List α)} {items : List (Item α)}
    (hle : ∀ w o, .tok w ∈ items → r w = some o → o.length ≤ w.length)
    (h : render (subst r items) = render items) : ∀ w o, .tok w ∈ items → r w = some o → o = w := by
  induction items with
  | nil => simp
  | cons x items ih =>
    have hrest := fun w o hw => hle w o (List.mem_cons_of_mem _ hw)
    cases x with
    | raw a => simpa using ih hrest (by simpa using h)
    | tok v =>
      intro w o hw ho
      cases hv : r v with
      | none =>
        rcases List.mem_cons.mp hw with hw | hw
        · rw [Item.tok.inj hw, hv] at ho
          cases ho
        · exact ih hrest (by simpa [subst_tok_none hv] using h) w o hw ho
      | some u =>
        rw [subst_tok_some hv, render_append, render_plain, render_tok] at h
        have hlen := congrArg List.length h
        have hu := hle v u (by simp) hv
        have hbehind := length_render_subst_le hrest
        simp only [List.length_append] at hlen
        obtain ⟨hsame, hrender⟩ := List.append_inj h (by omega)
        rcases List.mem_cons.mp hw with hw | hw
        · rw [Item.tok.inj hw, hv] at ho
          rw [← Option.some.inj ho, hsame, Item.tok.inj hw]
        · exact ih hrest hrender w o hw ho

/-- Where the text stays, its words stay, unless a shorter substitute makes room for a longer one. -/
theorem same_of_render_subst {r : List α → Option (List α)} {items : List (Item α)}
    (h : render (subst r items) = render items) :
    (∀ w o, .tok w ∈ items → r w = some o → o = w) ∨
      (∃ w o, .tok w ∈ items ∧ r w = some o ∧ o.length < w.length) ∧
        ∃ w o, .tok w ∈ items ∧ r w = some o ∧ w.length < o.length := by
  by_cases hlong : ∃ w o, .tok w ∈ items ∧ r w = some o ∧ w.length < o.length
  · by_cases hshort : ∃ w o, .tok w ∈ items ∧ r w = some o ∧ o.length < w.length
    · exact .inr ⟨hshort, hlong⟩
    · push Not at hshort
      refine absurd (congrArg List.length h) (Nat.ne_of_gt ?_)
      obtain ⟨w, o, hw, ho, hlt⟩ := hlong
      obtain ⟨xs, ys, rfl⟩ := List.append_of_mem hw
      have hxs := @length_le_render_subst _ r xs fun w o hw => hshort w o (by simp [hw])
      have hys := @length_le_render_subst _ r ys fun w o hw => hshort w o (by simp [hw])
      simp only [subst_append, subst_tok_some ho, render_append, render_tok, render_plain, List.length_append]
      omega
  · push Not at hlong
    exact .inl (same_of_none_longer hlong h)

/-! ## Faithful readings -/

/-- Special words stand at the marked places and nowhere else. -/
structure Faithful (special : List α → Prop) (items : List (Item α)) : Prop where
  marked : ∀ w, .tok w ∈ items → special w ∧ w ≠ []
  only : ∀ a w b, special w → render items = a ++ w ++ b →
    ∃ xs ys, items = xs ++ .tok w :: ys ∧ render xs = a

/-- Drop the first `n` elements of the text. A marked word that is cut loses its mark. -/
def dropItems : List (Item α) → Nat → List (Item α)
  | [], _ => []
  | .raw a :: items, 0 => .raw a :: items
  | .raw _ :: items, n + 1 => dropItems items n
  | .tok w :: items, n =>
    if n = 0 then .tok w :: items
    else if w.length ≤ n then dropItems items (n - w.length)
    else plain (w.drop n) ++ items

@[simp] theorem dropItems_zero (items : List (Item α)) : dropItems items 0 = items := by
  cases items with
  | nil => rfl
  | cons x items => cases x <;> simp [dropItems]

theorem render_dropItems (items : List (Item α)) (n : Nat) :
    render (dropItems items n) = (render items).drop n := by
  induction items generalizing n with
  | nil => simp [dropItems]
  | cons x items ih =>
    cases x with
    | raw a =>
      cases n with
      | zero => simp
      | succ n => simpa [dropItems] using ih n
    | tok w =>
      unfold dropItems
      split
      · rename_i hn
        simp [hn]
      · split
        · rename_i hle
          rw [ih, render_tok, List.drop_append, List.drop_eq_nil_of_le hle, List.nil_append]
        · rename_i hlt
          have : n - w.length = 0 := by omega
          rw [render_append, render_plain, render_tok, List.drop_append, this, List.drop_zero]

theorem dropItems_append (xs ys : List (Item α)) (n : Nat) (h : n ≤ (render xs).length) :
    dropItems (xs ++ ys) n = dropItems xs n ++ ys := by
  induction xs generalizing n with
  | nil =>
    have : n = 0 := by simpa using h
    simp [this, dropItems]
  | cons x xs ih =>
    cases x with
    | raw a =>
      cases n with
      | zero => simp
      | succ n =>
        simp only [List.cons_append, dropItems]
        exact ih n (by simpa using h)
    | tok w =>
      simp only [List.cons_append, dropItems]
      split
      · rfl
      · split
        · apply ih _
          simp only [render_tok, List.length_append] at h
          omega
        · rw [List.append_assoc]

theorem mem_dropItems {items : List (Item α)} {n : Nat} {w : List α} (h : .tok w ∈ dropItems items n) :
    .tok w ∈ items := by
  induction items generalizing n with
  | nil => simp [dropItems] at h
  | cons x items ih =>
    cases x with
    | raw a =>
      cases n with
      | zero => simpa using h
      | succ n => exact List.mem_cons_of_mem _ (ih h)
    | tok v =>
      unfold dropItems at h
      split at h
      · exact h
      · split at h
        · exact List.mem_cons_of_mem _ (ih h)
        · rcases List.mem_append.mp h with h | h
          · exact absurd h (tok_not_mem_plain w _)
          · exact List.mem_cons_of_mem _ h

theorem Faithful.drop {special : List α → Prop} {items : List (Item α)} (h : Faithful special items)
    (n : Nat) : Faithful special (dropItems items n) := by
  constructor
  · intro w hw
    exact h.marked w (mem_dropItems hw)
  · intro a w b hw heq
    rw [render_dropItems] at heq
    by_cases hn : n ≤ (render items).length
    · have hall : render items = ((render items).take n ++ a) ++ w ++ b := by
        rw [List.append_assoc, List.append_assoc, ← List.append_assoc a, ← heq, List.take_append_drop]
      obtain ⟨xs, ys, rfl, hxs⟩ := h.only _ w b hw hall
      have hlen : n ≤ (render xs).length := by
        rw [hxs, List.length_append, List.length_take]
        omega
      refine ⟨dropItems xs n, ys, dropItems_append xs _ n hlen, ?_⟩
      rw [render_dropItems, hxs, List.drop_append, List.length_take, Nat.min_eq_left hn, Nat.sub_self]
      simp
    · rw [List.drop_eq_nil_of_le (by omega)] at heq
      have hnil : w = [] := by
        simp only [List.nil_eq, List.append_eq_nil_iff] at heq
        exact heq.1.2
      -- An empty special word would be marked somewhere, and no mark is empty.
      obtain ⟨xs, ys, rfl, -⟩ := h.only [] w (render items) hw (by simp [hnil])
      exact absurd hnil (h.marked w (by simp)).2

theorem Faithful.not_special_raw {special : List α → Prop} {a : α} {items : List (Item α)}
    (h : Faithful special (.raw a :: items)) {v : List α} (hv : v <+: a :: render items) : ¬ special v := by
  intro hspecial
  obtain ⟨t, ht⟩ := hv
  obtain ⟨xs, ys, hxs, hnil⟩ := h.only [] v t hspecial (by simpa using ht.symm)
  cases xs with
  | nil => simp at hxs
  | cons y xs =>
    simp only [List.cons_append, List.cons.injEq] at hxs
    simp [← hxs.1] at hnil

theorem Faithful.special_inside {special : List α → Prop} {w a b v : List α} {items : List (Item α)}
    (h : Faithful special (.tok w :: items)) (hw : w = a ++ b) (hb : b ≠ []) (hv : v <+: b ++ render items)
    (hspecial : special v) : v = w := by
  subst hw
  obtain ⟨t, ht⟩ := hv
  obtain ⟨xs, ys, hxs, ha⟩ := h.only a v t hspecial (by rw [render_tok, List.append_assoc, List.append_assoc, ht])
  cases xs with
  | nil =>
    simp only [List.nil_append, List.cons.injEq, Item.tok.injEq] at hxs
    exact hxs.1.symm
  | cons y xs =>
    simp only [List.cons_append, List.cons.injEq] at hxs
    have hlen := congrArg List.length ha
    simp only [← hxs.1, render_tok, List.length_append] at hlen
    have := List.length_pos_iff.mpr hb
    omega

/-- The text may end before the first marked word that has not ended. -/
theorem Faithful.front {special : List α → Prop} {xs ys : List (Item α)} {p : List α}
    (h : Faithful special (xs ++ ys)) (hp : p <+: render ys)
    (hshort : ∀ us w vs, ys = us ++ .tok w :: vs → p.length < (render us).length + w.length) :
    Faithful special (xs ++ plain p) := by
  constructor
  · intro w hw
    rcases List.mem_append.mp hw with hw | hw
    · exact h.marked w (List.mem_append_left _ hw)
    · exact absurd hw (tok_not_mem_plain w p)
  · intro a w b hw heq
    obtain ⟨t, ht⟩ := hp
    have hall : render (xs ++ ys) = a ++ w ++ (b ++ t) := by
      rw [render_append, render_plain] at heq
      rw [render_append, ← ht, ← List.append_assoc, heq, List.append_assoc]
    have hlen : (render xs).length + p.length = a.length + w.length + b.length := by
      simpa [Nat.add_assoc] using congrArg List.length heq
    obtain ⟨us, vs, hsplit, hus⟩ := h.only a w (b ++ t) hw hall
    have hnot : ∀ k, us = xs ++ k → ys = k ++ .tok w :: vs → False := by
      rintro k rfl hys
      have := hshort k w vs hys
      rw [render_append] at hus
      have := congrArg List.length hus
      rw [List.length_append] at this
      omega
    rcases List.append_eq_append_iff.mp hsplit with ⟨k, rfl, hys⟩ | ⟨k, rfl, hrest⟩
    · exact absurd (hnot k rfl hys) id
    · cases k with
      | nil => exact absurd (hnot [] (by simp) (by simpa using hrest.symm)) id
      | cons x k =>
        simp only [List.cons_append, List.cons.injEq] at hrest
        obtain ⟨rfl, -⟩ := hrest
        exact ⟨us, k ++ plain p, by simp, hus⟩

theorem split_behind {pre rest xs ys : List (Item α)} {w : List α} (h : pre ++ rest = xs ++ .tok w :: ys)
    (hw : w ≠ []) (hle : (render pre).length ≤ (render xs).length) :
    ∃ k, xs = pre ++ k ∧ rest = k ++ .tok w :: ys := by
  rcases List.append_eq_append_iff.mp h with ⟨k, rfl, hk⟩ | ⟨k, rfl, hk⟩
  · exact ⟨k, rfl, hk⟩
  · cases k with
    | nil => exact ⟨[], by simp, by simpa using hk.symm⟩
    | cons x k =>
      simp only [List.cons_append, List.cons.injEq] at hk
      have := List.length_pos_iff.mpr hw
      rw [← hk.1, render_append, render_tok, List.length_append, List.length_append] at hle
      omega

/-- The marked words and where they begin, in a text that begins at `pos`. -/
def marks : Nat → List (Item α) → List (Nat × List α)
  | _, [] => []
  | pos, .raw _ :: items => marks (pos + 1) items
  | pos, .tok w :: items => (pos, w) :: marks (pos + w.length) items

theorem marks_append (pos : Nat) (xs ys : List (Item α)) :
    marks pos (xs ++ ys) = marks pos xs ++ marks (pos + (render xs).length) ys := by
  induction xs generalizing pos with
  | nil => simp [marks]
  | cons x xs ih =>
    cases x with
    | raw a =>
      simp only [List.cons_append, marks, ih, render_raw, List.length_cons]
      congr 2; omega
    | tok w =>
      simp only [List.cons_append, marks, ih, render_tok, List.length_append]
      congr 3; omega

theorem mem_marks {pos i : Nat} {w : List α} {items : List (Item α)} (h : (i, w) ∈ marks pos items) :
    ∃ xs ys, items = xs ++ .tok w :: ys ∧ i = pos + (render xs).length := by
  induction items generalizing pos with
  | nil => simp [marks] at h
  | cons x items ih =>
    cases x with
    | raw a =>
      obtain ⟨xs, ys, rfl, hi⟩ := ih h
      exact ⟨.raw a :: xs, ys, rfl, by rw [hi, render_raw, List.length_cons]; omega⟩
    | tok v =>
      rcases List.mem_cons.mp h with h | h
      · obtain ⟨rfl, rfl⟩ := Prod.mk.inj h
        exact ⟨[], items, rfl, by simp⟩
      · obtain ⟨xs, ys, rfl, hi⟩ := ih h
        exact ⟨.tok v :: xs, ys, rfl, by rw [hi, render_tok, List.length_append]; omega⟩

end Tokens
