import LlmGuard.Lib.Tokens

/-!
# Rewriting a stream

A text arrives in chunks. Each step rewrites what it holds and the new chunk, and keeps the end back,
so that no marked word is cut. What was rewritten already is rewritten again in the next step.
-/

namespace Streaming

open Tokens

variable {α : Type}

/-- Two passes, one after the other, and how much of their result may leave. -/
structure Rewriter (α : Type) where
  first : List α → List α
  second : List α → List α
  safe : List α → Nat
  room : Nat
  safe_room : ∀ s, safe s = 0 ∨ safe s + room ≤ s.length

namespace Rewriter

def rewrite (rw : Rewriter α) (s : List α) : List α := rw.second (rw.first s)

/-- What leaves, and what stays. -/
def step (rw : Rewriter α) (pending chunk : List α) : List α × List α :=
  let s := rw.rewrite (pending ++ chunk)
  (s.take (rw.safe s), s.drop (rw.safe s))

/-- Everything that leaves. Nothing stays after the last chunk. -/
def run (rw : Rewriter α) : List α → List (List α) → List α
  | _, [] => []
  | pending, [chunk] => rw.rewrite (pending ++ chunk)
  | pending, chunk :: chunks =>
    let (out, pending) := rw.step pending chunk
    out ++ rw.run pending chunks

end Rewriter

/-- The pass writes `r` in every faithful reading. -/
def Pass (special : List α → Prop) (pass : List α → List α) (r : List α → Option (List α)) : Prop :=
  ∀ items, Faithful special items → pass (render items) = render (subst r items)

/-- The reading stays faithful when the words up to some place are written, and those up to a later
place are written by the first pass alone. -/
def Stable (special : List α → Prop) (r₁ r₂ : List α → Option (List α)) (items : List (Item α)) : Prop :=
  ∀ as bs cs, items = as ++ bs ++ cs →
    Faithful special (subst (orElse r₁ r₂) as ++ subst r₁ bs ++ cs)

/-! ## Cutting a reading -/

/-- A front of the text is some whole items and the beginning of a marked word. -/
theorem exists_cut (items : List (Item α)) (p rest : List α) (hne : ∀ w, .tok w ∈ items → w ≠ [])
    (h : p ++ rest = render items) :
    ∃ bs cs part, items = bs ++ cs ∧ p = render bs ++ part ∧ part ++ rest = render cs ∧
      (∀ us w vs, cs = us ++ .tok w :: vs → part.length < (render us).length + w.length) ∧
      (part = [] ∨ ∃ w, .tok w ∈ cs ∧ part.length < w.length) := by
  induction items generalizing p with
  | nil =>
    simp only [render_nil, List.append_eq_nil_iff] at h
    exact ⟨[], [], [], rfl, by simp [h.1], by simp [h.2], by simp, .inl rfl⟩
  | cons x items ih =>
    have hne' : ∀ w, .tok w ∈ items → w ≠ [] := fun w hw => hne w (List.mem_cons_of_mem _ hw)
    have hstop : p = [] → ∃ bs cs part, x :: items = bs ++ cs ∧ p = render bs ++ part ∧
        part ++ rest = render cs ∧
        (∀ us w vs, cs = us ++ .tok w :: vs → part.length < (render us).length + w.length) ∧
        (part = [] ∨ ∃ w, .tok w ∈ cs ∧ part.length < w.length) := by
      rintro rfl
      refine ⟨[], x :: items, [], rfl, rfl, h, ?_, .inl rfl⟩
      intro us w vs heq
      have := List.length_pos_iff.mpr (hne w (by simp [heq]))
      simp only [List.length_nil]
      omega
    cases x with
    | raw a =>
      cases p with
      | nil => exact hstop rfl
      | cons b p =>
        simp only [List.cons_append, render_raw, List.cons.injEq] at h
        obtain ⟨rfl, h⟩ := h
        obtain ⟨bs, cs, part, rfl, rfl, hrest⟩ := ih p hne' h
        exact ⟨.raw b :: bs, cs, part, rfl, rfl, hrest⟩
    | tok w =>
      rw [render_tok] at h
      by_cases hle : w.length ≤ p.length
      · -- The whole word has arrived.
        obtain ⟨q, rfl⟩ : w <+: p := by
          have hpre : w <+: p ++ rest := h ▸ List.prefix_append _ _
          exact List.prefix_of_prefix_length_le hpre (List.prefix_append _ _) hle
        rw [List.append_assoc, List.append_cancel_left_eq] at h
        obtain ⟨bs, cs, part, rfl, rfl, hrest⟩ := ih q hne' h
        exact ⟨.tok w :: bs, cs, part, rfl, by simp, hrest⟩
      · refine ⟨[], .tok w :: items, p, rfl, rfl, by rw [h, render_tok], ?_, .inr ⟨w, by simp, by omega⟩⟩
        intro us v vs heq
        cases us with
        | nil =>
          simp only [List.nil_append, List.cons.injEq, Item.tok.injEq] at heq
          simp only [render_nil, List.length_nil, ← heq.1]
          omega
        | cons y us =>
          simp only [List.cons_append, List.cons.injEq] at heq
          rw [← heq.1, render_tok, List.length_append]
          omega

/-! ## The run -/

section Run

variable {special : List α → Prop} {r₁ r₂ : List α → Option (List α)} {rw : Rewriter α}

/-- The items `held` are the end of the rewritten items `as`, behind the first `gone` elements. -/
structure Held (special : List α → Prop) (r₁ r₂ : List α → Option (List α)) (as held : List (Item α))
    (gone : Nat) : Prop where
  gone_le : gone ≤ (render (subst (orElse r₁ r₂) as)).length
  text : render held = (render (subst (orElse r₁ r₂) as)).drop gone
  kept : ∀ w, .tok w ∈ held → orElse r₁ r₂ w = none
  faithful : ∀ cs, Faithful special (subst (orElse r₁ r₂) as ++ cs) → Faithful special (held ++ cs)

theorem orElse_eq_none {w : List α} (h : orElse r₁ r₂ w = none) : r₁ w = none ∧ r₂ w = none := by
  unfold orElse at h
  cases h₁ : r₁ w with
  | some o => simp [h₁] at h
  | none => exact ⟨rfl, by simpa [h₁] using h⟩

theorem rewrite_held {items as bs cs held : List (Item α)} {gone : Nat} {part rest : List α}
    (h₁ : Pass special rw.first r₁) (h₂ : Pass special rw.second r₂) (hstable : Stable special r₁ r₂ items)
    (hitems : items = as ++ bs ++ cs) (hheld : Held special r₁ r₂ as held gone)
    (hpart : part ++ rest = render cs)
    (hshort : ∀ us w vs, cs = us ++ .tok w :: vs → part.length < (render us).length + w.length) :
    rw.rewrite (render held ++ render bs ++ part) =
      render (held ++ subst (orElse r₁ r₂) bs) ++ part := by
  have hkeep₁ : subst r₁ held = held := subst_id fun w hw => (orElse_eq_none (hheld.kept w hw)).1
  have hkeep₂ : subst r₂ held = held := subst_id fun w hw => (orElse_eq_none (hheld.kept w hw)).2
  have hbefore : Faithful special (held ++ bs ++ plain part) := by
    have hall := hstable as [] (bs ++ cs) (by simp [hitems])
    rw [subst_nil, List.append_nil] at hall
    have := hheld.faithful _ hall
    rw [← List.append_assoc] at this
    exact this.front ⟨rest, hpart⟩ hshort
  have hbetween : Faithful special (held ++ subst r₁ bs ++ plain part) := by
    have hall := hstable as bs cs hitems
    rw [List.append_assoc] at hall
    have := hheld.faithful _ hall
    rw [← List.append_assoc] at this
    exact this.front ⟨rest, hpart⟩ hshort
  have hfirst : rw.first (render held ++ render bs ++ part) = render (held ++ subst r₁ bs ++ plain part) := by
    have := h₁ _ hbefore
    rwa [subst_append, subst_append, subst_plain, hkeep₁, render_append, render_append, render_plain] at this
  unfold Rewriter.rewrite
  rw [hfirst, h₂ _ hbetween, subst_append, subst_append, subst_plain, subst_subst, hkeep₂]
  simp

theorem Held.whole {as held : List (Item α)} {gone : Nat} (h : Held special r₁ r₂ as held gone)
    (bs cs : List (Item α)) :
    (render (subst (orElse r₁ r₂) (as ++ bs ++ cs))).drop gone =
      render (held ++ subst (orElse r₁ r₂) bs) ++ render (subst (orElse r₁ r₂) cs) := by
  have hzero := Nat.sub_eq_zero_of_le h.gone_le
  rw [subst_append, subst_append, render_append, render_append, render_append, h.text, List.append_assoc,
    List.drop_append, hzero, List.drop_zero, List.append_assoc]

theorem Held.advance {as bs held : List (Item α)} {gone n : Nat} (h : Held special r₁ r₂ as held gone)
    (hn : n ≤ (render (held ++ subst (orElse r₁ r₂) bs)).length) :
    Held special r₁ r₂ (as ++ bs) (dropItems (held ++ subst (orElse r₁ r₂) bs) n) (gone + n) := by
  have hwhole : render (held ++ subst (orElse r₁ r₂) bs) =
      (render (subst (orElse r₁ r₂) (as ++ bs))).drop gone := by
    simpa using (h.whole bs []).symm
  constructor
  · rw [hwhole, List.length_drop] at hn
    have := h.gone_le
    rw [subst_append, render_append, List.length_append] at hn ⊢
    omega
  · rw [render_dropItems, hwhole, List.drop_drop]
  · intro w hw
    rcases List.mem_append.mp (mem_dropItems hw) with hw | hw
    · exact h.kept w hw
    · exact (tok_of_mem_subst hw).2
  · intro cs hcs
    rw [subst_append, List.append_assoc] at hcs
    have := (h.faithful _ hcs).drop n
    rwa [← List.append_assoc, dropItems_append _ _ _ hn] at this

theorem run_held {items as cs held : List (Item α)} {gone : Nat} {part : List α} {chunks : List (List α)}
    (h₁ : Pass special rw.first r₁) (h₂ : Pass special rw.second r₂) (hstable : Stable special r₁ r₂ items)
    (hroom : ∀ w, .tok w ∈ items → w.length ≤ rw.room) (hitems : items = as ++ cs)
    (hheld : Held special r₁ r₂ as held gone) (hrest : part ++ chunks.flatten = render cs)
    (hne : chunks ≠ []) :
    rw.run (render held ++ part) chunks = (render (subst (orElse r₁ r₂) items)).drop gone := by
  have hwords : ∀ w, .tok w ∈ items → w ≠ [] := by
    have := hstable [] [] items (by simp)
    rw [subst_nil, subst_nil, List.nil_append, List.nil_append] at this
    exact fun w hw => (this.marked w hw).2
  induction chunks generalizing as cs held gone part with
  | nil => exact absurd rfl hne
  | cons chunk chunks ih =>
    cases chunks with
    | nil =>
      -- The last chunk: everything has arrived.
      have hall : render cs = part ++ chunk := by simpa using hrest.symm
      have hlast : rw.rewrite (render held ++ render cs ++ []) =
          render (held ++ subst (orElse r₁ r₂) cs) ++ [] := by
        have hend : ([] : List α) ++ [] = render ([] : List (Item α)) := rfl
        refine rewrite_held h₁ h₂ hstable ?_ hheld hend (by simp)
        simpa using hitems
      have hsplit := hheld.whole cs []
      rw [List.append_nil, ← hitems, subst_nil, render_nil, List.append_nil] at hsplit
      rw [List.append_nil, List.append_nil, hall, ← List.append_assoc] at hlast
      rw [hsplit]
      exact hlast
    | cons chunk' chunks =>
      rw [List.flatten_cons, ← List.append_assoc] at hrest
      have hwords' : ∀ w, .tok w ∈ cs → w ≠ [] := fun w hw => hwords w (by simp [hitems, hw])
      obtain ⟨bs, cs', part', rfl, hcut, hrest', hshort, hend⟩ := exists_cut cs _ _ hwords' hrest
      have hitems' : items = as ++ bs ++ cs' := by rw [hitems, List.append_assoc]
      have hrew := rewrite_held h₁ h₂ hstable hitems' hheld hrest' hshort
      have hbuffer : render held ++ part ++ chunk = render held ++ render bs ++ part' := by
        rw [List.append_assoc, hcut, List.append_assoc]
      set s := rw.rewrite (render held ++ part ++ chunk) with hs
      rw [hbuffer, hrew] at hs
      -- The beginning of a word is shorter than the room that is held back.
      have hsafe : rw.safe s ≤ (render (held ++ subst (orElse r₁ r₂) bs)).length := by
        have hlen : s.length = (render (held ++ subst (orElse r₁ r₂) bs)).length + part'.length := by
          rw [hs, List.length_append]
        rcases rw.safe_room s with hzero | hle
        · omega
        · rcases hend with rfl | ⟨w, hw, hlt⟩
          · simp only [List.length_nil] at hlen
            omega
          · have := hroom w (by simp [hitems', hw])
            omega
      have hnext := ih hitems' (hheld.advance hsafe) hrest' (by simp)
      have hrun : rw.run (render held ++ part) (chunk :: chunk' :: chunks) =
          s.take (rw.safe s) ++ rw.run (s.drop (rw.safe s)) (chunk' :: chunks) := rfl
      have hdrop : s.drop (rw.safe s) =
          render (dropItems (held ++ subst (orElse r₁ r₂) bs) (rw.safe s)) ++ part' := by
        rw [render_dropItems, hs, List.drop_append]
        rw [hs] at hsafe
        rw [Nat.sub_eq_zero_of_le hsafe, List.drop_zero]
      have htake : s.take (rw.safe s) = ((render (subst (orElse r₁ r₂) items)).drop gone).take (rw.safe s) := by
        rw [hitems', hheld.whole bs cs', hs, List.take_append_of_le_length (hs ▸ hsafe),
          List.take_append_of_le_length (hs ▸ hsafe)]
      rw [hrun, hdrop, hnext, htake, ← List.drop_drop, List.take_append_drop]

/-- The chunks make no difference: every marked word is written once. -/
theorem run_eq {items : List (Item α)} {chunks : List (List α)} (h₁ : Pass special rw.first r₁)
    (h₂ : Pass special rw.second r₂) (hstable : Stable special r₁ r₂ items)
    (hroom : ∀ w, .tok w ∈ items → w.length ≤ rw.room) (hchunks : chunks.flatten = render items)
    (hne : chunks ≠ []) : rw.run [] chunks = render (subst (orElse r₁ r₂) items) := by
  have hstart : Held special r₁ r₂ [] [] 0 := ⟨by simp, by simp, by simp, fun cs h => h⟩
  have hrest : [] ++ chunks.flatten = render items := by rw [List.nil_append, hchunks]
  have := run_held h₁ h₂ hstable hroom (List.nil_append items).symm hstart hrest hne
  rwa [List.drop_zero] at this

end Run

end Streaming
