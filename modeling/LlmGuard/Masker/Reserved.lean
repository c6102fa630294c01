import LlmGuard.Masker.Proofs
import LlmGuard.Lib.Fence

/-!
# The reserved placeholders are all of them

No placeholder-shaped literal of an input text is missing from the reserved set. Two such literals cannot
overlap, so consuming the leftmost one never hides another one.
-/

namespace LlmGuard

open Fence

abbrev IsPlaceholder (w : Bytes) : Prop := IsFence (ch '<') (ch '>') w

/-- A literal that the pattern matches. -/
def IsReserved (w : Bytes) : Prop :=
  ∃ body, w = ch '<' :: (body ++ [ch '>']) ∧ body.all isTypeByte ∧ isReservedBody body

theorem angle_ne : ch '<' ≠ ch '>' := by decide

theorem IsReserved.isPlaceholder {w : Bytes} (h : IsReserved w) : IsPlaceholder w := by
  obtain ⟨body, rfl, htype, -⟩ := h
  rw [List.all_eq_true] at htype
  refine ⟨body, rfl, ?_, ?_⟩
  · intro hmem
    exact absurd (htype _ hmem) (by decide)
  · intro hmem
    exact absurd (htype _ hmem) (by decide)

theorem takeWhile_fence (body rest : Bytes) (h : body.all isTypeByte) :
    (body ++ ch '>' :: rest).takeWhile isTypeByte = body := by
  rw [List.all_eq_true] at h
  rw [List.takeWhile_append_of_pos h, List.takeWhile_cons_of_neg (by decide), List.append_nil]

theorem reservedAtFront_spec (s w : Bytes) : reservedAtFront s = some w ↔ w <+: s ∧ IsReserved w := by
  cases s with
  | nil =>
    simp only [reservedAtFront, reduceCtorEq, false_iff, not_and]
    rintro hw ⟨body, rfl, -⟩
    simp at hw
  | cons b s =>
    simp only [reservedAtFront]
    constructor
    · intro h
      split at h
      · rename_i hcond
        simp only [Bool.and_eq_true, decide_eq_true_eq] at hcond
        obtain ⟨⟨rfl, hclose⟩, hbody⟩ := hcond
        obtain rfl := Option.some.inj h
        refine ⟨?_, s.takeWhile isTypeByte, rfl, List.all_takeWhile, hbody⟩
        rw [List.cons_append, List.cons_prefix_cons]
        refine ⟨rfl, ?_⟩
        obtain ⟨t, ht⟩ : ∃ t, s.drop (s.takeWhile isTypeByte).length = ch '>' :: t := by
          cases hd : s.drop (s.takeWhile isTypeByte).length with
          | nil => simp [hd] at hclose
          | cons x t =>
            simp only [hd, List.head?_cons, Option.some.injEq] at hclose
            exact ⟨t, by rw [hclose]⟩
        refine ⟨t, ?_⟩
        rw [List.append_assoc, List.singleton_append, ← ht]
        have hpre : s.takeWhile isTypeByte = s.take (s.takeWhile isTypeByte).length :=
          List.prefix_iff_eq_take.mp (List.takeWhile_prefix _)
        conv_lhs => rw [hpre]
        rw [List.length_take, Nat.min_eq_left (List.takeWhile_prefix isTypeByte).length_le]
        exact List.take_append_drop _ s
      · cases h
    · rintro ⟨⟨t, ht⟩, body, rfl, htype, hbody⟩
      simp only [List.cons_append, List.append_assoc, List.nil_append, List.cons.injEq] at ht
      obtain ⟨rfl, rfl⟩ := ht
      have hdrop : (body ++ ch '>' :: t).drop body.length = ch '>' :: t := by simp
      rw [takeWhile_fence body t htype, hdrop]
      simp [hbody]

theorem reservedLoop_skip (w s : Bytes) : reservedLoop w.length (w ++ s) = reservedLoop 0 s := by
  induction w with
  | nil => rfl
  | cons b w ih => exact ih

theorem mem_reservedLoop (s w : Bytes) (hw : IsReserved w) (h : w <:+: s) : w ∈ reservedLoop 0 s := by
  induction hn : s.length using Nat.strong_induction_on generalizing s with
  | _ n ih =>
    cases s with
    | nil => exact absurd (List.infix_nil.mp h) hw.isPlaceholder.ne_nil
    | cons b s =>
      simp only [List.length_cons] at hn
      unfold reservedLoop
      split
      · rename_i hnone
        rcases List.infix_cons_iff.mp h with hpre | hinfix
        · have := (reservedAtFront_spec (b :: s) w).mpr ⟨hpre, hw⟩
          rw [hnone] at this
          cases this
        · exact ih s.length (by omega) s hinfix rfl
      · rename_i found hfound
        obtain ⟨⟨rest, hrest⟩, hres⟩ := (reservedAtFront_spec (b :: s) found).mp hfound
        obtain ⟨x, found, rfl⟩ := List.exists_cons_of_ne_nil hres.isPlaceholder.ne_nil
        obtain ⟨rfl, hs⟩ := List.cons.inj hrest
        obtain ⟨a, c, hac⟩ := h
        by_cases ha : a = []
        · subst ha
          rw [List.nil_append] at hac
          have := hw.isPlaceholder.eq_of_prefix hres.isPlaceholder ⟨c, hac⟩ ⟨rest, hrest⟩
          exact this ▸ List.mem_cons_self
        · apply List.mem_cons_of_mem _
          rw [List.length_cons, Nat.add_sub_cancel, ← hs, List.append_eq, reservedLoop_skip]
          by_cases hlt : a.length < (x :: found).length
          · exact (hres.isPlaceholder.not_inside angle_ne hw.isPlaceholder ha hlt (hrest.trans hac.symm)).elim
          · -- The literal lies behind the one that was found.
            obtain ⟨a', rfl⟩ : x :: found <+: a := by
              have hpre : x :: found <+: a ++ (w ++ c) := ⟨rest, by rw [hrest, ← hac, List.append_assoc]⟩
              exact List.prefix_of_prefix_length_le hpre (List.prefix_append _ _) (by omega)
            have hinfix : w <:+: rest := by
              refine ⟨a', c, ?_⟩
              rw [← hrest, List.append_assoc, List.append_assoc, List.append_cancel_left_eq] at hac
              rw [List.append_assoc]
              exact hac
            refine ih rest.length ?_ rest hinfix rfl
            have := congrArg List.length hs
            simp only [List.append_eq, List.length_append] at this
            omega

theorem isReserved_render {t : Bytes} (n : Nat) (hne : t ≠ []) (htype : t.all isTypeByte) :
    IsReserved (renderPlaceholder t n) := by
  rw [List.all_eq_true] at htype
  refine ⟨t ++ ch '_' :: decimal n, by simp [renderPlaceholder, ascii], ?_, ?_⟩
  · rw [List.all_eq_true]
    intro b hb
    simp only [List.mem_append, List.mem_cons] at hb
    rcases hb with hb | rfl | hb
    · exact htype b hb
    · decide
    · simp [isTypeByte, decimal_digits n b hb]
  · have hrev : (t ++ ch '_' :: decimal n).reverse = (decimal n).reverse ++ ch '_' :: t.reverse := by simp
    have hdigits : ((decimal n).reverse ++ ch '_' :: t.reverse).takeWhile isDigit = (decimal n).reverse := by
      rw [List.takeWhile_append_of_pos (by simpa using decimal_digits n),
        List.takeWhile_cons_of_neg (by decide), List.append_nil]
    unfold isReservedBody
    simp only [hrev, hdigits]
    simp [decimal_ne_nil, hne]

theorem mem_reservedPlaceholders {texts : List Bytes} {text t : Bytes} (n : Nat) (htext : text ∈ texts)
    (hne : t ≠ []) (htype : t.all isTypeByte) (h : renderPlaceholder t n <:+: text) :
    renderPlaceholder t n ∈ reservedPlaceholders texts := by
  refine List.mem_flatMap.mpr ⟨text, htext, ?_⟩
  have hopen : text.contains (ch '<') = true := by
    rw [List.contains_iff_mem]
    exact h.subset (by simp [renderPlaceholder, ascii])
  rw [if_pos hopen]
  exact mem_reservedLoop text _ (isReserved_render n hne htype) h

end LlmGuard
