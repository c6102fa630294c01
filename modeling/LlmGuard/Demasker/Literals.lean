import LlmGuard.Demasker.Replacer
import LlmGuard.Demasker.RoundTrip
import LlmGuard.Masker.Minted

/-!
# The exact pass over a masked text

The pass writes the original of every placeholder that the masker wrote, unless a placeholder begins elsewhere too.
-/

namespace LlmGuard

open Splice Tokens

/-- In the masked text a placeholder of the request begins only where the masker wrote one, and no earlier one
begins there. A placeholder that the text holds by itself is no harm if it stands for itself. -/
def KeepsLiterals (reserved : List Bytes) (served : List Request) (c : Call) : Prop :=
  ∀ placeholders, List.Forall₂ (fun q p => Minted reserved served p q.original) c.requests placeholders →
    ∀ xs ys, weaveItems (c.gaps.map plain) placeholders = xs ++ ys →
      ∀ i w o, MintedAt reserved served i w o → w <+: render ys →
        (∃ j p o' zs, ys = .tok p :: zs ∧ MintedAt reserved served j p o' ∧ j ≤ i) ∨ o = w ∧ plain w <+: ys

section Replacer

variable {reps : List Replacement}

/-- The same of a list of replacements. -/
def KeepsWords (reps : List Replacement) (items : List (Item Byte)) : Prop :=
  ∀ xs ys, items = xs ++ ys → ∀ (i : Nat) (r : Replacement), reps[i]? = some r → r.placeholder <+: render ys →
    (∃ (j : Nat) (r' : Replacement) (zs : List (Item Byte)), ys = .tok r'.placeholder :: zs ∧ reps[j]? = some r' ∧ j ≤ i) ∨
      r.original = r.placeholder ∧ plain r.placeholder <+: ys

theorem KeepsWords.behind (xs : List (Item Byte)) {ys : List (Item Byte)} (h : KeepsWords reps (xs ++ ys)) :
    KeepsWords reps ys :=
  fun as bs heq => h (xs ++ as) bs (by rw [heq, List.append_assoc])

theorem firstAt_index {s : Bytes} {r : Replacement} (h : firstAt reps s = some r) :
    ∃ i : Nat, reps[i]? = some r ∧
      ∀ (j : Nat) (r' : Replacement), reps[j]? = some r' → r'.placeholder ≠ [] → r'.placeholder <+: s → i ≤ j := by
  obtain ⟨-, i, hi, hget, hbefore⟩ := List.find?_eq_some_iff_getElem.mp h
  refine ⟨i, List.getElem?_eq_some_iff.mpr ⟨hi, hget⟩, fun j r' hj hne hpre => ?_⟩
  by_contra hlt
  obtain ⟨hlen, rfl⟩ := List.getElem?_eq_some_iff.mp hj
  have := hbefore j (by omega)
  rw [List.isPrefixOf_iff_prefix.mpr hpre] at this
  simp [hne] at this

theorem replacer_items (hdistinct : (reps.map (·.placeholder)).Nodup) {items : List (Item Byte)}
    (hmarked : ∀ w, .tok w ∈ items → ∃ r ∈ reps, r.placeholder = w ∧ w ≠ []) (hkeeps : KeepsWords reps items) :
    replacer reps false (render items) = render (subst (exactOriginal reps false) items) := by
  induction hn : items.length using Nat.strong_induction_on generalizing items with
  | _ n ih =>
    cases items with
    | nil => rw [render_nil, replacer]; rfl
    | cons x items =>
      cases x with
      | raw a =>
        rw [render_raw]
        cases hfirst : firstAt reps (a :: render items) with
        | none =>
          have hrest := ih items.length (by simp [← hn]) (fun w hw => hmarked w (by simp [hw]))
            (KeepsWords.behind [.raw a] hkeeps) rfl
          rw [replacer_copy hfirst, hrest, subst_raw, render_raw]
        | some r =>
          obtain ⟨i, hi, -⟩ := firstAt_index hfirst
          obtain ⟨hpos, hpre⟩ := firstAt_length hfirst
          rcases hkeeps [] _ rfl i r hi (by simpa using hpre) with ⟨j, r', zs, hys, -⟩ | ⟨hown, zs, hzs⟩
          · cases hys
          · -- The placeholder stands for itself, and the pass goes on behind it.
            have hlen : zs.length < n := by
              rw [← hn, ← hzs, List.length_append, plain, List.length_map]
              omega
            have hrest := ih zs.length hlen (fun w hw => hmarked w (by rw [← hzs]; simp [hw]))
              (KeepsWords.behind (plain r.placeholder) (hzs ▸ hkeeps)) rfl
            have htext : a :: render items = r.placeholder ++ render zs := by
              rw [← render_raw, ← hzs, render_append, render_plain]
            rw [replacer_hit hfirst, htext, List.drop_left, hrest, ← hzs, subst_append, subst_plain, render_append,
              render_plain, restored, if_neg (by simp), hown]
      | tok w =>
        obtain ⟨r₀, hr₀, hw, hne⟩ := hmarked w (by simp)
        obtain ⟨i₀, hi₀⟩ := List.mem_iff_getElem?.mp hr₀
        obtain ⟨b, t, hbt⟩ := List.exists_cons_of_ne_nil hne
        have htext : w ++ render items = b :: (t ++ render items) := by rw [hbt]; rfl
        have hsome : (firstAt reps (w ++ render items)).isSome :=
          List.find?_isSome.mpr ⟨r₀, hr₀, by simp [hw, hne]⟩
        obtain ⟨r, hfirst⟩ := Option.isSome_iff_exists.mp hsome
        obtain ⟨i, hi, hlowest⟩ := firstAt_index hfirst
        obtain ⟨hpos, hpre⟩ := firstAt_length hfirst
        have hr : r.placeholder = w := by
          rcases hkeeps [] _ rfl i r hi (by simpa using hpre) with ⟨j, r', zs, hys, hj, hle⟩ | ⟨-, zs, hzs⟩
          · obtain ⟨hys, -⟩ := List.cons.inj hys
            have hr' := Item.tok.inj hys
            have := hlowest j r' hj (hr' ▸ hne) (by rw [← hr']; exact List.prefix_append _ _)
            obtain rfl : j = i := Nat.le_antisymm hle this
            rw [hi] at hj
            rw [Option.some.inj hj, hr']
          · obtain ⟨c, u, hcu⟩ := List.exists_cons_of_length_pos hpos
            rw [hcu] at hzs
            cases hzs
        have hrest := ih items.length (by simp [← hn]) (fun w hw => hmarked w (by simp [hw]))
          (KeepsWords.behind [.tok w] hkeeps) rfl
        have hsubst := exactOriginal_of_mem hdistinct (List.mem_of_getElem? hi) (hr ▸ hne)
        rw [render_tok, subst_tok_some (hr ▸ hsubst), render_append, render_plain, ← hrest]
        rw [htext] at hfirst ⊢
        rw [replacer_hit hfirst, ← htext, hr, List.drop_left, restored, if_neg (by simp)]

end Replacer

section Masked

variable {reserved : List Bytes} {served : List Request} {st : MaskerState}

theorem TableInv.placeholder_ne_nil (h : TableInv reserved served st) : ∀ r ∈ st.replacements, r.placeholder ≠ [] := by
  intro r hr
  obtain ⟨q, -, n, -, heq⟩ := h.origins r hr
  simp [heq, renderPlaceholder, ascii]

theorem TableInv.minted_iff_recorded (h : TableInv reserved served st) {q : Request} {p : Bytes} :
    Minted reserved served p q.original ↔ Recorded st.replacements q p := by
  rw [h.minted_iff, Recorded]
  exact exists_congr fun r => and_congr_right fun _ => and_comm

theorem originals_of_recorded (h : TableInv reserved served st) {requests : List Request} {placeholders : List Bytes}
    (hrec : List.Forall₂ (Recorded st.replacements) requests placeholders) :
    List.Forall₂ (fun o p => exactOriginal st.replacements false p = some o) (requests.map Request.original)
      placeholders := by
  rw [List.forall₂_map_left_iff]
  refine hrec.imp fun q p hqp => exactOriginal_of_recorded h.placeholders ?_ hqp
  obtain ⟨r, hr, -, rfl⟩ := hqp
  exact h.placeholder_ne_nil r hr

theorem KeepsLiterals.keepsWords (h : TableInv reserved served st) {c : Call} {placeholders : List Bytes}
    (hkeeps : KeepsLiterals reserved served c)
    (hrec : List.Forall₂ (Recorded st.replacements) c.requests placeholders) :
    KeepsWords st.replacements (weaveItems (c.gaps.map plain) placeholders) := by
  intro xs ys hitems i r hr hpre
  have hminted := hrec.imp fun q p hqp => h.minted_iff_recorded.mpr hqp
  rcases hkeeps placeholders hminted xs ys hitems i _ _ (h.mintedAt_iff.mpr ⟨r, hr, rfl, rfl⟩) hpre with
    ⟨j, p, o', zs, hys, hj, hle⟩ | hown
  · obtain ⟨r', hr', rfl, -⟩ := h.mintedAt_iff.mp hj
    exact .inl ⟨j, r', zs, hys, hr', hle⟩
  · exact .inr hown

theorem applyExact_masked (env : Env) (pinned : Option Registry) (h : TableInv reserved served st) {state : MaskingState}
    (hstate : state.replacements = st.replacements) {c : Call} {placeholders : List Bytes}
    (hkeeps : KeepsLiterals reserved served c)
    (hrec : List.Forall₂ (Recorded st.replacements) c.requests placeholders) :
    applyExact (makeConfig env state pinned) false (weave c.gaps placeholders) = c.text := by
  have hos := originals_of_recorded h hrec
  have hmarked : ∀ w, .tok w ∈ weaveItems (c.gaps.map plain) placeholders →
      ∃ r ∈ st.replacements, r.placeholder = w ∧ w ≠ [] := by
    intro w hw
    obtain ⟨r, hr, rfl⟩ := exactOriginal_isSome (marked_weaveItems hos w hw)
    exact ⟨r, hr, rfl, h.placeholder_ne_nil r hr⟩
  rw [applyExact_eq (makeConfig_tables env state pinned), exactLoop_replacer (makeConfig_tables env state pinned)
    (makeConfig_entryOrder env state pinned), hstate, ← render_masked,
    replacer_items h.placeholders hmarked (hkeeps.keepsWords h hrec), subst_masked hos]

/-- Among types of letters, digits and underscores no literal is in the way: the masker saw all of them. -/
theorem TableInv.keepsLiterals {texts : List Bytes} {calls : List Call}
    (h : TableInv (reservedPlaceholders texts) (calls.flatMap Call.requests) st) (htexts : ∀ c ∈ calls, c.text ∈ texts)
    (htypes : ∀ q ∈ calls.flatMap Call.requests, q.type ≠ [] ∧ q.type.all isTypeByte) {c : Call} (hc : c ∈ calls) :
    KeepsLiterals (reservedPlaceholders texts) (calls.flatMap Call.requests) c := by
  intro placeholders hminted xs ys hitems i w o hw hpre
  have hrec := hminted.imp fun q p hqp => h.minted_iff_recorded.mp hqp
  have hos := originals_of_recorded h hrec
  have hspecial : ∀ w, (exactOriginal st.replacements false w).isSome → IsPlaceholder w ∧ ¬ w <:+: c.text := fun w hw =>
    have habsent := minted_not_in_texts htexts htypes h hw
    ⟨habsent.1, habsent.2 c hc⟩
  have hfaithful : Faithful (fun w => (exactOriginal st.replacements false w).isSome)
      (weaveItems (c.gaps.map plain) placeholders) :=
    masked_stable hspecial (marked_weaveItems hos) (subst_masked hos) [] [] _ rfl
  obtain ⟨r, hr, rfl, -⟩ := h.mintedAt_iff.mp hw
  have hr' := List.mem_of_getElem? hr
  have hne := h.placeholder_ne_nil r hr'
  have hword : (exactOriginal st.replacements false r.placeholder).isSome := by
    rw [exactOriginal_of_mem h.placeholders hr' hne]
    rfl
  obtain ⟨b, hb⟩ := hpre
  obtain ⟨us, vs, hus, hrender⟩ := hfaithful.only (render xs) _ b hword (by
    rw [hitems, render_append, ← hb, List.append_assoc])
  obtain ⟨k, rfl, rfl⟩ := split_behind (hitems.symm.trans hus) hne (by rw [hrender])
  cases k with
  | nil => exact .inl ⟨i, _, _, _, rfl, hw, Nat.le_refl i⟩
  | cons x k =>
    have hnil : render (x :: k) = [] := by simpa using hrender
    cases x with
    | raw a => simp at hnil
    | tok v =>
      have hv := (hfaithful.marked v (by simp [hitems])).2
      rw [render_tok, List.append_eq_nil_iff] at hnil
      exact absurd hnil.1 hv

end Masked

end LlmGuard
