import LlmGuard.Masker.Proofs

/-!
# Which placeholder stands for which original

The table of the masker holds the first request of every original, in order, and the numbers of a type are the free
ones. So the placeholders follow from the requests and the reserved names.
-/

namespace LlmGuard

open Fresh

theorem freeUpTo_unique {α : Type} [DecidableEq α] {name : Nat → α} {taken : List α} {c c' k n n' : Nat}
    (h : (freeUpTo name taken c)[k]? = some n) (h' : (freeUpTo name taken c')[k]? = some n') : n = n' := by
  have hfront : ∀ {c c' n n' : Nat}, c ≤ c' → (freeUpTo name taken c)[k]? = some n →
      (freeUpTo name taken c')[k]? = some n' → n = n' := by
    intro c c' n n' hle h h'
    obtain ⟨t, ht⟩ : freeUpTo name taken c <+: freeUpTo name taken c' := by
      refine List.IsPrefix.filter _ ⟨List.range' (1 + c) (c' - c), ?_⟩
      have hsplit := @List.range'_append_1 1 c (c' - c)
      rwa [Nat.add_sub_cancel' hle] at hsplit
    rw [← ht, List.getElem?_append_left (List.getElem?_eq_some_iff.mp h).1, h] at h'
    exact Option.some.inj h'
  rcases Nat.le_total c c' with hle | hle
  · exact hfront hle h h'
  · exact (hfront hle h' h).symm

theorem forall₂_append_left {α β : Type} {R : α → β → Prop} {a b : List α} {v : List β}
    (h : List.Forall₂ R (a ++ b) v) : ∃ v₁ v₂, v = v₁ ++ v₂ ∧ List.Forall₂ R a v₁ ∧ List.Forall₂ R b v₂ := by
  refine ⟨v.take a.length, v.drop a.length, (List.take_append_drop _ _).symm, ?_, ?_⟩
  · simpa using List.forall₂_take a.length h
  · simpa using List.forall₂_drop a.length h

/-- What a replacement has to do with its request. -/
abbrev Serving (q : Request) (r : Replacement) : Prop :=
  r.original = q.original ∧ ∃ n, r.placeholder = renderPlaceholder q.type n

theorem placeholderIndex_isSome {q : Request} {r : Replacement} (h : Serving q r) (t : Bytes) :
    (placeholderIndex t r.placeholder).isSome = decide (q.type = t) := by
  obtain ⟨-, n, hn⟩ := h
  rw [hn]
  by_cases ht : q.type = t
  · rw [ht, placeholderIndex_eq_some.mpr rfl]
    simp
  · have hnone : placeholderIndex t (renderPlaceholder q.type n) = none := by
      rw [Option.eq_none_iff_forall_ne_some]
      intro m hm
      exact ht (renderPlaceholder_injective (placeholderIndex_eq_some.mp hm)).1
    simp [hnone, ht]

theorem mintedIndexes_length {qs : List Request} {rs : List Replacement} (h : List.Forall₂ Serving qs rs) (t : Bytes) :
    (mintedIndexes t rs).length = qs.countP (·.type = t) := by
  induction h with
  | nil => rfl
  | @cons q r qs rs hqr _ ih =>
    have hsome := placeholderIndex_isSome hqr t
    rw [mintedIndexes, List.filterMap_cons, List.countP_cons]
    cases hi : placeholderIndex t r.placeholder with
    | none =>
      rw [hi, Option.isSome_none] at hsome
      rw [← hsome]
      exact ih
    | some n =>
      rw [hi, Option.isSome_some] at hsome
      rw [← hsome]
      exact congrArg (· + 1) ih

section Minted

variable {reserved : List Bytes} {served : List Request} {st : MaskerState}

theorem TableInv.index (h : TableInv reserved served st) {qs : List Request} {q : Request} {rs rs' : List Replacement}
    {r : Replacement} (hrs : st.replacements = rs ++ r :: rs') (hserved : List.Forall₂ Serving qs rs) {n : Nat}
    (hn : r.placeholder = renderPlaceholder q.type n) :
    (freeUpTo (renderPlaceholder q.type) reserved (st.placeholderCounters q.type))[qs.countP (·.type = q.type)]? =
      some n := by
  have hindexes : mintedIndexes q.type st.replacements = mintedIndexes q.type rs ++ n :: mintedIndexes q.type rs' := by
    unfold mintedIndexes
    rw [hrs, List.filterMap_append, List.filterMap_cons, hn, placeholderIndex_eq_some.mpr rfl]
  rw [← h.indexes, hindexes, ← mintedIndexes_length hserved, List.getElem?_append_right (Nat.le_refl _), Nat.sub_self]
  rfl

theorem TableInv.mintedAt_iff (h : TableInv reserved served st) {k : Nat} {placeholder original : Bytes} :
    MintedAt reserved served k placeholder original ↔
      ∃ r, st.replacements[k]? = some r ∧ r.placeholder = placeholder ∧ r.original = original := by
  have hsplit : ∀ {α : Type} {l : List α} {a : α}, l[k]? = some a → l = l.take k ++ a :: l.drop (k + 1) := by
    intro α l a ha
    obtain ⟨hk, rfl⟩ := List.getElem?_eq_some_iff.mp ha
    rw [← List.drop_eq_getElem_cons hk, List.take_append_drop]
  have hserved := List.forall₂_take k h.firsts
  constructor
  · rintro ⟨q, c, n, hq, rfl, rfl, hn⟩
    have hfirsts := h.firsts
    rw [hsplit hq] at hfirsts
    obtain ⟨rs, _, hrs, hbefore, hrest⟩ := forall₂_append_left hfirsts
    obtain ⟨r, rs', ⟨horiginal, n', hn'⟩, -, rfl⟩ := List.forall₂_cons_left_iff.mp hrest
    have hlen : rs.length = k := by
      rw [← hbefore.length_eq, List.length_take, Nat.min_eq_left (List.getElem?_eq_some_iff.mp hq).1.le]
    refine ⟨r, ?_, ?_, horiginal⟩
    · rw [hrs, ← hlen, List.getElem?_append_right (Nat.le_refl _), Nat.sub_self]
      rfl
    · rw [freeUpTo_unique hn (h.index hrs hbefore hn'), hn']
  · rintro ⟨r, hr, rfl, rfl⟩
    have hfirsts := h.firsts
    rw [hsplit hr] at hfirsts
    have hlen : (st.replacements.take k).length = k := by
      rw [List.length_take, Nat.min_eq_left (List.getElem?_eq_some_iff.mp hr).1.le]
    obtain ⟨q, _, ⟨horiginal, n, hn⟩, -, hdrop⟩ :=
      List.forall₂_cons_right_iff.mp (List.forall₂_drop_append _ _ _ hfirsts)
    have hq : (firstRequests served)[k]? = some q := by
      rw [hlen] at hdrop
      rw [← Nat.add_zero k, ← List.getElem?_drop, hdrop]
      rfl
    exact ⟨q, _, n, hq, horiginal.symm, hn, h.index (hsplit hr) hserved hn⟩

theorem TableInv.minted_iff (h : TableInv reserved served st) {placeholder original : Bytes} :
    Minted reserved served placeholder original ↔
      ∃ r ∈ st.replacements, r.placeholder = placeholder ∧ r.original = original := by
  constructor
  · rintro ⟨k, hk⟩
    obtain ⟨r, hr, hrest⟩ := h.mintedAt_iff.mp hk
    exact ⟨r, List.mem_of_getElem? hr, hrest⟩
  · rintro ⟨r, hr, hrest⟩
    obtain ⟨k, hk⟩ := List.mem_iff_getElem?.mp hr
    exact ⟨k, h.mintedAt_iff.mpr ⟨r, hk, hrest⟩⟩

end Minted

end LlmGuard
