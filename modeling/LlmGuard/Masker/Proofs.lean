import LlmGuard.Masker.Spec

/-!
# `MaskerState` keeps the masking law

One spec per function of the state, then the invariant by induction over the requests.
-/

namespace LlmGuard

open Splice Fresh

/-! ## Rendered placeholders -/

theorem underscore_not_mem_decimal (n : Nat) : ch '_' ∉ decimal n :=
  not_mem_decimal n _ (by decide)

theorem split_last (c : Byte) (a b l m : Bytes) (hl : c ∉ l) (hm : c ∉ m)
    (h : a ++ c :: l = b ++ c :: m) : a = b ∧ l = m := by
  rw [List.append_eq_append_iff] at h
  rcases h with ⟨k, rfl, hk⟩ | ⟨k, rfl, hk⟩
  · cases k with
    | nil => simpa using hk
    | cons d k =>
      obtain ⟨rfl, rfl⟩ : c = d ∧ l = k ++ c :: m := by simpa using hk
      simp at hl
  · cases k with
    | nil => simpa [eq_comm] using hk
    | cons d k =>
      obtain ⟨rfl, rfl⟩ : c = d ∧ m = k ++ c :: l := by simpa using hk
      simp at hm

/-- The type and the index can be read back, whatever bytes the type has. -/
theorem renderPlaceholder_injective {t u : Bytes} {m n : Nat}
    (h : renderPlaceholder t m = renderPlaceholder u n) : t = u ∧ m = n := by
  have hbody : t ++ ch '_' :: decimal m = u ++ ch '_' :: decimal n := by
    have hrender : ∀ (t : Bytes) n, renderPlaceholder t n = ch '<' :: (t ++ ch '_' :: decimal n) ++ [ch '>'] := by
      intro t n
      simp [renderPlaceholder, ascii]
    rw [hrender, hrender] at h
    exact (List.cons.inj (List.append_cancel_right h)).2
  obtain ⟨ht, hn⟩ := split_last _ _ _ _ _ (underscore_not_mem_decimal m) (underscore_not_mem_decimal n) hbody
  exact ⟨ht, decimal_injective hn⟩

theorem renderPlaceholder_index_injective (t : Bytes) : Function.Injective (renderPlaceholder t) :=
  fun _ _ h => (renderPlaceholder_injective h).2

theorem placeholderIndex_eq_some {t p : Bytes} {n : Nat} :
    placeholderIndex t p = some n ↔ p = renderPlaceholder t n := by
  have hback : digitsVal (((renderPlaceholder t n).drop (t.length + 2)).dropLast) = n := by
    have hrender : renderPlaceholder t n = (ascii "<" ++ t ++ ascii "_") ++ (decimal n ++ ascii ">") := by
      simp [renderPlaceholder]
    rw [hrender, List.drop_left' (by simp [ascii]), List.dropLast_append_of_ne_nil (by simp [ascii])]
    simpa [ascii] using digitsVal_decimal n
  simp only [placeholderIndex, Option.ite_none_right_eq_some]
  constructor
  · rintro ⟨hrender, hn⟩
    rw [Option.some.inj hn] at hrender
    exact hrender.symm
  · rintro rfl
    rw [hback]
    exact ⟨rfl, rfl⟩

theorem mem_mintedIndexes {t : Bytes} {n : Nat} {rs : List Replacement} :
    n ∈ mintedIndexes t rs ↔ ∃ r ∈ rs, r.placeholder = renderPlaceholder t n := by
  simp only [mintedIndexes, List.mem_filterMap, placeholderIndex_eq_some]

/-! ## Sorted sets -/

theorem mem_setInsert {α : Type} {less : α → α → Bool}
    (htotal : ∀ x y, less x y = false → less y x = false → x = y) (x a : α) (l : List α) :
    a ∈ setInsert less x l ↔ a = x ∨ a ∈ l := by
  induction l with
  | nil => simp [setInsert]
  | cons y ys ih =>
    unfold setInsert
    by_cases hxy : less x y
    · simp [hxy]
    · by_cases hyx : less y x
      · simp only [hxy, hyx, if_true, if_false, Bool.false_eq_true, List.mem_cons, ih]
        exact or_left_comm
      · -- Neither is less, so `x` is `y` and the set stays.
        have := htotal x y (by simpa using hxy) (by simpa using hyx)
        subst this
        simp [hxy]

theorem setInsert_sorted {α : Type} {less : α → α → Bool}
    (htotal : ∀ x y, less x y = false → less y x = false → x = y)
    (htrans : ∀ x y z, less x y → less y z → less x z) (x : α) (l : List α)
    (h : l.Pairwise fun a b => less a b) : (setInsert less x l).Pairwise fun a b => less a b := by
  induction l with
  | nil => simp [setInsert]
  | cons y ys ih =>
    obtain ⟨hy, hys⟩ := List.pairwise_cons.mp h
    unfold setInsert
    split
    · rename_i hxy
      refine List.pairwise_cons.mpr ⟨?_, h⟩
      intro z hz
      rcases List.mem_cons.mp hz with rfl | hz
      · exact hxy
      · exact htrans x y z hxy (hy z hz)
    · split
      · rename_i hyx
        refine List.pairwise_cons.mpr ⟨?_, ih hys⟩
        intro z hz
        rcases (mem_setInsert htotal x z ys).mp hz with rfl | hz
        · exact hyx
        · exact hy z hz
      · exact h

theorem bytesLess_total (x y : Bytes) (hxy : bytesLess x y = false) (hyx : bytesLess y x = false) :
    x = y := by
  simp only [bytesLess, decide_eq_false_iff_not] at hxy hyx
  exact List.le_antisymm hyx hxy

theorem bytesLess_trans (x y z : Bytes) (hxy : bytesLess x y) (hyz : bytesLess y z) : bytesLess x z := by
  simp only [bytesLess, decide_eq_true_eq] at hxy hyz ⊢
  exact List.lt_trans hxy hyz

theorem dataTypeLess_total (x y : DataType) (hxy : dataTypeLess x y = false)
    (hyx : dataTypeLess y x = false) : x = y := by
  simp only [dataTypeLess, decide_eq_false_iff_not] at hxy hyx
  exact DataType.toNat_injective (by omega)

theorem dataTypeLess_trans (x y z : DataType) (hxy : dataTypeLess x y) (hyz : dataTypeLess y z) :
    dataTypeLess x z := by
  simp only [dataTypeLess, decide_eq_true_eq] at hxy hyz ⊢
  omega

/-! ## `next_placeholder` -/

theorem nextPlaceholderLoop_eq (reserved : List Bytes) (t : Bytes) (c n fuel : Nat)
    (h : IsNext (renderPlaceholder t) reserved c n) (hfuel : n - c ≤ fuel) :
    nextPlaceholderLoop reserved t fuel c = some (renderPlaceholder t n, n) := by
  obtain ⟨hlt, hfree, htaken⟩ := h
  induction fuel generalizing c with
  | zero => omega
  | succ fuel ih =>
    unfold nextPlaceholderLoop
    by_cases hnow : n = c + 1
    · subst hnow
      simp [hfree]
    · have hmem := htaken (c + 1) (by omega) (by omega)
      simp only [List.contains_iff_mem.mpr hmem, if_true]
      exact ih (c + 1) (by omega) (by omega) fun k hk => htaken k (by omega)

/-- The state in which the counter of `t` stands at `n`. -/
def MaskerState.setCounter (st : MaskerState) (t : Bytes) (n : Nat) : MaskerState :=
  { st with placeholderCounters := fun u => if u = t then n else st.placeholderCounters u }

theorem nextPlaceholder_spec (st : MaskerState) (t : Bytes) :
    ∃ n, IsNext (renderPlaceholder t) st.reserved (st.placeholderCounters t) n ∧
      st.nextPlaceholder t = .ok (renderPlaceholder t n, st.setCounter t n) := by
  obtain ⟨n, hn, hfuel⟩ := exists_isNext (renderPlaceholder_index_injective t) st.reserved (st.placeholderCounters t)
  refine ⟨n, hn, ?_⟩
  unfold MaskerState.nextPlaceholder
  rw [nextPlaceholderLoop_eq st.reserved t _ n _ hn hfuel]
  rfl

/-! ## One request -/

/-- The state after `rule` was triggered. -/
def MaskerState.trigger (st : MaskerState) (rule : Rule) : MaskerState :=
  { st with
    seenRules := setInsert bytesLess rule.id st.seenRules
    seenDataTypes :=
      if isTriggerableDataType rule.dataType then setInsert dataTypeLess rule.dataType st.seenDataTypes
      else st.seenDataTypes }

/-- The state after the placeholder with index `n` was minted for `q`. -/
def MaskerState.mint (st : MaskerState) (q : Request) (n : Nat) : MaskerState :=
  { st.setCounter q.type n with
    originalToPlaceholder := fun o =>
      if o = q.original then some (renderPlaceholder q.type n) else st.originalToPlaceholder o
    replacements := st.replacements ++
      [⟨q.rule.id, q.rule.dataType, q.original, renderPlaceholder q.type n⟩] }

/-- Everything that serving a request can do. -/
inductive Serves (st : MaskerState) (q : Request) : Bytes → MaskerState → Prop
  | known (p : Bytes) (h : st.originalToPlaceholder q.original = some p) :
      Serves st q p (st.trigger q.rule)
  | minted (n : Nat) (h : st.originalToPlaceholder q.original = none)
      (hn : IsNext (renderPlaceholder q.type) st.reserved (st.placeholderCounters q.type) n) :
      Serves st q (renderPlaceholder q.type n) ((st.mint q n).trigger q.rule)

theorem maskOriginal_spec (st : MaskerState) (q : Request) :
    ∃ p st', st.maskOriginal q.rule q.original = .ok (p, st') ∧ Serves st q p st' := by
  unfold MaskerState.maskOriginal MaskerState.placeholderForOriginal
  cases hlookup : st.originalToPlaceholder q.original with
  | some p =>
    refine ⟨p, st.trigger q.rule, ?_, .known p hlookup⟩
    simp only [MaskerState.trigger]
    by_cases hdt : isTriggerableDataType q.rule.dataType <;> simp [hdt, bind, Except.bind]
  | none =>
    obtain ⟨n, hn, hnext⟩ := nextPlaceholder_spec st q.type
    refine ⟨_, _, ?_, .minted n hlookup hn⟩
    rw [Request.type] at hnext
    rw [hnext]
    simp only [MaskerState.trigger, MaskerState.mint]
    by_cases hdt : isTriggerableDataType q.rule.dataType <;>
      simp only [hdt, bind, Except.bind, if_true, if_false, Bool.false_eq_true] <;> rfl

/-! ## The table -/

/-- What the maps and the replacements say about each other after `served`. -/
structure TableInv (reserved : List Bytes) (served : List Request) (st : MaskerState) : Prop where
  reserved_eq : st.reserved = reserved
  table : ∀ o p, st.originalToPlaceholder o = some p ↔
    ∃ r ∈ st.replacements, r.original = o ∧ r.placeholder = p
  originals : (st.replacements.map (·.original)).Nodup
  placeholders : (st.replacements.map (·.placeholder)).Nodup
  indexes : ∀ t, mintedIndexes t st.replacements =
    freeUpTo (renderPlaceholder t) reserved (st.placeholderCounters t)
  origins : ∀ r ∈ st.replacements, ∃ q ∈ served, ∃ n, 0 < n ∧
    r = ⟨q.rule.id, q.rule.dataType, q.original, renderPlaceholder q.type n⟩
  firsts : List.Forall₂ (fun q r => r.original = q.original ∧ ∃ n, r.placeholder = renderPlaceholder q.type n)
    (firstRequests served) st.replacements

theorem firstRequests_append (served : List Request) (q : Request) : firstRequests (served ++ [q]) =
    if (firstRequests served).any (·.original = q.original) then firstRequests served else firstRequests served ++ [q] := by
  simp [firstRequests]

theorem tableInv_init (reserved : List Bytes) : TableInv reserved [] (MaskerState.init reserved) where
  reserved_eq := rfl
  table := by simp [MaskerState.init]
  originals := by simp [MaskerState.init]
  placeholders := by simp [MaskerState.init]
  indexes _ := rfl
  origins := by simp [MaskerState.init]
  firsts := .nil

theorem TableInv.not_reserved {reserved : List Bytes} {served : List Request} {st : MaskerState}
    (h : TableInv reserved served st) : ∀ r ∈ st.replacements, r.placeholder ∉ reserved := by
  intro r hr
  obtain ⟨q, -, n, -, hq⟩ := h.origins r hr
  have hplace : r.placeholder = renderPlaceholder q.type n := by rw [hq]
  have hmem : n ∈ mintedIndexes q.type st.replacements := mem_mintedIndexes.mpr ⟨r, hr, hplace⟩
  rw [h.indexes, mem_freeUpTo] at hmem
  rw [hplace]
  exact hmem.2.2

theorem TableInv.any_firsts {reserved : List Bytes} {served : List Request} {st : MaskerState}
    (h : TableInv reserved served st) (o : Bytes) :
    (firstRequests served).any (·.original = o) = true ↔ ∃ r ∈ st.replacements, r.original = o := by
  rw [List.any_eq_true]
  have hfirsts := h.firsts
  generalize firstRequests served = firsts, st.replacements = reps at hfirsts
  induction hfirsts with
  | nil => simp
  | cons hqr _ ih =>
    simp only [decide_eq_true_eq] at ih
    simp only [List.exists_mem_cons_iff, hqr.1, decide_eq_true_eq, ih]

theorem TableInv.more {reserved : List Bytes} {served : List Request} {st : MaskerState}
    (h : TableInv reserved served st) {q : Request} (hknown : ∃ r ∈ st.replacements, r.original = q.original) :
    TableInv reserved (served ++ [q]) st :=
  { h with
    origins := fun r hr =>
      let ⟨q', hq', hr'⟩ := h.origins r hr
      ⟨q', List.mem_append_left _ hq', hr'⟩
    firsts := by
      rw [firstRequests_append, if_pos ((h.any_firsts q.original).mpr hknown)]
      exact h.firsts }

theorem TableInv.trigger {reserved : List Bytes} {served : List Request} {st : MaskerState}
    (h : TableInv reserved served st) (rule : Rule) : TableInv reserved served (st.trigger rule) :=
  ⟨h.reserved_eq, h.table, h.originals, h.placeholders, h.indexes, h.origins, h.firsts⟩

theorem mintedIndexes_append_mint (t u : Bytes) (n : Nat) (rs : List Replacement) (id : Bytes)
    (dt : DataType) (o : Bytes) :
    mintedIndexes t (rs ++ [⟨id, dt, o, renderPlaceholder u n⟩]) =
      mintedIndexes t rs ++ if t = u then [n] else [] := by
  simp only [mintedIndexes, List.filterMap_append, List.filterMap_cons, List.filterMap_nil]
  congr 1
  by_cases htu : t = u
  · subst htu
    rw [placeholderIndex_eq_some.mpr rfl, if_pos rfl]
  · have hnone : placeholderIndex t (renderPlaceholder u n) = none := by
      rw [Option.eq_none_iff_forall_ne_some]
      intro m hm
      exact htu (renderPlaceholder_injective (placeholderIndex_eq_some.mp hm)).1.symm
    rw [hnone, if_neg htu]

theorem TableInv.mint {reserved : List Bytes} {served : List Request} {st : MaskerState}
    (h : TableInv reserved served st) (q : Request) (n : Nat)
    (hnew : st.originalToPlaceholder q.original = none)
    (hn : IsNext (renderPlaceholder q.type) st.reserved (st.placeholderCounters q.type) n) :
    TableInv reserved (served ++ [q]) (st.mint q n) := by
  have hfresh : ∀ r ∈ st.replacements, r.original ≠ q.original := by
    intro r hr heq
    have := (h.table q.original r.placeholder).mpr ⟨r, hr, heq, rfl⟩
    rw [hnew] at this
    cases this
  -- An index that was minted before is at most the counter.
  have hunused : ∀ r ∈ st.replacements, r.placeholder ≠ renderPlaceholder q.type n := by
    intro r hr heq
    have hmem : n ∈ mintedIndexes q.type st.replacements := mem_mintedIndexes.mpr ⟨r, hr, heq⟩
    rw [h.indexes, mem_freeUpTo] at hmem
    have := hn.1
    omega
  constructor
  · exact h.reserved_eq
  · intro o p
    by_cases ho : o = q.original
    · subst ho
      simp only [MaskerState.mint, if_true, List.mem_append, List.mem_singleton]
      constructor
      · rintro ⟨⟩
        exact ⟨_, .inr rfl, rfl, rfl⟩
      · rintro ⟨r, hr | rfl, hro, rfl⟩
        · exact absurd hro (hfresh r hr)
        · rfl
    · simp only [MaskerState.mint, if_neg ho, h.table, List.mem_append, List.mem_singleton]
      constructor
      · rintro ⟨r, hr, hrest⟩
        exact ⟨r, .inl hr, hrest⟩
      · rintro ⟨r, hr | rfl, hro, hp⟩
        · exact ⟨r, hr, hro, hp⟩
        · exact absurd hro.symm ho
  · simp only [MaskerState.mint, List.map_append, List.map_cons, List.map_nil]
    refine List.nodup_append.mpr ⟨h.originals, by simp, ?_⟩
    rintro o ho _ hq rfl
    obtain ⟨r, hr, rfl⟩ := List.mem_map.mp ho
    exact hfresh r hr (List.mem_singleton.mp hq)
  · simp only [MaskerState.mint, List.map_append, List.map_cons, List.map_nil]
    refine List.nodup_append.mpr ⟨h.placeholders, by simp, ?_⟩
    rintro p hp _ hq rfl
    obtain ⟨r, hr, rfl⟩ := List.mem_map.mp hp
    exact hunused r hr (List.mem_singleton.mp hq)
  · intro t
    simp only [MaskerState.mint, MaskerState.setCounter, mintedIndexes_append_mint, h.indexes]
    by_cases ht : t = q.type
    · subst ht
      rw [if_pos rfl, if_pos rfl]
      exact (freeUpTo_next (h.reserved_eq ▸ hn)).symm
    · rw [if_neg ht, if_neg ht, List.append_nil]
  · intro r hr
    simp only [MaskerState.mint, List.mem_append, List.mem_singleton] at hr
    rcases hr with hr | rfl
    · obtain ⟨q', hq', hr'⟩ := h.origins r hr
      exact ⟨q', List.mem_append_left _ hq', hr'⟩
    · exact ⟨q, by simp, n, by have := hn.1; omega, rfl⟩
  · rw [firstRequests_append, if_neg fun hany => ?_]
    · exact List.rel_append h.firsts (.cons ⟨rfl, n, rfl⟩ .nil)
    · obtain ⟨r, hr, hro⟩ := (h.any_firsts q.original).mp hany
      exact hfresh r hr hro

/-! ## The triggered sets -/

structure TriggerInv (served : List Request) (st : MaskerState) : Prop where
  rules_sorted : st.seenRules.Pairwise fun a b => bytesLess a b
  rules_exact : ∀ id, id ∈ st.seenRules ↔ ∃ q ∈ served, q.rule.id = id
  dataTypes_sorted : st.seenDataTypes.Pairwise fun a b => dataTypeLess a b
  dataTypes_exact : ∀ dt, dt ∈ st.seenDataTypes ↔
    isTriggerableDataType dt ∧ ∃ q ∈ served, q.rule.dataType = dt

theorem triggerInv_init (reserved : List Bytes) : TriggerInv [] (MaskerState.init reserved) := by
  constructor <;> simp [MaskerState.init]

theorem TriggerInv.mint {served : List Request} {st : MaskerState} (h : TriggerInv served st)
    (q : Request) (n : Nat) : TriggerInv served (st.mint q n) :=
  ⟨h.rules_sorted, h.rules_exact, h.dataTypes_sorted, h.dataTypes_exact⟩

theorem TriggerInv.trigger {served : List Request} {st : MaskerState} (h : TriggerInv served st)
    (q : Request) : TriggerInv (served ++ [q]) (st.trigger q.rule) := by
  have hlast : ∀ P : Request → Prop, (∃ r ∈ served ++ [q], P r) ↔ P q ∨ ∃ r ∈ served, P r := by
    intro P
    simp only [List.mem_append, List.mem_singleton, or_and_right, exists_or, exists_eq_left]
    exact or_comm
  constructor
  · exact setInsert_sorted bytesLess_total bytesLess_trans _ _ h.rules_sorted
  · intro id
    rw [hlast, ← h.rules_exact, eq_comm]
    exact mem_setInsert bytesLess_total _ _ _
  · simp only [MaskerState.trigger]
    split
    · exact setInsert_sorted dataTypeLess_total dataTypeLess_trans _ _ h.dataTypes_sorted
    · exact h.dataTypes_sorted
  · intro dt
    have hold := h.dataTypes_exact dt
    simp only [MaskerState.trigger]
    rw [hlast]
    split
    · rename_i htrig
      rw [mem_setInsert dataTypeLess_total, hold]
      constructor
      · rintro (rfl | ⟨hdt, hr⟩)
        · exact ⟨htrig, .inl rfl⟩
        · exact ⟨hdt, .inr hr⟩
      · rintro ⟨hdt, rfl | hr⟩
        · exact .inl rfl
        · exact .inr ⟨hdt, hr⟩
    · rename_i htrig
      rw [hold]
      constructor
      · rintro ⟨hdt, hr⟩
        exact ⟨hdt, .inr hr⟩
      · rintro ⟨hdt, rfl | hr⟩
        · exact absurd hdt htrig
        · exact ⟨hdt, hr⟩

/-! ## Many requests -/

/-- One request after the other, each with the placeholder that it got. -/
inductive ServesAll : MaskerState → List Request → List Bytes → MaskerState → Prop
  | nil (st : MaskerState) : ServesAll st [] [] st
  | cons {st st' st'' : MaskerState} {q : Request} {p : Bytes} {qs : List Request} {ps : List Bytes}
      (head : Serves st q p st') (tail : ServesAll st' qs ps st'') : ServesAll st (q :: qs) (p :: ps) st''

theorem ServesAll.length {st st' : MaskerState} {qs : List Request} {ps : List Bytes} (h : ServesAll st qs ps st') :
    ps.length = qs.length := by
  induction h with
  | nil st => rfl
  | cons _ _ ih => simp [ih]

/-- What a step keeps: both invariants, and every replacement that was there before. -/
theorem serves_inv {reserved : List Bytes} {served : List Request} {st st' : MaskerState} {q : Request}
    {p : Bytes} (h : Serves st q p st') (ht : TableInv reserved served st) (hg : TriggerInv served st) :
    TableInv reserved (served ++ [q]) st' ∧ TriggerInv (served ++ [q]) st' ∧
      st.replacements <+: st'.replacements ∧ Recorded st'.replacements q p := by
  cases h with
  | known _ hknown =>
    have hrec := (ht.table q.original p).mp hknown
    exact ⟨(ht.more (hrec.imp fun _ h => ⟨h.1, h.2.1⟩)).trigger q.rule, hg.trigger q, List.prefix_refl _, hrec⟩
  | minted n hnew hn =>
    refine ⟨(ht.mint q n hnew hn).trigger q.rule, (hg.mint q n).trigger q, List.prefix_append _ _, ?_⟩
    exact ⟨⟨q.rule.id, q.rule.dataType, q.original, _⟩,
      List.mem_append_right _ (List.mem_singleton.mpr rfl), rfl, rfl⟩

theorem Recorded.mono {rs rs' : List Replacement} {q : Request} {p : Bytes} (h : Recorded rs q p)
    (hle : rs <+: rs') : Recorded rs' q p := by
  obtain ⟨r, hr, hrest⟩ := h
  exact ⟨r, hle.subset hr, hrest⟩

theorem servesAll_inv {reserved : List Bytes} {served qs : List Request} {st st' : MaskerState}
    {ps : List Bytes} (h : ServesAll st qs ps st') (ht : TableInv reserved served st)
    (hg : TriggerInv served st) :
    TableInv reserved (served ++ qs) st' ∧ TriggerInv (served ++ qs) st' ∧
      st.replacements <+: st'.replacements ∧ List.Forall₂ (Recorded st'.replacements) qs ps := by
  induction h generalizing served with
  | nil st => exact ⟨by simpa using ht, by simpa using hg, List.prefix_refl _, .nil⟩
  | cons head _ ih =>
    obtain ⟨ht', hg', hle, hrec⟩ := serves_inv head ht hg
    obtain ⟨ht'', hg'', hle', hrecs⟩ := ih ht' hg'
    rw [List.append_assoc] at ht'' hg''
    exact ⟨ht'', hg'', hle.trans hle', .cons (hrec.mono hle') hrecs⟩

/-! ## `mask_text` -/

theorem substr_tail (s : Bytes) (pos : Nat) (h : pos ≤ s.length) :
    substr s pos s.length = .ok (s.drop pos) := by
  rw [substr_ok s pos _ h, List.take_of_length_le (by simp)]

theorem substr_gap (s : Bytes) (pos start : Nat) (hle : pos ≤ start) (h : start ≤ s.length) :
    substr s pos (start - pos) = .ok (slice s pos start) := by
  rw [substr_ok s pos _ (by omega), slice]

theorem requestOf_eq_none {text : Bytes} {m : ScanMatch} {cr : CompiledRule} (hr : m.rule = some cr)
    (h : ((slice text m.start m.stop).isEmpty || cr.rule.masking.placeholder.isEmpty) = true) :
    requestOf text m = none := by
  simp only [Bool.or_eq_true, List.isEmpty_iff] at h
  simp only [requestOf, hr, if_pos h]

theorem requestOf_eq_some {text : Bytes} {m : ScanMatch} {cr : CompiledRule} (hr : m.rule = some cr)
    (h : ¬ ((slice text m.start m.stop).isEmpty || cr.rule.masking.placeholder.isEmpty) = true) :
    requestOf text m = some ⟨cr.rule, slice text m.start m.stop⟩ := by
  simp only [Bool.or_eq_true, List.isEmpty_iff] at h
  simp only [requestOf, hr, if_neg h]

theorem requests_cons (text : Bytes) (m : ScanMatch) (ms : List ScanMatch) :
    requests text (m :: ms) = (requestOf text m).toList ++ requests text ms := by
  unfold requests
  cases h : requestOf text m <;> simp [h]

theorem replacedMatches_cons (text : Bytes) (m : ScanMatch) (ms : List ScanMatch) :
    replacedMatches text (m :: ms) =
      if (requestOf text m).isSome then m :: replacedMatches text ms else replacedMatches text ms := by
  rw [replacedMatches, List.filter_cons]
  rfl

theorem maskLoop_spec (text : Bytes) (ms : List ScanMatch) (pos : Nat) (out : Bytes) (st : MaskerState)
    (hord : Ordered text.length pos (ms.map ScanMatch.span)) (hrule : ∀ m ∈ ms, m.rule.isSome) :
    ∃ ps st', ServesAll st (requests text ms) ps st' ∧
      MaskerState.maskLoop text ms pos out st =
        .ok (out ++ weave (gaps text pos ((replacedMatches text ms).map ScanMatch.span)) ps, st') := by
  induction ms generalizing pos out st with
  | nil =>
    refine ⟨[], st, .nil st, ?_⟩
    unfold MaskerState.maskLoop
    rw [substr_tail text pos hord.pos_le]
    simp [replacedMatches, bind, Except.bind]
  | cons m ms ih =>
    obtain ⟨hpos, hlen, hrest⟩ : pos ≤ m.start ∧ m.start ≤ m.stop ∧
      Ordered text.length m.stop (ms.map ScanMatch.span) := hord
    have hstop := hrest.pos_le
    have hrules := fun m' hm' => hrule m' (List.mem_cons_of_mem _ hm')
    obtain ⟨cr, hcr⟩ := Option.isSome_iff_exists.mp (hrule m List.mem_cons_self)
    unfold MaskerState.maskLoop
    rw [hcr]
    simp only [if_neg (Nat.not_lt.mpr hpos), substr_slice text m.start m.stop hlen hstop, bind, Except.bind]
    by_cases hskip : ((slice text m.start m.stop).isEmpty || cr.rule.masking.placeholder.isEmpty) = true
    · -- Nothing is written, and the cursor stays.
      have hnone := requestOf_eq_none hcr hskip
      obtain ⟨ps, st', hserve, heq⟩ := ih pos out st (hrest.mono (by omega)) hrules
      refine ⟨ps, st', ?_, ?_⟩
      · rwa [requests_cons, hnone]
      · rw [if_pos hskip, replacedMatches_cons, hnone]
        exact heq
    · have hsome := requestOf_eq_some hcr hskip
      obtain ⟨p, st₁, hmask, hserve₁⟩ := maskOriginal_spec st ⟨cr.rule, slice text m.start m.stop⟩
      obtain ⟨ps, st', hserve, heq⟩ := ih m.stop (out ++ slice text pos m.start ++ p) st₁ hrest hrules
      refine ⟨p :: ps, st', ?_, ?_⟩
      · rw [requests_cons, hsome]
        exact .cons hserve₁ hserve
      · have hmask : st.maskOriginal cr.rule (slice text m.start m.stop) = .ok (p, st₁) := hmask
        simp only [if_neg hskip, hmask, substr_gap text pos m.start hpos (by omega), heq]
        rw [replacedMatches_cons, hsome]
        simp [ScanMatch.span, Splice.gaps]

theorem maskText_spec (st : MaskerState) (c : Call) :
    ∃ ps st', ServesAll st c.requests ps st' ∧ st.maskText c.text c.ms = .ok (weave c.gaps ps, st') := by
  unfold MaskerState.maskText
  by_cases hms : c.ms = []
  · refine ⟨[], st, ?_, ?_⟩
    · simpa only [Call.requests, requests, hms] using .nil st
    · simp [Call.gaps, Call.spans, replacedMatches, hms]
  · obtain ⟨ps, st', hserve, heq⟩ := maskLoop_spec c.text c.ms 0 [] st c.ordered c.ruled
    refine ⟨ps, st', hserve, ?_⟩
    rw [if_neg (by simpa using hms), heq]
    rfl

/-! ## A whole request -/

/-- One `mask_text` after the other, with the output of each. -/
inductive Masks : MaskerState → List Call → List Bytes → MaskerState → Prop
  | nil (st : MaskerState) : Masks st [] [] st
  | cons {st st' st'' : MaskerState} {c : Call} {ps : List Bytes} {cs : List Call} {outs : List Bytes}
      (head : ServesAll st c.requests ps st') (tail : Masks st' cs outs st'') :
      Masks st (c :: cs) (weave c.gaps ps :: outs) st''

theorem maskAll_spec (st : MaskerState) (cs : List Call) :
    ∃ outs st', Masks st cs outs st' ∧ st.maskAll (cs.map Call.args) = .ok (outs, st') := by
  induction cs generalizing st with
  | nil => exact ⟨[], st, .nil st, rfl⟩
  | cons c cs ih =>
    obtain ⟨ps, st₁, hserve, htext⟩ := maskText_spec st c
    obtain ⟨outs, st', hmasks, hall⟩ := ih st₁
    refine ⟨weave c.gaps ps :: outs, st', .cons hserve hmasks, ?_⟩
    simp only [List.map_cons, Call.args, MaskerState.maskAll, htext, bind, Except.bind] at hall ⊢
    rw [hall]

theorem masks_inv {reserved : List Bytes} {served : List Request} {st st' : MaskerState} {cs : List Call}
    {outs : List Bytes} (h : Masks st cs outs st') (ht : TableInv reserved served st)
    (hg : TriggerInv served st) :
    TableInv reserved (served ++ cs.flatMap Call.requests) st' ∧
      TriggerInv (served ++ cs.flatMap Call.requests) st' ∧
      st.replacements <+: st'.replacements ∧
      List.Forall₂ (WritesRecorded st'.replacements) cs outs := by
  induction h generalizing served with
  | nil st => exact ⟨by simpa using ht, by simpa using hg, List.prefix_refl _, .nil⟩
  | cons head _ ih =>
    obtain ⟨ht', hg', hle, hrec⟩ := servesAll_inv head ht hg
    obtain ⟨ht'', hg'', hle', houts⟩ := ih ht' hg'
    rw [List.append_assoc] at ht'' hg''
    refine ⟨ht'', hg'', hle.trans hle', .cons ⟨_, rfl, ?_⟩ houts⟩
    exact hrec.imp fun _ _ h => h.mono hle'

theorem maskPhase_spec (calls : List Call) :
    ∃ outs st, maskPhase (calls.map Call.args) =
        .ok ⟨outs, st.triggeredRules, st.triggeredDataTypes, st.replacements⟩ ∧
      TableInv (reservedPlaceholders (calls.map Call.text)) (calls.flatMap Call.requests) st ∧
      TriggerInv (calls.flatMap Call.requests) st ∧
      List.Forall₂ (WritesRecorded st.replacements) calls outs := by
  obtain ⟨outs, st, hmasks, hall⟩ :=
    maskAll_spec (MaskerState.init (reservedPlaceholders (calls.map Call.text))) calls
  obtain ⟨ht, hg, -, houts⟩ := masks_inv hmasks (tableInv_init _) (triggerInv_init _)
  rw [List.nil_append] at ht hg
  have htexts : (calls.map Call.args).map (·.1) = calls.map Call.text := by
    rw [List.map_map]
    rfl
  refine ⟨outs, st, ?_, ht, hg, houts⟩
  unfold maskPhase
  rw [htexts, hall]
  rfl

/-- Any calls on a fresh state succeed and leave it lawful, and the next placeholder is always found. -/
theorem maskAll_lawful (reserved : List Bytes) (calls : List Call) :
    ∃ outs st, (MaskerState.init reserved).maskAll (calls.map Call.args) = .ok (outs, st) ∧
      MaskingLaw reserved calls outs st ∧
      ∀ type, ∃ placeholder st', st.nextPlaceholder type = .ok (placeholder, st') := by
  obtain ⟨outs, st, hmasks, hall⟩ := maskAll_spec (MaskerState.init reserved) calls
  obtain ⟨ht, hg, -, houts⟩ := masks_inv hmasks (tableInv_init reserved) (triggerInv_init reserved)
  rw [List.nil_append] at ht hg
  refine ⟨outs, st, hall, ?_, ?_⟩
  · exact {
      originals_distinct := ht.originals
      placeholders_distinct := ht.placeholders
      never_reserved := ht.not_reserved
      indexes := fun type => ⟨_, ht.indexes type⟩
      origins := ht.origins
      outputs := houts
      rules_sorted := hg.rules_sorted.imp fun h => by simpa [bytesLess] using h
      rules_exact := hg.rules_exact
      dataTypes_sorted := hg.dataTypes_sorted.imp fun h => by simpa [dataTypeLess] using h
      dataTypes_exact := hg.dataTypes_exact }
  · intro type
    obtain ⟨n, -, hnext⟩ := nextPlaceholder_spec st type
    exact ⟨_, _, hnext⟩

end LlmGuard
