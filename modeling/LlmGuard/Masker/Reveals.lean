import LlmGuard.Masker.Proofs
import LlmGuard.Spec.Sample

/-!
# What masked texts reveal

Two runs whose secrets are equal at the same places cannot be told apart: the states move in lock-step,
although their keys differ.
-/

namespace LlmGuard

open Splice Fresh

namespace Call

/-- The bytes of every match. -/
def originals (c : Call) : List Bytes := c.ms.map fun m => slice c.text m.start m.stop

/-- The placeholder type of every match. -/
def types (c : Call) : List (Option Bytes) := c.ms.map fun m => m.rule.map (·.rule.masking.placeholder)

end Call

/-- Equally many matches of the same types, and equal bytes between them. -/
structure SameShape (c d : Call) : Prop where
  between : Splice.gaps c.text 0 (c.ms.map ScanMatch.span) = Splice.gaps d.text 0 (d.ms.map ScanMatch.span)
  types : c.types = d.types
  typed : ∀ t ∈ c.types, t ≠ some []

/-! ## Every match is replaced -/

theorem requests_of_nonempty (c : Call) (horig : ∀ o ∈ c.originals, o ≠ []) (htype : ∀ t ∈ c.types, t ≠ some []) :
    c.requests.map Request.original = c.originals ∧ c.requests.map (fun q => some q.type) = c.types ∧
      replacedMatches c.text c.ms = c.ms := by
  obtain ⟨text, ms, hord, hruled⟩ := c
  simp only [Call.originals, Call.types, List.forall_mem_map] at horig htype
  simp only [Call.requests, Call.originals, Call.types, requests, replacedMatches]
  clear hord
  induction ms with
  | nil => simp
  | cons m ms ih =>
    obtain ⟨cr, hcr⟩ := Option.isSome_iff_exists.mp (hruled m List.mem_cons_self)
    have ho := horig m List.mem_cons_self
    have ht := htype m List.mem_cons_self
    have hsome : requestOf text m = some ⟨cr.rule, slice text m.start m.stop⟩ := by
      apply requestOf_eq_some hcr
      simpa [hcr, ho] using ht
    obtain ⟨h1, h2, h3⟩ := ih (fun m' hm' => hruled m' (List.mem_cons_of_mem _ hm'))
      (fun m' hm' => horig m' (List.mem_cons_of_mem _ hm')) (fun m' hm' => htype m' (List.mem_cons_of_mem _ hm'))
    simp only [List.filterMap_cons, hsome, List.map_cons, h1, h2, hcr, Option.map_some, List.filter_cons,
      Option.isSome_some, if_true, h3]
    exact ⟨trivial, rfl, trivial⟩

/-! ## Lock-step -/

/-- The two runs after the requests whose originals are paired in `seen`. -/
structure Lockstep (seen : List (Bytes × Bytes)) (st st' : MaskerState) : Prop where
  reserved : st.reserved = st'.reserved
  counters : st.placeholderCounters = st'.placeholderCounters
  lookup : ∀ a ∈ seen, st.originalToPlaceholder a.1 = st'.originalToPlaceholder a.2
  known : ∀ o, st.originalToPlaceholder o ≠ none ↔ ∃ a ∈ seen, a.1 = o
  known' : ∀ o, st'.originalToPlaceholder o ≠ none ↔ ∃ a ∈ seen, a.2 = o
  minted : st.replacements.map (·.placeholder) = st'.replacements.map (·.placeholder)

/-- The pairs agree on which of their sides are equal. -/
def SamePattern (pairs : List (Bytes × Bytes)) : Prop :=
  ∀ a ∈ pairs, ∀ b ∈ pairs, a.1 = b.1 ↔ a.2 = b.2

theorem lockstep_init (reserved : List Bytes) :
    Lockstep [] (MaskerState.init reserved) (MaskerState.init reserved) := by
  constructor <;> simp [MaskerState.init]

theorem lockstep_known {seen : List (Bytes × Bytes)} {st st' : MaskerState} (h : Lockstep seen st st')
    {o o' : Bytes} (hpat : SamePattern (seen ++ [(o, o')])) :
    st.originalToPlaceholder o = none ↔ st'.originalToPlaceholder o' = none := by
  rw [← not_iff_not]
  change st.originalToPlaceholder o ≠ none ↔ st'.originalToPlaceholder o' ≠ none
  rw [h.known, h.known']
  have hlast : (o, o') ∈ seen ++ [(o, o')] := by simp
  constructor
  · rintro ⟨a, ha, hao⟩
    exact ⟨a, ha, (hpat a (List.mem_append_left _ ha) _ hlast).mp hao⟩
  · rintro ⟨a, ha, hao⟩
    exact ⟨a, ha, (hpat a (List.mem_append_left _ ha) _ hlast).mpr hao⟩

/-- Serving an original that is already known changes nothing that the other run can see. -/
theorem Lockstep.trigger {seen : List (Bytes × Bytes)} {st st' : MaskerState} (h : Lockstep seen st st')
    (rule rule' : Rule) : Lockstep seen (st.trigger rule) (st'.trigger rule') :=
  ⟨h.reserved, h.counters, h.lookup, h.known, h.known', h.minted⟩

theorem Lockstep.known_step {seen : List (Bytes × Bytes)} {st st' : MaskerState} (h : Lockstep seen st st')
    {o o' : Bytes} (ho : ∃ a ∈ seen, a = (o, o')) : Lockstep (seen ++ [(o, o')]) st st' := by
  obtain ⟨a, ha, rfl⟩ := ho
  have hmem : ∀ x, x ∈ seen ++ [(o, o')] ↔ x ∈ seen := by
    intro x
    simp only [List.mem_append, List.mem_singleton]
    exact ⟨fun hx => hx.elim id (fun hx => hx ▸ ha), .inl⟩
  refine ⟨h.reserved, h.counters, ?_, ?_, ?_, h.minted⟩
  · intro x hx
    exact h.lookup x ((hmem x).mp hx)
  · simpa only [hmem] using h.known
  · simpa only [hmem] using h.known'

theorem Lockstep.mint_step {seen : List (Bytes × Bytes)} {st st' : MaskerState} (h : Lockstep seen st st')
    {q q' : Request} (htype : q.type = q'.type) (n : Nat)
    (hpat : SamePattern (seen ++ [(q.original, q'.original)])) :
    Lockstep (seen ++ [(q.original, q'.original)]) (st.mint q n) (st'.mint q' n) := by
  have hlast : (q.original, q'.original) ∈ seen ++ [(q.original, q'.original)] := by simp
  refine ⟨h.reserved, ?_, ?_, ?_, ?_, ?_⟩
  · simp only [MaskerState.mint, MaskerState.setCounter, h.counters, htype]
  · intro a ha
    have hiff := hpat a ha _ hlast
    by_cases hao : a.1 = q.original
    · simp only [MaskerState.mint, if_pos hao, if_pos (hiff.mp hao), htype]
    · have hseen : a ∈ seen := by
        rcases List.mem_append.mp ha with ha | ha
        · exact ha
        · exact absurd (List.mem_singleton.mp ha ▸ rfl) hao
      simp only [MaskerState.mint, if_neg hao, if_neg (mt hiff.mpr hao)]
      exact h.lookup a hseen
  · intro o
    by_cases ho : o = q.original
    · simp [MaskerState.mint, ho]
    · simp [MaskerState.mint, ho, h.known, Ne.symm ho]
  · intro o
    by_cases ho : o = q'.original
    · simp [MaskerState.mint, ho]
    · simp [MaskerState.mint, ho, h.known', Ne.symm ho]
  · simp only [MaskerState.mint, List.map_append, List.map_cons, List.map_nil, h.minted, htype]

theorem lockstep_step {seen : List (Bytes × Bytes)} {st st' st₁ st₁' : MaskerState} {q q' : Request}
    {p p' : Bytes} (h : Lockstep seen st st') (hs : Serves st q p st₁) (hs' : Serves st' q' p' st₁')
    (htype : q.type = q'.type) (hpat : SamePattern (seen ++ [(q.original, q'.original)])) :
    p = p' ∧ Lockstep (seen ++ [(q.original, q'.original)]) st₁ st₁' := by
  have hnone := lockstep_known h hpat
  cases hs with
  | known _ hp =>
    cases hs' with
    | known _ hp' =>
      obtain ⟨a, ha, hao⟩ := (h.known q.original).mp (by simp [hp])
      have hlast : (q.original, q'.original) ∈ seen ++ [(q.original, q'.original)] := by simp
      have hao' := (hpat a (List.mem_append_left _ ha) _ hlast).mp hao
      have hpair : a = (q.original, q'.original) := Prod.ext hao hao'
      have hlookup := h.lookup a ha
      rw [hpair, hp, hp'] at hlookup
      exact ⟨Option.some.inj hlookup, (h.known_step ⟨a, ha, hpair⟩).trigger _ _⟩
    | minted n hnew => simp [hnone.mpr hnew] at hp
  | minted n hnew hn =>
    cases hs' with
    | known _ hp' => simp [hnone.mp hnew] at hp'
    | minted n' _ hn' =>
      rw [← htype, ← h.reserved, ← h.counters] at hn'
      obtain rfl := hn.unique hn'
      exact ⟨by rw [htype], (h.mint_step htype n hpat).trigger _ _⟩

theorem SamePattern.front {xs ys : List (Bytes × Bytes)} (h : SamePattern (xs ++ ys)) : SamePattern xs :=
  fun a ha b hb => h a (List.mem_append_left _ ha) b (List.mem_append_left _ hb)

theorem lockstep_run {seen : List (Bytes × Bytes)} {st st' st₁ st₁' : MaskerState} {qs qs' : List Request}
    {ps ps' : List Bytes} (h : Lockstep seen st st') (hs : ServesAll st qs ps st₁)
    (hs' : ServesAll st' qs' ps' st₁') (htype : qs.map Request.type = qs'.map Request.type)
    (hpat : SamePattern (seen ++ (qs.map Request.original).zip (qs'.map Request.original))) :
    ps = ps' ∧
      Lockstep (seen ++ (qs.map Request.original).zip (qs'.map Request.original)) st₁ st₁' := by
  induction hs generalizing seen st' qs' ps' with
  | nil st =>
    cases hs' with
    | nil => exact ⟨rfl, by simpa using h⟩
    | cons => simp at htype
  | cons head _ ih =>
    cases hs' with
    | nil => simp at htype
    | cons head' tail' =>
      simp only [List.map_cons, List.cons.injEq, List.zip_cons_cons] at htype hpat ⊢
      rw [List.append_cons] at hpat ⊢
      obtain ⟨rfl, hstep⟩ := lockstep_step h head head' htype.1 hpat.front
      obtain ⟨rfl, hrun⟩ := ih hstep tail' htype.2 hpat
      exact ⟨⟨rfl, rfl⟩, hrun⟩

theorem lockstep_masks {seen : List (Bytes × Bytes)} {st st' st₁ st₁' : MaskerState} {cs ds : List Call}
    {outs outs' : List Bytes} (h : Lockstep seen st st') (hm : Masks st cs outs st₁)
    (hm' : Masks st' ds outs' st₁') (hshape : List.Forall₂ SameShape cs ds)
    (horig : ∀ c ∈ cs, ∀ o ∈ c.originals, o ≠ []) (horig' : ∀ d ∈ ds, ∀ o ∈ d.originals, o ≠ [])
    (hpat : SamePattern (seen ++ (cs.flatMap Call.originals).zip (ds.flatMap Call.originals))) :
    outs = outs' ∧ st₁.replacements.map (·.placeholder) = st₁'.replacements.map (·.placeholder) := by
  induction hm generalizing seen st' ds outs' with
  | nil st =>
    cases hshape
    cases hm'
    exact ⟨rfl, h.minted⟩
  | @cons _ _ _ c _ _ _ head _ ih =>
    cases hshape with
    | @cons _ d _ _ hcd hrest =>
      cases hm' with
      | cons head' tail' =>
        have htyped : ∀ t ∈ d.types, t ≠ some [] := hcd.types ▸ hcd.typed
        obtain ⟨ho, ht, hms⟩ := requests_of_nonempty c (horig c List.mem_cons_self) hcd.typed
        obtain ⟨ho', ht', hms'⟩ := requests_of_nonempty d (horig' d List.mem_cons_self) htyped
        have htypes : c.requests.map Request.type = d.requests.map Request.type := by
          have hsome : (c.requests.map Request.type).map some = (d.requests.map Request.type).map some := by
            rw [List.map_map, List.map_map]
            exact ht.trans (hcd.types.trans ht'.symm)
          exact List.map_injective_iff.mpr (fun _ _ => Option.some.inj) hsome
        have hlen : c.originals.length = d.originals.length := by
          rw [← ho, ← ho', List.length_map, List.length_map]
          simpa using congrArg List.length htypes
        have hgaps : c.gaps = d.gaps := by
          simpa only [Call.gaps, Call.spans, hms, hms'] using hcd.between
        rw [List.flatMap_cons, List.flatMap_cons, List.zip_append hlen, ← List.append_assoc] at hpat
        rw [← ho, ← ho'] at hpat
        obtain ⟨rfl, hstep⟩ := lockstep_run h head head' htypes hpat.front
        obtain ⟨rfl, hminted⟩ := ih hstep tail' hrest (fun c hc => horig c (List.mem_cons_of_mem _ hc))
          (fun d hd => horig' d (List.mem_cons_of_mem _ hd)) hpat
        exact ⟨by rw [hgaps], hminted⟩

/-- Only the places, the types and the equality of the secrets show in the masked texts. -/
theorem maskAll_reveals (reserved : List Bytes) (cs ds : List Call) (hshape : List.Forall₂ SameShape cs ds)
    (horig : ∀ c ∈ cs, ∀ o ∈ c.originals, o ≠ []) (horig' : ∀ d ∈ ds, ∀ o ∈ d.originals, o ≠ [])
    (hequal : ∀ j k : Nat, (cs.flatMap Call.originals)[j]? = (cs.flatMap Call.originals)[k]? ↔
      (ds.flatMap Call.originals)[j]? = (ds.flatMap Call.originals)[k]?) :
    ∃ outs st st', (MaskerState.init reserved).maskAll (cs.map Call.args) = .ok (outs, st) ∧
      (MaskerState.init reserved).maskAll (ds.map Call.args) = .ok (outs, st') ∧
      st.replacements.map (·.placeholder) = st'.replacements.map (·.placeholder) := by
  obtain ⟨outs, st, hmasks, hall⟩ := maskAll_spec (MaskerState.init reserved) cs
  obtain ⟨outs', st', hmasks', hall'⟩ := maskAll_spec (MaskerState.init reserved) ds
  have hpat : SamePattern ([] ++ (cs.flatMap Call.originals).zip (ds.flatMap Call.originals)) := by
    intro a ha b hb
    obtain ⟨j, hj⟩ := List.mem_iff_getElem?.mp ha
    obtain ⟨k, hk⟩ := List.mem_iff_getElem?.mp hb
    rw [List.nil_append, List.getElem?_zip_eq_some] at hj hk
    have := hequal j k
    rwa [hj.1, hj.2, hk.1, hk.2, Option.some_inj, Option.some_inj] at this
  obtain ⟨rfl, hminted⟩ := lockstep_masks (lockstep_init reserved) hmasks hmasks' hshape horig horig' hpat
  exact ⟨outs, st, st', hall, hall', hminted⟩

/-- Two texts with the same shape: the first and the last secret are equal, the other one differs. -/
theorem maskAll_reveals_sample :
    ∃ outs st st',
      (MaskerState.init [ascii "<EMAIL_1>"]).maskAll
        [(ascii "to ann, cc bob", [⟨3, 6, sampleCompiled "r" "" "EMAIL"⟩, ⟨11, 14, sampleCompiled "r" "" "EMAIL"⟩]),
          (ascii "ann", [⟨0, 3, sampleCompiled "s" "" "EMAIL"⟩])] = .ok (outs, st) ∧
      (MaskerState.init [ascii "<EMAIL_1>"]).maskAll
        [(ascii "to eva, cc joe", [⟨3, 6, sampleCompiled "t" "" "EMAIL"⟩, ⟨11, 14, sampleCompiled "r" "" "EMAIL"⟩]),
          (ascii "eva", [⟨0, 3, sampleCompiled "r" "" "EMAIL"⟩])] = .ok (outs, st') ∧
      st.replacements.map (·.placeholder) = st'.replacements.map (·.placeholder) := by
  refine maskAll_reveals [ascii "<EMAIL_1>"]
    [⟨ascii "to ann, cc bob", [⟨3, 6, sampleCompiled "r" "" "EMAIL"⟩, ⟨11, 14, sampleCompiled "r" "" "EMAIL"⟩],
        by decide, by decide⟩, ⟨ascii "ann", [⟨0, 3, sampleCompiled "s" "" "EMAIL"⟩], by decide, by decide⟩]
    [⟨ascii "to eva, cc joe", [⟨3, 6, sampleCompiled "t" "" "EMAIL"⟩, ⟨11, 14, sampleCompiled "r" "" "EMAIL"⟩],
        by decide, by decide⟩, ⟨ascii "eva", [⟨0, 3, sampleCompiled "r" "" "EMAIL"⟩], by decide, by decide⟩]
    (.cons ⟨by decide, by decide, by decide⟩ (.cons ⟨by decide, by decide, by decide⟩ .nil))
    (by decide) (by decide) ?_
  intro j k
  rcases j with _ | _ | _ | j <;> rcases k with _ | _ | _ | k <;>
    simp [Call.originals, slice, ascii, ch]

end LlmGuard
