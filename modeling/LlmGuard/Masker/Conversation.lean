import LlmGuard.Masker.Reserved
import LlmGuard.Masker.Texts
import LlmGuard.Spec.Sample

/-!
# Masking a conversation that grows

Every turn sends the whole conversation again, masked from scratch. The masked history stays what it was, unless a new
text quotes one of its placeholders.
-/

namespace LlmGuard

open Splice Fresh

/-! ## A step has one outcome -/

theorem Serves.unique {st st₁ st₂ : MaskerState} {q : Request} {p₁ p₂ : Bytes} (h₁ : Serves st q p₁ st₁)
    (h₂ : Serves st q p₂ st₂) : p₁ = p₂ ∧ st₁ = st₂ := by
  cases h₁ with
  | known _ hp₁ =>
    cases h₂ with
    | known _ hp₂ => exact ⟨Option.some.inj (hp₁.symm.trans hp₂), rfl⟩
    | minted n hnew _ => exact absurd (hp₁.symm.trans hnew) (by simp)
  | minted m hnew hm =>
    cases h₂ with
    | known _ hp₂ => exact absurd (hp₂.symm.trans hnew) (by simp)
    | minted n _ hn =>
      obtain rfl := hm.unique hn
      exact ⟨rfl, rfl⟩

theorem ServesAll.unique {st st₁ st₂ : MaskerState} {qs : List Request} {ps₁ ps₂ : List Bytes}
    (h₁ : ServesAll st qs ps₁ st₁) (h₂ : ServesAll st qs ps₂ st₂) : ps₁ = ps₂ ∧ st₁ = st₂ := by
  induction h₁ generalizing ps₂ with
  | nil st =>
    cases h₂
    exact ⟨rfl, rfl⟩
  | cons head _ ih =>
    cases h₂ with
    | cons head' tail' =>
      obtain ⟨rfl, rfl⟩ := head.unique head'
      obtain ⟨rfl, rfl⟩ := ih tail'
      exact ⟨rfl, rfl⟩

theorem Masks.unique {st st₁ st₂ : MaskerState} {cs : List Call} {outs₁ outs₂ : List Bytes}
    (h₁ : Masks st cs outs₁ st₁) (h₂ : Masks st cs outs₂ st₂) : outs₁ = outs₂ ∧ st₁ = st₂ := by
  induction h₁ generalizing outs₂ with
  | nil st =>
    cases h₂
    exact ⟨rfl, rfl⟩
  | cons head _ ih =>
    cases h₂ with
    | cons head' tail' =>
      obtain ⟨rfl, rfl⟩ := head.unique head'
      obtain ⟨rfl, rfl⟩ := ih tail'
      exact ⟨rfl, rfl⟩

theorem Masks.append {st st₁ st₂ : MaskerState} {cs ds : List Call} {outs outs' : List Bytes}
    (h₁ : Masks st cs outs st₁) (h₂ : Masks st₁ ds outs' st₂) : Masks st (cs ++ ds) (outs ++ outs') st₂ := by
  induction h₁ with
  | nil st => exact h₂
  | cons head _ ih => exact .cons head (ih h₂)

theorem Masks.maskAll {st st' : MaskerState} {cs : List Call} {outs : List Bytes} (h : Masks st cs outs st') :
    st.maskAll (cs.map Call.args) = .ok (outs, st') := by
  obtain ⟨outs', st₁, hmasks, hall⟩ := maskAll_spec st cs
  obtain ⟨rfl, rfl⟩ := h.unique hmasks
  exact hall

/-! ## The replacements only grow -/

theorem Serves.grows {st st' : MaskerState} {q : Request} {p : Bytes} (h : Serves st q p st') :
    st.replacements <+: st'.replacements := by
  cases h with
  | known => exact List.prefix_refl _
  | minted => exact List.prefix_append _ _

theorem ServesAll.grows {st st' : MaskerState} {qs : List Request} {ps : List Bytes} (h : ServesAll st qs ps st') :
    st.replacements <+: st'.replacements := by
  induction h with
  | nil st => exact List.prefix_refl _
  | cons head _ ih => exact head.grows.trans ih

theorem Masks.grows {st st' : MaskerState} {cs : List Call} {outs : List Bytes} (h : Masks st cs outs st') :
    st.replacements <+: st'.replacements := by
  induction h with
  | nil st => exact List.prefix_refl _
  | cons head _ ih => exact head.grows.trans ih

/-! ## More literals are reserved -/

/-- The state with more literals reserved. -/
def MaskerState.reserve (st : MaskerState) (more : List Bytes) : MaskerState :=
  { st with reserved := st.reserved ++ more }

section

variable {st st' : MaskerState} {more : List Bytes}

/-- The new literals take none of the numbers that were handed out. -/
def Spares (more : List Bytes) (st : MaskerState) : Prop := ∀ r ∈ st.replacements, r.placeholder ∉ more

theorem Spares.of_prefix (h : Spares more st') (hle : st.replacements <+: st'.replacements) : Spares more st :=
  fun r hr => h r (hle.subset hr)

theorem isNext_reserve {α : Type} {name : Nat → α} {taken more : List α} {c n : Nat} (h : IsNext name taken c n)
    (hfree : name n ∉ more) : IsNext name (taken ++ more) c n := by
  refine ⟨h.1, ?_, fun k hck hkn => List.mem_append_left _ (h.2.2 k hck hkn)⟩
  rw [List.mem_append, not_or]
  exact ⟨h.2.1, hfree⟩

theorem Serves.reserve {q : Request} {p : Bytes} (h : Serves st q p st') (hspares : Spares more st') :
    Serves (st.reserve more) q p (st'.reserve more) := by
  cases h with
  | known _ hknown => exact .known p hknown
  | minted n hnew hn =>
    have hlast : (⟨q.rule.id, q.rule.dataType, q.original, renderPlaceholder q.type n⟩ : Replacement) ∈
        ((st.mint q n).trigger q.rule).replacements := List.mem_append_right _ (List.mem_singleton.mpr rfl)
    exact .minted n hnew (isNext_reserve hn (hspares _ hlast))

theorem ServesAll.reserve {qs : List Request} {ps : List Bytes} (h : ServesAll st qs ps st')
    (hspares : Spares more st') : ServesAll (st.reserve more) qs ps (st'.reserve more) := by
  induction h with
  | nil st => exact .nil _
  | cons head tail ih => exact .cons (head.reserve (hspares.of_prefix tail.grows)) (ih hspares)

theorem Masks.reserve {cs : List Call} {outs : List Bytes} (h : Masks st cs outs st') (hspares : Spares more st') :
    Masks (st.reserve more) cs outs (st'.reserve more) := by
  induction h with
  | nil st => exact .nil _
  | cons head tail ih => exact .cons (head.reserve (hspares.of_prefix tail.grows)) (ih hspares)

end

/-! ## What a new text reserves -/

theorem infix_of_mem_reservedLoop {w s : Bytes} (h : w ∈ reservedLoop 0 s) : IsReserved w ∧ w <:+: s := by
  induction hn : s.length using Nat.strong_induction_on generalizing s with
  | h n ih =>
    cases s with
    | nil => cases h
    | cons b s =>
      simp only [List.length_cons] at hn
      unfold reservedLoop at h
      split at h
      · obtain ⟨hw, hinfix⟩ := ih s.length (by omega) h rfl
        exact ⟨hw, hinfix.trans (List.suffix_cons b s).isInfix⟩
      · rename_i found hfound
        obtain ⟨⟨rest, hrest⟩, hres⟩ := (reservedAtFront_spec (b :: s) found).mp hfound
        rcases List.mem_cons.mp h with rfl | h
        · exact ⟨hres, ⟨[], rest, hrest⟩⟩
        · obtain ⟨x, found, rfl⟩ := List.exists_cons_of_ne_nil hres.isPlaceholder.ne_nil
          obtain ⟨rfl, hs⟩ := List.cons.inj hrest
          rw [List.length_cons, Nat.add_sub_cancel, ← hs, List.append_eq, reservedLoop_skip] at h
          have hlen := congrArg List.length hs
          simp only [List.append_eq, List.length_append] at hlen
          obtain ⟨hw, a, c, hac⟩ := ih rest.length (by omega) h rfl
          refine ⟨hw, x :: found ++ a, c, ?_⟩
          rw [← hrest, ← hac]
          simp

theorem mem_reservedPlaceholders_iff {texts : List Bytes} {w : Bytes} :
    w ∈ reservedPlaceholders texts ↔ IsReserved w ∧ ∃ text ∈ texts, w <:+: text := by
  unfold reservedPlaceholders
  rw [List.mem_flatMap]
  constructor
  · rintro ⟨text, htext, hw⟩
    split at hw
    · obtain ⟨hres, hinfix⟩ := infix_of_mem_reservedLoop hw
      exact ⟨hres, text, htext, hinfix⟩
    · cases hw
  · rintro ⟨hres, text, htext, hinfix⟩
    refine ⟨text, htext, ?_⟩
    obtain ⟨body, rfl, -⟩ := hres.isPlaceholder
    have hopen : text.contains (ch '<') = true := by
      rw [List.contains_iff_mem]
      exact hinfix.subset List.mem_cons_self
    rw [if_pos hopen]
    exact mem_reservedLoop text _ hres hinfix

theorem reservedPlaceholders_append (texts more : List Bytes) :
    reservedPlaceholders (texts ++ more) = reservedPlaceholders texts ++ reservedPlaceholders more :=
  List.flatMap_append

/-! ## The next turn -/

section

variable {env : Env} {crs : List CompiledRule}

theorem maskTexts_masks {calls : List Call} {outs : List Bytes} {st : MaskerState}
    (h : Masks (MaskerState.init (reservedPlaceholders (calls.map Call.text))) calls outs st) :
    maskPhase (calls.map Call.args) = .ok ⟨outs, st.triggeredRules, st.triggeredDataTypes, st.replacements⟩ := by
  have htexts : (calls.map Call.args).map (·.1) = calls.map Call.text := by
    rw [List.map_map]
    rfl
  unfold maskPhase
  rw [htexts, h.maskAll]
  rfl

/-- A scan finds the same in a text whatever the other texts are. -/
theorem calls_unique (scan : Bytes → TextScanResult) {cs ds : List Call} (htexts : cs.map Call.text = ds.map Call.text)
    (hcs : ∀ c ∈ cs, scan c.text = .ok c.ms) (hds : ∀ c ∈ ds, scan c.text = .ok c.ms) : cs = ds := by
  induction cs generalizing ds with
  | nil =>
    cases ds with
    | nil => rfl
    | cons => cases htexts
  | cons c cs ih =>
    cases ds with
    | nil => cases htexts
    | cons d ds =>
      obtain ⟨htext, hrest⟩ := List.cons.inj htexts
      obtain ⟨hc, hcs⟩ := List.forall_mem_cons.mp hcs
      obtain ⟨hd, hds⟩ := List.forall_mem_cons.mp hds
      have hms : c.ms = d.ms := by
        rw [htext, hd] at hc
        exact (Except.ok.inj hc).symm
      rw [ih hrest hcs hds]
      cases c
      cases d
      simp_all

/-- The masked history and its table are a beginning of what the next turn sends exactly when no new text quotes a
placeholder of the history that the reserved shape fits. -/
theorem maskTexts_append_iff (env : Env) (hre : InText env.re2) (hsort : SortSpec env.sortMatches)
    (crs : List CompiledRule) (hcompiled : ∀ cr ∈ crs, cr.re.isSome) (texts more : List Bytes) (opts : MaskOptions)
    (result : MaskResult) (hmask : maskTexts env texts (crs.map some) opts = .ok result) :
    ∃ result', maskTexts env (texts ++ more) (crs.map some) opts = .ok result' ∧
      ((result.maskedTexts <+: result'.maskedTexts ∧ result.state.replacements <+: result'.state.replacements) ↔
        ∀ r ∈ result.state.replacements, IsReserved r.placeholder → ∀ text ∈ more, ¬ r.placeholder <:+: text) := by
  obtain ⟨calls, hcalls, hscans, hphase⟩ := scanTexts_calls env hre hsort hcompiled texts opts
  obtain ⟨calls', hcalls', hscans', hphase'⟩ := scanTexts_calls env hre hsort hcompiled (texts ++ more) opts
  obtain ⟨front, back, rfl, hfront, hback⟩ := List.map_eq_append_iff.mp hcalls'
  obtain rfl : front = calls := by
    refine calls_unique (fun t => scanRules env t (crs.map some) opts.scan) (hfront.trans hcalls.symm) ?_ ?_
    · exact fun c hc => (hscans' c (List.mem_append_left _ hc)).1
    · exact fun c hc => (hscans c hc).1
  obtain ⟨outs, st, hmasks, -⟩ := maskAll_spec (MaskerState.init (reservedPlaceholders (front.map Call.text))) front
  obtain ⟨outs', st', hmasks', -⟩ :=
    maskAll_spec (MaskerState.init (reservedPlaceholders ((front ++ back).map Call.text))) (front ++ back)
  rw [hphase, maskTexts_masks hmasks] at hmask
  obtain rfl := Except.ok.inj hmask
  refine ⟨_, hphase'.trans (maskTexts_masks hmasks'), ?_⟩
  have hreserved : reservedPlaceholders ((front ++ back).map Call.text) =
      reservedPlaceholders (front.map Call.text) ++ reservedPlaceholders more := by
    rw [List.map_append, reservedPlaceholders_append, hback]
  rw [hreserved] at hmasks'
  constructor
  · rintro ⟨-, hle⟩ r hr hres text htext hinfix
    obtain ⟨htable, -⟩ := masks_inv hmasks' (tableInv_init _) (triggerInv_init _)
    refine htable.not_reserved r (hle.subset hr) (List.mem_append_right _ ?_)
    exact mem_reservedPlaceholders_iff.mpr ⟨hres, text, htext, hinfix⟩
  · intro hquotes
    have hspares : Spares (reservedPlaceholders more) st := by
      intro r hr hmem
      obtain ⟨hres, text, htext, hinfix⟩ := mem_reservedPlaceholders_iff.mp hmem
      exact hquotes r hr hres text htext hinfix
    obtain ⟨outs'', st'', hmore, -⟩ := maskAll_spec (st.reserve (reservedPlaceholders more)) back
    obtain ⟨rfl, rfl⟩ := hmasks'.unique ((hmasks.reserve hspares).append hmore)
    exact ⟨List.prefix_append _ _, hmore.grows⟩

end

def secretRules : List CompiledRule := [sampleCompiled "secret" "(?m)s3cret" "SECRET"]

/-- What the first turn sends. -/
def secretTurn : MaskResult :=
  ⟨[ascii "<SECRET_1>"], [ascii "secret"], [.personalData],
    [⟨ascii "secret", .personalData, ascii "s3cret", ascii "<SECRET_1>"⟩]⟩

/-- The second turn quotes the placeholder, and so the history is masked anew. -/
theorem maskTexts_append_iff_sample : ∃ result',
    maskTexts (sampleEnv leakSpelling) [ascii "s3cret", ascii "<SECRET_1>"] (secretRules.map some) ⟨⟨false, 1⟩, 0⟩ =
      .ok result' ∧
    ¬ (secretTurn.maskedTexts <+: result'.maskedTexts ∧ secretTurn.state.replacements <+: result'.state.replacements) := by
  have hre : InText (sampleEnv leakSpelling).re2 := sampleRe2_inText leakSpelling_captures
  have hsort : SortSpec (sampleEnv leakSpelling).sortMatches := sampleSort_spec
  have hmask : maskTexts (sampleEnv leakSpelling) [ascii "s3cret"] (secretRules.map some) ⟨⟨false, 1⟩, 0⟩ =
      .ok secretTurn := by decide +kernel
  obtain ⟨result', hmask', hiff⟩ := maskTexts_append_iff (sampleEnv leakSpelling) hre hsort secretRules (by decide)
    [ascii "s3cret"] [ascii "<SECRET_1>"] ⟨⟨false, 1⟩, 0⟩ secretTurn hmask
  refine ⟨result', hmask', fun hsame => ?_⟩
  have hshape : IsReserved (ascii "<SECRET_1>") := ⟨ascii "SECRET_1", by decide, by decide, by decide⟩
  exact hiff.mp hsame _ List.mem_cons_self hshape _ (List.mem_singleton.mpr rfl) (List.infix_refl _)

end LlmGuard
