import LlmGuard.Demasker.Conflicts
import LlmGuard.Demasker.Stream

/-!
# The tolerant pass

In a faithful reading the scan finds every marked spelling, and the pass writes its original.
-/

namespace LlmGuard

open Tokens Streaming

variable {env : Env} {spell : Spelling} {rules : List CompiledRule}

/-- What `scan_rule` reports about a marked word. -/
def ruleMatch (spell : Spelling) (cr : CompiledRule) (t : Nat × Bytes) : Option PlaceholderMatch :=
  (readPlaceholder spell t.2 cr).map fun p => ⟨cr.rule.id, t.1, t.1 + t.2.length, p⟩

/-- The spellings that some rule recognises. -/
def Recognised (spell : Spelling) (rules : List CompiledRule) (w : Bytes) : Prop :=
  ∃ cr ∈ rules, (ruleSpelling spell cr w).isSome

/-! ## One rule -/

theorem slice_mark {pre rest : List (Item Byte)} {i : Nat} {w : Bytes}
    (h : (i, w) ∈ marks (render pre).length rest) :
    (render pre).length ≤ i ∧ i + w.length ≤ (render (pre ++ rest)).length ∧
      slice (render (pre ++ rest)) i (i + w.length) = w := by
  obtain ⟨xs, ys, rfl, rfl⟩ := mem_marks h
  have htext : render (pre ++ (xs ++ .tok w :: ys)) = render (pre ++ xs) ++ w ++ render ys := by simp
  have hlen : (render pre).length + (render xs).length = (render (pre ++ xs)).length := by simp
  rw [htext, hlen]
  refine ⟨by omega, by rw [List.length_append, List.length_append]; omega, Splice.slice_middle _ _ _⟩

theorem filterMap_unrecognised {cr : CompiledRule} {l : List (Nat × Bytes)}
    (h : ∀ t ∈ l, ruleSpelling spell cr t.2 = none) : l.filterMap (ruleMatch spell cr) = [] := by
  rw [List.filterMap_eq_nil_iff]
  intro t ht
  simp [ruleMatch, readPlaceholder, h t ht]

section Search

variable {special : Bytes → Prop} {re : Regex} {pre rest : List (Item Byte)}

theorem search_none (hfinds : Finds env.re2 re (spell re))
    (hsearch : env.re2.search re (render (pre ++ rest)) (render pre).length = none) :
    ∀ t ∈ marks (render pre).length rest, spell re t.2 = none := by
  rintro ⟨i, w⟩ hiw
  obtain ⟨hi, hend, hslice⟩ := slice_mark hiw
  have hnothing := hfinds.nothing _ _ hsearch i (i + w.length) hi (by omega) hend
  rwa [hslice] at hnothing

theorem search_some (hfinds : Finds env.re2 re (spell re)) (hspecial : ∀ w, (spell re w).isSome → special w)
    (hfaithful : Faithful special (pre ++ rest)) {g : Submatches}
    (hsearch : env.re2.search re (render (pre ++ rest)) (render pre).length = some g) :
    ∃ k w ys span, rest = k ++ .tok w :: ys ∧ w ≠ [] ∧ g.whole.1 = (render pre).length + (render k).length ∧
      g.whole.2 = g.whole.1 + w.length ∧ g.get 1 = some span ∧
      spell re w = some (slice (render (pre ++ rest)) span.1 span.2) ∧
      ∀ t ∈ marks (render pre).length k, spell re t.2 = none := by
  obtain ⟨hpos, hlt, hend, span, hspan, hcapture⟩ := hfinds.found _ _ g hsearch
  obtain ⟨w, hw⟩ : ∃ w, w = slice (render (pre ++ rest)) g.whole.1 g.whole.2 := ⟨_, rfl⟩
  rw [← hw] at hcapture
  have hlen : w.length = g.whole.2 - g.whole.1 := hw ▸ Splice.slice_length _ _ _ hend
  have hne : w ≠ [] := by
    rw [ne_eq, ← List.length_eq_zero_iff]
    omega
  obtain ⟨xs, ys, hxs, hstart⟩ := hfaithful.only _ w _ (hspecial w (by simp [hcapture]))
    (hw ▸ (Splice.append_slice_append (render (pre ++ rest)) _ _ hlt.le).symm)
  have hstart' : (render xs).length = g.whole.1 := by
    rw [hstart, List.length_take]
    omega
  obtain ⟨k, rfl, rfl⟩ := split_behind hxs hne (by omega)
  have hk : (render pre).length + (render k).length = g.whole.1 := by
    rw [← hstart', render_append, List.length_append]
  refine ⟨k, w, ys, span, rfl, hne, hk.symm, by omega, hspan, hcapture, ?_⟩
  rintro ⟨i, v⟩ hiv
  have hiv' : (i, v) ∈ marks (render pre).length (k ++ .tok w :: ys) := by
    rw [marks_append]
    exact List.mem_append_left _ hiv
  obtain ⟨hi, hvend, hslice⟩ := slice_mark hiv'
  obtain ⟨as, bs, rfl, rfl⟩ := mem_marks hiv
  have hvpos := List.length_pos_iff.mpr (hfaithful.marked v (by simp)).2
  have hbefore := hfinds.leftmost _ _ g hsearch _ _ hi (by
    rw [← hk, render_append, List.length_append, render_tok, List.length_append]
    omega) (Nat.le_add_right _ v.length) hvend
  rwa [hslice] at hbefore

end Search

theorem scanRuleLoop_render {special : Bytes → Prop} {cr : CompiledRule} {re : Regex}
    (hre : cr.placeholderRe = some re) (hblank : isBlankPlaceholder cr.rule.masking.placeholder = false)
    (hfinds : Finds env.re2 re (spell re)) (hspecial : ∀ w, (spell re w).isSome → special w)
    (pre rest : List (Item Byte)) (hfaithful : Faithful special (pre ++ rest)) (fuel : Nat)
    (hfuel : (render rest).length < fuel) :
    scanRuleLoop env (render (pre ++ rest)) cr re fuel (render pre).length =
      (marks (render pre).length rest).filterMap (ruleMatch spell cr) := by
  have hspelling : ∀ w, ruleSpelling spell cr w = spell re w := by
    intro w
    simp [ruleSpelling, hre, hblank]
  induction fuel generalizing pre rest with
  | zero => omega
  | succ fuel ih =>
    have hsize : (render (pre ++ rest)).length = (render pre).length + (render rest).length := by simp
    unfold scanRuleLoop
    rw [if_neg (by omega)]
    cases hsearch : env.re2.search re (render (pre ++ rest)) (render pre).length with
    | none =>
      refine (filterMap_unrecognised fun t ht => ?_).symm
      rw [hspelling]
      exact search_none hfinds hsearch t ht
    | some g =>
      obtain ⟨k, w, ys, span, rfl, hne, hk, hstop, hspan, hcapture, hbefore⟩ :=
        search_some hfinds hspecial hfaithful hsearch
      have hpos := List.length_pos_iff.mpr hne
      have hskipped : (marks (render pre).length k).filterMap (ruleMatch spell cr) = [] :=
        filterMap_unrecognised fun t ht => (hspelling t.2).trans (hbefore t ht)
      have hmark : (render (pre ++ k ++ [.tok w])).length = (render pre).length + (render k).length + w.length := by
        simp
        omega
      have hnext : (if g.whole.1 < g.whole.2 then g.whole.2 else g.whole.1 + 1) =
          (render (pre ++ k ++ [.tok w])).length := by
        rw [if_pos (by omega), hmark]
        omega
      have hrest : scanRuleLoop env (render (pre ++ (k ++ .tok w :: ys))) cr re fuel
          (render (pre ++ k ++ [.tok w])).length =
          (marks (render (pre ++ k ++ [.tok w])).length ys).filterMap (ruleMatch spell cr) := by
        have hsplit : pre ++ (k ++ .tok w :: ys) = pre ++ k ++ [.tok w] ++ ys := by simp
        rw [hsplit] at hfaithful ⊢
        apply ih _ _ hfaithful
        simp only [render_append, render_tok, List.length_append] at hfuel
        omega
      simp only [hnext, hrest]
      rw [marks_append, List.filterMap_append, hskipped, List.nil_append, marks, List.filterMap_cons]
      have hmatch : ruleMatch spell cr ((render pre).length + (render k).length, w) =
          ((g.get 1).bind fun span => parsePlaceholderIndex (slice (render (pre ++ (k ++ .tok w :: ys))) span.1 span.2)).map
            fun n => ⟨cr.rule.id, g.whole.1, g.whole.2, renderPlaceholder cr.rule.masking.placeholder n⟩ := by
        simp only [ruleMatch, readPlaceholder, hspelling, hcapture, hspan, Option.bind_some, ← hk, ← hstop,
          Option.map_map]
        rfl
      rw [hmatch, hmark]
      cases (g.get 1).bind fun span =>
        parsePlaceholderIndex (slice (render (pre ++ (k ++ .tok w :: ys))) span.1 span.2) <;> rfl

theorem scanRule_render {special : Bytes → Prop} {cr : CompiledRule}
    (hfinds : ∀ re, cr.placeholderRe = some re → Finds env.re2 re (spell re))
    (hspecial : ∀ w, (ruleSpelling spell cr w).isSome → special w) (items : List (Item Byte))
    (hfaithful : Faithful special items) :
    scanRule env (render items) cr = (marks 0 items).filterMap (ruleMatch spell cr) := by
  unfold scanRule
  cases hre : cr.placeholderRe with
  | none =>
    refine (filterMap_unrecognised fun t _ => ?_).symm
    simp [ruleSpelling, hre]
  | some re =>
    cases hblank : isBlankPlaceholder cr.rule.masking.placeholder with
    | true =>
      refine (filterMap_unrecognised fun t _ => ?_).symm
      simp [ruleSpelling, hre, hblank]
    | false =>
      refine scanRuleLoop_render hre hblank (hfinds re hre) (fun w hw => hspecial w ?_) [] items hfaithful _ ?_
      · simpa [ruleSpelling, hre, hblank] using hw
      · simp

/-! ## Conflicts -/

theorem flatMap_filterMap_perm {α β γ : Type} (f : α → β → Option γ) (as : List α) (bs : List β) :
    (as.flatMap fun a => bs.filterMap (f a)).Perm (bs.flatMap fun b => as.filterMap (f · b)) := by
  induction as with
  | nil => simp
  | cons a as ih =>
    have hhead : bs.filterMap (f a) = bs.flatMap fun b => (f a b).toList := List.filterMap_eq_flatMap_toList _ _
    have hstep : ∀ b, (a :: as).filterMap (f · b) = (f a b).toList ++ as.filterMap (f · b) := by
      intro b
      cases h : f a b <;> simp [h]
    simp only [List.flatMap_cons, hhead, hstep]
    exact (ih.append_left _).trans (List.flatMap_append_perm _ _ _)

/-- The rules are in the order of their ids, and an id names one rule. -/
structure InIdOrder (rules : List CompiledRule) : Prop where
  sorted : rules.Pairwise fun a b => a.rule.id ≤ b.rule.id
  unique : ∀ a ∈ rules, ∀ b ∈ rules, a.rule.id = b.rule.id → a = b

/-- What the rules read, mark by mark. -/
def markMatches (spell : Spelling) (rules : List CompiledRule) (t : Nat × Bytes) : List PlaceholderMatch :=
  rules.filterMap fun cr => ruleMatch spell cr t

theorem mem_markMatches {t : Nat × Bytes} {m : PlaceholderMatch} (h : m ∈ markMatches spell rules t) :
    ∃ cr ∈ rules, m.ruleId = cr.rule.id ∧ m.start = t.1 ∧ m.stop = t.1 + t.2.length ∧
      ruleMatch spell cr t = some m := by
  obtain ⟨cr, hcr, hm⟩ := List.mem_filterMap.mp h
  have hm' := hm
  unfold ruleMatch at hm
  obtain ⟨p, -, rfl⟩ := Option.map_eq_some_iff.mp hm
  exact ⟨cr, hcr, rfl, rfl, rfl, hm'⟩

theorem marks_pairwise (pos : Nat) (items : List (Item Byte)) (hne : ∀ w, .tok w ∈ items → w ≠ []) :
    (marks pos items).Pairwise fun s t => s.1 + s.2.length ≤ t.1 ∧ s.1 < t.1 := by
  induction items generalizing pos with
  | nil => exact .nil
  | cons x items ih =>
    have hrest := fun pos' => ih pos' fun w hw => hne w (List.mem_cons_of_mem _ hw)
    cases x with
    | raw a => exact hrest _
    | tok w =>
      refine List.pairwise_cons.mpr ⟨?_, hrest _⟩
      rintro ⟨i, v⟩ hv
      obtain ⟨xs, ys, -, rfl⟩ := mem_marks hv
      have := List.length_pos_iff.mpr (hne w List.mem_cons_self)
      exact ⟨by simp only; omega, by simp only; omega⟩

theorem markMatches_sorted (hrules : InIdOrder rules) (ts : List (Nat × Bytes))
    (hts : ts.Pairwise fun s t => s.1 + s.2.length ≤ t.1 ∧ s.1 < t.1) :
    (ts.flatMap (markMatches spell rules)).Pairwise Precedes := by
  induction ts with
  | nil => exact .nil
  | cons t ts ih =>
    obtain ⟨hhead, htail⟩ := List.pairwise_cons.mp hts
    rw [List.flatMap_cons]
    refine List.pairwise_append.mpr ⟨?_, ih htail, ?_⟩
    · -- Matches of one mark follow the rules.
      have hsame : ∀ (l : List CompiledRule), l.Pairwise (fun a b => a.rule.id ≤ b.rule.id) →
          (markMatches spell l t).Pairwise Precedes := by
        intro l hl
        refine List.pairwise_filterMap.mpr (hl.imp fun hab m hm m' hm' => ?_)
        obtain ⟨p, -, rfl⟩ := Option.map_eq_some_iff.mp hm
        obtain ⟨p', -, rfl⟩ := Option.map_eq_some_iff.mp hm'
        exact .inr ⟨rfl, .inr ⟨rfl, hab⟩⟩
      exact hsame rules hrules.sorted
    · intro m hm m' hm'
      obtain ⟨-, -, -, hstart, -⟩ := mem_markMatches hm
      obtain ⟨t', ht', hm'⟩ := List.mem_flatMap.mp hm'
      obtain ⟨-, -, -, hstart', -⟩ := mem_markMatches hm'
      have := (hhead t' ht').2
      exact .inl (by omega)

theorem dropOverlaps_marks (ts : List (Nat × Bytes)) (maxEnd : Nat) (hmax : ∀ t ∈ ts, maxEnd ≤ t.1)
    (hne : ∀ t ∈ ts, t.2 ≠ []) (hts : ts.Pairwise fun s t => s.1 + s.2.length ≤ t.1 ∧ s.1 < t.1) :
    dropOverlaps maxEnd (ts.flatMap (markMatches spell rules)) =
      ts.filterMap fun t => (markMatches spell rules t).head? := by
  induction ts generalizing maxEnd with
  | nil => rfl
  | cons t ts ih =>
    obtain ⟨hhead, htail⟩ := List.pairwise_cons.mp hts
    have hne' : ∀ t' ∈ ts, t'.2 ≠ [] := fun t' ht' => hne t' (List.mem_cons_of_mem _ ht')
    rw [List.flatMap_cons, List.filterMap_cons]
    cases hms : markMatches spell rules t with
    | nil =>
      rw [List.nil_append]
      exact ih maxEnd (fun t' ht' => hmax t' (List.mem_cons_of_mem _ ht')) hne' htail
    | cons m ms =>
      have hin : ∀ m' ∈ m :: ms, m'.start = t.1 ∧ m'.stop = t.1 + t.2.length := by
        intro m' hm'
        obtain ⟨-, -, -, hstart, hstop, -⟩ := mem_markMatches (hms ▸ hm')
        exact ⟨hstart, hstop⟩
      have hpos := List.length_pos_iff.mpr (hne t List.mem_cons_self)
      have hm := hin m List.mem_cons_self
      have hle := hmax t List.mem_cons_self
      -- The other matches of this mark start before the end of the first one.
      have hdrop : ∀ l, (∀ m' ∈ l, m'.start = t.1) → ∀ rest,
          dropOverlaps (t.1 + t.2.length) (l ++ rest) = dropOverlaps (t.1 + t.2.length) rest := by
        intro l hl rest
        induction l with
        | nil => rfl
        | cons m' l ihl =>
          have := hl m' List.mem_cons_self
          rw [List.cons_append, dropOverlaps, if_pos (by omega)]
          exact ihl fun m'' hm'' => hl m'' (List.mem_cons_of_mem _ hm'')
      have hend : (if maxEnd < m.stop then m.stop else maxEnd) = t.1 + t.2.length := by
        rw [hm.2, if_pos (by omega)]
      rw [List.cons_append, dropOverlaps, if_neg (by omega), hend,
        hdrop ms fun m' hm' => (hin m' (List.mem_cons_of_mem _ hm')).1]
      simp only [List.head?_cons]
      rw [ih _ (fun t' ht' => (hhead t' ht').1) hne' htail]

/-- The scan reports, at every mark, what the first rule that reads it reads. -/
theorem scanPlaceholders_render {special : Bytes → Prop} (hfinds : FindsAll env.re2 spell rules)
    (hrules : InIdOrder rules) (hspecial : ∀ w, Recognised spell rules w → special w)
    (items : List (Item Byte)) (hfaithful : Faithful special items) :
    scanPlaceholders env rules (render items) =
      (marks 0 items).filterMap fun t => (markMatches spell rules t).head? := by
  have hne : ∀ w, .tok w ∈ items → w ≠ [] := fun w hw => (hfaithful.marked w hw).2
  have hpair := marks_pairwise 0 items hne
  have hall : rules.flatMap (scanRule env (render items)) =
      rules.flatMap fun cr => (marks 0 items).filterMap (ruleMatch spell cr) := by
    refine List.flatMap_congr fun cr hcr => ?_
    exact scanRule_render (hfinds cr hcr) (fun w hw => hspecial w ⟨cr, hcr, hw⟩) items hfaithful
  have hperm : (rules.flatMap (scanRule env (render items))).Perm
      ((marks 0 items).flatMap (markMatches spell rules)) :=
    hall ▸ flatMap_filterMap_perm (fun cr t => ruleMatch spell cr t) rules (marks 0 items)
  have hmarks : ∀ t ∈ marks 0 items, t.2 ≠ [] := by
    rintro ⟨i, w⟩ hiw
    obtain ⟨xs, ys, rfl, -⟩ := mem_marks hiw
    exact hne w (by simp)
  have hdrop : dropOverlaps 0 ((marks 0 items).flatMap (markMatches spell rules)) =
      (marks 0 items).filterMap fun t => (markMatches spell rules t).head? :=
    dropOverlaps_marks (marks 0 items) 0 (fun _ _ => Nat.zero_le _) hmarks hpair
  unfold scanPlaceholders
  rw [resolvePlaceholderConflicts_eq, ← dropOverlaps_eq, ← hdrop]
  congr 1
  refine List.Perm.eq_of_pairwise ?_ (stableSort_precedes _) (markMatches_sorted hrules _ hpair)
    ((stableSort_perm _ _).trans hperm)
  intro a b ha hb hab hba
  have ha' := hperm.subset ((stableSort_perm _ _).subset ha)
  obtain ⟨t, ht, hta⟩ := List.mem_flatMap.mp ha'
  obtain ⟨t', ht', htb⟩ := List.mem_flatMap.mp hb
  obtain ⟨cr, hcr, hid, hstart, hstop, hmatch⟩ := mem_markMatches hta
  obtain ⟨cr', hcr', hid', hstart', hstop', hmatch'⟩ := mem_markMatches htb
  have hlen := List.length_pos_iff.mpr (hmarks t ht)
  have hlen' := List.length_pos_iff.mpr (hmarks t' ht')
  obtain ⟨hsame, -, hrule⟩ := Precedes.antisymm (by omega) (by omega) hab hba
  have hnodup : ((marks 0 items).map (·.1)).Nodup := List.pairwise_map.mpr (hpair.imp fun h => by omega)
  obtain rfl := List.inj_on_of_nodup_map hnodup ht ht' (by rw [← hstart, ← hstart', hsame])
  have hcrs := hrules.unique cr hcr cr' hcr' (by rw [← hid, ← hid', hrule])
  subst hcrs
  exact Option.some.inj (hmatch.symm.trans hmatch')

/-! ## The replacements -/

/-- A match of the scan has bytes, lies in the text and names a placeholder. -/
structure InRange (text : Bytes) (m : PlaceholderMatch) : Prop where
  start_lt : m.start < m.stop
  stop_le : m.stop ≤ text.length
  named : m.placeholder ≠ []

theorem mem_scanRuleLoop {cr : CompiledRule} {re : Regex} {text : Bytes} {fuel pos : Nat} {m : PlaceholderMatch}
    (h : m ∈ scanRuleLoop env text cr re fuel pos) :
    ∃ pos g n, env.re2.search re text pos = some g ∧
      ((g.get 1).bind fun span => parsePlaceholderIndex (slice text span.1 span.2)) = some n ∧
      m = ⟨cr.rule.id, g.whole.1, g.whole.2, renderPlaceholder cr.rule.masking.placeholder n⟩ := by
  induction fuel generalizing pos with
  | zero => cases h
  | succ fuel ih =>
    unfold scanRuleLoop at h
    split at h
    · cases h
    · split at h
      · cases h
      · rename_i g hg
        simp only at h
        split at h
        · exact ih h
        · rename_i n hn
          rcases List.mem_cons.mp h with h | h
          · exact ⟨pos, g, n, hg, hn, h⟩
          · exact ih h

theorem mem_scanRule {cr : CompiledRule} {text : Bytes} {m : PlaceholderMatch} (h : m ∈ scanRule env text cr) :
    ∃ re pos g n, cr.placeholderRe = some re ∧ isBlankPlaceholder cr.rule.masking.placeholder = false ∧
      env.re2.search re text pos = some g ∧
      ((g.get 1).bind fun span => parsePlaceholderIndex (slice text span.1 span.2)) = some n ∧
      m = ⟨cr.rule.id, g.whole.1, g.whole.2, renderPlaceholder cr.rule.masking.placeholder n⟩ := by
  unfold scanRule at h
  split at h
  · cases h
  · rename_i re hre
    split at h
    · cases h
    · rename_i hblank
      obtain ⟨pos, g, n, hg, hn, hm⟩ := mem_scanRuleLoop h
      exact ⟨re, pos, g, n, hre, by simpa using hblank, hg, hn, hm⟩

theorem mem_scanPlaceholders {text : Bytes} {m : PlaceholderMatch} (hm : m ∈ scanPlaceholders env rules text) :
    ∃ cr ∈ rules, m ∈ scanRule env text cr :=
  List.mem_flatMap.mp (resolvePlaceholderConflicts_subset _ hm)

theorem scanPlaceholders_inRange (hfinds : FindsAll env.re2 spell rules) (text : Bytes) :
    ∀ m ∈ scanPlaceholders env rules text, InRange text m := by
  intro m hm
  obtain ⟨cr, hcr, hm⟩ := mem_scanPlaceholders hm
  obtain ⟨re, pos, g, n, hre, -, hg, -, rfl⟩ := mem_scanRule hm
  obtain ⟨-, hlt, hend, -⟩ := (hfinds cr hcr re hre).found text pos g hg
  exact ⟨hlt, hend, by simp [renderPlaceholder, ascii]⟩

theorem scanPlaceholders_reads (hfinds : FindsAll env.re2 spell rules) {text : Bytes} {m : PlaceholderMatch}
    (hm : m ∈ scanPlaceholders env rules text) :
    ∃ cr ∈ rules, readPlaceholder spell (slice text m.start m.stop) cr = some m.placeholder := by
  obtain ⟨cr, hcr, hm⟩ := mem_scanPlaceholders hm
  obtain ⟨re, pos, g, n, hre, hblank, hg, hn, rfl⟩ := mem_scanRule hm
  obtain ⟨-, -, -, span, hspan, hword⟩ := (hfinds cr hcr re hre).found text pos g hg
  rw [hspan, Option.bind_some] at hn
  refine ⟨cr, hcr, ?_⟩
  unfold readPlaceholder ruleSpelling
  simp [hre, hblank, hword, hn]

theorem textReplacements_eq (cfg : DemaskConfig) (jsonEscape : Bool) (text : Bytes)
    (ms : List PlaceholderMatch) (h : ∀ m ∈ ms, InRange text m) :
    textReplacements cfg jsonEscape text ms =
      .ok (ms.filterMap fun m => (cfg.lookup m.placeholder jsonEscape).map fun o => ⟨m.start, m.stop, o⟩) := by
  induction ms with
  | nil => rfl
  | cons m ms ih =>
    have hm := h m List.mem_cons_self
    have hrange : ¬ ((decide (m.stop < m.start) || decide (text.length < m.stop)) = true) := by
      have := hm.start_lt
      have := hm.stop_le
      simp only [Bool.or_eq_true, decide_eq_true_eq]
      omega
    unfold textReplacements
    rw [if_neg (by simpa using hm.named), if_neg hrange, ih fun m' hm' => h m' (List.mem_cons_of_mem _ hm')]
    cases hl : cfg.lookup m.placeholder jsonEscape with
    | none => simp [hl]
    | some o => simp [hl, bind, Except.bind]

theorem spliceLoop_ok (text : Bytes) (reps : List TextReplacement) (pos : Nat) (out : Bytes)
    (hpos : pos ≤ text.length) (h : ∀ r ∈ reps, r.start ≤ r.stop ∧ r.stop ≤ text.length) :
    ∃ spliced, spliceLoop text reps pos out = .ok spliced := by
  induction reps generalizing pos out with
  | nil => exact ⟨out ++ text.drop pos, by rw [spliceLoop, substr_tail text pos hpos]; rfl⟩
  | cons r reps ih =>
    have hr := h r List.mem_cons_self
    have hrest := fun r' hr' => h r' (List.mem_cons_of_mem _ hr')
    unfold spliceLoop
    split
    · exact ih pos out hpos hrest
    · rw [substr_gap text pos r.start (by omega) (by omega)]
      exact ih r.stop _ hr.2 hrest

theorem spliceLoop_same (text : Bytes) (reps : List TextReplacement) (pos : Nat) (hpos : pos ≤ text.length)
    (h : ∀ r ∈ reps, r.start ≤ r.stop ∧ r.stop ≤ text.length ∧ r.original = slice text r.start r.stop) :
    spliceLoop text reps pos (text.take pos) = .ok text := by
  induction reps generalizing pos with
  | nil => simp [spliceLoop, substr_tail text pos hpos, bind, Except.bind]
  | cons r reps ih =>
    obtain ⟨hle, hstop, horiginal⟩ := h r List.mem_cons_self
    have hrest := fun r' hr' => h r' (List.mem_cons_of_mem _ hr')
    unfold spliceLoop
    split
    · exact ih pos hpos hrest
    · have hfront : text.take pos ++ slice text pos r.start ++ r.original = text.take r.stop := by
        have hzero : ∀ k, text.take k = slice text 0 k := fun k => by rw [slice, List.drop_zero, Nat.sub_zero]
        rw [horiginal, hzero, hzero, Splice.slice_append text 0 pos r.start (by omega) (by omega),
          Splice.slice_append text 0 r.start r.stop (by omega) hle]
      rw [substr_gap text pos r.start (by omega) (by omega)]
      simp only [bind, Except.bind, hfront]
      exact ih r.stop hstop hrest

/-- The replacements of the marked words that have an original. -/
def markReplacements (r : Bytes → Option Bytes) (ts : List (Nat × Bytes)) : List TextReplacement :=
  ts.filterMap fun t => (r t.2).map fun o => ⟨t.1, t.1 + t.2.length, o⟩

theorem spliceLoop_render (r : Bytes → Option Bytes) (pre rest : List (Item Byte)) (pos : Nat) (out : Bytes)
    (hpos : pos ≤ (render pre).length) :
    spliceLoop (render (pre ++ rest)) (markReplacements r (marks (render pre).length rest)) pos out =
      .ok (out ++ slice (render (pre ++ rest)) pos (render pre).length ++ render (subst r rest)) := by
  induction rest generalizing pre pos out with
  | nil =>
    rw [List.append_nil, marks, markReplacements, List.filterMap_nil, spliceLoop, substr_tail _ _ hpos]
    simp [bind, Except.bind, slice]
  | cons x rest ih =>
    have hsplit : pre ++ x :: rest = (pre ++ [x]) ++ rest := by simp
    have hlen : (render (pre ++ [x])).length = (render pre).length + x.text.length := by
      cases x <;> simp [Item.text]
    -- The bytes of an item that stays are copied with the gap before the next replacement.
    have hcopy : slice (render (pre ++ x :: rest)) pos (render (pre ++ [x])).length =
        slice (render (pre ++ x :: rest)) pos (render pre).length ++ x.text := by
      rw [← Splice.slice_append _ pos _ _ hpos (by omega : (render pre).length ≤ (render (pre ++ [x])).length), hlen]
      congr 1
      have htext : render (pre ++ x :: rest) = render pre ++ x.text ++ render rest := by
        cases x <;> simp [Item.text]
      rw [htext, Splice.slice_middle]
    have hkeep := ih (pre ++ [x]) pos out (by omega)
    rw [← hsplit, hcopy] at hkeep
    cases x with
    | raw a =>
      have hmarks : marks (render pre).length (Item.raw a :: rest) = marks (render (pre ++ [Item.raw a])).length rest := by
        simp [marks]
      rw [hmarks, hkeep]
      simp [Item.text]
    | tok w =>
      have hmarks : marks (render pre).length (Item.tok w :: rest) =
          ((render pre).length, w) :: marks (render (pre ++ [Item.tok w])).length rest := by
        simp [marks]
      rw [hmarks, markReplacements, List.filterMap_cons]
      cases hw : r w with
      | none =>
        rw [subst_tok_none hw]
        simp only [Option.map_none]
        rw [← markReplacements, hkeep]
        simp [Item.text]
      | some o =>
        have hafter := ih (pre ++ [.tok w]) (render (pre ++ [.tok w])).length
          (out ++ slice (render (pre ++ .tok w :: rest)) pos (render pre).length ++ o) (Nat.le_refl _)
        rw [← hsplit] at hafter
        have hstop : (render pre).length + w.length = (render (pre ++ [Item.tok w])).length := by simp
        rw [subst_tok_some hw]
        simp only [Option.map_some]
        rw [← markReplacements, spliceLoop, if_neg (by simpa using hpos),
          substr_gap _ pos _ hpos (by simp)]
        simp only [bind, Except.bind, hstop, hafter]
        simp

theorem markReplacements_starts (r : Bytes → Option Bytes) (ts : List (Nat × Bytes))
    (hts : ts.Pairwise fun s t => s.1 + s.2.length ≤ t.1 ∧ s.1 < t.1) :
    (markReplacements r ts).Pairwise fun a b => a.start < b.start := by
  refine List.pairwise_filterMap.mpr (hts.imp fun hst a ha b hb => ?_)
  obtain ⟨o, -, rfl⟩ := Option.map_eq_some_iff.mp ha
  obtain ⟨o', -, rfl⟩ := Option.map_eq_some_iff.mp hb
  exact hst.2

theorem applyTextReplacements_render (r : Bytes → Option Bytes) (items : List (Item Byte))
    (hne : ∀ w, .tok w ∈ items → w ≠ []) :
    applyTextReplacements (render items) (markReplacements r (marks 0 items)) = .ok (render (subst r items)) := by
  have hsplice := spliceLoop_render r [] items 0 [] (Nat.le_refl _)
  simp only [List.nil_append, render_nil, List.length_nil, Splice.slice_self] at hsplice
  unfold applyTextReplacements
  split
  · rename_i hempty
    rw [List.isEmpty_iff.mp hempty, spliceLoop, substr_tail _ _ (Nat.zero_le _)] at hsplice
    simpa [bind, Except.bind] using hsplice
  · rw [stableSort_of_starts (markReplacements_starts r _ (marks_pairwise 0 items hne)), hsplice]

/-! ## The pass -/

section Pass

variable {cfg : DemaskConfig} {reps : List Replacement} {jsonEscape : Bool}

theorem neverFails_of_scan (hscan : cfg.scan = some fun text => .ok (scanPlaceholders env rules text))
    (hfinds : FindsAll env.re2 spell rules) : NeverFails cfg jsonEscape := by
  have hrun : ∀ text, ∃ out, applyPlaceholderRegex cfg jsonEscape text = .ok out := by
    intro text
    have hin := scanPlaceholders_inRange hfinds text
    simp only [applyPlaceholderRegex, hscan, bind, Except.bind]
    split
    · exact ⟨text, rfl⟩
    · rw [textReplacements_eq cfg jsonEscape text _ hin]
      simp only [applyTextReplacements]
      split
      · exact ⟨text, rfl⟩
      · refine spliceLoop_ok text _ 0 [] (Nat.zero_le _) fun r hr => ?_
        obtain ⟨m, hm, hr'⟩ := List.mem_filterMap.mp ((stableSort_perm _ _).subset hr)
        obtain ⟨o, -, rfl⟩ := Option.map_eq_some_iff.mp hr'
        exact ⟨(hin m hm).start_lt.le, (hin m hm).stop_le⟩
  refine ⟨hrun, ?_⟩
  -- There is nothing to match in an empty buffer.
  have hnone : scanPlaceholders env rules [] = [] := by
    rw [List.eq_nil_iff_forall_not_mem]
    intro m hm
    have hin := scanPlaceholders_inRange hfinds [] m hm
    have := hin.start_lt
    have := hin.stop_le
    simp only [List.length_nil] at this
    omega
  simp [applyPlaceholderRegex, hscan, hnone, bind, Except.bind]

theorem head?_markMatches (t : Nat × Bytes) :
    (markMatches spell rules t).head? =
      (rules.findSome? fun cr => ruleMatch spell cr t) := by
  rw [markMatches, List.head?_filterMap]

theorem replacement_of_mark (h : Tables reps cfg) (t : Nat × Bytes) :
    ((markMatches spell rules t).head?.bind fun m =>
        (cfg.lookup m.placeholder jsonEscape).map fun o => (⟨m.start, m.stop, o⟩ : TextReplacement)) =
      (tolerantOriginal spell rules reps jsonEscape t.2).map fun o => ⟨t.1, t.1 + t.2.length, o⟩ := by
  rw [head?_markMatches, tolerantOriginal]
  induction rules with
  | nil => rfl
  | cons cr rules ih =>
    rw [List.findSome?_cons, List.findSome?_cons]
    cases hread : readPlaceholder spell t.2 cr with
    | none => simpa [ruleMatch, hread] using ih
    | some p => simp [ruleMatch, hread, h.lookup]

/-- The tolerant pass writes the original of every spelling of a faithful reading. -/
theorem tolerant_pass (h : Tables reps cfg)
    (hscan : cfg.scan = some fun text => .ok (scanPlaceholders env rules text))
    (hfinds : FindsAll env.re2 spell rules) (hrules : InIdOrder rules) {special : Bytes → Prop}
    (hspecial : ∀ w, Recognised spell rules w → special w) :
    Pass special (tolerantPass cfg jsonEscape) (tolerantOriginal spell rules reps jsonEscape) := by
  intro items hfaithful
  have hne : ∀ w, .tok w ∈ items → w ≠ [] := fun w hw => (hfaithful.marked w hw).2
  have hall := scanPlaceholders_render hfinds hrules hspecial items hfaithful
  have hin := scanPlaceholders_inRange hfinds (render items)
  have hreps : textReplacements cfg jsonEscape (render items) (scanPlaceholders env rules (render items)) =
      .ok (markReplacements (tolerantOriginal spell rules reps jsonEscape) (marks 0 items)) := by
    rw [textReplacements_eq cfg jsonEscape _ _ hin, hall, List.filterMap_filterMap]
    simp only [replacement_of_mark h]
    rfl
  have hwrite := applyTextReplacements_render (tolerantOriginal spell rules reps jsonEscape) items hne
  unfold tolerantPass applyPlaceholderRegex
  simp only [hscan, bind, Except.bind]
  split
  · rename_i out hout
    split at hout
    · rename_i hempty
      rw [List.isEmpty_iff.mp hempty] at hreps
      rw [textReplacements] at hreps
      rw [← Except.ok.inj hreps, applyTextReplacements] at hwrite
      rw [← Except.ok.inj hout]
      simpa using hwrite
    · rw [hreps] at hout
      simp only [hwrite] at hout
      exact (Except.ok.inj hout).symm
  · rename_i e he
    split at he
    · cases he
    · rw [hreps] at he
      simp only [hwrite] at he
      cases he

end Pass

end LlmGuard
