import LlmGuard.Demasker.Ends
import LlmGuard.Demasker.OwnPlaceholders
import LlmGuard.Pipeline.RoundTrip

/-!
# Demasking a response

A response quotes the placeholders of the request wherever it likes. Demasking it with the state of the request rewrites
the texts of its fields, in place, and never breaks the document.
-/

namespace LlmGuard.Pipeline

open Rfc8259 (Value Items Label Reading Ws blank)
open Extract
open Json (ValueSpan Root treeOf spanPair)
open Streaming (Rewriter)

theorem run_ne_nil {α : Type} {rw : Rewriter α} (hrewrite : ∀ s, s ≠ [] → rw.rewrite s ≠ []) {pending : List α}
    {chunks : List (List α)} (hne : chunks ≠ []) (h : pending ++ chunks.flatten ≠ []) : rw.run pending chunks ≠ [] := by
  induction chunks generalizing pending with
  | nil => exact absurd rfl hne
  | cons chunk chunks ih =>
    cases chunks with
    | nil =>
      have hlast : pending ++ chunk ≠ [] := by simpa using h
      exact hrewrite _ hlast
    | cons chunk' chunks =>
      have hunfold : rw.run pending (chunk :: chunk' :: chunks) =
          (rw.step pending chunk).1 ++ rw.run (rw.step pending chunk).2 (chunk' :: chunks) := rfl
      rw [hunfold]
      by_cases hout : (rw.step pending chunk).1 = []
      · rw [hout, List.nil_append]
        apply ih (List.cons_ne_nil _ _)
        by_cases hnow : pending ++ chunk = []
        · have hlater : (chunk' :: chunks).flatten ≠ [] := by
            rwa [List.flatten_cons, ← List.append_assoc, hnow, List.nil_append] at h
          simp only [ne_eq, List.append_eq_nil_iff, not_and]
          exact fun _ => hlater
        · have hstep : (rw.step pending chunk).1 ++ (rw.step pending chunk).2 = rw.rewrite (pending ++ chunk) :=
            List.take_append_drop _ _
          rw [hout, List.nil_append] at hstep
          simp only [ne_eq, List.append_eq_nil_iff, not_and, hstep]
          exact fun hempty => absurd hempty (hrewrite _ hnow)
      · simp [hout]

/-! ## One field -/

section

/-- White space or a quote stands behind the bracket of an object that is not `{}`. -/
theorem raw_second {v : Value} (h : IsRaw v) :
    ∃ b s, v.text = ch '\x7b' :: b :: s ∧ b ≠ ch '<' ∧ b ≠ ch '\x7d' := by
  have hblank : ∀ b, blank b = true → b ≠ ch '<' ∧ b ≠ ch '\x7d' := by
    intro b hb
    constructor <;> rintro rfl <;> exact absurd hb (by decide)
  have hlabel : ∀ (label : Label .object) (u : Bytes), ∃ b s, label.text ++ u = b :: s ∧ b ≠ ch '<' ∧ b ≠ ch '\x7d' := by
    intro label u
    cases label with
    | key outer name inner =>
      cases houter : outer.1 with
      | nil => exact ⟨ch '"', _, by simp [Label.text, Rfc8259.quoted, houter]; rfl, by decide, by decide⟩
      | cons b s =>
        exact ⟨b, _, by simp [Label.text, houter]; rfl, hblank b (outer.2 b (by simp [houter]))⟩
  cases v with
  | scalar | string => exact h.elim
  | empty k w =>
    cases k with
    | array => exact h.elim
    | object =>
      obtain ⟨b, s, hw⟩ := List.exists_cons_of_ne_nil (show w.1 ≠ [] from h)
      exact ⟨b, _, by simp [Value.text, hw, Rfc8259.Kind.opening]; rfl, hblank b (w.2 b (by simp [hw]))⟩
  | group k items =>
    cases k with
    | array => exact h.elim
    | object =>
      obtain ⟨u, label, hitems⟩ : ∃ u, ∃ label : Label .object, items.text = label.text ++ u := by
        cases items with
        | last label | more label => exact ⟨_, label, by simp only [Items.text, List.append_assoc]; rfl⟩
      obtain ⟨b, s, hs, hb⟩ := hlabel label (u ++ [ch '\x7d'])
      refine ⟨b, s, ?_, hb⟩
      rw [← hs, Value.text, hitems]
      simp [Rfc8259.Kind.opening, Rfc8259.Kind.closing]

theorem isRaw_setAll {v : Value} (h : IsRaw v) {edits : List (List Nat × Value)} (hinside : ∀ e ∈ edits, e.1 ≠ []) :
    IsRaw (v.setAll edits) := by
  induction edits with
  | nil => exact h
  | cons e edits ih =>
    obtain ⟨hfirst, hrest⟩ := List.forall_mem_cons.mp hinside
    obtain ⟨j, a, ha⟩ := List.exists_cons_of_ne_nil hfirst
    have hv := ih hrest
    have hset : v.setAll (e :: edits) = (v.setAll edits).set (j :: a) e.2 := by rw [← ha]; rfl
    rw [hset, Value.set]
    cases (v.setAll edits).child j with
    | none => exact hv
    | some p =>
      cases hw : v.setAll edits with
      | group k items =>
        rw [hw] at hv
        cases k with
        | array => exact hv
        | object => trivial
      | scalar | string | empty =>
        rw [hw] at hv
        exact hv

section Config

variable {cfg : DemaskConfig}

theorem demaskLeaves_value (hnever : NeverFails cfg false) (v : Value) :
    ∃ edits : List (List Nat × Value), edits.Perm (Json.stringEdits (demasked cfg) v) ∧
      demaskLeaves cfg v.text = (v.setAll edits).text := by
  have t : ∃ t : Reading v.text, t.before.1 = [] ∧ t.value = v ∧ t.after.1 = [] :=
    ⟨⟨⟨[], by simp⟩, v, ⟨[], by simp⟩, by simp⟩, rfl, rfl, rfl⟩
  obtain ⟨t, hbefore, hvalue, hafter⟩ := t
  have hedits := leafEdits_document hnever t
  rw [hvalue, hbefore, List.length_nil] at hedits
  have hdoc : v.text = [] ++ (v.text ++ []) := by simp
  have hplaces : ∀ e ∈ Json.stringEdits (demasked cfg) v, (v.place e.1).isSome := by
    intro e he
    obtain ⟨p, -, hp, -⟩ := Json.mem_stringEdits he
    rw [hp, Option.isSome_some]
  obtain ⟨order, hperm, hout⟩ := Json.spliceAll_setAll hdoc (Json.stringEdits_apart (demasked cfg) v) hplaces
  rw [List.nil_append, List.append_nil, List.length_nil] at hout
  refine ⟨order, hperm, ?_⟩
  unfold demaskLeaves
  rw [hedits]
  cases hnone : Json.stringEdits (demasked cfg) v with
  | nil =>
    rw [hnone] at hperm
    rw [hperm.eq_nil]
    rfl
  | cons e edits =>
    have hvalid : Json.valid (v.setAll order).text = true :=
      (Json.valid_iff_reading _).mpr ⟨⟨[], by simp⟩, v.setAll order, ⟨[], by simp⟩, by simp⟩
    rw [hnone, List.map_cons] at hout
    simp only [List.map_cons, List.isEmpty_cons, Bool.false_eq_true, if_false, hout, hvalid, if_true]

theorem keepsEnds_demasked (hnever : NeverFails cfg false) (hkeeps : KeepsEnds (cfg.rewriter false).rewrite) :
    KeepsEnds (demasked cfg) := by
  have heq : demasked cfg = (cfg.rewriter false).rewrite := by
    funext text
    exact Except.ok.inj ((demaskAll_demasked hnever text).symm.trans (demaskAll_eq hnever text))
  rwa [heq]

theorem takes_demasked (hnever : NeverFails cfg false) (hkeeps : KeepsEnds (demasked cfg)) {v : Value} (hraw : IsRaw v)
    {f : ContentField} (hf : f.isRawObject = true) : f.Takes (demaskJsonArguments cfg v.text) := by
  obtain ⟨b, s, htext, hopen, hclose⟩ := raw_second hraw
  have hown : f.Takes v.text := @takes_own true _ hraw _ hf
  have hne : v.text.isEmpty = false := by rw [htext]; rfl
  unfold demaskJsonArguments
  simp only [hne, Bool.false_eq_true, if_false, demaskAll_demasked hnever]
  split
  · rename_i hnaive
    unfold ContentField.Takes at hown ⊢
    rw [if_pos hf] at hown ⊢
    have hfree : ch '<' ∉ [ch '\x7b', b] := by
      simp only [List.mem_cons, List.not_mem_nil, or_false, not_or]
      exact ⟨by decide, Ne.symm hopen⟩
    obtain ⟨u, hu⟩ := hkeeps.front [ch '\x7b', b] s hfree
    have hstart : demasked cfg v.text = ch '\x7b' :: b :: u := by
      rw [htext]
      exact hu.symm
    refine ⟨hnaive, by rw [hstart]; rfl, hkeeps.last _ _ hown.2.2.1 (by decide), ?_⟩
    rw [hstart]
    intro hempty
    have hbyte : b = ch '\x7d' := (List.cons.inj (List.cons.inj hempty).2).1
    exact hclose hbyte
  · obtain ⟨edits, hperm, hout⟩ := demaskLeaves_value hnever v
    rw [hout]
    refine @takes_own true _ (isRaw_setAll hraw fun e he hroot => ?_) _ hf
    obtain ⟨p, t, hp, ht, -⟩ := Json.mem_stringEdits (hperm.mem_iff.mp he)
    rw [hroot] at hp
    obtain rfl := Option.some.inj hp
    rw [show v = .string t from ht] at hraw
    exact hraw

theorem demaskJsonArguments_ne_nil (hnever : NeverFails cfg false) {text : Bytes} (htext : text ≠ []) :
    demaskJsonArguments cfg text ≠ [] := by
  have hvalid : ∀ out, Json.valid out = true → out ≠ [] := by
    rintro out hout rfl
    cases hout
  have hleaves : demaskLeaves cfg text ≠ [] := by
    unfold demaskLeaves
    split
    · exact htext
    · split
      · exact htext
      · split
        · exact htext
        · split
          · exact hvalid _ ‹_›
          · exact htext
  unfold demaskJsonArguments
  split
  · exact htext
  · rw [demaskAll_demasked hnever]
    simp only
    split
    · exact hvalid _ ‹_›
    · exact hleaves

/-- What is known of a field that was extracted. -/
structure Extracted (f : ContentField) : Prop where
  text : f.text ≠ []
  raw : f.isRawObject = true → ∃ v : Value, IsRaw v ∧ v.text = f.text

theorem extracted {side : Side} {format : ApiFormat} {body : Bytes} {found : List ContentField}
    (h : extract side body format = .fields found) : ∀ f ∈ found, Extracted f := by
  intro f hf
  refine ⟨text_ne_nil h f hf, fun hraw => ?_⟩
  rcases extract_cases h with rfl | ⟨r, -, rfl⟩
  · cases hf
  · obtain ⟨g, hg, rfl⟩ := List.mem_map.mp hf
    obtain ⟨p, hp, hfits⟩ := (lawful_walkOf side format).fits _ g hg
    have hgraw : g.raw = true := hraw
    rw [fieldOf_place hp]
    rw [hgraw] at hfits ⊢
    exact ⟨p.value, hfits, rfl⟩

/-- A demasked field gets a text that it can have. -/
theorem demaskFieldText_takes (hnever : NeverFails cfg false) (hkeeps : KeepsEnds (cfg.rewriter false).rewrite)
    {f : ContentField} (hf : Extracted f) (chunkSize : Nat) :
    ∃ text, demaskFieldText cfg f chunkSize = .ok text ∧ f.Takes text := by
  have htakes : f.isRawObject = false → ∀ text, text ≠ [] → f.Takes text := by
    intro hraw text htext
    unfold ContentField.Takes
    rwa [hraw]
  unfold demaskFieldText
  split
  · refine ⟨_, rfl, ?_⟩
    cases hraw : f.isRawObject with
    | false => exact htakes hraw _ (demaskJsonArguments_ne_nil hnever hf.text)
    | true =>
      obtain ⟨v, hv, htext⟩ := hf.raw hraw
      rw [← htext]
      exact takes_demasked hnever (keepsEnds_demasked hnever hkeeps) hv hraw
  · rename_i hplain
    have hraw : f.isRawObject = false := by
      rw [Bool.or_eq_true, not_or] at hplain
      exact Bool.eq_false_iff.mpr hplain.1
    split
    · exact ⟨_, demaskAll_eq hnever f.text, htakes hraw _ (hkeeps.nonempty _ hf.text)⟩
    · rename_i hsize
      refine ⟨_, demaskStream_eq hnever [] _, htakes hraw _ (run_ne_nil hkeeps.nonempty (by simp) ?_)⟩
      rw [List.flatten_append, pieces_flatten (Nat.pos_of_ne_zero hsize) _ _ (Nat.le_refl _)]
      simpa using hf.text

theorem demaskFields_takes (hnever : NeverFails cfg false) (hkeeps : KeepsEnds (cfg.rewriter false).rewrite)
    {found : List ContentField} (hfound : ∀ f ∈ found, Extracted f) (chunkSize : Nat) :
    ∃ texts, demaskFields cfg chunkSize found = .ok texts ∧ List.Forall₂ (fun f text => f.Takes text) found texts := by
  induction found with
  | nil => exact ⟨[], rfl, .nil⟩
  | cons f found ih =>
    obtain ⟨hf, hothers⟩ := List.forall_mem_cons.mp hfound
    obtain ⟨text, htext, htakes⟩ := demaskFieldText_takes hnever hkeeps hf chunkSize
    obtain ⟨texts, htexts, hall⟩ := ih hothers
    refine ⟨text :: texts, ?_, .cons htakes hall⟩
    rw [demaskFields, htext, htexts]
    rfl

end Config

/-- In one go and without a snapshot, the replacer says what a field gets. -/
def Replaced (state : MaskingState) (f : ContentField) (text : Bytes) : Prop :=
  (f.isRawObject || pathIsArguments f.path) = false → text = replacer state.replacements false f.text

theorem demaskFields_replaced {env : Env} {state : MaskingState} {found : List ContentField} {texts : List Bytes}
    (h : demaskFields (makeConfig env state none) 0 found = .ok texts) : List.Forall₂ (Replaced state) found texts := by
  have hnever : NeverFails (makeConfig env state none) false := neverFails_of_no_scan false (makeConfig_none_scan env state)
  induction found generalizing texts with
  | nil =>
    obtain rfl := Except.ok.inj h
    exact .nil
  | cons f found ih =>
    unfold demaskFields at h
    split at h
    · cases h
    · rename_i text htext
      cases hrest : demaskFields (makeConfig env state none) 0 found with
      | error e =>
        rw [hrest] at h
        cases h
      | ok rest =>
        rw [hrest] at h
        obtain rfl := Except.ok.inj h
        refine .cons (fun hplain => ?_) (ih hrest)
        unfold demaskFieldText at htext
        rw [hplain, if_neg Bool.false_ne_true, if_pos rfl, demaskAll_demasked hnever, demasked_replacer] at htext
        exact (Except.ok.inj htext).symm

end

/-! ## The whole body -/

theorem Masked.angled {crs : List CompiledRule} {texts : List Bytes} {result : MaskResult} {calls : List Call}
    (h : Masked crs texts result calls) : Angled result.state.replacements := by
  obtain ⟨st, htable, hreps⟩ := h.table
  have horigin : ∀ r ∈ result.state.replacements, r.original ≠ [] ∧ ∃ type n, r.placeholder = renderPlaceholder type n := by
    intro r hr
    rw [← hreps] at hr
    obtain ⟨q, hq, n, -, rfl⟩ := htable.origins r hr
    refine ⟨?_, q.type, n, rfl⟩
    obtain ⟨c, -, hqc⟩ := List.mem_flatMap.mp hq
    obtain ⟨m, -, hm⟩ := List.mem_filterMap.mp hqc
    unfold requestOf at hm
    split at hm
    · cases hm
    · split at hm
      · cases hm
      · rename_i hne
        obtain rfl := Option.some.inj hm
        exact fun hnil => hne (.inl hnil)
  constructor
  · exact fun r hr => (horigin r hr).1
  · intro r hr
    obtain ⟨-, type, n, hplace⟩ := horigin r hr
    rw [hplace, renderPlaceholder]
    rfl
  · intro r hr
    obtain ⟨-, type, n, hplace⟩ := horigin r hr
    rw [hplace, renderPlaceholder, List.getLast?_append_of_ne_nil _ (by decide)]
    rfl

/-- Whatever quotes the placeholders of some texts, demasking it never fails, with a snapshot or without. It writes the
demasked texts at the spans of the fields whose text changes, copies every other byte, and keeps JSON valid. The demasked
texts are what the new body holds, at the same paths. -/
theorem demaskBody_lens (env : Env) (hre : InText env.re2) (hsort : SortSpec env.sortMatches) (crs : List CompiledRule)
    (hcompiled : ∀ cr ∈ crs, cr.re.isSome) (texts : List Bytes) (opts : MaskOptions) (result : MaskResult)
    (hmask : maskTexts env texts (crs.map some) opts = .ok result) (U : Regexp.Unicode) (pinned : Option Registry)
    (hpinned : ∀ reg, pinned = some reg → RunsSnapshot env U reg) (body : Bytes) (format : ApiFormat)
    (isResponse : Bool) (found : List ContentField) (hfound : extractFields body format isResponse = .ok found)
    (chunkSize : Nat) :
    ∃ (demaskedTexts : List Bytes) (out : Bytes) (found' : List ContentField) (order : List (ValueSpan × Bytes)),
      demaskFields (makeConfig env result.state pinned) chunkSize found = .ok demaskedTexts ∧
      demaskBody body format isResponse (makeConfig env result.state pinned) chunkSize = .ok out ∧
      order.Perm (fieldEdits found demaskedTexts) ∧ Splice.Ordered body.length 0 (order.map spanPair) ∧
      out = Splice.weave (Splice.gaps body 0 (order.map spanPair)) (order.map Prod.snd) ∧
      (Json.valid body = true → Json.valid out = true) ∧
      extractFields out format isResponse = .ok found' ∧
      found'.map ContentField.path = found.map ContentField.path ∧ found'.map ContentField.text = demaskedTexts ∧
      (pinned = none → chunkSize = 0 → List.Forall₂ (Replaced result.state) found demaskedTexts) := by
  obtain ⟨calls, result', hmask', h⟩ := exists_masked hre hsort hcompiled texts opts
  obtain rfl := Except.ok.inj (hmask.symm.trans hmask')
  have hextract := extractFields_ok.mp hfound
  obtain ⟨hkeeps, hnever⟩ := keepsEnds_rewrite hpinned h.angled
  obtain ⟨demaskedTexts, htexts, htakes⟩ := demaskFields_takes hnever hkeeps (extracted hextract) chunkSize
  obtain ⟨out, found', back, hpatched⟩ := exists_patched hextract (htakes.imp fun _ _ => .inr)
  obtain ⟨hin, hapart⟩ := fieldEdits_apart hextract demaskedTexts
  have hordered := Json.editOrder_ordered hin hapart
  refine ⟨demaskedTexts, out, found', _, htexts, ?_, List.mergeSort_perm _ _, hordered, ?_, hpatched.valid,
    extractFields_ok.mpr hpatched.fields, hpatched.paths, hpatched.newTexts, ?_⟩
  · unfold demaskBody
    rw [hfound]
    simp only [bind, Except.bind, htexts, spliceEdits_eq]
    exact hpatched.splice
  · exact Except.ok.inj (hpatched.splice.symm.trans (Json.spliceAll_ok hordered))
  · rintro rfl rfl
    exact demaskFields_replaced htexts

/-! ## A reply to a name -/

def annReply : Bytes := ascii "\x7b\"choices\":[\x7b\"message\":\x7b\"content\":\"hi <EMAIL_1>\"\x7d\x7d]\x7d"

theorem extractFields_reply : extractFields annReply .chatCompletions true =
    .ok [⟨[keySeg "choices", .index 0, keySeg "message", keySeg "content"], ⟨34, 48, true⟩, ascii "hi <EMAIL_1>",
      false⟩] := by decide +kernel

/-- With an engine that quotes. -/
def annEnv : Env := { sampleEnv annSpelling with re2 := quotingRe2 annSpelling }

theorem build_annEnv : Registry.build annEnv [annRule] = .ok annRegistry := by
  have hrules : (Registry.build annEnv [annRule]).map Registry.rules = .ok annRegistry.rules := by
    decide +kernel
  cases hbuild : Registry.build annEnv [annRule] with
  | error e =>
    rw [hbuild] at hrules
    cases hrules
  | ok reg =>
    rw [hbuild] at hrules
    obtain ⟨rules, distinct⟩ := reg
    cases hrules
    rfl

theorem runsSnapshot_ann : RunsSnapshot annEnv Regexp.asciiUnicode annRegistry where
  folds := Regexp.asciiUnicode_cases
  quotes _ _ := rfl
  built := by
    refine ⟨[annRule], build_annEnv, by decide, fun r hr => ?_⟩
    obtain rfl := List.mem_singleton.mp hr
    refine ⟨_, runsAs_narrow annSpelling_captures (fun w => ?_) (by decide) (by decide)⟩
    have hsame : recogniser (quotingRe2 annSpelling) annRule = recogniser (sampleRe2 fun _ _ => none) annRule := by
      decide +kernel
    rw [hsame, show asciiTrim annRule.masking.placeholder = ascii "EMAIL" by decide]
    exact if_pos rfl

theorem demaskBody_lens_sample : ∃ result, maskTexts annEnv [ascii "dear ann"] (annRegistry.rules.map some)
      ⟨⟨true, 1⟩, 0⟩ = .ok result ∧
    ∃ out, demaskBody annReply .chatCompletions true (makeConfig annEnv result.state (some annRegistry)) 3 = .ok out ∧
      Json.valid out = true ∧ ∃ found', extractFields out .chatCompletions true = .ok found' ∧
        found'.map ContentField.path = [[keySeg "choices", .index 0, keySeg "message", keySeg "content"]] := by
  have hin := sampleRe2_inText annSpelling_captures
  have hre : InText annEnv.re2 := ⟨hin.whole, hin.groups⟩
  have hsort : SortSpec annEnv.sortMatches := sampleSort_spec
  obtain ⟨-, result, hmask, -⟩ := exists_masked hre hsort ann_compiled [ascii "dear ann"] ⟨⟨true, 1⟩, 0⟩
  obtain ⟨texts, out, found', -, -, hout, -, -, -, hvalid, hfields, hpaths, -, -⟩ :=
    demaskBody_lens annEnv hre hsort annRegistry.rules ann_compiled [ascii "dear ann"] ⟨⟨true, 1⟩, 0⟩ result hmask
      Regexp.asciiUnicode (some annRegistry) (fun reg hreg => Option.some.inj hreg ▸ runsSnapshot_ann) annReply
      .chatCompletions true _ extractFields_reply 3
  exact ⟨result, hmask, out, hout, hvalid (by decide +kernel), found', hfields, hpaths⟩

end LlmGuard.Pipeline
