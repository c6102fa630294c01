import LlmGuard.Demasker.RawPass
import LlmGuard.Json.Rewrite
import LlmGuard.Spec.Sample

/-!
# `demask_json_arguments`

The structural pass demasks the strings of a document and leaves everything else. The raw pass does the same where
the document and the originals fit.
-/

namespace LlmGuard

open Rfc8259 (Value IsBody Reading quoted)
open Json (treeOf decodeString)

/-- The demasked text. Where the call throws, what its error hands back. -/
def demasked (cfg : DemaskConfig) (text : Bytes) : Bytes :=
  match demaskAll cfg text false with
  | .ok out => out
  | .error e => e.unemitted

/-- The document says what it said, with every string demasked. -/
def KeepsMeaning (cfg : DemaskConfig) (rawJson out : Bytes) : Prop :=
  Json.valid out = true ∧ ∀ (t : Reading rawJson) (t' : Reading out),
    treeOf t'.value = (treeOf t.value).mapStrings (demasked cfg)

section

variable {cfg : DemaskConfig}

theorem demaskAll_demasked (hnever : NeverFails cfg false) (text : Bytes) :
    demaskAll cfg text false = .ok (demasked cfg text) := by
  have hok := demaskAll_eq hnever text
  unfold demasked
  rw [hok]

theorem leafEdits_leaves (hnever : NeverFails cfg false) {rawJson : Bytes} (t : Reading rawJson)
    {ls : List (List Json.PathSeg × List Nat)} (hls : ∀ l ∈ ls, l ∈ Json.leaves t.value) :
    leafEdits cfg rawJson (ls.filterMap (Json.leafOf [] t.before.1.length t.value)) =
      some ((ls.filterMap (Json.stringEdit (demasked cfg) t.value)).map (Json.editAt t.before.1.length t.value)) := by
  induction ls with
  | nil => rfl
  | cons l ls ih =>
    obtain ⟨p, b, hp, hb⟩ := (Json.mem_leaves_iff t.value l.2).mp ⟨l.1, hls l List.mem_cons_self⟩
    have hleaf : Json.leafOf [] t.before.1.length t.value l =
        some ⟨l.1, Json.placeSpan t.before.1.length p⟩ := by
      rw [Json.leafOf, hp]
      rfl
    obtain ⟨hslice, hlen⟩ := Json.slice_placeSpan (Json.Reading.spanOf t).1.doc_eq (Value.place_text hp)
    have hquoted : (rawJson.drop (Json.placeSpan t.before.1.length p).start).take
        ((Json.placeSpan t.before.1.length p).stop - (Json.placeSpan t.before.1.length p).start) = quoted b.1 := by
      rw [hb] at hslice
      exact hslice
    have hstart : (Json.placeSpan t.before.1.length p).start ≤ (Json.placeSpan t.before.1.length p).stop :=
      Nat.le_add_right _ _
    have hrest := ih fun m hm => hls m (List.mem_cons_of_mem _ hm)
    rw [List.filterMap_cons, hleaf, List.filterMap_cons, Json.stringEdit_string hp hb]
    unfold leafEdits
    rw [substr_ok _ _ _ (hstart.trans hlen)]
    simp only [hquoted, demaskAll_demasked hnever, hrest, Except.toOption, Option.bind_eq_bind, Option.bind_some]
    split
    · rfl
    · rw [List.map_cons, Json.editAt_place hp]
      rfl

theorem leafEdits_document (hnever : NeverFails cfg false) {rawJson : Bytes} (t : Reading rawJson) :
    leafEdits cfg rawJson (Json.stringLeaves rawJson []) =
      some ((Json.stringEdits (demasked cfg) t.value).map (Json.editAt t.before.1.length t.value)) := by
  rw [Json.stringLeaves_reading t]
  exact leafEdits_leaves hnever t fun l hl => hl

/-- The structural pass demasks the strings and nothing else. -/
theorem demaskLeaves_tree (hnever : NeverFails cfg false) {rawJson : Bytes} (t : Reading rawJson) :
    ∃ t' : Reading (demaskLeaves cfg rawJson), treeOf t'.value = (treeOf t.value).mapStrings (demasked cfg) := by
  suffices h : ∃ out, demaskLeaves cfg rawJson = out ∧
      ∃ t' : Reading out, treeOf t'.value = (treeOf t.value).mapStrings (demasked cfg) by
    obtain ⟨out, rfl, ht'⟩ := h
    exact ht'
  unfold demaskLeaves
  rw [leafEdits_document hnever t]
  cases hedits : Json.stringEdits (demasked cfg) t.value with
  | nil =>
    refine ⟨rawJson, rfl, t, ?_⟩
    exact Json.setAll_stringEdits (by rw [hedits])
  | cons e edits =>
    obtain ⟨out, hout, t', htree⟩ := Json.spliceAll_stringEdits (demasked cfg) t
    have hvalid : Json.valid out = true := (Json.valid_iff_reading out).mpr ⟨t'⟩
    rw [hedits] at hout
    refine ⟨out, ?_, t', htree⟩
    rw [List.map_cons] at hout
    simp only [List.map_cons, List.isEmpty_cons, Bool.false_eq_true, if_false, hout]
    simp only [hvalid, if_true]

theorem keepsMeaning_of_tree {rawJson out : Bytes} (h : ∀ t : Reading rawJson, ∃ t' : Reading out,
      treeOf t'.value = (treeOf t.value).mapStrings (demasked cfg)) (hvalid : Json.valid rawJson = true) :
    KeepsMeaning cfg rawJson out := by
  obtain ⟨t⟩ := (Json.valid_iff_reading rawJson).mp hvalid
  obtain ⟨t', -⟩ := h t
  refine ⟨(Json.valid_iff_reading out).mpr ⟨t'⟩, fun u u' => ?_⟩
  obtain ⟨u'', htree⟩ := h u
  rw [Json.reading_value u' u'', htree]

end

theorem demasked_replacer (env : Env) (state : MaskingState) :
    demasked (makeConfig env state none) = replacer state.replacements false := by
  funext text
  rw [demasked, demaskAll_replacer]

/-- The demasked arguments say what the masked ones said, with every string demasked, if the raw pass over the bytes
gives no JSON, or the document fits. -/
theorem demaskJsonArguments_keeps (env : Env) (state : MaskingState) (rawJson : Bytes)
    (hvalid : Json.valid rawJson = true)
    (hfits : Json.valid (replacer state.replacements false rawJson) = false ∨
      ∃ t : Reading rawJson, DocumentFits state.replacements t) :
    KeepsMeaning (makeConfig env state none) rawJson (demaskJsonArguments (makeConfig env state none) rawJson) := by
  have hnever : NeverFails (makeConfig env state none) false := neverFails_of_no_scan false (makeConfig_none_scan env state)
  have hreplacer := demasked_replacer env state
  generalize makeConfig env state none = cfg at hnever hreplacer
  have hne : rawJson.isEmpty = false := by
    cases rawJson with
    | nil => cases hvalid
    | cons => rfl
  unfold demaskJsonArguments
  simp only [hne, Bool.false_eq_true, if_false, demaskAll_demasked hnever]
  rw [← hreplacer] at hfits
  split
  · rename_i hnaive
    rcases hfits with hinvalid | ⟨t, hfits⟩
    · rw [hnaive] at hinvalid
      cases hinvalid
    · obtain ⟨t', htree⟩ := replacer_document hfits
      refine keepsMeaning_of_tree (fun u => ?_) hvalid
      rw [hreplacer, Json.reading_value u t]
      exact ⟨t', htree⟩
  · exact keepsMeaning_of_tree (demaskLeaves_tree hnever) hvalid

/-- One replacement, for `<K_1>`. -/
def keyState (original : Bytes) : MaskingState where
  triggeredRuleIds := []
  triggeredDataTypes := []
  replacements := [⟨ascii "k", .custom, original, ascii "<K_1>"⟩]

/-- An object with one member, whose key and value are the same string. -/
def keyed (s : Bytes) : Value :=
  .group .object (.last (.key Rfc8259.noWs (Json.encodedBody s) Rfc8259.noWs) Rfc8259.noWs
    (.string (Json.encodedBody s)) Rfc8259.noWs)

/-- The raw pass restores an original in a key too. -/
theorem demaskJsonArguments_rewrites_key :
    ¬ ∀ (env : Env) (state : MaskingState) (rawJson : Bytes), Json.valid rawJson = true →
      KeepsMeaning (makeConfig env state none) rawJson (demaskJsonArguments (makeConfig env state none) rawJson) := by
  intro h
  let env := sampleEnv fun _ _ => none
  let rawJson := ascii "\x7b\"<K_1>\":\"<K_1>\"\x7d"
  have hraw : rawJson = (keyed (ascii "<K_1>")).text := by decide
  have hout : demaskJsonArguments (makeConfig env (keyState (ascii "k")) none) rawJson = (keyed (ascii "k")).text := by
    decide +kernel
  obtain ⟨-, hmeaning⟩ := h env (keyState (ascii "k")) rawJson (by decide +kernel)
  have htree := hmeaning ⟨⟨[], by simp⟩, keyed (ascii "<K_1>"), ⟨[], by simp⟩, by simpa using hraw⟩
    ⟨⟨[], by simp⟩, keyed (ascii "k"), ⟨[], by simp⟩, by simpa using hout⟩
  have hkey := (Prod.mk.inj (List.cons.inj (Json.Tree.group.inj htree).2).1).1
  exact absurd (Option.some.inj hkey) (by decide)

/-- An escape stands next to the placeholder, and the key stays. -/
def noteReading : Reading (ascii "\x7b\"to\":\"a\\n<K_1>\"\x7d") where
  before := Rfc8259.noWs
  value := .group .object (.last (.key Rfc8259.noWs (Json.encodedBody (ascii "to")) Rfc8259.noWs) Rfc8259.noWs
    (.string (Json.encodedBody (ascii "a\n<K_1>"))) Rfc8259.noWs)
  after := Rfc8259.noWs
  eq := by decide

theorem noteReading_fits : DocumentFits (keyState (ascii "k")).replacements noteReading where
  found := by decide
  strings b hb := by
    rw [List.mem_singleton.mp hb]
    refine ⟨[ascii "a\\n", []], [ascii "<K_1>"], [ascii "k"], rfl, ?_, by decide, by decide, by decide, ?_⟩
    · have hnote : IsBody (ascii "a\\n") := .plain (by decide) (by decide) (by decide) (.escape (by decide) .nil)
      exact List.forall_mem_cons.mpr ⟨hnote, List.forall_mem_singleton.mpr .nil⟩
    · intro o ho
      rw [List.mem_singleton.mp ho]
      exact ⟨by unfold Unescaped; decide, fun h => absurd h (by decide)⟩

theorem demaskJsonArguments_keeps_sample :
    KeepsMeaning (makeConfig (sampleEnv fun _ _ => none) (keyState (ascii "k")) none)
      (ascii "\x7b\"to\":\"a\\n<K_1>\"\x7d")
      (demaskJsonArguments (makeConfig (sampleEnv fun _ _ => none) (keyState (ascii "k")) none)
        (ascii "\x7b\"to\":\"a\\n<K_1>\"\x7d")) :=
  demaskJsonArguments_keeps (sampleEnv fun _ _ => none) (keyState (ascii "k")) (ascii "\x7b\"to\":\"a\\n<K_1>\"\x7d")
    (by decide +kernel) (.inr ⟨noteReading, noteReading_fits⟩)

end LlmGuard
