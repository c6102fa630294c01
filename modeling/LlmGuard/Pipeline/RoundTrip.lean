import LlmGuard.Demasker.LookAlikes
import LlmGuard.Pipeline.Lens
import LlmGuard.Pipeline.Masked

/-!
# Masking a body, and demasking it

What is masked in a body is restored in it, byte for byte up to the spelling of the strings that were masked.
-/

namespace LlmGuard.Pipeline

open Rfc8259 (Value Place Apart)
open Extract
open Json (ValueSpan Root editAt placeSpan spanPair)

/-! ## Literals that stay -/

/-- The literal in the body is the one that the pipeline would write. -/
def Canonical (body : Bytes) (f : ContentField) : Prop :=
  slice body f.span.start f.span.stop = fieldReplacement f f.text

theorem spliceAll_self {doc : Bytes} {edits : List (ValueSpan × Bytes)}
    (hin : ∀ e ∈ edits, e.1.start < e.1.stop ∧ e.1.stop ≤ doc.length)
    (hapart : edits.Pairwise fun a b => a.1.stop ≤ b.1.start ∨ b.1.stop ≤ a.1.start)
    (hself : ∀ e ∈ edits, e.2 = slice doc e.1.start e.1.stop) : Json.spliceAll doc edits = .ok doc := by
  have hordered := Json.editOrder_ordered hin hapart
  have hpieces : (Json.editOrder edits).map Prod.snd = Splice.pieces doc ((Json.editOrder edits).map spanPair) := by
    unfold Splice.pieces
    rw [List.map_map]
    exact List.map_congr_left fun e he => hself e ((List.mergeSort_perm _ _).mem_iff.mp he)
  rw [Json.spliceAll_ok hordered, hpieces, Splice.weave_pieces _ _ _ hordered, List.drop_zero]

theorem takes_own {raw : Bool} {x : Value} (h : Fits raw x) {f : ContentField} (hraw : f.isRawObject = raw) :
    f.Takes (valueText raw x) := by
  unfold ContentField.Takes
  rw [hraw]
  unfold Fits at h
  unfold valueText
  cases raw with
  | false =>
    obtain ⟨b, rfl⟩ := isText_string h
    exact h
  | true =>
    obtain ⟨hhead, hne⟩ := (isRaw_iff x).mp h
    have hvalid : Json.valid x.text = true :=
      (Json.valid_iff_reading _).mpr ⟨⟨[], by simp⟩, x, ⟨[], by simp⟩, by simp⟩
    have hlast : x.text.getLast? = some (ch '\x7d') := by
      cases x with
      | scalar | string => exact h.elim
      | empty k w =>
        cases k with
        | array => exact h.elim
        | object => exact List.getLast?_concat (l := _ :: w.1)
      | group k items =>
        cases k with
        | array => exact h.elim
        | object => exact List.getLast?_concat (l := _ :: items.text)
    exact ⟨hvalid, hhead, hlast, hne⟩

theorem takes_texts {base base' : Nat} {v v' : Value} {foci : List Focus}
    (hfits : ∀ f ∈ foci, ∃ p, v.place f.address = some p ∧ Fits f.raw p.value) :
    List.Forall₂ MayGet (foci.map (fieldOf base' v')) ((foci.map (fieldOf base v)).map ContentField.text) := by
  rw [List.map_map, List.forall₂_map_left_iff, List.forall₂_map_right_iff, List.forall₂_same]
  intro f hf
  obtain ⟨p, hp, hfit⟩ := hfits f hf
  rw [Function.comp_apply, fieldOf_place hp]
  exact .inr (takes_own hfit rfl)

section

variable {doc : Bytes} (r : Root doc) {side : Side} {format : ApiFormat} {writes : List Write}

theorem splice_canonical (hwritable : Writable r side format writes)
    (hown : ∀ e ∈ writes, ∃ text, (e.1, text) ∈ (walkOf side format r.value).zip
      (((walkOf side format r.value).map (fieldOf r.before.1.length r.value)).map ContentField.text) ∧ Becomes e.1 text e.2)
    (hcanonical : ∀ f ∈ (walkOf side format r.value).map (fieldOf r.before.1.length r.value), Canonical doc f) :
    Json.spliceAll doc ((writes.map Write.edit).map (editAt r.before.1.length r.value)) = .ok doc := by
  have hedit : ∀ e : Write, editAt r.before.1.length r.value e.edit =
      ((fieldOf r.before.1.length r.value e.1).span, e.2.text) := fun e => rfl
  have hsits := fun f hf => Root.field_sits r side format (f := f) hf
  rw [List.map_map]
  refine spliceAll_self (List.forall_mem_map.mpr fun e he => ?_) ?_ (List.forall_mem_map.mpr fun e he => ?_)
  · have h := hsits _ (hwritable.mem he)
    exact ⟨h.pos, h.stop_le⟩
  · have h := Root.fields_apart r side format
    unfold SpansApart at h
    rw [List.pairwise_map] at h
    have h' := h.sublist hwritable.picked
    rw [List.pairwise_map] at h'
    exact List.pairwise_map.mpr h'
  · obtain ⟨text, hmem, -, -, htext⟩ := hown e he
    rw [List.map_map, List.zip_map_right, List.zip_eq_zipWith, List.zipWith_self, List.map_map] at hmem
    obtain ⟨f, hf, heq⟩ := List.mem_map.mp hmem
    obtain ⟨rfl, rfl⟩ := Prod.mk.inj heq
    rw [Function.comp_apply, hedit]
    simp only
    rw [hcanonical _ (List.mem_map_of_mem hf), htext]
    rfl

/-- New texts, and then the old ones again. -/
theorem root_round_trip {found : List ContentField} (hfound : extract side doc format = .fields found)
    {texts : List Bytes} (htexts : List.Forall₂ MayGet found texts) :
    ∃ (out : Bytes) (r' : Root out) (found' : List ContentField) (back : Bytes)
      (found'' : List ContentField),
      Json.spliceAll doc (fieldEdits found texts) = .ok out ∧ r'.post = r.post ∧
      extract side out format = .fields found' ∧ found'.map ContentField.path = found.map ContentField.path ∧
      found'.map ContentField.text = texts ∧ found'.map ContentField.isRawObject = found.map ContentField.isRawObject ∧
      Json.spliceAll out (fieldEdits found' (found.map ContentField.text)) = .ok back ∧
      extract side back format = .fields found'' ∧ found''.map ContentField.path = found.map ContentField.path ∧
      found''.map ContentField.text = found.map ContentField.text ∧
      ((∀ f ∈ found, Canonical doc f) → back = doc) := by
  have hcovers := ((Root.extract_iff r side format).mp hfound).1
  obtain ⟨writes, out, r', hwritable, hchanged, -, hout, hbefore, hpost, hvalue, hcovers', hwalk, hback⟩ :=
    root_patch (r := r) hfound htexts
  obtain rfl := ((Root.extract_iff r side format).mp hfound).2
  have hfound' := (Root.extract_iff r' side format).mpr ⟨hcovers', rfl⟩
  have hold : List.Forall₂ MayGet ((walkOf side format r'.value).map (fieldOf r'.before.1.length r'.value))
      (((walkOf side format r.value).map (fieldOf r.before.1.length r.value)).map ContentField.text) := by
    rw [hwalk]
    exact takes_texts fun f hf => (lawful_walkOf side format).fits _ f hf
  obtain ⟨writes', back, r'', hwritable', hchanged', hown, hout', hbefore', hpost', hvalue', hcovers'', hwalk', hback'⟩ :=
    root_patch (r := r') hfound' hold
  have hfound'' := (Root.extract_iff r'' side format).mpr ⟨hcovers'', rfl⟩
  have hpaths : ∀ (base base' : Nat) (v v' : Value) (foci : List Focus),
      (foci.map (fieldOf base v)).map ContentField.path = (foci.map (fieldOf base' v')).map ContentField.path :=
    fun base base' v v' foci => by rw [List.map_map, List.map_map]; rfl
  have hraws : ∀ (base base' : Nat) (v v' : Value) (foci : List Focus), (foci.map (fieldOf base v)).map
      ContentField.isRawObject = (foci.map (fieldOf base' v')).map ContentField.isRawObject :=
    fun base base' v v' foci => by rw [List.map_map, List.map_map]; rfl
  refine ⟨out, r', _, back, _, hout, hpost, hfound', ?_, hback, ?_, hout', hfound'', ?_, hback', fun hcanonical => ?_⟩
  · rw [hwalk]
    exact hpaths _ _ _ _ _
  · rw [hwalk]
    exact hraws _ _ _ _ _
  · rw [hwalk', hwalk]
    exact hpaths _ _ _ _ _
  · -- The second writes are at the places of the first ones. So they may be made in the document itself.
    have hsame : writes'.map Prod.fst = writes.map Prod.fst := by
      rw [hchanged', hchanged, hback, hwalk, changed_swap]
    have hdirect : Writable r side format writes' :=
      ⟨hsame ▸ hwritable.picked, fun e he => hwritable'.becomes e he⟩
    rw [hwalk] at hown
    obtain ⟨direct, r₀, hdout, hdbefore, hdpost, hdvalue, -, -⟩ := hdirect.splice hcovers
    have haddresses : (writes.map Write.edit).map Prod.fst = (writes'.map Write.edit).map Prod.fst := by
      have h := congrArg (List.map Focus.address) hsame.symm
      rw [List.map_map, List.map_map] at h ⊢
      exact h
    have hvalues : r''.value = r₀.value := by
      rw [hvalue', hvalue, Value.setAll_setAll hwritable.apart haddresses, hdvalue]
    have hroot : back = direct := root_unique r'' r₀ (hbefore'.trans (hbefore.trans hdbefore.symm))
      (hpost'.trans (hpost.trans hdpost.symm)) hvalues
    rw [splice_canonical r hdirect hown hcanonical] at hdout
    rw [hroot, ← Except.ok.inj hdout]

end

/-! ## Patching a body and back -/

theorem extract_cases {side : Side} {format : ApiFormat} {body : Bytes} {found : List ContentField}
    (h : extract side body format = .fields found) :
    found = [] ∨ ∃ r : Root body, (Json.valid body = true → ∃ w : Rfc8259.Ws, r.post = ch '\x7d' :: w.1) ∧
      found = (walkOf side format r.value).map (fieldOf r.before.1.length r.value) := by
  by_cases hblind : ∀ key, Json.findValue body [.key key] = none
  · exact .inl (extract_blind hblind side format h)
  · push Not at hblind
    obtain ⟨key, hkey⟩ := hblind
    obtain ⟨r, hclosed⟩ := Json.exists_root_closed hkey
    exact .inr ⟨r, hclosed, ((Root.extract_iff r side format).mp h).2⟩

/-- New texts for the fields of a body, and then the old ones again. -/
structure Patched (side : Side) (format : ApiFormat) (body : Bytes) (found : List ContentField) (texts : List Bytes)
    (out : Bytes) (found' : List ContentField) (back : Bytes) : Prop where
  splice : Json.spliceAll body (fieldEdits found texts) = .ok out
  valid : Json.valid body = true → Json.valid out = true
  fields : extract side out format = .fields found'
  paths : found'.map ContentField.path = found.map ContentField.path
  newTexts : found'.map ContentField.text = texts
  raws : found'.map ContentField.isRawObject = found.map ContentField.isRawObject
  spliceBack : Json.spliceAll out (fieldEdits found' (found.map ContentField.text)) = .ok back
  again : ∃ found'', extract side back format = .fields found'' ∧
    found''.map ContentField.path = found.map ContentField.path ∧
    found''.map ContentField.text = found.map ContentField.text
  same : (∀ f ∈ found, Canonical body f) → back = body

theorem exists_patched {side : Side} {format : ApiFormat} {body : Bytes} {found : List ContentField}
    (h : extract side body format = .fields found) {texts : List Bytes} (htexts : List.Forall₂ MayGet found texts) :
    ∃ out found' back, Patched side format body found texts out found' back := by
  rcases extract_cases h with rfl | ⟨r, hclosed, -⟩
  · cases htexts
    exact ⟨body, [], body, rfl, id, h, rfl, rfl, rfl, rfl, ⟨[], h, rfl, rfl⟩, fun _ => rfl⟩
  · obtain ⟨out, r', found', back, found'', hout, hpost, hfound', hpaths, hsame, hraws, hback, hfound'', hpaths', hsame',
      hcanonical⟩ := root_round_trip r h htexts
    refine ⟨out, found', back, hout, fun hvalid => ?_, hfound', hpaths, hsame, hraws, hback,
      ⟨found'', hfound'', hpaths', hsame'⟩, hcanonical⟩
    obtain ⟨w, hw⟩ := hclosed hvalid
    exact r'.valid (hpost.trans hw)

/-! ## Masking a body -/

def sideOf (isResponse : Bool) : Side := if isResponse then .response else .request

theorem extractFields_ok {body : Bytes} {format : ApiFormat} {isResponse : Bool} {found : List ContentField} :
    extractFields body format isResponse = .ok found ↔ extract (sideOf isResponse) body format = .fields found := by
  have heq : extract (sideOf isResponse) body format =
      if isResponse then extractResponse body format else extractRequest body format := by
    cases isResponse <;> rfl
  unfold extractFields
  rw [heq]
  cases (if isResponse then extractResponse body format else extractRequest body format) with
  | fields found' => rw [Except.ok.injEq, ExtractResult.fields.injEq]
  | unsupported => exact iff_of_false (fun h => by cases h) fun h => by cases h

theorem spliceEdits_eq (body : Bytes) (edits : List (ValueSpan × Bytes)) :
    spliceEdits body edits = Json.spliceAll body edits := by
  unfold spliceEdits
  split
  · rename_i hempty
    rw [List.isEmpty_iff.mp hempty]
    rfl
  · rfl

theorem fieldEdits_same (found : List ContentField) : fieldEdits found (found.map ContentField.text) = [] := by
  induction found with
  | nil => rfl
  | cons f found ih => rw [List.map_cons, fieldEdits, if_pos rfl, ih]

theorem text_ne_nil {side : Side} {format : ApiFormat} {body : Bytes} {found : List ContentField}
    (h : extract side body format = .fields found) : ∀ f ∈ found, f.text ≠ [] := by
  rcases extract_cases h with rfl | ⟨r, -, rfl⟩
  · exact List.forall_mem_nil _
  · refine List.forall_mem_map.mpr fun f hf => ?_
    obtain ⟨p, hp, hfits⟩ := (lawful_walkOf side format).fits _ f hf
    have htakes := takes_own hfits (f := fieldOf r.before.1.length r.value f) rfl
    rw [fieldOf_place hp] at htakes ⊢
    unfold ContentField.Takes at htakes
    split at htakes
    · intro (hnil : valueText f.raw p.value = [])
      rw [hnil] at htakes
      exact absurd htakes.2.1 (by decide)
    · exact htakes

/-! ## Where raw objects are -/

/-- A walk that picks no raw object. -/
def TextOnly (w : Walk) : Prop := ∀ v, ∀ f ∈ w v, f.raw = false

theorem textOnly_text : TextOnly text := fun v f hf => by rw [(mem_text.mp hf).2]

theorem textOnly_strings : TextOnly strings := fun v f hf => by
  obtain ⟨l, -, -, rfl⟩ := mem_strings.mp hf
  rfl

theorem TextOnly.each {w : Walk} (h : TextOnly w) : TextOnly (each w) := fun v f hf => by
  obtain ⟨items, -, i, p, g, -, hg, rfl⟩ := mem_each.mp hf
  exact h _ g hg

theorem TextOnly.textOrEach {w : Walk} (h : TextOnly w) : TextOnly (textOrEach w) := fun v f hf =>
  (List.mem_append.mp hf).elim (textOnly_text v f) (h.each v f)

theorem textOnly_fields {l : List (Bytes × Walk)} (h : ∀ e ∈ l, TextOnly e.2) : TextOnly (fields l) := fun v f hf => by
  obtain ⟨e, he, hunder⟩ := mem_fields.mp hf
  obtain ⟨j, u, g, -, hg, rfl⟩ := mem_under.mp hunder
  exact h e he _ g hg

theorem textOnly_fieldsByType {l : Bytes → List (Bytes × Walk)} (h : ∀ type, ∀ e ∈ l type, TextOnly e.2) :
    TextOnly (fieldsByType l) := fun v => textOnly_fields (h (typeName v)) v

theorem textOnly_part (allowed : Bytes → Bool) : TextOnly (part allowed) := by
  refine textOnly_fieldsByType fun type => ?_
  split
  · exact List.forall_mem_singleton.mpr textOnly_text
  · exact List.forall_mem_nil _

theorem textOnly_call (key : String) : TextOnly (call key).2 :=
  textOnly_fields (List.forall_mem_singleton.mpr textOnly_text)

theorem textOnly_calls : ∀ e ∈ calls, TextOnly e.2 :=
  List.forall_mem_cons.mpr ⟨textOnly_call _, List.forall_mem_singleton.mpr
    (textOnly_fields (List.forall_mem_singleton.mpr (textOnly_call _))).each⟩

theorem textOnly_messagesBlock : TextOnly messagesBlock := by
  refine textOnly_fieldsByType fun type => ?_
  split
  · exact List.forall_mem_singleton.mpr textOnly_text
  · split
    · exact List.forall_mem_singleton.mpr textOnly_strings
    · split
      · exact List.forall_mem_singleton.mpr (textOnly_part _).textOrEach
      · exact List.forall_mem_nil _

theorem textOnly_responsesInputItem : TextOnly responsesInputItem := by
  refine textOnly_fieldsByType fun type => ?_
  split
  · exact List.forall_mem_singleton.mpr (textOnly_part _).textOrEach
  · split
    · exact List.forall_mem_singleton.mpr textOnly_text
    · exact List.forall_mem_singleton.mpr (textOnly_part _).textOrEach

theorem textOnly_responsesItem : TextOnly responsesItem := by
  refine textOnly_fieldsByType fun type => ?_
  split
  · exact List.forall_mem_singleton.mpr (textOnly_part _).each
  · split
    · exact List.forall_mem_singleton.mpr textOnly_text
    · split
      · exact List.forall_mem_cons.mpr ⟨(textOnly_part _).each, List.forall_mem_singleton.mpr (textOnly_part _).each⟩
      · exact List.forall_mem_nil _

/-- Only a response in the Messages format has raw objects. -/
theorem textOnly_walkOf {side : Side} {format : ApiFormat} (h : side = .request ∨ format ≠ .messages) :
    TextOnly (walkOf side format) := by
  cases side with
  | request =>
    cases format with
    | chatCompletions =>
      exact textOnly_fields (List.forall_mem_singleton.mpr (textOnly_fields
        (List.forall_mem_cons.mpr ⟨(textOnly_part _).textOrEach, textOnly_calls⟩)).each)
    | messages =>
      exact textOnly_fields (List.forall_mem_cons.mpr ⟨(textOnly_part _).textOrEach, List.forall_mem_singleton.mpr
        (textOnly_fields (List.forall_mem_singleton.mpr textOnly_messagesBlock.textOrEach)).each⟩)
    | responses =>
      exact textOnly_fields (List.forall_mem_cons.mpr ⟨textOnly_text, List.forall_mem_singleton.mpr
        textOnly_responsesInputItem.textOrEach⟩)
  | response =>
    cases format with
    | chatCompletions =>
      refine textOnly_fields (List.forall_mem_singleton.mpr (textOnly_fields (List.forall_mem_singleton.mpr
        (textOnly_fields fun e he => ?_))).each)
      rcases List.mem_append.mp he with he | he
      · obtain ⟨name, -, rfl⟩ := List.mem_map.mp he
        exact textOnly_text
      · exact textOnly_calls e he
    | messages => exact absurd rfl (h.resolve_left (by decide))
    | responses => exact textOnly_fields (List.forall_mem_singleton.mpr textOnly_responsesItem.each)

theorem raw_of_extract {side : Side} {format : ApiFormat} {body : Bytes} {found : List ContentField}
    (h : extract side body format = .fields found) {f : ContentField} (hf : f ∈ found) (hraw : f.isRawObject = true) :
    side = .response ∧ format = .messages := by
  by_contra hno
  have hcase : side = .request ∨ format ≠ .messages := by
    cases side with
    | request => exact .inl rfl
    | response => exact .inr fun hformat => hno ⟨rfl, hformat⟩
  rcases extract_cases h with rfl | ⟨r, -, rfl⟩
  · exact absurd hf List.not_mem_nil
  · obtain ⟨g, hg, rfl⟩ := List.mem_map.mp hf
    have hplain : g.raw = false := textOnly_walkOf hcase _ g hg
    rw [show (fieldOf r.before.1.length r.value g).isRawObject = g.raw from rfl, hplain] at hraw
    cases hraw

/-! ## Masking a body -/

section

variable {env : Env} {crs : List CompiledRule} {opts : MaskOptions} {body : Bytes} {format : ApiFormat}
  {isResponse : Bool} {found : List ContentField} {result : MaskResult} {calls : List Call}

/-- The masked text of a raw object, in a response in the Messages format, is still an object. -/
def KeepsObjects (env : Env) (crs : List CompiledRule) (opts : MaskOptions) (found : List ContentField) : Prop :=
  ∀ result, maskTexts env (found.map ContentField.text) (crs.map some) opts = .ok result →
    ∀ e ∈ found.zip result.maskedTexts, e.1.isRawObject = true → e.1.Takes e.2

theorem mayGet_masked (hfound : extract (sideOf isResponse) body format = .fields found)
    (hmask : maskTexts env (found.map ContentField.text) (crs.map some) opts = .ok result)
    (h : Masked crs (found.map ContentField.text) result calls)
    (hobjects : isResponse = true → format = .messages → KeepsObjects env crs opts found) :
    List.Forall₂ MayGet found result.maskedTexts := by
  have hkeeps := List.forall₂_map_left_iff.mp h.keeps
  refine List.forall₂_iff_zip.mpr ⟨hkeeps.length_eq, fun {f masked} hmem => .inr ?_⟩
  have hf : f ∈ found := (List.of_mem_zip hmem).1
  cases hraw : f.isRawObject with
  | false =>
    unfold ContentField.Takes
    rw [hraw]
    exact ((List.forall₂_iff_zip.mp hkeeps).2 hmem).1 (text_ne_nil hfound f hf)
  | true =>
    obtain ⟨hside, hformat⟩ := raw_of_extract hfound hf hraw
    have hresponse : isResponse = true := by
      cases isResponse with
      | false => cases hside
      | true => rfl
    exact hobjects hresponse hformat result hmask (f, masked) hmem hraw

theorem maskBody_eq (hfound : extractFields body format isResponse = .ok found)
    (hmask : maskTexts env (found.map ContentField.text) (crs.map some) opts = .ok result)
    (h : Masked crs (found.map ContentField.text) result calls) :
    maskBody env body format isResponse (crs.map some) opts =
      (Json.spliceAll body (fieldEdits found result.maskedTexts)).map (MaskedBody.mk · result.state) := by
  unfold maskBody
  rw [hfound]
  simp only [bind, Except.bind, hmask, spliceEdits_eq]
  split
  · rename_i hempty
    have hsame : found.map ContentField.text = result.maskedTexts := by
      have hnone := List.isEmpty_iff.mp hempty
      exact List.forall₂_eq_eq_eq ▸ h.keeps.imp fun text masked hkeeps => (hkeeps.2 hnone).symm
    rw [← hsame, fieldEdits_same]
    rfl
  · cases Json.spliceAll body (fieldEdits found result.maskedTexts) <;> rfl

theorem fieldEdits_sublist (found : List ContentField) (texts : List Bytes) :
    ((fieldEdits found texts).map Prod.fst).Sublist (found.map ContentField.span) := by
  induction found generalizing texts with
  | nil => exact List.Sublist.refl _
  | cons f found ih =>
    cases texts with
    | nil => exact List.nil_sublist _
    | cons text texts =>
      unfold fieldEdits
      split
      · exact (ih texts).cons _
      · exact (ih texts).cons_cons _

theorem fieldEdits_apart {side : Side} (h : extract side body format = .fields found) (texts : List Bytes) :
    (∀ e ∈ fieldEdits found texts, e.1.start < e.1.stop ∧ e.1.stop ≤ body.length) ∧
      (fieldEdits found texts).Pairwise fun a b => a.1.stop ≤ b.1.start ∨ b.1.stop ≤ a.1.start := by
  obtain ⟨hsits, hspans⟩ : (∀ f ∈ found, f.Sits body) ∧ SpansApart found := by
    rcases extract_cases h with rfl | ⟨r, -, rfl⟩
    · exact ⟨List.forall_mem_nil _, .nil⟩
    · exact ⟨List.forall_mem_map.mpr fun f hf => Root.field_sits r side format hf, Root.fields_apart r side format⟩
  have hsub := fieldEdits_sublist found texts
  constructor
  · intro e he
    obtain ⟨f, hf, hspan⟩ := List.mem_map.mp (hsub.subset (List.mem_map_of_mem he))
    rw [← hspan]
    exact ⟨(hsits f hf).pos, (hsits f hf).stop_le⟩
  · have hmap : (found.map ContentField.span).Pairwise fun c d => c.stop ≤ d.start ∨ d.stop ≤ c.start :=
      List.pairwise_map.mpr hspans
    exact List.pairwise_map.mp (hmap.sublist hsub)

/-- Masking writes the masked texts at the spans of the fields whose text changes, and copies every other byte. The
masked texts are what the masked body holds, at the same paths. -/
theorem maskBody_lens (env : Env) (hre : InText env.re2) (hsort : SortSpec env.sortMatches) (crs : List CompiledRule)
    (hcompiled : ∀ cr ∈ crs, cr.re.isSome) (opts : MaskOptions) (body : Bytes) (format : ApiFormat) (isResponse : Bool)
    (found : List ContentField) (hfound : extractFields body format isResponse = .ok found)
    (hobjects : isResponse = true → format = .messages → KeepsObjects env crs opts found) :
    ∃ (result : MaskResult) (masked : Bytes) (found' : List ContentField) (order : List (ValueSpan × Bytes)),
      maskTexts env (found.map ContentField.text) (crs.map some) opts = .ok result ∧
      maskBody env body format isResponse (crs.map some) opts = .ok ⟨masked, result.state⟩ ∧
      order.Perm (fieldEdits found result.maskedTexts) ∧ Splice.Ordered body.length 0 (order.map spanPair) ∧
      masked = Splice.weave (Splice.gaps body 0 (order.map spanPair)) (order.map Prod.snd) ∧
      (Json.valid body = true → Json.valid masked = true) ∧
      extractFields masked format isResponse = .ok found' ∧
      found'.map ContentField.path = found.map ContentField.path ∧ found'.map ContentField.text = result.maskedTexts := by
  obtain ⟨calls, result, hmask, h⟩ := exists_masked hre hsort hcompiled (found.map ContentField.text) opts
  have hextract := extractFields_ok.mp hfound
  have hmay := mayGet_masked hextract hmask h hobjects
  obtain ⟨masked, found', back, hpatched⟩ := exists_patched hextract hmay
  obtain ⟨hin, hapart⟩ := fieldEdits_apart hextract result.maskedTexts
  have hordered := Json.editOrder_ordered hin hapart
  refine ⟨result, masked, found', _, hmask, ?_, List.mergeSort_perm _ _, hordered, ?_, hpatched.valid,
    extractFields_ok.mpr hpatched.fields, hpatched.paths, hpatched.newTexts⟩
  · rw [maskBody_eq hfound hmask h, hpatched.splice]
    rfl
  · exact Except.ok.inj (hpatched.splice.symm.trans (Json.spliceAll_ok hordered))

/-! ## Demasking a body -/

theorem pieces_flatten {size : Nat} (hsize : 0 < size) (fuel : Nat) (text : Bytes) (h : text.length ≤ fuel) :
    (pieces size fuel text).flatten = text := by
  induction fuel generalizing text with
  | zero => rw [List.length_eq_zero_iff.mp (Nat.le_zero.mp h)]; rfl
  | succ fuel ih =>
    cases text with
    | nil => rfl
    | cons b text =>
      have hrest : ((b :: text).drop size).length ≤ fuel := by
        rw [List.length_drop]
        omega
      rw [pieces, List.flatten_cons, ih _ hrest, List.take_append_drop]
      exact List.cons_ne_nil _ _

theorem demaskFieldText_ok {cfg : DemaskConfig} {f : ContentField} {text : Bytes} (h : Restores cfg text f.text)
    (hjson : (f.isRawObject || pathIsArguments f.path) = true → Json.valid text = true) (chunkSize : Nat) :
    demaskFieldText cfg f chunkSize = .ok text := by
  have hwhole : demaskAll cfg f.text false = .ok text := h [f.text] (by simp) (by simp)
  unfold demaskFieldText
  split
  · rename_i harguments
    unfold demaskJsonArguments
    split
    · rename_i hempty
      have hnil := List.isEmpty_iff.mp hempty
      rw [hnil] at hwhole
      rw [hnil, ← Except.ok.inj hwhole]
    · rw [hwhole]
      simp only [hjson harguments, if_true]
  · split
    · exact hwhole
    · rename_i hsize
      apply h _ (by simp)
      rw [List.flatten_append, pieces_flatten (Nat.pos_of_ne_zero hsize) _ _ (Nat.le_refl _)]
      simp

theorem demaskFields_ok {cfg : DemaskConfig} (chunkSize : Nat) {fields : List ContentField} {texts : List Bytes}
    (h : List.Forall₂ (fun f text => Restores cfg text f.text ∧
      ((f.isRawObject || pathIsArguments f.path) = true → Json.valid text = true)) fields texts) :
    demaskFields cfg chunkSize fields = .ok texts := by
  induction h with
  | nil => rfl
  | cons hfield _ ih =>
    rw [demaskFields, demaskFieldText_ok hfield.1 hfield.2, ih]
    rfl

theorem forall₂_of_maps {α β γ : Type} (p : α → γ) (q : β → γ) {l : List α} {u : List β} (h : l.map p = u.map q) :
    List.Forall₂ (fun a b => p a = q b) l u := by
  have heq : List.Forall₂ (· = ·) (l.map p) (u.map q) := List.forall₂_eq_eq_eq ▸ h
  rwa [List.forall₂_map_left_iff, List.forall₂_map_right_iff] at heq

theorem valid_of_raw {side : Side} (h : extract side body format = .fields found) {f : ContentField} (hf : f ∈ found)
    (hraw : f.isRawObject = true) : Json.valid f.text = true := by
  rcases extract_cases h with rfl | ⟨r, -, rfl⟩
  · exact absurd hf List.not_mem_nil
  · obtain ⟨g, hg, rfl⟩ := List.mem_map.mp hf
    obtain ⟨p, hp, hfits⟩ := (lawful_walkOf side format).fits _ g hg
    have htakes := takes_own hfits (f := fieldOf r.before.1.length r.value g) rfl
    unfold ContentField.Takes at htakes
    rw [if_pos hraw] at htakes
    rw [fieldOf_place hp]
    exact htakes.1

/-- A masked body is demasked to the same texts at the same paths, in pieces of any size. It is the original body
when the literals in this are canonical. -/
theorem demaskBody_maskBody (env : Env) (hre : InText env.re2) (hsort : SortSpec env.sortMatches)
    (crs : List CompiledRule) (hcompiled : ∀ cr ∈ crs, cr.re.isSome) (htypes : ∀ cr ∈ crs, HasType cr)
    (opts : MaskOptions) (body : Bytes) (format : ApiFormat) (isResponse : Bool) (found : List ContentField)
    (hfound : extractFields body format isResponse = .ok found)
    (hobjects : isResponse = true → format = .messages → KeepsObjects env crs opts found)
    (harguments : ∀ f ∈ found, pathIsArguments f.path = true → Json.valid f.text = true) :
    ∃ masked out, maskBody env body format isResponse (crs.map some) opts = .ok masked ∧
      (∀ chunkSize, demaskBody masked.body format isResponse (makeConfig env masked.state none) chunkSize = .ok out) ∧
      (∃ found', extractFields out format isResponse = .ok found' ∧
        found'.map ContentField.path = found.map ContentField.path ∧
        found'.map ContentField.text = found.map ContentField.text) ∧
      ((∀ f ∈ found, Canonical body f) → out = body) := by
  obtain ⟨calls, result, hmask, h⟩ := exists_masked hre hsort hcompiled (found.map ContentField.text) opts
  have hextract := extractFields_ok.mp hfound
  have hmay := mayGet_masked hextract hmask h hobjects
  obtain ⟨masked, found', out, hpatched⟩ := exists_patched hextract hmay
  refine ⟨⟨masked, result.state⟩, out, ?_, fun chunkSize => ?_, ?_, hpatched.same⟩
  · rw [maskBody_eq hfound hmask h, hpatched.splice]
    rfl
  · have hrestores := h.restores htypes env
    rw [← hpatched.newTexts, List.forall₂_map_left_iff, List.forall₂_map_right_iff] at hrestores
    have hpaths := forall₂_of_maps ContentField.path ContentField.path hpatched.paths.symm
    have hraws := forall₂_of_maps ContentField.isRawObject ContentField.isRawObject hpatched.raws.symm
    have hrestored : demaskFields (makeConfig env result.state none) chunkSize found' =
        .ok (found.map ContentField.text) := by
      refine demaskFields_ok chunkSize (List.forall₂_map_right_iff.mpr (List.Forall₂.flip ?_))
      refine List.forall₂_iff_zip.mpr ⟨hpaths.length_eq, fun {f f'} hmem => ⟨(List.forall₂_iff_zip.mp hrestores).2 hmem, ?_⟩⟩
      have hf : f ∈ found := (List.of_mem_zip hmem).1
      rw [← (List.forall₂_iff_zip.mp hpaths).2 hmem, ← (List.forall₂_iff_zip.mp hraws).2 hmem, Bool.or_eq_true]
      exact fun hor => hor.elim (valid_of_raw hextract hf) (harguments f hf)
    unfold demaskBody
    rw [extractFields_ok.mpr hpatched.fields]
    simp only [bind, Except.bind, hrestored, spliceEdits_eq]
    exact hpatched.spliceBack
  · obtain ⟨found'', hfields, hpaths, htexts⟩ := hpatched.again
    exact ⟨found'', extractFields_ok.mpr hfields, hpaths, htexts⟩

end

/-! ## A request with a name -/

/-- Two messages. -/
def annBody : Bytes := ascii "\x7b\"messages\":[\x7b\"content\":\"dear ann\"\x7d,\x7b\"content\":\"ann\"\x7d]\x7d"

def annFields : List ContentField :=
  [⟨[keySeg "messages", .index 0, keySeg "content"], ⟨24, 34, true⟩, ascii "dear ann", false⟩,
    ⟨[keySeg "messages", .index 1, keySeg "content"], ⟨47, 52, true⟩, ascii "ann", false⟩]

/-- The masked texts stand where the originals stood. -/
def annMasked : Bytes :=
  ascii "\x7b\"messages\":[\x7b\"content\":\"dear <EMAIL_1>\"\x7d,\x7b\"content\":\"<EMAIL_1>\"\x7d]\x7d"

theorem extractFields_ann : extractFields annBody .chatCompletions false = .ok annFields := by decide +kernel

theorem ann_compiled : ∀ cr ∈ annRegistry.rules, cr.re.isSome := re_of_compiled (Registry.build_rules build_ann)

theorem ann_hasType : ∀ cr ∈ annRegistry.rules, HasType cr := by
  intro cr hcr
  obtain ⟨r, hr, hcompile⟩ := rule_of_mem build_ann hcr
  rw [HasType, (compileRule_ok hcompile).1, List.mem_singleton.mp hr]
  decide

def annEdits : List (ValueSpan × Bytes) :=
  [(⟨24, 34, true⟩, ascii "\"dear <EMAIL_1>\""), (⟨47, 52, true⟩, ascii "\"<EMAIL_1>\"")]

theorem spliceAll_ann : Json.spliceAll annBody annEdits = .ok annMasked := by
  have horder : Json.editOrder annEdits = annEdits := List.mergeSort_of_pairwise (by decide)
  have hordered : Splice.Ordered annBody.length 0 ((Json.editOrder annEdits).map spanPair) := by
    rw [horder]
    decide
  rw [Json.spliceAll_ok hordered, horder]
  decide

theorem maskTexts_ann : (maskTexts (sampleEnv annSpelling) (annFields.map ContentField.text)
    (annRegistry.rules.map some) ⟨⟨true, 1⟩, 0⟩).map MaskResult.maskedTexts =
      .ok [ascii "dear <EMAIL_1>", ascii "<EMAIL_1>"] := by decide +kernel

theorem maskBody_lens_sample : ∃ (result : MaskResult) (found' : List ContentField) (order : List (ValueSpan × Bytes)),
    maskBody (sampleEnv annSpelling) annBody .chatCompletions false (annRegistry.rules.map some) ⟨⟨true, 1⟩, 0⟩ =
      .ok ⟨annMasked, result.state⟩ ∧
    order.Perm (fieldEdits annFields result.maskedTexts) ∧ Splice.Ordered annBody.length 0 (order.map spanPair) ∧
    annMasked = Splice.weave (Splice.gaps annBody 0 (order.map spanPair)) (order.map Prod.snd) ∧
    Json.valid annMasked = true ∧ extractFields annMasked .chatCompletions false = .ok found' ∧
    found'.map ContentField.path = annFields.map ContentField.path ∧
    found'.map ContentField.text = result.maskedTexts := by
  have hre : InText (sampleEnv annSpelling).re2 := sampleRe2_inText annSpelling_captures
  have hsort : SortSpec (sampleEnv annSpelling).sortMatches := sampleSort_spec
  obtain ⟨result, masked, found', order, hrun, hmask, hperm, hordered, hweave, hvalid, hfields, hpaths, htexts⟩ :=
    maskBody_lens (sampleEnv annSpelling) hre hsort annRegistry.rules ann_compiled ⟨⟨true, 1⟩, 0⟩ annBody .chatCompletions
      false annFields extractFields_ann (fun h => by cases h)
  have hmasked : result.maskedTexts = [ascii "dear <EMAIL_1>", ascii "<EMAIL_1>"] := by
    have heval := maskTexts_ann
    rw [hrun] at heval
    exact Except.ok.inj heval
  have hedits : fieldEdits annFields result.maskedTexts = annEdits := by
    rw [hmasked]
    decide
  obtain ⟨calls, result', hrun', hcalls⟩ :=
    exists_masked hre hsort ann_compiled (annFields.map ContentField.text) ⟨⟨true, 1⟩, 0⟩
  obtain rfl := Except.ok.inj (hrun.symm.trans hrun')
  have hbody := maskBody_eq extractFields_ann hrun hcalls
  rw [hedits, spliceAll_ann, hmask] at hbody
  obtain rfl : masked = annMasked := congrArg MaskedBody.body (Except.ok.inj hbody)
  exact ⟨result, found', order, hmask, hperm, hordered, hweave, hvalid (by decide +kernel), hfields, hpaths, htexts⟩

theorem demaskBody_maskBody_sample : ∃ masked,
    maskBody (sampleEnv annSpelling) annBody .chatCompletions false (annRegistry.rules.map some) ⟨⟨true, 1⟩, 0⟩ =
      .ok masked ∧
    ∀ chunkSize, demaskBody masked.body .chatCompletions false
      (makeConfig (sampleEnv annSpelling) masked.state none) chunkSize = .ok annBody := by
  obtain ⟨masked, out, hmask, hdemask, -, hsame⟩ :=
    demaskBody_maskBody (sampleEnv annSpelling) (sampleRe2_inText annSpelling_captures) sampleSort_spec annRegistry.rules
      ann_compiled ann_hasType ⟨⟨true, 1⟩, 0⟩ annBody .chatCompletions false annFields extractFields_ann
      (fun h => by cases h) (by decide)
  refine ⟨masked, hmask, fun chunkSize => ?_⟩
  rw [hdemask, hsame (by unfold Canonical; decide)]

end LlmGuard.Pipeline
