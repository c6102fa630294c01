import LlmGuard.Extract.Proofs
import LlmGuard.Json.Root

/-!
# Extracting and patching are a lens

New texts, spliced in at the spans of the extracted fields, are what extraction gives afterwards. The body need not be
JSON.
-/

namespace LlmGuard.Extract

open Rfc8259 (Kind Value Items Ws Body Place Apart quoted)
open Json (PathSeg ValueSpan Root lookupPlace placeSpan findValue editAt spanPair encodeString decodeString)

inductive Side where
  | request
  | response
deriving DecidableEq, Repr

def extract : Side → Bytes → ApiFormat → ExtractResult
  | .request => extractRequest
  | .response => extractResponse

/-- The edit that puts a new text in the place of a field. -/
def ContentField.patch (f : ContentField) (text : Bytes) : ValueSpan × Bytes :=
  (f.span, if f.isRawObject then text else encodeString text true)

/-- The texts that a field can have: any but the empty one, and for a raw field an object that is not written `{}`. -/
def ContentField.Takes (f : ContentField) (text : Bytes) : Prop :=
  if f.isRawObject then
    Json.valid text = true ∧ text.head? = some (ch '\x7b') ∧ text.getLast? = some (ch '\x7d') ∧ text ≠ ascii "\x7b\x7d"
  else text ≠ []

instance (f : ContentField) (text : Bytes) : Decidable (f.Takes text) :=
  inferInstanceAs (Decidable (if f.isRawObject then Json.valid text = true ∧ text.head? = some (ch '\x7b') ∧
    text.getLast? = some (ch '\x7d') ∧ text ≠ ascii "\x7b\x7d" else text ≠ []))

/-- The span lies in the body, and holds the literal of the text. -/
structure ContentField.Sits (body : Bytes) (f : ContentField) : Prop where
  pos : f.span.start < f.span.stop
  stop_le : f.span.stop ≤ body.length
  literal : f.isRawObject = false → ∃ b : Body, slice body f.span.start f.span.stop = quoted b.1 ∧
    decodeString (quoted b.1) = f.text

/-- No span overlaps another. -/
def SpansApart (found : List ContentField) : Prop :=
  found.Pairwise fun f g => f.span.stop ≤ g.span.start ∨ g.span.stop ≤ f.span.start

/-! ## The walk of a side -/

def walkOf : Side → ApiFormat → Walk
  | .request => walkRequest
  | .response => walkResponse

def Covers : Side → ApiFormat → Value → Prop
  | .request => Supports
  | .response => fun _ _ => True

theorem lawful_walkOf (side : Side) (format : ApiFormat) : Lawful (walkOf side format) := by
  cases side with
  | request => exact lawful_walkRequest format
  | response => exact lawful_walkResponse format

theorem extract_eq {doc pre : Bytes} {v : Value} (h : Finds doc pre v (findValue doc)) (side : Side) (format : ApiFormat) :
    (Covers side format v → extract side doc format = .fields (read pre.length [] (walkOf side format) v)) ∧
    (¬ Covers side format v → extract side doc format = .unsupported) := by
  cases side with
  | request => exact extractRequest_eq h format
  | response => exact ⟨fun _ => extractResponse_eq h format, fun hno => absurd trivial hno⟩

theorem walkOf_fields (side : Side) (format : ApiFormat) : ∃ l, walkOf side format = fields l := by
  cases side <;> cases format <;> exact ⟨_, rfl⟩

theorem address_walkOf {side : Side} {format : ApiFormat} {v : Value} {f : Focus} (hf : f ∈ walkOf side format v) :
    f.address ≠ [] := by
  obtain ⟨l, hl⟩ := walkOf_fields side format
  rw [hl] at hf
  obtain ⟨e, -, hunder⟩ := mem_fields.mp hf
  obtain ⟨j, u, g, -, -, rfl⟩ := mem_under.mp hunder
  exact List.cons_ne_nil _ _

/-! ## A write keeps the format -/

theorem member_set_isSome (key : Bytes) (v : Value) (j : Nat) (x : Value) :
    (member key (v.setChild j x)).isSome = (member key v).isSome := by
  by_cases hseg : Json.segIndex (.key key) v = some j
  · unfold member
    rw [segIndex_setChild, hseg]
    simp only [Option.bind_eq_bind, Option.bind_some, Value.child_setChild]
    cases v.child j <;> rfl
  · rw [member_setChild_ne hseg]

theorem member_isSome (key : Bytes) (v : Value) : (lookupPlace v [.key key]).isSome = (member key v).isSome := by
  have h := congrArg Option.isSome (member_lookupPlace key v)
  rw [Option.isSome_map, Option.isSome_map] at h
  exact h.symm

theorem set_group {k : Kind} (items : Items k) {a : List Nat} (ha : a ≠ []) (x : Value) :
    ∃ items' : Items k, (Value.group k items).set a x = .group k items' := by
  obtain ⟨j, b, rfl⟩ := List.exists_cons_of_ne_nil ha
  rw [Value.set]
  cases (Value.group k items).child j with
  | none => exact ⟨items, rfl⟩
  | some p => exact ⟨_, rfl⟩

theorem array_set {key : Bytes} {w : Walk} {v : Value} {f : Focus} (hf : f ∈ under key (each w) v) (x : Value) :
    ∃ p, lookupPlace (v.set f.address x) [.key key] = some p ∧ p.value.text.head? = some (ch '[') := by
  obtain ⟨j, u, g, hm, hg, rfl⟩ := mem_under.mp hf
  obtain ⟨items, rfl, i, q, g', -, -, rfl⟩ := mem_each.mp hg
  obtain ⟨-, p, hp, hvalue⟩ := member_eq_some.mp hm
  obtain ⟨items', hset⟩ := set_group items (List.cons_ne_nil i g'.address) x
  have hmember := member_setChild hm ((Value.group .array items).set (i :: g'.address) x)
  have hlookup := member_lookupPlace key (v.set ((g'.under (.index i) i).under (.key key) j).address x)
  rw [Focus.under, Focus.under, set_under hp, hvalue, hmember, Option.map_some] at hlookup
  obtain ⟨r, hr, hrvalue⟩ := Option.map_eq_some_iff.mp hlookup.symm
  refine ⟨r, ?_, by rw [hrvalue, hset]; rfl⟩
  rw [Focus.under, Focus.under, set_under hp, hvalue]
  exact hr

theorem supports_set {format : ApiFormat} {v : Value} (h : Supports format v) {f : Focus}
    (hf : f ∈ walkRequest format v) (x : Value) : Supports format (v.set f.address x) := by
  cases format with
  | chatCompletions =>
    obtain ⟨e, he, hunder⟩ := mem_fields.mp hf
    obtain rfl := List.mem_singleton.mp he
    exact array_set hunder x
  | messages => trivial
  | responses =>
    obtain ⟨e, -, hunder⟩ := mem_fields.mp hf
    obtain ⟨j, u, g, hm, -, rfl⟩ := mem_under.mp hunder
    obtain ⟨-, p, hp, -⟩ := member_eq_some.mp hm
    unfold Supports keySeg at h ⊢
    rw [Focus.under, set_under hp]
    simp only [member_isSome, member_set_isSome] at h ⊢
    exact h

theorem covers_set {side : Side} {format : ApiFormat} {v : Value} (h : Covers side format v) {f : Focus}
    (hf : f ∈ walkOf side format v) (x : Value) : Covers side format (v.set f.address x) := by
  cases side with
  | request => exact supports_set h hf x
  | response => trivial

/-! ## Fields and texts -/

def fieldOf (base : Nat) (v : Value) (f : Focus) : ContentField :=
  let p := (v.place f.address).getD ⟨[], v, []⟩
  ⟨f.path, placeSpan base p, valueText f.raw p.value, f.raw⟩

theorem fieldOf_place {base : Nat} {v : Value} {f : Focus} {p : Place} (hp : v.place f.address = some p) :
    fieldOf base v f = ⟨f.path, placeSpan base p, valueText f.raw p.value, f.raw⟩ := by
  unfold fieldOf
  rw [hp]
  rfl

theorem read_eq_map {w : Walk} (h : Lawful w) (base : Nat) (v : Value) :
    read base [] w v = (w v).map (fieldOf base v) := by
  unfold read
  rw [← List.filterMap_eq_map]
  apply List.filterMap_congr
  intro f hf
  obtain ⟨p, hp, -⟩ := h.fits v f hf
  rw [Function.comp_apply, fieldOf_place hp, fieldAt, hp]
  rfl

theorem raw_text {text : Bytes} (hvalid : Json.valid text = true) (hhead : text.head? = some (ch '\x7b'))
    (hlast : text.getLast? = some (ch '\x7d')) : ∃ x : Value, x.text = text := by
  obtain ⟨before, x, after, heq⟩ := (Json.valid_iff_reading text).mp hvalid
  have hbefore : before.1 = [] := by
    by_contra hne
    obtain ⟨c, s, hs⟩ := List.exists_cons_of_ne_nil hne
    have hblank := before.2 c (by rw [hs]; exact List.mem_cons_self)
    rw [heq, hs] at hhead
    rw [Option.some.inj hhead] at hblank
    exact absurd hblank (by decide)
  have hafter : after.1 = [] := by
    by_contra hne
    have hblank := after.2 _ (List.getLast_mem hne)
    rw [heq, List.getLast?_append_of_ne_nil _ hne, List.getLast?_eq_some_getLast hne] at hlast
    rw [Option.some.inj hlast] at hblank
    exact absurd hblank (by decide)
  exact ⟨x, by rw [heq, hbefore, hafter]; simp⟩

/-- The value that a text becomes in the body. -/
def Becomes (f : Focus) (text : Bytes) (x : Value) : Prop :=
  Fits f.raw x ∧ valueText f.raw x = text ∧ x.text = if f.raw then text else encodeString text true

theorem exists_becomes {base : Nat} {v : Value} {f : Focus} {text : Bytes} (h : (fieldOf base v f).Takes text) :
    ∃ x, Becomes f text x := by
  have hraw : (fieldOf base v f).isRawObject = f.raw := rfl
  unfold ContentField.Takes at h
  unfold Becomes Fits valueText
  rw [hraw] at h
  split at h
  · rename_i hyes
    obtain ⟨hvalid, hhead, hlast, hne⟩ := h
    obtain ⟨x, hx⟩ := raw_text hvalid hhead hlast
    refine ⟨x, ?_⟩
    simp only [hyes, if_true]
    exact ⟨(isRaw_iff x).mpr ⟨by rw [hx, hhead], by rw [hx]; exact hne⟩, hx, hx⟩
  · rename_i hno
    refine ⟨.string (Json.encodedBody text), ?_⟩
    have hdecode : decodeString (quoted (Json.encodedBody text).1) = text := Json.decode_encodedBody text
    simp only [hno, Bool.false_eq_true, if_false]
    exact ⟨by rw [IsText, hdecode]; exact h, hdecode, rfl⟩

theorem closed_of_fits {raw : Bool} {x : Value} (h : Fits raw x) : ∀ t, x ≠ .scalar t := by
  rintro t rfl
  cases raw <;> exact h

theorem exists_values {base : Nat} {v : Value} {foci : List Focus} {texts : List Bytes}
    (h : List.Forall₂ (fun f text => (fieldOf base v f).Takes text) foci texts) :
    ∃ edits : List (Focus × Value), edits.map Prod.fst = foci ∧
      List.Forall₂ (fun e text => Becomes e.1 text e.2) edits texts := by
  induction h with
  | nil => exact ⟨[], rfl, .nil⟩
  | cons h _ ih =>
    obtain ⟨edits, hfoci, hedits⟩ := ih
    obtain ⟨x, hx⟩ := exists_becomes h
    exact ⟨(_, x) :: edits, by rw [List.map_cons, hfoci], .cons hx hedits⟩

theorem fits_of_becomes {edits : List (Focus × Value)} {texts : List Bytes}
    (h : List.Forall₂ (fun e text => Becomes e.1 text e.2) edits texts) : ∀ e ∈ edits, Fits e.1.raw e.2 := by
  induction h with
  | nil => exact fun e he => absurd he List.not_mem_nil
  | cons he _ ih => exact List.forall_mem_cons.mpr ⟨he.1, ih⟩

theorem patch_eq {base : Nat} {v : Value} {edits : List (Focus × Value)} {texts : List Bytes}
    (h : List.Forall₂ (fun e text => Becomes e.1 text e.2) edits texts) :
    List.zipWith ContentField.patch ((edits.map Prod.fst).map (fieldOf base v)) texts =
      (edits.map fun e => (e.1.address, e.2)).map (editAt base v) := by
  induction h with
  | nil => rfl
  | @cons e text edits texts he _ ih =>
    rw [List.map_cons, List.map_cons, List.zipWith_cons_cons, ih, List.map_cons, List.map_cons]
    congr 1
    unfold ContentField.patch editAt
    rw [he.2.2]
    rfl

/-! ## The lens -/

theorem Root.finds {doc : Bytes} (r : Root doc) : Finds doc r.before.1 r.value (findValue doc) where
  key := r.findValue_eq
  inside _ _ hp := r.inside hp

theorem extract_blind {doc : Bytes} (hblind : ∀ key, findValue doc [.key key] = none) (side : Side) (format : ApiFormat)
    {found : List ContentField} (h : extract side doc format = .fields found) : found = [] := by
  let v : Value := .empty .object ⟨[], by simp⟩
  have hfinds : Finds doc [] v (findValue doc) := ⟨fun key => hblind key, fun key p hp => by cases hp⟩
  obtain ⟨hyes, hno⟩ := extract_eq hfinds side format
  by_cases hcovers : Covers side format v
  · rw [hyes hcovers] at h
    rw [← ExtractResult.fields.inj h]
    cases side <;> cases format <;> rfl
  · rw [hno hcovers] at h
    cases h

section

variable {doc : Bytes} (r : Root doc) (side : Side) (format : ApiFormat)

theorem Root.extract_iff {found : List ContentField} :
    extract side doc format = .fields found ↔ Covers side format r.value ∧
      found = (walkOf side format r.value).map (fieldOf r.before.1.length r.value) := by
  obtain ⟨hyes, hno⟩ := extract_eq (Root.finds r) side format
  rw [read_eq_map (lawful_walkOf side format)] at hyes
  by_cases hcovers : Covers side format r.value
  · rw [hyes hcovers, ExtractResult.fields.injEq]
    exact ⟨fun h => ⟨hcovers, h.symm⟩, fun h => h.2.symm⟩
  · rw [hno hcovers]
    exact iff_of_false (fun h => by cases h) fun h => hcovers h.1

theorem Root.fields_apart :
    SpansApart ((walkOf side format r.value).map (fieldOf r.before.1.length r.value)) := by
  have hlawful := lawful_walkOf side format
  unfold SpansApart
  rw [List.pairwise_map]
  refine (hlawful.apart r.value).imp_of_mem fun {f g} hf hg hapart => ?_
  obtain ⟨p, hp, -⟩ := hlawful.fits _ f hf
  obtain ⟨q, hq, -⟩ := hlawful.fits _ g hg
  rw [fieldOf_place hp, fieldOf_place hq]
  simp only [placeSpan]
  rcases hapart with h | h
  · have := Value.place_order h hp hq
    simp only [Place.endsBefore] at this
    omega
  · have := Value.place_order h hq hp
    simp only [Place.endsBefore] at this
    omega

theorem Root.field_sits {f : Focus} (hf : f ∈ walkOf side format r.value) :
    (fieldOf r.before.1.length r.value f).Sits doc := by
  obtain ⟨p, hp, hfits⟩ := (lawful_walkOf side format).fits _ f hf
  obtain ⟨hlt, hle⟩ := r.place_in (address_walkOf hf) hp
  have hslice := r.slice_place (address_walkOf hf) hp
  have hlen := congrArg List.length r.front_append
  rw [List.length_append] at hlen
  rw [fieldOf_place hp]
  refine ⟨hlt, by simp only; omega, fun hraw => ?_⟩
  simp only at hraw
  unfold Fits at hfits
  rw [hraw] at hfits
  obtain ⟨b, hb⟩ := isText_string hfits
  rw [hb] at hslice
  refine ⟨b, hslice, ?_⟩
  simp only [hraw, hb, valueText]
  rfl

/-- New values at the places of the fields, and what is extracted from the result. -/
theorem Root.patch {edits : List (Focus × Value)} (hcovers : Covers side format r.value)
    (hfoci : edits.map Prod.fst = walkOf side format r.value) (hfits : ∀ e ∈ edits, Fits e.1.raw e.2) :
    ∃ (out : Bytes) (r' : Root out),
      Json.spliceAll doc ((edits.map fun e => (e.1.address, e.2)).map (editAt r.before.1.length r.value)) = .ok out ∧
      r'.post = r.post ∧ Covers side format r'.value ∧ walkOf side format r'.value = edits.map Prod.fst ∧
      ∀ e ∈ edits, ∃ p, r'.value.place e.1.address = some p ∧ p.value = e.2 := by
  have hlawful := lawful_walkOf side format
  have hmem : ∀ e ∈ edits, e.1 ∈ walkOf side format r.value := fun e he =>
    hfoci ▸ List.mem_map_of_mem he
  have hapart : (edits.map fun e => (e.1.address, e.2)).Pairwise fun e e' => Apart e.1 e'.1 := by
    have h := hlawful.apart r.value
    rw [← hfoci, List.pairwise_map] at h
    exact List.pairwise_map.mpr h
  have hplaces : ∀ e ∈ edits.map fun e => (e.1.address, e.2), (r.value.place e.1).isSome := by
    intro e he
    obtain ⟨e', he', rfl⟩ := List.mem_map.mp he
    obtain ⟨p, hp, -⟩ := hlawful.fits _ _ (hmem e' he')
    rw [hp, Option.isSome_some]
  have hwrites : ∀ e ∈ edits.map fun e => (e.1.address, e.2), Writes (walkOf side format) r.value e := by
    intro e he
    obtain ⟨e', he', rfl⟩ := List.mem_map.mp he
    exact ⟨e'.1, hmem e' he', rfl, hfits e' he'⟩
  obtain ⟨order, out, r', hperm, hout, -, hpost, hvalue⟩ := r.spliceAll_setAll hapart hplaces fun e he => by
    obtain ⟨e', he', rfl⟩ := List.mem_map.mp he
    exact ⟨address_walkOf (hmem e' he'), closed_of_fits (hfits e' he')⟩
  obtain ⟨hsame, hcovers'⟩ := hlawful.setAll (P := Covers side format) hcovers
    (fun v hv e he => by
      obtain ⟨f, hf, hfe, -⟩ := he
      rw [← hfe]
      exact covers_set hv hf e.2)
    fun e he => hwrites e (hperm.mem_iff.mp he)
  rw [← hvalue] at hsame hcovers'
  refine ⟨out, r', hout, hpost, hcovers', hsame.trans hfoci.symm, fun e he => ?_⟩
  have hapart' := (hperm.pairwise_iff fun h => h.symm).mpr hapart
  have hplaces' : ∀ e ∈ order, (r.value.place e.1).isSome := fun e he => hplaces e (hperm.mem_iff.mp he)
  have hedit : (e.1.address, e.2) ∈ order := hperm.mem_iff.mpr (List.mem_map_of_mem he)
  rw [hvalue]
  exact Value.place_setAll hapart' hplaces' hedit

end

theorem fields_patched {base : Nat} {v : Value} {edits : List (Focus × Value)} {texts : List Bytes}
    (h : List.Forall₂ (fun e text => Becomes e.1 text e.2) edits texts)
    (hplaces : ∀ e ∈ edits, ∃ p, v.place e.1.address = some p ∧ p.value = e.2) :
    ((edits.map Prod.fst).map (fieldOf base v)).map ContentField.text = texts := by
  induction h with
  | nil => rfl
  | @cons e text edits texts he _ ih =>
    obtain ⟨p, hp, hvalue⟩ := hplaces e List.mem_cons_self
    rw [List.map_cons, List.map_cons, List.map_cons, ih fun e' he' => hplaces e' (List.mem_cons_of_mem _ he'),
      fieldOf_place hp]
    simp only [hvalue, he.2.1]

theorem patch_spans {found : List ContentField} {texts : List Bytes}
    (h : List.Forall₂ ContentField.Takes found texts) :
    (List.zipWith ContentField.patch found texts).map Prod.fst = found.map ContentField.span := by
  induction h with
  | nil => rfl
  | cons _ _ ih =>
    rw [List.zipWith_cons_cons, List.map_cons, List.map_cons, ih]
    rfl

theorem spliceAll_patch {body : Bytes} {found : List ContentField} (hapart : SpansApart found)
    (hsits : ∀ f ∈ found, f.Sits body) {texts : List Bytes} (h : List.Forall₂ ContentField.Takes found texts) :
    ∃ order : List (ValueSpan × Bytes), order.Perm (List.zipWith ContentField.patch found texts) ∧
      Splice.Ordered body.length 0 (order.map spanPair) ∧
      Json.spliceAll body (List.zipWith ContentField.patch found texts) =
        .ok (Splice.weave (Splice.gaps body 0 (order.map spanPair)) (order.map Prod.snd)) := by
  have hspans := patch_spans h
  have hin : ∀ e ∈ List.zipWith ContentField.patch found texts, e.1.start < e.1.stop ∧ e.1.stop ≤ body.length := by
    intro e he
    have hmem := List.mem_map_of_mem (f := Prod.fst) he
    rw [hspans] at hmem
    obtain ⟨f, hf, hspan⟩ := List.mem_map.mp hmem
    rw [← hspan]
    exact ⟨(hsits f hf).pos, (hsits f hf).stop_le⟩
  have hpairwise : (List.zipWith ContentField.patch found texts).Pairwise fun a b =>
      a.1.stop ≤ b.1.start ∨ b.1.stop ≤ a.1.start := by
    have hmap : (found.map ContentField.span).Pairwise fun c d => c.stop ≤ d.start ∨ d.stop ≤ c.start :=
      List.pairwise_map.mpr hapart
    rw [← hspans] at hmap
    exact List.pairwise_map.mp hmap
  have hordered := Json.editOrder_ordered hin hpairwise
  exact ⟨_, List.mergeSort_perm _ _, hordered, Json.spliceAll_ok hordered⟩

/-- The spans of the fields lie apart in the body, and hold the literals of their texts. New texts are spliced in
without an error and without touching anything else, and are then what is extracted, at the same paths. -/
theorem extract_patch (body : Bytes) (side : Side) (format : ApiFormat) (found : List ContentField)
    (h : extract side body format = .fields found) :
    SpansApart found ∧ (∀ f ∈ found, f.Sits body) ∧
    ∀ texts, List.Forall₂ ContentField.Takes found texts →
      ∃ (order : List (ValueSpan × Bytes)) (out : Bytes) (found' : List ContentField),
        order.Perm (List.zipWith ContentField.patch found texts) ∧
        Splice.Ordered body.length 0 (order.map spanPair) ∧
        out = Splice.weave (Splice.gaps body 0 (order.map spanPair)) (order.map Prod.snd) ∧
        Json.spliceAll body (List.zipWith ContentField.patch found texts) = .ok out ∧
        (Json.valid body = true → Json.valid out = true) ∧
        extract side out format = .fields found' ∧
        found'.map ContentField.path = found.map ContentField.path ∧ found'.map ContentField.text = texts := by
  by_cases hblind : ∀ key, findValue body [.key key] = none
  · obtain rfl := extract_blind hblind side format h
    refine ⟨.nil, fun f hf => absurd hf List.not_mem_nil, fun texts htexts => ?_⟩
    cases htexts
    exact ⟨[], body, [], .refl _, Nat.zero_le _, (Splice.weave_singleton body).symm, rfl, id, h, rfl, rfl⟩
  · push Not at hblind
    obtain ⟨key, hkey⟩ := hblind
    obtain ⟨r, hclosed⟩ := Json.exists_root_closed hkey
    obtain ⟨hcovers, rfl⟩ := (Root.extract_iff r side format).mp h
    have hapart := Root.fields_apart r side format
    have hsits := List.forall_mem_map.mpr fun f hf => Root.field_sits r side format hf
    refine ⟨hapart, hsits, fun texts htexts => ?_⟩
    obtain ⟨order, hperm, hordered, hsplice⟩ := spliceAll_patch hapart hsits htexts
    obtain ⟨edits, hfoci, hedits⟩ := exists_values (List.forall₂_map_left_iff.mp htexts)
    obtain ⟨out, r', hout, hpost, hcovers', hsame, hplaces⟩ :=
      Root.patch r side format hcovers hfoci (fits_of_becomes hedits)
    rw [← patch_eq hedits, hfoci] at hout
    have hfound := (Root.extract_iff r' side format).mpr ⟨hcovers', rfl⟩
    refine ⟨order, out, _, hperm, hordered, Except.ok.inj (hout.symm.trans hsplice), hout, fun hvalid => ?_, hfound, ?_, ?_⟩
    · obtain ⟨w, hw⟩ := hclosed hvalid
      exact r'.valid (hpost.trans hw)
    · rw [hsame, hfoci, List.map_map, List.map_map]
      rfl
    · rw [hsame]
      exact fields_patched hedits hplaces

/-- A text and a raw input, in a body that goes wrong behind them. -/
def patchedSample : Bytes :=
  ascii "\x7b\"content\":[\x7b\"text\":\"a\",\"type\":\"text\"\x7d,\x7b\"type\":\"tool_use\",\"input\":\x7b\"k\":1\x7d\x7d], oops"

def patchedFields : List ContentField :=
  [⟨[keySeg "content", .index 0, keySeg "text"], ⟨20, 23, true⟩, ascii "a", false⟩,
    ⟨[keySeg "content", .index 1, keySeg "input"], ⟨66, 73, false⟩, ascii "\x7b\"k\":1\x7d", true⟩]

theorem extract_patch_sample : ∃ out found',
    Json.spliceAll patchedSample
      (List.zipWith ContentField.patch patchedFields [ascii "b\"", ascii "\x7b\"k\": []\x7d"]) = .ok out ∧
    extract .response out .messages = .fields found' ∧
    found'.map ContentField.path = patchedFields.map ContentField.path ∧
    found'.map ContentField.text = [ascii "b\"", ascii "\x7b\"k\": []\x7d"] := by
  obtain ⟨-, -, hpatch⟩ := extract_patch patchedSample .response .messages patchedFields (by decide +kernel)
  obtain ⟨-, out, found', -, -, -, hout, -, hfound, hpaths, htexts⟩ :=
    hpatch [ascii "b\"", ascii "\x7b\"k\": []\x7d"] (.cons (by decide +kernel) (.cons (by decide +kernel) .nil))
  exact ⟨out, found', hout, hfound, hpaths, htexts⟩

end LlmGuard.Extract
