import LlmGuard.Extract.Walk
import LlmGuard.Json.Elements

/-!
# Extracting by spans is walking the tree

Each helper of the extractors, run on the span of a value, gives the fields at the places that a walk of this value
picks.
-/

namespace LlmGuard.Extract

open Rfc8259 (Kind Label Value Items Ws Body Place quoted)
open Json (PathSeg ValueSpan SpanOf lookupPlace placeSpan segIndex findValueIn arrayElements looseSpan)

/-! ## The fields at picked places -/

/-- A raw field keeps its spelling. -/
def valueText (raw : Bool) (v : Value) : Bytes := if raw then v.text else Json.decodeString v.text

/-- The field at a place of a value, where the value starts at `base`. -/
def fieldAt (base : Nat) (root : List PathSeg) (v : Value) (f : Focus) : Option ContentField :=
  (v.place f.address).map fun p => ⟨root ++ f.path, placeSpan base p, valueText f.raw p.value, f.raw⟩

def read (base : Nat) (root : List PathSeg) (w : Walk) (v : Value) : List ContentField :=
  (w v).filterMap (fieldAt base root v)

theorem fieldAt_under {base : Nat} {root : List PathSeg} {v : Value} {j : Nat} {p : Place} (hp : v.child j = some p)
    (seg : PathSeg) (f : Focus) :
    fieldAt base root v (f.under seg j) = fieldAt (base + p.before.length) (root ++ [seg]) p.value f := by
  unfold fieldAt
  rw [Focus.under, place_under hp, Option.map_map]
  congr 1
  funext q
  simp only [Function.comp_apply, placeSpan, Place.inside, List.append_assoc, List.singleton_append,
    List.length_append, Nat.add_assoc]
  rfl

theorem member_lookupPlace (key : Bytes) (v : Value) :
    (member key v).map Prod.snd = (lookupPlace v [.key key]).map Place.value := by
  rw [Json.lookupPlace_seg]
  unfold member
  cases segIndex (.key key) v with
  | none => rfl
  | some j => cases hc : v.child j <;> simp [hc]

theorem read_under {base : Nat} {root : List PathSeg} {key : Bytes} {w : Walk} {v : Value} :
    read base root (under key w) v =
      match lookupPlace v [.key key] with
      | none => []
      | some p => read (base + p.before.length) (root ++ [.key key]) w p.value := by
  rw [Json.lookupPlace_seg]
  unfold read under member
  cases segIndex (.key key) v with
  | none => rfl
  | some j =>
    cases hp : v.child j with
    | none => simp [hp]
    | some p =>
      simp only [Option.bind_eq_bind, Option.bind_some, hp, List.filterMap_map]
      congr 1
      funext f
      exact fieldAt_under hp _ f

theorem read_fields (base : Nat) (root : List PathSeg) (l : List (Bytes × Walk)) (v : Value) :
    read base root (fields l) v = l.flatMap fun e => read base root (under e.1 e.2) v := by
  unfold read fields
  rw [List.filterMap_flatMap]

theorem read_each {base : Nat} {root : List PathSeg} {w : Walk} (items : Items .array) :
    read base root (each w) (.group .array items) =
      eachElement (fun i u => ((w u).map (Focus.under (.index i) i)).filterMap
        (fieldAt base root (.group .array items))) items.values := by
  unfold read
  rw [each_array]
  unfold eachElement
  rw [List.filterMap_flatMap]

theorem read_element {base : Nat} {root : List PathSeg} {w : Walk} {items : Items .array} {i : Nat} {q : Place}
    (hq : items.place i = some q) :
    ((w q.value).map (Focus.under (.index i) i)).filterMap (fieldAt base root (.group .array items)) =
      read (base + (q.before.length + 1)) (root ++ [.index i]) w q.value := by
  have hp : (Value.group .array items).child i = some ⟨ch '[' :: q.before, q.value, q.behind ++ [ch ']']⟩ :=
    Option.map_eq_some_iff.mpr ⟨q, hq, rfl⟩
  unfold read
  rw [List.filterMap_map]
  apply List.filterMap_congr
  intro f _
  exact fieldAt_under hp _ f

/-! ## Spans of values -/

/-- `find_value_in` on this span sees the value behind `pre`. -/
structure Located (doc : Bytes) (c : ValueSpan) (pre : Bytes) (v : Value) : Prop where
  find : ∀ path, findValueIn doc c path = (lookupPlace v path).map (placeSpan pre.length)
  inside : ∀ path p, lookupPlace v path = some p →
    ∃ post, SpanOf doc (placeSpan pre.length p) (pre ++ p.before) p.value post

theorem placeSpan_shift_add (n base : Nat) (p : Place) : (placeSpan n p).shift base = placeSpan (base + n) p := by
  simp only [placeSpan, ValueSpan.shift]
  congr 1 <;> omega

/-- A span may start with white space. -/
theorem located_of_blank {doc lead post : Bytes} {w : Ws} {v : Value} (hdoc : doc = lead ++ w.1 ++ (v.text ++ post))
    (hskip : Json.skipValue (v.text ++ post) = some post) {c : ValueSpan} (hstart : c.start = lead.length)
    (hstop : c.stop = lead.length + (w.1 ++ v.text).length) : Located doc c (lead ++ w.1) v := by
  constructor
  · intro path
    have hcut : slice doc c.start c.stop = w.1 ++ (v.text ++ []) := by
      have hmiddle := Splice.slice_middle lead (w.1 ++ v.text) post
      have hsplit : doc = lead ++ (w.1 ++ v.text) ++ post := by
        rw [hdoc]
        simp
      rw [hsplit, hstart, hstop, hmiddle, List.append_nil]
    have hin : ¬ (c.stop < c.start ∨ doc.length < c.stop) := by
      rw [hdoc, hstart, hstop]
      simp only [List.length_append]
      omega
    have hend : Json.skipValue (v.text ++ []) = some [] := Json.skipValue_text v (by simp [Json.EndsNumber])
    unfold findValueIn
    rw [if_neg (by simpa using hin), hcut, Json.findValue_value rfl hend, Option.map_map, hstart, List.length_append]
    congr 1
    funext p
    exact placeSpan_shift_add _ _ p
  · intro path p hp
    exact ⟨_, SpanOf.inside ⟨hdoc, rfl, hskip⟩ hp⟩

theorem Located.of_spanOf {doc pre post : Bytes} {c : ValueSpan} {v : Value} (h : SpanOf doc c pre v post) :
    Located doc c pre v := by
  have hlocated : Located doc c (pre ++ (⟨[], by simp⟩ : Ws).1) v := located_of_blank
    (by simpa using h.doc_eq) h.skip (by rw [h.span_eq]) (by rw [h.span_eq]; simp)
  simpa using hlocated

theorem located_element {doc pre post : Bytes} {c : ValueSpan} {items : Items .array}
    (h : SpanOf doc c pre (.group .array items) post) {i : Nat} {e : ValueSpan} (he : (arrayElements doc c)[i]? = some e) :
    ∃ p, (Value.group .array items).child i = some p ∧ Located doc e (pre ++ p.before) p.value := by
  rw [Json.arrayElements_array h] at he
  obtain ⟨q, hq, rfl⟩ := Option.map_eq_some_iff.mp he
  have hchild : (Value.group .array items).child i = some ⟨ch '[' :: q.before, q.value, q.behind ++ [ch ']']⟩ :=
    Option.map_eq_some_iff.mpr ⟨q, hq, rfl⟩
  refine ⟨_, hchild, ?_⟩
  obtain ⟨w, x, hw, hx⟩ := Json.gap_of_place hq
  have hinside : SpanOf doc (placeSpan pre.length ⟨ch '[' :: q.before, q.value, q.behind ++ [ch ']']⟩)
      (pre ++ ch '[' :: q.before) q.value (q.behind ++ [ch ']'] ++ post) := by
    have hi : i < items.values.length := (Items.place_isSome items i).mp (by rw [hq, Option.isSome_some])
    have hlookup := Json.lookupPlace_seg (.group .array items) (.index i)
    rw [segIndex, if_pos hi, Option.bind_some, hchild] at hlookup
    exact SpanOf.inside h hlookup
  have hpre : pre ++ ch '[' :: q.before = pre ++ ch '[' :: x ++ w.1 := by simp [hx]
  simp only [hpre]
  apply located_of_blank
  · rw [← hpre]
    exact hinside.doc_eq
  · exact hinside.skip
  · rw [hw, looseSpan, hx]
    simp
    omega
  · rw [hw, looseSpan, hx]
    simp
    omega

/-! ## One value at its span -/

section

variable {doc pre post : Bytes} {c : ValueSpan} {v : Value}

theorem isString_iff (h : SpanOf doc c pre v post) : c.isString = true ↔ ∃ b, v = .string b := by
  rw [h.span_eq, decide_eq_true_eq]
  exact Json.head_quote_iff v

theorem spanText_eq (h : SpanOf doc c pre v post) : spanText doc c = Json.decodeString v.text := by
  unfold spanText
  rw [h.slice_eq.1]

theorem head_at_start (h : SpanOf doc c pre v post) : c.start < c.stop ∧ doc[c.start]? = v.text.head? := by
  obtain ⟨b, s, hb, -⟩ := Json.head_text v
  have hpos := Json.text_pos v
  rw [h.span_eq, h.doc_eq]
  refine ⟨Nat.lt_add_of_pos_right hpos, ?_⟩
  rw [List.getElem?_append_right (Nat.le_refl _), Nat.sub_self, hb]
  rfl

theorem isArraySpan_iff (h : SpanOf doc c pre v post) :
    isArraySpan doc c = true ↔ v.text.head? = some (ch '[') := by
  obtain ⟨hlt, hhead⟩ := head_at_start h
  have hstring := isString_iff h
  unfold isArraySpan
  rw [hhead]
  simp only [hlt, decide_true, Bool.and_true, Bool.and_eq_true, Bool.not_eq_true', decide_eq_true_eq]
  refine ⟨And.right, fun harray => ⟨?_, harray⟩⟩
  rw [← Bool.not_eq_true, hstring]
  rintro ⟨b, rfl⟩
  exact absurd (Option.some.inj harray) (by decide)

theorem placeSpan_self (h : SpanOf doc c pre v post) : placeSpan pre.length ⟨[], v, []⟩ = c := h.span_eq.symm

theorem isText_iff (b : Body) : IsText (.string b) ↔ (Json.decodeString (quoted b.1)).isEmpty = false := by
  rw [← Bool.not_eq_true, List.isEmpty_iff]
  exact Iff.rfl

theorem push_span (h : SpanOf doc c pre v post) (path : List PathSeg) :
    pushIfNonemptyString doc path (some c) = read pre.length path text v := by
  have hstring := isString_iff h
  unfold pushIfNonemptyString
  simp only [spanText_eq h]
  cases v with
  | string b =>
    have hc : c.isString = true := hstring.mpr ⟨b, rfl⟩
    by_cases htext : IsText (.string b)
    · have hempty := (isText_iff b).mp htext
      unfold read
      rw [text_eq htext]
      simp only [hc, Bool.not_true, Bool.false_eq_true, if_false, Value.text, hempty]
      simp only [List.filterMap_cons, fieldAt, Value.place, Option.map_some, List.filterMap_nil, List.append_nil,
        placeSpan_self h, valueText, Value.text, Bool.false_eq_true, if_false]
    · have hnone : text (.string b) = [] := if_neg htext
      have hempty : (Json.decodeString (quoted b.1)).isEmpty = true := by
        rw [isText_iff, Bool.not_eq_false] at htext
        exact htext
      unfold read
      rw [hnone]
      simp only [hc, Bool.not_true, Bool.false_eq_true, if_false, Value.text, hempty, if_true, List.filterMap_nil]
  | scalar | empty | group =>
    have hc : c.isString = false := by
      rw [← Bool.not_eq_true, hstring]
      rintro ⟨b, hb⟩
      cases hb
    simp only [hc, Bool.not_false, if_true]
    rfl

theorem empty_object_text : ascii "\x7b\x7d" = ch '\x7b' :: ([] ++ [ch '\x7d']) := by decide

theorem isRaw_iff (v : Value) : IsRaw v ↔ v.text.head? = some (ch '\x7b') ∧ v.text ≠ ascii "\x7b\x7d" := by
  cases v with
  | scalar t =>
    obtain ⟨b, s, ht, -, -, -, hobject, -⟩ := Json.head_scalar t
    refine iff_of_false id fun h => hobject ?_
    rw [Value.text, ht] at h
    exact Option.some.inj h.1
  | string b => exact iff_of_false id fun h => absurd (Option.some.inj h.1) (by decide)
  | empty k w =>
    cases k with
    | array => exact iff_of_false id fun h => absurd (Option.some.inj h.1) (by decide)
    | object =>
      have hbody : (Value.empty .object w).text = ascii "\x7b\x7d" ↔ w.1 = [] := by
        have htext : (Value.empty .object w).text = ch '\x7b' :: (w.1 ++ [ch '\x7d']) := rfl
        rw [htext, empty_object_text, List.cons.injEq, List.append_left_inj]
        exact and_iff_right rfl
      exact ⟨fun h => ⟨rfl, mt hbody.mp h⟩, fun h => mt hbody.mpr h.2⟩
  | group k items =>
    cases k with
    | array => exact iff_of_false id fun h => absurd (Option.some.inj h.1) (by decide)
    | object =>
      refine iff_of_true trivial ⟨rfl, fun h => ?_⟩
      have hempty : (Value.empty .object ⟨[], by simp⟩).text = (Value.group .object items).text :=
        empty_object_text.symm.trans h.symm
      exact Json.empty_ne_group hempty

theorem pushRaw_span (h : SpanOf doc c pre v post) (path : List PathSeg) :
    Messages.pushRawInput doc path (some c) = read pre.length path rawObject v := by
  obtain ⟨hlt, hhead⟩ := head_at_start h
  have hstring := isString_iff h
  unfold Messages.pushRawInput
  simp only [hhead, h.slice_eq.1]
  by_cases hraw : IsRaw v
  · obtain ⟨hobject, hne⟩ := (isRaw_iff v).mp hraw
    have hc : c.isString = false := by
      rw [← Bool.not_eq_true, hstring]
      rintro ⟨b, rfl⟩
      exact hraw
    have hpick : rawObject v = [⟨[], [], true⟩] := if_pos hraw
    unfold read
    rw [hpick]
    simp only [hc, hlt, hobject, hne, Bool.not_false, decide_true, Bool.and_self, if_true, ne_eq, not_false_eq_true]
    simp only [List.filterMap_cons, fieldAt, Value.place, Option.map_some, List.filterMap_nil, List.append_nil,
      placeSpan_self h, valueText, if_true]
  · have hpick : rawObject v = [] := if_neg hraw
    unfold read
    rw [hpick, List.filterMap_nil]
    split
    · rename_i hcond
      simp only [Bool.and_eq_true, decide_eq_true_eq] at hcond
      split
      · rename_i hne
        exact absurd ((isRaw_iff v).mpr ⟨hcond.2, hne⟩) hraw
      · rfl
    · rfl

theorem stringLeavesIn_value (h : SpanOf doc c pre v post) :
    Json.stringLeavesIn doc c [] = (Json.leaves v).filterMap (Json.leafOf [] pre.length v) := by
  obtain ⟨hslice, hle, hlen⟩ := h.slice_eq
  have hstart : c.start = pre.length := by rw [h.span_eq]
  have hcut := Json.stringLeaves_reading (⟨⟨[], by simp⟩, v, ⟨[], by simp⟩, by simp⟩ : Rfc8259.Reading v.text)
  unfold Json.stringLeavesIn
  rw [if_neg (by simp; omega), hslice, hcut, List.map_filterMap, hstart]
  congr 1
  funext l
  simp only [Json.leafOf, Option.map_map]
  congr 1
  funext p
  simp only [Function.comp_apply, List.length_nil, Json.placeSpan_shift]

theorem collectInputLeaves_eq (h : SpanOf doc c pre v post) (path : List PathSeg) :
    Messages.collectInputLeaves doc path c = read pre.length path strings v := by
  unfold Messages.collectInputLeaves read strings
  rw [stringLeavesIn_value h, List.filterMap_filterMap, List.filterMap_filterMap]
  apply List.filterMap_congr
  intro l hl
  obtain ⟨p, b, hp, hb⟩ := (Json.mem_leaves_iff v l.2).mp ⟨l.1, hl⟩
  have hslice := (Json.slice_placeSpan h.doc_eq (Value.place_text hp)).1
  have htext : spanText doc (placeSpan pre.length p) = Json.decodeString (quoted b.1) := by
    unfold spanText
    rw [hslice, hb]
    rfl
  simp only [Json.leafOf, hp, Option.map_some, Option.bind_some, htext, Option.any_some, hb]
  by_cases hempty : (Json.decodeString (quoted b.1)).isEmpty = true
  · have hnone : ¬ IsText (.string b) := by simpa [isText_iff] using hempty
    simp [hempty, hnone]
  · have hsome : IsText (.string b) := by simpa [isText_iff] using hempty
    simp only [hempty, hsome, decide_true, Bool.false_eq_true, if_false, if_true, Option.bind_some, fieldAt, hp,
      Option.map_some, valueText, hb, List.nil_append]
    rfl

end

/-! ## Lookups of one key -/

/-- `find` sees the value behind `pre`, one key at a time. -/
structure Finds (doc pre : Bytes) (v : Value) (find : List PathSeg → Option ValueSpan) : Prop where
  key : ∀ k, find [.key k] = (lookupPlace v [.key k]).map (placeSpan pre.length)
  inside : ∀ k p, lookupPlace v [.key k] = some p →
    ∃ post, SpanOf doc (placeSpan pre.length p) (pre ++ p.before) p.value post

theorem Located.finds {doc pre : Bytes} {c : ValueSpan} {v : Value} (h : Located doc c pre v) :
    Finds doc pre v (findValueIn doc c) where
  key k := h.find [.key k]
  inside k p hp := h.inside [.key k] p hp

/-- A helper that takes a value apart, given its span. -/
def Collects (doc : Bytes) (path : List PathSeg) (collect : ValueSpan → List ContentField) (w : Walk) : Prop :=
  ∀ c pre v post, SpanOf doc c pre v post → collect c = read pre.length path w v

/-- A helper for an element, whose span may start with white space. -/
def CollectsElement (doc : Bytes) (path : List PathSeg) (collect : ValueSpan → List ContentField) (w : Walk) : Prop :=
  ∀ c pre v, Located doc c pre v → collect c = read pre.length path w v

theorem CollectsElement.collects {doc : Bytes} {path : List PathSeg} {collect : ValueSpan → List ContentField} {w : Walk}
    (h : CollectsElement doc path collect w) : Collects doc path collect w :=
  fun c pre v _ hspan => h c pre v (.of_spanOf hspan)

section

variable {doc pre : Bytes} {v : Value} {find : List PathSeg → Option ValueSpan} {root : List PathSeg} {w : Walk}
  {collect : ValueSpan → List ContentField}

theorem Finds.under (h : Finds doc pre v find) (root : List PathSeg) (key : Bytes)
    (hcollect : Collects doc (root ++ [.key key]) collect w) :
    (match find [.key key] with
      | none => []
      | some c => collect c) = read pre.length root (under key w) v := by
  rw [h.key, read_under]
  cases hp : lookupPlace v [.key key] with
  | none => rfl
  | some p =>
    obtain ⟨post, hspan⟩ := h.inside key p hp
    simp only [Option.map_some]
    rw [hcollect _ _ _ _ hspan, List.length_append]

theorem Finds.push (h : Finds doc pre v find) (root : List PathSeg) (key : Bytes) :
    pushIfNonemptyString doc (root ++ [.key key]) (find [.key key]) = read pre.length root (Extract.under key text) v := by
  have hpush : Collects doc (root ++ [.key key]) (fun c => pushIfNonemptyString doc (root ++ [.key key]) (some c)) text :=
    fun c pre v post hspan => push_span hspan _
  rw [← h.under root key hpush]
  cases find [.key key] <;> rfl

theorem Finds.pushRaw (h : Finds doc pre v find) (root : List PathSeg) (key : Bytes) :
    Messages.pushRawInput doc (root ++ [.key key]) (find [.key key]) =
      read pre.length root (Extract.under key rawObject) v := by
  have hpush : Collects doc (root ++ [.key key]) (fun c => Messages.pushRawInput doc (root ++ [.key key]) (some c))
      rawObject := fun c pre v post hspan => pushRaw_span hspan _
  rw [← h.under root key hpush]
  cases find [.key key] <;> rfl

theorem each_other {w : Walk} {v : Value} (h : v.text.head? ≠ some (ch '[')) : each w v = [] := by
  cases v with
  | group k items =>
    cases k with
    | array => exact absurd rfl h
    | object => rfl
  | scalar | string | empty => rfl

theorem collects_each {f : Nat → ValueSpan → List ContentField}
    (hf : ∀ i, CollectsElement doc (root ++ [.index i]) (f i) w) :
    Collects doc root (fun c => eachElement f (arrayElements doc c)) (each w) := by
  intro c pre v post h
  by_cases harray : v.text.head? = some (ch '[')
  · cases v with
    | group k items =>
      cases k with
      | object => exact absurd (Option.some.inj harray) (by decide)
      | array =>
        rw [read_each]
        apply eachElement_congr
        intro i
        cases he : (arrayElements doc c)[i]? with
        | none =>
          rw [Json.arrayElements_array h, Option.map_eq_none_iff] at he
          rw [← Items.place_value, he]
          rfl
        | some e =>
          obtain ⟨p, hp, hlocated⟩ := located_element h he
          obtain ⟨q, hq, rfl⟩ := Option.map_eq_some_iff.mp hp
          rw [← Items.place_value, hq]
          simp only [Option.map_some]
          rw [hf i e _ _ hlocated, List.length_append, read_element hq]
          rfl
    | empty k blank =>
      cases k with
      | object => exact absurd (Option.some.inj harray) (by decide)
      | array =>
        simp only [Json.arrayElements_empty h]
        rfl
    | scalar t =>
      obtain ⟨b, s, ht, -, -, hne, -⟩ := Json.head_scalar t
      rw [Value.text, ht] at harray
      exact absurd (Option.some.inj harray) hne
    | string b => exact absurd (Option.some.inj harray) (by decide)
  · unfold read
    simp only [Json.arrayElements_other h harray, each_other harray]
    rfl

theorem collects_array (hcollect : Collects doc root collect (each w)) :
    Collects doc root (fun c => if isArraySpan doc c then collect c else []) (each w) := by
  intro c pre v post hspan
  have harray := isArraySpan_iff hspan
  simp only
  split
  · exact hcollect c pre v post hspan
  · rename_i hnot
    rw [harray] at hnot
    unfold read
    rw [each_other hnot]
    rfl

theorem Finds.array (h : Finds doc pre v find) (root : List PathSeg) (key : Bytes)
    (hcollect : Collects doc (root ++ [.key key]) collect (each w)) :
    (match find [.key key] with
      | none => []
      | some c => if isArraySpan doc c then collect c else []) = read pre.length root (Extract.under key (each w)) v :=
  h.under root key (collects_array hcollect)

theorem Finds.stringOrArray (h : Finds doc pre v find) (root : List PathSeg) (key : Bytes)
    (hcollect : Collects doc (root ++ [.key key]) collect (each w)) :
    stringOrArray doc (root ++ [.key key]) (find [.key key]) collect =
      read pre.length root (Extract.under key (textOrEach w)) v := by
  have hone : Collects doc (root ++ [.key key]) (fun c =>
      if c.isString then pushIfNonemptyString doc (root ++ [.key key]) (some c)
      else if isArraySpan doc c then collect c else []) (textOrEach w) := by
    intro c pre v post hspan
    have hstring := isString_iff hspan
    simp only
    unfold textOrEach read
    rw [List.filterMap_append]
    split
    · rename_i hc
      obtain ⟨b, rfl⟩ := hstring.mp hc
      exact (push_span hspan _).trans (List.append_nil _).symm
    · rename_i hc
      have hnone : text v = [] := if_neg fun htext => hc (hstring.mpr (isText_string htext))
      rw [hnone, List.filterMap_nil, List.nil_append]
      exact collects_array hcollect c pre v post hspan
  exact h.under root key hone

theorem Located.type {c : ValueSpan} (h : Located doc c pre v) : blockType doc c = typeName v := by
  have hmember := member_lookupPlace (ascii "type") v
  unfold blockType typeName keySeg
  rw [h.find]
  cases hp : lookupPlace v [.key (ascii "type")] with
  | none =>
    rw [hp, Option.map_none, Option.map_eq_none_iff] at hmember
    rw [hmember]
    rfl
  | some p =>
    rw [hp, Option.map_some] at hmember
    obtain ⟨⟨j, u⟩, hm, hu⟩ := Option.map_eq_some_iff.mp hmember
    obtain ⟨post, hspan⟩ := h.inside _ p hp
    have hstring := isString_iff hspan
    simp only at hu
    subst hu
    simp only [Option.map_some, hm]
    cases hvalue : p.value with
    | string b =>
      simp only [hstring.mpr ⟨b, hvalue⟩, Bool.not_true, Bool.false_eq_true, if_false, spanText_eq hspan, hvalue]
      rfl
    | scalar | empty | group =>
      have hnot : (placeSpan pre.length p).isString = false := by
        rw [← Bool.not_eq_true, hstring, hvalue]
        rintro ⟨b, hb⟩
        cases hb
      simp only [hnot, Bool.not_false, if_true]

end

end LlmGuard.Extract
