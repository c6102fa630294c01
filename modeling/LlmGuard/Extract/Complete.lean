import LlmGuard.Extract.Proofs
import LlmGuard.Extract.Spec

/-!
# Request extraction misses nothing and invents nothing

Each walk says what a selection takes from the decoded tree.
-/

namespace LlmGuard.Extract

open Rfc8259 (Kind Label Value Items Body Place quoted)
open Json (PathSeg ValueSpan Tree treeOf treesOf nameOf lookupPlace findValue segIndex)

/-- The walk of a value picks the texts that the selection takes from its tree. -/
def Says (w : Walk) (take : Selection) : Prop :=
  ∀ base root v, (read base root w v).map (fun f => (f.path, f.text)) = take root (treeOf v)

/-! ## Lookups in both trees -/

theorem find_treesOf (key : Bytes) {k : Kind} (items : Items k) :
    ((treesOf items).find? fun item => item.1 = some key).map Prod.snd =
      (items.labels.findIdx? fun label => nameOf label = some key).bind fun j => items.values[j]?.map treeOf := by
  induction items using Items.induction with
  | last label before v after =>
    rw [treesOf, Items.labels, List.findIdx?_singleton]
    by_cases hname : nameOf label = some key <;> simp [hname, Items.values]
  | more label before v after rest ih =>
    rw [treesOf, Items.labels, List.findIdx?_cons]
    by_cases hname : nameOf label = some key
    · simp [hname, Items.values]
    · simp only [hname, decide_false, Bool.false_eq_true, if_false, Items.values, List.find?_cons, ih, Option.bind_map]
      congr 1

theorem treeGet_treeOf (key : Bytes) (v : Value) :
    treeGet key (treeOf v) = (lookupPlace v [.key key]).map fun p => treeOf p.value := by
  rw [Json.lookupPlace_seg]
  cases v with
  | group k items =>
    cases k with
    | array => rfl
    | object =>
      have hfind := find_treesOf key items
      apply hfind.trans
      unfold segIndex
      simp only
      cases items.labels.findIdx? fun label => nameOf label = some key with
      | none => rfl
      | some j =>
        simp only [Option.bind_some, Value.child, Option.map_map, ← Items.place_value]
        rfl
  | empty k blank => cases k <;> rfl
  | scalar | string => rfl

theorem treeType_treeOf (v : Value) : treeType (treeOf v) = typeName v := by
  have hmember := member_lookupPlace (ascii "type") v
  unfold treeType typeName
  rw [treeGet_treeOf]
  cases hp : lookupPlace v [.key (ascii "type")] with
  | none =>
    rw [hp, Option.map_none, Option.map_eq_none_iff] at hmember
    rw [hmember]
    rfl
  | some p =>
    rw [hp, Option.map_some] at hmember
    obtain ⟨⟨j, u⟩, hm, hu⟩ := Option.map_eq_some_iff.mp hmember
    simp only at hu
    subst hu
    rw [hm, Option.map_some]
    cases p.value <;> rfl

theorem treeElements_treeOf (items : Items .array) :
    treeElements (treeOf (.group .array items)) = items.values.map treeOf := by
  have hlen : (items.values.map treeOf).length ≤ (items.labels.map nameOf).length := by
    rw [List.length_map, List.length_map, Items.labels_length]
  unfold treeOf treeElements
  simp only
  rw [Json.treesOf_eq, List.map_snd_zip hlen]

theorem isArray_treeOf (v : Value) : isArray (treeOf v) = true ↔ v.text.head? = some (ch '[') := by
  cases v with
  | scalar t =>
    obtain ⟨b, s, ht, -, -, hne, -⟩ := Json.head_scalar t
    refine iff_of_false (by simp [treeOf, isArray]) fun h => hne ?_
    rw [Value.text, ht] at h
    exact Option.some.inj h
  | string b => exact iff_of_false (by simp [treeOf, isArray]) fun h => absurd (Option.some.inj h) (by decide)
  | empty k w =>
    cases k with
    | array => exact iff_of_true rfl rfl
    | object => exact iff_of_false (by simp [treeOf, isArray]) fun h => absurd (Option.some.inj h) (by decide)
  | group k items =>
    cases k with
    | array => exact iff_of_true rfl rfl
    | object => exact iff_of_false (by simp [treeOf, isArray]) fun h => absurd (Option.some.inj h) (by decide)

/-! ## One selection for each walk -/

theorem says_text : Says text takeText := by
  intro base root v
  unfold read text
  cases v with
  | string b =>
    by_cases htext : IsText (.string b)
    · have hne : Json.decodeString (quoted b.1) ≠ [] := htext
      rw [if_pos htext]
      simp [fieldAt, Value.place, valueText, Value.text, treeOf, takeText, hne]
    · have hempty : Json.decodeString (quoted b.1) = [] := not_not.mp htext
      rw [if_neg htext]
      simp [treeOf, takeText, hempty]
  | scalar | empty | group => rfl

theorem Says.member {w : Walk} {take : Selection} (h : Says w take) (key : String) :
    Says (under (ascii key) w) (takeMember key take) := by
  intro base root v
  unfold takeMember
  rw [read_under, treeGet_treeOf]
  cases lookupPlace v [.key (ascii key)] with
  | none => rfl
  | some p => exact h _ _ p.value

theorem map_eachElement {α β γ : Type} (g : β → γ) (f : Nat → α → List β) (l : List α) :
    (eachElement f l).map g = eachElement (fun i a => (f i a).map g) l := List.map_flatMap

theorem Says.each {w : Walk} {take : Selection} (h : Says w take) : Says (each w) (takeEach take) := by
  intro base root v
  cases v with
  | group k items =>
    cases k with
    | object => rfl
    | array =>
      unfold takeEach
      rw [read_each, map_eachElement, treeElements_treeOf]
      apply eachElement_congr
      intro i
      rw [List.getElem?_map, ← Items.place_value]
      cases hq : items.place i with
      | none => rfl
      | some q =>
        simp only [Option.map_some]
        rw [read_element hq, h]
  | empty k blank => cases k <;> rfl
  | scalar | string => rfl

theorem says_fields {l : List (Bytes × Walk)} {takes : List Selection}
    (h : List.Forall₂ (fun e take => Says (under e.1 e.2) take) l takes) : Says (fields l) (takeAll takes) := by
  intro base root v
  unfold takeAll
  rw [read_fields, List.map_flatMap]
  induction h with
  | nil => rfl
  | cons he _ ih => rw [List.flatMap_cons, List.flatMap_cons, he, ih]

theorem Says.textOrEach {w : Walk} {take : Selection} (h : Says w take) :
    Says (textOrEach w) (takeTextOrEach take) := by
  intro base root v
  have htext := says_text base root v
  have heach := h.each base root v
  unfold read at htext heach ⊢
  unfold Extract.textOrEach takeTextOrEach takeAll
  rw [List.filterMap_append, List.map_append, htext, heach]
  simp

theorem says_fieldsByType {l : Bytes → List (Bytes × Walk)} (take : Bytes → Selection)
    (h : ∀ type, Says (fields (l type)) (take type)) :
    Says (fieldsByType l) fun path t => take (treeType t) path t := by
  intro base root v
  rw [read_byType, h, ← treeType_treeOf]

theorem says_one {key : String} {w : Walk} {take : Selection} (h : Says w take) :
    Says (fields [(ascii key, w)]) (takeMember key take) := by
  intro base root v
  rw [read_one]
  exact h.member key base root v

theorem says_part {allowed : Bytes → Bool} {types : List String}
    (h : ∀ type, allowed type = true ↔ type ∈ types.map ascii) : Says (part allowed) (takePart types) := by
  intro base root v
  rw [part, read_byType, takePart, treeType_treeOf]
  by_cases hallowed : allowed (typeName v) = true
  · rw [if_pos hallowed, if_pos ((h _).mp hallowed)]
    exact says_one says_text base root v
  · rw [if_neg hallowed, if_neg (mt (h _).mpr hallowed)]
    rfl

/-! ## Texts at any depth -/

/-- The decoded string at an address. -/
def leafText (v : Value) (l : List PathSeg × List Nat) : Option (List PathSeg × Bytes) :=
  (v.place l.2).map fun p => (l.1, Json.decodeString p.value.text)

theorem leafText_under {v : Value} {j : Nat} {p : Place} (hp : v.child j = some p) (seg : PathSeg)
    (ls : List (List PathSeg × List Nat)) :
    (ls.map fun l => (seg :: l.1, j :: l.2)).filterMap (leafText v) =
      (ls.filterMap (leafText p.value)).map fun l => (seg :: l.1, l.2) := by
  rw [List.filterMap_map, List.map_filterMap]
  apply List.filterMap_congr
  intro l _
  simp only [Function.comp_apply, leafText, place_under hp, Option.map_map]
  rfl

theorem segOf_eq {k : Kind} (label : Label k) (j : Nat) :
    Json.segOf label j = (nameOf label).elim (.index j) .key := by
  cases label <;> rfl

theorem itemStrings_treesOf (v : Value) {k : Kind} {items : Items k} {start : Nat}
    (hchild : ∀ (j : Nat) u, items.values[j]? = some u → ∃ p, v.child (start + j) = some p ∧ p.value = u)
    (hvalues : ∀ u ∈ items.values, treeStrings (treeOf u) = (Json.leaves u).filterMap (leafText u)) :
    itemStrings start (treesOf items) = (Json.itemLeaves start items).filterMap (leafText v) := by
  induction items using Items.induction generalizing start with
  | last label before u after =>
    obtain ⟨p, hp, rfl⟩ := hchild 0 u rfl
    rw [Nat.add_zero] at hp
    have hu := hvalues p.value List.mem_cons_self
    rw [treesOf, itemStrings, itemStrings, Json.itemLeaves, leafText_under hp, hu, segOf_eq, List.append_nil]
  | more label before u after rest ih =>
    obtain ⟨p, hp, rfl⟩ := hchild 0 u rfl
    rw [Nat.add_zero] at hp
    have hu := hvalues p.value List.mem_cons_self
    have hrest := @ih (start + 1) (fun j u hj => by
      have := hchild (j + 1) u hj
      rwa [Nat.add_comm j 1, ← Nat.add_assoc] at this) fun u hu => hvalues u (List.mem_cons_of_mem _ hu)
    rw [treesOf, itemStrings, Json.itemLeaves, List.filterMap_append, leafText_under hp, hu, segOf_eq, hrest]

theorem treeStrings_treeOf (v : Value) : treeStrings (treeOf v) = (Json.leaves v).filterMap (leafText v) := by
  induction v using Value.induction with
  | scalar t => rfl
  | string b => rfl
  | empty k blank => rfl
  | group k items ih =>
    rw [treeOf, treeStrings, Json.leaves]
    refine itemStrings_treesOf (.group k items) (fun j u hj => ?_) ih
    obtain ⟨hlt, rfl⟩ := List.getElem?_eq_some_iff.mp hj
    rw [Nat.zero_add]
    exact Json.child_values hlt

theorem says_strings : Says strings takeStrings := by
  intro base root v
  unfold read strings takeStrings
  rw [treeStrings_treeOf, List.filterMap_filterMap, List.map_filterMap, List.filter_filterMap, List.map_filterMap]
  apply List.filterMap_congr
  intro l hl
  obtain ⟨p, b, hp, hb⟩ := (Json.mem_leaves_iff v l.2).mp ⟨l.1, hl⟩
  have htext : IsText p.value ↔ Json.decodeString p.value.text ≠ [] := by
    rw [hb]
    exact Iff.rfl
  simp only [hp, leafText, Option.any_some, decide_eq_true_eq, Option.map_some, Option.filter_some]
  by_cases hempty : IsText p.value
  · have hne := htext.mp hempty
    simp [hempty, hne, fieldAt, hp, valueText]
  · have heq : Json.decodeString p.value.text = [] := not_not.mp (mt htext.mpr hempty)
    simp [hempty, heq]

/-! ## The formats -/

theorem says_call (key : String) : Says (under (call key).1 (call key).2) (takeMember key takeArguments) :=
  Says.member (says_one says_text) key

theorem says_textPart : Says (partOf "text") (takePart ["text"]) :=
  says_part fun type => by simp

theorem says_chatRequest : Says chatRequest (takeMember "messages" (takeEach chatMessage)) := by
  have hcall : Says (fields [call "function"]) (takeMember "function" takeArguments) := says_one (says_one says_text)
  apply says_one
  apply Says.each
  apply says_fields
  exact .cons (says_textPart.textOrEach.member "content") (.cons (says_call "function_call")
    (.cons (hcall.each.member "tool_calls") .nil))

theorem says_nothing : Says (fields []) fun _ _ => [] := fun _ _ _ => rfl

theorem says_messagesBlock : Says messagesBlock messagesBlockTexts := by
  apply says_fieldsByType fun type path block =>
    if type = ascii "text" then takeMember "text" takeText path block
    else if type = ascii "tool_use" then takeMember "input" takeStrings path block
    else if type = ascii "tool_result" then takeMember "content" (takeTextOrEach (takePart ["text"])) path block
    else []
  intro type
  split_ifs
  · exact says_one says_text
  · exact says_one says_strings
  · exact says_one says_textPart.textOrEach
  · exact says_nothing

theorem says_messagesRequest : Says messagesRequest messagesBody := by
  apply says_fields
  exact .cons (says_textPart.textOrEach.member "system")
    (.cons ((says_one says_messagesBlock.textOrEach).each.member "messages") .nil)

theorem says_responsesPart : Says responsesPart responsesTextPart :=
  says_part fun type => by simp [or_assoc]

theorem says_responsesItem : Says responsesInputItem responsesItemTexts := by
  apply says_fieldsByType fun type path item =>
    if type = ascii "function_call_output" then takeMember "output" (takeTextOrEach responsesTextPart) path item
    else if type = ascii "function_call" then takeArguments path item
    else takeMember "content" (takeTextOrEach responsesTextPart) path item
  intro type
  split_ifs
  · exact says_one says_responsesPart.textOrEach
  · exact says_one says_text
  · exact says_one says_responsesPart.textOrEach

theorem says_responsesRequest : Says responsesRequest responsesBody := by
  apply says_fields
  exact .cons (says_text.member "instructions") (.cons (says_responsesItem.textOrEach.member "input") .nil)

/-! ## Valid bodies -/

theorem Reading.finds {doc : Bytes} (t : Rfc8259.Reading doc) : Finds doc t.before.1 t.value (findValue doc) := by
  obtain ⟨hspan, hfrom⟩ := Json.Reading.spanOf t
  exact ⟨fun k => Json.findValue_append hspan hfrom [.key k], fun k p hp => ⟨_, hspan.inside hp⟩⟩

theorem supports_iff (format : ApiFormat) (v : Value) : Supports format v ↔ (requestTexts format (treeOf v)).isSome := by
  cases format with
  | chatCompletions =>
    change (∃ p, lookupPlace v [.key (ascii "messages")] = some p ∧ p.value.text.head? = some (ch '[')) ↔
      Option.isSome (if (treeGet (ascii "messages") (treeOf v)).any isArray then _ else none) = true
    rw [treeGet_treeOf]
    cases lookupPlace v [.key (ascii "messages")] with
    | none => simp
    | some p => simp [isArray_treeOf]
  | messages => exact iff_of_true trivial rfl
  | responses =>
    change ((lookupPlace v [.key (ascii "input")]).isSome ∨ (lookupPlace v [.key (ascii "instructions")]).isSome) ↔
      Option.isSome (if (treeGet (ascii "input") (treeOf v)).isSome ||
        (treeGet (ascii "instructions") (treeOf v)).isSome then _ else none) = true
    rw [treeGet_treeOf, treeGet_treeOf, Option.isSome_map, Option.isSome_map]
    split <;> simp_all

/-- The selection of a request body that its format covers. -/
def requestSelection : ApiFormat → Selection
  | .chatCompletions => takeMember "messages" (takeEach chatMessage)
  | .messages => messagesBody
  | .responses => responsesBody

theorem says_walkRequest (format : ApiFormat) : Says (walkRequest format) (requestSelection format) := by
  cases format with
  | chatCompletions => exact says_chatRequest
  | messages => exact says_messagesRequest
  | responses => exact says_responsesRequest

theorem requestTexts_of_isSome {format : ApiFormat} {t : Tree} (h : (requestTexts format t).isSome) :
    requestTexts format t = some (requestSelection format [] t) := by
  cases format with
  | messages => rfl
  | chatCompletions | responses =>
    apply if_pos
    by_contra hno
    exact absurd h (by simp [requestTexts, hno])

/-- On a valid body each request extractor gives the paths and texts of the documented walk of the tree, in its
order, and it rejects the bodies that are not of its format. -/
theorem extractRequest_complete (body : Bytes) (format : ApiFormat) (hvalid : Json.valid body = true) :
    Nonempty (Rfc8259.Reading body) ∧ ∀ t : Rfc8259.Reading body,
      (extractRequest body format).texts = requestTexts format (treeOf t.value) := by
  refine ⟨(Json.valid_iff_reading body).mp hvalid, fun t => ?_⟩
  obtain ⟨hyes, hno⟩ := extractRequest_eq (Reading.finds t) format
  have hsupports := supports_iff format t.value
  by_cases h : Supports format t.value
  · rw [hyes h, requestTexts_of_isSome (hsupports.mp h)]
    exact congrArg some (says_walkRequest format _ _ _)
  · rw [hno h]
    rw [hsupports, Option.not_isSome_iff_eq_none] at h
    exact h.symm

/-- The unknown members stay out, and the type of a part is looked up before its text. -/
theorem extractRequest_complete_sample :
    let body := ascii "\x7b\"model\":\"m\",\"messages\":[\x7b\"content\":[\x7b\"text\":\"a\",\"type\":\"text\"\x7d]\x7d]\x7d"
    Nonempty (Rfc8259.Reading body) ∧ ∀ t : Rfc8259.Reading body,
      (extractRequest body .chatCompletions).texts = requestTexts .chatCompletions (treeOf t.value) :=
  extractRequest_complete _ .chatCompletions (by decide +kernel)

end LlmGuard.Extract
