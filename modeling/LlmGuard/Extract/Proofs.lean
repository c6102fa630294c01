import LlmGuard.Extract.Select

/-!
# The extractors are the walks

One lemma for each helper, then one for each extractor. The body need not be valid: what the lookups from its start
see is enough.
-/

namespace LlmGuard.Extract

open Rfc8259 (Value Place)
open Json (PathSeg ValueSpan lookupPlace findValue findValueIn arrayElements)

theorem read_cons (base : Nat) (root : List PathSeg) (e : Bytes × Walk) (l : List (Bytes × Walk)) (v : Value) :
    read base root (fields (e :: l)) v = read base root (under e.1 e.2) v ++ read base root (fields l) v := by
  rw [read_fields, read_fields, List.flatMap_cons]

theorem read_none (base : Nat) (root : List PathSeg) (v : Value) : read base root (fields []) v = [] := rfl

theorem read_one (base : Nat) (root : List PathSeg) (key : Bytes) (w : Walk) (v : Value) :
    read base root (fields [(key, w)]) v = read base root (under key w) v := by
  rw [read_cons, read_none, List.append_nil]

theorem read_byType (base : Nat) (root : List PathSeg) (l : Bytes → List (Bytes × Walk)) (v : Value) :
    read base root (fieldsByType l) v = read base root (fields (l (typeName v))) v := rfl

theorem append_two (path : List PathSeg) (a b : PathSeg) : path ++ [a, b] = path ++ [a] ++ [b] := by simp

section

variable {doc : Bytes}

/-! ## Parts -/

theorem part_element (allowed : Bytes → Bool) (path : List PathSeg) :
    CollectsElement doc path (fun c =>
      if allowed (blockType doc c) then
        pushIfNonemptyString doc (path ++ [keySeg "text"]) (findValueIn doc c [keySeg "text"])
      else []) (part allowed) := by
  intro c pre v h
  simp only
  rw [h.type, part, read_byType]
  split
  · rw [read_one]
    exact h.finds.push path (ascii "text")
  · rfl

theorem collectAllowedTextParts_eq (allowed : Bytes → Bool) (path : List PathSeg) :
    Collects doc path (collectAllowedTextParts allowed doc path) (each (part allowed)) := by
  unfold collectAllowedTextParts
  apply collects_each
  intro j
  have hpart : CollectsElement doc (path ++ [.index j]) _ _ := part_element allowed (path ++ [.index j])
  rw [List.append_assoc] at hpart
  exact hpart

/-! ## `ChatCompletions` -/

/-- A part without a type has the empty one, which is not `text`. -/
theorem contentPart_type (path : List PathSeg) (j : Nat) (c : ValueSpan) :
    ChatCompletions.contentPart doc path j c =
      if blockType doc c = ascii "text" then
        pushIfNonemptyString doc (path ++ [.index j, keySeg "text"]) (findValueIn doc c [keySeg "text"])
      else [] := by
  have hempty : ([] : Bytes) ≠ ascii "text" := by decide
  unfold ChatCompletions.contentPart blockType
  cases findValueIn doc c [keySeg "type"] with
  | none => simp only [hempty, if_false]
  | some typeSpan =>
    by_cases hstring : typeSpan.isString
    · by_cases htext : spanText doc typeSpan = ascii "text" <;> simp [hstring, htext]
    · simp only [hstring, Bool.not_false, if_true, hempty, if_false]

theorem contentPart_eq (path : List PathSeg) (j : Nat) :
    CollectsElement doc (path ++ [.index j]) (ChatCompletions.contentPart doc path j) (partOf "text") := by
  intro c pre v h
  rw [partOf, ← part_element _ _ c pre v h, contentPart_type, append_two]
  simp only [decide_eq_true_eq]

theorem collectMessageContent_eq (path : List PathSeg) :
    CollectsElement doc path (ChatCompletions.collectMessageContent doc path)
      (under (ascii "content") (textOrEach (partOf "text"))) := by
  intro c pre v h
  unfold ChatCompletions.collectMessageContent
  exact h.finds.stringOrArray path (ascii "content") (collects_each fun j => contentPart_eq _ j)

theorem Located.push_call {c : ValueSpan} {pre : Bytes} {v : Value} (h : Located doc c pre v) (path : List PathSeg)
    (key : String) :
    pushIfNonemptyString doc (path ++ [keySeg key, keySeg "arguments"])
        (findValueIn doc c [keySeg key, keySeg "arguments"]) =
      read pre.length path (under (call key).1 (call key).2) v := by
  have htwo : findValueIn doc c [keySeg key, keySeg "arguments"] =
      (findValueIn doc c [keySeg key]).bind fun s => findValueIn doc s [keySeg "arguments"] := by
    rw [h.find, h.find, Json.lookupPlace_cons, ← Json.lookupPlace_seg]
    cases hp : lookupPlace v [keySeg key] with
    | none => rfl
    | some p =>
      obtain ⟨post, hspan⟩ := h.inside _ p hp
      simp only [Option.bind_some, Option.map_some, (Located.of_spanOf hspan).find, Option.map_map]
      congr 1
      funext q
      simp only [Function.comp_apply, Json.placeSpan, Place.inside, List.length_append, Nat.add_assoc]
      rfl
  have harguments : Collects doc (path ++ [keySeg key]) (fun s =>
      pushIfNonemptyString doc (path ++ [keySeg key] ++ [keySeg "arguments"]) (findValueIn doc s [keySeg "arguments"]))
      (call key).2 := by
    intro s pre v post hspan
    simp only [call]
    rw [read_one]
    exact (Located.of_spanOf hspan).finds.push _ _
  have hunder := h.finds.under path (ascii key) harguments
  rw [htwo, append_two]
  refine Eq.trans ?_ hunder
  unfold keySeg
  cases findValueIn doc c [.key (ascii key)] <;> rfl

theorem collectFunctionCall_eq (path : List PathSeg) :
    CollectsElement doc path (ChatCompletions.collectFunctionCall doc path)
      (under (call "function_call").1 (call "function_call").2) :=
  fun _ _ _ h => h.push_call path "function_call"

theorem collectToolCalls_eq (path : List PathSeg) :
    CollectsElement doc path (ChatCompletions.collectToolCalls doc path)
      (under (ascii "tool_calls") (each (fields [call "function"]))) := by
  intro c pre v h
  have helements : Collects doc (path ++ [keySeg "tool_calls"]) (fun s => eachElement (fun j element =>
      pushIfNonemptyString doc (path ++ [keySeg "tool_calls", .index j, keySeg "function", keySeg "arguments"])
        (findValueIn doc element [keySeg "function", keySeg "arguments"])) (arrayElements doc s))
      (each (fields [call "function"])) := by
    apply collects_each
    intro j e pre v he
    rw [read_cons, read_none, List.append_nil, ← he.push_call]
    simp
  refine Eq.trans ?_ (h.finds.array path (ascii "tool_calls") helements)
  unfold ChatCompletions.collectToolCalls keySeg
  cases findValueIn doc c [.key (ascii "tool_calls")] with
  | none => rfl
  | some s => cases harray : isArraySpan doc s <;> simp [harray]

theorem collectCalls_eq {path : List PathSeg} {collect : ValueSpan → List ContentField} {l : List (Bytes × Walk)}
    (hcollect : CollectsElement doc path collect (fields l)) :
    CollectsElement doc path (fun c => collect c ++ ChatCompletions.collectFunctionCall doc path c ++
      ChatCompletions.collectToolCalls doc path c) (fields (l ++ calls)) := by
  intro c pre v h
  have hread : read pre.length path (fields (l ++ calls)) v =
      read pre.length path (fields l) v ++ read pre.length path (fields calls) v := by
    rw [read_fields, read_fields, read_fields, List.flatMap_append]
  simp only
  rw [hread, calls, read_cons, read_one, ← List.append_assoc, hcollect c pre v h, collectFunctionCall_eq path c pre v h,
    collectToolCalls_eq path c pre v h]

theorem CollectsElement.one {path : List PathSeg} {collect : ValueSpan → List ContentField} {key : Bytes} {w : Walk}
    (h : CollectsElement doc path collect (under key w)) : CollectsElement doc path collect (fields [(key, w)]) := by
  intro c pre v hlocated
  rw [read_one]
  exact h c pre v hlocated

theorem chatMessage_eq (path : List PathSeg) :
    CollectsElement doc path (fun c => ChatCompletions.collectMessageContent doc path c ++
      ChatCompletions.collectFunctionCall doc path c ++ ChatCompletions.collectToolCalls doc path c)
      (fields ((ascii "content", textOrEach (partOf "text")) :: calls)) :=
  collectCalls_eq (collectMessageContent_eq path).one

theorem plainFields_eq (path : List PathSeg) (names : List String) :
    CollectsElement doc path (fun c => names.flatMap fun name =>
      pushIfNonemptyString doc (path ++ [keySeg name]) (findValueIn doc c [keySeg name]))
      (fields (names.map fun name => (ascii name, text))) := by
  intro c pre v h
  simp only
  rw [read_fields, List.flatMap_map]
  apply List.flatMap_congr
  intro name _
  exact h.finds.push path (ascii name)

theorem choiceFields_eq (i : Nat) :
    CollectsElement doc [keySeg "choices", .index i] (ChatCompletions.choiceFields doc i)
      (fields [(ascii "message", fields (ChatCompletions.plainResponseFields.map (fun name => (ascii name, text)) ++
        calls))]) := by
  apply CollectsElement.one
  intro c pre v h
  have hmessage : CollectsElement doc _ _ _ := collectCalls_eq
    (plainFields_eq ([keySeg "choices", .index i] ++ [keySeg "message"]) ChatCompletions.plainResponseFields)
  exact h.finds.under [keySeg "choices", .index i] (ascii "message") hmessage.collects

/-! ## `Messages` -/

theorem typedTextParts_eq (path : List PathSeg) :
    Collects doc path (Messages.collectTypedTextParts doc path) (each (partOf "text")) :=
  collectAllowedTextParts_eq _ path

theorem contentBlock_eq (path : List PathSeg) (i : Nat) :
    CollectsElement doc (path ++ [.index i]) (Messages.contentBlock doc path i) messagesBlock := by
  intro c pre v h
  unfold Messages.contentBlock
  rw [h.type, messagesBlock, read_byType]
  simp only
  split
  · rw [read_one]
    exact h.finds.push _ (ascii "text")
  · split
    · rw [read_one]
      exact h.finds.under _ (ascii "input") fun s pre v post hspan => collectInputLeaves_eq hspan _
    · split
      · rw [read_one]
        exact h.finds.stringOrArray _ (ascii "content") (typedTextParts_eq _)
      · rfl

theorem messageFields_eq (i : Nat) :
    CollectsElement doc [keySeg "messages", .index i] (Messages.messageFields doc i)
      (fields [(ascii "content", textOrEach messagesBlock)]) := by
  apply CollectsElement.one
  intro c pre v h
  exact h.finds.stringOrArray [keySeg "messages", .index i] (ascii "content") (collects_each fun j => contentBlock_eq _ j)

theorem responseBlock_eq (i : Nat) :
    CollectsElement doc [keySeg "content", .index i] (Messages.responseBlock doc i) messagesResponseBlock := by
  intro c pre v h
  unfold Messages.responseBlock
  rw [h.type, messagesResponseBlock, read_byType]
  simp only
  split
  · rw [read_one]
    exact h.finds.push _ (ascii "text")
  · split
    · rw [read_one]
      exact h.finds.push _ (ascii "thinking")
    · split
      · rw [read_one]
        exact h.finds.pushRaw _ (ascii "input")
      · rfl

/-! ## `Responses` -/

theorem responsesTextParts_eq (path : List PathSeg) :
    Collects doc path (Responses.collectTextParts doc path) (each responsesPart) :=
  collectAllowedTextParts_eq _ path

theorem inputItem_eq (path : List PathSeg) :
    CollectsElement doc path (Responses.collectInputItemFields doc path) responsesInputItem := by
  intro c pre v h
  unfold Responses.collectInputItemFields
  rw [h.type, responsesInputItem, read_byType]
  simp only
  split
  · rw [read_one]
    exact h.finds.stringOrArray _ (ascii "output") (responsesTextParts_eq _)
  · split
    · rw [read_one]
      exact h.finds.push _ (ascii "arguments")
    · rw [read_one]
      exact h.finds.stringOrArray _ (ascii "content") (responsesTextParts_eq _)

theorem collectArray_eq (type key : String) (path : List PathSeg) :
    CollectsElement doc path (fun c => Responses.collectArray type doc path c key)
      (under (ascii key) (each (partOf type))) := by
  intro c pre v h
  exact h.finds.array path (ascii key) (collectAllowedTextParts_eq _ _)

theorem item_eq (path : List PathSeg) :
    CollectsElement doc path (Responses.collectItemFields doc path) responsesItem := by
  intro c pre v h
  have harray := fun type key => collectArray_eq type key path c pre v h
  unfold Responses.collectItemFields
  rw [h.type, responsesItem, read_byType]
  simp only at harray ⊢
  split
  · rw [read_one]
    exact harray "output_text" "content"
  · split
    · rw [read_one]
      exact h.finds.push _ (ascii "arguments")
    · split
      · rw [read_cons, read_one, harray, harray]
      · rfl

/-! ## The extractors -/

/-- The body is of the format: `messages` is an array, or there is an `input` or an `instructions`. -/
def Supports : ApiFormat → Value → Prop
  | .chatCompletions, v => ∃ p, lookupPlace v [keySeg "messages"] = some p ∧ p.value.text.head? = some (ch '[')
  | .messages, _ => True
  | .responses, v => (lookupPlace v [keySeg "input"]).isSome ∨ (lookupPlace v [keySeg "instructions"]).isSome

variable {pre : Bytes} {v : Value}

theorem Finds.root_array {find : List PathSeg → Option ValueSpan} (h : Finds doc pre v find) (key : String)
    {collect : ValueSpan → List ContentField} {w : Walk} (hcollect : Collects doc [keySeg key] collect (each w)) :
    (match find [keySeg key] with
      | none => []
      | some c => if !isArraySpan doc c then [] else collect c) =
      read pre.length [] (Extract.under (ascii key) (each w)) v := by
  refine Eq.trans ?_ (h.array [] (ascii key) hcollect)
  unfold keySeg
  cases find [.key (ascii key)] with
  | none => rfl
  | some c => cases harray : isArraySpan doc c <;> simp [harray]

theorem supports_chat (h : Finds doc pre v (findValue doc)) :
    Supports .chatCompletions v ↔ ∃ c, findValue doc [keySeg "messages"] = some c ∧ isArraySpan doc c = true := by
  unfold Supports keySeg
  rw [h.key]
  constructor
  · rintro ⟨p, hp, harray⟩
    obtain ⟨post, hspan⟩ := h.inside _ p hp
    exact ⟨_, by rw [hp, Option.map_some], (isArraySpan_iff hspan).mpr harray⟩
  · rintro ⟨c, hc, harray⟩
    obtain ⟨p, hp, rfl⟩ := Option.map_eq_some_iff.mp hc
    obtain ⟨post, hspan⟩ := h.inside _ p hp
    exact ⟨p, hp, (isArraySpan_iff hspan).mp harray⟩

theorem chatRequest_eq (h : Finds doc pre v (findValue doc)) :
    (Supports .chatCompletions v →
      ChatCompletions.extractRequest doc = .fields (read pre.length [] chatRequest v)) ∧
    (¬ Supports .chatCompletions v → ChatCompletions.extractRequest doc = .unsupported) := by
  have hmessages : Collects doc [keySeg "messages"] (fun s => eachElement (fun i element =>
      ChatCompletions.collectMessageContent doc [keySeg "messages", .index i] element ++
        ChatCompletions.collectFunctionCall doc [keySeg "messages", .index i] element ++
        ChatCompletions.collectToolCalls doc [keySeg "messages", .index i] element) (arrayElements doc s)) _ :=
    collects_each fun i => chatMessage_eq _
  have hfields := h.root_array "messages" hmessages
  rw [← read_one] at hfields
  rw [supports_chat h]
  unfold ChatCompletions.extractRequest chatRequest
  rw [← hfields]
  cases findValue doc [keySeg "messages"] with
  | none => simp
  | some c => cases harray : isArraySpan doc c <;> simp [harray]

theorem chatResponse_eq (h : Finds doc pre v (findValue doc)) :
    ChatCompletions.extractResponse doc = .fields (read pre.length [] chatResponse v) := by
  have hfields := h.root_array "choices" (collects_each fun i => choiceFields_eq i)
  rw [← read_one] at hfields
  unfold ChatCompletions.extractResponse chatResponse
  rw [← hfields]
  cases findValue doc [keySeg "choices"] with
  | none => rfl
  | some c => cases harray : isArraySpan doc c <;> simp [harray]

theorem messagesRequest_eq (h : Finds doc pre v (findValue doc)) :
    Messages.extractRequest doc = .fields (read pre.length [] messagesRequest v) := by
  have hsystem : stringOrArray doc [keySeg "system"] (findValue doc [keySeg "system"])
      (Messages.collectTypedTextParts doc [keySeg "system"]) = _ :=
    h.stringOrArray [] (ascii "system") (typedTextParts_eq [keySeg "system"])
  have hmessages := h.root_array "messages" (collects_each fun i => messageFields_eq i)
  unfold Messages.extractRequest messagesRequest
  rw [read_cons, read_one, ← hmessages, ← hsystem]
  cases findValue doc [keySeg "messages"] with
  | none => simp
  | some c => cases harray : isArraySpan doc c <;> simp [harray]

theorem messagesResponse_eq (h : Finds doc pre v (findValue doc)) :
    Messages.extractResponse doc = .fields (read pre.length [] messagesResponse v) := by
  have hfields := h.root_array "content" (collects_each fun i => responseBlock_eq i)
  rw [← read_one] at hfields
  unfold Messages.extractResponse messagesResponse
  rw [← hfields]
  cases findValue doc [keySeg "content"] with
  | none => rfl
  | some c => cases harray : isArraySpan doc c <;> simp [harray]

theorem responsesRequest_eq (h : Finds doc pre v (findValue doc)) :
    (Supports .responses v → Responses.extractRequest doc = .fields (read pre.length [] responsesRequest v)) ∧
    (¬ Supports .responses v → Responses.extractRequest doc = .unsupported) := by
  have hinstructions := h.push [] (ascii "instructions")
  have hinput := h.stringOrArray [] (ascii "input") (collects_each fun i => inputItem_eq [keySeg "input", .index i])
  have hnone : ∀ key, (findValue doc [keySeg key]).isNone = (lookupPlace v [keySeg key]).isNone := by
    intro key
    have hkey : findValue doc [keySeg key] = _ := h.key (ascii key)
    rw [hkey, Option.isNone_map]
    rfl
  unfold Supports Responses.extractRequest responsesRequest
  rw [read_cons, read_one, ← hinstructions, ← hinput]
  simp only [hnone]
  constructor
  · intro hsome
    rw [if_neg]
    · rfl
    · rcases hsome with hsome | hsome <;> simp [Option.isNone_eq_false_iff.mpr hsome]
  · intro hneither
    rw [if_pos]
    simpa [not_or] using hneither

theorem responsesResponse_eq (h : Finds doc pre v (findValue doc)) :
    Responses.extractResponseOutputFields doc [] = read pre.length [] responsesResponse v := by
  have hfields := h.root_array "output" (collects_each fun i => item_eq [keySeg "output", .index i])
  rw [← read_one] at hfields
  unfold responsesResponse
  rw [← hfields]
  rfl

theorem extractRequest_eq (h : Finds doc pre v (findValue doc)) (format : ApiFormat) :
    (Supports format v → extractRequest doc format = .fields (read pre.length [] (walkRequest format) v)) ∧
    (¬ Supports format v → extractRequest doc format = .unsupported) := by
  cases format with
  | chatCompletions => exact chatRequest_eq h
  | messages => exact ⟨fun _ => messagesRequest_eq h, fun hno => absurd trivial hno⟩
  | responses => exact responsesRequest_eq h

theorem extractResponse_eq (h : Finds doc pre v (findValue doc)) (format : ApiFormat) :
    extractResponse doc format = .fields (read pre.length [] (walkResponse format) v) := by
  cases format with
  | chatCompletions => exact chatResponse_eq h
  | messages => exact messagesResponse_eq h
  | responses => exact congrArg _ (responsesResponse_eq h)

end

end LlmGuard.Extract
