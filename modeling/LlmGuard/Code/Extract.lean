import LlmGuard.Code.Json

/-!
# `extract/Types.hpp`, `extract/ChatCompletions.hpp`, `extract/Messages.hpp`, `extract/Responses.hpp` and
`extract/Extract.hpp`

A function that appends to `out` gives what it appends.
-/

namespace LlmGuard

inductive ApiFormat where
  | chatCompletions
  | messages
  | responses
deriving DecidableEq, Repr

namespace Extract

open Json (PathSeg ValueSpan findValue findValueIn arrayElements stringLeavesIn decodeString)

structure ContentField where
  path : List PathSeg
  span : ValueSpan
  text : Bytes
  isRawObject : Bool
deriving DecidableEq, Repr

inductive ExtractResult where
  | fields (fields : List ContentField)
  | unsupported
deriving DecidableEq, Repr

/-! ## What the three extractors share -/

def keySeg (key : String) : PathSeg := .key (ascii key)

def isArraySpan (body : Bytes) (span : ValueSpan) : Bool :=
  !span.isString && span.start < span.stop && body[span.start]? = some (ch '[')

/-- The decoded string at a span. -/
def spanText (body : Bytes) (span : ValueSpan) : Bytes := decodeString (slice body span.start span.stop)

def pushIfNonemptyString (body : Bytes) (path : List PathSeg) : Option ValueSpan → List ContentField
  | none => []
  | some span =>
    if !span.isString then []
    else if (spanText body span).isEmpty then []
    else [⟨path, span, spanText body span, false⟩]

/-- `block_type` and `type_of`. -/
def blockType (body : Bytes) (blockSpan : ValueSpan) : Bytes :=
  match findValueIn body blockSpan [keySeg "type"] with
  | none => []
  | some span => if !span.isString then [] else spanText body span

/-- A loop over the elements of an array. -/
def eachElement {α β : Type} (f : Nat → α → List β) (elements : List α) : List β :=
  elements.zipIdx.flatMap fun e => f e.2 e.1

/-- A string, or an array that `collect` takes apart. -/
def stringOrArray (body : Bytes) (path : List PathSeg) (span : Option ValueSpan)
    (collect : ValueSpan → List ContentField) : List ContentField :=
  match span with
  | none => []
  | some s =>
    if s.isString then pushIfNonemptyString body path (some s)
    else if isArraySpan body s then collect s
    else []

/-- The non-empty `text` of the parts whose type is allowed. -/
def collectAllowedTextParts (allowed : Bytes → Bool) (body : Bytes) (arrayPath : List PathSeg) (arraySpan : ValueSpan) :
    List ContentField :=
  eachElement (fun j partSpan =>
    if allowed (blockType body partSpan) then
      pushIfNonemptyString body (arrayPath ++ [.index j, keySeg "text"]) (findValueIn body partSpan [keySeg "text"])
    else []) (arrayElements body arraySpan)

/-! ## `ChatCompletions` -/

namespace ChatCompletions

/-- One part of a content array. -/
def contentPart (body : Bytes) (contentPath : List PathSeg) (j : Nat) (partSpan : ValueSpan) : List ContentField :=
  match findValueIn body partSpan [keySeg "type"] with
  | none => []
  | some typeSpan =>
    if !typeSpan.isString then []
    else if spanText body typeSpan ≠ ascii "text" then []
    else pushIfNonemptyString body (contentPath ++ [.index j, keySeg "text"]) (findValueIn body partSpan [keySeg "text"])

def collectMessageContent (body : Bytes) (msgPath : List PathSeg) (msgSpan : ValueSpan) : List ContentField :=
  stringOrArray body (msgPath ++ [keySeg "content"]) (findValueIn body msgSpan [keySeg "content"]) fun contentSpan =>
    eachElement (contentPart body (msgPath ++ [keySeg "content"])) (arrayElements body contentSpan)

def collectFunctionCall (body : Bytes) (containerPath : List PathSeg) (containerSpan : ValueSpan) : List ContentField :=
  pushIfNonemptyString body (containerPath ++ [keySeg "function_call", keySeg "arguments"])
    (findValueIn body containerSpan [keySeg "function_call", keySeg "arguments"])

def collectToolCalls (body : Bytes) (containerPath : List PathSeg) (containerSpan : ValueSpan) : List ContentField :=
  match findValueIn body containerSpan [keySeg "tool_calls"] with
  | none => []
  | some tcSpan =>
    if !isArraySpan body tcSpan then []
    else
      eachElement (fun j element =>
        pushIfNonemptyString body
          (containerPath ++ [keySeg "tool_calls", .index j, keySeg "function", keySeg "arguments"])
          (findValueIn body element [keySeg "function", keySeg "arguments"])) (arrayElements body tcSpan)

def plainResponseFields : List String := ["content", "reasoning", "reasoning_content", "refusal"]

def extractRequest (body : Bytes) : ExtractResult :=
  match findValue body [keySeg "messages"] with
  | none => .unsupported
  | some messagesSpan =>
    if !isArraySpan body messagesSpan then .unsupported
    else
      .fields <| eachElement (fun i element =>
        collectMessageContent body [keySeg "messages", .index i] element ++
          collectFunctionCall body [keySeg "messages", .index i] element ++
          collectToolCalls body [keySeg "messages", .index i] element) (arrayElements body messagesSpan)

/-- One element of `choices`. -/
def choiceFields (body : Bytes) (i : Nat) (choice : ValueSpan) : List ContentField :=
  match findValueIn body choice [keySeg "message"] with
  | none => []
  | some msgSpan =>
    let msgPath := [keySeg "choices", .index i, keySeg "message"]
    plainResponseFields.flatMap (fun name =>
        pushIfNonemptyString body (msgPath ++ [keySeg name]) (findValueIn body msgSpan [keySeg name])) ++
      collectFunctionCall body msgPath msgSpan ++ collectToolCalls body msgPath msgSpan

def extractResponse (body : Bytes) : ExtractResult :=
  match findValue body [keySeg "choices"] with
  | none => .fields []
  | some choicesSpan =>
    if !isArraySpan body choicesSpan then .fields []
    else .fields (eachElement (choiceFields body) (arrayElements body choicesSpan))

end ChatCompletions

/-! ## `Messages` -/

namespace Messages

def collectTypedTextParts (body : Bytes) (arrayPath : List PathSeg) (arraySpan : ValueSpan) : List ContentField :=
  collectAllowedTextParts (fun type => type = ascii "text") body arrayPath arraySpan

/-- The strings of the `input` of a `tool_use` block. -/
def collectInputLeaves (body : Bytes) (inputPath : List PathSeg) (inputSpan : ValueSpan) : List ContentField :=
  (stringLeavesIn body inputSpan []).filterMap fun leaf =>
    if (spanText body leaf.span).isEmpty then none
    else some ⟨inputPath ++ leaf.path, leaf.span, spanText body leaf.span, false⟩

/-- One block of a content array. -/
def contentBlock (body : Bytes) (arrayPath : List PathSeg) (i : Nat) (blockSpan : ValueSpan) : List ContentField :=
  let blockPath := arrayPath ++ [.index i]
  let type := blockType body blockSpan
  if type = ascii "text" then
    pushIfNonemptyString body (blockPath ++ [keySeg "text"]) (findValueIn body blockSpan [keySeg "text"])
  else if type = ascii "tool_use" then
    match findValueIn body blockSpan [keySeg "input"] with
    | none => []
    | some inputSpan => collectInputLeaves body (blockPath ++ [keySeg "input"]) inputSpan
  else if type = ascii "tool_result" then
    stringOrArray body (blockPath ++ [keySeg "content"]) (findValueIn body blockSpan [keySeg "content"])
      (collectTypedTextParts body (blockPath ++ [keySeg "content"]))
  else []

def collectMessagesContentBlocks (body : Bytes) (arrayPath : List PathSeg) (arraySpan : ValueSpan) :
    List ContentField :=
  eachElement (contentBlock body arrayPath) (arrayElements body arraySpan)

/-- One element of `messages`. -/
def messageFields (body : Bytes) (i : Nat) (element : ValueSpan) : List ContentField :=
  let contentPath := [keySeg "messages", .index i, keySeg "content"]
  stringOrArray body contentPath (findValueIn body element [keySeg "content"])
    (collectMessagesContentBlocks body contentPath)

def extractRequest (body : Bytes) : ExtractResult :=
  let system := stringOrArray body [keySeg "system"] (findValue body [keySeg "system"])
    (collectTypedTextParts body [keySeg "system"])
  match findValue body [keySeg "messages"] with
  | none => .fields system
  | some messagesSpan =>
    if !isArraySpan body messagesSpan then .fields system
    else .fields (system ++ eachElement (messageFields body) (arrayElements body messagesSpan))

/-- The raw `input` of a `tool_use` block, unless it is `{}`. -/
def pushRawInput (body : Bytes) (inputPath : List PathSeg) : Option ValueSpan → List ContentField
  | none => []
  | some span =>
    if !span.isString && span.start < span.stop && body[span.start]? = some (ch '\x7b') then
      let raw := slice body span.start span.stop
      if raw ≠ ascii "\x7b\x7d" then [⟨inputPath, span, raw, true⟩] else []
    else []

/-- One block of the content of a response. -/
def responseBlock (body : Bytes) (i : Nat) (blockSpan : ValueSpan) : List ContentField :=
  let blockPath := [keySeg "content", .index i]
  let type := blockType body blockSpan
  if type = ascii "text" then
    pushIfNonemptyString body (blockPath ++ [keySeg "text"]) (findValueIn body blockSpan [keySeg "text"])
  else if type = ascii "thinking" then
    pushIfNonemptyString body (blockPath ++ [keySeg "thinking"]) (findValueIn body blockSpan [keySeg "thinking"])
  else if type = ascii "tool_use" then
    pushRawInput body (blockPath ++ [keySeg "input"]) (findValueIn body blockSpan [keySeg "input"])
  else []

def extractResponse (body : Bytes) : ExtractResult :=
  match findValue body [keySeg "content"] with
  | none => .fields []
  | some contentSpan =>
    if !isArraySpan body contentSpan then .fields []
    else .fields (eachElement (responseBlock body) (arrayElements body contentSpan))

end Messages

/-! ## `Responses` -/

namespace Responses

def collectTextParts (body : Bytes) (basePath : List PathSeg) (arraySpan : ValueSpan) : List ContentField :=
  collectAllowedTextParts (fun type => type = ascii "output_text" || type = ascii "input_text" || type = ascii "text")
    body basePath arraySpan

def collectInputItemFields (body : Bytes) (itemPath : List PathSeg) (itemSpan : ValueSpan) : List ContentField :=
  let type := blockType body itemSpan
  if type = ascii "function_call_output" then
    stringOrArray body (itemPath ++ [keySeg "output"]) (findValueIn body itemSpan [keySeg "output"])
      (collectTextParts body (itemPath ++ [keySeg "output"]))
  else if type = ascii "function_call" then
    pushIfNonemptyString body (itemPath ++ [keySeg "arguments"]) (findValueIn body itemSpan [keySeg "arguments"])
  else
    stringOrArray body (itemPath ++ [keySeg "content"]) (findValueIn body itemSpan [keySeg "content"])
      (collectTextParts body (itemPath ++ [keySeg "content"]))

def collectTypedTextParts (allowedType : String) (body : Bytes) (basePath : List PathSeg) (arraySpan : ValueSpan) :
    List ContentField :=
  collectAllowedTextParts (fun type => type = ascii allowedType) body basePath arraySpan

/-- The parts of one type in the array under a key. -/
def collectArray (allowedType : String) (body : Bytes) (itemPath : List PathSeg) (itemSpan : ValueSpan) (key : String) :
    List ContentField :=
  match findValueIn body itemSpan [keySeg key] with
  | none => []
  | some span =>
    if isArraySpan body span then collectTypedTextParts allowedType body (itemPath ++ [keySeg key]) span else []

def collectItemFields (body : Bytes) (itemPath : List PathSeg) (itemSpan : ValueSpan) : List ContentField :=
  let type := blockType body itemSpan
  if type = ascii "message" then collectArray "output_text" body itemPath itemSpan "content"
  else if type = ascii "function_call" then
    pushIfNonemptyString body (itemPath ++ [keySeg "arguments"]) (findValueIn body itemSpan [keySeg "arguments"])
  else if type = ascii "reasoning" then
    collectArray "summary_text" body itemPath itemSpan "summary" ++
      collectArray "reasoning_text" body itemPath itemSpan "content"
  else []

def extractRequest (body : Bytes) : ExtractResult :=
  let inputSpan := findValue body [keySeg "input"]
  let instructionsSpan := findValue body [keySeg "instructions"]
  if inputSpan.isNone && instructionsSpan.isNone then .unsupported
  else
    .fields <| pushIfNonemptyString body [keySeg "instructions"] instructionsSpan ++
      stringOrArray body [keySeg "input"] inputSpan fun span =>
        eachElement (fun i element => collectInputItemFields body [keySeg "input", .index i] element)
          (arrayElements body span)

def extractResponseOutputFields (body : Bytes) (base : List PathSeg) : List ContentField :=
  match findValue body (base ++ [keySeg "output"]) with
  | none => []
  | some outputSpan =>
    if !isArraySpan body outputSpan then []
    else
      eachElement (fun i element => collectItemFields body (base ++ [keySeg "output", .index i]) element)
        (arrayElements body outputSpan)

end Responses

/-! ## `Extract` -/

def extractRequest (body : Bytes) : ApiFormat → ExtractResult
  | .chatCompletions => ChatCompletions.extractRequest body
  | .messages => Messages.extractRequest body
  | .responses => Responses.extractRequest body

def extractResponse (body : Bytes) : ApiFormat → ExtractResult
  | .chatCompletions => ChatCompletions.extractResponse body
  | .messages => Messages.extractResponse body
  | .responses => .fields (Responses.extractResponseOutputFields body [])

end Extract

end LlmGuard
