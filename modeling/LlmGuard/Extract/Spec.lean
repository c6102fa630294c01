import LlmGuard.Code.Extract
import LlmGuard.Json.Tree

/-!
# What is scanned in a request

The documented selection, as a walk of the decoded tree. A key takes the first member with it, and an empty string is
no text.
-/

namespace LlmGuard.Extract

open Rfc8259 (Kind)
open Json (PathSeg Tree)

/-- Texts with their paths, in order. -/
abbrev Texts := List (List PathSeg × Bytes)

/-- What is taken from a value that a path leads to. -/
abbrev Selection := List PathSeg → Tree → Texts

def treeGet (key : Bytes) : Tree → Option Tree
  | .group .object items => (items.find? fun item => item.1 = some key).map Prod.snd
  | _ => none

def treeElements : Tree → List Tree
  | .group .array items => items.map Prod.snd
  | _ => []

def isArray : Tree → Bool
  | .group .array _ => true
  | _ => false

/-- The type of a part, a block or an item. -/
def treeType (t : Tree) : Bytes :=
  match treeGet (ascii "type") t with
  | some (.string s) => s
  | _ => []

mutual

/-- Every string at any depth, with its path. -/
def treeStrings : Tree → Texts
  | .scalar _ => []
  | .string s => [([], s)]
  | .group _ items => itemStrings 0 items

def itemStrings : Nat → List (Option Bytes × Tree) → Texts
  | _, [] => []
  | j, (key, t) :: items =>
    (treeStrings t).map (fun l => (key.elim (.index j) .key :: l.1, l.2)) ++ itemStrings (j + 1) items

end

/-! ## Selections -/

def takeText : Selection
  | path, .string s => if s = [] then [] else [(path, s)]
  | _, _ => []

def takeStrings : Selection := fun path t =>
  ((treeStrings t).filter fun l => l.2 ≠ []).map fun l => (path ++ l.1, l.2)

def takeMember (key : String) (take : Selection) : Selection := fun path t =>
  match treeGet (ascii key) t with
  | none => []
  | some u => take (path ++ [keySeg key]) u

def takeEach (take : Selection) : Selection := fun path t =>
  eachElement (fun i u => take (path ++ [.index i]) u) (treeElements t)

def takeAll (takes : List Selection) : Selection := fun path t => takes.flatMap fun take => take path t

/-- A string, or what is taken from each element of an array. -/
def takeTextOrEach (take : Selection) : Selection := takeAll [takeText, takeEach take]

/-- The text of a part of one of these types. -/
def takePart (types : List String) : Selection := fun path t =>
  if treeType t ∈ types.map ascii then takeMember "text" takeText path t else []

/-! ## The formats -/

def takeArguments : Selection := takeMember "arguments" takeText

def chatMessage : Selection :=
  takeAll [takeMember "content" (takeTextOrEach (takePart ["text"])), takeMember "function_call" takeArguments,
    takeMember "tool_calls" (takeEach (takeMember "function" takeArguments))]

def messagesBlockTexts : Selection := fun path block =>
  if treeType block = ascii "text" then takeMember "text" takeText path block
  else if treeType block = ascii "tool_use" then takeMember "input" takeStrings path block
  else if treeType block = ascii "tool_result" then
    takeMember "content" (takeTextOrEach (takePart ["text"])) path block
  else []

def messagesBody : Selection :=
  takeAll [takeMember "system" (takeTextOrEach (takePart ["text"])),
    takeMember "messages" (takeEach (takeMember "content" (takeTextOrEach messagesBlockTexts)))]

def responsesTextPart : Selection := takePart ["output_text", "input_text", "text"]

def responsesItemTexts : Selection := fun path item =>
  if treeType item = ascii "function_call_output" then
    takeMember "output" (takeTextOrEach responsesTextPart) path item
  else if treeType item = ascii "function_call" then takeArguments path item
  else takeMember "content" (takeTextOrEach responsesTextPart) path item

def responsesBody : Selection :=
  takeAll [takeMember "instructions" takeText, takeMember "input" (takeTextOrEach responsesItemTexts)]

/-- The texts of a request. `none` where the body is not of the format. -/
def requestTexts : ApiFormat → Tree → Option Texts
  | .chatCompletions, body =>
    if (treeGet (ascii "messages") body).any isArray then some (takeMember "messages" (takeEach chatMessage) [] body)
    else none
  | .messages, body => some (messagesBody [] body)
  | .responses, body =>
    if (treeGet (ascii "input") body).isSome || (treeGet (ascii "instructions") body).isSome then
      some (responsesBody [] body)
    else none

def ExtractResult.texts : ExtractResult → Option Texts
  | .fields l => some (l.map fun f => (f.path, f.text))
  | .unsupported => none

end LlmGuard.Extract
