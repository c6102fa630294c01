import LlmGuard.Code.Demasker
import LlmGuard.Code.Extract

/-!
# The pipeline over a body

`mask_body` and `demask_body` of `tests/unit/test_guard_roundtrip.cpp`, the one place that puts extraction, masking,
splicing and demasking together.
-/

namespace LlmGuard.Pipeline

open Extract (ContentField)
open Json (PathSeg ValueSpan encodeString)

def pathIsArguments (path : List PathSeg) : Bool := path.getLast? = some (.key (ascii "arguments"))

/-- `std::get` throws on `Unsupported`. -/
def extractFields (body : Bytes) (format : ApiFormat) (isResponse : Bool) : Except Error (List ContentField) :=
  match if isResponse then Extract.extractResponse body format else Extract.extractRequest body format with
  | .fields fields => .ok fields
  | .unsupported => .error (.runtimeError (ascii "bad_variant_access"))

def fieldReplacement (f : ContentField) (text : Bytes) : Bytes := if f.isRawObject then text else encodeString text true

/-- The loop that collects the edits: a field keeps its bytes when its text stays. -/
def fieldEdits : List ContentField → List Bytes → List (ValueSpan × Bytes)
  | f :: fields, text :: texts =>
    if text = f.text then fieldEdits fields texts
    else (f.span, fieldReplacement f text) :: fieldEdits fields texts
  | _, _ => []

def spliceEdits (body : Bytes) (edits : List (ValueSpan × Bytes)) : Except Error Bytes :=
  if edits.isEmpty then .ok body else Json.spliceAll body edits

structure MaskedBody where
  body : Bytes
  state : MaskingState
deriving DecidableEq, Repr

def maskBody (env : Env) (original : Bytes) (format : ApiFormat) (isResponse : Bool) (rules : List (Option CompiledRule))
    (opts : MaskOptions) : Except Error MaskedBody := do
  let fields ← extractFields original format isResponse
  let masked ← maskTexts env (fields.map (·.text)) rules opts
  if masked.state.replacements.isEmpty then .ok ⟨original, masked.state⟩
  else do
    let body ← spliceEdits original (fieldEdits fields masked.maskedTexts)
    .ok ⟨body, masked.state⟩

/-! ## Demasking -/

/-- Pieces of `size` bytes. The fuel is the length of the text. -/
def pieces (size : Nat) : Nat → Bytes → List Bytes
  | 0, _ => []
  | _, [] => []
  | fuel + 1, text => text.take size :: pieces size fuel (text.drop size)

/-- In one go for `chunkSize` 0, and otherwise as a stream that an empty chunk flushes. -/
def demaskFieldText (cfg : DemaskConfig) (f : ContentField) (chunkSize : Nat) : Except DemaskError Bytes :=
  if f.isRawObject || pathIsArguments f.path then .ok (demaskJsonArguments cfg f.text)
  else if chunkSize = 0 then demaskAll cfg f.text false
  else Demasker.demaskStream ⟨cfg, false, []⟩ (pieces chunkSize f.text.length f.text ++ [[]])

def demaskFields (cfg : DemaskConfig) (chunkSize : Nat) : List ContentField → Except Error (List Bytes)
  | [] => .ok []
  | f :: fields =>
    match demaskFieldText cfg f chunkSize with
    | .error e => .error (.runtimeError e.what)
    | .ok text => (demaskFields cfg chunkSize fields).map (text :: ·)

def demaskBody (maskedBody : Bytes) (format : ApiFormat) (isResponse : Bool) (cfg : DemaskConfig) (chunkSize : Nat) :
    Except Error Bytes := do
  let fields ← extractFields maskedBody format isResponse
  let texts ← demaskFields cfg chunkSize fields
  spliceEdits maskedBody (fieldEdits fields texts)

end LlmGuard.Pipeline
