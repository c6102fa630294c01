import LlmGuard.Code.Scanner

/-! # `Masker.hpp` -/

namespace LlmGuard

structure MaskOptions where
  scan : ScanOptions
  parallelMinBytes : Nat

structure MaskResult where
  maskedTexts : List Bytes
  state : MaskingState
deriving DecidableEq, Repr

/-! ## Reserved placeholders -/

/-- `[A-Za-z0-9_]`. -/
def isTypeByte (b : Byte) : Bool := isLower b || isUpper b || isDigit b || b = ch '_'

/-- `[A-Za-z0-9_]+_[0-9]+`, for bytes that are all of `[A-Za-z0-9_]`. -/
def isReservedBody (body : Bytes) : Bool :=
  let digits := body.reverse.takeWhile isDigit
  match body.reverse.drop digits.length with
  | [] => false
  | b :: type => !digits.isEmpty && b = ch '_' && !type.isEmpty

/-- `reserved_placeholder_regex` at the front of the input. No byte between the brackets is a bracket,
so the greedy match is the only one. -/
def reservedAtFront : Bytes → Option Bytes
  | [] => none
  | b :: s =>
    let body := s.takeWhile isTypeByte
    if b = ch '<' && (s.drop body.length).head? = some (ch '>') && isReservedBody body then
      some (ch '<' :: body ++ [ch '>'])
    else none

/-- The `FindAndConsume` loop. The first argument counts the consumed bytes still to step over. -/
def reservedLoop : Nat → Bytes → List Bytes
  | _, [] => []
  | skip + 1, _ :: s => reservedLoop skip s
  | 0, b :: s =>
    match reservedAtFront (b :: s) with
    | none => reservedLoop 0 s
    | some found => found :: reservedLoop (found.length - 1) s

def reservedPlaceholders (texts : List Bytes) : List Bytes :=
  texts.flatMap fun t => if t.contains (ch '<') then reservedLoop 0 t else []

/-! ## The masking state -/

def isTriggerableDataType (dt : DataType) : Bool :=
  DataType.credentials.toNat ≤ dt.toNat && dt.toNat ≤ DataType.custom.toNat

def renderPlaceholder (placeholderType : Bytes) (index : Nat) : Bytes :=
  ascii "<" ++ placeholderType ++ ascii "_" ++ decimal index ++ ascii ">"

/-- `std::set::insert`, on the sorted list of the elements. -/
def setInsert {α : Type} (less : α → α → Bool) (x : α) : List α → List α
  | [] => [x]
  | y :: ys =>
    if less x y then x :: y :: ys else if less y x then y :: setInsert less x ys else y :: ys

def bytesLess (a b : Bytes) : Bool := a < b

def dataTypeLess (a b : DataType) : Bool := a.toNat < b.toNat

/-- The hash maps are functions: nothing iterates over them. Counters stay below 2^31. -/
structure MaskerState where
  reserved : List Bytes
  originalToPlaceholder : Bytes → Option Bytes
  placeholderCounters : Bytes → Nat
  seenRules : List Bytes
  seenDataTypes : List DataType
  replacements : List Replacement

def MaskerState.init (reserved : List Bytes) : MaskerState :=
  ⟨reserved, fun _ => none, fun _ => 0, [], [], []⟩

/-- The `while (true)` of `next_placeholder`, and the counter it leaves behind. -/
def nextPlaceholderLoop (reserved : List Bytes) (placeholderType : Bytes) : Nat → Nat → Option (Bytes × Nat)
  | 0, _ => none
  | fuel + 1, counter =>
    let placeholder := renderPlaceholder placeholderType (counter + 1)
    if reserved.contains placeholder then
      nextPlaceholderLoop reserved placeholderType fuel (counter + 1)
    else some (placeholder, counter + 1)

/-- One more round than there are reserved strings is enough (`nextPlaceholder_spec`). -/
def MaskerState.nextPlaceholder (st : MaskerState) (placeholderType : Bytes) :
    Except Error (Bytes × MaskerState) :=
  match nextPlaceholderLoop st.reserved placeholderType (st.reserved.length + 1)
      (st.placeholderCounters placeholderType) with
  | none => .error .stuck
  | some (placeholder, counter) =>
    .ok (placeholder,
      { st with placeholderCounters := fun t => if t = placeholderType then counter else st.placeholderCounters t })

/-- The placeholder, whether it is new, and the state after it. -/
def MaskerState.placeholderForOriginal (st : MaskerState) (original placeholderType : Bytes) :
    Except Error (Bytes × Bool × MaskerState) :=
  match st.originalToPlaceholder original with
  | some placeholder => .ok (placeholder, false, st)
  | none => do
    let (placeholder, st) ← st.nextPlaceholder placeholderType
    .ok (placeholder, true,
      { st with originalToPlaceholder := fun o => if o = original then some placeholder else st.originalToPlaceholder o })

/-- The part of the loop body that masks one match: everything but the copying of bytes. -/
def MaskerState.maskOriginal (st : MaskerState) (rule : Rule) (original : Bytes) :
    Except Error (Bytes × MaskerState) := do
  let (placeholder, created, st) ← st.placeholderForOriginal original rule.masking.placeholder
  let st := if created then
      { st with replacements := st.replacements ++ [⟨rule.id, rule.dataType, original, placeholder⟩] }
    else st
  let st := { st with seenRules := setInsert bytesLess rule.id st.seenRules }
  let st := if isTriggerableDataType rule.dataType then
      { st with seenDataTypes := setInsert dataTypeLess rule.dataType st.seenDataTypes }
    else st
  .ok (placeholder, st)

def nullMatchError : Error :=
  .runtimeError (ascii "MaskerState::mask_text: matches[] contains a null CompiledRule pointer")

/-- The loop of `mask_text` over the matches, with its cursor and its output so far. -/
def MaskerState.maskLoop (text : Bytes) :
    List ScanMatch → Nat → Bytes → MaskerState → Except Error (Bytes × MaskerState)
  | [], pos, out, st => do
    let tail ← substr text pos text.length
    .ok (out ++ tail, st)
  | m :: ms, pos, out, st =>
    match m.rule with
    | none => .error nullMatchError
    | some cr =>
      if m.start < pos then maskLoop text ms pos out st
      else do
        let original ← substr text m.start (sizeSub m.stop m.start)
        if original.isEmpty || cr.rule.masking.placeholder.isEmpty then maskLoop text ms pos out st
        else do
          let (placeholder, st) ← st.maskOriginal cr.rule original
          let gap ← substr text pos (m.start - pos)
          maskLoop text ms m.stop (out ++ gap ++ placeholder) st

def MaskerState.maskText (st : MaskerState) (text : Bytes) (ms : List ScanMatch) :
    Except Error (Bytes × MaskerState) :=
  if ms.isEmpty then .ok (text, st) else maskLoop text ms 0 [] st

def MaskerState.triggeredRules (st : MaskerState) : List Bytes := st.seenRules

def MaskerState.triggeredDataTypes (st : MaskerState) : List DataType := st.seenDataTypes

/-- One `mask_text` call after the other on one state. -/
def MaskerState.maskAll (st : MaskerState) :
    List (Bytes × List ScanMatch) → Except Error (List Bytes × MaskerState)
  | [] => .ok ([], st)
  | (text, ms) :: rest => do
    let (out, st) ← st.maskText text ms
    let (outs, st) ← st.maskAll rest
    .ok (out :: outs, st)

/-- Phase B of `mask_texts`: every text with the matches that Phase A found in it. -/
def maskPhase (scanned : List (Bytes × List ScanMatch)) : Except Error MaskResult := do
  let (outs, st) ← (MaskerState.init (reservedPlaceholders (scanned.map (·.1)))).maskAll scanned
  .ok ⟨outs, st.triggeredRules, st.triggeredDataTypes, st.replacements⟩

/-! ## Phase A -/

def defaultParallelMinBytes : Nat := 8 * 1024

def textScanWorkerCount (env : Env) (texts : List Bytes) (opts : MaskOptions) : Nat :=
  if texts.length < 2 then 1
  else
    let minBytes := if opts.parallelMinBytes = 0 then defaultParallelMinBytes else opts.parallelMinBytes
    if (texts.map (·.length)).sum < minBytes then 1
    else min texts.length (if env.hardwareConcurrency = 0 then 1 else env.hardwareConcurrency)

/-- The outcome of one text: its matches or its error. A text that was never scanned has no matches. -/
abbrev TextScanResult := Except Error (List ScanMatch)

/-- The serial branch: the texts after the first error are left alone. -/
def scanTextsSerial (scan : Bytes → TextScanResult) : List Bytes → List TextScanResult
  | [] => []
  | t :: ts =>
    match scan t with
    | .error e => .error e :: ts.map fun _ => .ok []
    | .ok ms => .ok ms :: scanTextsSerial scan ts

/-- The index range of worker `w`, cut off at `n`. -/
def chunkRange (n workers w : Nat) : Nat × Nat :=
  let chunkSize := (n + workers - 1) / workers
  (w * chunkSize, min n (w * chunkSize + chunkSize))

/-- One worker writes the results of its own range. -/
def scanChunk (scan : Bytes → TextScanResult) (texts : List Bytes) (range : Nat × Nat)
    (results : List TextScanResult) : List TextScanResult :=
  (List.range' range.1 (range.2 - range.1)).foldl
    (fun results i => results.set i (scan (texts.getD i []))) results

def scanTextsParallel (scan : Bytes → TextScanResult) (texts : List Bytes) (workers : Nat) :
    List TextScanResult :=
  (List.range workers).foldl (fun results w => scanChunk scan texts (chunkRange texts.length workers w) results)
    (texts.map fun _ => .ok [])

def scanTexts (env : Env) (texts : List Bytes) (rules : List (Option CompiledRule)) (opts : MaskOptions) :
    List TextScanResult :=
  let scan := fun text => scanRules env text rules opts.scan
  let workers := textScanWorkerCount env texts opts
  if workers ≤ 1 then scanTextsSerial scan texts else scanTextsParallel scan texts workers

def scanTextError (i : Nat) : Error → Error
  | .runtimeError what => .runtimeError (ascii "mask_texts: scan text[" ++ decimal i ++ ascii "]: " ++ what)
  | .outOfRange what => .runtimeError (ascii "mask_texts: scan text[" ++ decimal i ++ ascii "]: " ++ what)
  | .stuck => .stuck

/-- The error of the lowest index, or every list of matches. -/
def propagateFirstScanError : Nat → List TextScanResult → Except Error (List (List ScanMatch))
  | _, [] => .ok []
  | i, .error e :: _ => .error (scanTextError i e)
  | i, .ok ms :: rest => do
    let more ← propagateFirstScanError (i + 1) rest
    .ok (ms :: more)

def maskTexts (env : Env) (texts : List Bytes) (rules : List (Option CompiledRule)) (opts : MaskOptions) :
    Except Error MaskResult := do
  let found ← propagateFirstScanError 0 (scanTexts env texts rules opts)
  maskPhase (texts.zip found)

end LlmGuard
