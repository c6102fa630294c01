import LlmGuard.Code.Json
import LlmGuard.Code.Masker

/-! # `demask/Demasker.hpp` -/

namespace LlmGuard

structure PlaceholderMatch where
  ruleId : Bytes
  start : Nat
  stop : Nat
  placeholder : Bytes
deriving DecidableEq, Repr

/-- Carries every byte that was not emitted. -/
structure DemaskError where
  what : Bytes
  unemitted : Bytes
deriving DecidableEq, Repr

structure Entry where
  placeholder : Bytes
  original : Bytes
  jsonOriginal : Bytes
deriving DecidableEq, Repr

/-- The hash map is a function. -/
structure DemaskConfig where
  entries : List Entry
  indexByPlaceholder : Bytes → Option Nat
  placeholderLengths : List Nat
  placeholderFirstByte : Byte → Bool
  maxPending : Nat
  scan : Option (Bytes → Except Error (List PlaceholderMatch))

def DemaskConfig.lookup (cfg : DemaskConfig) (placeholder : Bytes) (jsonEscape : Bool) : Option Bytes := do
  let i ← cfg.indexByPlaceholder placeholder
  let e ← cfg.entries[i]?
  some (if jsonEscape then e.jsonOriginal else e.original)

/-! ## Text -/

def isRuneStart (b : Byte) : Bool := b &&& 0xC0 ≠ 0x80

/-- How many bytes the lead byte asks for. 1 also stands for a byte that leads nothing. -/
def runeWant (b : Byte) : Nat :=
  if b < 0x80 then 1
  else if b &&& 0xE0 = 0xC0 then 2
  else if b &&& 0xF0 = 0xE0 then 3
  else if b &&& 0xF8 = 0xF0 then 4
  else 1

/-- The length of the rune at `i`. A broken one has length 1. -/
def runeLenAt (s : Bytes) (i : Nat) : Nat :=
  match s[i]? with
  | none => 1
  | some b =>
    let want := runeWant b
    if s.length < i + want then 1
    else if ((s.drop (i + 1)).take (want - 1)).all (fun c => !isRuneStart c) then want
    else 1

/-- The last rune start at or before `i`. -/
def runeStartBefore (s : Bytes) : Nat → Option Nat
  | 0 => if isRuneStart (s.getD 0 0) then some 0 else none
  | i + 1 => if isRuneStart (s.getD (i + 1) 0) then some (i + 1) else runeStartBefore s i

def utf8SafePrefixEnd (s : Bytes) (stop : Nat) : Nat :=
  if stop = 0 then 0
  else if s.length ≤ stop then s.length
  else
    match runeStartBefore s (stop - 1) with
    | none => 0
    | some i => if i + runeLenAt s i ≤ stop then stop else i

structure TextReplacement where
  start : Nat
  stop : Nat
  original : Bytes
deriving DecidableEq, Repr

def textReplacementLess (a b : TextReplacement) : Bool :=
  if a.start ≠ b.start then a.start < b.start else b.stop < a.stop

/-- The splice loop, with its write cursor. -/
def spliceLoop (text : Bytes) : List TextReplacement → Nat → Bytes → Except Error Bytes
  | [], pos, out => do
    let tail ← substr text pos text.length
    .ok (out ++ tail)
  | rep :: reps, pos, out =>
    if rep.start < pos then spliceLoop text reps pos out
    else do
      let gap ← substr text pos (rep.start - pos)
      spliceLoop text reps rep.stop (out ++ gap ++ rep.original)

/-- `std::stable_sort`. -/
def stableSort {α : Type} (less : α → α → Bool) (l : List α) : List α :=
  l.mergeSort fun a b => !less b a

def applyTextReplacements (text : Bytes) (reps : List TextReplacement) : Except Error Bytes :=
  if reps.isEmpty then .ok text
  else spliceLoop text (stableSort textReplacementLess reps) 0 []

/-! ## The tolerant scan -/

def placeholderMatchLess (a b : PlaceholderMatch) : Bool :=
  if a.start ≠ b.start then a.start < b.start
  else if a.stop - a.start ≠ b.stop - b.start then b.stop - b.start < a.stop - a.start
  else a.ruleId < b.ruleId

/-- A match that starts before the furthest end so far is dropped. -/
def dropOverlaps : Nat → List PlaceholderMatch → List PlaceholderMatch
  | _, [] => []
  | maxEnd, m :: ms =>
    if m.start < maxEnd then dropOverlaps maxEnd ms
    else m :: dropOverlaps (if maxEnd < m.stop then m.stop else maxEnd) ms

def resolvePlaceholderConflicts (ms : List PlaceholderMatch) : List PlaceholderMatch :=
  if ms.length ≤ 1 then ms else dropOverlaps 0 (stableSort placeholderMatchLess ms)

def isBlankPlaceholder (s : Bytes) : Bool := s.all isSpace

def parsePlaceholderIndex (digits : Bytes) : Option Nat :=
  if digits.isEmpty || 9 < digits.length then none
  else if !digits.all isDigit then none
  else if digitsVal digits = 0 then none
  else some (digitsVal digits)

/-- The `while (pos <= end)` loop of `scan_rule`. -/
def scanRuleLoop (env : Env) (text : Bytes) (cr : CompiledRule) (re : Regex) :
    Nat → Nat → List PlaceholderMatch
  | 0, _ => []
  | fuel + 1, pos =>
    if text.length < pos then []
    else
      match env.re2.search re text pos with
      | none => []
      | some g =>
        let mstart := g.whole.1
        let mend := g.whole.2
        let rest := scanRuleLoop env text cr re fuel (if mstart < mend then mend else mstart + 1)
        match (g.get 1).bind fun span => parsePlaceholderIndex (slice text span.1 span.2) with
        | none => rest
        | some index => ⟨cr.rule.id, mstart, mend, renderPlaceholder cr.rule.masking.placeholder index⟩ :: rest

def scanRule (env : Env) (text : Bytes) (cr : CompiledRule) : List PlaceholderMatch :=
  match cr.placeholderRe with
  | none => []
  | some re =>
    if isBlankPlaceholder cr.rule.masking.placeholder then []
    else scanRuleLoop env text cr re (text.length + 1) 0

/-! ## `make_config` -/

def DemaskConfig.empty : DemaskConfig := ⟨[], fun _ => none, [], fun _ => false, 0, none⟩

/-- One round of `buildLookupIndex`. -/
def DemaskConfig.addReplacement (cfg : DemaskConfig) (rep : Replacement) : DemaskConfig :=
  match rep.placeholder with
  | [] => cfg
  | b :: _ =>
    if (cfg.indexByPlaceholder rep.placeholder).isSome then cfg
    else
      { cfg with
        entries := cfg.entries ++ [⟨rep.placeholder, rep.original, Json.encodeString rep.original false⟩]
        indexByPlaceholder := fun p =>
          if p = rep.placeholder then some cfg.entries.length else cfg.indexByPlaceholder p
        placeholderFirstByte := fun c => c = b || cfg.placeholderFirstByte c
        maxPending := if cfg.maxPending < rep.placeholder.length then rep.placeholder.length else cfg.maxPending }

/-- `std::sort` and `std::unique` on lengths. -/
def sortedLengths (entries : List Entry) : List Nat :=
  (entries.map (·.placeholder.length)).foldl (fun l n => setInsert (fun a b => decide (a < b)) n l) []

/-- The triggered rules that the snapshot still knows, by id. -/
def triggeredRules (state : MaskingState) (reg : Registry) : List CompiledRule :=
  (state.triggeredRuleIds.mergeSort fun a b => !bytesLess b a).filterMap reg.byId

def scanPlaceholders (env : Env) (rules : List CompiledRule) (text : Bytes) : List PlaceholderMatch :=
  resolvePlaceholderConflicts (rules.flatMap (scanRule env text))

def makeConfig (env : Env) (state : MaskingState) (pinned : Option Registry) : DemaskConfig :=
  let cfg := state.replacements.foldl DemaskConfig.addReplacement DemaskConfig.empty
  let cfg := { cfg with placeholderLengths := sortedLengths cfg.entries }
  match pinned with
  | none => cfg
  | some reg =>
    let rules := triggeredRules state reg
    let maxLen := rules.foldl (fun m cr => if m < cr.placeholderLen then cr.placeholderLen else m) 0
    let cfg := { cfg with maxPending := if cfg.maxPending < maxLen then maxLen else cfg.maxPending }
    if rules.isEmpty then cfg
    else { cfg with scan := some fun text => .ok (scanPlaceholders env rules text) }

/-! ## `Demasker` -/

/-- The probe loop over the lengths: the best entry so far and its length. -/
def probeLengths (cfg : DemaskConfig) (s : Bytes) : List Nat → Option (Nat × Nat) → Option (Nat × Nat)
  | [], best => best
  | len :: lens, best =>
    if s.length < len then best
    else
      match cfg.indexByPlaceholder (s.take len) with
      | none => probeLengths cfg s lens best
      | some i =>
        match best with
        | none => probeLengths cfg s lens (some (i, len))
        | some (j, _) => probeLengths cfg s lens (if i < j then some (i, len) else best)

/-- So many rounds of the loop of `apply_exact`. `none` while it is still running: a hit of an empty placeholder
does not move it. -/
def exactRounds (cfg : DemaskConfig) (jsonEscape : Bool) : Nat → Bytes → Option Bytes
  | _, [] => some []
  | 0, _ :: _ => none
  | rounds + 1, b :: s =>
    if !cfg.placeholderFirstByte b then (exactRounds cfg jsonEscape rounds s).map (b :: ·)
    else
      match probeLengths cfg (b :: s) cfg.placeholderLengths none with
      | none => (exactRounds cfg jsonEscape rounds s).map (b :: ·)
      | some (i, len) =>
        let original := match cfg.entries[i]? with
          | none => []
          | some e => if jsonEscape then e.jsonOriginal else e.original
        (exactRounds cfg jsonEscape rounds ((b :: s).drop len)).map (original ++ ·)

/-- What the loop of `apply_exact` gives where it ends, as it does unless a placeholder is empty. The first argument
counts the bytes of a hit still to step over. -/
def exactLoop (cfg : DemaskConfig) (jsonEscape : Bool) : Nat → Bytes → Bytes
  | _, [] => []
  | skip + 1, _ :: s => exactLoop cfg jsonEscape skip s
  | 0, b :: s =>
    if !cfg.placeholderFirstByte b then b :: exactLoop cfg jsonEscape 0 s
    else
      match probeLengths cfg (b :: s) cfg.placeholderLengths none with
      | none => b :: exactLoop cfg jsonEscape 0 s
      | some (i, len) =>
        let original := match cfg.entries[i]? with
          | none => []
          | some e => if jsonEscape then e.jsonOriginal else e.original
        original ++ exactLoop cfg jsonEscape (len - 1) s

def applyExact (cfg : DemaskConfig) (jsonEscape : Bool) (text : Bytes) : Bytes :=
  if cfg.placeholderLengths.isEmpty then text else exactLoop cfg jsonEscape 0 text

/-- `apply_exact`, for so many rounds. -/
def applyExactRounds (cfg : DemaskConfig) (jsonEscape : Bool) (rounds : Nat) (text : Bytes) : Option Bytes :=
  if cfg.placeholderLengths.isEmpty then some text else exactRounds cfg jsonEscape rounds text

def outOfRangeMatch : Error :=
  .outOfRange (ascii "Guard::Demask: placeholder match is out of range for this text")

/-- The matches that this request minted, as replacements. -/
def textReplacements (cfg : DemaskConfig) (jsonEscape : Bool) (text : Bytes) :
    List PlaceholderMatch → Except Error (List TextReplacement)
  | [] => .ok []
  | m :: ms =>
    if m.placeholder.isEmpty then textReplacements cfg jsonEscape text ms
    else if m.stop < m.start || text.length < m.stop then .error outOfRangeMatch
    else
      match cfg.lookup m.placeholder jsonEscape with
      | none => textReplacements cfg jsonEscape text ms
      | some original => do
        let reps ← textReplacements cfg jsonEscape text ms
        .ok (⟨m.start, m.stop, original⟩ :: reps)

def applyPlaceholderRegex (cfg : DemaskConfig) (jsonEscape : Bool) (text : Bytes) : Except Error Bytes :=
  match cfg.scan with
  | none => .ok text
  | some scan => do
    let ms ← scan text
    if ms.isEmpty then .ok text
    else do
      let reps ← textReplacements cfg jsonEscape text ms
      applyTextReplacements text reps

def Error.what : Error → Bytes
  | .runtimeError what => what
  | .outOfRange what => what
  | .stuck => []

def placeholderPassError (e : Error) (text : Bytes) : DemaskError :=
  ⟨ascii "demask: placeholder pass failed: " ++ e.what, text⟩

structure Demasker where
  cfg : DemaskConfig
  jsonEscape : Bool
  pending : Bytes

/-- What the call emits or throws, and the state after it. -/
def Demasker.demaskChunk (d : Demasker) (chunk : Bytes) (flush : Bool) : Except DemaskError Bytes × Demasker :=
  let text := d.pending ++ chunk
  let d := { d with pending := [] }
  if text.isEmpty then (.ok [], d)
  else
    let text := applyExact d.cfg d.jsonEscape text
    match applyPlaceholderRegex d.cfg d.jsonEscape text with
    | .error e => (.error (placeholderPassError e text), d)
    | .ok text =>
      if flush then (.ok text, d)
      else if text.length ≤ d.cfg.maxPending then (.ok [], { d with pending := text })
      else
        let safeEnd := utf8SafePrefixEnd text (text.length - d.cfg.maxPending)
        if safeEnd = 0 then (.ok [], { d with pending := text })
        else (.ok (text.take safeEnd), { d with pending := text.drop safeEnd })

def demaskAll (cfg : DemaskConfig) (text : Bytes) (jsonEscape : Bool) : Except DemaskError Bytes :=
  (Demasker.demaskChunk ⟨cfg, jsonEscape, []⟩ text true).1

/-- The chunks of a stream, with `flush` on the last one: everything that was emitted. -/
def Demasker.demaskStream (d : Demasker) : List Bytes → Except DemaskError Bytes
  | [] => .ok []
  | [chunk] => (d.demaskChunk chunk true).1
  | chunk :: chunks => do
    let out ← (d.demaskChunk chunk false).1
    let more ← (d.demaskChunk chunk false).2.demaskStream chunks
    .ok (out ++ more)

/-! ## `demask_json_arguments` -/

/-- The edits of the strings that change. `none` where one of the calls throws. -/
def leafEdits (cfg : DemaskConfig) (rawJson : Bytes) : List Json.StringLeaf → Option (List (Json.ValueSpan × Bytes))
  | [] => some []
  | leaf :: leaves => do
    let quoted ← (substr rawJson leaf.span.start (leaf.span.stop - leaf.span.start)).toOption
    let decoded := Json.decodeString quoted
    let demasked ← (demaskAll cfg decoded false).toOption
    let edits ← leafEdits cfg rawJson leaves
    some (if demasked = decoded then edits else (leaf.span, Json.encodeString demasked true) :: edits)

/-- The structural pass. -/
def demaskLeaves (cfg : DemaskConfig) (rawJson : Bytes) : Bytes :=
  match leafEdits cfg rawJson (Json.stringLeaves rawJson []) with
  | none => rawJson
  | some edits =>
    if edits.isEmpty then rawJson
    else
      match Json.spliceAll rawJson edits with
      | .error _ => rawJson
      | .ok out => if Json.valid out then out else rawJson

def demaskJsonArguments (cfg : DemaskConfig) (rawJson : Bytes) : Bytes :=
  if rawJson.isEmpty then rawJson
  else
    match demaskAll cfg rawJson false with
    | .error _ => demaskLeaves cfg rawJson
    | .ok naive => if Json.valid naive then naive else demaskLeaves cfg rawJson

end LlmGuard
