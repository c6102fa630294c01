import LlmGuard.Code.JsonString

/-!
# `json/Json.hpp`

A position in a document is the rest of the document from there on.
-/

namespace LlmGuard.Json

structure ValueSpan where
  start : Nat
  stop : Nat
  isString : Bool
deriving DecidableEq, Repr

inductive PathSeg where
  | key (key : Bytes)
  | index (index : Nat)
deriving DecidableEq, Repr

structure StringLeaf where
  path : List PathSeg
  span : ValueSpan
deriving DecidableEq, Repr

/-! ## Tokens -/

def isWs (c : Byte) : Bool := c = ch ' ' || c = 9 || c = 10 || c = 13

def skipWs (s : Bytes) : Bytes := s.dropWhile isWs

def isHexDigit (c : Byte) : Bool :=
  (ch '0' ≤ c && c ≤ ch '9') || (ch 'a' ≤ c && c ≤ ch 'f') || (ch 'A' ≤ c && c ≤ ch 'F')

def matchLiteral (lit s : Bytes) : Option Bytes := if lit.isPrefixOf s then some (s.drop lit.length) else none

/-- An escape of one byte. -/
def isSimpleEscape (e : Byte) : Bool :=
  e = ch '"' || e = ch '\\' || e = ch '/' || e = ch 'b' || e = ch 'f' || e = ch 'n' || e = ch 'r' || e = ch 't'

/-- The loop of `skip_string`, behind the opening quote. -/
def skipBody : Bytes → Option Bytes
  | [] => none
  | c :: s =>
    if c = ch '"' then some s
    else if c = ch '\\' then
      match s with
      | [] => none
      | e :: s =>
        if isSimpleEscape e then skipBody s
        else if e = ch 'u' then
          match s with
          | h₁ :: h₂ :: h₃ :: h₄ :: s =>
            if isHexDigit h₁ && isHexDigit h₂ && isHexDigit h₃ && isHexDigit h₄ then skipBody s else none
          | _ => none
        else none
    else if c < 0x20 then none
    else skipBody s

def skipString : Bytes → Option Bytes
  | [] => none
  | c :: s => if c = ch '"' then skipBody s else none

/-- A digit, and all digits behind it. -/
def skipDigits : Bytes → Option Bytes
  | [] => none
  | c :: s => if isDigit c then some (s.dropWhile isDigit) else none

def skipFraction : Bytes → Option Bytes
  | [] => some []
  | c :: s => if c = ch '.' then skipDigits s else some (c :: s)

def skipSign : Bytes → Bytes
  | [] => []
  | c :: s => if c = ch '+' || c = ch '-' then s else c :: s

def skipExponent : Bytes → Option Bytes
  | [] => some []
  | c :: s => if c = ch 'e' || c = ch 'E' then skipDigits (skipSign s) else some (c :: s)

/-- No digit follows a leading zero. -/
def skipInteger : Bytes → Option Bytes
  | [] => none
  | c :: s => if c = ch '0' then some s else skipDigits (c :: s)

def skipMinus : Bytes → Bytes
  | [] => []
  | c :: s => if c = ch '-' then s else c :: s

def skipNumber (s : Bytes) : Option Bytes := do
  let s ← skipInteger (skipMinus s)
  let s ← skipFraction s
  skipExponent s

/-! ## `skip_value` -/

inductive WalkState where
  | arrayStart
  | arrayAfterValue
  | arrayAfterComma
  | objectStart
  | objectAfterKey
  | objectAfterColon
  | objectAfterValue
  | objectAfterComma
deriving DecidableEq, Repr

inductive WalkKind where
  | object
  | array
deriving DecidableEq, Repr

structure WalkFrame where
  kind : WalkKind
  state : WalkState
deriving DecidableEq, Repr

/-- The rest behind a scalar or an opening bracket, and the frame that the bracket pushes. -/
def openOrScalar : Bytes → Option (Bytes × Option WalkFrame)
  | [] => none
  | c :: s =>
    if c = ch '"' then (skipString (c :: s)).map (·, none)
    else if c = ch '-' || isDigit c then (skipNumber (c :: s)).map (·, none)
    else if c = ch 't' then (matchLiteral (ascii "true") (c :: s)).map (·, none)
    else if c = ch 'f' then (matchLiteral (ascii "false") (c :: s)).map (·, none)
    else if c = ch 'n' then (matchLiteral (ascii "null") (c :: s)).map (·, none)
    else if c = ch '\x7b' then some (s, some ⟨.object, .objectStart⟩)
    else if c = ch '[' then some (s, some ⟨.array, .arrayStart⟩)
    else none

/-- `complete_value_in_parent`. -/
def completeValue : List WalkFrame → List WalkFrame
  | [] => []
  | f :: frames => ⟨f.kind, if f.kind = .array then .arrayAfterValue else .objectAfterValue⟩ :: frames

/-- A value inside the top frame. The frame goes on only behind a scalar. -/
def valueIn (f : WalkFrame) (frames : List WalkFrame) (after : WalkState) (s : Bytes) :
    Option (Bytes × List WalkFrame) :=
  match openOrScalar s with
  | none => none
  | some (s, none) => some (s, ⟨f.kind, after⟩ :: frames)
  | some (s, some opened) => some (s, opened :: f :: frames)

/-- One round of the `while` loop: the top frame at a byte that is not white space. -/
def walkStep (f : WalkFrame) (frames : List WalkFrame) (c : Byte) (s : Bytes) : Option (Bytes × List WalkFrame) :=
  match f.state with
  | .arrayStart =>
    if c = ch ']' then some (s, completeValue frames) else valueIn f frames .arrayAfterValue (c :: s)
  | .arrayAfterComma => valueIn f frames .arrayAfterValue (c :: s)
  | .arrayAfterValue =>
    if c = ch ']' then some (s, completeValue frames)
    else if c = ch ',' then some (s, ⟨f.kind, .arrayAfterComma⟩ :: frames)
    else none
  | .objectStart =>
    if c = ch '\x7d' then some (s, completeValue frames)
    else (skipString (c :: s)).map (·, ⟨f.kind, .objectAfterKey⟩ :: frames)
  | .objectAfterComma => (skipString (c :: s)).map (·, ⟨f.kind, .objectAfterKey⟩ :: frames)
  | .objectAfterKey => if c = ch ':' then some (s, ⟨f.kind, .objectAfterColon⟩ :: frames) else none
  | .objectAfterColon => valueIn f frames .objectAfterValue (c :: s)
  | .objectAfterValue =>
    if c = ch '\x7d' then some (s, completeValue frames)
    else if c = ch ',' then some (s, ⟨f.kind, .objectAfterComma⟩ :: frames)
    else none

/-- The `while (!frames.empty())` loop. Every round consumes a byte. -/
def walkLoop : Nat → List WalkFrame → Bytes → Option Bytes
  | _, [], s => some s
  | 0, _ :: _, _ => none
  | fuel + 1, f :: frames, s =>
    match skipWs s with
    | [] => none
    | c :: s =>
      match walkStep f frames c s with
      | none => none
      | some (s, frames) => walkLoop fuel frames s

def skipValue (s : Bytes) : Option Bytes :=
  match openOrScalar (skipWs s) with
  | none => none
  | some (s, none) => some s
  | some (s, some opened) => walkLoop s.length [opened] s

/-- `skip_ws` by offsets. -/
def skipWsAt (doc : Bytes) (pos : Nat) : Nat := pos + ((doc.drop pos).takeWhile isWs).length

/-- `skip_value` by offsets. -/
def skipValueAt (doc : Bytes) (pos : Nat) : Option Nat :=
  (skipValue (doc.drop pos)).map fun stop => doc.length - stop.length

def valid (doc : Bytes) : Bool :=
  match skipWs doc with
  | [] => false
  | c :: s =>
    match skipValue (c :: s) with
    | none => false
    | some stop => (skipWs stop).isEmpty

/-! ## `find_value` -/

/-- The bytes from `s` up to `stop`. -/
def upTo (s stop : Bytes) : Bytes := s.take (s.length - stop.length)

def spanOf (doc s stop : Bytes) (isString : Bool) : ValueSpan :=
  ⟨doc.length - s.length, doc.length - stop.length, isString⟩

/-- The element at `index`, where element `idx` comes next: its rest, and the rest behind it. -/
def findIndex (index : Nat) : Nat → Nat → Bytes → Option (Bytes × Bytes)
  | 0, _, _ => none
  | fuel + 1, idx, s =>
    match skipWs s with
    | [] => none
    | c :: s =>
      if c = ch ']' then none
      else do
        let stop ← skipValue (c :: s)
        if idx = index then some (c :: s, stop)
        else
          match skipWs stop with
          | [] => none
          | d :: rest => if d = ch ',' then findIndex index fuel (idx + 1) rest else none

/-- A key and a colon: the key, and the rest at the value behind them. -/
def readKey (s : Bytes) : Option (Bytes × Bytes) := do
  let stop ← skipString s
  match skipWs stop with
  | [] => none
  | c :: rest => if c = ch ':' then some (decodeString (upTo s stop), skipWs rest) else none

/-- The first member with this key. -/
def findKey (key : Bytes) : Nat → Bytes → Option (Bytes × Bytes)
  | 0, _ => none
  | fuel + 1, s =>
    match skipWs s with
    | [] => none
    | c :: s =>
      if c = ch '\x7d' then none
      else do
        let (found, value) ← readKey (c :: s)
        let stop ← skipValue value
        if found = key then some (value, stop)
        else
          match skipWs stop with
          | [] => none
          | d :: rest => if d = ch ',' then findKey key fuel rest else none

/-- One segment of a path. -/
def findSegment (seg : PathSeg) (s : Bytes) : Option (Bytes × Bytes) :=
  match skipWs s with
  | [] => none
  | c :: s =>
    match seg with
    | .index index => if c = ch '[' then findIndex index (s.length + 1) 0 s else none
    | .key key => if c = ch '\x7b' then findKey key (s.length + 1) s else none

/-- The value at the path, and what is behind it. -/
def findFrom : List PathSeg → Bytes → Option (Bytes × Bytes)
  | [], s => (skipValue s).map (s, ·)
  | [seg], s => findSegment seg s
  | seg :: path, s => do
    let (value, _) ← findSegment seg s
    findFrom path value

def findValue (doc : Bytes) (path : List PathSeg) : Option ValueSpan :=
  match skipWs doc with
  | [] => none
  | c :: s => (findFrom path (c :: s)).map fun (value, stop) => spanOf doc value stop (value.head? = some (ch '"'))

def ValueSpan.shift (span : ValueSpan) (base : Nat) : ValueSpan := ⟨span.start + base, span.stop + base, span.isString⟩

def findValueIn (doc : Bytes) (container : ValueSpan) (path : List PathSeg) : Option ValueSpan :=
  if container.stop < container.start || doc.length < container.stop then none
  else (findValue (slice doc container.start container.stop) path).map (·.shift container.start)

/-! ## `array_elements` -/

/-- The loop over the elements. The white space behind a comma is not stepped over before a span starts. -/
def elementsFrom (doc : Bytes) : Nat → Bytes → List ValueSpan
  | 0, _ => []
  | fuel + 1, s =>
    match skipValue s with
    | none => []
    | some stop =>
      spanOf doc s stop (s.head? = some (ch '"')) ::
        match skipWs stop with
        | [] => []
        | d :: rest => if d = ch ',' then elementsFrom doc fuel rest else []

def arrayElements (doc : Bytes) (arraySpan : ValueSpan) : List ValueSpan :=
  if arraySpan.stop < arraySpan.start || doc.length < arraySpan.stop then []
  else if arraySpan.isString || arraySpan.stop ≤ arraySpan.start then []
  else
    match doc.drop arraySpan.start with
    | [] => []
    | c :: s =>
      if c ≠ ch '[' then []
      else
        match skipWs s with
        | [] => []
        | d :: rest => if d = ch ']' then [] else elementsFrom doc (rest.length + 1) (d :: rest)

/-! ## `splice_all` -/

def splice (doc : Bytes) (span : ValueSpan) (replacement : Bytes) : Except Error Bytes :=
  if span.stop < span.start || doc.length < span.stop then
    .error (.runtimeError (ascii "Guard::Json::splice: span out of bounds for this document"))
  else .ok (doc.take span.start ++ replacement ++ doc.drop span.stop)

/-- The checks on the sorted edits, with the end of the last one. -/
def checkEdits (doc : Bytes) : Option Nat → List (ValueSpan × Bytes) → Except Error Unit
  | _, [] => .ok ()
  | last, (span, _) :: edits =>
    if span.stop < span.start || doc.length < span.stop then
      .error (.runtimeError (ascii "Guard::Json::splice_all: span out of bounds for this document"))
    else if last.any (span.start < ·) then
      .error (.runtimeError (ascii "Guard::Json::splice_all: overlapping edit spans"))
    else checkEdits doc (some span.stop) edits

/-- The last edit is applied first. -/
def applyEdits (doc : Bytes) : List (ValueSpan × Bytes) → Except Error Bytes
  | [] => .ok doc
  | (span, replacement) :: edits => do
    let out ← applyEdits doc edits
    splice out span replacement

def spliceAll (doc : Bytes) (edits : List (ValueSpan × Bytes)) : Except Error Bytes :=
  if edits.isEmpty then .ok doc
  else do
    let order := edits.mergeSort fun a b => a.1.start ≤ b.1.start
    checkEdits doc none order
    applyEdits doc order

/-! ## `string_leaves` -/

structure WalkTask where
  path : List PathSeg
  rest : Bytes

/-- The values of an object, behind its bracket. -/
def objectChildren (path : List PathSeg) : Nat → Bytes → Option (List WalkTask)
  | 0, _ => none
  | fuel + 1, s =>
    match skipWs s with
    | [] => none
    | c :: s =>
      if c = ch '\x7d' then some []
      else do
        let (key, value) ← readKey (c :: s)
        let stop ← skipValue value
        match skipWs stop with
        | [] => none
        | d :: rest =>
          if d = ch ',' then do
            let more ← objectChildren path fuel rest
            some (⟨path ++ [.key key], value⟩ :: more)
          else if d = ch '\x7d' then some [⟨path ++ [.key key], value⟩]
          else none

/-- The elements of an array from element `idx` on. -/
def elementTasks (path : List PathSeg) : Nat → Nat → Bytes → Option (List WalkTask)
  | 0, _, _ => none
  | fuel + 1, idx, s => do
    let value := skipWs s
    let stop ← skipValue value
    match skipWs stop with
    | [] => none
    | d :: rest =>
      if d = ch ',' then do
        let more ← elementTasks path fuel (idx + 1) rest
        some (⟨path ++ [.index idx], value⟩ :: more)
      else if d = ch ']' then some [⟨path ++ [.index idx], value⟩]
      else none

def arrayChildren (path : List PathSeg) (s : Bytes) : Option (List WalkTask) :=
  match skipWs s with
  | [] => none
  | c :: s => if c = ch ']' then some [] else elementTasks path (s.length + 1) 0 (c :: s)

/-- What a container has on its stack when it is taken apart. A scalar and a malformed container have nothing. -/
def children (path : List PathSeg) (c : Byte) (s : Bytes) : List WalkTask :=
  if c = ch '\x7b' then (objectChildren path (s.length + 1) s).getD []
  else if c = ch '[' then (arrayChildren path s).getD []
  else []

/-- The `while (!stack.empty())` loop. No two tasks are at the same place. -/
def leavesLoop (doc : Bytes) : Nat → List WalkTask → List StringLeaf
  | 0, _ => []
  | _, [] => []
  | fuel + 1, task :: stack =>
    match skipWs task.rest with
    | [] => leavesLoop doc fuel stack
    | c :: s =>
      if c = ch '"' then
        match skipString (c :: s) with
        | none => leavesLoop doc fuel stack
        | some stop => ⟨task.path, spanOf doc (c :: s) stop true⟩ :: leavesLoop doc fuel stack
      else leavesLoop doc fuel (children task.path c s ++ stack)

def stringLeaves (doc : Bytes) (root : List PathSeg) : List StringLeaf :=
  match findValue doc root with
  | none => []
  | some span => leavesLoop doc (doc.length + 1) [⟨root, doc.drop span.start⟩]

def stringLeavesIn (doc : Bytes) (container : ValueSpan) (relativeRoot : List PathSeg) : List StringLeaf :=
  if container.stop < container.start || doc.length < container.stop then []
  else (stringLeaves (slice doc container.start container.stop) relativeRoot).map fun leaf =>
    ⟨leaf.path, leaf.span.shift container.start⟩

end LlmGuard.Json
