import LlmGuard.Code.Rule

/-!
# The pattern parser of `PlaceholderRegex.hpp` and `Prefilter.hpp`

`BoundedLengthParser` and `PrefilterParser` walk a pattern in the same way and differ in what they build.
The walk is one definition over the actions of the two.
-/

namespace LlmGuard

inductive ParseFailure where
  /-- `UnboundedSignal` and `PrefilterParseFailure`. -/
  | refused
  /-- The model ran out of fuel. -/
  | stuck
deriving DecidableEq, Repr

/-- `{m}`, `{m,}` and `{m,n}` keep their digits. -/
inductive Quantifier where
  | star
  | plus
  | quest
  | braces (min : Bytes) (max : Option Bytes)
deriving DecidableEq, Repr

structure Actions (α : Type) where
  /-- A rune and whether folding is on. -/
  literal : Bytes → Bool → α
  anchor : α
  dot : α
  /-- Whether the class is negated, and its members with both ends of every range. -/
  charClass : Bool → List α → α
  /-- The byte after the backslash, and what follows it. -/
  escape : Bool → Byte → Bytes → Except ParseFailure (α × Bytes)
  flagSetter : α
  capture : α → α
  quantified : Quantifier → α → α
  /-- The pieces, and whether a quantifier was looked for behind each. -/
  concat : List (α × Bool) → α
  alternation : α → List α → α

/-- What is left of the pattern, and the sticky `fold_case_`. -/
structure ParserState where
  rest : Bytes
  fold : Bool
deriving DecidableEq, Repr

/-- The length of a rune by its first byte. -/
def leadLength (c : Byte) : Nat :=
  if c &&& 0xE0 = 0xC0 then 2
  else if c &&& 0xF0 = 0xE0 then 3
  else if c &&& 0xF8 = 0xF0 then 4
  else 1

/-- `consume_rune` at `c`: the rune, cut off at the end of the pattern, and the rest. -/
def consumeRune (c : Byte) (s : Bytes) : Bytes × Bytes :=
  (c :: s.take (leadLength c - 1), s.drop (leadLength c - 1))

/-! ## Quantifiers -/

def skipLazyMarker : Bytes → Bytes
  | [] => []
  | c :: s => if c = ch '?' then s else c :: s

/-- What follows `{`. -/
def braceQuantifier (s : Bytes) : Option (Quantifier × Bytes) :=
  let min := s.takeWhile isDigit
  let s := s.dropWhile isDigit
  let (max, s) := match s with
    | [] => (none, [])
    | c :: s' => if c = ch ',' then (some (s'.takeWhile isDigit), s'.dropWhile isDigit) else (none, c :: s')
  match s with
  | [] => none
  | c :: s => if min.isEmpty || c ≠ ch '}' then none else some (.braces min max, skipLazyMarker s)

def quantifierAt : Bytes → Option (Quantifier × Bytes)
  | [] => none
  | c :: s =>
    if c = ch '*' then some (.star, skipLazyMarker s)
    else if c = ch '+' then some (.plus, skipLazyMarker s)
    else if c = ch '?' then some (.quest, skipLazyMarker s)
    else if c = ch '{' then braceQuantifier s
    else none

def peekIsQuantifierStart : Bytes → Bool
  | [] => false
  | c :: _ => c = ch '*' || c = ch '+' || c = ch '?' || c = ch '{'

/-! ## Classes -/

variable {α : Type}

def parseEscape (A : Actions α) (fold : Bool) : Bytes → Except ParseFailure (α × Bytes)
  | [] => .error .refused
  | c :: s => A.escape fold c s

/-- One end of a range, or a single member. -/
def classMember (A : Actions α) (fold : Bool) (c : Byte) (s : Bytes) : Except ParseFailure (α × Bytes) :=
  if c = ch '\\' then parseEscape A fold s
  else
    let (rune, s) := consumeRune c s
    .ok (A.literal rune fold, s)

/-- The member loop of `parse_char_class`. -/
def classLoop (A : Actions α) (fold : Bool) : Nat → Bytes → Except ParseFailure (List α × Bytes)
  | 0, _ => .error .stuck
  | _ + 1, [] => .error .refused
  | fuel + 1, c :: s =>
    if c = ch ']' then .ok ([], s)
    else do
      let (m, s) ← classMember A fold c s
      match s with
      | dash :: d :: s' =>
        if dash = ch '-' && d ≠ ch ']' then do
          let (hi, s) ← classMember A fold d s'
          let (ms, s) ← classLoop A fold fuel s
          .ok (m :: hi :: ms, s)
        else do
          let (ms, s) ← classLoop A fold fuel s
          .ok (m :: ms, s)
      | _ => do
        let (ms, s) ← classLoop A fold fuel s
        .ok (m :: ms, s)

/-- What follows `[`. -/
def parseCharClass (A : Actions α) (fold : Bool) (s : Bytes) : Except ParseFailure (α × Bytes) := do
  let (negated, s) := match s with
    | [] => (false, [])
    | c :: s' => if c = ch '^' then (true, s') else (false, c :: s')
  let (ms, s) ← classLoop A fold (s.length + 1) s
  if ms.isEmpty then .error .refused else .ok (A.charClass negated ms, s)

/-! ## The walk -/

def kMaxGroupDepth : Nat := 1000

def endsConcat : Bytes → Bool
  | [] => true
  | c :: _ => c = ch '|' || c = ch ')'

/-- An atom does not begin with these. -/
def outOfPlace (c : Byte) : Bool :=
  c = ch '|' || c = ch ')' || c = ch '*' || c = ch '+' || c = ch '?' || c = ch '{' || c = ch '}' || c = ch ']'

def isFlagByte (c : Byte) : Bool := c = ch 'i' || c = ch 's' || c = ch 'm' || c = ch 'U' || c = ch '-'

def expectClose : Bytes → Except ParseFailure Bytes
  | [] => .error .refused
  | c :: s => if c = ch ')' then .ok s else .error .refused

mutual

def parseAlternation (A : Actions α) : Nat → Nat → ParserState → Except ParseFailure (α × ParserState)
  | 0, _, _ => .error .stuck
  | fuel + 1, depth, st => do
    let (first, st) ← parsePieces A fuel depth st
    let (more, st) ← parseBranches A fuel depth st
    .ok (A.alternation (A.concat first) more, st)

/-- The branches after the first one. -/
def parseBranches (A : Actions α) : Nat → Nat → ParserState → Except ParseFailure (List α × ParserState)
  | 0, _, _ => .error .stuck
  | fuel + 1, depth, st =>
    match st.rest with
    | [] => .ok ([], st)
    | c :: s =>
      if c = ch '|' then do
        let (branch, st) ← parsePieces A fuel depth { st with rest := s }
        let (more, st) ← parseBranches A fuel depth st
        .ok (A.concat branch :: more, st)
      else .ok ([], st)

/-- The loop of `parse_concat`. -/
def parsePieces (A : Actions α) :
    Nat → Nat → ParserState → Except ParseFailure (List (α × Bool) × ParserState)
  | 0, _, _ => .error .stuck
  | fuel + 1, depth, st =>
    if endsConcat st.rest then .ok ([], st)
    else do
      let (atom, st) ← parseAtom A fuel depth st
      match quantifierAt st.rest with
      | some (q, rest) => do
        let (pieces, st) ← parsePieces A fuel depth { st with rest := rest }
        .ok ((A.quantified q atom, true) :: pieces, st)
      | none => do
        let quantified := peekIsQuantifierStart st.rest
        let (pieces, st) ← parsePieces A fuel depth st
        .ok ((atom, quantified) :: pieces, st)

def parseAtom (A : Actions α) : Nat → Nat → ParserState → Except ParseFailure (α × ParserState)
  | 0, _, _ => .error .stuck
  | fuel + 1, depth, st =>
    match st.rest with
    | [] => .error .refused
    | c :: s =>
      if c = ch '(' then parseGroup A fuel depth { st with rest := s }
      else if c = ch '[' then do
        let (x, s) ← parseCharClass A st.fold s
        .ok (x, { st with rest := s })
      else if c = ch '\\' then do
        let (x, s) ← parseEscape A st.fold s
        .ok (x, { st with rest := s })
      else if c = ch '^' || c = ch '$' then .ok (A.anchor, { st with rest := s })
      else if c = ch '.' then .ok (A.dot, { st with rest := s })
      else if outOfPlace c then .error .refused
      else
        let (rune, s) := consumeRune c s
        .ok (A.literal rune st.fold, { st with rest := s })

/-- What follows `(`. -/
def parseGroup (A : Actions α) : Nat → Nat → ParserState → Except ParseFailure (α × ParserState)
  | 0, _, _ => .error .stuck
  | fuel + 1, depth, st =>
    if kMaxGroupDepth ≤ depth then .error .refused
    else
      match st.rest with
      | [] => .error .refused
      | c :: s =>
        if c ≠ ch '?' then do
          let (x, st) ← parseAlternation A fuel (depth + 1) st
          let s ← expectClose st.rest
          .ok (A.capture x, { st with rest := s })
        else
          match s with
          | [] => .error .refused
          | d :: s' =>
            if d = ch ':' then do
              let (x, st) ← parseAlternation A fuel (depth + 1) { st with rest := s' }
              let s ← expectClose st.rest
              .ok (x, { st with rest := s })
            else if d = ch 'P' && s'.head? = some (ch '<') then
              match (s'.drop 1).dropWhile (· ≠ ch '>') with
              | [] => .error .refused
              | _ :: s => do
                let (x, st) ← parseAlternation A fuel (depth + 1) { st with rest := s }
                let s ← expectClose st.rest
                .ok (A.capture x, { st with rest := s })
            else
              let flags := s.takeWhile isFlagByte
              let fold := st.fold || flags.contains (ch 'i')
              match s.dropWhile isFlagByte with
              | [] => .error .refused
              | e :: s =>
                if flags.isEmpty then .error .refused
                else if e = ch ')' then .ok (A.flagSetter, ⟨s, fold⟩)
                else if e = ch ':' then do
                  let (x, st) ← parseAlternation A fuel (depth + 1) ⟨s, fold⟩
                  let s ← expectClose st.rest
                  .ok (x, { st with rest := s })
                else .error .refused

end

/-- `parse`. Every round of the walk consumes a byte or ends, so the fuel is enough (`parse_not_stuck`). -/
def parsePattern (A : Actions α) (pattern : Bytes) : Except ParseFailure α := do
  let (x, st) ← parseAlternation A (4 * pattern.length + 4) 0 ⟨pattern, false⟩
  if st.rest.isEmpty then .ok x else .error .refused

end LlmGuard
