import LlmGuard.Code.PatternParser
import LlmGuard.Code.Unicode

/-! # `Prefilter.hpp` -/

namespace LlmGuard

inductive Node where
  | literal (literal : Bytes) (foldCase : Bool)
  | concat (children : List Node)
  | alternate (children : List Node)
  | capture (child : Node)
  | repeat (min : Nat) (child : Node)
  | unsupported
deriving Repr

/-- Under `(?i)` every ASCII rune except `s` folds to itself in lower case. -/
def literalIsFoldSafe (literal : Bytes) (foldCase : Bool) : Bool :=
  !foldCase || literal.all fun c => c < 0x80 && !(c = ch 's' || c = ch 'S')

/-! ## `PrefilterParser` -/

/-- The loop of `parse_concat`. `pending` is the literal run that is still open. -/
def mergeLiterals : Option (Bytes × Bool) → List (Node × Bool) → List Node
  | none, [] => []
  | some (l, f), [] => [.literal l f]
  | pending, (.literal l f, false) :: pieces =>
    match pending with
    | none => mergeLiterals (some (l, f)) pieces
    | some (l', f') =>
      if f' = f then mergeLiterals (some (l' ++ l, f)) pieces
      else .literal l' f' :: mergeLiterals (some (l, f)) pieces
  | none, (piece, _) :: pieces => piece :: mergeLiterals none pieces
  | some (l, f), (piece, _) :: pieces => .literal l f :: piece :: mergeLiterals none pieces

def concatNode (pieces : List (Node × Bool)) : Node :=
  match mergeLiterals none pieces with
  | [] => .literal [] false
  | [child] => child
  | children => .concat children

/-- `parse_brace_quantifier` reads the count in `size_t`. -/
def repeatMin (digits : Bytes) : Nat :=
  digits.foldl (fun min d => (min * 10 + (d.toNat - 48)) % (sizeMax + 1)) 0

def quantifiedNode (q : Quantifier) (child : Node) : Node :=
  match q with
  | .star => .repeat 0 child
  | .plus => .repeat 1 child
  | .quest => .repeat 0 child
  | .braces min _ => .repeat (repeatMin min) child

/-- What follows `{`, up to its `}`. -/
def skipBraced (s : Bytes) : Except ParseFailure Bytes :=
  match s.dropWhile (· ≠ ch '\x7d') with
  | [] => .error .refused
  | _ :: s => .ok s

def isXDigit (c : Byte) : Bool :=
  isDigit c || (ch 'a' ≤ c && c ≤ ch 'f') || (ch 'A' ≤ c && c ≤ ch 'F')

def isOctal (c : Byte) : Bool := ch '0' ≤ c && c ≤ ch '7'

/-- What follows `\p` or `\P`. -/
def skipProperty : Bytes → Except ParseFailure Bytes
  | [] => .ok []
  | c :: s => if c = ch '\x7b' then skipBraced s else .ok s

/-- What follows `\x`. -/
def skipHex : Bytes → Except ParseFailure Bytes
  | [] => .ok []
  | c :: s =>
    if c = ch '\x7b' then skipBraced s
    else .ok ((c :: s).drop (((c :: s).take 2).takeWhile isXDigit).length)

def isAlphanumeric (c : Byte) : Bool :=
  (ch 'a' ≤ c && c ≤ ch 'z') || (ch 'A' ≤ c && c ≤ ch 'Z') || (ch '0' ≤ c && c ≤ ch '9')

def isPerlEscape (c : Byte) : Bool :=
  c = ch 'd' || c = ch 's' || c = ch 'w' || c = ch 'D' || c = ch 'S' || c = ch 'W' ||
    c = ch 'b' || c = ch 'B' || c = ch 'A' || c = ch 'z' || c = ch 'Z'

/-- The control character of an escape letter. -/
def controlEscape (c : Byte) : Option Byte :=
  if c = ch 'n' then some 10
  else if c = ch 't' then some 9
  else if c = ch 'r' then some 13
  else if c = ch 'f' then some 12
  else if c = ch 'v' then some 11
  else if c = ch 'a' then some 7
  else none

def escapeNode (fold : Bool) (c : Byte) (s : Bytes) : Except ParseFailure (Node × Bytes) :=
  if isPerlEscape c then .ok (.unsupported, s)
  else
    match controlEscape c with
    | some control => .ok (.literal [control] fold, s)
    | none =>
      if c = ch 'p' || c = ch 'P' then do
        let s ← skipProperty s
        .ok (.unsupported, s)
      else if c = ch 'x' then do
        let s ← skipHex s
        .ok (.unsupported, s)
      else if isOctal c then .ok (.unsupported, s.drop ((s.take 2).takeWhile isOctal).length)
      else if isAlphanumeric c then .error .refused
      else
        let (rune, s) := consumeRune c s
        .ok (.literal rune fold, s)

def nodeActions : Actions Node where
  literal := .literal
  anchor := .unsupported
  dot := .unsupported
  charClass _ _ := .unsupported
  escape := escapeNode
  flagSetter := .unsupported
  capture := .capture
  quantified := quantifiedNode
  concat := concatNode
  alternation first more := if more.isEmpty then first else .alternate (first :: more)

/-! ## The proof -/

def literalContains (u : Utf8proc) (literal : Bytes) (loweredKeywords : List Bytes) : Bool :=
  loweredKeywords.any fun kw => !kw.isEmpty && contains (toLowerUtf8 u literal) kw

mutual

def guaranteesKeyword (u : Utf8proc) (loweredKeywords : List Bytes) : Node → Bool
  | .literal literal foldCase =>
    literalIsFoldSafe literal foldCase && literalContains u literal loweredKeywords
  | .concat children => anyGuarantees u loweredKeywords children
  | .alternate children => !children.isEmpty && allGuarantee u loweredKeywords children
  | .capture child => guaranteesKeyword u loweredKeywords child
  | .repeat min child => 1 ≤ min && guaranteesKeyword u loweredKeywords child
  | .unsupported => false

def anyGuarantees (u : Utf8proc) (loweredKeywords : List Bytes) : List Node → Bool
  | [] => false
  | child :: children => guaranteesKeyword u loweredKeywords child || anyGuarantees u loweredKeywords children

def allGuarantee (u : Utf8proc) (loweredKeywords : List Bytes) : List Node → Bool
  | [] => true
  | child :: children => guaranteesKeyword u loweredKeywords child && allGuarantee u loweredKeywords children

end

def regexGuaranteesKeyword (u : Utf8proc) (pattern : Bytes) (keywords : List Bytes) : Bool :=
  !keywords.isEmpty &&
    match parsePattern nodeActions pattern with
    | .ok tree => guaranteesKeyword u (keywords.map (toLowerUtf8 u)) tree
    | .error _ => false

end LlmGuard
