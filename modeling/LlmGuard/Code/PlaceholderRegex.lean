import LlmGuard.Code.Env
import LlmGuard.Code.PatternParser

/-! # `PlaceholderRegex.hpp` -/

namespace LlmGuard

def kUtf8Max : Nat := 4

/-! ## Saturating arithmetic -/

def satAdd (a b : Nat) : Nat := if sizeMax - b < a then sizeMax else a + b

def satMul (a b : Nat) : Nat :=
  if a = 0 ∨ b = 0 then 0 else if sizeMax / b < a then sizeMax else a * b

/-! ## `BoundedLengthParser` -/

def isWideFoldLetter (c : Byte) : Bool := c = ch 's' || c = ch 'S' || c = ch 'k' || c = ch 'K'

/-- `consume_rune_len`, for a rune that was consumed. -/
def runeLen (rune : Bytes) (fold : Bool) : Nat :=
  match rune with
  | [c] => if fold && isWideFoldLetter c then 3 else 1
  | _ => rune.length

def parseRepeatCount (digits : Bytes) : Nat :=
  digits.foldl (fun v c => satAdd (satMul v 10) (c.toNat - 48)) 0

def repeatLen (len : Nat) : Nat := if len = 0 then 0 else sizeMax

def quantifiedLen (len : Nat) : Quantifier → Nat
  | .star => repeatLen len
  | .plus => repeatLen len
  | .quest => len
  | .braces min none => satMul (parseRepeatCount min) len
  | .braces _ (some max) => if max.isEmpty then repeatLen len else satMul (parseRepeatCount max) len

/-- `parse_escape` at the byte `c` behind the backslash. -/
def escapeLen (fold : Bool) (c : Byte) (s : Bytes) : Except ParseFailure (Nat × Bytes) :=
  if c = ch 'd' || c = ch 's' || c = ch 'w' then .ok (1, s)
  else if c = ch 'D' || c = ch 'S' || c = ch 'W' then .ok (kUtf8Max, s)
  else if c = ch 'b' || c = ch 'B' || c = ch 'A' || c = ch 'z' || c = ch 'Z' then .ok (0, s)
  else if c = ch 'n' || c = ch 't' || c = ch 'r' || c = ch 'f' || c = ch 'v' || c = ch 'a' then .ok (1, s)
  else if c = ch 'p' || c = ch 'P' then .error .refused
  else if c = ch 'x' || (ch '0' ≤ c && c ≤ ch '7') then .error .refused
  else
    let (rune, s) := consumeRune c s
    .ok (runeLen rune fold, s)

def lengthActions : Actions Nat where
  literal := runeLen
  anchor := 0
  dot := kUtf8Max
  charClass negated members := if negated then kUtf8Max else members.foldl max 0
  escape := escapeLen
  flagSetter := 0
  capture len := len
  quantified q len := quantifiedLen len q
  concat pieces := pieces.foldl (fun total piece => satAdd total piece.1) 0
  alternation first more := more.foldl max first

/-- `bounded_length`. -/
def regexMaxLen (pattern : Bytes) : Nat :=
  match parsePattern lengthActions pattern with
  | .ok len => len
  | .error _ => sizeMax

/-! ## The recogniser of a placeholder -/

/-- The non-empty fields between underscores, with the bytes of the current one. -/
def splitFields : Bytes → Bytes → List Bytes
  | current, [] => if current.isEmpty then [] else [current]
  | current, c :: s =>
    if c = ch '_' then
      if current.isEmpty then splitFields [] s else current :: splitFields [] s
    else splitFields (current ++ [c]) s

def splitOnUnderscore (name : Bytes) : List Bytes :=
  let tokens := splitFields [] name
  if tokens.isEmpty then [name] else tokens

def buildPlaceholderPatternString (re2 : Re2) (placeholderName : Bytes) : Bytes :=
  let sep := ascii "[\\s_-]\x7b0,3\x7d"
  ascii "(?i)<\\s\x7b0,3\x7d" ++ sep.intercalate ((splitOnUnderscore placeholderName).map re2.quoteMeta) ++
    sep ++ ascii "([0-9]\x7b1,9\x7d)\\s\x7b0,3\x7d>"

structure PlaceholderPattern where
  pattern : Bytes
  maxLen : Nat
deriving DecidableEq, Repr

end LlmGuard
