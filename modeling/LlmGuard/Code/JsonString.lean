import LlmGuard.Code.Rule

/-! # String literals of `json/Json.hpp` -/

namespace LlmGuard.Json

def hexValue (c : Byte) : Option Nat :=
  if ch '0' ≤ c && c ≤ ch '9' then some (c.toNat - 48)
  else if ch 'a' ≤ c && c ≤ ch 'f' then some (c.toNat - 97 + 10)
  else if ch 'A' ≤ c && c ≤ ch 'F' then some (c.toNat - 65 + 10)
  else none

/-- The four hex digits at the front. -/
def readHex4 : Bytes → Option Nat
  | a :: b :: c :: d :: _ => do
    let a ← hexValue a
    let b ← hexValue b
    let c ← hexValue c
    let d ← hexValue d
    some (((a * 16 + b) * 16 + c) * 16 + d)
  | _ => none

def byteOf (n : Nat) : Byte := n.toUInt8

def appendUtf8 (cp : Nat) : Bytes :=
  if cp ≤ 0x7F then [byteOf cp]
  else if cp ≤ 0x7FF then [byteOf (0xC0 + cp / 64), byteOf (0x80 + cp % 64)]
  else if cp ≤ 0xFFFF then
    [byteOf (0xE0 + cp / 4096), byteOf (0x80 + cp / 64 % 64), byteOf (0x80 + cp % 64)]
  else
    [byteOf (0xF0 + cp / 262144), byteOf (0x80 + cp / 4096 % 64), byteOf (0x80 + cp / 64 % 64),
      byteOf (0x80 + cp % 64)]

/-! ## `decode_string` -/

def replacementChar : Nat := 0xFFFD

/-- What follows `\u`: the decoded bytes, and how many bytes after the `u` were consumed. -/
def decodeUnicode (s : Bytes) : Bytes × Nat :=
  match readHex4 s with
  | none => (appendUtf8 replacementChar, 0)
  | some r =>
    if 0xD800 ≤ r && r ≤ 0xDBFF then
      match s.drop 4 with
      | b :: u :: s' =>
        if b = ch '\\' && u = ch 'u' then
          match readHex4 s' with
          | some h2 =>
            if 0xDC00 ≤ h2 && h2 ≤ 0xDFFF then
              (appendUtf8 (0x10000 + (r - 0xD800) * 1024 + (h2 - 0xDC00)), 10)
            else (appendUtf8 replacementChar, 4)
          | none => (appendUtf8 replacementChar, 4)
        else (appendUtf8 replacementChar, 4)
      | _ => (appendUtf8 replacementChar, 4)
    else if 0xDC00 ≤ r && r ≤ 0xDFFF then (appendUtf8 replacementChar, 4)
    else (appendUtf8 r, 4)

/-- What follows a backslash: the decoded bytes, and how many bytes after the backslash were consumed. -/
def decodeEscape : Bytes → Bytes × Nat
  | [] => ([], 0)
  | e :: s =>
    if e = ch '"' then ([ch '"'], 1)
    else if e = ch '\\' then ([ch '\\'], 1)
    else if e = ch '/' then ([ch '/'], 1)
    else if e = ch 'b' then ([8], 1)
    else if e = ch 'f' then ([12], 1)
    else if e = ch 'n' then ([10], 1)
    else if e = ch 'r' then ([13], 1)
    else if e = ch 't' then ([9], 1)
    else if e = ch 'u' then
      let (out, n) := decodeUnicode s
      (out, n + 1)
    else ([e], 1)

/-- The loop over the body. The first argument counts the consumed bytes still to step over. -/
def decodeBody : Nat → Bytes → Bytes
  | _, [] => []
  | skip + 1, _ :: s => decodeBody skip s
  | 0, c :: s =>
    if c = ch '\\' then
      let (out, n) := decodeEscape s
      out ++ decodeBody n s
    else c :: decodeBody 0 s

def decodeString (quoted : Bytes) : Bytes :=
  if quoted.length < 2 || quoted.head? ≠ some (ch '"') || quoted.getLast? ≠ some (ch '"') then quoted
  else decodeBody 0 (quoted.drop 1).dropLast

/-! ## `encode_string` -/

def hexDigit (n : Nat) : Byte := if n < 10 then byteOf (48 + n) else byteOf (87 + n)

/-- U+2028 or U+2029 at the front, as its escape. -/
def lineSeparator : Bytes → Option Bytes
  | a :: b :: c :: _ =>
    if a = 0xE2 && b = 0x80 && c = 0xA8 then some (ascii "\\u2028")
    else if a = 0xE2 && b = 0x80 && c = 0xA9 then some (ascii "\\u2029")
    else none
  | _ => none

/-- The escape of the bytes at the front, and how many bytes it stands for. -/
def encodeFront (c : Byte) (s : Bytes) : Bytes × Nat :=
  if c = ch '"' then (ascii "\\\"", 1)
  else if c = ch '\\' then (ascii "\\\\", 1)
  else if c = 8 then (ascii "\\b", 1)
  else if c = 12 then (ascii "\\f", 1)
  else if c = 10 then (ascii "\\n", 1)
  else if c = 13 then (ascii "\\r", 1)
  else if c = 9 then (ascii "\\t", 1)
  else if c < 0x20 then (ascii "\\u00" ++ [hexDigit (c.toNat / 16), hexDigit (c.toNat % 16)], 1)
  else
    match lineSeparator (c :: s) with
    | some e => (e, 3)
    | none => ([c], 1)

/-- The loop over the bytes. The first argument counts the consumed bytes still to step over. -/
def encodeBody : Nat → Bytes → Bytes
  | _, [] => []
  | skip + 1, _ :: s => encodeBody skip s
  | 0, c :: s =>
    let (out, n) := encodeFront c s
    out ++ encodeBody (n - 1) s

def encodeString (raw : Bytes) (withQuotes : Bool) : Bytes :=
  if withQuotes then ch '"' :: encodeBody 0 raw ++ [ch '"'] else encodeBody 0 raw

end LlmGuard.Json
