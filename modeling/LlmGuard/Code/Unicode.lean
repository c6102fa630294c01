import LlmGuard.Code.Env

/-! # `Unicode.hpp` -/

namespace LlmGuard

/-- `std::isspace` in the C locale. -/
def isSpace (b : Byte) : Bool := b = 32 || (9 ≤ b && b ≤ 13)

/-- `std::tolower` in the C locale. -/
def asciiToLower (b : Byte) : Byte := if ch 'A' ≤ b && b ≤ ch 'Z' then b + 32 else b

def asciiTrim (s : Bytes) : Bytes := ((s.dropWhile isSpace).reverse.dropWhile isSpace).reverse

def isAscii (s : Bytes) : Bool := s.all (· < 0x80)

/-- The loop of `to_lower_utf8`. The first argument counts the bytes of the last code point that are
still to be stepped over. -/
def toLowerLoop (u : Utf8proc) : Nat → Bytes → Bytes
  | _, [] => []
  | skip + 1, _ :: s => toLowerLoop u skip s
  | 0, b :: s =>
    match u.iterate (b :: s) with
    | none => b :: toLowerLoop u 0 s
    | some (codepoint, consumed) =>
      let written := u.encodeChar (u.tolower codepoint)
      (if written.isEmpty then (b :: s).take consumed else written) ++ toLowerLoop u (consumed - 1) s

def toLowerUtf8 (u : Utf8proc) (s : Bytes) : Bytes :=
  if isAscii s then s.map asciiToLower else toLowerLoop u 0 s

end LlmGuard
