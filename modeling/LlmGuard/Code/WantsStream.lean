import LlmGuard.Code.Json

/-!
# `wants_stream`

`Extract.hpp`: the top-level `stream` field, coerced to a `bool`.
-/

namespace LlmGuard.Extract

open Json (findValue decodeString)

/-- `std::tolower` in the C locale. -/
def asciiLower (b : Byte) : Byte := if ch 'A' ≤ b && b ≤ ch 'Z' then b + 32 else b

/-- The exponent of a JSON number, from behind its `e`. -/
def exponentVal (s : Bytes) : Int :=
  if s.head? = some (ch '-') then -(digitsVal (s.drop 1) : Int)
  else if s.head? = some (ch '+') then digitsVal (s.drop 1)
  else digitsVal s

/-- `std::strtod(s) != 0.0` of a JSON number: what is not above `2^-1075` is rounded to zero. -/
def strtodNonzero (raw : Bytes) : Bool :=
  let unsigned := if raw.head? = some (ch '-') then raw.drop 1 else raw
  let mantissa := unsigned.takeWhile fun b => b ≠ ch 'e' && b ≠ ch 'E'
  let whole := mantissa.takeWhile (· ≠ ch '.')
  let fraction := mantissa.drop (whole.length + 1)
  let digits := digitsVal (whole ++ fraction)
  let power := exponentVal (unsigned.drop (mantissa.length + 1)) - fraction.length
  if 0 ≤ power then digits ≠ 0 else 10 ^ (-power).toNat < digits * 2 ^ 1075

def truthy (raw : Bytes) : Bool :=
  if raw = [] then false
  else if raw = ascii "true" then true
  else if raw = ascii "false" then false
  else if raw.head? = some (ch '"') then
    let s := (decodeString raw).map asciiLower
    s = ascii "1" || s = ascii "t" || s = ascii "true"
  else if raw.head?.any fun b => b = ch '-' || isDigit b then strtodNonzero raw
  else false

def wantsStream (body : Bytes) : Bool :=
  match findValue body [.key (ascii "stream")] with
  | none => false
  | some span => truthy (slice body span.start span.stop)

end LlmGuard.Extract
