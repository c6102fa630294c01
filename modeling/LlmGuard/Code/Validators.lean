import LlmGuard.Code.Unicode

/-! # `Validators.hpp`: the checks that a rule can name -/

namespace LlmGuard

/-- `c - '0'` with a signed `char`. -/
def charDigit (b : Byte) : Int := (if b < 0x80 then (b.toNat : Int) else (b.toNat : Int) - 256) - 48

/-- `digits[i] - '0'` where every byte is known to be a digit. -/
def digitAt (digits : Bytes) (i : Nat) : Nat := (digits.getD i (ch '0')).toNat - 48

def digitChar (d : Nat) : Byte := (48 + d).toUInt8

def asciiUpperChar (b : Byte) : Byte := if ch 'a' ≤ b && b ≤ ch 'z' then b - 32 else b

def isUpper (b : Byte) : Bool := ch 'A' ≤ b && b ≤ ch 'Z'

def isLower (b : Byte) : Bool := ch 'a' ≤ b && b ≤ ch 'z'

def stripNonDigits (s : Bytes) : Bytes := s.filter isDigit

def banlisted (u : Utf8proc) (candidate : Bytes) (banlist : List Bytes) : Bool :=
  banlist.contains (toLowerUtf8 u candidate)

/-! ## Checksums -/

/-- A doubled digit with its own digits added. -/
def luhnDouble (d : Nat) : Nat := if 9 < d * 2 then d * 2 - 9 else d * 2

/-- The Luhn sum in which the digits at places of this parity are doubled. -/
def luhnWeighted (parity : Nat) (digits : Bytes) : Nat :=
  ((List.range digits.length).map fun i =>
    if i % 2 = parity then luhnDouble (digitAt digits i) else digitAt digits i).sum

def luhnSum (digits : Bytes) : Nat := luhnWeighted (digits.length % 2) digits

def luhnCheckDigit (pre : Bytes) : Byte :=
  digitChar ((10 - luhnWeighted ((pre.length + 1) % 2) pre % 10) % 10)

def allDigits (s : Bytes) : Bool := !s.isEmpty && s.all isDigit

def luhnValid (digits : Bytes) : Bool := allDigits digits && luhnSum digits % 10 == 0

/-- `sum += d(i) * weights[i]`. -/
def weightedSum (digits : Bytes) (weights : List Nat) : Nat :=
  ((List.range weights.length).map fun i => digitAt digits i * weights.getD i 0).sum

def snilsChecksum (nineDigits : Bytes) : Bytes :=
  if nineDigits.length ≠ 9 then ascii "00"
  else
    let checksum := weightedSum nineDigits [9, 8, 7, 6, 5, 4, 3, 2, 1] % 101
    let checksum := if 99 < checksum then 0 else checksum
    [digitChar (checksum / 10), digitChar (checksum % 10)]

def innPersonChecksums (tenDigits : Bytes) : Byte × Byte :=
  let v1 := weightedSum tenDigits [7, 2, 4, 10, 3, 5, 9, 4, 6, 8] % 11 % 10
  let digits := tenDigits.take 10 ++ [digitChar v1]
  let v2 := weightedSum digits [3, 7, 2, 4, 10, 3, 5, 9, 4, 6, 8] % 11 % 10
  (digitChar v1, digitChar v2)

def innOrgChecksum (nineDigits : Bytes) : Byte :=
  digitChar (weightedSum nineDigits [2, 4, 10, 3, 5, 9, 4, 6, 8] % 11 % 10)

def ogrnCheckDigit (twelveDigits : Bytes) : Byte := digitChar (digitsVal twelveDigits % 11 % 10)

def ogrnipCheckDigit (fourteenDigits : Bytes) : Byte :=
  digitChar (fourteenDigits.foldl (fun r b => (r * 10 + (b.toNat - 48)) % 13) 0 % 10)

def snilsValid (digits : Bytes) : Bool :=
  digits.length == 11 && digits.all isDigit && digits.drop 9 == snilsChecksum (digits.take 9)

def innPersonValid (digits : Bytes) : Bool :=
  digits.length == 12 && digits.all isDigit &&
    (let (c1, c2) := innPersonChecksums (digits.take 10); digits.drop 10 == [c1, c2])

def innOrgValid (digits : Bytes) : Bool :=
  digits.length == 10 && digits.all isDigit && digits.drop 9 == [innOrgChecksum (digits.take 9)]

def ogrnValid (digits : Bytes) : Bool :=
  digits.length == 13 && digits.all isDigit && digits.drop 12 == [ogrnCheckDigit (digits.take 12)]

def ogrnipValid (digits : Bytes) : Bool :=
  digits.length == 15 && digits.all isDigit && digits.drop 14 == [ogrnipCheckDigit (digits.take 14)]

/-- C++ `%` rounds towards zero. -/
def mod97DecimalString (s : Bytes) : Int :=
  s.foldl (fun r b => (r * 10 + charDigit b).tmod 97) 0

/-- Letters as 10..35, every other byte as it is. -/
def ibanNumber (s : Bytes) : Bytes :=
  s.flatMap fun b => if isUpper b then decimal (b.toNat - 65 + 10) else [b]

def ibanMod97 (countryCode bban : Bytes) : Bytes :=
  let rearranged := (bban ++ countryCode ++ ascii "00").map asciiUpperChar
  let check := (98 - mod97DecimalString (ibanNumber rearranged)).toNat
  [digitChar (check / 10), digitChar (check % 10)]

def ibanValid (ibanIn : Bytes) : Bool :=
  let iban := (ibanIn.filter (· ≠ ch ' ')).map asciiUpperChar
  4 ≤ iban.length && mod97DecimalString (ibanNumber (iban.drop 4 ++ iban.take 4)) == 1

/-! ## Formats -/

def isAsciiLocalPartChar (b : Byte) : Bool :=
  isLower b || isUpper b || isDigit b || (ascii "!#$%&'*+-/=?^_`\x7b|\x7d~").contains b

def isAsciiDomainChar (b : Byte) : Bool := isLower b || isUpper b || isDigit b || b = ch '-'

def isAlpha (s : Bytes) : Bool := !s.isEmpty && s.all fun b => isLower b || isUpper b

def splitDot (s : Bytes) : List Bytes := s.splitOn (ch '.')

def emailAsciiValid (candidate : Bytes) : Bool :=
  let s := asciiTrim candidate
  let local_ := s.takeWhile (· ≠ ch '@')
  let domain := s.drop (local_.length + 1)
  let labels := splitDot domain
  !s.isEmpty && s.length ≤ 254 && s.contains (ch '@') &&
  !local_.isEmpty && !domain.isEmpty &&
  !contains local_ (ascii "..") && local_.head? ≠ some (ch '.') && local_.getLast? ≠ some (ch '.') &&
  local_.length ≤ 64 && domain.length ≤ 253 &&
  (splitDot local_).all (fun part => !part.isEmpty && part.all isAsciiLocalPartChar) &&
  2 ≤ labels.length &&
  labels.all (fun label => !label.isEmpty && label.length ≤ 63 && label.head? ≠ some (ch '-') &&
    label.getLast? ≠ some (ch '-') && label.all isAsciiDomainChar) &&
  (labels.getLast?.map isAlpha).getD true

def hasPrefixDigits (s pre : Bytes) : Bool := pre.isPrefixOf s

def prefixInRange (s : Bytes) (prefixLen lo hi : Nat) : Bool :=
  prefixLen ≤ s.length && (s.take prefixLen).all isDigit &&
    (let n := digitsVal (s.take prefixLen); lo ≤ n && n ≤ hi)

def paymentCardShape (digits : Bytes) : Bool :=
  let n := digits.length
  if !allDigits digits || n < 13 || 19 < n then false
  else if hasPrefixDigits digits (ascii "4") then n == 13 || n == 16 || n == 19
  else if hasPrefixDigits digits (ascii "34") || hasPrefixDigits digits (ascii "37") then n == 15
  else if prefixInRange digits 2 51 55 || prefixInRange digits 4 2221 2720 then n == 16
  else if hasPrefixDigits digits (ascii "6011") || prefixInRange digits 3 644 649 ||
      hasPrefixDigits digits (ascii "65") then 16 ≤ n && n ≤ 19
  else if hasPrefixDigits digits (ascii "62") then 16 ≤ n && n ≤ 19
  else if prefixInRange digits 4 2200 2204 then 16 ≤ n && n ≤ 19
  else false

def paymentCardValid (digits : Bytes) : Bool := paymentCardShape digits && luhnValid digits

/-- The low bits of a continuation byte. -/
def cont (s : Bytes) (idx : Nat) : Option Nat :=
  match s[idx]? with
  | none => none
  | some c => if c &&& 0xC0 = 0x80 then some (c &&& 0x3F).toNat else none

/-- `detail::decode_utf8`: the code point at `i` and its length. A broken sequence is U+FFFD of
length 1. -/
def decodeUtf8 (s : Bytes) (i : Nat) : Nat × Nat :=
  let c0 := s.getD i 0
  if c0 &&& 0x80 = 0 then (c0.toNat, 1)
  else if c0 &&& 0xE0 = 0xC0 then
    match cont s (i + 1) with
    | none => (0xFFFD, 1)
    | some c1 =>
      let cp := (c0 &&& 0x1F).toNat * 64 + c1
      if cp < 0x80 then (0xFFFD, 1) else (cp, 2)
  else if c0 &&& 0xF0 = 0xE0 then
    match cont s (i + 1), cont s (i + 2) with
    | some c1, some c2 =>
      let cp := (c0 &&& 0x0F).toNat * 4096 + c1 * 64 + c2
      if cp < 0x800 || (0xD800 ≤ cp && cp ≤ 0xDFFF) then (0xFFFD, 1) else (cp, 3)
    | _, _ => (0xFFFD, 1)
  else if c0 &&& 0xF8 = 0xF0 then
    match cont s (i + 1), cont s (i + 2), cont s (i + 3) with
    | some c1, some c2, some c3 =>
      let cp := (c0 &&& 0x07).toNat * 262144 + c1 * 4096 + c2 * 64 + c3
      if cp < 0x10000 || 0x10FFFF < cp then (0xFFFD, 1) else (cp, 4)
    | _, _, _ => (0xFFFD, 1)
  else (0xFFFD, 1)

/-! ## IP addresses -/

inductive ParsedIp where
  | v4 (bytes : Bytes)
  | v6 (bytes : Bytes)
deriving DecidableEq, Repr

def parseOctet (octet : Bytes) : Option Byte :=
  if octet.isEmpty || 3 < octet.length then none
  else if 1 < octet.length && octet.head? = some (ch '0') then none
  else if !octet.all isDigit then none
  else if 255 < digitsVal octet then none
  else some (digitsVal octet).toUInt8

/-- Three octets that end at a dot, then one that runs to the end and holds no dot. -/
def tryParseV4 (s : Bytes) : Option Bytes :=
  match splitDot s with
  | [a, b, c, d] => do
    let b0 ← parseOctet a
    let b1 ← parseOctet b
    let b2 ← parseOctet c
    let b3 ← parseOctet d
    return [b0, b1, b2, b3]
  | _ => none

def isV4MappedV6 (b : Bytes) : Bool := (b.take 10).all (· = 0) && (b.drop 10).take 2 == [0xFF, 0xFF]

def parseV6 (env : Env) (s : Bytes) : Option ParsedIp :=
  (env.inetPton6 s).map fun v6 => if isV4MappedV6 v6 then .v4 (v6.drop 12) else .v6 v6

/-- `bits` is 129 as soon as it passes 128. -/
def prefixBits (s : Bytes) : Nat := min 129 (digitsVal s)

def isBracket (b : Byte) : Bool := b = ch '[' || b = ch ']'

def parseIpCandidate (env : Env) (candidate : Bytes) : Option ParsedIp :=
  let s := asciiTrim candidate
  if s.isEmpty then none
  else if s.contains (ch '%') then none
  else if s.contains (ch '/') then
    let addrPart := s.takeWhile (· ≠ ch '/')
    let prefixPart := s.drop (addrPart.length + 1)
    if !allDigits prefixPart then none
    else
      match tryParseV4 addrPart with
      | some v4 => if 32 < prefixBits prefixPart then none else some (.v4 v4)
      | none => if 128 < prefixBits prefixPart then none else parseV6 env addrPart
  else
    let trimmed := ((s.dropWhile isBracket).reverse.dropWhile isBracket).reverse
    match tryParseV4 trimmed with
    | some v4 => some (.v4 v4)
    | none => parseV6 env trimmed

def isPrivateOrLocal : ParsedIp → Bool
  | .v4 b =>
    let b0 := b.getD 0 0
    let b1 := b.getD 1 0
    (b0 = 10 || (b0 = 172 && b1 &&& 0xF0 = 16) || (b0 = 192 && b1 = 168)) || b0 = 127 ||
      b0 &&& 0xF0 = 0xE0 || (b0 = 169 && b1 = 254) || b.all (· = 0)
  | .v6 b =>
    let b0 := b.getD 0 0
    b0 &&& 0xFE = 0xFC || ((b.take 15).all (· = 0) && b.drop 15 == [1]) || b0 = 0xFF ||
      (b0 = 0xFE && b.getD 1 0 &&& 0xC0 = 0x80) || b.all (· = 0)

def ipV4 (env : Env) (value : Bytes) : Bool :=
  match parseIpCandidate env value with
  | some (.v4 _) => true
  | _ => false

def ipV6 (env : Env) (value : Bytes) : Bool :=
  match parseIpCandidate env value with
  | some (.v6 _) => true
  | _ => false

def ipPublic (env : Env) (value : Bytes) : Bool :=
  match parseIpCandidate env value with
  | some p => !isPrivateOrLocal p
  | none => false

def ipPrivate (env : Env) (value : Bytes) : Bool :=
  match parseIpCandidate env value with
  | some p => isPrivateOrLocal p
  | none => false

/-! ## Dispatch -/

/-- The answer of the validator of this name, or `none` for a name that no branch knows. -/
def runValidator (env : Env) (value : Bytes) (rule : Rule) (validator : Bytes) : Option Bool :=
  let digits := stripNonDigits value
  if validator = ascii "luhn" then some (luhnValid digits)
  else if validator = ascii "snils" then some (snilsValid digits)
  else if validator = ascii "inn_person" then some (innPersonValid digits)
  else if validator = ascii "inn_org" then some (innOrgValid digits)
  else if validator = ascii "ogrn" then some (ogrnValid digits)
  else if validator = ascii "ogrnip" then some (ogrnipValid digits)
  else if validator = ascii "iban_mod97" then some (ibanValid value)
  else if validator = ascii "email_ascii" then some (emailAsciiValid value)
  else if validator = ascii "payment_card" then some (paymentCardValid digits)
  else if validator = ascii "payment_card_no_luhn" then some (paymentCardShape digits)
  else if validator = ascii "entropy" then some (!(0 < rule.entropy && env.entropyBelow value rule.entropy))
  else if validator = ascii "banlist" then some (!banlisted env.utf8proc value rule.banlist)
  else if validator = ascii "ip_v4" then some (ipV4 env value)
  else if validator = ascii "ip_v6" then some (ipV6 env value)
  else if validator = ascii "ip_public" then some (ipPublic env value)
  else if validator = ascii "ip_private" then some (ipPrivate env value)
  else none

def knownValidators : List Bytes :=
  [ascii "luhn", ascii "snils", ascii "inn_person", ascii "inn_org", ascii "ogrn", ascii "ogrnip",
    ascii "iban_mod97", ascii "email_ascii", ascii "payment_card", ascii "payment_card_no_luhn",
    ascii "entropy", ascii "banlist", ascii "ip_v4", ascii "ip_v6", ascii "ip_public", ascii "ip_private"]

def isKnownValidator (name : Bytes) : Bool := knownValidators.contains name

def passesValidators (env : Env) (value : Bytes) (rule : Rule) : Bool :=
  rule.validators.all fun validator => (runValidator env value rule validator).getD false

end LlmGuard
