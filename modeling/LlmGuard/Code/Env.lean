import LlmGuard.Code.Rule

/-!
# What the program takes from outside

RE2, utf8proc, `std::sort`, `inet_pton`, the floating-point entropy and the number of CPUs. Each is a
parameter of the model. A theorem that needs a documented behaviour of one names it as a hypothesis.
-/

namespace LlmGuard

/-- `[start, stop)` in a text. -/
abbrev Span := Nat × Nat

/-- The answer of `RE2::Match`: the whole match, and capture groups 1, 2, ... A group that took no part
is `none`. -/
structure Submatches where
  whole : Span
  groups : List (Option Span)
deriving DecidableEq, Repr

/-- Slot `i` of the submatch vector. -/
def Submatches.get (m : Submatches) (i : Nat) : Option Span :=
  if i = 0 then some m.whole else (m.groups[i - 1]?).join

structure Re2 where
  /-- `ok()` after construction. -/
  ok : Regex → Bool
  error : Regex → Bytes
  numberOfCapturingGroups : Regex → Nat
  quoteMeta : Bytes → Bytes
  /-- `Match(text, pos, text.size(), UNANCHORED, ..)`. -/
  search : Regex → Bytes → Nat → Option Submatches

structure Utf8proc where
  /-- The code point at the front and its length in bytes. -/
  iterate : Bytes → Option (Nat × Nat)
  tolower : Nat → Nat
  /-- Empty when the code point has no encoding. -/
  encodeChar : Nat → Bytes

structure Env where
  re2 : Re2
  utf8proc : Utf8proc
  /-- The 16 bytes of `inet_pton(AF_INET6, ..)`. -/
  inetPton6 : Bytes → Option Bytes
  /-- `shannon_entropy(value) < bound`, in floating point. -/
  entropyBelow : Bytes → Rat → Bool
  /-- `std::sort` with `scan_match_less`. -/
  sortMatches : List ScanMatch → List ScanMatch
  hardwareConcurrency : Nat

end LlmGuard
