import LlmGuard.Spec.Bytes
import Mathlib.Data.Rat.Defs

/-!
# Rules, matches and masking results

The records of `Rule.hpp`, `Registry.hpp`, `Scanner.hpp`, `MaskingState.hpp` and `Errors.hpp`, with
the fields that the modelled functions read or write.
-/

namespace LlmGuard

/-- An exception that leaves a modelled function. -/
inductive Error where
  | runtimeError (what : Bytes)
  | outOfRange (what : Bytes)
  /-- A loop of the model ran out of fuel. The source has no such error. -/
  | stuck
deriving DecidableEq, Repr

inductive DataType where
  | unspecified
  | credentials
  | apiKeys
  | accessTokens
  | ipAddresses
  | personalData
  | custom
deriving DecidableEq, Repr

def DataType.toNat : DataType → Nat
  | .unspecified => 0
  | .credentials => 1
  | .apiKeys => 2
  | .accessTokens => 3
  | .ipAddresses => 4
  | .personalData => 5
  | .custom => 6

theorem DataType.toNat_injective : Function.Injective DataType.toNat := by
  intro a b h
  cases a <;> cases b <;> first | rfl | simp [DataType.toNat] at h

structure Masking where
  /-- 1-based. Empty means the full match. -/
  captureGroups : List Int
  placeholder : Bytes
deriving DecidableEq, Repr

structure Rule where
  id : Bytes
  dataType : DataType
  regex : Bytes
  keywords : List Bytes
  validators : List Bytes
  minLength : Nat
  /-- A `double`, as the rational number that it stands for. -/
  entropy : Rat
  banlist : List Bytes
  masking : Masking
deriving DecidableEq, Repr

/-- A compiled RE2, known by the pattern that it was built from. -/
abbrev Regex := Bytes

structure CompiledRule where
  rule : Rule
  re : Option Regex
  placeholderRe : Option Regex
  placeholderLen : Nat
  prefilterEligible : Bool
  prefilterKeywords : List Bytes
deriving DecidableEq, Repr

/-- An immutable snapshot. `build` refuses a second rule with the same id. -/
structure Registry where
  rules : List CompiledRule
  distinct : (rules.map (·.rule.id)).Nodup

def Registry.byId (reg : Registry) (id : Bytes) : Option CompiledRule :=
  reg.rules.find? fun cr => cr.rule.id = id

/-- `[start, stop)` in a scanned text. The rule is a pointer, so it can be null. -/
structure ScanMatch where
  start : Nat
  stop : Nat
  rule : Option CompiledRule
deriving DecidableEq, Repr

structure Replacement where
  ruleId : Bytes
  dataType : DataType
  original : Bytes
  placeholder : Bytes
deriving DecidableEq, Repr

structure MaskingState where
  triggeredRuleIds : List Bytes
  triggeredDataTypes : List DataType
  replacements : List Replacement
deriving DecidableEq, Repr

theorem bind_eq_ok {ε α β : Type} {x : Except ε α} {f : α → Except ε β} {b : β} :
    (x >>= f) = .ok b ↔ ∃ a, x = .ok a ∧ f a = .ok b := by
  cases x with
  | error e => simp [bind, Except.bind]
  | ok a => simp [bind, Except.bind]

/-- `substr(pos, n)`: throws past the end, and cuts `n` short at the end. -/
def substr (s : Bytes) (pos n : Nat) : Except Error Bytes :=
  if s.length < pos then .error (.outOfRange (ascii "basic_string_view::substr"))
  else .ok ((s.drop pos).take n)

/-- `a - b` in `size_t`. -/
def sizeSub (a b : Nat) : Nat := if b ≤ a then a - b else sizeMax + 1 + a - b

theorem substr_ok (s : Bytes) (pos n : Nat) (h : pos ≤ s.length) :
    substr s pos n = .ok ((s.drop pos).take n) := by
  rw [substr, if_neg (by omega)]

theorem substr_slice (s : Bytes) (i j : Nat) (hij : i ≤ j) (hj : j ≤ s.length) :
    substr s i (sizeSub j i) = .ok (slice s i j) := by
  rw [substr_ok s i _ (by omega), sizeSub, if_pos hij, slice]

end LlmGuard
