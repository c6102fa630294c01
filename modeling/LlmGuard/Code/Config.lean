import LlmGuard.Code.Sse
import LlmGuard.Code.Unicode

/-!
# `AppConfig`

`Config.hpp`: placeholders in the file, dotted keys, and settings that the environment overrides. What nlohmann::json
reads from the file, and what it gives of a value, are parameters.
-/

namespace LlmGuard.Config

open Sse (find)

/-- A process environment. -/
abbrev Environment := Bytes → Option Bytes

/-- `std::getenv` of `name.c_str()`, which ends at the first NUL. -/
def getenv (environ : Environment) (name : Bytes) : Option Bytes := environ (name.takeWhile (· ≠ 0))

/-! ## `expand_string` -/

/-- The variable and the default of `${expr}`. -/
def splitExpr (expr : Bytes) : Bytes × Option Bytes :=
  match find (ascii ":-") expr with
  | some sep => (expr.take sep, some (expr.drop (sep + 2)))
  | none => (expr, none)

/-- An unset variable without a default is dropped. -/
def expandVariable (environ : Environment) (varName : Bytes) (defaultValue : Option Bytes) : Bytes :=
  match if varName = [] then none else getenv environ varName with
  | some envValue => envValue
  | none => defaultValue.getD []

def expandString (environ : Environment) : Bytes → Bytes
  | [] => []
  | b :: s =>
    if b = ch '$' ∧ s.head? = some (ch '\x7b') then
      match find [ch '\x7d'] (s.drop 1) with
      | none => b :: s
      | some n =>
        let expr := splitExpr ((s.drop 1).take n)
        expandVariable environ expr.1 expr.2 ++ expandString environ (s.drop (n + 2))
    else b :: expandString environ s
termination_by s => s.length
decreasing_by
  · simp only [List.length_drop, List.length_cons]
    omega
  · exact Nat.lt_succ_self _

/-! ## The document -/

/-- A value of nlohmann::json. A number stands as the file has it. -/
inductive Json
  | null
  | boolean (value : Bool)
  | number (literal : Bytes)
  | string (value : Bytes)
  | array (elements : List Json)
  | object (members : List (Bytes × Json))

/-- What nlohmann::json finds in a value, `none` where it throws. -/
structure Nlohmann where
  /-- `at` of a key. -/
  atKey : Bytes → Json → Option Json
  getString : Json → Option Bytes
  getInt : Json → Option Int
  getLong : Json → Option Int
  getBool : Json → Option Bool

mutual

def substituteEnvPlaceholders (environ : Environment) : Json → Json
  | .string raw => .string (if (find (ascii "$\x7b") raw).isSome then expandString environ raw else raw)
  | .object members => .object (substituteMembers environ members)
  | .array elements => .array (substituteElements environ elements)
  | node => node

def substituteElements (environ : Environment) : List Json → List Json
  | [] => []
  | node :: elements => substituteEnvPlaceholders environ node :: substituteElements environ elements

def substituteMembers (environ : Environment) : List (Bytes × Json) → List (Bytes × Json)
  | [] => []
  | (key, node) :: members => (key, substituteEnvPlaceholders environ node) :: substituteMembers environ members

end

/-- The loop of `get_nested_value`. -/
def nestedValue (json : Nlohmann) (current : Json) (key : Bytes) : Option Json :=
  match _h : find [ch '.'] key with
  | some pos =>
    match json.atKey (key.take pos) current with
    | some next => nestedValue json next (key.drop (pos + 1))
    | none => none
  | none => json.atKey key current
termination_by key.length
decreasing_by
  cases key with
  | nil => simp [find] at _h
  | cons b s =>
    simp only [List.length_drop, List.length_cons]
    omega

/-! ## The types of settings -/

inductive ConfigError
  | invalidArgument (what : Bytes)
  | outOfRange (what : Bytes)
  | runtimeError (what : Bytes)
deriving DecidableEq, Repr

/-- `std::stoi` and `std::stol`: blanks, a sign and digits, with anything behind them. -/
def stoi (what : Bytes) (bits : Nat) (value : Bytes) : Except ConfigError Int :=
  let s := value.dropWhile isSpace
  let negative := s.head? = some (ch '-')
  let digits := (if s.head? = some (ch '-') ∨ s.head? = some (ch '+') then s.drop 1 else s).takeWhile isDigit
  let n : Int := if negative then -digitsVal digits else digitsVal digits
  if digits = [] then .error (.invalidArgument what)
  else if n < -2 ^ (bits - 1) ∨ 2 ^ (bits - 1) ≤ n then .error (.outOfRange what)
  else .ok n

/-- `parse_env_value<T>` and `json::get<T>`. -/
structure Kind (T : Type) where
  parseEnv : Bytes → Except ConfigError T
  fromJson : Json → Option T

namespace Kind

variable (json : Nlohmann)

def string : Kind Bytes where
  parseEnv := .ok
  fromJson := json.getString

def int : Kind Int where
  parseEnv := stoi (ascii "stoi") 32
  fromJson := json.getInt

def long : Kind Int where
  parseEnv := stoi (ascii "stol") 64
  fromJson := json.getLong

def bool : Kind Bool where
  parseEnv value := .ok (value == ascii "true" || value == ascii "1" || value == ascii "yes")
  fromJson := json.getBool

end Kind

/-! ## Settings -/

structure AppConfig where
  configData : Json

/-- `load_from_file`, where the file is opened and parsed. `reload` is the same again. -/
def AppConfig.load (environ : Environment) (file : Json) : AppConfig := ⟨substituteEnvPlaceholders environ file⟩

namespace AppConfig

variable {T : Type} (json : Nlohmann) (config : AppConfig) (environ : Environment) (kind : Kind T) (key envVar : Bytes)

def getNestedValue : Option T := (nestedValue json config.configData key).bind kind.fromJson

/-- `none` without a name. -/
def override : Option Bytes := if envVar = [] then none else getenv environ envVar

def get (defaultValue : T) : Except ConfigError T :=
  match override environ envVar with
  | some envValue => kind.parseEnv envValue
  | none => .ok ((config.getNestedValue json kind key).getD defaultValue)

def require : Except ConfigError T :=
  match override environ envVar with
  | some envValue => kind.parseEnv envValue
  | none =>
    match config.getNestedValue json kind key with
    | some value => .ok value
    | none => .error (.runtimeError (ascii "Required configuration missing: key='" ++ key ++ ascii "' env='" ++ envVar ++
        ascii "'"))

def getOptional : Option T := config.getNestedValue json kind key

end AppConfig

end LlmGuard.Config
