import LlmGuard.Code.Registry

/-!
# The containers of `Registry`

The rules in registration order, and two maps that know them by their place.
-/

namespace LlmGuard

/-- `class Registry`, with its three members. -/
structure Containers where
  rules : List CompiledRule
  byIdIndex : Bytes → Option Nat
  byDataType : DataType → Option (List Nat)

namespace Containers

def empty : Containers := ⟨[], fun _ => none, fun _ => none⟩

/-- `rules_[idx]`. The source does not check the bound. -/
def at? (reg : Containers) (idx : Nat) : Except Error CompiledRule :=
  match reg.rules[idx]? with
  | none => .error (.outOfRange (ascii "rules_"))
  | some cr => .ok cr

/-- The body of the loop of `build`, behind `compile_rule`. -/
def add (reg : Containers) (cr : CompiledRule) : Containers :=
  let idx := reg.rules.length
  { -- `emplace` keeps what stands under the key already.
    byIdIndex := fun id => if id = cr.rule.id then some ((reg.byIdIndex id).getD idx) else reg.byIdIndex id
    byDataType := fun dt =>
      if dt = cr.rule.dataType then some ((reg.byDataType dt).getD [] ++ [idx]) else reg.byDataType dt
    rules := reg.rules ++ [cr] }

def buildFrom (env : Env) (reg : Containers) : List Rule → Except RuleError Containers
  | [] => .ok reg
  | r :: rs =>
    if (reg.byIdIndex r.id).isSome then
      .error ⟨.duplicateId, ruleText r.id (ascii ": duplicate rule_id")⟩
    else
      match compileRule env r with
      | .error e => .error e
      | .ok cr => buildFrom env (reg.add cr) rs

def build (env : Env) (rules : List Rule) : Except RuleError Containers := buildFrom env empty rules

/-- `none` is `nullptr`. -/
def byId (reg : Containers) (id : Bytes) : Except Error (Option CompiledRule) :=
  match reg.byIdIndex id with
  | none => .ok none
  | some idx => (reg.at? idx).map some

def forDataTypes (reg : Containers) : List DataType → Except Error (List CompiledRule)
  | [] => .ok []
  | dt :: dts =>
    match reg.byDataType dt with
    | none => reg.forDataTypes dts
    | some idxs => do
      let here ← idxs.mapM reg.at?
      let out ← reg.forDataTypes dts
      .ok (here ++ out)

end Containers

end LlmGuard
