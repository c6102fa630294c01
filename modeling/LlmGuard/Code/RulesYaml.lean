import LlmGuard.Code.Registry

/-!
# Loading rule catalogs

`RulesYaml.hpp`. yaml-cpp and the files are a parameter: what `LoadFile` gives, and what a node is read as.
-/

namespace LlmGuard.RulesYaml

/-- yaml-cpp. A `YAML::Exception` is known by its text. -/
structure YamlCpp (Node : Type) where
  loadFile : Bytes → Except Bytes Node
  /-- `node[key]`, where `none` is a node that is not defined. -/
  get : Node → Bytes → Except Bytes (Option Node)
  /-- The elements, if `IsSequence()`. -/
  sequence : Node → Option (List Node)
  asInt : Node → Except Bytes Int
  asSize : Node → Except Bytes Nat
  asDouble : Node → Except Bytes Rat
  asBool : Node → Except Bytes Bool
  asString : Node → Except Bytes Bytes
  asStrings : Node → Except Bytes (List Bytes)
  asInts : Node → Except Bytes (List Int)

inductive LoadError
  /-- `RuleError::Code::ParseError`. -/
  | parseError (what : Bytes)
  /-- `RuleError::Code::DuplicateId`. -/
  | duplicateId (what : Bytes)
  /-- A `YAML::Exception` that the loader does not catch. -/
  | yaml (what : Bytes)
deriving DecidableEq, Repr

/-- A group of a catalog. The cast to `DataType` is not checked, so any `int` may stand there. -/
structure DataTypeGroup where
  dataType : Int
  priority : Int
  name : Bytes
  displayName : Bytes
  description : Bytes
deriving DecidableEq, Repr

/-- A rule as it is loaded. -/
structure CatalogRule where
  id : Bytes
  name : Bytes
  group : Bytes
  dataType : Int
  regex : Bytes
  keywords : List Bytes
  validators : List Bytes
  minLength : Nat
  entropy : Rat
  banlist : List Bytes
  defaultOn : Bool
  masking : Masking
deriving DecidableEq, Repr

structure LoadedRules where
  groups : List DataTypeGroup
  rules : List CatalogRule
deriving DecidableEq, Repr

def LoadedRules.append (loaded loaded' : LoadedRules) : LoadedRules :=
  ⟨loaded.groups ++ loaded'.groups, loaded.rules ++ loaded'.rules⟩

section

variable {Node : Type} (yaml : YamlCpp Node) (u : Utf8proc)

def lowerAllUtf8 (values : List Bytes) : List Bytes := values.map (toLowerUtf8 u)

/-- `if (node[key]) field = node[key].as<T>();` -/
def field {T : Type} (as : Node → Except Bytes T) (node : Node) (key : Bytes) (default : T) : Except Bytes T :=
  match yaml.get node key with
  | .error e => .error e
  | .ok none => .ok default
  | .ok (some value) => as value

/-- The group and the data type come later. -/
def ruleFields (node : Node) : Except Bytes CatalogRule := do
  let id ← field yaml yaml.asString node (ascii "rule_id") []
  let name ← field yaml yaml.asString node (ascii "name") []
  let regex ← field yaml yaml.asString node (ascii "regex") []
  let keywords ← field yaml yaml.asStrings node (ascii "keywords") []
  let validators ← field yaml yaml.asStrings node (ascii "validators") []
  let minLength ← field yaml yaml.asSize node (ascii "min_length") 0
  let entropy ← field yaml yaml.asDouble node (ascii "entropy") 0
  let banlist ← field yaml yaml.asStrings node (ascii "banlist") []
  let defaultOn ← field yaml yaml.asBool node (ascii "default_on") true
  let masking ←
    match yaml.get node (ascii "masking") with
    | .error e => .error e
    | .ok none => .ok ⟨[], []⟩
    | .ok (some m) => do
      let captureGroups ← field yaml yaml.asInts m (ascii "capture_groups") []
      let placeholder ← field yaml yaml.asString m (ascii "placeholder") []
      .ok ⟨captureGroups, placeholder⟩
  .ok ⟨id, name, [], 0, regex, lowerAllUtf8 u keywords, validators, minLength, entropy, lowerAllUtf8 u banlist, defaultOn,
    masking⟩

def parseRule (path : Bytes) (node : Node) : Except LoadError CatalogRule :=
  (ruleFields yaml u node).mapError fun e => .parseError (ascii "parse rule in " ++ path ++ ascii ": " ++ e)

def groupFields (node : Node) : Except Bytes DataTypeGroup := do
  let dataType ← field yaml yaml.asInt node (ascii "data_type") 0
  let priority ← field yaml yaml.asInt node (ascii "group_priority") 0
  let name ← field yaml yaml.asString node (ascii "name") []
  let displayName ← field yaml yaml.asString node (ascii "display_name") []
  let description ← field yaml yaml.asString node (ascii "description") []
  .ok ⟨dataType, priority, name, displayName, description⟩

/-- The rules of a group carry its name and its data type. -/
def groupRules (path : Bytes) (group : DataTypeGroup) : List Node → Except LoadError (List CatalogRule)
  | [] => .ok []
  | node :: nodes => do
    let rule ← parseRule yaml u path node
    let rules ← groupRules path group nodes
    .ok ({ rule with group := group.name, dataType := group.dataType } :: rules)

/-- Without `rules:`, a group has none. -/
def parseGroup (path : Bytes) (node : Node) : Except LoadError (DataTypeGroup × List CatalogRule) := do
  let group ← (groupFields yaml node).mapError fun e => .parseError (ascii "parse group in " ++ path ++ ascii ": " ++ e)
  match yaml.get node (ascii "rules") with
  | .error e => .error (.yaml e)
  | .ok none => .ok (group, [])
  | .ok (some rulesNode) =>
    match yaml.sequence rulesNode with
    | none => .error (.parseError (ascii "group '" ++ group.name ++ ascii "' rules is not a sequence in " ++ path))
    | some nodes => do
      let rules ← groupRules yaml u path group nodes
      .ok (group, rules)

def parseGroups (path : Bytes) : List Node → Except LoadError LoadedRules
  | [] => .ok ⟨[], []⟩
  | node :: nodes => do
    let (group, rules) ← parseGroup yaml u path node
    let loaded ← parseGroups path nodes
    .ok (LoadedRules.append ⟨[group], rules⟩ loaded)

/-- Without `guardrails_regex_rules`, a file is an empty catalog. -/
def loadRulesFile (path : Bytes) : Except LoadError LoadedRules :=
  match yaml.loadFile path with
  | .error e => .error (.parseError (ascii "read rules file " ++ path ++ ascii ": " ++ e))
  | .ok root =>
    match yaml.get root (ascii "guardrails_regex_rules") with
    | .error e => .error (.parseError (ascii "parse rules YAML " ++ path ++ ascii ": " ++ e))
    | .ok none => .ok ⟨[], []⟩
    | .ok (some groupsNode) =>
      match yaml.sequence groupsNode with
      | none => .error (.parseError (ascii "guardrails_regex_rules is not a sequence in " ++ path))
      | some nodes => parseGroups yaml u path nodes

/-! ## `load_rules_files` -/

structure Merge where
  all : LoadedRules
  seenPaths : List Bytes
  /-- An id, and the path that it was first seen in. -/
  seenRuleIds : List (Bytes × Bytes)
  loadedFiles : Nat

def duplicateRule (id first path : Bytes) : LoadError :=
  .duplicateId (ascii "duplicate guardrails rule_id '" ++ id ++ ascii "' in files " ++ first ++ ascii " and " ++ path)

def mergeRules (path : Bytes) (m : Merge) : List CatalogRule → Except LoadError Merge
  | [] => .ok m
  | r :: rules =>
    match m.seenRuleIds.lookup r.id with
    | some first => .error (duplicateRule r.id first path)
    | none =>
      mergeRules path
        { m with all := { m.all with rules := m.all.rules ++ [r] }, seenRuleIds := m.seenRuleIds ++ [(r.id, path)] } rules

/-- A file that is loaded at all counts, whatever is in it. -/
def mergeFile (path : Bytes) (m : Merge) : Except LoadError Merge := do
  let loaded ← loadRulesFile yaml u path
  mergeRules path
    { m with
      all := { m.all with groups := m.all.groups ++ loaded.groups }
      seenPaths := path :: m.seenPaths
      loadedFiles := m.loadedFiles + 1 } loaded.rules

def mergeFiles (m : Merge) : List Bytes → Except LoadError Merge
  | [] => .ok m
  | rawPath :: paths =>
    let path := asciiTrim rawPath
    if path = [] ∨ path ∈ m.seenPaths then mergeFiles m paths
    else do mergeFiles (← mergeFile yaml u path m) paths

def loadRulesFiles (paths : List Bytes) : Except LoadError LoadedRules := do
  let m ← mergeFiles yaml u ⟨⟨[], []⟩, [], [], 0⟩ paths
  if m.loadedFiles = 0 then .error (.parseError (ascii "no guardrails rules files configured")) else .ok m.all

end

end LlmGuard.RulesYaml
