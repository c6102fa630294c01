import LlmGuard.Config.Template

/-!
# What a setting is

The environment of the call wins over the file, and the file over the default. Placeholders of the file were expanded
when it was loaded, in strings only, and what an override holds is never expanded.
-/

namespace LlmGuard.Config

open Sse (find find_none)

/-! ## The document -/

/-- What substitution may change. -/
def Json.Deep : Json → Prop
  | .string _ | .array _ | .object _ => True
  | _ => False

/-- What nlohmann::json documents. -/
structure Nlohmann.Documented (json : Nlohmann) : Prop where
  atKey_object : ∀ key members, json.atKey key (.object members) = members.lookup key
  atKey_other : ∀ key node, (∀ members, node ≠ .object members) → json.atKey key node = none
  getString : ∀ s, json.getString (.string s) = some s
  getString_other : ∀ node, (∀ s, node ≠ .string s) → json.getString node = none
  getInt : ∀ node : Json, node.Deep → json.getInt node = none
  getLong : ∀ node : Json, node.Deep → json.getLong node = none
  getBool : ∀ node : Json, node.Deep → json.getBool node = none

/-! ## A dotted key is a path -/

/-- The value behind these keys. -/
def Json.path (json : Nlohmann) (segments : List Bytes) (node : Json) : Option Json :=
  segments.foldlM (fun node key => json.atKey key node) node

theorem splitOn_find {b : Byte} {s : Bytes} {i : Nat} (h : find [b] s = some i) :
    s.splitOn b = s.take i :: (s.drop (i + 1)).splitOn b := by
  obtain ⟨hcut, -⟩ := find_cut h
  conv_lhs => rw [hcut, List.append_assoc, List.singleton_append]
  exact List.splitOn_append_cons_self_of_not_mem (not_mem_take_find h) _

section

variable {json : Nlohmann}

theorem nestedValue_some {node : Json} {key : Bytes} {pos : Nat} (h : find [ch '.'] key = some pos) :
    nestedValue json node key = (json.atKey (key.take pos) node).bind (nestedValue json · (key.drop (pos + 1))) := by
  rw [nestedValue]
  split
  · rename_i pos' hpos
    obtain rfl := Option.some.inj (h.symm.trans hpos)
    split <;> rename_i hat <;> rw [hat] <;> rfl
  · rename_i hnone
    cases h.symm.trans hnone

theorem nestedValue_none {node : Json} {key : Bytes} (h : find [ch '.'] key = none) :
    nestedValue json node key = json.atKey key node := by
  rw [nestedValue]
  split
  · rename_i hpos
    cases h.symm.trans hpos
  · rfl

theorem nestedValue_eq (node : Json) (key : Bytes) :
    nestedValue json node key = node.path json (key.splitOn (ch '.')) := by
  induction hlen : key.length using Nat.strong_induction_on generalizing node key with
  | h n ih =>
    subst hlen
    cases h : find [ch '.'] key with
    | none =>
      have hdot : ch '.' ∉ key := not_mem_of_find h
      rw [nestedValue_none h, List.splitOn_eq_singleton hdot, Json.path, List.foldlM_cons]
      cases json.atKey key node <;> rfl
    | some pos =>
      have hshort : (key.drop (pos + 1)).length < key.length := by
        have hcut := congrArg List.length (find_cut h).1
        simp only [List.length_append, List.length_cons, List.length_nil, Nat.zero_add] at hcut
        omega
      rw [nestedValue_some h, splitOn_find h, Json.path, List.foldlM_cons]
      exact congrArg _ (funext fun next => ih _ hshort next _ rfl)

end

/-! ## Substitution keeps the shape -/

variable (environ : Environment)

theorem lookup_substituteMembers (key : Bytes) (members : List (Bytes × Json)) :
    (substituteMembers environ members).lookup key =
      (members.lookup key).map (substituteEnvPlaceholders environ) := by
  induction members with
  | nil => rfl
  | cons member members ih =>
    obtain ⟨name, node⟩ := member
    rw [substituteMembers, List.lookup_cons, List.lookup_cons]
    split
    · rfl
    · exact ih

theorem atKey_substitute {json : Nlohmann} (hjson : json.Documented) (key : Bytes) (node : Json) :
    json.atKey key (substituteEnvPlaceholders environ node) =
      (json.atKey key node).map (substituteEnvPlaceholders environ) := by
  cases node with
  | object members =>
    rw [substituteEnvPlaceholders, hjson.atKey_object, hjson.atKey_object]
    exact lookup_substituteMembers environ key members
  | _ =>
    rw [hjson.atKey_other key _ (by simp [substituteEnvPlaceholders]), hjson.atKey_other key _ (by simp)]
    rfl

theorem path_substitute {json : Nlohmann} (hjson : json.Documented) (segments : List Bytes) (node : Json) :
    (substituteEnvPlaceholders environ node).path json segments =
      (node.path json segments).map (substituteEnvPlaceholders environ) := by
  induction segments generalizing node with
  | nil => rfl
  | cons key segments ih =>
    have hstep : ∀ node : Json,
        node.path json (key :: segments) = (json.atKey key node).bind (Json.path json segments) := fun _ => rfl
    rw [hstep, hstep, atKey_substitute environ hjson, Option.bind_map, Option.map_bind]
    exact congrArg _ (funext ih)

theorem expandString_plain {s : Bytes} (h : ¬ opening <:+: s) : expandString environ s = s := by
  induction s with
  | nil => rw [expandString]
  | cons b s ih =>
    rw [List.infix_cons_iff, not_or] at h
    rw [expandString_byte environ h.1, ih h.2]

theorem substitute_string (raw : Bytes) :
    substituteEnvPlaceholders environ (.string raw) = .string (expandString environ raw) := by
  rw [substituteEnvPlaceholders]
  cases h : find (ascii "$\x7b") raw with
  | none => rw [expandString_plain environ (find_none h (by decide))]; rfl
  | some i => rfl

/-! ## Types of settings -/

/-- What loading does to the settings of a type. -/
def Expands {T : Type} (kind : Kind T) (expand : Environment → T → T) : Prop :=
  ∀ environ node, kind.fromJson (substituteEnvPlaceholders environ node) = (kind.fromJson node).map (expand environ)

theorem substitute_ne_string {node : Json} (h : ∀ s, node ≠ .string s) (s : Bytes) :
    substituteEnvPlaceholders environ node ≠ .string s := by
  cases node with
  | string raw => exact absurd rfl (h raw)
  | _ => simp [substituteEnvPlaceholders]

theorem expands_string {json : Nlohmann} (hjson : json.Documented) : Expands (Kind.string json) expandString := by
  intro environ node
  show json.getString (substituteEnvPlaceholders environ node) = (json.getString node).map (expandString environ)
  by_cases h : ∃ raw, node = .string raw
  · obtain ⟨raw, rfl⟩ := h
    rw [substitute_string, hjson.getString, hjson.getString, Option.map_some]
  · push Not at h
    rw [hjson.getString_other _ (substitute_ne_string environ h), hjson.getString_other node h]
    rfl

/-- No type but the strings sees the difference. -/
theorem expands_of_not_deep {T : Type} {kind : Kind T} (hdeep : ∀ node : Json, node.Deep → kind.fromJson node = none) :
    Expands kind fun _ => id := by
  intro environ node
  cases node with
  | string raw => rw [substitute_string, hdeep (.string _) trivial, hdeep (.string _) trivial]; rfl
  | array elements => rw [substituteEnvPlaceholders, hdeep (.array _) trivial, hdeep (.array _) trivial]; rfl
  | object members => rw [substituteEnvPlaceholders, hdeep (.object _) trivial, hdeep (.object _) trivial]; rfl
  | _ => simp [substituteEnvPlaceholders]

theorem expands_int {json : Nlohmann} (hjson : json.Documented) : Expands (Kind.int json) fun _ => id :=
  expands_of_not_deep hjson.getInt

theorem expands_long {json : Nlohmann} (hjson : json.Documented) : Expands (Kind.long json) fun _ => id :=
  expands_of_not_deep hjson.getLong

theorem expands_bool {json : Nlohmann} (hjson : json.Documented) : Expands (Kind.bool json) fun _ => id :=
  expands_of_not_deep hjson.getBool

/-! ## Settings -/

/-- What the file says, with the environment in which it was loaded. -/
def fileValue {T : Type} (json : Nlohmann) (kind : Kind T) (expand : Environment → T → T) (atLoad : Environment)
    (file : Json) (key : Bytes) : Option T :=
  ((file.path json (key.splitOn (ch '.'))).bind kind.fromJson).map (expand atLoad)

section

variable {T : Type} {json : Nlohmann} {kind : Kind T} {expand : Environment → T → T}

theorem getNestedValue_load (hjson : json.Documented) (h : Expands kind expand)
    (atLoad : Environment) (file : Json) (key : Bytes) :
    (AppConfig.load atLoad file).getNestedValue json kind key = fileValue json kind expand atLoad file key := by
  have hload : (AppConfig.load atLoad file).configData = substituteEnvPlaceholders atLoad file := rfl
  rw [AppConfig.getNestedValue, nestedValue_eq, hload, path_substitute atLoad hjson, fileValue, Option.bind_map,
    Option.map_bind]
  exact congrArg _ (funext fun node => h atLoad node)

/-- A variable that is set decides alone, whatever the file and the default are, and fails if it does not parse. Otherwise
the file decides: a setting that it has is expanded as of when it was loaded, and one that it lacks, or has with another
type, is the default, or missing where it is required. -/
theorem settings_layered (hjson : json.Documented) (h : Expands kind expand) (atLoad atCall : Environment) (file : Json)
    (key envVar : Bytes) :
    (AppConfig.load atLoad file).getOptional json kind key = fileValue json kind expand atLoad file key ∧
    (∀ envValue, AppConfig.override atCall envVar = some envValue → ∀ config : AppConfig,
      (∀ defaultValue, config.get json atCall kind key envVar defaultValue = kind.parseEnv envValue) ∧
        config.require json atCall kind key envVar = kind.parseEnv envValue) ∧
    (AppConfig.override atCall envVar = none →
      (∀ defaultValue, (AppConfig.load atLoad file).get json atCall kind key envVar defaultValue =
        .ok ((fileValue json kind expand atLoad file key).getD defaultValue)) ∧
      ∀ value, (AppConfig.load atLoad file).require json atCall kind key envVar = .ok value ↔
        fileValue json kind expand atLoad file key = some value) := by
  refine ⟨getNestedValue_load hjson h atLoad file key, ?_, ?_⟩
  · intro envValue hset config
    exact ⟨fun _ => by rw [AppConfig.get, hset], by rw [AppConfig.require, hset]⟩
  · intro hunset
    refine ⟨fun _ => by rw [AppConfig.get, hunset, getNestedValue_load hjson h], fun value => ?_⟩
    rw [AppConfig.require, hunset, getNestedValue_load hjson h]
    cases fileValue json kind expand atLoad file key <;> simp

end

/-- Numbers are cast as `stoi` and `stol` read their literals. -/
def castingJson : Nlohmann where
  atKey key
    | .object members => members.lookup key
    | _ => none
  getString
    | .string s => some s
    | _ => none
  getInt
    | .number literal => (stoi [] 32 literal).toOption
    | .boolean value => some (if value then 1 else 0)
    | _ => none
  getLong
    | .number literal => (stoi [] 64 literal).toOption
    | _ => none
  getBool
    | .boolean value => some value
    | _ => none

theorem castingJson_documented : castingJson.Documented where
  atKey_object _ _ := rfl
  atKey_other key node h := by cases node <;> first | rfl | exact absurd rfl (h _)
  getString _ := rfl
  getString_other node h := by cases node <;> first | rfl | exact absurd rfl (h _)
  getInt node h := by cases node <;> first | rfl | exact h.elim
  getLong node h := by cases node <;> first | rfl | exact h.elim
  getBool node h := by cases node <;> first | rfl | exact h.elim

/-- A file with one setting. -/
def hostFile : Json := .object [(ascii "database", .object [(ascii "host", .string (ascii "$\x7bDB_HOST:-localhost\x7d"))])]

def hostVariable : Variable := ⟨ascii "DB_HOST", some (ascii "localhost"), by decide, by decide⟩

theorem settings_layered_sample :
    (AppConfig.load (fun _ => none) hostFile).get castingJson (fun _ => none) (Kind.string castingJson) (ascii "database.host")
      (ascii "DATABASE_HOST") [] = .ok (ascii "localhost") := by
  obtain ⟨-, -, hunset⟩ := settings_layered castingJson_documented (expands_string castingJson_documented)
    (fun _ => none) (fun _ => none) hostFile (ascii "database.host") (ascii "DATABASE_HOST")
  rw [(hunset rfl).1]
  have hexpand := expandString_var (fun _ => none) hostVariable []
  rw [expandString, List.append_nil] at hexpand
  exact congrArg Except.ok hexpand

end LlmGuard.Config
