import Mathlib.Data.List.Basic

/-!
# `Core::initialize`

`Core.hpp` and the module globals that it brings up. What an attempt meets is a parameter: which of its steps
throws, and what. `initialize` is a keyword of Lean, so the functions of that name are written `initialise`.
-/

namespace LlmGuard.Core

inductive InitMode
  | full
  | migrateOnly
deriving DecidableEq

/-- `Application::initialize` catches `std::exception` and lets everything else through. -/
inductive Thrown
  | std
  | other
deriving DecidableEq

/-- The places where an attempt can throw, besides a module that finds its global set already. -/
inductive BootStep
  /-- The constructor of `AppConfig`. -/
  | config
  | observabilitySettings
  /-- `ObservabilitySystem::initialize`. -/
  | observability
  | observabilityBind
  | validate
  | databaseSettings
  /-- `DatabaseManager::initialize`. -/
  | database
  | databaseBind
  | migrationsSettings
  /-- `MigrationRunner::initialize`. -/
  | migrations
  | cacheSettings
  /-- `CacheManager::initialize` or `initialize_with_sentinel`. -/
  | cache
  | tasks
  | metrics
deriving DecidableEq

/-- `none` is a null pointer, and `some b` an instance that reports `initialized == b`. -/
structure Globals where
  config : Bool
  observability : Option Bool
  database : Option Bool
  migrations : Option Bool
  cache : Option Bool
  tasks : Bool
  app : Option Bool
deriving DecidableEq

/-- A process that has initialized nothing. -/
def fresh : Globals := ⟨false, none, none, none, none, false, none⟩

structure Attempt where
  mode : InitMode
  /-- `database.migrations_enabled`. -/
  migrationsEnabled : Bool
  outcome : BootStep → Option Thrown

/-! ## The modules -/

/-- One call. `enter` is `none` when the module is there already; it gives the globals at the place where the
call may throw, and `finish` those when it returns. -/
structure Stage where
  step : BootStep
  enter : Globals → Option Globals
  finish : Globals → Globals

/-- Code that brings no module up. -/
def plain (step : BootStep) : Stage := ⟨step, some, id⟩

/-- `global = make_unique<T>(); global->initialize(...);` behind the check for a second call. -/
def storedFirst (step : BootStep) (get : Globals → Option Bool) (set : Option Bool → Globals → Globals) : Stage where
  step := step
  enter s := if (get s).isSome then none else some (set (some false) s)
  finish := set (some true)

/-- `make_unique<AppConfig>(config_file)` throws before anything is stored. -/
def Config.initialise : Stage where
  step := .config
  enter s := if s.config then none else some s
  finish s := { s with config := true }

def Observability.initialise : Stage :=
  storedFirst .observability (·.observability) fun v s => { s with observability := v }

def Database.initialise : Stage := storedFirst .database (·.database) fun v s => { s with database := v }

def Migrations.initialise : Stage := storedFirst .migrations (·.migrations) fun v s => { s with migrations := v }

def Cache.initialise : Stage := storedFirst .cache (·.cache) fun v s => { s with cache := v }

/-- The flag is set before the message is logged. -/
def Tasks.initialise : Stage where
  step := .tasks
  enter s := if s.tasks then none else some { s with tasks := true }
  finish := id

/-! ## `Application` -/

def initObservability : List Stage :=
  [plain .observabilitySettings, Observability.initialise, plain .observabilityBind]

def initDatabase : List Stage := [plain .databaseSettings, Database.initialise, plain .databaseBind]

def initMigrations (mode : InitMode) (migrationsEnabled : Bool) : List Stage :=
  let enabled := mode = .migrateOnly || migrationsEnabled
  plain .migrationsSettings :: if enabled then [Migrations.initialise] else []

def initCache : List Stage := [plain .cacheSettings, Cache.initialise]

/-- The calls of the `try` block. -/
def stages (mode : InitMode) (migrationsEnabled : Bool) : List Stage :=
  [Config.initialise] ++ initObservability ++ [plain .validate] ++ initDatabase ++
    initMigrations mode migrationsEnabled ++
    match mode with
    | .migrateOnly => []
    | .full => initCache ++ [Tasks.initialise, plain .metrics]

def runStages (outcome : BootStep → Option Thrown) : List Stage → Globals → Globals × Option Thrown
  | [], s => (s, none)
  | st :: sts, s =>
    match st.enter s with
    | none => (s, some .std)
    | some s =>
      match outcome st.step with
      | some e => (s, some e)
      | none => runStages outcome sts (st.finish s)

/-- Each module is shut down if it reports itself initialized. -/
def Application.shutdown (s : Globals) : Globals where
  tasks := false
  cache := if s.cache = some true then none else s.cache
  migrations := if s.migrations = some true then none else s.migrations
  database := if s.database = some true then none else s.database
  observability := if s.observability = some true then none else s.observability
  config := false
  app := s.app.map fun _ => false

def Application.initialise (a : Attempt) (s : Globals) : Globals × Option Thrown :=
  if s.app = some true then (s, some .std)
  else
    match runStages a.outcome (stages a.mode a.migrationsEnabled) s with
    | (s, none) => ({ s with app := s.app.map fun _ => true }, none)
    | (s, some .std) => (Application.shutdown s, some .std)
    | (s, some .other) => (s, some .other)

def initialise (a : Attempt) (s : Globals) : Globals × Option Thrown :=
  if s.app.isSome then (s, some .std)
  else
    match Application.initialise a { s with app := some false } with
    | (s, none) => (s, none)
    | (s, some e) => ({ s with app := none }, some e)

/-- The globals after a sequence of attempts. -/
def boot (attempts : List Attempt) : Globals := attempts.foldl (fun s a => (initialise a s).1) fresh

end LlmGuard.Core
