import LlmGuard.Code.Migrations

/-!
# `MigrationRunner` when things go wrong

A statement may fail and a process may end, at any point. Postgres then rolls back what the open transaction did and
takes the lock back, and the instance boots again at some time.
-/

namespace LlmGuard

/-- What the database keeps when the connection of an instance is cut. Outside a transaction, what ran stays. -/
def Runner.rollback (db : MigrationDb) : Runner → MigrationDb
  | .critical .executed _ mf _ | .critical .inserted _ mf _ =>
    if hasNoTransactionMarker mf.sql then { db with lock := none }
    else { db with executed := db.executed.dropLast, lock := none }
  | .critical _ _ _ _ => { db with lock := none }
  | _ => db

/-- The migration that ran outside a transaction and has no row yet. -/
def Runner.unrecorded : Runner → List MigrationFile
  | .critical .executed _ mf _ => if hasNoTransactionMarker mf.sql then [mf] else []
  | _ => []

inductive FaultEvent
  | works (event : MigrationEvent)
  /-- The transaction of instance `i` is rolled back, and `execute_write` runs its function again. -/
  | retries (i : Nat)
  /-- `initialize` of instance `i` throws, or its process ends. -/
  | fails (i : Nat)

structure Fleet where
  cluster : Cluster
  /-- The migrations outside a transaction that were cut off between their SQL and their row. -/
  cutOff : List MigrationFile
deriving DecidableEq

namespace Fleet

def init (instances : Nat) : Fleet := ⟨Cluster.init instances, []⟩

def step (dir : List DirEntry) (s : Fleet) : FaultEvent → Option Fleet
  | .works event => (s.cluster.step dir event).map fun c => { s with cluster := c }
  | .retries i =>
    match s.cluster.runners[i]? with
    | some (.critical stage applied mf rest) =>
      -- `apply_no_transaction_` is not repeated.
      if hasNoTransactionMarker mf.sql then none
      else some { s with
        cluster :=
          ⟨(Runner.critical stage applied mf rest).rollback s.cluster.db,
            s.cluster.runners.set i (.loop applied (mf :: rest))⟩ }
    | _ => none
  | .fails i =>
    match s.cluster.runners[i]? with
    | none => none
    | some r => some ⟨⟨r.rollback s.cluster.db, s.cluster.runners.set i .boot⟩, s.cutOff ++ r.unrecorded⟩

def run (dir : List DirEntry) (s : Fleet) (events : List FaultEvent) : Option Fleet := events.foldlM (step dir) s

end Fleet

/-- The instance that has the lock. -/
def Cluster.holder (c : Cluster) : Option Runner := c.db.lock.bind fun i => c.runners[i]?

/-- The migrations whose effect would survive now if the holder of the lock were cut off. -/
def Cluster.committed (c : Cluster) : List MigrationFile :=
  match c.holder with
  | none => c.db.executed
  | some r => (r.rollback c.db).executed

end LlmGuard
