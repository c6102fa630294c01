import LlmGuard.Code.Retry
import LlmGuard.Code.Json

/-!
# `DatabaseManager`

`Database.hpp`: how a transaction is run, tried again and routed to a pool. What a connection does is a parameter.
-/

namespace LlmGuard.Database

open Attempts (Action)

inductive IsolationLevel
  | readCommitted
  | repeatableRead
  | serializable
deriving DecidableEq, Repr

def isolationSql : IsolationLevel → Bytes
  | .readCommitted => ascii "SET TRANSACTION ISOLATION LEVEL READ COMMITTED"
  | .repeatableRead => ascii "SET TRANSACTION ISOLATION LEVEL REPEATABLE READ"
  | .serializable => ascii "SET TRANSACTION ISOLATION LEVEL SERIALIZABLE"

inductive PoolId
  | primary
  | replica (idx : Nat)
deriving DecidableEq, Repr

inductive TxnKind
  | work
  | readTransaction
deriving DecidableEq, Repr

/-- The pools and the server behind them. Every call may throw. -/
structure Backend (σ : Type) where
  /-- The constructor of `PooledConnection`. -/
  acquire : PoolId → Action σ Exn Unit
  /-- The destructor of `PooledConnection`. -/
  release : PoolId → σ → σ
  /-- The constructor of the transaction. -/
  start : PoolId → TxnKind → Action σ Exn Unit
  /-- The destructor of the transaction, which aborts what is not committed. -/
  finish : PoolId → σ → σ
  exec : PoolId → Bytes → Action σ Exn Unit
  commit : PoolId → Action σ Exn Unit

/-- A query counter, or what `Retry::run` reports. -/
inductive Event
  | query (op pool : Bytes)
  | retry (event : Retry.Event)
deriving DecidableEq, Repr

/-- Without the prefix `db.`, where it is there. -/
def opLabel (spanName : Bytes) : Bytes :=
  if (ascii "db.").isPrefixOf spanName then spanName.drop 3 else spanName

def notInitialized : Exn := .other (ascii "Database not initialized")

section

variable {σ α : Type} (backend : Backend σ)

/-- The callable that `execute_with_` gives to `Retry::run`. -/
def attempt (pool : PoolId) (kind : TxnKind) (level : IsolationLevel) (func : Action σ Exn α) : Action σ Exn α :=
  (backend.acquire pool).bind fun _ =>
    ((backend.start pool kind).bind fun _ =>
      ((if kind = .work ∧ level ≠ .readCommitted then backend.exec pool (isolationSql level) else Action.pure ()).bind fun _ =>
        func.bind fun result => (backend.commit pool).bind fun _ => Action.pure result).after
      (backend.finish pool)).after
    (backend.release pool)

/-- What a call gives, the world after it, and what was reported. -/
abbrev Outcome (σ α : Type) := (Except Exn α × σ) × List Event

def executeWith (pool : PoolId) (kind : TxnKind) (classifier : Exn → Bool) (spanName poolLabel : Bytes)
    (policy : Retry.Policy) (draw : Nat → Int → Int) (func : Action σ Exn α) (level : IsolationLevel) (s : σ) :
    Outcome σ α :=
  let result := Retry.run (attempt backend pool kind level func) classifier policy spanName draw s
  (result.1, .query (opLabel spanName) poolLabel :: result.2.map .retry)

structure Manager where
  /-- With a primary pool. -/
  initialized : Bool
  /-- `replica_pools_.size()`. -/
  replicas : Nat
  /-- `current_replica_`, a `size_t`. -/
  current : Nat
  policy : Retry.Policy
deriving DecidableEq, Repr

namespace Manager

variable (m : Manager) (draw : Nat → Int → Int) (func : Action σ Exn α) (s : σ)

def onPrimary (kind : TxnKind) (classifier : Exn → Bool) (spanName : Bytes) (level : IsolationLevel) : Outcome σ α :=
  if !m.initialized then ((.error notInitialized, s), [])
  else executeWith backend .primary kind classifier spanName (ascii "primary") m.policy draw func level s

def executeWrite : Outcome σ α :=
  m.onPrimary backend draw func s .work Retry.isTransientPqxxWrite (ascii "db.write") .readCommitted

def executeWriteIdempotent : Outcome σ α :=
  m.onPrimary backend draw func s .work Retry.isTransientPqxxRead (ascii "db.write.idempotent") .readCommitted

def executeTransaction (level : IsolationLevel) : Outcome σ α :=
  m.onPrimary backend draw func s .work Retry.isTransientPqxxWrite (ascii "db.transaction") level

def executeReadPrimary : Outcome σ α :=
  m.onPrimary backend draw func s .readTransaction Retry.isTransientPqxxRead (ascii "db.read") .readCommitted

/-- `pick_replica_pool_`. The counter wraps around. -/
def pickReplica : PoolId × Manager :=
  if m.replicas = 0 then (.primary, m)
  else (.replica (m.current % m.replicas), { m with current := (m.current + 1) % 2 ^ 64 })

/-- The draws of the two paths are not the same. -/
def executeRead (draw' : Nat → Int → Int) : Outcome σ α × Manager :=
  if m.replicas = 0 then (m.executeReadPrimary backend draw func s, m)
  else if !m.initialized then (m.executeReadPrimary backend draw' func s, m)
  else
    let picked := m.pickReplica
    let viaReplica := executeWith backend picked.1 .readTransaction Retry.isTransientPqxxRead (ascii "db.read")
      (ascii "replica") m.policy draw func .readCommitted s
    match viaReplica.1 with
    | (.ok a, s) => (((.ok a, s), viaReplica.2), picked.2)
    | (.error _, s) =>
      let viaPrimary := picked.2.executeReadPrimary backend draw' func s
      ((viaPrimary.1, viaReplica.2 ++ viaPrimary.2), picked.2)

end Manager

end

end LlmGuard.Database
