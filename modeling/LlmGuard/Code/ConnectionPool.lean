import LlmGuard.Code.Rule

/-!
# `ConnectionPool`

`Database.hpp`: the parts of `acquire` and `release` that run under the mutex, one step each. Connections are
numbered as they are made, and users are whoever calls `acquire`.
-/

namespace LlmGuard

/-- `a + b` in `size_t`. -/
def sizeAdd (a b : Nat) : Nat := (a + b) % (sizeMax + 1)

abbrev User := Nat

abbrev Connection := Nat

structure PoolState where
  /-- `available_connections_`, the front first. -/
  available : List Connection
  /-- `active_connections_`. -/
  active : Nat
  held : List (User × Connection)
  /-- The users between reserving a slot and the end of their connect. -/
  connecting : List User
  created : Nat
deriving DecidableEq

inductive PoolEvent
  | acquire (user : User)
  | connected (user : User)
  | connectFailed (user : User)
  | release (user : User) (conn : Connection) (isOpen : Bool)
deriving DecidableEq

namespace PoolState

/-- The constructor has filled the queue. -/
def init (poolSize : Nat) : PoolState where
  available := List.range poolSize
  active := 0
  held := []
  connecting := []
  created := poolSize

def canProceed (poolSize : Nat) (st : PoolState) : Bool :=
  !st.available.isEmpty || sizeAdd st.available.length st.active < poolSize

/-- A user that cannot proceed waits or times out, and changes nothing. -/
def acquire (poolSize : Nat) (st : PoolState) (user : User) : PoolState :=
  if !st.canProceed poolSize then st
  else
    match st.available with
    | conn :: rest => { st with available := rest, active := sizeAdd st.active 1, held := (user, conn) :: st.held }
    | [] => { st with active := sizeAdd st.active 1, connecting := user :: st.connecting }

/-- The new connection goes to the user without passing the mutex. -/
def connected (st : PoolState) (user : User) : PoolState :=
  { st with
    connecting := st.connecting.erase user
    held := (user, st.created) :: st.held
    created := st.created + 1 }

/-- The `catch` block gives the slot back. -/
def connectFailed (st : PoolState) (user : User) : PoolState :=
  { st with connecting := st.connecting.erase user, active := sizeSub st.active 1 }

/-- A connection that is not open any more is dropped. -/
def release (st : PoolState) (user : User) (conn : Connection) (isOpen : Bool) : PoolState :=
  { st with
    held := st.held.erase (user, conn)
    available := if isOpen then st.available ++ [conn] else st.available
    active := sizeSub st.active 1 }

/-- Only a user that is connecting can end a connect, and only a holder releases. -/
def step (poolSize : Nat) (st : PoolState) : PoolEvent → Option PoolState
  | .acquire user => some (st.acquire poolSize user)
  | .connected user => if user ∈ st.connecting then some (st.connected user) else none
  | .connectFailed user => if user ∈ st.connecting then some (st.connectFailed user) else none
  | .release user conn isOpen => if (user, conn) ∈ st.held then some (st.release user conn isOpen) else none

def run (poolSize : Nat) (st : PoolState) (events : List PoolEvent) : Option PoolState :=
  events.foldlM (step poolSize) st

end PoolState

end LlmGuard
