import LlmGuard.Code.Rule
import Mathlib.Logic.Function.Basic

/-!
# `cached`

`Cache.hpp`: the read-through helper, with any number of calls in flight. A command to Redis, and a call of a loader, is
one step. Redis may be down at any of them, and may lose entries. Time is in seconds.
-/

namespace LlmGuard.Cache

/-! ## Redis -/

structure Entry where
  blob : Bytes
  /-- `setex` gives a deadline, and `set` does not. -/
  deadline : Option Nat
deriving DecidableEq, Repr

abbrev Redis := Bytes → Option Entry

def Entry.isLive (e : Entry) (now : Nat) : Bool :=
  match e.deadline with
  | none => true
  | some deadline => now < deadline

namespace CacheManager

/-- Fail-open: an outage looks like a miss. -/
def get (redis : Redis) (now : Nat) (up : Bool) (key : Bytes) : Option Bytes :=
  if !up then none
  else
    match redis key with
    | none => none
    | some e => if e.isLive now then some e.blob else none

/-- Fail-open: an outage leaves Redis as it is. `ttl` is a `long`. -/
def set (redis : Redis) (now : Nat) (up : Bool) (key value : Bytes) (ttl : Int) : Redis :=
  if !up then redis
  else Function.update redis key (some ⟨value, if 0 < ttl then some (now + ttl.toNat) else none⟩)

end CacheManager

/-! ## Calls -/

/-- `nlohmann::json(value).dump()` and `json::parse(blob).get<T>()`, where they do not throw. -/
structure Codec (T : Type) where
  dump : T → Option Bytes
  parse : Bytes → Option T

/-- What a call does next. -/
inductive Phase (T : Type)
  | get
  | load
  | set (value : T) (loadedAt : Nat)

structure Call (T : Type) where
  key : Bytes
  ttl : Int
  phase : Phase T

/-- A value that was read from the store, or returned by a call, and when. -/
structure Observed (T : Type) where
  key : Bytes
  value : T
  time : Nat

structure CacheState (T : Type) where
  now : Nat
  /-- What the loaders read. -/
  store : Bytes → T
  redis : Redis
  calls : Nat → Option (Call T)
  loaded : List (Observed T)
  returned : List (Observed T)

inductive Event (T : Type)
  | tick
  /-- Somebody changes what the loaders read. -/
  | write (key : Bytes) (value : T)
  /-- An entry is deleted or evicted. -/
  | evict (key : Bytes)
  /-- Something else writes an entry that this shape of `T` cannot be read from. -/
  | foreign (key : Bytes) (entry : Entry)
  | call (i : Nat) (key : Bytes) (ttl : Int)
  | get (i : Nat) (up : Bool)
  | load (i : Nat) (throws : Bool)
  | set (i : Nat) (up : Bool)

namespace CacheState

variable {T : Type} (codec : Codec T)

def init (store : Bytes → T) : CacheState T where
  now := 0
  store := store
  redis _ := none
  calls _ := none
  loaded := []
  returned := []

def goto (s : CacheState T) (i : Nat) (c : Call T) (phase : Phase T) : CacheState T :=
  { s with calls := Function.update s.calls i (some { c with phase := phase }) }

def finish (s : CacheState T) (i : Nat) : CacheState T := { s with calls := Function.update s.calls i none }

def answer (s : CacheState T) (i : Nat) (c : Call T) (value : T) : CacheState T :=
  { s.finish i with returned := ⟨c.key, value, s.now⟩ :: s.returned }

/-- A hit that cannot be parsed counts as a miss. -/
def get (s : CacheState T) (i : Nat) (c : Call T) (up : Bool) : CacheState T :=
  match (CacheManager.get s.redis s.now up c.key).bind codec.parse with
  | some value => s.answer i c value
  | none => s.goto i c .load

def load (s : CacheState T) (i : Nat) (c : Call T) : CacheState T :=
  { s.goto i c (.set (s.store c.key) s.now) with loaded := ⟨c.key, s.store c.key, s.now⟩ :: s.loaded }

/-- A value that cannot be dumped is not stored. -/
def set (s : CacheState T) (i : Nat) (c : Call T) (value : T) (up : Bool) : CacheState T :=
  match codec.dump value with
  | some blob => { s with redis := CacheManager.set s.redis s.now up c.key blob c.ttl }.answer i c value
  | none => s.answer i c value

def step (s : CacheState T) : Event T → Option (CacheState T)
  | .tick => some { s with now := s.now + 1 }
  | .write key value => some { s with store := Function.update s.store key value }
  | .evict key => some { s with redis := Function.update s.redis key none }
  | .foreign key entry =>
    match codec.parse entry.blob with
    | some _ => none
    | none => some { s with redis := Function.update s.redis key (some entry) }
  | .call i key ttl =>
    match s.calls i with
    | some _ => none
    | none => some { s with calls := Function.update s.calls i (some ⟨key, ttl, .get⟩) }
  | .get i up =>
    match s.calls i with
    | some ⟨key, ttl, .get⟩ => some (s.get codec i ⟨key, ttl, .get⟩ up)
    | _ => none
  | .load i throws =>
    match s.calls i with
    | some ⟨key, ttl, .load⟩ => some (if throws then s.finish i else s.load i ⟨key, ttl, .load⟩)
    | _ => none
  | .set i up =>
    match s.calls i with
    | some ⟨key, ttl, .set value loadedAt⟩ => some (s.set codec i ⟨key, ttl, .set value loadedAt⟩ value up)
    | _ => none

end CacheState

end LlmGuard.Cache
