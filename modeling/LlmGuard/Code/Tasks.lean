import LlmGuard.Spec.Bytes

/-!
# Recurring tasks

`Tasks.hpp`. The flag is read outside the mutex, so a call is two steps: the look at the flag, and what it does under
the mutex. A call that throws or returns at the flag is no step.
-/

namespace LlmGuard.Tasks

/-- What the event loop is asked to do. -/
inductive Request
  | runEvery (timer : Nat)
  | invalidateTimer (timer : Nat)
deriving DecidableEq

/-- trantor's event loop: which number `runEvery` returns behind these requests, and which timers it fires once it has
carried them out. -/
structure EventLoop where
  runEvery : List Request → Nat
  fires : List Request → Nat → Prop

/-- A call between its look at the flag and the mutex. -/
inductive Waiting
  | scheduleRecurring (taskId : Bytes)
  | shutdown
deriving DecidableEq

structure Scheduler where
  initialized : Bool
  /-- In the order of the keys. -/
  timers : List (Bytes × Nat)
  /-- What the event loop has been asked so far. -/
  requests : List Request
  waiting : List Waiting
deriving DecidableEq

inductive Event
  | initialise
  | scheduleRecurring (taskId : Bytes)
  | shutdown
  | cancel (taskId : Bytes)
  /-- A waiting call gets the mutex. -/
  | enter (call : Waiting)
deriving DecidableEq

namespace Scheduler

def fresh : Scheduler := ⟨false, [], [], []⟩

/-- `timers().find(task_id)`. -/
def find (s : Scheduler) (taskId : Bytes) : Option Nat := (s.timers.find? (·.1 = taskId)).map Prod.snd

/-- `timers()[task_id] = id` for a new key. -/
def put (taskId : Bytes) (timer : Nat) : List (Bytes × Nat) → List (Bytes × Nat)
  | [] => [(taskId, timer)]
  | e :: timers => if taskId < e.1 then (taskId, timer) :: e :: timers else e :: put taskId timer timers

/-- `schedule_recurring` under the mutex, with its result. -/
def schedule (loop : EventLoop) (s : Scheduler) (taskId : Bytes) : Bool × Scheduler :=
  match s.find taskId with
  | some _ => (false, s)
  | none =>
    let timer := loop.runEvery s.requests
    (true, { s with timers := put taskId timer s.timers, requests := s.requests ++ [.runEvery timer] })

def cancel (s : Scheduler) (taskId : Bytes) : Bool × Scheduler :=
  match s.find taskId with
  | none => (false, s)
  | some timer =>
    (true, { s with timers := s.timers.filter (·.1 ≠ taskId), requests := s.requests ++ [.invalidateTimer timer] })

/-- `shutdown` under the mutex. -/
def clear (s : Scheduler) : Scheduler :=
  { s with
    timers := []
    requests := s.requests ++ s.timers.map fun e => .invalidateTimer e.2
    initialized := false }

def step (loop : EventLoop) (s : Scheduler) : Event → Option Scheduler
  | .initialise => if s.initialized then none else some { s with initialized := true }
  | .scheduleRecurring taskId =>
    if s.initialized then some { s with waiting := .scheduleRecurring taskId :: s.waiting } else none
  | .shutdown => if s.initialized then some { s with waiting := .shutdown :: s.waiting } else none
  | .cancel taskId => some (s.cancel taskId).2
  | .enter call =>
    if call ∈ s.waiting then
      let s := { s with waiting := s.waiting.erase call }
      match call with
      | .scheduleRecurring taskId => some (s.schedule loop taskId).2
      | .shutdown => some s.clear
    else none

end Scheduler

end LlmGuard.Tasks
