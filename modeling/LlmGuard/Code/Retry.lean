import LlmGuard.Code.Rule
import LlmGuard.Lib.Attempts

/-! # `utils/Retry.hpp` -/

namespace LlmGuard

open Attempts (Action)

/-- `std::exception`, as far as the classifiers tell them apart. -/
inductive Exn
  | brokenConnection (what : Bytes)
  | sqlError (sqlstate what : Bytes)
  | other (what : Bytes)
deriving DecidableEq, Repr

namespace Retry

/-- The fields are `int`. -/
structure Policy where
  maxAttempts : Int := 3
  baseDelayMs : Int := 100
  maxDelayMs : Int := 2000
  jitter : Bool := true
deriving DecidableEq, Repr

/-- A call of the metric sink, or a sleep. -/
inductive Event
  | metric (component outcome : Bytes)
  | slept (ms : Int)
deriving DecidableEq, Repr

/-- `dist` draws from 0 up to its argument. -/
def computeDelayMs (dist : Int → Int) (attemptZeroBased : Nat) (p : Policy) : Int :=
  let shift := min attemptZeroBased 10
  let expo := p.baseDelayMs * 2 ^ shift
  let delay := Int.bmod (min p.maxDelayMs expo) (2 ^ 32)
  if p.jitter then dist (max 1 delay) else delay

section

variable {σ α : Type} (fn : Action σ Exn α) (isTransient : Exn → Bool) (p : Policy) (component : Bytes)
  (draw : Nat → Int → Int)

/-- The `for (;;)` loop. `draw` is what the generator of the thread gives, failure by failure. -/
def loop (attempt : Nat) (s : σ) : (Except Exn α × σ) × List Event :=
  match fn s with
  | (.ok a, s) => ((.ok a, s), [])
  | (.error e, s) =>
    if attempt + 1 < p.maxAttempts ∧ isTransient e then
      let rest := loop (attempt + 1) s
      (rest.1, .metric component (ascii "retried") :: .slept (computeDelayMs (draw attempt) attempt p) :: rest.2)
    else ((.error e, s), if p.maxAttempts ≤ attempt + 1 then [.metric component (ascii "exhausted")] else [])
termination_by (p.maxAttempts - attempt).toNat

def run (s : σ) : (Except Exn α × σ) × List Event := loop fn isTransient p component draw 0 s

end

/-! ## Classifiers -/

def isTransientPqxxRead : Exn → Bool
  | .brokenConnection _ => true
  | .sqlError ss _ =>
    if 2 ≤ ss.length && ss.take 2 = ascii "08" then true
    else if ss = ascii "40001" || ss = ascii "40P01" then true
    else 3 ≤ ss.length && ss.take 3 = ascii "57P"
  | _ => false

def isTransientPqxxWrite : Exn → Bool
  | .sqlError ss _ => ss = ascii "40001" || ss = ascii "40P01"
  | _ => false

end Retry

end LlmGuard
