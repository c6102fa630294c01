import LlmGuard.Code.Boot
import LlmGuard.Code.Rule
import Mathlib.Logic.Function.Basic

/-!
# `run_server`

`main.cpp` behind `Core::initialize`, with the drain of `Core.hpp` and the probes of `HealthController.hpp`. The threads
are main, the shutdown monitor and those of Drogon; a step is what one of them does between two looks at what others
write. Drogon serves requests only inside `run`, which may return at any time. Times are in milliseconds.
-/

namespace LlmGuard.Server

open LlmGuard.Core (Thrown)

/-! ## Health checks -/

/-- What a call of a probe ends with. -/
inductive Outcome
  | passes
  | fails
  | throws (thrown : Thrown)
deriving DecidableEq

structure HealthEntry where
  name : Bytes
  /-- Which callable it is. -/
  probe : Nat
  critical : Bool
deriving DecidableEq

structure ComponentHealth where
  name : Bytes
  initialized : Bool
  healthy : Bool
  critical : Bool
deriving DecidableEq

/-! ## Responses -/

inductive Endpoint
  | liveness
  | readiness
  | health
deriving DecidableEq

/-- The body without its version and its timestamp. -/
structure Reply where
  code : Nat
  status : Bytes
  components : List ComponentHealth
deriving DecidableEq

def alive : Reply := ⟨200, ascii "alive", []⟩

def draining : Reply := ⟨503, ascii "draining", []⟩

def readyReply (ready : Bool) : Reply :=
  ⟨if ready then 200 else 503, if ready then ascii "ready" else ascii "not_ready", []⟩

/-- `components[c.name] = c` in an object with ordered keys. -/
def putComponent (c : ComponentHealth) : List ComponentHealth → List ComponentHealth
  | [] => [c]
  | d :: ds =>
    if c.name = d.name then c :: ds
    else if c.name < d.name then c :: d :: ds
    else d :: putComponent c ds

/-- `none` where the application is not initialized. -/
def healthReply (report : Option (List ComponentHealth)) : Reply :=
  match report with
  | none => ⟨503, ascii "unhealthy", []⟩
  | some report =>
    let criticalOk := report.all fun c => c.healthy || !c.critical
    let anyDegradedDown := report.any fun c => !c.healthy && !c.critical
    { code := if criticalOk then 200 else 503
      status := if !criticalOk then ascii "unhealthy" else if anyDegradedDown then ascii "degraded" else ascii "healthy"
      components := report.foldl (fun components c => putComponent c components) [] }

/-! ## Threads -/

/-- What a request does next. -/
inductive Phase
  | liveness
  /-- Looks at `shutting_down_flag`. -/
  | readiness
  | isInitialized
  /-- `all_critical_healthy` waits for `health_mu_`. -/
  | allCriticalHealthy
  | probing (rest : List HealthEntry)
  | health
  /-- `health_report` waits for `health_mu_`. -/
  | healthReport
  | reporting (rest : List HealthEntry) (report : List ComponentHealth)

def Endpoint.first : Endpoint → Phase
  | .liveness => .liveness
  | .readiness => .readiness
  | .health => .health

structure Answer where
  id : Nat
  endpoint : Endpoint
  reply : Reply
deriving DecidableEq

inductive MainPhase
  | booted
  /-- The monitor runs. -/
  | started
  /-- In `drogon::app().run()`. -/
  | serving
  | returned
  | joining
  | tearingDown
  | exited
  /-- `run` has thrown over a thread that is not joined. -/
  | terminated
deriving DecidableEq

inductive MonitorPhase
  | notStarted
  | polling
  | napping (wake : Nat)
  | beginning
  | begun
  | sleeping (wake : Nat)
  | done
deriving DecidableEq

structure Process where
  now : Nat
  shutdownRequested : Bool
  shuttingDownFlag : Bool
  /-- `Core::is_initialized()`. -/
  initialized : Bool
  main : MainPhase
  monitor : MonitorPhase
  healthChecks : List HealthEntry
  /-- The request that holds it. -/
  healthMu : Option Nat
  /-- What a call of each probe would end with now. -/
  probes : Nat → Outcome
  /-- How many requests there have been. -/
  arrived : Nat
  requests : Nat → Option Phase
  answers : List Answer
  /-- When `drogon::app().quit()` was called. -/
  quitAt : Option Nat

inductive Event
  | tick
  | signal
  /-- What the probes ask about goes up or down. -/
  | probes (probes : Nat → Outcome)
  | register (entry : HealthEntry)
  | main
  | runThrows
  | monitor
  | arrive (endpoint : Endpoint)
  | handle (id : Nat)

namespace Process

/-- `Core::initialize` has returned. A signal may have come before. -/
def booted (shutdownRequested : Bool) (healthChecks : List HealthEntry) (probes : Nat → Outcome) : Process where
  now := 0
  shutdownRequested := shutdownRequested
  shuttingDownFlag := false
  initialized := true
  main := .booted
  monitor := .notStarted
  healthChecks := healthChecks
  healthMu := none
  probes := probes
  arrived := 0
  requests _ := none
  answers := []
  quitAt := none

def registerHealthCheck (s : Process) (entry : HealthEntry) : Option Process :=
  if s.healthMu.isSome then none else some { s with healthChecks := s.healthChecks ++ [entry] }

def mainStep (s : Process) : Option Process :=
  match s.main with
  | .booted => some { s with main := .started, monitor := .polling }
  | .started => some { s with main := .serving }
  | .serving => some { s with main := .returned }
  | .returned => some { s with main := .joining, shutdownRequested := true }
  | .joining => if s.monitor = .done then some { s with main := .tearingDown } else none
  | .tearingDown => some { s with main := .exited, initialized := false }
  | .exited | .terminated => none

/-- How long the monitor sleeps. -/
def preStopDelay (seconds : Int) : Nat := (1000 * seconds).toNat

def monitorStep (preStopDelaySec : Int) (s : Process) : Option Process :=
  match s.monitor with
  | .polling =>
    if s.shutdownRequested then some { s with monitor := .beginning }
    else some { s with monitor := .napping (s.now + 200) }
  | .napping wake => if wake ≤ s.now then some { s with monitor := .polling } else none
  | .beginning => some { s with monitor := .begun, shuttingDownFlag := true }
  | .begun => some { s with monitor := .sleeping (s.now + preStopDelay preStopDelaySec) }
  | .sleeping wake => if wake ≤ s.now then some { s with monitor := .done, quitAt := some s.now } else none
  | .notStarted | .done => none

/-! ## Requests -/

inductive Move
  /-- Somebody else holds `health_mu_`. -/
  | wait
  | goto (phase : Phase)
  | lock (phase : Phase)
  | answer (endpoint : Endpoint) (reply : Reply)
  /-- The handler throws. -/
  | throw

/-- The call of a critical probe by `all_critical_healthy`. -/
def probeCritical (rest : List HealthEntry) : Outcome → Move
  | .passes => .goto (.probing rest)
  | .fails | .throws .std => .answer .readiness (readyReply false)
  | .throws .other => .throw

def move (s : Process) : Phase → Move
  | .liveness => .answer .liveness alive
  | .readiness => if s.shuttingDownFlag then .answer .readiness draining else .goto .isInitialized
  | .isInitialized => if s.initialized then .goto .allCriticalHealthy else .answer .readiness (readyReply false)
  | .allCriticalHealthy => if s.healthMu.isSome then .wait else .lock (.probing s.healthChecks)
  | .probing [] => .answer .readiness (readyReply true)
  | .probing (e :: rest) => if e.critical then probeCritical rest (s.probes e.probe) else .goto (.probing rest)
  | .health => if s.initialized then .goto .healthReport else .answer .health (healthReply none)
  | .healthReport => if s.healthMu.isSome then .wait else .lock (.reporting s.healthChecks [])
  | .reporting [] report => .answer .health (healthReply (some report))
  | .reporting (e :: rest) report =>
    .goto (.reporting rest (report ++ [⟨e.name, true, s.probes e.probe = .passes, e.critical⟩]))

def put (s : Process) (id : Nat) (phase : Option Phase) : Process :=
  { s with requests := Function.update s.requests id phase }

/-- The lock guard goes out of scope. -/
def finish (s : Process) (id : Nat) : Process :=
  { s.put id none with healthMu := if s.healthMu = some id then none else s.healthMu }

def handle (s : Process) (id : Nat) : Option Process :=
  match s.requests id with
  | none => none
  | some phase =>
    match s.move phase with
    | .wait => none
    | .goto phase => some (s.put id (some phase))
    | .lock phase => some { s.put id (some phase) with healthMu := some id }
    | .answer endpoint reply => some { s.finish id with answers := ⟨id, endpoint, reply⟩ :: s.answers }
    | .throw => some (s.finish id)

def arrive (s : Process) (endpoint : Endpoint) : Process :=
  { s.put s.arrived (some endpoint.first) with arrived := s.arrived + 1 }

def step (preStopDelaySec : Int) (s : Process) (e : Event) : Option Process :=
  if s.main = .exited ∨ s.main = .terminated then none
  else
    match e with
    | .tick => some { s with now := s.now + 1 }
    | .signal => some { s with shutdownRequested := true }
    | .probes probes => some { s with probes := probes }
    | .register entry => s.registerHealthCheck entry
    | .main => s.mainStep
    | .runThrows => if s.main = .serving then some { s with main := .terminated } else none
    | .monitor => s.monitorStep preStopDelaySec
    | .arrive endpoint => if s.main = .serving then some (s.arrive endpoint) else none
    | .handle id => if s.main = .serving then s.handle id else none

end Process

end LlmGuard.Server
