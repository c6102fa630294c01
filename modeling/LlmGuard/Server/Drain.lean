import LlmGuard.Code.Server
import LlmGuard.Lib.Moments

/-!
# The drain

Readiness is off for the whole delay before Drogon is told to stop, and the teardown waits for the monitor.
-/

namespace LlmGuard.Server

open Process Moments

variable {delay : Int} {start mid s s' : Process} {events events' : List Event}

/-- Any interleaving. -/
abbrev Runs (delay : Int) (start : Process) (events : List Event) (s : Process) : Prop :=
  Leads (Process.step delay) start events s

/-! ## One step -/

/-- What a step can do. -/
inductive Transition (delay : Int) (s : Process) : Process → Prop
  | tick : Transition delay s { s with now := s.now + 1 }
  | signal : Transition delay s { s with shutdownRequested := true }
  | probes (probes : Nat → Outcome) : Transition delay s { s with probes := probes }
  | register (entry : HealthEntry) (hfree : s.healthMu = none) :
      Transition delay s { s with healthChecks := s.healthChecks ++ [entry] }
  | main {t : Process} (hmain : s.mainStep = some t) : Transition delay s t
  | terminate (hserving : s.main = .serving) : Transition delay s { s with main := .terminated }
  | monitor {t : Process} (hmonitor : s.monitorStep delay = some t) : Transition delay s t
  | arrive (endpoint : Endpoint) : Transition delay s (s.arrive endpoint)
  | handle {t : Process} (id : Nat) (hserving : s.main = .serving) (hhandle : s.handle id = some t) :
      Transition delay s t

theorem transition_of_step {e : Event} (he : s.step delay e = some s') : Transition delay s s' := by
  unfold Process.step at he
  split at he
  · cases he
  cases e with
  | tick => exact Option.some.inj he ▸ .tick
  | signal => exact Option.some.inj he ▸ .signal
  | probes probes => exact Option.some.inj he ▸ .probes probes
  | register entry =>
    simp only [registerHealthCheck] at he
    split at he
    · cases he
    · rename_i hfree
      exact Option.some.inj he ▸ .register entry (by simpa using hfree)
  | main => exact .main he
  | runThrows =>
    simp only at he
    split at he
    · exact Option.some.inj he ▸ .terminate ‹_›
    · cases he
  | monitor => exact .monitor he
  | arrive endpoint =>
    simp only at he
    split at he
    · exact Option.some.inj he ▸ .arrive endpoint
    · cases he
  | handle id =>
    simp only at he
    split at he
    · exact .handle id ‹_› he
    · cases he

/-- What a request can do. -/
inductive Handled (s : Process) (id : Nat) : Process → Prop
  | goto {phase next : Phase} (hphase : s.requests id = some phase) (hmove : s.move phase = .goto next) :
      Handled s id (s.put id (some next))
  | lock {phase next : Phase} (hphase : s.requests id = some phase) (hmove : s.move phase = .lock next) :
      Handled s id { s.put id (some next) with healthMu := some id }
  | answer {phase : Phase} {endpoint : Endpoint} {reply : Reply} (hphase : s.requests id = some phase)
      (hmove : s.move phase = .answer endpoint reply) :
      Handled s id { s.finish id with answers := ⟨id, endpoint, reply⟩ :: s.answers }
  | throw {phase : Phase} (hphase : s.requests id = some phase) (hmove : s.move phase = .throw) :
      Handled s id (s.finish id)

theorem handled_of_handle {id : Nat} (h : s.handle id = some s') : Handled s id s' := by
  unfold Process.handle at h
  cases hphase : s.requests id with
  | none => simp [hphase] at h
  | some phase =>
    simp only [hphase] at h
    cases hmove : s.move phase with
    | wait => simp [hmove] at h
    | goto next =>
      simp only [hmove] at h
      exact Option.some.inj h ▸ .goto hphase hmove
    | lock next =>
      simp only [hmove] at h
      exact Option.some.inj h ▸ .lock hphase hmove
    | answer endpoint reply =>
      simp only [hmove] at h
      exact Option.some.inj h ▸ .answer hphase hmove
    | throw =>
      simp only [hmove] at h
      exact Option.some.inj h ▸ .throw hphase hmove

/-- Requests leave the threads and the clock alone. -/
structure SameThreads (s s' : Process) : Prop where
  now : s'.now = s.now
  requested : s'.shutdownRequested = s.shutdownRequested
  flag : s'.shuttingDownFlag = s.shuttingDownFlag
  initialized : s'.initialized = s.initialized
  main : s'.main = s.main
  monitor : s'.monitor = s.monitor
  healthChecks : s'.healthChecks = s.healthChecks
  quitAt : s'.quitAt = s.quitAt

theorem Handled.sameThreads {id : Nat} (h : Handled s id s') : SameThreads s s' := by
  cases h <;> constructor <;> rfl

/-! ## The monitor -/

/-- From some moment on the flag was up, for the whole delay before `t`. -/
def FlaggedBefore (delay : Int) (start : Process) (events : List Event) (t : Nat) : Prop :=
  Sometime (Process.step delay) start events fun m => m.shuttingDownFlag = true ∧ m.now + preStopDelay delay ≤ t

/-- What the place of the monitor tells. -/
def Monitored (delay : Int) (start : Process) (events : List Event) (s : Process) : MonitorPhase → Prop
  | .notStarted | .polling => s.shuttingDownFlag = false ∧ s.quitAt = none
  | .napping wake => s.shuttingDownFlag = false ∧ s.quitAt = none ∧ wake ≤ s.now + 200
  | .beginning => s.shuttingDownFlag = false ∧ s.quitAt = none ∧ s.shutdownRequested = true
  | .begun => s.shuttingDownFlag = true ∧ s.quitAt = none ∧ s.shutdownRequested = true
  | .sleeping wake => s.shuttingDownFlag = true ∧ s.quitAt = none ∧ s.shutdownRequested = true ∧
      FlaggedBefore delay start events wake ∧ wake ≤ s.now + preStopDelay delay
  | .done => s.shuttingDownFlag = true ∧ s.shutdownRequested = true ∧
      ∃ t, s.quitAt = some t ∧ FlaggedBefore delay start events t

theorem Monitored.keep {phase : MonitorPhase} (h : Monitored delay start events s phase) (hmore : events <+: events')
    (hflag : s'.shuttingDownFlag = s.shuttingDownFlag) (hquit : s'.quitAt = s.quitAt) (hnow : s.now ≤ s'.now)
    (hrequested : s.shutdownRequested = true → s'.shutdownRequested = true) : Monitored delay start events' s' phase := by
  cases phase with
  | notStarted | polling => exact ⟨hflag.trans h.1, hquit.trans h.2⟩
  | napping wake =>
    obtain ⟨hf, hq, hwake⟩ := h
    exact ⟨hflag.trans hf, hquit.trans hq, by omega⟩
  | beginning | begun =>
    obtain ⟨hf, hq, hreq⟩ := h
    exact ⟨hflag.trans hf, hquit.trans hq, hrequested hreq⟩
  | sleeping wake =>
    obtain ⟨hf, hq, hreq, hbefore, hwake⟩ := h
    exact ⟨hflag.trans hf, hquit.trans hq, hrequested hreq, hbefore.more hmore, by omega⟩
  | done =>
    obtain ⟨hf, hreq, t, hq, hbefore⟩ := h
    exact ⟨hflag.trans hf, hrequested hreq, t, hquit.trans hq, hbefore.more hmore⟩

/-- What every step keeps. -/
structure Inv (delay : Int) (start : Process) (events : List Event) (s : Process) : Prop where
  monitor : Monitored delay start events s s.monitor
  started : s.monitor = .notStarted ↔ s.main = .booted
  joined : s.main = .tearingDown ∨ s.main = .exited → s.monitor = .done
  initialized : s.main ≠ .exited → s.initialized = true

theorem inv_booted (requested : Bool) (checks : List HealthEntry) (probes : Nat → Outcome) :
    Inv delay (booted requested checks probes) events (booted requested checks probes) where
  monitor := ⟨rfl, rfl⟩
  started := by simp [booted]
  joined := by simp [booted]
  initialized _ := rfl

theorem Inv.keep (h : Inv delay start events s) (hmore : events <+: events') (hmonitor : s'.monitor = s.monitor)
    (hmain : s'.main = s.main) (hinitialized : s'.initialized = s.initialized)
    (hflag : s'.shuttingDownFlag = s.shuttingDownFlag) (hquit : s'.quitAt = s.quitAt) (hnow : s.now ≤ s'.now)
    (hrequested : s.shutdownRequested = true → s'.shutdownRequested = true) : Inv delay start events' s' where
  monitor := by
    rw [hmonitor]
    exact h.monitor.keep hmore hflag hquit hnow hrequested
  started := by
    rw [hmonitor, hmain]
    exact h.started
  joined := by
    rw [hmonitor, hmain]
    exact h.joined
  initialized := by
    rw [hmain, hinitialized]
    exact h.initialized

theorem Inv.mainStep (h : Inv delay start events s) (hmore : events <+: events') (hmain : s.mainStep = some s') :
    Inv delay start events' s' := by
  have hbooted := h.started
  have hinit := h.initialized
  unfold Process.mainStep at hmain
  split at hmain <;> rename_i hphase <;> rw [hphase] at hbooted hinit
  · obtain rfl := Option.some.inj hmain
    have hmon := h.monitor
    rw [hbooted.mpr rfl] at hmon
    exact ⟨hmon, by simp, by simp, fun _ => hinit (by simp)⟩
  · obtain rfl := Option.some.inj hmain
    exact ⟨h.monitor.keep hmore rfl rfl (Nat.le_refl _) id,
      by simpa using hbooted, by simp, fun _ => hinit (by simp)⟩
  · obtain rfl := Option.some.inj hmain
    exact ⟨h.monitor.keep hmore rfl rfl (Nat.le_refl _) id,
      by simpa using hbooted, by simp, fun _ => hinit (by simp)⟩
  · obtain rfl := Option.some.inj hmain
    exact ⟨h.monitor.keep hmore rfl rfl (Nat.le_refl _) fun _ => rfl,
      by simpa using hbooted, by simp, fun _ => hinit (by simp)⟩
  · split at hmain
    · rename_i hdone
      obtain rfl := Option.some.inj hmain
      exact ⟨h.monitor.keep hmore rfl rfl (Nat.le_refl _) id,
        by simpa using hbooted, fun _ => hdone, fun _ => hinit (by simp)⟩
    · cases hmain
  · obtain rfl := Option.some.inj hmain
    exact ⟨h.monitor.keep hmore rfl rfl (Nat.le_refl _) id,
      by simpa using hbooted, fun _ => h.joined (.inl hphase), by simp⟩
  · cases hmain
  · cases hmain

theorem Inv.monitorStep (h : Inv delay start events s) (hrun : Runs delay start events s) (hmore : events <+: events')
    (hmonitor : s.monitorStep delay = some s') : Inv delay start events' s' := by
  have hmon := h.monitor
  have hbooted := h.started
  have hjoined := h.joined
  unfold Process.monitorStep at hmonitor
  split at hmonitor <;> rename_i hphase <;> rw [hphase] at hmon hbooted hjoined
  · split at hmonitor
    · rename_i hrequested
      obtain rfl := Option.some.inj hmonitor
      exact ⟨⟨hmon.1, hmon.2, hrequested⟩, by simpa using hbooted, by simpa using hjoined, h.initialized⟩
    · obtain rfl := Option.some.inj hmonitor
      exact ⟨⟨hmon.1, hmon.2, Nat.le_refl _⟩, by simpa using hbooted, by simpa using hjoined, h.initialized⟩
  · split at hmonitor
    · obtain rfl := Option.some.inj hmonitor
      exact ⟨⟨hmon.1, hmon.2.1⟩, by simpa using hbooted, by simpa using hjoined, h.initialized⟩
    · cases hmonitor
  · obtain rfl := Option.some.inj hmonitor
    exact ⟨⟨rfl, hmon.2⟩, by simpa using hbooted, by simpa using hjoined, h.initialized⟩
  · obtain rfl := Option.some.inj hmonitor
    have hbefore : FlaggedBefore delay start events (s.now + preStopDelay delay) :=
      sometime_last hrun ⟨hmon.1, Nat.le_refl _⟩
    exact ⟨⟨hmon.1, hmon.2.1, hmon.2.2, hbefore.more hmore, Nat.le_refl _⟩, by simpa using hbooted,
      by simpa using hjoined, h.initialized⟩
  · split at hmonitor
    · rename_i wake hwake
      obtain rfl := Option.some.inj hmonitor
      obtain ⟨hflag, -, hrequested, hbefore, -⟩ := hmon
      have hquit : FlaggedBefore delay start events s.now := hbefore.mono fun m hm => ⟨hm.1, hm.2.trans hwake⟩
      exact ⟨⟨hflag, hrequested, _, rfl, hquit.more hmore⟩, by simpa using hbooted, fun _ => rfl, h.initialized⟩
    · cases hmonitor
  · cases hmonitor
  · cases hmonitor

theorem Inv.step (h : Inv delay start events s) (hrun : Runs delay start events s) {e : Event}
    (hstep : s.step delay e = some s') : Inv delay start (events ++ [e]) s' := by
  have hmore : events <+: events ++ [e] := List.prefix_append _ _
  cases transition_of_step hstep with
  | tick => exact h.keep hmore rfl rfl rfl rfl rfl (Nat.le_succ _) id
  | signal => exact h.keep hmore rfl rfl rfl rfl rfl (Nat.le_refl _) fun _ => rfl
  | probes | register | arrive => exact h.keep hmore rfl rfl rfl rfl rfl (Nat.le_refl _) id
  | main hmain => exact h.mainStep hmore hmain
  | terminate hserving =>
    have hmon := h.monitor.keep hmore rfl rfl (Nat.le_refl _) id
    have hbooted := h.started
    rw [hserving] at hbooted
    exact ⟨hmon, by simpa using hbooted, by simp, fun _ => h.initialized (by simp [hserving])⟩
  | monitor hmonitor => exact h.monitorStep hrun hmore hmonitor
  | handle id _ hhandle =>
    have hsame := (handled_of_handle hhandle).sameThreads
    exact h.keep hmore hsame.monitor hsame.main hsame.initialized hsame.flag hsame.quitAt hsame.now.ge
      (fun hreq => hsame.requested.trans hreq)

theorem Inv.run (h : Inv delay start [] start) (hrun : Runs delay start events s) : Inv delay start events s :=
  hrun.rec_on h fun _ _ _ _ hbefore hstep ih => ih.step hbefore hstep

theorem mainStep_flag (h : s.mainStep = some s') : s'.shuttingDownFlag = s.shuttingDownFlag := by
  unfold Process.mainStep at h
  grind

theorem monitorStep_flag (h : s.monitorStep delay = some s') (hflag : s.shuttingDownFlag = true) :
    s'.shuttingDownFlag = true := by
  unfold Process.monitorStep at h
  grind

/-- Nobody takes the flag back. -/
theorem stable_flag : Stable (Process.step delay) fun s => s.shuttingDownFlag = true := by
  intro s e s' hstep hflag
  cases transition_of_step hstep with
  | tick | signal | probes | register | terminate | arrive => exact hflag
  | main hmain => exact (mainStep_flag hmain).trans hflag
  | monitor hmonitor => exact monitorStep_flag hmonitor hflag
  | handle id _ hhandle => exact (handled_of_handle hhandle).sameThreads.flag.trans hflag

/-! ## Nobody holds the monitor up -/

def Alive (s : Process) : Prop := ¬ (s.main = .exited ∨ s.main = .terminated)

/-- The clock and the monitor reach `quit` within `n`, whatever the others do not do. -/
def Quits (delay : Int) (n : Nat) (s : Process) : Prop :=
  ∃ events s', (∀ e ∈ events, e = .tick ∨ e = .monitor) ∧ Runs delay s events s' ∧ s'.quitAt.isSome ∧ s'.now ≤ s.now + n

theorem Quits.of_monitor {n : Nat} (halive : Alive s) (hmonitor : s.monitorStep delay = some s')
    (hnow : s'.now = s.now) (h : Quits delay n s') : Quits delay n s := by
  obtain ⟨events, t, honly, hrun, hquit, hle⟩ := h
  have hstep : s.step delay .monitor = some s' := by
    unfold Process.step
    rw [if_neg halive]
    exact hmonitor
  exact ⟨.monitor :: events, t, List.forall_mem_cons.mpr ⟨.inr rfl, honly⟩, leads_cons.mpr ⟨s', hstep, hrun⟩, hquit, by omega⟩

theorem Quits.of_wait {n : Nat} (halive : Alive s) (wait : Nat)
    (h : Quits delay n { s with now := s.now + wait }) : Quits delay (wait + n) s := by
  induction wait generalizing s with
  | zero =>
    rw [Nat.zero_add]
    exact h
  | succ wait ih =>
    have hshift : s.now + (wait + 1) = s.now + 1 + wait := by omega
    rw [hshift] at h
    obtain ⟨events, t, honly, hrun, hquit, hle⟩ := @ih { s with now := s.now + 1 } halive h
    have hstep : s.step delay .tick = some { s with now := s.now + 1 } := by
      unfold Process.step
      rw [if_neg halive]
    simp only at hle
    exact ⟨.tick :: events, t, List.forall_mem_cons.mpr ⟨.inl rfl, honly⟩, leads_cons.mpr ⟨_, hstep, hrun⟩, hquit, by omega⟩

theorem Quits.mono {m n : Nat} (h : Quits delay m s) (hle : m ≤ n) : Quits delay n s := by
  obtain ⟨events, t, honly, hrun, hquit, hnow⟩ := h
  exact ⟨events, t, honly, hrun, hquit, by omega⟩

theorem quits_sleeping (halive : Alive s) {wake n : Nat} (hmonitor : s.monitor = .sleeping wake)
    (hwake : wake ≤ s.now + n) : Quits delay n s := by
  let woken : Process := { s with now := s.now + (wake - s.now) }
  have hwoken : wake ≤ woken.now := by simp only [woken]; omega
  have hstep : woken.monitorStep delay = some { woken with monitor := .done, quitAt := some woken.now } := by
    unfold Process.monitorStep
    simp only [woken, hmonitor]
    exact if_pos hwoken
  have hquits : Quits delay 0 woken := .of_monitor halive hstep rfl ⟨[], _, List.forall_mem_nil _, rfl, rfl, Nat.le_refl _⟩
  exact (Quits.of_wait halive _ hquits).mono (by omega)

theorem quits_begun (halive : Alive s) (hmonitor : s.monitor = .begun) : Quits delay (preStopDelay delay) s := by
  have hstep : s.monitorStep delay = some { s with monitor := .sleeping (s.now + preStopDelay delay) } := by
    unfold Process.monitorStep
    rw [hmonitor]
  refine .of_monitor halive hstep rfl (quits_sleeping ?_ rfl (Nat.le_refl _))
  exact halive

theorem quits_beginning (halive : Alive s) (hmonitor : s.monitor = .beginning) :
    Quits delay (preStopDelay delay) s := by
  have hstep : s.monitorStep delay = some { s with monitor := .begun, shuttingDownFlag := true } := by
    unfold Process.monitorStep
    rw [hmonitor]
  exact .of_monitor halive hstep rfl (quits_begun halive rfl)

theorem quits_polling (halive : Alive s) (hmonitor : s.monitor = .polling) (hrequested : s.shutdownRequested = true) :
    Quits delay (preStopDelay delay) s := by
  have hstep : s.monitorStep delay = some { s with monitor := .beginning } := by
    unfold Process.monitorStep
    rw [hmonitor]
    exact if_pos hrequested
  exact .of_monitor halive hstep rfl (quits_beginning halive rfl)

theorem quits_napping (halive : Alive s) {wake : Nat} (hmonitor : s.monitor = .napping wake)
    (hwake : wake ≤ s.now + 200) (hrequested : s.shutdownRequested = true) :
    Quits delay (200 + preStopDelay delay) s := by
  let woken : Process := { s with now := s.now + (wake - s.now) }
  have hwoken : wake ≤ woken.now := by simp only [woken]; omega
  have hstep : woken.monitorStep delay = some { woken with monitor := .polling } := by
    unfold Process.monitorStep
    simp only [woken, hmonitor]
    exact if_pos hwoken
  have hquits : Quits delay (preStopDelay delay) woken :=
    .of_monitor halive hstep rfl (quits_polling halive rfl hrequested)
  exact (Quits.of_wait halive _ hquits).mono (by omega)

theorem Inv.quits (h : Inv delay start events s) (halive : Alive s) (hstarted : s.main ≠ .booted)
    (hrequested : s.shutdownRequested = true) : Quits delay (200 + preStopDelay delay) s := by
  have hmon := h.monitor
  cases hphase : s.monitor with
  | notStarted => exact absurd (h.started.mp hphase) hstarted
  | polling => exact (quits_polling halive hphase hrequested).mono (by omega)
  | napping wake =>
    rw [hphase] at hmon
    exact quits_napping halive hphase hmon.2.2 hrequested
  | beginning => exact (quits_beginning halive hphase).mono (by omega)
  | begun => exact (quits_begun halive hphase).mono (by omega)
  | sleeping wake =>
    rw [hphase] at hmon
    exact (quits_sleeping halive hphase hmon.2.2.2.2).mono (by omega)
  | done =>
    rw [hphase] at hmon
    obtain ⟨-, -, t, hquit, -⟩ := hmon
    exact ⟨[], s, List.forall_mem_nil _, rfl, by rw [hquit]; rfl, by omega⟩

end LlmGuard.Server
