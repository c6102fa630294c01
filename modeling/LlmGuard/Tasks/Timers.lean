import LlmGuard.Code.Tasks
import LlmGuard.Lib.Moments
import Mathlib.Algebra.Order.BigOperators.Group.List
import Mathlib.Algebra.Order.Group.Nat
import Mathlib.Data.List.Nodup
import Mathlib.Data.List.Perm.Basic

/-!
# The timers behind the tasks

Of the timers that the loop was asked for, those that it was not told to drop are the ones of the scheduled tasks, one
for each. A shutdown drops them all, but not the task of a call that has looked at the flag before.
-/

namespace LlmGuard.Tasks

open Moments Scheduler

/-! ## Requests -/

def Request.timer : Request → Nat
  | .runEvery timer | .invalidateTimer timer => timer

/-- The last request about the timer is the one that started it. -/
def Armed (requests : List Request) (timer : Nat) : Prop :=
  requests.reverse.find? (·.timer = timer) = some (.runEvery timer)

/-- What the scheduler needs of the loop. -/
structure EventLoop.Lawful (loop : EventLoop) : Prop where
  /-- No number is given twice. -/
  fresh : ∀ requests : List Request, .runEvery (loop.runEvery requests) ∉ requests
  /-- Only what was started fires, and not when it was stopped. -/
  armed : ∀ requests timer, loop.fires requests timer → Armed requests timer

variable {loop : EventLoop} {s s' t : Scheduler} {taskId : Bytes} {timer : Nat} {requests : List Request}

theorem not_armed_nil : ¬ Armed [] timer := by simp [Armed]

theorem armed_runEvery (new : Nat) : Armed (requests ++ [.runEvery new]) timer ↔ timer = new ∨ Armed requests timer := by
  unfold Armed
  rw [List.reverse_append, List.reverse_singleton, List.singleton_append, List.find?_cons]
  rcases eq_or_ne timer new with rfl | hne
  · simp [Request.timer]
  · simp [Request.timer, hne, hne.symm]

theorem armed_invalidateTimer (old : Nat) :
    Armed (requests ++ [.invalidateTimer old]) timer ↔ timer ≠ old ∧ Armed requests timer := by
  unfold Armed
  rw [List.reverse_append, List.reverse_singleton, List.singleton_append, List.find?_cons]
  rcases eq_or_ne timer old with rfl | hne
  · simp [Request.timer]
  · simp [Request.timer, hne, hne.symm]

theorem armed_invalidate_all (timers : List (Bytes × Nat)) :
    Armed (requests ++ timers.map fun e => .invalidateTimer e.2) timer ↔
      timer ∉ timers.map Prod.snd ∧ Armed requests timer := by
  induction timers generalizing requests with
  | nil => simp
  | cons e timers ih =>
    rw [List.map_cons, ← List.singleton_append, ← List.append_assoc, ih, armed_invalidateTimer]
    simp only [List.map_cons, List.mem_cons, not_or]
    tauto

theorem Armed.started (h : Armed requests timer) : .runEvery timer ∈ requests :=
  List.mem_reverse.mp (List.mem_of_find?_eq_some h)

theorem not_armed_append {more : List Request} (h : ¬ Armed requests timer) (hmore : .runEvery timer ∉ more) :
    ¬ Armed (requests ++ more) timer := by
  induction more using List.reverseRecOn with
  | nil => rwa [List.append_nil]
  | append_singleton more r ih =>
    simp only [List.mem_append, List.mem_singleton, not_or] at hmore
    rw [← List.append_assoc]
    cases r with
    | runEvery new =>
      rw [armed_runEvery]
      rintro (rfl | harmed)
      · exact hmore.2 rfl
      · exact ih hmore.1 harmed
    | invalidateTimer old =>
      rw [armed_invalidateTimer]
      exact fun harmed => ih hmore.1 harmed.2

/-! ## One step -/

/-- What a call that has waited for the mutex finds. -/
def entering (s : Scheduler) (call : Waiting) : Scheduler := { s with waiting := s.waiting.erase call }

/-- What a step can do. -/
inductive Transition (loop : EventLoop) (s : Scheduler) : Event → Scheduler → Prop
  | initialise (hflag : s.initialized = false) : Transition loop s .initialise { s with initialized := true }
  | scheduleRecurring (taskId : Bytes) (hflag : s.initialized = true) :
      Transition loop s (.scheduleRecurring taskId) { s with waiting := .scheduleRecurring taskId :: s.waiting }
  | shutdown (hflag : s.initialized = true) : Transition loop s .shutdown { s with waiting := .shutdown :: s.waiting }
  | cancel (taskId : Bytes) : Transition loop s (.cancel taskId) (s.cancel taskId).2
  | schedule (taskId : Bytes) (hwaiting : .scheduleRecurring taskId ∈ s.waiting) :
      Transition loop s (.enter (.scheduleRecurring taskId))
        ((entering s (.scheduleRecurring taskId)).schedule loop taskId).2
  | clear (hwaiting : .shutdown ∈ s.waiting) : Transition loop s (.enter .shutdown) (entering s .shutdown).clear

theorem transition_of_step {e : Event} (hstep : s.step loop e = some s') : Transition loop s e s' := by
  cases e with
  | initialise =>
    simp only [step, Option.ite_none_left_eq_some, Option.some.injEq, Bool.not_eq_true] at hstep
    exact hstep.2 ▸ .initialise hstep.1
  | scheduleRecurring taskId =>
    simp only [step, Option.ite_none_right_eq_some, Option.some.injEq] at hstep
    exact hstep.2 ▸ .scheduleRecurring taskId hstep.1
  | shutdown =>
    simp only [step, Option.ite_none_right_eq_some, Option.some.injEq] at hstep
    exact hstep.2 ▸ .shutdown hstep.1
  | cancel taskId =>
    simp only [step, Option.some.injEq] at hstep
    exact hstep ▸ .cancel taskId
  | enter call =>
    simp only [step, Option.ite_none_right_eq_some] at hstep
    obtain ⟨hwaiting, hstep⟩ := hstep
    cases call with
    | scheduleRecurring taskId => exact Option.some.inj hstep ▸ .schedule taskId hwaiting
    | shutdown => exact Option.some.inj hstep ▸ .clear hwaiting

theorem schedule_cases (loop : EventLoop) (s : Scheduler) (taskId : Bytes) :
    (s.schedule loop taskId).2 = s ∨ s.find taskId = none ∧
      (s.schedule loop taskId).2 = { s with
        timers := put taskId (loop.runEvery s.requests) s.timers
        requests := s.requests ++ [.runEvery (loop.runEvery s.requests)] } := by
  unfold Scheduler.schedule
  split
  · exact .inl rfl
  · exact .inr ⟨‹_›, rfl⟩

theorem cancel_cases (s : Scheduler) (taskId : Bytes) :
    (s.cancel taskId).2 = s ∨ ∃ timer, s.find taskId = some timer ∧
      (s.cancel taskId).2 = { s with
        timers := s.timers.filter (·.1 ≠ taskId)
        requests := s.requests ++ [.invalidateTimer timer] } := by
  unfold Scheduler.cancel
  split
  · exact .inl rfl
  · exact .inr ⟨_, ‹_›, rfl⟩

theorem put_perm (taskId : Bytes) (timer : Nat) (timers : List (Bytes × Nat)) :
    (put taskId timer timers).Perm ((taskId, timer) :: timers) := by
  induction timers with
  | nil => exact .refl _
  | cons e timers ih =>
    unfold put
    split
    · exact .refl _
    · exact (ih.cons e).trans (.swap _ _ _)

/-! ## Timers and tasks -/

/-- The armed timers are those of the map, one for each task. -/
structure Inv (s : Scheduler) : Prop where
  tasks : (s.timers.map Prod.fst).Nodup
  timers : (s.timers.map Prod.snd).Nodup
  armed : ∀ timer, Armed s.requests timer ↔ timer ∈ s.timers.map Prod.snd

theorem inv_fresh : Inv fresh := ⟨.nil, .nil, fun _ => iff_of_false not_armed_nil List.not_mem_nil⟩

theorem find_eq_none : s.find taskId = none ↔ taskId ∉ s.timers.map Prod.fst := by
  simp only [find, Option.map_eq_none_iff, List.find?_eq_none, List.mem_map, decide_eq_true_eq]
  push Not
  rfl

theorem Inv.find_eq_some (h : Inv s) : s.find taskId = some timer ↔ (taskId, timer) ∈ s.timers := by
  constructor
  · intro hfind
    obtain ⟨⟨found, number⟩, he, rfl⟩ := Option.map_eq_some_iff.mp hfind
    have htask : found = taskId := by simpa using List.find?_some he
    exact htask ▸ List.mem_of_find?_eq_some he
  · intro hmem
    cases hfind : s.find taskId with
    | none => exact absurd (List.mem_map_of_mem hmem) (find_eq_none.mp hfind)
    | some number =>
      obtain ⟨⟨found, number⟩, he, rfl⟩ := Option.map_eq_some_iff.mp hfind
      have htask : found = taskId := by simpa using List.find?_some he
      have hentry := List.inj_on_of_nodup_map h.tasks (List.mem_of_find?_eq_some he) hmem htask
      rw [hentry]

theorem Inv.entering (h : Inv s) (call : Waiting) : Inv (entering s call) := ⟨h.tasks, h.timers, h.armed⟩

theorem Inv.new_timer (h : Inv s) (hloop : loop.Lawful) : loop.runEvery s.requests ∉ s.timers.map Prod.snd :=
  fun hmem => hloop.fresh s.requests ((h.armed _).mpr hmem).started

theorem Inv.schedule (h : Inv s) (hloop : loop.Lawful) (taskId : Bytes) : Inv (s.schedule loop taskId).2 := by
  obtain heq | ⟨hfind, heq⟩ := schedule_cases loop s taskId <;> rw [heq]
  · exact h
  have hperm := put_perm taskId (loop.runEvery s.requests) s.timers
  refine ⟨(hperm.map _).nodup_iff.mpr ?_, (hperm.map _).nodup_iff.mpr ?_, fun timer => ?_⟩
  · exact List.nodup_cons.mpr ⟨find_eq_none.mp hfind, h.tasks⟩
  · exact List.nodup_cons.mpr ⟨h.new_timer hloop, h.timers⟩
  · simp only [armed_runEvery, h.armed, (hperm.map Prod.snd).mem_iff, List.map_cons, List.mem_cons]

theorem Inv.entry_iff (h : Inv s) (hmem : (taskId, timer) ∈ s.timers) {e : Bytes × Nat} (he : e ∈ s.timers) :
    e.1 = taskId ↔ e.2 = timer := by
  constructor
  · intro htask
    rw [List.inj_on_of_nodup_map h.tasks he hmem htask]
  · intro htimer
    rw [List.inj_on_of_nodup_map h.timers he hmem htimer]

theorem Inv.mem_filter (h : Inv s) (hmem : (taskId, timer) ∈ s.timers) (other : Nat) :
    other ∈ (s.timers.filter (·.1 ≠ taskId)).map Prod.snd ↔ other ≠ timer ∧ other ∈ s.timers.map Prod.snd := by
  simp only [List.mem_map, List.mem_filter, decide_eq_true_eq]
  constructor
  · rintro ⟨e, ⟨he, hne⟩, rfl⟩
    exact ⟨fun heq => hne ((h.entry_iff hmem he).mpr heq), e, he, rfl⟩
  · rintro ⟨hne, e, he, rfl⟩
    exact ⟨e, ⟨he, fun heq => hne ((h.entry_iff hmem he).mp heq)⟩, rfl⟩

theorem Inv.cancel (h : Inv s) (taskId : Bytes) : Inv (s.cancel taskId).2 := by
  obtain heq | ⟨timer, hfind, heq⟩ := cancel_cases s taskId <;> rw [heq]
  · exact h
  refine ⟨h.tasks.sublist (List.filter_sublist.map _), h.timers.sublist (List.filter_sublist.map _), fun other => ?_⟩
  rw [armed_invalidateTimer, h.armed, h.mem_filter (h.find_eq_some.mp hfind)]

theorem Inv.clear (h : Inv s) : Inv s.clear := by
  refine ⟨.nil, .nil, fun timer => iff_of_false (fun harmed => ?_) List.not_mem_nil⟩
  obtain ⟨hnone, harmed⟩ := (armed_invalidate_all s.timers).mp harmed
  exact hnone ((h.armed timer).mp harmed)

theorem Inv.step (h : Inv s) (hloop : loop.Lawful) {e : Event} (hstep : s.step loop e = some s') : Inv s' := by
  cases transition_of_step hstep with
  | initialise | scheduleRecurring | shutdown => exact ⟨h.tasks, h.timers, h.armed⟩
  | cancel taskId => exact h.cancel taskId
  | schedule taskId => exact (h.entering _).schedule hloop taskId
  | clear => exact (h.entering _).clear

theorem Inv.run (h : Inv s) (hloop : loop.Lawful) {events : List Event} (hrun : Leads (Scheduler.step loop) s events t) :
    Inv t :=
  Stable.run (fun _ _ _ hstep h => Inv.step h hloop hstep) hrun h

/-! ## Stopped timers -/

/-- Behind these requests the timer was not started again. -/
def NotAgain (timer : Nat) (before : List Request) (s : Scheduler) : Prop :=
  ∃ more, s.requests = before ++ more ∧ .runEvery timer ∉ more

theorem NotAgain.more (h : NotAgain timer requests s) (new : List Request) (hnew : .runEvery timer ∉ new)
    (hrequests : s'.requests = s.requests ++ new) : NotAgain timer requests s' := by
  obtain ⟨more, heq, hmore⟩ := h
  exact ⟨more ++ new, by rw [hrequests, heq, List.append_assoc], by simp [hmore, hnew]⟩

theorem NotAgain.step (h : NotAgain timer requests s) (hloop : loop.Lawful) (hstarted : .runEvery timer ∈ requests)
    {e : Event} (hstep : s.step loop e = some s') : NotAgain timer requests s' := by
  cases transition_of_step hstep with
  | initialise | scheduleRecurring | shutdown => exact h
  | cancel taskId =>
    obtain heq | ⟨old, -, heq⟩ := cancel_cases s taskId <;> rw [heq]
    · exact h
    · exact h.more [.invalidateTimer old] (by simp) rfl
  | schedule taskId =>
    obtain heq | ⟨-, heq⟩ := schedule_cases loop (entering s (.scheduleRecurring taskId)) taskId <;> rw [heq]
    · exact h
    · refine h.more [.runEvery (loop.runEvery s.requests)] (fun hmem => ?_) rfl
      obtain ⟨more, hrequests, -⟩ := h
      apply hloop.fresh s.requests
      rw [← List.mem_singleton.mp hmem, hrequests]
      exact List.mem_append_left _ hstarted
  | clear => exact h.more (s.timers.map fun e => .invalidateTimer e.2) (by simp) rfl

theorem NotAgain.run (h : NotAgain timer requests s) (hloop : loop.Lawful) (hstarted : .runEvery timer ∈ requests)
    {events : List Event} (hrun : Leads (Scheduler.step loop) s events t) : NotAgain timer requests t :=
  Stable.run (fun _ _ _ hstep h => NotAgain.step h hloop hstarted hstep) hrun h

/-- Whatever the loop has carried out of what it was asked. -/
theorem NotAgain.not_armed (h : NotAgain timer requests t) (hnot : ¬ Armed requests timer) {done : List Request}
    (hfirst : requests <+: done) (hdone : done <+: t.requests) : ¬ Armed done timer := by
  obtain ⟨more, hrequests, hmore⟩ := h
  obtain ⟨part, rfl⟩ := hfirst
  rw [hrequests, List.prefix_append_right_inj] at hdone
  exact not_armed_append hnot fun hmem => hmore (hdone.subset hmem)

theorem Inv.stopped (h : Inv s) (hfind : s.find taskId = some timer)
    (hstep : s.step loop (.cancel taskId) = some s' ∨ s.step loop (.enter .shutdown) = some s') :
    .runEvery timer ∈ s'.requests ∧ ¬ Armed s'.requests timer := by
  have hmem : timer ∈ s.timers.map Prod.snd := List.mem_map_of_mem (h.find_eq_some.mp hfind)
  have hstarted : .runEvery timer ∈ s.requests := ((h.armed timer).mpr hmem).started
  rcases hstep with hstep | hstep
  · cases transition_of_step hstep
    have heq : (s.cancel taskId).2.requests = s.requests ++ [.invalidateTimer timer] := by simp [Scheduler.cancel, hfind]
    rw [heq, armed_invalidateTimer]
    exact ⟨List.mem_append_left _ hstarted, fun harmed => harmed.1 rfl⟩
  · cases transition_of_step hstep
    refine ⟨List.mem_append_left _ hstarted, fun harmed => ?_⟩
    exact ((armed_invalidate_all s.timers).mp harmed).1 hmem

/-! ## After a shutdown -/

/-- The calls past their look at the flag are the only source of tasks. -/
structure Closed (calls : List Waiting) (s : Scheduler) : Prop where
  flag : s.initialized = false
  waiting : s.waiting ⊆ calls
  timers : ∀ e ∈ s.timers, .scheduleRecurring e.1 ∈ calls

variable {calls : List Waiting}

theorem closed_clear (s : Scheduler) : Closed s.waiting s.clear := ⟨rfl, List.Subset.refl _, List.forall_mem_nil _⟩

theorem Closed.schedule (h : Closed calls s) (hcall : .scheduleRecurring taskId ∈ calls) :
    Closed calls (s.schedule loop taskId).2 := by
  obtain heq | ⟨-, heq⟩ := schedule_cases loop s taskId <;> rw [heq]
  · exact h
  refine ⟨h.flag, h.waiting, fun e he => ?_⟩
  rcases List.mem_cons.mp ((put_perm taskId _ s.timers).mem_iff.mp he) with rfl | he
  · exact hcall
  · exact h.timers e he

theorem Closed.cancel (h : Closed calls s) (taskId : Bytes) : Closed calls (s.cancel taskId).2 := by
  obtain heq | ⟨timer, -, heq⟩ := cancel_cases s taskId <;> rw [heq]
  · exact h
  · exact ⟨h.flag, h.waiting, fun e he => h.timers e (List.mem_of_mem_filter he)⟩

theorem Closed.entering (h : Closed calls s) (call : Waiting) : Closed calls (entering s call) :=
  ⟨h.flag, fun _ hmem => h.waiting (List.mem_of_mem_erase hmem), h.timers⟩

theorem Closed.step (h : Closed calls s) {e : Event} (hquiet : e ≠ .initialise) (hstep : s.step loop e = some s') :
    Closed calls s' := by
  cases transition_of_step hstep with
  | initialise => exact absurd rfl hquiet
  | scheduleRecurring _ hflag | shutdown hflag => simp [h.flag] at hflag
  | cancel taskId => exact h.cancel taskId
  | schedule taskId hwaiting => exact (h.entering _).schedule (h.waiting hwaiting)
  | clear => exact ⟨rfl, (h.entering _).waiting, List.forall_mem_nil _⟩

theorem Closed.run (h : Closed calls s) {events : List Event} (hrun : Leads (Scheduler.step loop) s events t)
    (hquiet : .initialise ∉ events) : Closed calls t := by
  revert hquiet
  refine hrun.rec_on (fun _ => h) fun events b e c _ hstep ih hquiet => ?_
  simp only [List.mem_append, List.mem_singleton, not_or] at hquiet
  exact (ih hquiet.1).step (Ne.symm hquiet.2) hstep

/-- What `shutdown` leaves when it gets the mutex. -/
theorem closed_shutdown (hstep : s.step loop (.enter .shutdown) = some s') : Closed s'.waiting s' := by
  cases transition_of_step hstep
  exact closed_clear (entering s .shutdown)

/-- The timers that were started and not stopped are those of the tasks, one for each, and the loop fires no others when
it has carried out what it was asked. A timer that `cancel` or `shutdown` stops belongs to no task again, and the loop
fires it never again once it has carried that out. After a shutdown there are no tasks but those of the calls it did not
wait for. -/
theorem timers_of_run (hloop : loop.Lawful) {events : List Event} (hrun : Leads (Scheduler.step loop) fresh events s) :
    (∀ timer, Armed s.requests timer ↔ ∃! taskId, s.find taskId = some timer) ∧
    (∀ timer, loop.fires s.requests timer → ∃! taskId, s.find taskId = some timer) ∧
    (∀ taskId timer s' t later, s.find taskId = some timer →
      (s.step loop (.cancel taskId) = some s' ∨ s.step loop (.enter .shutdown) = some s') →
      Leads (Scheduler.step loop) s' later t →
      (∀ other, t.find other ≠ some timer) ∧
      ∀ done, s'.requests <+: done → done <+: t.requests → ¬ loop.fires done timer) ∧
    (∀ s' t later, s.step loop (.enter .shutdown) = some s' → Leads (Scheduler.step loop) s' later t → .initialise ∉ later →
      ∀ taskId timer, t.find taskId = some timer → .scheduleRecurring taskId ∈ s'.waiting) := by
  have hinv := inv_fresh.run hloop hrun
  have harmed : ∀ timer, Armed s.requests timer ↔ ∃! taskId, s.find taskId = some timer := by
    intro timer
    simp only [hinv.find_eq_some, hinv.armed, List.mem_map]
    constructor
    · rintro ⟨⟨taskId, number⟩, hmem, rfl⟩
      refine ⟨taskId, hmem, fun other hother => ?_⟩
      exact congrArg Prod.fst (List.inj_on_of_nodup_map hinv.timers hother hmem rfl)
    · rintro ⟨taskId, hmem, -⟩
      exact ⟨_, hmem, rfl⟩
  refine ⟨harmed, fun timer hfires => (harmed timer).mp (hloop.armed _ _ hfires), ?_, ?_⟩
  · intro taskId timer s' t later hfind hstep hlater
    obtain ⟨hstarted, hnot⟩ := hinv.stopped hfind hstep
    have hagain : NotAgain timer s'.requests t :=
      NotAgain.run ⟨[], (List.append_nil _).symm, List.not_mem_nil⟩ hloop hstarted hlater
    have hinv' : Inv t := Inv.run (hstep.elim (hinv.step hloop) (hinv.step hloop)) hloop hlater
    refine ⟨fun other hother => ?_, fun done hfirst hdone hfires => ?_⟩
    · obtain ⟨more, hrequests, -⟩ := id hagain
      apply hagain.not_armed hnot (hrequests ▸ List.prefix_append _ _) List.prefix_rfl
      exact (hinv'.armed timer).mpr (List.mem_map_of_mem (hinv'.find_eq_some.mp hother))
    · exact hagain.not_armed hnot hfirst hdone (hloop.armed _ _ hfires)
  · intro s' t later hstep hlater hquiet taskId timer hfind
    obtain ⟨e, he, -⟩ := Option.map_eq_some_iff.mp hfind
    have htask : e.1 = taskId := by simpa using List.find?_some he
    exact htask ▸ ((closed_shutdown hstep).run hlater hquiet).timers e (List.mem_of_find?_eq_some he)

/-- Numbers its timers, and fires what is armed. -/
def countingLoop : EventLoop where
  runEvery requests := (requests.map Request.timer).sum + requests.length
  fires := Armed

theorem countingLoop_lawful : countingLoop.Lawful where
  fresh requests hmem := by
    have hle : (requests.map Request.timer).sum + requests.length ≤ (requests.map Request.timer).sum :=
      List.single_le_sum (fun _ _ => Nat.zero_le _) _ (List.mem_map_of_mem (f := Request.timer) hmem)
    have hpos := List.length_pos_of_mem hmem
    omega
  armed _ _ h := h

/-- A refresher is stopped, and another that waited for the mutex is scheduled after the shutdown. -/
theorem timers_of_run_sample :
    let s : Scheduler := ⟨true, [([1], 0)], [.runEvery 0], [.shutdown, .scheduleRecurring [2]]⟩
    let s' : Scheduler := ⟨false, [], [.runEvery 0, .invalidateTimer 0], [.scheduleRecurring [2]]⟩
    let t : Scheduler := ⟨false, [([2], 2)], [.runEvery 0, .invalidateTimer 0, .runEvery 2], []⟩
    s.step countingLoop (.enter .shutdown) = some s' ∧
    s'.step countingLoop (.enter (.scheduleRecurring [2])) = some t ∧
    (∃! taskId, s.find taskId = some 0) ∧ ¬ countingLoop.fires t.requests 0 ∧ .scheduleRecurring [2] ∈ s'.waiting := by
  intro s s' t
  have hs : Leads (Scheduler.step countingLoop) fresh [.initialise, .scheduleRecurring [1], .enter (.scheduleRecurring [1]),
      .scheduleRecurring [2], .shutdown] s := by
    unfold Leads
    decide
  have hstep : s.step countingLoop (.enter .shutdown) = some s' := by decide
  have hlast : s'.step countingLoop (.enter (.scheduleRecurring [2])) = some t := by decide
  obtain ⟨-, hfires, hstopped, hclosed⟩ := timers_of_run countingLoop_lawful hs
  have hlater : Leads (Scheduler.step countingLoop) s' [.enter (.scheduleRecurring [2])] t := hlast
  refine ⟨hstep, hlast, hfires 0 (show Armed [.runEvery 0] 0 from rfl), ?_, ?_⟩
  · exact (hstopped [1] 0 s' t _ (by decide) (.inr hstep) hlater).2 t.requests (by decide) List.prefix_rfl
  · exact hclosed s' t _ hstep hlater (by decide) [2] 2 (by decide)

end LlmGuard.Tasks
