import LlmGuard.Server.Drain

/-!
# What the health endpoints answer

Every answer is true of some moment between the arrival of its request and the answer, whatever the probes and the other
threads do meanwhile.
-/

namespace LlmGuard.Server

open Process Moments

variable {delay : Int} {start mid s s' : Process} {events events' : List Event}

/-! ## Requests and their numbers -/

/-- Requests are numbered as they arrive. -/
structure Numbered (s : Process) : Prop where
  requests : ∀ id phase, s.requests id = some phase → id < s.arrived
  answers : ∀ a ∈ s.answers, a.id < s.arrived

theorem Numbered.put (h : Numbered s) {id : Nat} {phase : Option Phase} (hid : id < s'.arrived)
    (harrived : s.arrived ≤ s'.arrived) (hrequests : s'.requests = Function.update s.requests id phase)
    (hanswers : ∀ a ∈ s'.answers, a.id = id ∨ a ∈ s.answers) : Numbered s' where
  requests id' phase' hphase' := by
    rw [hrequests] at hphase'
    rcases eq_or_ne id' id with rfl | hne
    · exact hid
    · rw [Function.update_of_ne hne] at hphase'
      exact (h.requests id' phase' hphase').trans_le harrived
  answers a ha := by
    rcases hanswers a ha with rfl | ha
    · exact hid
    · exact (h.answers a ha).trans_le harrived

/-- Main and the monitor leave the requests alone. -/
structure SameRequests (s s' : Process) : Prop where
  arrived : s'.arrived = s.arrived
  requests : s'.requests = s.requests
  answers : s'.answers = s.answers
  healthChecks : s'.healthChecks = s.healthChecks
  healthMu : s'.healthMu = s.healthMu

theorem SameRequests.keeps (h : SameRequests s s') : s.healthChecks ⊆ s'.healthChecks :=
  h.healthChecks ▸ List.Subset.refl _

theorem sameRequests_main (h : s.mainStep = some s') : SameRequests s s' := by
  unfold Process.mainStep at h
  constructor <;> grind

theorem sameRequests_monitor (h : s.monitorStep delay = some s') : SameRequests s s' := by
  unfold Process.monitorStep at h
  constructor <;> grind

theorem Numbered.step (h : Numbered s) {e : Event} (hstep : s.step delay e = some s') : Numbered s' := by
  cases transition_of_step hstep with
  | tick | signal | probes | register | terminate => exact ⟨h.requests, h.answers⟩
  | main hmain =>
    obtain ⟨harrived, hrequests, hanswers, -, -⟩ := sameRequests_main hmain
    exact ⟨by rw [hrequests, harrived]; exact h.requests, by rw [hanswers, harrived]; exact h.answers⟩
  | monitor hmonitor =>
    obtain ⟨harrived, hrequests, hanswers, -, -⟩ := sameRequests_monitor hmonitor
    exact ⟨by rw [hrequests, harrived]; exact h.requests, by rw [hanswers, harrived]; exact h.answers⟩
  | arrive endpoint => exact h.put (Nat.lt_succ_self _) (Nat.le_succ _) rfl fun a ha => .inr ha
  | handle id _ hhandle =>
    cases handled_of_handle hhandle with
    | goto hphase | lock hphase | throw hphase =>
      exact h.put (h.requests _ _ hphase) (Nat.le_refl _) rfl fun a ha => .inr ha
    | answer hphase =>
      exact h.put (h.requests _ _ hphase) (Nat.le_refl _) rfl
        fun a ha => (List.mem_cons.mp ha).imp_left fun ha => by rw [ha]

theorem Numbered.run (h : Numbered start) (hrun : Runs delay start events s) : Numbered s :=
  hrun.rec_on h fun _ _ _ _ _ hstep ih => ih.step hstep

/-! ## The lock -/

/-- What a request under the lock has still to go through. -/
def Phase.rest : Phase → Option (List HealthEntry)
  | .probing rest | .reporting rest _ => some rest
  | _ => none

/-- Who goes through the health checks holds the lock, and what it has to go through is the end of the list. -/
def Locked (s : Process) : Prop :=
  ∀ id phase rest, s.requests id = some phase → phase.rest = some rest → s.healthMu = some id ∧ rest <:+ s.healthChecks

theorem rest_of_goto {phase next : Phase} (hmove : s.move phase = .goto next) {rest : List HealthEntry}
    (hrest : next.rest = some rest) : ∃ before, phase.rest = some before ∧ rest <:+ before := by
  unfold Process.move at hmove
  split at hmove
  case h_6 e tail =>
    refine ⟨e :: tail, rfl, ?_⟩
    unfold probeCritical at hmove
    split at hmove
    · split at hmove
      · obtain rfl := Move.goto.inj hmove
        obtain rfl := Option.some.inj hrest
        exact List.suffix_cons e tail
      all_goals cases hmove
    · obtain rfl := Move.goto.inj hmove
      obtain rfl := Option.some.inj hrest
      exact List.suffix_cons e tail
  case h_10 e tail report =>
    obtain rfl := Move.goto.inj hmove
    obtain rfl := Option.some.inj hrest
    exact ⟨e :: tail, rfl, List.suffix_cons e tail⟩
  case h_2 | h_3 | h_7 =>
    split at hmove
    all_goals cases hmove
    all_goals cases hrest
  case h_4 | h_8 => split at hmove <;> cases hmove
  all_goals cases hmove

theorem rest_of_lock {phase next : Phase} (hmove : s.move phase = .lock next) :
    s.healthMu = none ∧ next.rest = some s.healthChecks := by
  unfold Process.move at hmove
  split at hmove
  case h_4 | h_8 =>
    split at hmove
    · cases hmove
    · rename_i hfree
      obtain rfl := Move.lock.inj hmove
      exact ⟨by simpa using hfree, rfl⟩
  case h_6 =>
    unfold probeCritical at hmove
    split at hmove
    · split at hmove <;> cases hmove
    · cases hmove
  case h_2 | h_3 | h_7 => split at hmove <;> cases hmove
  all_goals cases hmove

theorem Locked.handle (h : Locked s) {id : Nat} (hhandled : Handled s id s') : Locked s' := by
  intro id' phase' rest hphase' hrest
  have hold : id' ≠ id → s.requests id' = some phase' := fun hne => by
    cases hhandled <;> exact (Function.update_of_ne hne _ _).symm.trans hphase'
  cases hhandled with
  | @goto phase next hphase hmove =>
    rcases eq_or_ne id' id with rfl | hne
    · obtain rfl : next = phase' := Option.some.inj ((Function.update_self id' _ _).symm.trans hphase')
      obtain ⟨before, hbefore, hsuffix⟩ := rest_of_goto hmove hrest
      obtain ⟨hmu, hlist⟩ := h id' phase before hphase hbefore
      exact ⟨hmu, hsuffix.trans hlist⟩
    · exact h id' phase' rest (hold hne) hrest
  | @lock phase next hphase hmove =>
    obtain ⟨hfree, hall⟩ := rest_of_lock hmove
    rcases eq_or_ne id' id with rfl | hne
    · obtain rfl : next = phase' := Option.some.inj ((Function.update_self id' _ _).symm.trans hphase')
      obtain rfl := Option.some.inj (hall.symm.trans hrest)
      exact ⟨rfl, List.suffix_rfl⟩
    · exact absurd ((h id' phase' rest (hold hne) hrest).1.symm.trans hfree) nofun
  | answer hphase hmove | throw hphase hmove =>
    rcases eq_or_ne id' id with rfl | hne
    · exact absurd ((Function.update_self id' _ _).symm.trans hphase') nofun
    · obtain ⟨hmu, hlist⟩ := h id' phase' rest (hold hne) hrest
      refine ⟨?_, hlist⟩
      simp only [Process.finish]
      rw [if_neg (by rw [hmu]; simpa using hne)]
      exact hmu

theorem Locked.step (h : Locked s) {e : Event} (hstep : s.step delay e = some s') : Locked s' := by
  cases transition_of_step hstep with
  | tick | signal | probes | terminate => exact h
  | register entry hfree =>
    intro id phase rest hphase hrest
    exact absurd ((h id phase rest hphase hrest).1.symm.trans hfree) nofun
  | main hmain =>
    obtain ⟨-, hrequests, -, hchecks, hmu⟩ := sameRequests_main hmain
    unfold Locked
    rw [hrequests, hchecks, hmu]
    exact h
  | monitor hmonitor =>
    obtain ⟨-, hrequests, -, hchecks, hmu⟩ := sameRequests_monitor hmonitor
    unfold Locked
    rw [hrequests, hchecks, hmu]
    exact h
  | arrive endpoint =>
    intro id phase rest hphase hrest
    rcases eq_or_ne id s.arrived with rfl | hne
    · obtain rfl : endpoint.first = phase := Option.some.inj ((Function.update_self s.arrived _ _).symm.trans hphase)
      cases endpoint <;> cases hrest
    · exact h id phase rest ((Function.update_of_ne hne _ _).symm.trans hphase) hrest
  | handle id _ hhandle => exact h.handle (handled_of_handle hhandle)

/-- One request at a time calls the probes, and the list does not change under it. -/
theorem locked_run (hstart : Locked start) (hrun : Runs delay start events s) : Locked s :=
  hrun.rec_on hstart fun _ _ _ _ _ hstep ih => ih.step hstep

theorem locked_booted (requested : Bool) (checks : List HealthEntry) (probes : Nat → Outcome) :
    Locked (booted requested checks probes) := fun _ _ _ hphase _ => by cases hphase

/-! ## What an answer says -/

def Passed (delay : Int) (mid : Process) (events : List Event) (e : HealthEntry) : Prop :=
  Sometime (Process.step delay) mid events fun m => m.probes e.probe = .passes

/-- The entry was there, and its probe would not pass. -/
def Failed (delay : Int) (mid : Process) (events : List Event) (e : HealthEntry) : Prop :=
  Sometime (Process.step delay) mid events fun m => e ∈ m.healthChecks ∧ m.probes e.probe ≠ .passes

def NotYetDraining (delay : Int) (mid : Process) (events : List Event) : Prop :=
  Sometime (Process.step delay) mid events fun m => ¬ m.shuttingDownFlag = true

def Draining (delay : Int) (mid : Process) (events : List Event) : Prop :=
  Sometime (Process.step delay) mid events fun m => m.shuttingDownFlag = true

/-- A line of the report is about this entry, and was true. -/
def Reports (delay : Int) (mid : Process) (events : List Event) (c : ComponentHealth) (e : HealthEntry) : Prop :=
  c.name = e.name ∧ c.critical = e.critical ∧ (c.healthy = true → Passed delay mid events e) ∧
    (c.healthy = false → Failed delay mid events e)

/-- The report has a line for each entry of before, and no other lines. -/
structure Reported (delay : Int) (mid : Process) (events : List Event) (rest : List HealthEntry)
    (report : List ComponentHealth) : Prop where
  entries : ∀ e ∈ mid.healthChecks, e ∈ rest ∨ ∃ c ∈ report, Reports delay mid events c e
  lines : ∀ c ∈ report, ∃ e, Reports delay mid events c e

/-- What a request that came after `mid` has seen. -/
def Seen (delay : Int) (mid : Process) (events : List Event) (s : Process) : Phase → Prop
  | .liveness | .readiness | .health | .healthReport => True
  | .isInitialized | .allCriticalHealthy => NotYetDraining delay mid events
  | .probing rest => NotYetDraining delay mid events ∧ rest ⊆ s.healthChecks ∧
      ∀ e ∈ mid.healthChecks, e.critical = true → e ∈ rest ∨ Passed delay mid events e
  | .reporting rest report => rest ⊆ s.healthChecks ∧ Reported delay mid events rest report

/-- What the answer to a request that came after `mid` is true of. -/
def Answered (delay : Int) (mid : Process) (events : List Event) (a : Answer) : Prop :=
  match a.endpoint with
  | .liveness => a.reply = alive
  | .readiness =>
    a.reply = draining ∧ Draining delay mid events ∨
      a.reply = readyReply true ∧ NotYetDraining delay mid events ∧
        (∀ e ∈ mid.healthChecks, e.critical = true → Passed delay mid events e) ∨
      a.reply = readyReply false ∧ NotYetDraining delay mid events ∧ ∃ e, e.critical = true ∧ Failed delay mid events e
  | .health => ∃ report, a.reply = healthReply (some report) ∧ Reported delay mid events [] report

section keep

variable (hmore : events <+: events')

include hmore

theorem Reports.more {c : ComponentHealth} {e : HealthEntry} (h : Reports delay mid events c e) :
    Reports delay mid events' c e :=
  ⟨h.1, h.2.1, fun hhealthy => (h.2.2.1 hhealthy).more hmore, fun hhealthy => (h.2.2.2 hhealthy).more hmore⟩

theorem Reported.more {rest : List HealthEntry} {report : List ComponentHealth} (h : Reported delay mid events rest report) :
    Reported delay mid events' rest report where
  entries e he := (h.entries e he).imp_right fun ⟨c, hc, hreports⟩ => ⟨c, hc, hreports.more hmore⟩
  lines c hc := (h.lines c hc).imp fun _ hreports => hreports.more hmore

theorem Seen.more {phase : Phase} (h : Seen delay mid events s phase) (hchecks : s.healthChecks ⊆ s'.healthChecks) :
    Seen delay mid events' s' phase := by
  cases phase with
  | liveness | readiness | health | healthReport => trivial
  | isInitialized | allCriticalHealthy => exact Sometime.more h hmore
  | probing rest =>
    obtain ⟨hflag, hrest, hpassed⟩ := h
    exact ⟨hflag.more hmore, List.Subset.trans hrest hchecks,
      fun e he hcritical => (hpassed e he hcritical).imp_right (·.more hmore)⟩
  | reporting rest report => exact ⟨List.Subset.trans h.1 hchecks, h.2.more hmore⟩

theorem Answered.more {a : Answer} (h : Answered delay mid events a) : Answered delay mid events' a := by
  unfold Answered at h ⊢
  cases hend : a.endpoint with
  | liveness =>
    rw [hend] at h
    exact h
  | readiness =>
    rw [hend] at h
    rcases h with ⟨hreply, hflag⟩ | ⟨hreply, hflag, hpassed⟩ | ⟨hreply, hflag, e, hcritical, hfailed⟩
    · exact .inl ⟨hreply, hflag.more hmore⟩
    · exact .inr (.inl ⟨hreply, hflag.more hmore, fun e he hcritical => (hpassed e he hcritical).more hmore⟩)
    · exact .inr (.inr ⟨hreply, hflag.more hmore, e, hcritical, hfailed.more hmore⟩)
  | health =>
    rw [hend] at h
    obtain ⟨report, hreply, hreported⟩ := h
    exact ⟨report, hreply, hreported.more hmore⟩

end keep

/-! ## A request moves on -/

theorem reports_now (hrun : Runs delay mid events s) (hmore : events <+: events') {e : HealthEntry} (he : e ∈ s.healthChecks) :
    Reports delay mid events' ⟨e.name, true, s.probes e.probe = .passes, e.critical⟩ e := by
  refine ⟨rfl, rfl, fun hhealthy => ?_, fun hhealthy => ?_⟩
  · exact sometime_now hrun hmore (by simpa using hhealthy)
  · exact sometime_now hrun hmore ⟨he, by simpa using hhealthy⟩

theorem seen_goto (hrun : Runs delay mid events s) (hmore : events <+: events') (hchecks : s.healthChecks = s'.healthChecks)
    {phase next : Phase} (hseen : Seen delay mid events s phase) (hmove : s.move phase = .goto next) :
    Seen delay mid events' s' next := by
  cases phase with
  | liveness => simp [Process.move] at hmove
  | readiness =>
    simp only [Process.move] at hmove
    split at hmove
    · cases hmove
    · obtain rfl := Move.goto.inj hmove
      exact sometime_now hrun hmore ‹_›
  | isInitialized =>
    simp only [Process.move] at hmove
    split at hmove
    · obtain rfl := Move.goto.inj hmove
      exact Sometime.more hseen hmore
    · cases hmove
  | allCriticalHealthy | healthReport =>
    simp only [Process.move] at hmove
    split at hmove <;> cases hmove
  | health =>
    simp only [Process.move] at hmove
    split at hmove
    · obtain rfl := Move.goto.inj hmove
      trivial
    · cases hmove
  | probing rest =>
    cases rest with
    | nil => simp [Process.move] at hmove
    | cons e rest =>
      obtain ⟨hflag, hrest, hpassed⟩ := hseen
      rw [List.cons_subset, hchecks] at hrest
      simp only [Process.move] at hmove
      split at hmove
      · rename_i hcritical
        cases houtcome : s.probes e.probe with
        | passes =>
          rw [houtcome] at hmove
          obtain rfl := Move.goto.inj hmove
          refine ⟨hflag.more hmore, hrest.2, fun d hd hd' => ?_⟩
          rcases hpassed d hd hd' with hmem | hpass
          · rcases List.mem_cons.mp hmem with rfl | hmem
            · exact .inr (sometime_now hrun hmore houtcome)
            · exact .inl hmem
          · exact .inr (hpass.more hmore)
        | fails =>
          rw [houtcome] at hmove
          cases hmove
        | throws thrown =>
          rw [houtcome] at hmove
          cases thrown <;> cases hmove
      · rename_i hcritical
        obtain rfl := Move.goto.inj hmove
        refine ⟨hflag.more hmore, hrest.2, fun d hd hd' => ?_⟩
        rcases hpassed d hd hd' with hmem | hpass
        · rcases List.mem_cons.mp hmem with rfl | hmem
          · exact absurd hd' hcritical
          · exact .inl hmem
        · exact .inr (hpass.more hmore)
  | reporting rest report =>
    cases rest with
    | nil => simp [Process.move] at hmove
    | cons e rest =>
      obtain ⟨hrest, hreported⟩ := hseen
      obtain ⟨he, hrest⟩ := List.cons_subset.mp hrest
      obtain rfl := Move.goto.inj hmove
      have hnow := reports_now hrun hmore he
      refine ⟨hchecks ▸ hrest, ?_, ?_⟩
      · intro d hd
        rcases hreported.entries d hd with hmem | ⟨c, hc, hreports⟩
        · rcases List.mem_cons.mp hmem with rfl | hmem
          · exact .inr ⟨_, List.mem_append_right _ List.mem_cons_self, hnow⟩
          · exact .inl hmem
        · exact .inr ⟨c, List.mem_append_left _ hc, hreports.more hmore⟩
      · intro c hc
        rcases List.mem_append.mp hc with hc | hc
        · exact (hreported.lines c hc).imp fun _ hreports => hreports.more hmore
        · exact ⟨e, List.mem_singleton.mp hc ▸ hnow⟩

theorem seen_lock (hmore : events <+: events') (hsub : s.healthChecks ⊆ s'.healthChecks)
    (hmid : mid.healthChecks ⊆ s.healthChecks) {phase next : Phase} (hseen : Seen delay mid events s phase)
    (hmove : s.move phase = .lock next) : Seen delay mid events' s' next := by
  unfold Process.move at hmove
  split at hmove
  case h_4 =>
    split at hmove
    · cases hmove
    · obtain rfl := Move.lock.inj hmove
      exact ⟨Sometime.more hseen hmore, hsub, fun e he _ => .inl (hmid he)⟩
  case h_8 =>
    split at hmove
    · cases hmove
    · obtain rfl := Move.lock.inj hmove
      exact ⟨hsub, fun e he => .inl (hmid he), by simp⟩
  case h_6 =>
    split at hmove
    · unfold probeCritical at hmove
      split at hmove <;> cases hmove
    · cases hmove
  all_goals
    try split at hmove
    all_goals cases hmove

theorem answered_of_move (hrun : Runs delay mid events s) (hmore : events <+: events') (hinitialized : s.initialized = true)
    {phase : Phase} {endpoint : Endpoint} {reply : Reply} (hseen : Seen delay mid events s phase)
    (hmove : s.move phase = .answer endpoint reply) (id : Nat) : Answered delay mid events' ⟨id, endpoint, reply⟩ := by
  unfold Process.move at hmove
  split at hmove
  case h_1 =>
    obtain ⟨rfl, rfl⟩ := Move.answer.inj hmove
    rfl
  case h_2 =>
    split at hmove
    · obtain ⟨rfl, rfl⟩ := Move.answer.inj hmove
      exact .inl ⟨rfl, sometime_now hrun hmore ‹_›⟩
    · cases hmove
  case h_5 =>
    obtain ⟨rfl, rfl⟩ := Move.answer.inj hmove
    obtain ⟨hflag, -, hpassed⟩ := hseen
    refine .inr (.inl ⟨rfl, hflag.more hmore, fun e he hcritical => ?_⟩)
    rcases hpassed e he hcritical with hmem | hpass
    · exact absurd hmem List.not_mem_nil
    · exact hpass.more hmore
  case h_6 e rest =>
    obtain ⟨hflag, hrest, -⟩ := hseen
    split at hmove
    · rename_i hcritical
      have hfailed : s.probes e.probe ≠ .passes → Failed delay mid events' e := fun hne =>
        sometime_now hrun hmore ⟨hrest List.mem_cons_self, hne⟩
      unfold probeCritical at hmove
      split at hmove
      case h_1 | h_4 => cases hmove
      all_goals
        rename_i houtcome
        obtain ⟨rfl, rfl⟩ := Move.answer.inj hmove
        exact .inr (.inr ⟨rfl, hflag.more hmore, e, hcritical, hfailed (by simp [houtcome])⟩)
    · cases hmove
  case h_9 =>
    obtain ⟨rfl, rfl⟩ := Move.answer.inj hmove
    exact ⟨_, rfl, hseen.2.more hmore⟩
  case h_3 | h_7 =>
    rw [if_pos hinitialized] at hmove
    cases hmove
  case h_4 | h_8 =>
    split at hmove <;> cases hmove
  case h_10 => cases hmove

/-! ## Runs -/

/-- What holds of the requests that come after `mid`. -/
structure Kept (delay : Int) (mid : Process) (events : List Event) (s : Process) : Prop where
  checks : mid.healthChecks ⊆ s.healthChecks
  requests : ∀ id, mid.arrived ≤ id → ∀ phase, s.requests id = some phase → Seen delay mid events s phase
  answers : ∀ a ∈ s.answers, mid.arrived ≤ a.id → Answered delay mid events a

theorem kept_self (h : Numbered mid) : Kept delay mid [] mid where
  checks := List.Subset.refl _
  requests id hid phase hphase := absurd (h.requests id phase hphase) (Nat.not_lt.mpr hid)
  answers a ha hid := absurd (h.answers a ha) (Nat.not_lt.mpr hid)

theorem Kept.put (h : Kept delay mid events s) (hmore : events <+: events')
    (hchecks : s.healthChecks ⊆ s'.healthChecks) {id : Nat}
    {phase : Option Phase} (hrequests : s'.requests = Function.update s.requests id phase)
    (hseen : ∀ next, phase = some next → mid.arrived ≤ id → Seen delay mid events' s' next)
    (hanswers : ∀ a ∈ s'.answers, a ∈ s.answers ∨ (mid.arrived ≤ a.id → Answered delay mid events' a)) :
    Kept delay mid events' s' where
  checks := List.Subset.trans h.checks hchecks
  requests id' hid' next hnext := by
    rw [hrequests] at hnext
    rcases eq_or_ne id' id with rfl | hne
    · rw [Function.update_self] at hnext
      exact hseen next hnext hid'
    · rw [Function.update_of_ne hne] at hnext
      exact (h.requests id' hid' next hnext).more hmore hchecks
  answers a ha hid := by
    rcases hanswers a ha with hold | hnew
    · exact (h.answers a hold hid).more hmore
    · exact hnew hid

theorem Kept.same (h : Kept delay mid events s) (hmore : events <+: events') (hchecks : s.healthChecks ⊆ s'.healthChecks)
    (hrequests : s'.requests = s.requests) (hanswers : s'.answers = s.answers) : Kept delay mid events' s' where
  checks := List.Subset.trans h.checks hchecks
  requests id hid phase hphase := (h.requests id hid phase (hrequests ▸ hphase)).more hmore hchecks
  answers a ha hid := (h.answers a (hanswers ▸ ha) hid).more hmore

theorem Kept.handle (h : Kept delay mid events s) (hrun : Runs delay mid events s) (hmore : events <+: events')
    (hinitialized : s.initialized = true) {id : Nat} (hhandled : Handled s id s') : Kept delay mid events' s' := by
  have hchecks := hhandled.sameThreads.healthChecks.symm
  have hsub : s.healthChecks ⊆ s'.healthChecks := hchecks ▸ List.Subset.refl _
  cases hhandled with
  | @goto phase next hphase hmove =>
    refine h.put hmore hsub rfl ?_ fun a ha => .inl ha
    intro next' hnext hid
    obtain rfl := Option.some.inj hnext
    exact seen_goto hrun hmore hchecks (h.requests id hid phase hphase) hmove
  | @lock phase next hphase hmove =>
    refine h.put hmore hsub rfl ?_ fun a ha => .inl ha
    intro next' hnext hid
    obtain rfl := Option.some.inj hnext
    exact seen_lock hmore hsub h.checks (h.requests id hid phase hphase) hmove
  | @answer phase endpoint reply hphase hmove =>
    refine h.put hmore hsub rfl (by simp) fun a ha => ?_
    rcases List.mem_cons.mp ha with rfl | ha
    · exact .inr fun hid => answered_of_move hrun hmore hinitialized (h.requests id hid phase hphase) hmove id
    · exact .inl ha
  | throw hphase hmove => exact h.put hmore hsub rfl (by simp) fun a ha => .inl ha

theorem Kept.step (h : Kept delay mid events s) {before : List Event} (hinv : Inv delay start before s)
    (hrun : Runs delay mid events s) {e : Event} (hstep : s.step delay e = some s') :
    Kept delay mid (events ++ [e]) s' := by
  have hmore : events <+: events ++ [e] := List.prefix_append _ _
  cases transition_of_step hstep with
  | tick | signal | probes | terminate => exact h.same hmore (List.Subset.refl _) rfl rfl
  | register entry => exact h.same hmore (List.subset_append_left _ _) rfl rfl
  | main hmain =>
    have hsame := sameRequests_main hmain
    exact h.same hmore hsame.keeps hsame.requests hsame.answers
  | monitor hmonitor =>
    have hsame := sameRequests_monitor hmonitor
    exact h.same hmore hsame.keeps hsame.requests hsame.answers
  | arrive endpoint =>
    refine h.put hmore (List.Subset.refl _) rfl ?_ fun a ha => .inl ha
    intro next hnext _
    obtain rfl := Option.some.inj hnext
    cases endpoint <;> trivial
  | handle id hserving hhandle =>
    exact h.handle hrun hmore (hinv.initialized (by simp [hserving])) (handled_of_handle hhandle)

theorem kept_run {before : List Event} (hinv : Inv delay start [] start) (hstart : Numbered start)
    (hmid : Runs delay start before mid) (hrun : Runs delay mid events s) : Kept delay mid events s :=
  hrun.rec_on (kept_self (hstart.run hmid)) fun _ _ _ _ hafter hstep ih =>
    ih.step (hinv.run (leads_append.mpr ⟨mid, hmid, hafter⟩)) hafter hstep

theorem numbered_booted (requested : Bool) (checks : List HealthEntry) (probes : Nat → Outcome) :
    Numbered (booted requested checks probes) where
  requests id phase h := by cases h
  answers a h := by cases h

/-! ## The health report -/

theorem criticalOk_iff (report : List ComponentHealth) :
    (report.all fun c => c.healthy || !c.critical) = true ↔ ∀ c ∈ report, c.critical = true → c.healthy = true := by
  rw [List.all_eq_true]
  refine forall₂_congr fun c _ => ?_
  cases c.healthy <;> cases c.critical <;> simp

theorem not_degraded_iff (report : List ComponentHealth) :
    (report.any fun c => !c.healthy && !c.critical) = false ↔ ∀ c ∈ report, c.critical = false → c.healthy = true := by
  rw [List.any_eq_false]
  refine forall₂_congr fun c _ => ?_
  cases c.healthy <;> cases c.critical <;> simp

theorem healthReply_ok (report : List ComponentHealth) :
    (healthReply (some report)).code = 200 ↔ ∀ c ∈ report, c.critical = true → c.healthy = true := by
  rw [← criticalOk_iff]
  unfold healthReply
  simp only
  split
  · exact iff_of_true rfl ‹_›
  · exact iff_of_false (by decide) ‹_›

theorem healthReply_healthy {report : List ComponentHealth}
    (h : (healthReply (some report)).status = ascii "healthy") : ∀ c ∈ report, c.healthy = true := by
  unfold healthReply at h
  cases hok : report.all fun c => c.healthy || !c.critical with
  | false =>
    simp only [hok, Bool.not_false, if_true] at h
    exact absurd h (by decide)
  | true =>
    cases hany : report.any fun c => !c.healthy && !c.critical with
    | true =>
      simp only [hok, hany, Bool.not_true, Bool.false_eq_true, if_false, if_true] at h
      exact absurd h (by decide)
    | false =>
      intro c hc
      cases hcritical : c.critical with
      | true => exact (criticalOk_iff report).mp hok c hc hcritical
      | false => exact (not_degraded_iff report).mp hany c hc hcritical

/-! ## Results -/

variable {requested : Bool} {checks : List HealthEntry} {probes : Nat → Outcome}

theorem answered {before : List Event} (hmid : Runs delay (booted requested checks probes) before mid)
    (hrun : Runs delay mid events s) {a : Answer} (ha : a ∈ s.answers) (hid : mid.arrived ≤ a.id) :
    Answered delay mid events a :=
  (kept_run (inv_booted requested checks probes) (numbered_booted requested checks probes) hmid hrun).answers a ha hid

/-- Once the flag is up, whoever asks next is told so. -/
theorem answered_draining {before : List Event} (hmid : Runs delay (booted requested checks probes) before mid)
    (hrun : Runs delay mid events s) (hflag : mid.shuttingDownFlag = true) {a : Answer} (ha : a ∈ s.answers)
    (hid : mid.arrived ≤ a.id) (hend : a.endpoint = .readiness) : a.reply = draining := by
  have hanswered := answered hmid hrun ha hid
  unfold Answered at hanswered
  rw [hend] at hanswered
  rcases hanswered with ⟨hreply, -⟩ | ⟨-, hnot, -⟩ | ⟨-, hnot, -⟩
  · exact hreply
  · exact absurd hnot (stable_flag.not_sometime hflag)
  · exact absurd hnot (stable_flag.not_sometime hflag)

/-- Drogon is told to stop when readiness has been off for the whole delay: the flag has been up since, and whoever has
asked since was told to go away. The teardown comes behind that, however `run` has ended, and nothing can keep the
monitor from it. -/
theorem graceful_drain (delay : Int) (requested : Bool) (checks : List HealthEntry) (probes : Nat → Outcome)
    (events : List Event) (s : Process) (hrun : Runs delay (booted requested checks probes) events s) :
    (∀ t, s.quitAt = some t → ∃ before mid, before <+: events ∧ Runs delay (booted requested checks probes) before mid ∧
      mid.now + preStopDelay delay ≤ t ∧
      Since (Process.step delay) (booted requested checks probes) before events (fun m => m.shuttingDownFlag = true) ∧
      ∀ a ∈ s.answers, a.endpoint = .readiness → mid.arrived ≤ a.id → a.reply = draining) ∧
    (s.main = .tearingDown ∨ s.main = .exited → s.monitor = .done ∧ s.quitAt.isSome) ∧
    (Alive s → s.main ≠ .booted → s.shutdownRequested = true → Quits delay (200 + preStopDelay delay) s) := by
  have hinv : Inv delay _ events s := (inv_booted requested checks probes).run hrun
  have hmon := hinv.monitor
  refine ⟨fun t ht => ?_, fun hmain => ?_, hinv.quits⟩
  · have hbefore : FlaggedBefore delay (booted requested checks probes) events t := by
      cases hphase : s.monitor with
      | done =>
        rw [hphase] at hmon
        obtain ⟨-, -, t', ht', hbefore⟩ := hmon
        obtain rfl := Option.some.inj (ht.symm.trans ht')
        exact hbefore
      | notStarted | polling =>
        rw [hphase] at hmon
        exact absurd (ht.symm.trans hmon.2) nofun
      | napping | beginning | begun | sleeping =>
        rw [hphase] at hmon
        exact absurd (ht.symm.trans hmon.2.1) nofun
    obtain ⟨before, mid, ⟨after, rfl⟩, hmid, hflag, hle⟩ := hbefore
    obtain ⟨mid', hmid', hafter⟩ := leads_append.mp hrun
    obtain rfl := hmid.unique hmid'
    exact ⟨before, mid, List.prefix_append _ _, hmid, hle, stable_flag.since hmid hflag _,
      fun a ha hend hid => answered_draining hmid hafter hflag ha hid hend⟩
  · have hdone := hinv.joined hmain
    rw [hdone] at hmon
    obtain ⟨-, -, t, ht, -⟩ := hmon
    exact ⟨hdone, by rw [ht]; rfl⟩

theorem Answered.tells {a : Answer} (hanswered : Answered delay mid events a) (hend : a.endpoint ≠ .liveness) :
    (a.reply.code = 200 → ∀ e ∈ mid.healthChecks, e.critical = true → Passed delay mid events e) ∧
    (a.reply.code ≠ 200 → a.endpoint = .readiness ∧ Draining delay mid events ∨
      ∃ e, e.critical = true ∧ Failed delay mid events e) ∧
    (a.reply.status = ascii "healthy" → ∀ e ∈ mid.healthChecks, Passed delay mid events e) := by
  unfold Answered at hanswered
  split at hanswered
  · exact absurd ‹_› hend
  · rename_i hready
    rcases hanswered with ⟨hreply, hflag⟩ | ⟨hreply, -, hpassed⟩ | ⟨hreply, -, hfailed⟩ <;> rw [hreply]
    · exact ⟨by simp [draining], fun _ => .inl ⟨hready, hflag⟩, fun h => absurd h (by decide)⟩
    · exact ⟨fun _ => hpassed, fun h => absurd rfl h, fun h => absurd h (by decide)⟩
    · exact ⟨by simp [readyReply], fun _ => .inr hfailed, fun h => absurd h (by decide)⟩
  · obtain ⟨report, hreply, hentries, hlines⟩ := hanswered
    have hentry : ∀ e ∈ mid.healthChecks, ∃ c ∈ report, Reports delay mid events c e := fun e he =>
      (hentries e he).resolve_left List.not_mem_nil
    rw [hreply]
    refine ⟨fun hcode e he hcritical => ?_, fun hcode => ?_, fun hstatus e he => ?_⟩
    · obtain ⟨c, hc, -, hcrit, hpassed, -⟩ := hentry e he
      exact hpassed ((healthReply_ok report).mp hcode c hc (hcrit.trans hcritical))
    · rw [Ne, healthReply_ok] at hcode
      push Not at hcode
      obtain ⟨c, hc, hcritical, hhealthy⟩ := hcode
      obtain ⟨e, -, hcrit, -, hfailed⟩ := hlines c hc
      exact .inr ⟨e, hcrit.symm.trans hcritical, hfailed (by simpa using hhealthy)⟩
    · obtain ⟨c, hc, -, -, hpassed, -⟩ := hentry e he
      exact hpassed (healthReply_healthy hstatus c hc)

/-- Every answer about a request that came after `mid` is true of the run behind `mid`, which may end with the answer;
and one request at a time calls the probes. -/
theorem health_answers_true (delay : Int) (requested : Bool) (checks : List HealthEntry) (probes : Nat → Outcome)
    (before after : List Event) (mid s : Process) (hmid : Runs delay (booted requested checks probes) before mid)
    (hrun : Runs delay mid after s) (a : Answer) (ha : a ∈ s.answers) (hid : mid.arrived ≤ a.id)
    (hend : a.endpoint ≠ .liveness) :
    (a.reply.code = 200 → ∀ e ∈ mid.healthChecks, e.critical = true → Passed delay mid after e) ∧
    (a.reply.code ≠ 200 → a.endpoint = .readiness ∧ Draining delay mid after ∨
      ∃ e, e.critical = true ∧ Failed delay mid after e) ∧
    (a.reply.status = ascii "healthy" → ∀ e ∈ mid.healthChecks, Passed delay mid after e) ∧ Locked s := by
  obtain ⟨hok, hfailed, hhealthy⟩ := (answered hmid hrun ha hid).tells hend
  exact ⟨hok, hfailed, hhealthy, locked_run (locked_booted requested checks probes) (leads_append.mpr ⟨mid, hmid, hrun⟩)⟩

/-! ## A run to the end -/

/-- What is seen of the state at the end of these events. -/
def outcome (events : List Event) : Option (Option Nat × List Answer) :=
  (events.foldlM (Process.step 0) (booted false [⟨ascii "cache", 0, true⟩] fun _ => .passes)).map fun s =>
    (s.quitAt, s.answers)

/-- A first answer before the signal, and a second one behind it. -/
def drainEvents : List Event :=
  [.main, .main, .arrive .readiness, .handle 0, .handle 0, .handle 0, .handle 0, .handle 0, .signal, .monitor, .monitor,
    .arrive .readiness, .handle 1, .monitor, .monitor]

theorem graceful_drain_sample : ∃ s, Runs 0 (booted false [⟨ascii "cache", 0, true⟩] fun _ => .passes) drainEvents s ∧
    s.answers = [⟨1, .readiness, draining⟩, ⟨0, .readiness, readyReply true⟩] ∧
    ∃ before mid, before <+: drainEvents ∧ Runs 0 (booted false [⟨ascii "cache", 0, true⟩] fun _ => .passes) before mid ∧
      Since (Process.step 0) (booted false [⟨ascii "cache", 0, true⟩] fun _ => .passes) before drainEvents
        (fun m => m.shuttingDownFlag = true) ∧
      ∀ a ∈ s.answers, a.endpoint = .readiness → mid.arrived ≤ a.id → a.reply = draining := by
  have hrun : outcome drainEvents = some (some 0, [⟨1, .readiness, draining⟩, ⟨0, .readiness, readyReply true⟩]) := by
    decide +kernel
  obtain ⟨s, hs, hseen⟩ := Option.map_eq_some_iff.mp hrun
  obtain ⟨hquit, hanswers⟩ := Prod.mk.inj hseen
  obtain ⟨hdrain, -, -⟩ := graceful_drain 0 false [⟨ascii "cache", 0, true⟩] (fun _ => .passes) drainEvents s hs
  obtain ⟨before, mid, hbefore, hmid, -, hflag, hall⟩ := hdrain 0 hquit
  exact ⟨s, hs, hanswers, before, mid, hbefore, hmid, hflag, hall⟩

/-- The cache fails while the report is made. -/
def reportEvents : List Event :=
  [.main, .main, .arrive .health, .handle 0, .handle 0, .probes fun _ => .fails, .handle 0, .handle 0]

theorem health_answers_true_sample : ∃ s,
    Runs 0 (booted false [⟨ascii "cache", 0, true⟩] fun _ => .passes) reportEvents s ∧
    ∃ e, e.critical = true ∧ Failed 0 (booted false [⟨ascii "cache", 0, true⟩] fun _ => .passes) reportEvents e := by
  have hrun : outcome reportEvents =
      some (none, [⟨0, .health, healthReply (some [⟨ascii "cache", true, false, true⟩])⟩]) := by
    decide +kernel
  obtain ⟨s, hs, hseen⟩ := Option.map_eq_some_iff.mp hrun
  obtain ⟨-, hanswers⟩ := Prod.mk.inj hseen
  obtain ⟨-, hfailed, -, -⟩ := health_answers_true 0 false [⟨ascii "cache", 0, true⟩] (fun _ => .passes) [] reportEvents _ s
    (leads_nil.mpr rfl) hs _ (by rw [hanswers]; exact List.mem_cons_self) (Nat.zero_le _) (by decide)
  exact ⟨s, hs, (hfailed (by decide)).resolve_left fun h => absurd h.1 (by decide)⟩

end LlmGuard.Server
