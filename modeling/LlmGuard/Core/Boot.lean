import LlmGuard.Code.Boot

/-!
# What a failed boot leaves behind

A module stores its global before its own `initialize` can throw, and the unwinding asks each module whether it
reports itself initialized. So a failure inside one of these functions leaves a module behind that is neither up
nor down. All other failures are undone.
-/

namespace LlmGuard.Core

variable {outcome : BootStep → Option Thrown} {before after : List Stage} {st : Stage} {s s' : Globals} {a : Attempt}
  {e : Thrown}

/-! ## One attempt -/

/-- The first step that throws on a fresh process. -/
def Attempt.firstFailure (a : Attempt) : Option (BootStep × Thrown) :=
  (stages a.mode a.migrationsEnabled).findSome? fun st => (a.outcome st.step).map (st.step, ·)

/-- The `initialize` of the modules that store their global first. -/
def insideModule : List BootStep := [.observability, .database, .migrations, .cache]

/-- A failure that is undone: nothing is up yet, or the unwinding runs and finds no module half up. -/
def Undone (step : BootStep) (e : Thrown) : Prop := step = .config ∨ e = .std ∧ step ∉ insideModule

instance (step : BootStep) (e : Thrown) : Decidable (Undone step e) := inferInstanceAs (Decidable (_ ∨ _ ∧ _))

/-- The globals behind these calls when none of them throws. -/
def goThrough : List Stage → Globals → Option Globals
  | [], s => some s
  | st :: sts, s => (st.enter s).bind fun s => goThrough sts (st.finish s)

theorem runStages_append (hgo : goThrough before s = some s') (hnone : ∀ st ∈ before, outcome st.step = none) :
    runStages outcome (before ++ after) s = runStages outcome after s' := by
  induction before generalizing s with
  | nil =>
    obtain rfl := Option.some.inj hgo
    rfl
  | cons st before ih =>
    obtain ⟨mid, henter, hrest⟩ := Option.bind_eq_some_iff.mp hgo
    rw [List.cons_append, runStages, henter]
    simp only [hnone st List.mem_cons_self]
    exact ih hrest fun st hst => hnone st (List.mem_cons_of_mem _ hst)

theorem runStages_throws (henter : st.enter s = some s') (he : outcome st.step = some e) :
    runStages outcome (st :: after) s = (s', some e) := by
  rw [runStages, henter]
  simp only [he]

/-- `Core::initialize` has stored the application. -/
def started : Globals := { fresh with app := some false }

/-- The globals at the place where call `i` throws. -/
def stopAt (sts : List Stage) (i : Nat) : Option (BootStep × Globals) := do
  let st ← sts[i]?
  let s ← goThrough (sts.take i) started
  let s ← st.enter s
  some (st.step, s)

/-- What is left with the unwinding, and without it. -/
def LeftAt : Option (BootStep × Globals) → Prop
  | none => False
  | some (step, s) =>
    ({ Application.shutdown s with app := none } = fresh ↔ step ∉ insideModule) ∧
      ({ s with app := none } = fresh ↔ step = .config)

instance : (stop : Option (BootStep × Globals)) → Decidable (LeftAt stop)
  | none => inferInstanceAs (Decidable False)
  | some _ => inferInstanceAs (Decidable (_ ∧ _))

theorem left_at (mode : InitMode) (migrationsEnabled : Bool) :
    ∀ i < (stages mode migrationsEnabled).length, LeftAt (stopAt (stages mode migrationsEnabled) i) := by
  cases mode <;> cases migrationsEnabled <;> decide

theorem goThrough_stages (mode : InitMode) (migrationsEnabled : Bool) :
    ∃ s, goThrough (stages mode migrationsEnabled) started = some s ∧ s.app = some false := by
  cases mode <;> cases migrationsEnabled <;> exact ⟨_, rfl, rfl⟩

theorem initialise_running (h : s.app.isSome) (a : Attempt) : initialise a s = (s, some .std) := by
  unfold initialise
  rw [if_pos h]

theorem initialise_fresh (a : Attempt) :
    initialise a fresh =
      match Application.initialise a started with
      | (s, none) => (s, none)
      | (s, some e) => ({ s with app := none }, some e) := rfl

theorem Application.initialise_started (a : Attempt) :
    Application.initialise a started =
      match runStages a.outcome (stages a.mode a.migrationsEnabled) started with
      | (s, none) => ({ s with app := s.app.map fun _ => true }, none)
      | (s, some .std) => (Application.shutdown s, some .std)
      | (s, some .other) => (s, some .other) := rfl

theorem initialise_succeeds (h : a.firstFailure = none) :
    ∃ s, initialise a fresh = (s, none) ∧ s.app = some true := by
  obtain ⟨s, hgo, happ⟩ := goThrough_stages a.mode a.migrationsEnabled
  have hnone : ∀ st ∈ stages a.mode a.migrationsEnabled, a.outcome st.step = none := by
    intro st hst
    simpa using List.findSome?_eq_none_iff.mp h st hst
  have hrun : runStages a.outcome (stages a.mode a.migrationsEnabled ++ []) _ = _ := runStages_append hgo hnone
  rw [List.append_nil] at hrun
  refine ⟨{ s with app := s.app.map fun _ => true }, ?_, by simp [happ]⟩
  rw [initialise_fresh, Application.initialise_started, hrun]
  rfl

/-- A boot that fails leaves a fresh process exactly when its failure is undone. -/
theorem initialise_fails {step : BootStep} (h : a.firstFailure = some (step, e)) :
    ∃ s, initialise a fresh = (s, some e) ∧ (s = fresh ↔ Undone step e) := by
  obtain ⟨before, st, after, hsplit, hst, hnone⟩ := List.findSome?_eq_some_iff.mp h
  obtain ⟨e', hout, heq⟩ := Option.map_eq_some_iff.mp hst
  obtain ⟨rfl, rfl⟩ := Prod.mk.inj heq
  have hleft := left_at a.mode a.migrationsEnabled before.length (by rw [hsplit]; simp)
  have hstop : stopAt (stages a.mode a.migrationsEnabled) before.length =
      (goThrough before started).bind fun s => (st.enter s).bind fun s => some (st.step, s) := by
    unfold stopAt
    rw [hsplit, List.getElem?_append_right (Nat.le_refl _), Nat.sub_self, List.take_left]
    rfl
  rw [hstop] at hleft
  cases hgo : goThrough before started with
  | none =>
    rw [hgo] at hleft
    exact hleft.elim
  | some s₁ =>
    rw [hgo, Option.bind_some] at hleft
    cases henter : st.enter s₁ with
    | none =>
      rw [henter] at hleft
      exact hleft.elim
    | some s₂ =>
      rw [henter, Option.bind_some] at hleft
      obtain ⟨hunwound, hraw⟩ := hleft
      have hrun : runStages a.outcome (stages a.mode a.migrationsEnabled) started = (s₂, some e') := by
        rw [hsplit, runStages_append hgo fun st hst => by simpa using hnone st hst]
        exact runStages_throws henter hout
      rw [initialise_fresh, Application.initialise_started, hrun]
      unfold Undone
      cases e' with
      | std =>
        refine ⟨_, rfl, hunwound.trans ?_⟩
        constructor
        · exact fun hnot => .inr ⟨rfl, hnot⟩
        · rintro (hconfig | ⟨-, hnot⟩)
          · rw [hconfig]
            decide
          · exact hnot
      | other =>
        refine ⟨_, rfl, hraw.trans ?_⟩
        simp

/-! ## Any sequence of attempts -/

/-- Each attempt that throws, from the globals that those before it left, ends with a fresh process. -/
def LeavesNothing : Globals → List Attempt → Prop
  | _, [] => True
  | s, a :: rest => ((initialise a s).2 ≠ none → (initialise a s).1 = fresh) ∧ LeavesNothing (initialise a s).1 rest

/-- No failure is inside a module or outside `std::exception`, and nobody boots an application that is up. -/
def Harmless (attempts : List Attempt) : Prop :=
  (∀ a ∈ attempts, ∀ step e, a.firstFailure = some (step, e) → Undone step e) ∧
    ∀ a ∈ attempts.dropLast, a.firstFailure ≠ none

theorem harmless_cons {rest : List Attempt} :
    Harmless (a :: rest) ↔ (∀ step e, a.firstFailure = some (step, e) → Undone step e) ∧
      (rest ≠ [] → a.firstFailure ≠ none) ∧ Harmless rest := by
  unfold Harmless
  cases rest with
  | nil => simp
  | cons b rest =>
    simp only [List.dropLast_cons_cons, List.forall_mem_cons, ne_eq, reduceCtorEq, not_false_eq_true, forall_const]
    tauto

theorem not_leavesNothing_running {rest : List Attempt} (happ : s.app = some true) (hne : rest ≠ []) :
    ¬ LeavesNothing s rest := by
  cases rest with
  | nil => exact absurd rfl hne
  | cons b rest =>
    rintro ⟨hfirst, -⟩
    rw [initialise_running (by rw [happ]; rfl)] at hfirst
    have hfresh : s = fresh := hfirst nofun
    rw [hfresh] at happ
    cases happ

theorem leavesNothing_iff (attempts : List Attempt) : LeavesNothing fresh attempts ↔ Harmless attempts := by
  induction attempts with
  | nil => simp [LeavesNothing, Harmless]
  | cons a rest ih =>
    rw [harmless_cons]
    unfold LeavesNothing
    cases hfail : a.firstFailure with
    | none =>
      obtain ⟨s, hs, happ⟩ := initialise_succeeds hfail
      rw [hs]
      by_cases hrest : rest = []
      · subst hrest
        simp [LeavesNothing, Harmless]
      · simp only [ne_eq, not_true_eq_false, false_implies, true_and, hrest, not_false_eq_true, forall_const]
        constructor
        · exact fun h => absurd h (not_leavesNothing_running happ hrest)
        · rintro ⟨-, hfalse, -⟩
          exact hfalse.elim
    | some failure =>
      obtain ⟨step, e⟩ := failure
      obtain ⟨s, hs, hundone⟩ := initialise_fails hfail
      rw [hs]
      simp only [ne_eq, reduceCtorEq, not_false_eq_true, forall_const, Option.some.injEq, Prod.mk.injEq, implies_true,
        true_and]
      constructor
      · rintro ⟨hfresh, hrest⟩
        subst hfresh
        refine ⟨?_, ih.mp hrest⟩
        rintro step' e' ⟨rfl, rfl⟩
        exact hundone.mp rfl
      · rintro ⟨hclean, hrest⟩
        have hfresh := hundone.mpr (hclean step e ⟨rfl, rfl⟩)
        exact ⟨hfresh, by rw [hfresh]; exact ih.mpr hrest⟩

theorem boot_fresh {attempts : List Attempt} (h : Harmless attempts) (hfail : ∀ a ∈ attempts, a.firstFailure ≠ none) :
    boot attempts = fresh := by
  induction attempts with
  | nil => rfl
  | cons a rest ih =>
    obtain ⟨hclean, -, hrest⟩ := harmless_cons.mp h
    cases hfirst : a.firstFailure with
    | none => exact absurd hfirst (hfail a List.mem_cons_self)
    | some failure =>
      obtain ⟨step, e⟩ := failure
      obtain ⟨s, hs, hundone⟩ := initialise_fails hfirst
      have hfresh := hundone.mpr (hclean step e hfirst)
      unfold boot
      rw [List.foldl_cons, hs, hfresh]
      exact ih hrest fun b hb => hfail b (List.mem_cons_of_mem _ hb)

/-- **What a failed boot leaves behind.** In a sequence of attempts each one that throws ends with every global
back in its first state, exactly when the sequence is harmless. Then an attempt that would succeed on a fresh
process succeeds behind attempts that failed. -/
theorem failed_boots_leave_nothing_iff (attempts : List Attempt) :
    (LeavesNothing fresh attempts ↔ Harmless attempts) ∧
      (Harmless attempts → (∀ a ∈ attempts, a.firstFailure ≠ none) →
        ∀ a, (initialise a fresh).2 = none → (initialise a (boot attempts)).2 = none) := by
  refine ⟨leavesNothing_iff attempts, fun h hfail a hsucceeds => ?_⟩
  rw [boot_fresh h hfail]
  exact hsucceeds

/-- The database is down. -/
def databaseDown : Attempt := ⟨.full, true, fun step => if step = .database then some .std else none⟩

def allUp : Attempt := ⟨.full, true, fun _ => none⟩

/-- The database comes back, and the process still cannot boot. -/
theorem boot_blocked :
    (initialise databaseDown fresh).2 = some .std ∧ (initialise databaseDown fresh).1 ≠ fresh ∧
      (initialise allUp fresh).2 = none ∧ (initialise allUp (boot [databaseDown])).2 = some .std ∧
      ¬ ∀ attempts, LeavesNothing fresh attempts := by
  have hleft : (initialise databaseDown fresh).1 ≠ fresh := by decide
  refine ⟨by decide, hleft, by decide, by decide, ?_⟩
  intro h
  exact hleft ((h [databaseDown]).1 (by decide))

end LlmGuard.Core
