import LlmGuard.Code.Database
import LlmGuard.Utils.Retry

/-!
# Transactions take effect once

A transaction is tried again only when the server has rolled it back. So however often it is tried, it takes effect
once, unless the server does not know itself.
-/

namespace LlmGuard.Database

open Attempts

variable {σ α : Type} {backend : Backend σ} {applied : σ → Nat} {func : Action σ Exn α}

/-- The server counts the transactions that take effect. A commit that fails may have taken effect, except that the
errors of a rollback say that it has not. -/
structure Transactional (backend : Backend σ) (applied : σ → Nat) : Prop where
  acquire : ∀ pool s, applied (backend.acquire pool s).2 = applied s
  release : ∀ pool s, applied (backend.release pool s) = applied s
  start : ∀ pool kind s, applied (backend.start pool kind s).2 = applied s
  finish : ∀ pool s, applied (backend.finish pool s) = applied s
  exec : ∀ pool sql s, applied (backend.exec pool sql s).2 = applied s
  committed : ∀ pool s, (backend.commit pool s).1 = .ok () → applied (backend.commit pool s).2 = applied s + 1
  rolledBack : ∀ pool s e, (backend.commit pool s).1 = .error e → Retry.isTransientPqxxWrite e = true →
    applied (backend.commit pool s).2 = applied s
  inDoubt : ∀ pool s e, (backend.commit pool s).1 = .error e →
    applied s ≤ applied (backend.commit pool s).2 ∧ applied (backend.commit pool s).2 ≤ applied s + 1

/-- How often a call takes effect that ends like this: once when it returns, not at all behind a rollback, and
at most once otherwise. -/
def Once (applied : σ → Nat) (n : Nat) : Except Exn α → σ → Prop
  | .ok _, s => applied s = n + 1
  | .error e, s => (Retry.isTransientPqxxWrite e = true → applied s = n) ∧ n ≤ applied s ∧ applied s ≤ n + 1

theorem Once.of_not {n : Nat} {s : σ} (h : applied s = n) (e : Exn) : Once applied n (.error e : Except Exn α) s :=
  ⟨fun _ => h, Nat.le_of_eq h.symm, by omega⟩

theorem Once.congr {n : Nat} {r : Except Exn α} {s s' : σ} (hsame : applied s' = applied s) (h : Once applied n r s) :
    Once applied n r s' := by
  cases r with
  | ok a => exact hsame.trans h
  | error e => exact ⟨fun he => hsame.trans (h.1 he), hsame ▸ h.2.1, hsame ▸ h.2.2⟩

theorem ensures_first {β : Type} {n : Nat} {m : Action σ Exn β} (h : ∀ s, applied (m s).2 = applied s) :
    Ensures (fun s => applied s = n) m (Continues (fun _ s => applied s = n) (Once (α := α) applied n)) := by
  intro s hs
  have hafter := (h s).trans hs
  revert hafter
  cases m s with
  | mk r s' =>
    cases r with
    | ok a => exact id
    | error e => exact fun hafter => Once.of_not (α := α) hafter e

theorem attempt_once (h : Transactional backend applied) (hfunc : ∀ s, applied (func s).2 = applied s) (pool : PoolId)
    (kind : TxnKind) (level : IsolationLevel) (n : Nat) :
    Ensures (fun s => applied s = n) (attempt backend pool kind level func) (Once applied n) := by
  have hisolate : ∀ s, applied ((if kind = .work ∧ level ≠ .readCommitted then backend.exec pool (isolationSql level)
      else Action.pure ()) s).2 = applied s := by
    intro s
    split
    · exact h.exec _ _ _
    · rfl
  have hcommit : ∀ result : α, Ensures (fun s => applied s = n)
      ((backend.commit pool).bind fun _ => Action.pure result) (Once applied n) := by
    intro result
    refine Ensures.bind (R := fun _ s => applied s = n + 1) ?_ fun _ s hs => hs
    intro s hs
    have hcommitted := h.committed pool s
    have hrolledBack := h.rolledBack pool s
    have hinDoubt := h.inDoubt pool s
    revert hcommitted hrolledBack hinDoubt
    cases backend.commit pool s with
    | mk r s' =>
      cases r with
      | ok u => exact fun hcommitted _ _ => hs ▸ hcommitted rfl
      | error e =>
        intro _ hrolledBack hinDoubt
        exact ⟨fun he => hs ▸ hrolledBack e rfl he, hs ▸ (hinDoubt e rfl).1, hs ▸ (hinDoubt e rfl).2⟩
  unfold attempt
  refine (ensures_first (h.acquire pool)).bind fun _ => Ensures.after (Q := Once applied n) ?_
    fun r s hs => hs.congr (h.release pool s)
  refine (ensures_first (h.start pool kind)).bind fun _ => Ensures.after (Q := Once applied n) ?_
    fun r s hs => hs.congr (h.finish pool s)
  exact (ensures_first hisolate).bind fun _ => (ensures_first hfunc).bind hcommit

/-! ## Trying again -/

/-- A failure that allows another attempt of a write took no effect. -/
theorem run_once (h : Transactional backend applied) (hfunc : ∀ s, applied (func s).2 = applied s) (pool : PoolId)
    (kind : TxnKind) (level : IsolationLevel) (policy : Retry.Policy) (spanName : Bytes) (draw : Nat → Int → Int) (s : σ) :
    let result := Retry.run (attempt backend pool kind level func) Retry.isTransientPqxxWrite policy spanName draw s
    Once applied (applied s) result.1.1 result.1.2 := by
  obtain ⟨errors, r, s', htries, hrun⟩ := Retry.loop_tries (attempt backend pool kind level func)
    Retry.isTransientPqxxWrite policy spanName draw 0 s
  have honce := attempt_once h hfunc pool kind level (applied s)
  simp only [Retry.run, hrun]
  refine htries.ensures (P := fun s₁ => applied s₁ = applied s) ?_ honce rfl
  exact honce.weaken fun r s₁ hr e he hagain => by
    rw [he] at hr
    exact hr.1 hagain

theorem onPrimary_once (h : Transactional backend applied) (hfunc : ∀ s, applied (func s).2 = applied s) (m : Manager)
    (draw : Nat → Int → Int) (s : σ) (spanName : Bytes) (level : IsolationLevel) :
    let result := m.onPrimary backend draw func s .work Retry.isTransientPqxxWrite spanName level
    Once applied (applied s) result.1.1 result.1.2 := by
  unfold Manager.onPrimary
  split
  · exact Once.of_not (α := α) rfl _
  · exact run_once h hfunc .primary .work level m.policy spanName draw s

/-- A write or a transaction takes effect once if it returns, and not at all if it ends with a rollback. Otherwise it
takes effect at most once, however often it was tried. -/
theorem executeWrite_once (backend : Backend σ) (applied : σ → Nat) (h : Transactional backend applied)
    (func : Action σ Exn α) (hfunc : ∀ s, applied (func s).2 = applied s) (m : Manager) (draw : Nat → Int → Int) (s : σ) :
    Once applied (applied s) (m.executeWrite backend draw func s).1.1 (m.executeWrite backend draw func s).1.2 ∧
    ∀ level, Once applied (applied s) (m.executeTransaction backend draw func s level).1.1
      (m.executeTransaction backend draw func s level).1.2 :=
  ⟨onPrimary_once h hfunc m draw s _ _, fun level => onPrimary_once h hfunc m draw s _ level⟩

/-- One server that rolls back once, and then commits. -/
def deadlocking : Backend (Nat × Nat) where
  acquire _ s := (.ok (), s)
  release _ s := s
  start _ _ s := (.ok (), s)
  finish _ s := s
  exec _ _ s := (.ok (), s)
  commit _ s := if s.1 = 0 then (.error (.sqlError (ascii "40P01") []), (1, s.2)) else (.ok (), (s.1, s.2 + 1))

theorem deadlocking_transactional : Transactional deadlocking Prod.snd where
  acquire _ _ := rfl
  release _ _ := rfl
  start _ _ _ := rfl
  finish _ _ := rfl
  exec _ _ _ := rfl
  committed pool s hok := by
    unfold deadlocking at hok ⊢
    simp only at hok ⊢
    split at hok
    · cases hok
    · rename_i hlater
      rw [if_neg hlater]
  rolledBack pool s e he _ := by
    unfold deadlocking at he ⊢
    simp only at he ⊢
    split at he
    · rename_i hfirst
      rw [if_pos hfirst]
    · cases he
  inDoubt pool s e he := by
    unfold deadlocking at he ⊢
    simp only at he ⊢
    split at he
    · rename_i hfirst
      rw [if_pos hfirst]
      exact ⟨Nat.le_refl _, Nat.le_succ _⟩
    · cases he

theorem executeWrite_once_sample :
    Once Prod.snd 0 (Manager.executeWrite deadlocking ⟨true, 0, 0, {}⟩ (fun _ _ => 0) (Action.pure true) (0, 0)).1.1
      (Manager.executeWrite deadlocking ⟨true, 0, 0, {}⟩ (fun _ _ => 0) (Action.pure true) (0, 0)).1.2 :=
  (executeWrite_once deadlocking Prod.snd deadlocking_transactional (Action.pure true) (fun _ => rfl) ⟨true, 0, 0, {}⟩
    (fun _ _ => 0) (0, 0)).1

/-! ## Writes that may be repeated -/

theorem attempt_bounds (h : Transactional backend applied) (hfunc : ∀ s, applied (func s).2 = applied s) (pool : PoolId)
    (kind : TxnKind) (level : IsolationLevel) (s : σ) :
    applied s ≤ applied (attempt backend pool kind level func s).2 ∧
      applied (attempt backend pool kind level func s).2 ≤ applied s + 1 := by
  have honce := attempt_once h hfunc pool kind level (applied s) s rfl
  revert honce
  cases (attempt backend pool kind level func s).1 with
  | ok a =>
    intro (hok : applied (attempt backend pool kind level func s).2 = applied s + 1)
    omega
  | error e => exact fun herror => herror.2

/-- Whatever is tried again, no attempt takes effect more than once, and one that returns took effect. -/
theorem run_bounds (h : Transactional backend applied) (hfunc : ∀ s, applied (func s).2 = applied s) (pool : PoolId)
    (kind : TxnKind) (level : IsolationLevel) (classifier : Exn → Bool) (policy : Retry.Policy) (spanName : Bytes)
    (draw : Nat → Int → Int) (s : σ) :
    let result := Retry.run (attempt backend pool kind level func) classifier policy spanName draw s
    (∀ a, result.1.1 = .ok a → applied s + 1 ≤ applied result.1.2) ∧
      (applied result.1.2 : Int) ≤ applied s + max 1 policy.maxAttempts := by
  obtain ⟨errors, r, s', htries, hrun⟩ := Retry.loop_tries (attempt backend pool kind level func)
    classifier policy spanName draw 0 s
  have hstep := fun s => attempt_bounds h hfunc pool kind level s
  simp only [Retry.run, hrun]
  constructor
  · rintro a rfl
    have hkeep : Ensures (fun s₁ => applied s ≤ applied s₁) (attempt backend pool kind level func)
        fun r s₁ => ∀ e, r = .error e → classifier e = true → applied s ≤ applied s₁ :=
      fun s₁ hs₁ _ _ _ => hs₁.trans (hstep s₁).1
    have hlast : Ensures (fun s₁ => applied s ≤ applied s₁) (attempt backend pool kind level func)
        fun r s₁ => ∀ a, r = .ok a → applied s + 1 ≤ applied s₁ := by
      intro s₁ hs₁ a ha
      have honce := attempt_once h hfunc pool kind level (applied s₁) s₁ rfl
      rw [ha] at honce
      have heffect : applied (attempt backend pool kind level func s₁).2 = applied s₁ + 1 := honce
      omega
    exact htries.ensures hkeep hlast (Nat.le_refl _) a rfl
  · have hmost := htries.measure fun s => (hstep s).2
    have hcount : (errors.length + 1 : Int) ≤ max 1 policy.maxAttempts := by
      rcases htries.bound with rfl | hbound
      · exact le_max_left _ _
      · exact le_max_of_le_right (by omega)
    omega

/-- Loses the connection behind every commit but number `n`. -/
def lossy (n : Nat) : Backend Nat where
  acquire _ s := (.ok (), s)
  release _ s := s
  start _ _ s := (.ok (), s)
  finish _ s := s
  exec _ _ s := (.ok (), s)
  commit _ s := (if s + 1 < n then .error (.brokenConnection (ascii "connection lost")) else .ok (), s + 1)

theorem lossy_transactional (n : Nat) : Transactional (lossy n) id where
  acquire _ _ := rfl
  release _ _ := rfl
  start _ _ _ := rfl
  finish _ _ := rfl
  exec _ _ _ := rfl
  committed _ _ _ := rfl
  rolledBack pool s e he hagain := by
    unfold lossy at he
    simp only at he
    split at he
    · obtain rfl := Except.error.inj he
      cases hagain
    · cases he
  inDoubt _ s _ _ := ⟨Nat.le_succ s, Nat.le_refl _⟩

theorem attempt_lossy (n s : Nat) :
    attempt (lossy n) .primary .work .readCommitted (Action.pure ()) s =
      (if s + 1 < n then .error (.brokenConnection (ascii "connection lost")) else .ok (), s + 1) := by
  by_cases h : s + 1 < n
  · simp [attempt, Action.bind, Action.after, Action.pure, lossy, h]
  · simp [attempt, Action.bind, Action.after, Action.pure, lossy, h]

theorem loop_lossy {n : Nat} {policy : Retry.Policy} (hmost : policy.maxAttempts = n) (spanName : Bytes)
    (draw : Nat → Int → Int) (left attempts : Nat) (hleft : attempts + left + 1 = n) :
    (Retry.loop (attempt (lossy n) .primary .work .readCommitted (Action.pure ())) Retry.isTransientPqxxRead policy
      spanName draw attempts attempts).1 = (.ok (), n) := by
  induction left generalizing attempts with
  | zero =>
    have hend : ¬ attempts + 1 < n := by omega
    rw [Retry.loop, attempt_lossy, if_neg hend]
    simp only [Prod.mk.injEq, true_and]
    omega
  | succ left ih =>
    have hmore : attempts + 1 < n := by omega
    have hretry : (attempts : Int) + 1 < policy.maxAttempts := by omega
    rw [Retry.loop, attempt_lossy, if_pos hmore]
    simp only [hretry, Retry.isTransientPqxxRead, and_self, if_true]
    exact ih (attempts + 1) (by omega)

/-- A write that is called idempotent takes effect at least once if it returns, and at most once an attempt. It can take
effect that often. -/
theorem executeWriteIdempotent_repeats (backend : Backend σ) (applied : σ → Nat) (h : Transactional backend applied)
    (func : Action σ Exn α) (hfunc : ∀ s, applied (func s).2 = applied s) (m : Manager) (draw : Nat → Int → Int) (s : σ) :
    (∀ a, (m.executeWriteIdempotent backend draw func s).1.1 = .ok a →
      applied s + 1 ≤ applied (m.executeWriteIdempotent backend draw func s).1.2) ∧
    (applied (m.executeWriteIdempotent backend draw func s).1.2 : Int) ≤ applied s + max 1 m.policy.maxAttempts ∧
    ∀ n : Nat, 0 < n → ∃ (backend : Backend Nat) (policy : Retry.Policy), Transactional backend id ∧ policy.maxAttempts = n ∧
      (Manager.executeWriteIdempotent backend ⟨true, 0, 0, policy⟩ draw (Action.pure ()) 0).1 = (.ok (), n) := by
  have hrun := run_bounds h hfunc .primary .work .readCommitted Retry.isTransientPqxxRead m.policy
    (ascii "db.write.idempotent") draw s
  have hrepeats : ∀ n : Nat, 0 < n → ∃ (backend : Backend Nat) (policy : Retry.Policy), Transactional backend id ∧
      policy.maxAttempts = n ∧
      (Manager.executeWriteIdempotent backend ⟨true, 0, 0, policy⟩ draw (Action.pure ()) 0).1 = (.ok (), n) :=
    fun n hn => ⟨lossy n, { maxAttempts := n }, lossy_transactional n, rfl, loop_lossy rfl _ draw (n - 1) 0 (by omega)⟩
  rw [← and_assoc]
  refine ⟨?_, hrepeats⟩
  unfold Manager.executeWriteIdempotent Manager.onPrimary
  split
  · refine ⟨fun a ha => ?_, ?_⟩
    · cases ha
    · show (applied s : Int) ≤ applied s + max 1 m.policy.maxAttempts
      omega
  · exact hrun

theorem executeWriteIdempotent_repeats_sample :
    ((Manager.executeWriteIdempotent (lossy 3) ⟨true, 0, 0, {}⟩ (fun _ _ => 0) (Action.pure true) 0).1.2 : Int) ≤ 3 :=
  (executeWriteIdempotent_repeats (lossy 3) id (lossy_transactional 3) (Action.pure true) (fun _ => rfl)
    ⟨true, 0, 0, {}⟩ (fun _ _ => 0) 0).2.1

end LlmGuard.Database
