import LlmGuard.Code.Retry
import Mathlib.Algebra.Order.BigOperators.Group.List
import Mathlib.Tactic.Linarith

/-!
# What a retried call does

The attempts of a run, what it reports about them, and how long it waits.
-/

namespace LlmGuard.Retry

open Attempts (Action Fails Tries)

section

variable {σ α : Type} {fn : Action σ Exn α} {isTransient : Exn → Bool} {p : Policy} {component : Bytes}
  {draw : Nat → Int → Int}

/-- The reports of the failures that are retried, from failure number `attempt` on. -/
def retriedEvents (p : Policy) (component : Bytes) (draw : Nat → Int → Int) (attempt count : Nat) : List Event :=
  (List.range' attempt count).flatMap fun i =>
    [.metric component (ascii "retried"), .slept (computeDelayMs (draw i) i p)]

theorem retriedEvents_succ (p : Policy) (component : Bytes) (draw : Nat → Int → Int) (attempt count : Nat) :
    retriedEvents p component draw attempt (count + 1) = .metric component (ascii "retried") ::
      .slept (computeDelayMs (draw attempt) attempt p) :: retriedEvents p component draw (attempt + 1) count := rfl

/-- A run that fails says so when it has used all its attempts. -/
def endEvents (p : Policy) (component : Bytes) (attempt : Nat) : Except Exn α → List Event
  | .ok _ => []
  | .error _ => if p.maxAttempts ≤ attempt + 1 then [.metric component (ascii "exhausted")] else []

variable (fn isTransient p component draw) in
theorem loop_tries (attempt : Nat) (s : σ) : ∃ errors r s',
    Tries fn (isTransient ·) (p.maxAttempts - attempt) s errors r s' ∧
    loop fn isTransient p component draw attempt s = ((r, s'),
      retriedEvents p component draw attempt errors.length ++ endEvents p component (attempt + errors.length) r) := by
  induction attempt, s using loop.induct fn isTransient p component draw with
  | case1 attempt s a s' hstep =>
    refine ⟨[], .ok a, s', ⟨⟨s, .nil s, hstep⟩, .inl rfl, fun e he => by cases he⟩, ?_⟩
    rw [loop, hstep]
    rfl
  | case2 attempt s e s' hstep hretry ih =>
    obtain ⟨errors, r, s'', ⟨⟨mid, hfails, hend⟩, hbound, hlast⟩, hloop⟩ := ih
    refine ⟨e :: errors, r, s'', ⟨⟨mid, .cons hstep hretry.2 hfails, hend⟩, .inr ?_, fun e' he' hagain => ?_⟩, ?_⟩
    · rcases hbound with rfl | hbound
      · simp only [List.length_singleton]
        omega
      · rw [List.length_cons]
        push_cast at hbound ⊢
        omega
    · have h := hlast e' he' hagain
      rw [List.length_cons]
      push_cast at h ⊢
      omega
    · rw [loop, hstep]
      simp only [if_pos hretry, hloop, List.length_cons]
      rw [retriedEvents_succ, show attempt + (errors.length + 1) = attempt + 1 + errors.length by omega]
      rfl
  | case3 attempt s e s' hstep hretry =>
    refine ⟨[], .error e, s', ⟨⟨s, .nil s, hstep⟩, .inl rfl, fun e' he' hagain => ?_⟩, ?_⟩
    · obtain rfl := Except.error.inj he'
      have hmost : ¬ (attempt : Int) + 1 < p.maxAttempts := fun h => hretry ⟨h, hagain⟩
      simp only [List.length_nil]
      push_cast
      omega
    · rw [loop, hstep]
      simp only [if_neg hretry]
      rfl

/-! ## Waiting -/

/-- The delays of the policy are not negative, and fit an `int`. -/
structure Policy.Sane (p : Policy) : Prop where
  base : 0 ≤ p.baseDelayMs
  most : 0 ≤ p.maxDelayMs
  fits : p.maxDelayMs < 2 ^ 31

/-- What `std::uniform_int_distribution` promises. -/
def DrawsUpTo (dist : Int → Int) : Prop := ∀ most, 0 ≤ most → 0 ≤ dist most ∧ dist most ≤ most

/-- Exponential backoff, with a cap. -/
def backoff (p : Policy) (attempt : Nat) : Int := min p.maxDelayMs (p.baseDelayMs * 2 ^ min attempt 10)

theorem Policy.Sane.backoff_nonneg (h : p.Sane) (attempt : Nat) : 0 ≤ backoff p attempt :=
  le_min h.most (Int.mul_nonneg h.base (Int.pow_nonneg (by decide)))

theorem Policy.Sane.backoff_fits (h : p.Sane) (attempt : Nat) :
    Int.bmod (backoff p attempt) (2 ^ 32) = backoff p attempt := by
  have hnonneg := h.backoff_nonneg attempt
  have hcap : backoff p attempt ≤ p.maxDelayMs := min_le_left _ _
  have hfits := h.fits
  apply Int.bmod_eq_of_le <;> omega

theorem computeDelayMs_of_steady (h : p.Sane) (hsteady : p.jitter = false) (dist : Int → Int) (attempt : Nat) :
    computeDelayMs dist attempt p = backoff p attempt := by
  have hfits := h.backoff_fits attempt
  unfold backoff at hfits
  unfold computeDelayMs backoff
  simp only [hfits, hsteady, Bool.false_eq_true, if_false]

theorem computeDelayMs_of_jitter (h : p.Sane) (hjitter : p.jitter = true) {dist : Int → Int} (hdist : DrawsUpTo dist)
    (attempt : Nat) :
    0 ≤ computeDelayMs dist attempt p ∧ computeDelayMs dist attempt p ≤ max 1 (backoff p attempt) := by
  have hfits := h.backoff_fits attempt
  unfold backoff at hfits
  unfold computeDelayMs backoff
  simp only [hfits, hjitter, if_true]
  exact hdist _ (le_max_of_le_left (by decide))

theorem computeDelayMs_le (h : p.Sane) {dist : Int → Int} (hdist : DrawsUpTo dist) (attempt : Nat) :
    computeDelayMs dist attempt p ≤ max 1 p.maxDelayMs := by
  have hcap : backoff p attempt ≤ p.maxDelayMs := min_le_left _ _
  cases hjitter : p.jitter with
  | false =>
    rw [computeDelayMs_of_steady h hjitter]
    exact le_max_of_le_right hcap
  | true => exact (computeDelayMs_of_jitter h hjitter hdist attempt).2.trans (max_le_max_left 1 hcap)

/-- The milliseconds of all sleeps. -/
def waited (events : List Event) : Int :=
  (events.map fun e =>
    match e with
    | .slept ms => ms
    | .metric _ _ => 0).sum

theorem waited_append (l u : List Event) : waited (l ++ u) = waited l + waited u := by
  unfold waited
  rw [List.map_append, List.sum_append]

theorem waited_endEvents (attempt : Nat) (r : Except Exn α) : waited (endEvents p component attempt r) = 0 := by
  cases r with
  | ok a => rfl
  | error e =>
    unfold endEvents
    simp only
    split <;> rfl

theorem waited_retriedEvents (h : p.Sane) (hdraw : ∀ i, DrawsUpTo (draw i)) (attempt count : Nat) :
    waited (retriedEvents p component draw attempt count) ≤ count * max 1 p.maxDelayMs := by
  induction count generalizing attempt with
  | zero => simp [retriedEvents, waited]
  | succ count ih =>
    have hdelay := computeDelayMs_le h (hdraw attempt) attempt
    have hrest := ih (attempt + 1)
    have hcons : waited (retriedEvents p component draw attempt (count + 1)) =
        computeDelayMs (draw attempt) attempt p + waited (retriedEvents p component draw (attempt + 1) count) := by
      simp [retriedEvents_succ, waited]
    rw [hcons, Nat.cast_succ, Int.add_mul, Int.one_mul]
    omega

/-- A call is tried until it succeeds, fails in a way that is not transient, or has used its attempts, and there is
no other attempt. Its last outcome is the outcome. Every failure but the last is reported as retried, and the last
one as exhausted if no attempt was left. Where the delays of the policy are not negative, the waits grow
exponentially up to a cap. -/
theorem run_accounts (fn : Action σ Exn α) (isTransient : Exn → Bool) (p : Policy) (component : Bytes)
    (draw : Nat → Int → Int) (hdraw : ∀ i, DrawsUpTo (draw i)) (s : σ) :
    ∃ errors r s', Tries fn (isTransient ·) p.maxAttempts s errors r s' ∧
      (errors.length + 1 : Int) ≤ max 1 p.maxAttempts ∧
      run fn isTransient p component draw s =
        ((r, s'), retriedEvents p component draw 0 errors.length ++ endEvents p component errors.length r) ∧
      (p.Sane →
        (p.jitter = false → ∀ attempt, computeDelayMs (draw attempt) attempt p = backoff p attempt ∧
          0 ≤ backoff p attempt) ∧
        (p.jitter = true → ∀ attempt, 0 ≤ computeDelayMs (draw attempt) attempt p ∧
          computeDelayMs (draw attempt) attempt p ≤ max 1 (backoff p attempt)) ∧
        waited (run fn isTransient p component draw s).2 ≤ errors.length * max 1 p.maxDelayMs) := by
  obtain ⟨errors, r, s', htries, hloop⟩ := loop_tries fn isTransient p component draw 0 s
  rw [Nat.cast_zero, Int.sub_zero] at htries
  rw [Nat.zero_add] at hloop
  refine ⟨errors, r, s', htries, ?_, hloop, fun h => ⟨fun hsteady attempt => ?_, fun hjitter attempt => ?_, ?_⟩⟩
  · rcases htries.bound with rfl | hbound
    · exact le_max_left _ _
    · exact le_max_of_le_right hbound
  · exact ⟨computeDelayMs_of_steady h hsteady _ attempt, h.backoff_nonneg attempt⟩
  · exact computeDelayMs_of_jitter h hjitter (hdraw attempt) attempt
  · rw [run, hloop]
    simp only [waited_append, waited_endEvents, Int.add_zero]
    exact waited_retriedEvents h hdraw 0 _

end

/-- Fails twice with a deadlock. -/
def twice : Action Nat Exn Unit := fun n =>
  if n < 2 then (.error (.sqlError (ascii "40P01") []), n + 1) else (.ok (), n)

theorem run_accounts_sample : ∃ errors r s', Tries twice (isTransientPqxxWrite ·) 3 0 errors r s' ∧
    (errors.length + 1 : Int) ≤ 3 ∧
    (run twice isTransientPqxxWrite {} (ascii "db.write") (fun _ most => most) 0).1 = (r, s') ∧
    computeDelayMs (fun most => most) 1 {} ≤ 200 ∧
    waited (run twice isTransientPqxxWrite {} (ascii "db.write") (fun _ most => most) 0).2 ≤ errors.length * 2000 := by
  obtain ⟨errors, r, s', htries, hcount, hrun, hwaits⟩ := run_accounts twice isTransientPqxxWrite {} (ascii "db.write")
    (fun _ most => most) (fun _ most hmost => ⟨hmost, Int.le_refl most⟩) 0
  obtain ⟨-, hdelay, hwaited⟩ := hwaits ⟨by decide, by decide, by decide⟩
  exact ⟨errors, r, s', htries, hcount, congrArg Prod.fst hrun, (hdelay rfl 1).2, hwaited⟩

end LlmGuard.Retry
