import Mathlib.Data.List.Basic
import Mathlib.Order.Lattice

/-!
# Attempts that may fail

An action ends with a result or an error, and changes the world either way. This holds rules for what it ensures,
and for trying it again.
-/

namespace Attempts

/-- Runs in a world, and leaves a world behind also when it fails. -/
abbrev Action (σ ε α : Type) := σ → Except ε α × σ

variable {σ ε α β : Type}

def Action.pure (a : α) : Action σ ε α := fun s => (.ok a, s)

def Action.bind (m : Action σ ε α) (k : α → Action σ ε β) : Action σ ε β := fun s =>
  match m s with
  | (.ok a, s') => k a s'
  | (.error e, s') => (.error e, s')

theorem Action.bind_ok {m : Action σ ε α} {s s' : σ} {a : α} (h : m s = (.ok a, s')) (k : α → Action σ ε β) :
    m.bind k s = k a s' := by
  unfold Action.bind
  rw [h]

theorem Action.bind_error {m : Action σ ε α} {s s' : σ} {e : ε} (h : m s = (.error e, s')) (k : α → Action σ ε β) :
    m.bind k s = (.error e, s') := by
  unfold Action.bind
  rw [h]

/-- What is cleaned up however the action ends. -/
def Action.after (m : Action σ ε α) (cleanup : σ → σ) : Action σ ε α := fun s => ((m s).1, cleanup (m s).2)

/-! ## What an action ensures -/

/-- From a world with `P` the action ends in a way that `Q` allows. -/
def Ensures (P : σ → Prop) (m : Action σ ε α) (Q : Except ε α → σ → Prop) : Prop :=
  ∀ s, P s → Q (m s).1 (m s).2

theorem Ensures.weaken {P : σ → Prop} {m : Action σ ε α} {Q Q' : Except ε α → σ → Prop} (h : Ensures P m Q)
    (himp : ∀ r s, Q r s → Q' r s) : Ensures P m Q' := fun s hs => himp _ _ (h s hs)

/-- `R` after a result, and what the whole ensures after an error. -/
def Continues (R : α → σ → Prop) (Q : Except ε β → σ → Prop) : Except ε α → σ → Prop
  | .ok a => R a
  | .error e => Q (.error e)

theorem Ensures.bind {P : σ → Prop} {m : Action σ ε α} {R : α → σ → Prop} {k : α → Action σ ε β}
    {Q : Except ε β → σ → Prop} (hfirst : Ensures P m (Continues R Q)) (hthen : ∀ a, Ensures (R a) (k a) Q) :
    Ensures P (m.bind k) Q := by
  intro s hs
  have h := hfirst s hs
  unfold Action.bind
  revert h
  cases m s with
  | mk r s' =>
    cases r with
    | ok a => exact fun h => hthen a s' h
    | error e => exact fun h => h

theorem Ensures.after {P : σ → Prop} {m : Action σ ε α} {Q : Except ε α → σ → Prop} {cleanup : σ → σ}
    {Q' : Except ε α → σ → Prop} (h : Ensures P m Q) (hclean : ∀ r s, Q r s → Q' r (cleanup s)) :
    Ensures P (m.after cleanup) Q' := fun s hs => hclean _ _ (h s hs)

/-! ## Trying again -/

/-- The action fails with these errors in a row, and each of them allows another attempt. -/
inductive Fails (m : Action σ ε α) (again : ε → Prop) : σ → List ε → σ → Prop
  | nil (s : σ) : Fails m again s [] s
  | cons {s s' s'' : σ} {e : ε} {es : List ε} (hstep : m s = (.error e, s')) (hagain : again e)
      (hrest : Fails m again s' es s'') : Fails m again s (e :: es) s''

/-- A run of at most `most` attempts, but at least of one: some failures, and the attempt that ends it. -/
structure Tries (m : Action σ ε α) (again : ε → Prop) (most : Int) (s : σ) (errors : List ε) (r : Except ε α) (s' : σ) :
    Prop where
  fails : ∃ mid, Fails m again s errors mid ∧ m mid = (r, s')
  /-- The last of these failures left an attempt. -/
  bound : errors = [] ∨ (errors.length : Int) < most
  /-- A failure that ends the run allows no attempt, or is the last one. -/
  last : ∀ e, r = .error e → again e → most ≤ errors.length + 1

section

variable {m : Action σ ε α} {again : ε → Prop} {most : Int} {s s' : σ} {errors : List ε} {r : Except ε α}

theorem Fails.keeps {P : σ → Prop} (h : Fails m again s errors s')
    (hkeep : Ensures P m fun r s => ∀ e, r = .error e → again e → P s) (hs : P s) : P s' := by
  induction h with
  | nil => exact hs
  | @cons s s₁ s₂ e es hstep hagain _ ih =>
    have h := hkeep s hs e
    rw [hstep] at h
    exact ih (h rfl hagain)

theorem Fails.measure {f : σ → Nat} {k : Nat} (h : Fails m again s errors s') (hstep : ∀ s, f (m s).2 ≤ f s + k) :
    f s' ≤ f s + errors.length * k := by
  induction h with
  | nil => exact Nat.le_add_right _ _
  | @cons s s₁ s₂ e es hfail _ _ ih =>
    have h : f s₁ ≤ f s + k := by
      have h := hstep s
      rwa [hfail] at h
    rw [List.length_cons, Nat.succ_mul]
    omega

/-- The rule of a run: what every failure keeps holds when the last attempt starts. -/
theorem Tries.ensures {P : σ → Prop} {Q : Except ε α → σ → Prop} (h : Tries m again most s errors r s')
    (hkeep : Ensures P m fun r s => ∀ e, r = .error e → again e → P s) (hlast : Ensures P m Q) (hs : P s) : Q r s' := by
  obtain ⟨mid, hfails, hend⟩ := h.fails
  have hq := hlast mid (hfails.keeps hkeep hs)
  rwa [hend] at hq

theorem Tries.measure {f : σ → Nat} {k : Nat} (h : Tries m again most s errors r s')
    (hstep : ∀ s, f (m s).2 ≤ f s + k) : f s' ≤ f s + (errors.length + 1) * k := by
  obtain ⟨mid, hfails, hend⟩ := h.fails
  have hlast : f s' ≤ f mid + k := by
    have h := hstep mid
    rwa [hend] at h
  have hmid := hfails.measure hstep
  rw [Nat.succ_mul]
  omega

end

end Attempts
