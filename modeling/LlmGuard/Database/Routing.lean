import LlmGuard.Code.Database
import LlmGuard.Utils.Retry
import Mathlib.Data.Int.CardIntervalMod

/-!
# Which pools serve a read

A read visits its replica, and the primary when the replica fails. It gives each connection back before it asks for
the next one.
-/

namespace LlmGuard.Database

open Attempts

/-- What the pools see of a call. -/
inductive PoolLog
  | acquired (pool : PoolId)
  | refused (pool : PoolId)
  | released (pool : PoolId)
deriving DecidableEq, Repr

/-- A backend that writes down what is asked of its pools. -/
def Backend.logged {σ : Type} (b : Backend σ) : Backend (σ × List PoolLog) where
  acquire pool s :=
    ((b.acquire pool s.1).1, (b.acquire pool s.1).2,
      s.2 ++ [if (b.acquire pool s.1).1 = .ok () then .acquired pool else .refused pool])
  release pool s := (b.release pool s.1, s.2 ++ [.released pool])
  start pool kind s := ((b.start pool kind s.1).1, (b.start pool kind s.1).2, s.2)
  finish pool s := (b.finish pool s.1, s.2)
  exec pool sql s := ((b.exec pool sql s.1).1, (b.exec pool sql s.1).2, s.2)
  commit pool s := ((b.commit pool s.1).1, (b.commit pool s.1).2, s.2)

/-- An action that does not go to the pools. -/
def aside {σ α : Type} (m : Action σ Exn α) : Action (σ × List PoolLog) Exn α := fun s => ((m s.1).1, (m s.1).2, s.2)

/-- What one attempt is to a pool: a refusal, or a connection that comes back. -/
def Visit (pool : PoolId) (w : List PoolLog) : Prop := w = [.refused pool] ∨ w = [.acquired pool, .released pool]

/-- Some visits to a pool. -/
def Visits (pool : PoolId) (count : Nat) (w : List PoolLog) : Prop :=
  ∃ ws : List (List PoolLog), ws.length = count ∧ (∀ v ∈ ws, Visit pool v) ∧ w = ws.flatten

theorem Visits.append_visit {pool : PoolId} {count : Nat} {w w' : List PoolLog} (h : Visits pool count w)
    (h' : Visit pool w') : Visits pool (count + 1) (w ++ w') := by
  obtain ⟨ws, rfl, hall, rfl⟩ := h
  refine ⟨ws ++ [w'], List.length_append, fun v hv => ?_, by simp⟩
  rcases List.mem_append.mp hv with hv | hv
  · exact hall v hv
  · obtain rfl := List.mem_singleton.mp hv
    exact h'

theorem Visit.visits_append {pool : PoolId} {count : Nat} {w w' : List PoolLog} (h : Visit pool w)
    (h' : Visits pool count w') : Visits pool (count + 1) (w ++ w') := by
  obtain ⟨ws, rfl, hall, rfl⟩ := h'
  exact ⟨w :: ws, rfl, List.forall_mem_cons.mpr ⟨h, hall⟩, rfl⟩

section

variable {σ α : Type} {backend : Backend σ} {func : Action σ Exn α}

theorem aside_bind {β : Type} (m : Action σ Exn α) (k : α → Action σ Exn β) :
    (aside m).bind (fun a => aside (k a)) = aside (m.bind k) := by
  funext s
  cases hm : m s.1 with
  | mk r s' =>
    have haside : aside m s = (r, s', s.2) := by rw [aside, hm]
    cases r with
    | ok a => rw [Action.bind_ok haside, aside, aside, Action.bind_ok hm]
    | error e => rw [Action.bind_error haside, aside, Action.bind_error hm]

theorem aside_after (m : Action σ Exn α) (cleanup : σ → σ) :
    (aside m).after (fun s => (cleanup s.1, s.2)) = aside (m.after cleanup) := rfl

/-- What happens on a connection. -/
def body (backend : Backend σ) (pool : PoolId) (kind : TxnKind) (level : IsolationLevel) (func : Action σ Exn α) :
    Action σ Exn α :=
  ((backend.start pool kind).bind fun _ =>
    ((if kind = .work ∧ level ≠ .readCommitted then backend.exec pool (isolationSql level) else Action.pure ()).bind fun _ =>
      func.bind fun result => (backend.commit pool).bind fun _ => Action.pure result).after
    (backend.finish pool))

theorem body_logged (pool : PoolId) (kind : TxnKind) (level : IsolationLevel) :
    body backend.logged pool kind level (aside func) = aside (body backend pool kind level func) := by
  have hisolate : (if kind = .work ∧ level ≠ .readCommitted then backend.logged.exec pool (isolationSql level)
      else Action.pure ()) =
      aside (if kind = .work ∧ level ≠ .readCommitted then backend.exec pool (isolationSql level) else Action.pure ()) := by
    split <;> rfl
  unfold body
  rw [hisolate, ← aside_bind, ← aside_after, ← aside_bind]
  simp only [← aside_bind]
  rfl

variable (backend func) in
theorem attempt_visit (pool : PoolId) (kind : TxnKind) (level : IsolationLevel) (s : σ) (log : List PoolLog) :
    ∃ w, Visit pool w ∧ attempt backend.logged pool kind level (aside func) (s, log) =
      ((attempt backend pool kind level func s).1, (attempt backend pool kind level func s).2, log ++ w) := by
  have hlogged : attempt backend.logged pool kind level (aside func) =
      (backend.logged.acquire pool).bind fun _ => (aside (body backend pool kind level func)).after
        (backend.logged.release pool) := by
    rw [← body_logged]
    rfl
  have hplain : attempt backend pool kind level func =
      (backend.acquire pool).bind fun _ => (body backend pool kind level func).after (backend.release pool) := rfl
  rw [hlogged, hplain]
  cases hacquire : backend.acquire pool s with
  | mk r s' =>
    have heq : backend.logged.acquire pool (s, log) =
        (r, s', log ++ [if r = .ok () then .acquired pool else .refused pool]) := by
      show ((backend.acquire pool s).1, (backend.acquire pool s).2, _) = _
      rw [hacquire]
    cases r with
    | ok u =>
      rw [Action.bind_ok heq, Action.bind_ok hacquire]
      exact ⟨_, .inr rfl, by simp [Action.after, aside, Backend.logged]⟩
    | error e =>
      rw [Action.bind_error heq, Action.bind_error hacquire]
      exact ⟨_, .inl rfl, by simp⟩

/-! ## A run -/

section

variable {pool : PoolId} {kind : TxnKind} {level : IsolationLevel} {again : Exn → Prop} {most : Int} {errors : List Exn}
  {r : Except Exn α} {s : σ} {log : List PoolLog} {after : σ × List PoolLog}

theorem attempt_logged
    (h : attempt backend.logged pool kind level (aside func) (s, log) = (r, after)) :
    ∃ w, Visit pool w ∧ attempt backend pool kind level func s = (r, after.1) ∧ after.2 = log ++ w := by
  obtain ⟨w, hw, hvisit⟩ := attempt_visit backend func pool kind level s log
  rw [hvisit] at h
  obtain ⟨rfl, rfl⟩ := Prod.mk.inj h
  exact ⟨w, hw, rfl, rfl⟩

theorem fails_logged (h : Fails (attempt backend.logged pool kind level (aside func)) again (s, log) errors after) :
    Fails (attempt backend pool kind level func) again s errors after.1 ∧
      ∃ w, Visits pool errors.length w ∧ after.2 = log ++ w := by
  generalize hbefore : (s, log) = before at h
  induction h generalizing s log with
  | nil =>
    subst hbefore
    exact ⟨.nil s, [], ⟨[], rfl, List.forall_mem_nil _, rfl⟩, (List.append_nil _).symm⟩
  | @cons before next after e es hstep hagain _ ih =>
    subst hbefore
    obtain ⟨w, hw, hplain, hlog⟩ := attempt_logged hstep
    obtain ⟨hrest, w', hw', hlog'⟩ := ih (show (next.1, log ++ w) = next from hlog ▸ rfl)
    exact ⟨.cons hplain hagain hrest, w ++ w', hw.visits_append hw', by rw [hlog', List.append_assoc]⟩

theorem tries_logged (h : Tries (attempt backend.logged pool kind level (aside func)) again most (s, log) errors r after) :
    Tries (attempt backend pool kind level func) again most s errors r after.1 ∧
      ∃ w, Visits pool (errors.length + 1) w ∧ after.2 = log ++ w := by
  obtain ⟨mid, hfails, hend⟩ := h.fails
  obtain ⟨hfailed, w, hw, hmid⟩ := fails_logged hfails
  obtain ⟨w', hw', hlast, hafter⟩ := attempt_logged (show attempt backend.logged pool kind level (aside func)
    (mid.1, mid.2) = (r, after) from hend)
  refine ⟨⟨⟨mid.1, hfailed, hlast⟩, h.bound, h.last⟩, w ++ w', ?_, ?_⟩
  · exact hw.append_visit hw'
  · rw [hafter, hmid, List.append_assoc]

end

/-! ## No call holds two connections -/

/-- How many connections are out behind these entries. -/
def out (w : List PoolLog) : Int :=
  (w.map fun
    | .acquired _ => 1
    | .refused _ => 0
    | .released _ => -1).sum

/-- At no moment is more than one connection out, and at the end none is. -/
def OneAtATime (w : List PoolLog) : Prop := (∀ n, 0 ≤ out (w.take n) ∧ out (w.take n) ≤ 1) ∧ out w = 0

theorem out_append (w w' : List PoolLog) : out (w ++ w') = out w + out w' := by
  unfold out
  rw [List.map_append, List.sum_append]

theorem OneAtATime.append {w w' : List PoolLog} (h : OneAtATime w) (h' : OneAtATime w') : OneAtATime (w ++ w') := by
  refine ⟨fun n => ?_, by rw [out_append, h.2, h'.2]; rfl⟩
  rw [List.take_append, out_append]
  rcases Nat.le_total n w.length with hn | hn
  · rw [Nat.sub_eq_zero_of_le hn, List.take_zero]
    simpa [out] using h.1 n
  · rw [List.take_of_length_le hn, h.2, Int.zero_add]
    exact h'.1 _

theorem Visit.oneAtATime {pool : PoolId} {w : List PoolLog} (h : Visit pool w) : OneAtATime w := by
  rcases h with rfl | rfl
  · refine ⟨fun n => ?_, rfl⟩
    cases n <;> simp [out]
  · refine ⟨fun n => ?_, rfl⟩
    rcases n with - | - | n
    all_goals simp [out]

theorem Visits.oneAtATime {pool : PoolId} {count : Nat} {w : List PoolLog} (h : Visits pool count w) : OneAtATime w := by
  obtain ⟨ws, -, hall, rfl⟩ := h
  induction ws with
  | nil => exact ⟨fun n => by simp [out], rfl⟩
  | cons v ws ih =>
    obtain ⟨hv, hrest⟩ := List.forall_mem_cons.mp hall
    exact hv.oneAtATime.append (ih hrest)

/-! ## Reading -/

/-- A reading transaction is run on a pool: what its attempts meet, its outcome, and what the pool sees of it. -/
structure Reads (backend : Backend σ) (func : Action σ Exn α) (most : Int) (pool : PoolId) (s : σ) (errors : List Exn)
    (r : Except Exn α) (s' : σ) (w : List PoolLog) : Prop where
  tries : Tries (attempt backend pool .readTransaction .readCommitted func) (Retry.isTransientPqxxRead ·) most s errors r s'
  visits : Visits pool (errors.length + 1) w
  bound : (errors.length + 1 : Int) ≤ max 1 most

variable (backend func) in
theorem executeWith_reads (pool : PoolId) (spanName poolLabel : Bytes) (policy : Retry.Policy) (draw : Nat → Int → Int)
    (s : σ) (log : List PoolLog) : ∃ errors r s' w, Reads backend func policy.maxAttempts pool s errors r s' w ∧
      (executeWith backend.logged pool .readTransaction Retry.isTransientPqxxRead spanName poolLabel policy draw
        (aside func) .readCommitted (s, log)).1 = (r, s', log ++ w) := by
  obtain ⟨errors, r, after, htries, hloop⟩ := Retry.loop_tries
    (attempt backend.logged pool .readTransaction .readCommitted (aside func)) Retry.isTransientPqxxRead policy spanName
    draw 0 (s, log)
  rw [Nat.cast_zero, Int.sub_zero] at htries
  obtain ⟨hplain, w, hw, hafter⟩ := tries_logged htries
  refine ⟨errors, r, after.1, w, ⟨hplain, hw, ?_⟩, ?_⟩
  · rcases htries.bound with rfl | hbound
    · exact le_max_left _ _
    · exact le_max_of_le_right hbound
  · unfold executeWith Retry.run
    simp only [hloop, ← hafter]

/-- The next read takes the next replica. -/
def Manager.advance (m : Manager) : Manager := { m with current := (m.current + 1) % 2 ^ 64 }

/-- A read visits the replica whose turn it is. If an attempt there succeeds, that is the outcome and the primary is
not asked. Otherwise the primary is visited after it, in the world that the replica has left, and its outcome is the
outcome. No two connections are held at once, and none is left. -/
theorem executeRead_routes (backend : Backend σ) (func : Action σ Exn α) (m : Manager) (hinit : m.initialized = true)
    (hreplicas : m.replicas ≠ 0) (draw draw' : Nat → Int → Int) (s : σ) (log : List PoolLog) :
    ∃ errors r s' viaReplica,
      Reads backend func m.policy.maxAttempts (.replica (m.current % m.replicas)) s errors r s' viaReplica ∧
      OneAtATime viaReplica ∧
      (∀ a, r = .ok a →
        (m.executeRead backend.logged draw (aside func) (s, log) draw').1.1 = (.ok a, s', log ++ viaReplica)) ∧
      (∀ e, r = .error e → ∃ errors' r' s'' viaPrimary,
        Reads backend func m.policy.maxAttempts .primary s' errors' r' s'' viaPrimary ∧
        OneAtATime (viaReplica ++ viaPrimary) ∧
        (m.executeRead backend.logged draw (aside func) (s, log) draw').1.1 =
          (r', s'', log ++ viaReplica ++ viaPrimary)) ∧
      (m.executeRead backend.logged draw (aside func) (s, log) draw').2 = m.advance := by
  obtain ⟨errors, r, s', viaReplica, hreads, hrun⟩ := executeWith_reads backend func (.replica (m.current % m.replicas))
    (ascii "db.read") (ascii "replica") m.policy draw s log
  have hpick : m.pickReplica = (.replica (m.current % m.replicas), m.advance) := by
    rw [Manager.pickReplica, if_neg hreplicas]
    rfl
  refine ⟨errors, r, s', viaReplica, hreads, hreads.visits.oneAtATime, ?_⟩
  unfold Manager.executeRead
  simp only [if_neg hreplicas, hinit, Bool.not_true, Bool.false_eq_true, if_false, hpick, hrun]
  cases r with
  | ok a => exact ⟨fun a' ha => (by rw [ha]), fun e he => (by cases he), rfl⟩
  | error e =>
    obtain ⟨errors', r', s'', viaPrimary, hreads', hrun'⟩ := executeWith_reads backend func .primary (ascii "db.read")
      (ascii "primary") m.policy draw' s' (log ++ viaReplica)
    refine ⟨fun a ha => (by cases ha), fun e' _ => ⟨errors', r', s'', viaPrimary, hreads', ?_, ?_⟩, rfl⟩
    · exact hreads.visits.oneAtATime.append hreads'.visits.oneAtATime
    · have hprimary : (m.advance.executeReadPrimary backend.logged draw' (aside func) (s', log ++ viaReplica)).1 =
          (r', s'', log ++ viaReplica ++ viaPrimary) := by
        rw [← hrun', Manager.executeReadPrimary, Manager.onPrimary]
        simp [Manager.advance, hinit]
      exact hprimary

/-- A replica that refuses every connection. -/
def downReplica : Backend Nat where
  acquire pool s := (if pool = .primary then .ok () else .error (.brokenConnection (ascii "connection refused")), s + 1)
  release _ s := s
  start _ _ s := (.ok (), s)
  finish _ s := s
  exec _ _ s := (.ok (), s)
  commit _ s := (.ok (), s)

theorem executeRead_routes_sample : ∃ errors s' viaReplica errors' r' s'' viaPrimary,
    Reads downReplica (Action.pure true) 3 (.replica 1) 0 errors (.error (.brokenConnection (ascii "connection refused")))
      s' viaReplica ∧
    Reads downReplica (Action.pure true) 3 .primary s' errors' r' s'' viaPrimary ∧
    OneAtATime (viaReplica ++ viaPrimary) ∧
    (Manager.executeRead downReplica.logged ⟨true, 2, 7, {}⟩ (fun _ _ => 0) (aside (Action.pure true)) (0, [])
      fun _ _ => 0).1.1 = (r', s'', viaReplica ++ viaPrimary) := by
  obtain ⟨errors, r, s', viaReplica, hreads, -, -, hfallback, -⟩ := executeRead_routes downReplica (Action.pure true)
    ⟨true, 2, 7, {}⟩ rfl (by decide) (fun _ _ => 0) (fun _ _ => 0) 0 []
  have hdown : r = .error (.brokenConnection (ascii "connection refused")) := by
    obtain ⟨mid, -, hend⟩ := hreads.tries.fails
    exact (congrArg Prod.fst hend).symm
  subst hdown
  obtain ⟨errors', r', s'', viaPrimary, hreads', hone, hrun⟩ := hfallback _ rfl
  exact ⟨errors, s', viaReplica, errors', r', s'', viaPrimary, hreads, hreads', hone, hrun⟩

end

/-! ## Taking turns -/

/-- The pools of the next reads, in the order in which they fetch the counter. -/
def Manager.turns (m : Manager) : Nat → List PoolId
  | 0 => []
  | n + 1 => m.pickReplica.1 :: m.pickReplica.2.turns n

theorem turns_eq {m : Manager} (hreplicas : m.replicas ≠ 0) {n : Nat} (hwrap : m.current + n ≤ 2 ^ 64) :
    m.turns n = (List.range n).map fun k => .replica ((m.current + k) % m.replicas) := by
  induction n generalizing m with
  | zero => rfl
  | succ n ih =>
    have hnext : m.turns (n + 1) = .replica (m.current % m.replicas) :: m.advance.turns n := by
      rw [Manager.turns, Manager.pickReplica, if_neg hreplicas]
      rfl
    rw [hnext, List.range_succ_eq_map, List.map_cons, List.map_map, Nat.add_zero]
    cases n with
    | zero => rfl
    | succ n =>
      have hcurrent : m.advance.current = m.current + 1 := Nat.mod_eq_of_lt (by omega)
      rw [ih (m := m.advance) hreplicas (by omega), hcurrent]
      congr 1
      refine List.map_congr_left fun k _ => ?_
      rw [Function.comp_apply, Nat.succ_eq_add_one, show m.current + (k + 1) = m.current + 1 + k by omega]
      rfl

/-- Reads are spread evenly: of any number of reads in a row every replica serves its share, rounded down or up. -/
theorem turns_fair (m : Manager) (n idx : Nat) (hidx : idx < m.replicas) (hwrap : m.current + n ≤ 2 ^ 64) :
    n / m.replicas ≤ (m.turns n).count (.replica idx) ∧ (m.turns n).count (.replica idx) ≤ n / m.replicas + 1 := by
  have hpos : 0 < m.replicas := Nat.zero_lt_of_lt hidx
  -- `k` reads from now it is the turn of `idx`.
  let first := idx + (m.replicas - m.current % m.replicas)
  have hround : ∀ k, m.current + k + (m.replicas - m.current % m.replicas) ≡ k [MOD m.replicas] := by
    intro k
    have hmod := Nat.mod_lt m.current hpos
    have hdiv := Nat.div_add_mod m.current m.replicas
    have heq : m.current + k + (m.replicas - m.current % m.replicas) =
        k + m.replicas * (m.current / m.replicas + 1) := by
      rw [Nat.mul_succ]
      omega
    rw [heq]
    exact (Nat.modEq_add_modulus_mul_iff.mpr rfl).symm
  have hturn : ∀ k, (m.current + k) % m.replicas = idx ↔ k ≡ first [MOD m.replicas] := by
    intro k
    have hmod : (m.current + k) % m.replicas = idx ↔ m.current + k ≡ idx [MOD m.replicas] := by
      rw [Nat.ModEq, Nat.mod_eq_of_lt hidx]
    rw [hmod]
    exact ⟨fun h => (hround k).symm.trans (h.add_right _), fun h => ((hround k).trans h).add_right_cancel' _⟩
  have hcount : (m.turns n).count (.replica idx) = n.count (· ≡ first [MOD m.replicas]) := by
    rw [turns_eq (Nat.pos_iff_ne_zero.mp hpos) hwrap, List.count_eq_countP, List.countP_map, Nat.count]
    refine List.countP_congr fun k _ => ?_
    simp [hturn]
  rw [hcount, Nat.count_modEq_card _ hpos]
  split <;> omega

theorem turns_fair_sample : 7 / 3 ≤ (Manager.turns ⟨true, 3, 5, {}⟩ 7).count (.replica 1) ∧
    (Manager.turns ⟨true, 3, 5, {}⟩ 7).count (.replica 1) ≤ 7 / 3 + 1 :=
  turns_fair ⟨true, 3, 5, {}⟩ 7 1 (by decide) (by decide)

end LlmGuard.Database
