import LlmGuard.Code.ConnectionPool
import Mathlib.Data.List.Nodup

/-!
# The pool never grows

A slot is reserved under the mutex and filled outside it, broken connections vanish, and a failed connect gives
its slot back. In any order of these steps the connections and reserved slots stay within the size of the pool.
-/

namespace LlmGuard

namespace PoolState

variable {poolSize : Nat} {st st' : PoolState}

/-- The connections that exist. -/
def live (st : PoolState) : List Connection := st.held.map (·.2) ++ st.available

/-- What every step keeps. -/
structure Balanced (poolSize : Nat) (st : PoolState) : Prop where
  size : st.available.length + st.active ≤ poolSize
  count : st.active = st.held.length + st.connecting.length
  distinct : st.live.Nodup
  made : ∀ conn ∈ st.live, conn < st.created

theorem balanced_init (poolSize : Nat) : Balanced poolSize (init poolSize) where
  size := by simp [init]
  count := rfl
  distinct := by simpa [live, init] using List.nodup_range
  made := by simp [live, init]

/-! ## `size_t` -/

theorem sizeAdd_eq {a b : Nat} (h : a + b ≤ sizeMax) : sizeAdd a b = a + b := by
  unfold sizeAdd
  exact Nat.mod_eq_of_lt (by omega)

theorem sizeSub_eq {a b : Nat} (h : b ≤ a) : sizeSub a b = a - b := by
  unfold sizeSub
  rw [if_pos h]

/-! ## One step -/

theorem Balanced.canProceed_iff (h : Balanced poolSize st) (hfits : poolSize ≤ sizeMax) :
    st.canProceed poolSize = true ↔ st.available ≠ [] ∨ st.active < poolSize := by
  have hsize := h.size
  unfold canProceed
  rw [sizeAdd_eq (by omega)]
  cases st.available with
  | nil => simp
  | cons conn rest => simp

theorem Balanced.acquire (h : Balanced poolSize st) (hfits : poolSize ≤ sizeMax) (user : User) :
    Balanced poolSize (st.acquire poolSize user) := by
  have hsize := h.size
  have hcount := h.count
  have hdistinct := h.distinct
  have hmade := h.made
  have hproceed := h.canProceed_iff hfits
  unfold live at hdistinct hmade
  unfold PoolState.acquire
  by_cases hp : st.canProceed poolSize
  · rw [if_neg (by simp [hp])]
    cases havail : st.available with
    | cons conn rest =>
      rw [havail, List.length_cons] at hsize
      rw [havail] at hdistinct hmade
      have hperm : (conn :: (st.held.map (·.2) ++ rest)).Perm (st.held.map (·.2) ++ conn :: rest) :=
        List.perm_middle.symm
      refine ⟨?_, ?_, ?_, ?_⟩
      · simp only [sizeAdd_eq (show st.active + 1 ≤ sizeMax by omega)]
        omega
      · simp only [sizeAdd_eq (show st.active + 1 ≤ sizeMax by omega), List.length_cons]
        omega
      · exact hperm.nodup_iff.mpr hdistinct
      · exact fun c hc => hmade c (hperm.subset hc)
    | nil =>
      have hlt : st.active < poolSize := by
        rcases hproceed.mp hp with hne | hlt
        · exact absurd havail hne
        · exact hlt
      rw [havail] at hdistinct hmade
      refine ⟨?_, ?_, ?_, ?_⟩
      · simp only [sizeAdd_eq (show st.active + 1 ≤ sizeMax by omega), List.length_nil]
        omega
      · simp only [sizeAdd_eq (show st.active + 1 ≤ sizeMax by omega), List.length_cons]
        omega
      · simpa [live, havail] using hdistinct
      · simpa [live, havail] using hmade
  · rw [if_pos (by simp [hp])]
    exact h

theorem Balanced.connected (h : Balanced poolSize st) {user : User} (hconnecting : user ∈ st.connecting) :
    Balanced poolSize (st.connected user) where
  size := h.size
  count := by
    have hpos := List.length_pos_of_mem hconnecting
    have hcount := h.count
    simp only [PoolState.connected, List.length_erase_of_mem hconnecting, List.length_cons]
    omega
  distinct := List.nodup_cons.mpr ⟨fun hmem => Nat.lt_irrefl _ (h.made _ hmem), h.distinct⟩
  made conn hconn := by
    rcases List.mem_cons.mp hconn with rfl | hconn
    · exact Nat.lt_succ_self _
    · exact Nat.lt_succ_of_lt (h.made conn hconn)

theorem Balanced.active_pos_of_connecting (h : Balanced poolSize st) {user : User}
    (hconnecting : user ∈ st.connecting) : 0 < st.active := by
  have := List.length_pos_of_mem hconnecting
  have := h.count
  omega

theorem Balanced.active_pos_of_held (h : Balanced poolSize st) {entry : User × Connection}
    (hheld : entry ∈ st.held) : 0 < st.active := by
  have := List.length_pos_of_mem hheld
  have := h.count
  omega

theorem Balanced.connectFailed (h : Balanced poolSize st) {user : User} (hconnecting : user ∈ st.connecting) :
    Balanced poolSize (st.connectFailed user) where
  size := by
    have := h.size
    simp only [PoolState.connectFailed, sizeSub_eq (h.active_pos_of_connecting hconnecting)]
    omega
  count := by
    have hcount := h.count
    have hpos := List.length_pos_of_mem hconnecting
    simp only [PoolState.connectFailed, sizeSub_eq (h.active_pos_of_connecting hconnecting),
      List.length_erase_of_mem hconnecting]
    omega
  distinct := h.distinct
  made := h.made

theorem live_release {user : User} {conn : Connection} (hheld : (user, conn) ∈ st.held) :
    st.live.Perm (conn :: (st.release user conn false).live) ∧ st.live.Perm (st.release user conn true).live := by
  have hheldConns : (st.held.map (·.2)).Perm (conn :: (st.held.erase (user, conn)).map (·.2)) :=
    (List.perm_cons_erase hheld).map fun entry : User × Connection => entry.2
  have hperm := hheldConns.append_right st.available
  refine ⟨hperm, hperm.trans ?_⟩
  unfold live PoolState.release
  simp only [if_true]
  rw [← List.append_assoc]
  exact (List.perm_append_singleton conn _).symm

theorem Balanced.release (h : Balanced poolSize st) {user : User} {conn : Connection} (hheld : (user, conn) ∈ st.held)
    (isOpen : Bool) : Balanced poolSize (st.release user conn isOpen) := by
  have hsize := h.size
  have hcount := h.count
  have hpos := List.length_pos_of_mem hheld
  have hactive := sizeSub_eq (h.active_pos_of_held hheld)
  have hlen := List.length_erase_of_mem hheld
  obtain ⟨hclosed, hopen⟩ := live_release hheld
  have hnodup : (st.release user conn isOpen).live.Nodup ∧ (st.release user conn isOpen).live ⊆ st.live := by
    cases isOpen with
    | true => exact ⟨hopen.nodup_iff.mp h.distinct, hopen.symm.subset⟩
    | false =>
      refine ⟨(List.nodup_cons.mp (hclosed.nodup_iff.mp h.distinct)).2, ?_⟩
      exact fun c hc => hclosed.symm.subset (List.mem_cons_of_mem conn hc)
  refine ⟨?_, ?_, hnodup.1, fun c hc => h.made c (hnodup.2 hc)⟩
  · simp only [PoolState.release, hactive]
    cases isOpen with
    | true =>
      simp only [if_true, List.length_append, List.length_singleton]
      omega
    | false =>
      simp only [Bool.false_eq_true, if_false]
      omega
  · simp only [PoolState.release, hactive, hlen]
    omega

/-- Everything a step can do. -/
theorem step_cases {event : PoolEvent} (h : st.step poolSize event = some st') :
    (∃ user, event = .acquire user ∧ st' = st.acquire poolSize user) ∨
      (∃ user, event = .connected user ∧ user ∈ st.connecting ∧ st' = st.connected user) ∨
      (∃ user, event = .connectFailed user ∧ user ∈ st.connecting ∧ st' = st.connectFailed user) ∨
      ∃ user conn isOpen, event = .release user conn isOpen ∧ (user, conn) ∈ st.held ∧
        st' = st.release user conn isOpen := by
  cases event with
  | acquire user => exact .inl ⟨user, rfl, (Option.some.inj h).symm⟩
  | connected user =>
    obtain ⟨hmem, heq⟩ := Option.ite_none_right_eq_some.mp h
    exact .inr (.inl ⟨user, rfl, hmem, (Option.some.inj heq).symm⟩)
  | connectFailed user =>
    obtain ⟨hmem, heq⟩ := Option.ite_none_right_eq_some.mp h
    exact .inr (.inr (.inl ⟨user, rfl, hmem, (Option.some.inj heq).symm⟩))
  | release user conn isOpen =>
    obtain ⟨hmem, heq⟩ := Option.ite_none_right_eq_some.mp h
    exact .inr (.inr (.inr ⟨user, conn, isOpen, rfl, hmem, (Option.some.inj heq).symm⟩))

theorem Balanced.step (h : Balanced poolSize st) (hfits : poolSize ≤ sizeMax) {event : PoolEvent}
    (hstep : st.step poolSize event = some st') : Balanced poolSize st' := by
  obtain ⟨user, -, rfl⟩ | ⟨user, -, hmem, rfl⟩ | ⟨user, -, hmem, rfl⟩ | ⟨user, conn, isOpen, -, hmem, rfl⟩ :=
    step_cases hstep
  · exact h.acquire hfits user
  · exact h.connected hmem
  · exact h.connectFailed hmem
  · exact h.release hmem isOpen

/-! ## Any run -/

theorem Balanced.run (h : Balanced poolSize st) (hfits : poolSize ≤ sizeMax) {events : List PoolEvent}
    (hrun : st.run poolSize events = some st') : Balanced poolSize st' := by
  induction events generalizing st with
  | nil =>
    obtain rfl := Option.some.inj hrun
    exact h
  | cons event events ih =>
    obtain ⟨mid, hstep, hrest⟩ := Option.bind_eq_some_iff.mp hrun
    exact ih (h.step hfits hstep) hrest

/-- The steps that count `active_connections_` down. -/
def GivesBack : PoolEvent → Prop
  | .connectFailed _ | .release _ _ _ => True
  | .acquire _ | .connected _ => False

theorem Balanced.no_underflow (h : Balanced poolSize st) {event : PoolEvent} (hback : GivesBack event)
    (hstep : st.step poolSize event = some st') : 0 < st.active := by
  obtain ⟨user, rfl, -⟩ | ⟨user, rfl, -, -⟩ | ⟨user, -, hmem, -⟩ | ⟨user, conn, isOpen, -, hmem, -⟩ :=
    step_cases hstep
  · exact absurd hback id
  · exact absurd hback id
  · exact h.active_pos_of_connecting hmem
  · exact h.active_pos_of_held hmem

/-- **The pool keeps its bound.** Whatever the order of the steps: the queue and the active connections fit in the
pool, the active ones are those that are held or about to be made, the counter is never taken below zero, and
no connection is held twice or held and queued. -/
theorem pool_balanced (poolSize : Nat) (hfits : poolSize ≤ sizeMax) (events : List PoolEvent) (st : PoolState)
    (hrun : (init poolSize).run poolSize events = some st) :
    st.available.length + st.active ≤ poolSize ∧
      st.active = st.held.length + st.connecting.length ∧
      (∀ event st', GivesBack event → st.step poolSize event = some st' → 0 < st.active) ∧
      (st.held.map (·.2) ++ st.available).Nodup := by
  have h := (balanced_init poolSize).run hfits hrun
  exact ⟨h.size, h.count, fun event st' hback hstep => h.no_underflow hback hstep, h.distinct⟩

/-- Two users share a pool of one: a broken connection goes, and the next connect fails once. -/
theorem pool_balanced_sample :
    ∃ st, (init 1).run 1 [.acquire 7, .acquire 8, .release 7 0 false, .acquire 8, .connectFailed 8, .acquire 7,
        .connected 7] = some st ∧
      st.available.length + st.active ≤ 1 ∧ (st.held.map (·.2) ++ st.available).Nodup := by
  have hrun : (init 1).run 1 [.acquire 7, .acquire 8, .release 7 0 false, .acquire 8, .connectFailed 8, .acquire 7,
      .connected 7] = some ⟨[], 1, [(7, 1)], [], 2⟩ := by decide
  have h := pool_balanced 1 (by decide) _ _ hrun
  exact ⟨_, hrun, h.1, h.2.2.2⟩

end PoolState

end LlmGuard
