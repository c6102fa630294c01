import Mathlib.Data.List.Induction

/-!
# Moments of a run

A run is given by its events, and its moments are their prefixes. This says what holds at some moment of a run, and what
holds from one moment of it on.
-/

namespace Moments

variable {σ ε : Type} {step : σ → ε → Option σ} {a b c : σ} {before events later : List ε} {e : ε} {P Q : σ → Prop}

/-- The events, one after the other. -/
def Leads (step : σ → ε → Option σ) (a : σ) (events : List ε) (b : σ) : Prop := events.foldlM step a = some b

theorem leads_nil : Leads step a [] b ↔ b = a := by
  simp [Leads, eq_comm]

theorem leads_cons : Leads step a (e :: events) c ↔ ∃ b, step a e = some b ∧ Leads step b events c := by
  simp [Leads, Option.bind_eq_some_iff]

theorem leads_append : Leads step a (events ++ later) c ↔ ∃ b, Leads step a events b ∧ Leads step b later c := by
  simp [Leads, List.foldlM_append, Option.bind_eq_some_iff]

theorem leads_snoc : Leads step a (events ++ [e]) c ↔ ∃ b, Leads step a events b ∧ step b e = some c := by
  rw [leads_append]
  simp [Leads]

theorem Leads.unique (h : Leads step a events b) (h' : Leads step a events c) : b = c :=
  Option.some.inj (h.symm.trans h')

/-- What holds at the start, and at every moment behind one at which it holds. -/
@[elab_as_elim]
theorem Leads.rec_on {motive : List ε → σ → Prop} (h : Leads step a events b) (nil : motive [] a)
    (snoc : ∀ events b e c, Leads step a events b → step b e = some c → motive events b → motive (events ++ [e]) c) :
    motive events b := by
  induction events using List.reverseRecOn generalizing b with
  | nil =>
    obtain rfl := leads_nil.mp h
    exact nil
  | append_singleton events e ih =>
    obtain ⟨mid, hmid, hstep⟩ := leads_snoc.mp h
    exact snoc events mid e b hmid hstep (ih hmid)

/-- Once it holds, it goes on to hold. -/
def Stable (step : σ → ε → Option σ) (P : σ → Prop) : Prop := ∀ s e s', step s e = some s' → P s → P s'

theorem Stable.run (h : Stable step P) (hrun : Leads step a events b) (ha : P a) : P b :=
  hrun.rec_on ha fun _ _ _ _ _ hstep => h _ _ _ hstep

/-- At some moment of the run. -/
def Sometime (step : σ → ε → Option σ) (a : σ) (events : List ε) (P : σ → Prop) : Prop :=
  ∃ before s, before <+: events ∧ Leads step a before s ∧ P s

theorem sometime_last (hrun : Leads step a events b) (hb : P b) : Sometime step a events P :=
  ⟨events, b, List.prefix_rfl, hrun, hb⟩

theorem Sometime.more (h : Sometime step a events P) (hmore : events <+: later) : Sometime step a later P := by
  obtain ⟨before, s, hbefore, hrun, hs⟩ := h
  exact ⟨before, s, hbefore.trans hmore, hrun, hs⟩

theorem sometime_now (hrun : Leads step a events b) (hmore : events <+: later) (hb : P b) : Sometime step a later P :=
  (sometime_last hrun hb).more hmore

theorem Sometime.mono (h : Sometime step a events P) (hpq : ∀ s, P s → Q s) : Sometime step a events Q := by
  obtain ⟨before, s, hbefore, hrun, hs⟩ := h
  exact ⟨before, s, hbefore, hrun, hpq s hs⟩

/-- At every moment of the run from this one on. -/
def Since (step : σ → ε → Option σ) (a : σ) (before events : List ε) (P : σ → Prop) : Prop :=
  ∀ upto s, before <+: upto → upto <+: events → Leads step a upto s → P s

theorem Stable.since (h : Stable step P) (hbefore : Leads step a before b) (hb : P b) (events : List ε) :
    Since step a before events P := by
  rintro upto s ⟨rest, rfl⟩ - hrun
  obtain ⟨mid, hmid, hrest⟩ := leads_append.mp hrun
  obtain rfl := hbefore.unique hmid
  exact h.run hrest hb

theorem Stable.not_sometime (h : Stable step P) (ha : P a) : ¬ Sometime step a events fun s => ¬ P s := by
  rintro ⟨before, s, -, hrun, hs⟩
  exact hs (h.run hrun ha)

end Moments
