import LlmGuard.Code.Migrations
import Mathlib.Data.List.Nodup
import Mathlib.Data.List.Perm.Basic

/-!
# Booting instances apply each migration once

Every instance works from an old snapshot and looks again under the lock. The versions that were run are always
the lowest ones, in order. A file is run unless one with the same version was run before.
-/

namespace LlmGuard

variable {files : List MigrationFile} {db db' : MigrationDb} {c c' : Cluster} {r r' : Runner} {i : Nat}

/-! ## The matched files -/

theorem scanDirectory_ok {dir : List DirEntry} (h : scanDirectory dir = .ok files) :
    files = dir.filterMap fun entry => (scanEntry entry).toOption.join := by
  induction dir generalizing files with
  | nil =>
    obtain rfl := Except.ok.inj h
    rfl
  | cons entry entries ih =>
    unfold scanDirectory at h
    cases hentry : scanEntry entry with
    | error e =>
      rw [hentry] at h
      cases h
    | ok found =>
      rw [hentry] at h
      cases found with
      | none => rw [List.filterMap_cons_none (by rw [hentry]; rfl), ih h]
      | some mf =>
        simp only at h
        cases hrest : scanDirectory entries with
        | error e =>
          rw [hrest] at h
          cases h
        | ok ms =>
          rw [hrest] at h
          obtain rfl := Except.ok.inj h
          rw [List.filterMap_cons_some (b := mf) (by rw [hentry]; rfl), ← ih hrest]

theorem scanDirectory_perm {dir listing : List DirEntry} {found : List MigrationFile}
    (h : scanDirectory dir = .ok files) (hlisting : listing.Perm dir) (hfound : scanDirectory listing = .ok found) :
    found.Perm files := by
  rw [scanDirectory_ok h, scanDirectory_ok hfound]
  exact hlisting.filterMap _

/-! ## What an instance knows -/

def Runner.Critical : Runner → Prop
  | .critical .. => True
  | _ => False

/-- The version that was run and is not recorded yet. -/
def Runner.pending : Runner → List Nat
  | .critical .executed _ mf _ => [mf.version]
  | .critical .inserted _ mf _ => if hasNoTransactionMarker mf.sql then [] else [mf.version]
  | _ => []

theorem Runner.pending_of_not_critical (h : ¬ r.Critical) : r.pending = [] := by
  cases r with
  | critical => exact absurd trivial h
  | _ => rfl

theorem Runner.pending_inserted (applied : List Nat) (mf : MigrationFile) (rest : List MigrationFile) :
    (Runner.critical .inserted applied mf rest).pending =
      if hasNoTransactionMarker mf.sql then [] else [mf.version] := rfl

/-- The loop has come as far as `rest`. -/
structure Progress (files : List MigrationFile) (recorded applied : List Nat) (rest : List MigrationFile) : Prop where
  snapshot : applied ⊆ recorded
  passed : ∃ before, SortedByVersion files (before ++ rest) ∧ ∀ f ∈ before, f.version ∈ recorded

def StageKnows (recorded : List Nat) (mf : MigrationFile) : Stage → Prop
  | .found => mf.version ∈ recorded
  | .unseen => mf.version ∉ recorded
  | .inserted => hasNoTransactionMarker mf.sql → mf.version ∈ recorded
  | .locked | .executed => True

def Runner.Knows (files : List MigrationFile) (recorded : List Nat) : Runner → Prop
  | .boot => True
  | .scanned ms => SortedByVersion files ms
  | .loop applied rest => Progress files recorded applied rest
  | .critical stage applied mf rest => Progress files recorded applied (mf :: rest) ∧ StageKnows recorded mf stage
  | .returned => ∀ f ∈ files, f.version ∈ recorded

theorem Progress.mono {recorded recorded' applied : List Nat} {rest : List MigrationFile}
    (h : Progress files recorded applied rest) (hsub : recorded ⊆ recorded') :
    Progress files recorded' applied rest := by
  obtain ⟨before, hsorted, hpassed⟩ := h.passed
  exact ⟨fun v hv => hsub (h.snapshot hv), before, hsorted, fun f hf => hsub (hpassed f hf)⟩

theorem Progress.next {recorded applied : List Nat} {mf : MigrationFile} {rest : List MigrationFile}
    (h : Progress files recorded applied (mf :: rest)) (hmf : mf.version ∈ recorded) :
    Progress files recorded applied rest := by
  obtain ⟨before, hsorted, hpassed⟩ := h.passed
  refine ⟨h.snapshot, before ++ [mf], by rwa [List.append_assoc, List.singleton_append], ?_⟩
  intro f hf
  rcases List.mem_append.mp hf with hf | hf
  · exact hpassed f hf
  · rw [List.mem_singleton.mp hf]
    exact hmf

theorem Progress.done {recorded applied : List Nat} (h : Progress files recorded applied []) :
    ∀ f ∈ files, f.version ∈ recorded := by
  obtain ⟨before, hsorted, hpassed⟩ := h.passed
  rw [List.append_nil] at hsorted
  exact fun f hf => hpassed f (hsorted.1.symm.subset hf)

theorem Progress.mem {recorded applied : List Nat} {mf : MigrationFile} {rest : List MigrationFile}
    (h : Progress files recorded applied (mf :: rest)) : mf ∈ files := by
  obtain ⟨before, hsorted, -⟩ := h.passed
  exact hsorted.1.subset (by simp)

theorem Progress.lower {recorded applied : List Nat} {mf : MigrationFile} {rest : List MigrationFile}
    (h : Progress files recorded applied (mf :: rest)) {g : MigrationFile} (hg : g ∈ files)
    (hlt : g.version < mf.version) : g.version ∈ recorded := by
  obtain ⟨before, ⟨hperm, hsorted⟩, hpassed⟩ := h.passed
  rcases List.mem_append.mp (hperm.symm.subset hg) with hg | hg
  · exact hpassed g hg
  · have hbehind := (List.pairwise_append.mp hsorted).2.1
    rcases List.mem_cons.mp hg with rfl | hg
    · exact absurd hlt (Nat.lt_irrefl _)
    · exact absurd hlt (Nat.not_lt.mpr ((List.pairwise_cons.mp hbehind).1 g hg))

theorem Runner.Knows.mono {recorded recorded' : List Nat} (h : r.Knows files recorded) (hr : ¬ r.Critical)
    (hsub : recorded ⊆ recorded') : r.Knows files recorded' := by
  cases r with
  | boot => trivial
  | scanned => exact h
  | loop => exact Progress.mono h hsub
  | critical => exact absurd trivial hr
  | returned => exact fun f hf => hsub (h f hf)

/-! ## What every step keeps -/

/-- The versions that were run are the lowest ones, and each was run once. -/
structure InOrder (files : List MigrationFile) (executed : List MigrationFile) : Prop where
  ascending : executed.Pairwise fun a b => a.version < b.version
  matched : executed ⊆ files
  lowest : ∀ f ∈ executed, ∀ g ∈ files, g.version < f.version → g.version ∈ executed.map (·.version)

theorem InOrder.snoc {executed : List MigrationFile} (h : InOrder files executed) {mf : MigrationFile}
    (hmf : mf ∈ files) (hnew : mf.version ∉ executed.map (·.version))
    (hlower : ∀ g ∈ files, g.version < mf.version → g.version ∈ executed.map (·.version)) :
    InOrder files (executed ++ [mf]) where
  ascending := by
    rw [List.pairwise_append]
    refine ⟨h.ascending, List.pairwise_singleton _ _, ?_⟩
    intro f hf g hg
    obtain rfl := List.mem_singleton.mp hg
    rcases Nat.lt_trichotomy f.version g.version with hlt | heq | hgt
    · exact hlt
    · exact absurd (heq ▸ List.mem_map_of_mem hf) hnew
    · exact absurd (h.lowest f hf g hmf hgt) hnew
  matched := List.append_subset.mpr ⟨h.matched, by simpa using hmf⟩
  lowest f hf g hg hlt := by
    rw [List.map_append]
    apply List.mem_append_left
    rcases List.mem_append.mp hf with hf | hf
    · exact h.lowest f hf g hg hlt
    · rw [List.mem_singleton.mp hf] at hlt
      exact hlower g hg hlt

/-- The instance that has the lock is the only one that runs migrations. -/
structure Serial (files : List MigrationFile) (c : Cluster) : Prop where
  order : InOrder files c.db.executed
  knows : ∀ (i : Nat) (r : Runner), c.runners[i]? = some r → r.Knows files c.db.recorded
  critical : ∀ (i : Nat) (r : Runner), c.runners[i]? = some r → (r.Critical ↔ c.db.lock = some i)
  holder : ∀ i, c.db.lock = some i → i < c.runners.length
  free : c.db.lock = none → c.db.executed.map (·.version) = c.db.recorded
  held : ∀ (i : Nat) (r : Runner), c.runners[i]? = some r → c.db.lock = some i →
    c.db.executed.map (·.version) = c.db.recorded ++ r.pending

theorem serial_init (files : List MigrationFile) (instances : Nat) : Serial files (Cluster.init instances) where
  order := ⟨.nil, List.nil_subset _, by simp [Cluster.init]⟩
  knows i r hr := by
    rw [List.eq_of_mem_replicate (List.mem_of_getElem? hr)]
    trivial
  critical i r hr := by
    rw [List.eq_of_mem_replicate (List.mem_of_getElem? hr)]
    exact ⟨False.elim, nofun⟩
  holder := nofun
  free _ := rfl
  held := nofun

/-- The run versions are the recorded ones and what this instance has pending. -/
theorem Serial.versions (h : Serial files c) (hr : c.runners[i]? = some r)
    (hfree : c.db.lock = none ∨ c.db.lock = some i) :
    c.db.executed.map (·.version) = c.db.recorded ++ r.pending := by
  rcases hfree with hnone | hsome
  · have hout : ¬ r.Critical := by
      rw [h.critical i r hr, hnone]
      exact nofun
    rw [h.free hnone, Runner.pending_of_not_critical hout, List.append_nil]
  · exact h.held i r hr hsome

theorem Serial.outside (h : Serial files c) (hr : c.runners[i]? = some r) (hout : ¬ r.Critical)
    (hout' : ¬ r'.Critical) (hknows : r'.Knows files c.db.recorded) :
    Serial files ⟨c.db, c.runners.set i r'⟩ where
  order := h.order
  knows j s hs := by
    rw [List.getElem?_set] at hs
    split at hs
    · split at hs <;> cases hs
      exact hknows
    · exact h.knows j s hs
  critical j s hs := by
    rw [List.getElem?_set] at hs
    split at hs
    · rename_i hij
      subst hij
      split at hs <;> cases hs
      exact ⟨fun hc => absurd hc hout', fun hlock => absurd ((h.critical i r hr).mpr hlock) hout⟩
    · exact h.critical j s hs
  holder j hj := by
    rw [List.length_set]
    exact h.holder j hj
  free := h.free
  held j s hs hlock := by
    rw [List.getElem?_set] at hs
    split at hs
    · rename_i hij
      subst hij
      exact absurd ((h.critical i r hr).mpr hlock) hout
    · exact h.held j s hs hlock

theorem Serial.inside (h : Serial files c) (hr : c.runners[i]? = some r)
    (hfree : c.db.lock = none ∨ c.db.lock = some i) (hsub : c.db.recorded ⊆ db'.recorded)
    (horder : InOrder files db'.executed) (hversions : db'.executed.map (·.version) = db'.recorded ++ r'.pending)
    (hknows : r'.Knows files db'.recorded)
    (hlock : r'.Critical ∧ db'.lock = some i ∨ ¬ r'.Critical ∧ db'.lock = none) :
    Serial files ⟨db', c.runners.set i r'⟩ := by
  -- No other instance can be critical.
  have hother : ∀ j s, i ≠ j → c.runners[j]? = some s → ¬ s.Critical := by
    intro j s hij hs
    rw [h.critical j s hs]
    rcases hfree with hnone | hsome
    · rw [hnone]
      exact nofun
    · rw [hsome]
      exact fun heq => hij (Option.some.inj heq)
  have hlocked : ∀ j, db'.lock = some j → i = j := by
    intro j hj
    rcases hlock with ⟨-, hlock⟩ | ⟨-, hlock⟩
    · exact Option.some.inj (hlock.symm.trans hj)
    · rw [hlock] at hj
      cases hj
  refine ⟨horder, ?_, ?_, ?_, ?_, ?_⟩
  · intro j s hs
    rw [List.getElem?_set] at hs
    split at hs
    · split at hs <;> cases hs
      exact hknows
    · rename_i hij
      exact (h.knows j s hs).mono (hother j s hij hs) hsub
  · intro j s hs
    rw [List.getElem?_set] at hs
    split at hs
    · rename_i hij
      subst hij
      split at hs <;> cases hs
      rcases hlock with ⟨hin, hlock⟩ | ⟨hout, hlock⟩
      · exact ⟨fun _ => hlock, fun _ => hin⟩
      · rw [hlock]
        exact ⟨fun hin => absurd hin hout, nofun⟩
    · rename_i hij
      exact ⟨fun hin => absurd hin (hother j s hij hs), fun hj => absurd (hlocked j hj) hij⟩
  · intro j hj
    obtain rfl := hlocked j hj
    rw [List.length_set]
    exact (List.getElem?_eq_some_iff.mp hr).1
  · intro hnone
    rcases hlock with ⟨-, hlock⟩ | ⟨hout, -⟩
    · rw [hlock] at hnone
      cases hnone
    · rw [hversions, Runner.pending_of_not_critical hout, List.append_nil]
  · intro j s hs hj
    obtain rfl := hlocked j hj
    rw [List.getElem?_set] at hs
    split at hs
    · split at hs <;> cases hs
      exact hversions
    · rename_i hij
      exact absurd rfl hij

/-! ## One step -/

theorem Serial.next_critical {p : MigrationDb × Runner} {stage : Stage} {applied : List Nat} {mf : MigrationFile}
    {rest : List MigrationFile} (h : Serial files c) (hr : c.runners[i]? = some (.critical stage applied mf rest))
    (hnext : (Runner.critical stage applied mf rest).next i c.db = some p) :
    Serial files ⟨p.1, c.runners.set i p.2⟩ := by
  have hknows := h.knows i _ hr
  have hcritical := h.critical i _ hr
  have hlock := hcritical.mp trivial
  have hversions := h.versions hr (.inr hlock)
  obtain ⟨hprogress, hstage⟩ := hknows
  cases stage with
  | locked =>
    obtain rfl := Option.some.inj hnext
    refine h.inside hr (.inr hlock) (List.Subset.refl _) h.order ?_ ⟨hprogress, ?_⟩ (.inl ⟨trivial, hlock⟩)
    · apply hversions.trans
      split <;> rfl
    · split
      · assumption
      · assumption
  | found =>
    obtain rfl := Option.some.inj hnext
    exact h.inside hr (.inr hlock) (List.Subset.refl _) h.order hversions (hprogress.next hstage) (.inr ⟨id, rfl⟩)
  | unseen =>
    obtain rfl := Option.some.inj hnext
    rw [show Runner.pending (.critical .unseen applied mf rest) = [] from rfl, List.append_nil] at hversions
    refine h.inside hr (.inr hlock) (List.Subset.refl _) ?_ ?_ ⟨hprogress, trivial⟩ (.inl ⟨trivial, hlock⟩)
    · refine h.order.snoc hprogress.mem ?_ ?_
      · rw [hversions]
        exact hstage
      · rw [hversions]
        exact fun g hg hlt => hprogress.lower hg hlt
    · rw [List.map_append, hversions]
      rfl
  | executed =>
    obtain rfl := Option.some.inj hnext
    rw [show Runner.pending (.critical .executed applied mf rest) = [mf.version] from rfl] at hversions
    by_cases hmarker : hasNoTransactionMarker mf.sql
    · rw [if_pos hmarker]
      have hsub := List.subset_append_left c.db.recorded [mf.version]
      refine h.inside hr (.inr hlock) hsub h.order ?_ ⟨hprogress.mono hsub, fun _ => by simp⟩ (.inl ⟨trivial, hlock⟩)
      rw [Runner.pending_inserted, if_pos hmarker, List.append_nil]
      exact hversions
    · rw [if_neg hmarker]
      refine h.inside hr (.inr hlock) (List.Subset.refl _) h.order ?_ ⟨hprogress, fun hm => absurd hm hmarker⟩
        (.inl ⟨trivial, hlock⟩)
      rw [Runner.pending_inserted, if_neg hmarker]
      exact hversions
  | inserted =>
    obtain rfl := Option.some.inj hnext
    rw [Runner.pending_inserted] at hversions
    by_cases hmarker : hasNoTransactionMarker mf.sql
    · rw [if_pos hmarker] at hversions ⊢
      exact h.inside hr (.inr hlock) (List.Subset.refl _) h.order hversions (hprogress.next (hstage hmarker))
        (.inr ⟨id, rfl⟩)
    · rw [if_neg hmarker] at hversions ⊢
      have hsub := List.subset_append_left c.db.recorded [mf.version]
      refine h.inside hr (.inr hlock) hsub h.order ?_ ((hprogress.mono hsub).next (by simp)) (.inr ⟨id, rfl⟩)
      rw [Runner.pending_of_not_critical id, List.append_nil]
      exact hversions

theorem Serial.next {p : MigrationDb × Runner} (h : Serial files c) (hr : c.runners[i]? = some r)
    (hnext : r.next i c.db = some p) : Serial files ⟨p.1, c.runners.set i p.2⟩ := by
  have hknows := h.knows i r hr
  cases r with
  | boot => cases hnext
  | returned => cases hnext
  | scanned ms =>
    cases ms with
    | nil =>
      obtain rfl := Option.some.inj hnext
      apply h.outside hr id id
      intro f hf
      rw [List.nil_perm.mp hknows.1] at hf
      cases hf
    | cons mf ms =>
      obtain rfl := Option.some.inj hnext
      exact h.outside hr id id ⟨List.Subset.refl _, [], hknows, by simp⟩
  | loop applied ms =>
    cases ms with
    | nil =>
      obtain rfl := Option.some.inj hnext
      exact h.outside hr id id (Progress.done hknows)
    | cons mf rest =>
      rw [Runner.next] at hnext
      split at hnext
      · rename_i hseen
        obtain rfl := Option.some.inj hnext
        exact h.outside hr id id (Progress.next hknows (Progress.snapshot hknows hseen))
      · obtain ⟨hfree, hsome⟩ := Option.ite_none_right_eq_some.mp hnext
        obtain rfl := Option.some.inj hsome
        refine h.inside hr (.inl hfree) (List.Subset.refl _) h.order ?_ ⟨hknows, trivial⟩ (.inl ⟨trivial, rfl⟩)
        exact (h.versions (r := .loop applied (mf :: rest)) hr (.inl hfree) :)
  | critical stage applied mf rest => exact h.next_critical hr hnext

/-- Everything a step can do. -/
theorem step_cases {dir : List DirEntry} {event : MigrationEvent} (hstep : c.step dir event = some c') :
    (∃ i listing found ms, c.runners[i]? = some .boot ∧ listing.Perm dir ∧ scanDirectory listing = .ok found ∧
        SortedByVersion found ms ∧ c' = ⟨c.db, c.runners.set i (.scanned ms)⟩) ∨
      ∃ i r p, c.runners[i]? = some r ∧ r.next i c.db = some p ∧ c' = ⟨p.1, c.runners.set i p.2⟩ := by
  cases event with
  | scan i listing ms =>
    rw [Cluster.step] at hstep
    obtain ⟨⟨hboot, hperm⟩, hscan⟩ := Option.ite_none_right_eq_some.mp hstep
    split at hscan
    · cases hscan
    · rename_i found hfound
      obtain ⟨hsorted, hsome⟩ := Option.ite_none_right_eq_some.mp hscan
      exact .inl ⟨i, listing, found, ms, hboot, hperm, hfound, hsorted, (Option.some.inj hsome).symm⟩
  | next i =>
    rw [Cluster.step] at hstep
    split at hstep
    · cases hstep
    · rename_i r hr
      obtain ⟨p, hnext, hsome⟩ := Option.map_eq_some_iff.mp hstep
      exact .inr ⟨i, r, p, hr, hnext, hsome.symm⟩

theorem Serial.step {dir : List DirEntry} {event : MigrationEvent} (hdir : scanDirectory dir = .ok files)
    (h : Serial files c) (hstep : c.step dir event = some c') : Serial files c' := by
  obtain ⟨i, listing, found, ms, hboot, hperm, hfound, ⟨hms, hsorted⟩, rfl⟩ | ⟨i, r, p, hr, hnext, rfl⟩ :=
    step_cases hstep
  · exact h.outside hboot id id ⟨hms.trans (scanDirectory_perm hdir hperm hfound), hsorted⟩
  · exact h.next hr hnext

/-! ## Any run -/

theorem Serial.run {dir : List DirEntry} {events : List MigrationEvent} (hdir : scanDirectory dir = .ok files)
    (h : Serial files c) (hrun : c.run dir events = some c') : Serial files c' := by
  induction events generalizing c with
  | nil =>
    obtain rfl := Option.some.inj hrun
    exact h
  | cons event events ih =>
    obtain ⟨mid, hstep, hrest⟩ := Option.bind_eq_some_iff.mp hrun
    exact ih (h.step hdir hstep) hrest

theorem step_instances {dir : List DirEntry} {event : MigrationEvent} (hstep : c.step dir event = some c') :
    c'.runners.length = c.runners.length := by
  obtain ⟨i, listing, found, ms, -, -, -, -, rfl⟩ | ⟨i, r, p, -, -, rfl⟩ := step_cases hstep
  · exact List.length_set
  · exact List.length_set

theorem run_instances {dir : List DirEntry} {events : List MigrationEvent} (hrun : c.run dir events = some c') :
    c'.runners.length = c.runners.length := by
  induction events generalizing c with
  | nil =>
    obtain rfl := Option.some.inj hrun
    rfl
  | cons event events ih =>
    obtain ⟨mid, hstep, hrest⟩ := Option.bind_eq_some_iff.mp hrun
    exact (ih hrest).trans (step_instances hstep)

theorem Serial.all_run (h : Serial files c) (hreturned : c.Returned) (hne : c.runners ≠ []) :
    ∀ f ∈ files, f.version ∈ c.db.executed.map (·.version) := by
  have hnone : c.db.lock = none := by
    cases hlock : c.db.lock with
    | none => rfl
    | some i =>
      have hi := h.holder i hlock
      have hcritical := (h.critical i _ (List.getElem?_eq_getElem hi)).mpr hlock
      rw [hreturned _ (List.getElem_mem hi)] at hcritical
      exact hcritical.elim
  rw [h.free hnone]
  have hpos := List.length_pos_iff.mpr hne
  have hknows := h.knows 0 _ (List.getElem?_eq_getElem hpos)
  rw [hreturned _ (List.getElem_mem hpos)] at hknows
  exact hknows

/-- The SQL of every matched file was run once, in ascending order of the versions. -/
def EachOnce (files executed : List MigrationFile) : Prop :=
  executed.Perm files ∧ executed.Pairwise fun a b => a.version ≤ b.version

instance (files executed : List MigrationFile) : Decidable (EachOnce files executed) :=
  inferInstanceAs (Decidable (_ ∧ _))

theorem InOrder.eachOnce_iff {executed : List MigrationFile} (h : InOrder files executed)
    (hall : ∀ f ∈ files, f.version ∈ executed.map (·.version)) :
    EachOnce files executed ↔ (files.map (·.version)).Nodup := by
  have hversions : (executed.map (·.version)).Nodup := by
    rw [List.Nodup, List.pairwise_map]
    exact h.ascending.imp fun hlt => Nat.ne_of_lt hlt
  constructor
  · rintro ⟨hperm, -⟩
    exact (hperm.map _).nodup_iff.mp hversions
  · intro hnodup
    refine ⟨?_, h.ascending.imp Nat.le_of_lt⟩
    rw [List.perm_ext_iff_of_nodup (List.Nodup.of_map _ hversions) (List.Nodup.of_map _ hnodup)]
    refine fun f => ⟨fun hf => h.matched hf, fun hf => ?_⟩
    obtain ⟨g, hg, hsame⟩ := List.mem_map.mp (hall f hf)
    rw [← List.inj_on_of_nodup_map hnodup (h.matched hg) hf hsame]
    exact hg

/-- **Each migration once, in order.** However the steps of any number of booting instances interleave: once
all have returned, every matched file was run once and in ascending order, exactly when no two of the files
have the same version. -/
theorem migrations_once_iff {dir : List DirEntry} (hdir : scanDirectory dir = .ok files) {instances : Nat}
    (hsome : instances ≠ 0) {events : List MigrationEvent} (hrun : (Cluster.init instances).run dir events = some c)
    (hreturned : c.Returned) : EachOnce files c.db.executed ↔ (files.map (·.version)).Nodup := by
  have h := (serial_init files instances).run hdir hrun
  refine h.order.eachOnce_iff (h.all_run hreturned ?_)
  rintro hnil
  have hlen := run_instances hrun
  rw [hnil] at hlen
  simp only [Cluster.init, List.length_replicate, List.length_nil] at hlen
  exact hsome hlen.symm

instance (c : Cluster) : Decidable c.Returned := inferInstanceAs (Decidable (∀ r ∈ c.runners, r = .returned))

/-- Two versions and a file that is not a migration. -/
def bootDir : List DirEntry :=
  [⟨true, ascii "002_b.sql", ascii "-- migrate:no-transaction"⟩, ⟨true, ascii "README.md", []⟩,
    ⟨true, ascii "001_a.sql", ascii "A"⟩]

def bootFiles : List MigrationFile :=
  [⟨1, ascii "001_a.sql", ascii "A"⟩, ⟨2, ascii "002_b.sql", ascii "-- migrate:no-transaction"⟩]

/-- Instance 1 takes its snapshot before instance 0 has run anything. -/
def bootEvents : List MigrationEvent :=
  [.scan 0 bootDir bootFiles, .scan 1 bootDir bootFiles, .next 1] ++ List.replicate 12 (.next 0) ++
    List.replicate 7 (.next 1)

theorem migrations_once_iff_sample :
    scanDirectory bootDir = .ok bootFiles.reverse ∧ 2 ≠ 0 ∧
      ∃ c, (Cluster.init 2).run bootDir bootEvents = some c ∧ c.Returned ∧
        (EachOnce bootFiles.reverse c.db.executed ↔ (bootFiles.reverse.map (·.version)).Nodup) := by
  have hdir : scanDirectory bootDir = .ok bootFiles.reverse := by decide
  have hrun : (Cluster.init 2).run bootDir bootEvents =
      some ⟨⟨[1, 2], none, bootFiles⟩, [.returned, .returned]⟩ := by decide
  have hreturned : (⟨⟨[1, 2], none, bootFiles⟩, [.returned, .returned]⟩ : Cluster).Returned := by decide
  exact ⟨hdir, by decide, _, hrun, hreturned, migrations_once_iff hdir (by decide) hrun hreturned⟩

/-- Two files of one version, as two branches may each bring along. -/
def clashDir : List DirEntry := [⟨true, ascii "001_a.sql", ascii "A"⟩, ⟨true, ascii "001_b.sql", ascii "B"⟩]

def clashFiles : List MigrationFile := [⟨1, ascii "001_a.sql", ascii "A"⟩, ⟨1, ascii "001_b.sql", ascii "B"⟩]

/-- One instance alone takes the second file for one that another instance has applied. -/
theorem migrations_clash :
    ¬ ∀ (dir : List DirEntry) (files : List MigrationFile) (instances : Nat) (events : List MigrationEvent)
      (c : Cluster), scanDirectory dir = .ok files → instances ≠ 0 → (Cluster.init instances).run dir events = some c →
        c.Returned → EachOnce files c.db.executed := by
  intro h
  have hrun : (Cluster.init 1).run clashDir (.scan 0 clashDir clashFiles :: List.replicate 10 (.next 0)) =
      some ⟨⟨[1], none, [⟨1, ascii "001_a.sql", ascii "A"⟩]⟩, [.returned]⟩ := by decide
  have honce := h clashDir clashFiles 1 _ _ (by decide) (by decide) hrun (by decide)
  exact absurd honce (by decide)

end LlmGuard
