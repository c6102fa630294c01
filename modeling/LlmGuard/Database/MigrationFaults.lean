import LlmGuard.Code.MigrationFaults
import LlmGuard.Database.Migrations

/-!
# Migrations survive failures

However often instances fail, are cut off and boot again: what a transaction runs is there exactly when its row is. A
migration outside a transaction can be there without its row, and then it runs again.
-/

namespace LlmGuard

variable {files cut cut' : List MigrationFile} {db db' : MigrationDb} {c : Cluster} {s s' : Fleet} {r r' : Runner}
  {i : Nat}

/-! ## The books -/

/-- The recorded versions are the lowest ones, each once and in order. -/
structure Chronicle (files : List MigrationFile) (recorded : List Nat) : Prop where
  ascending : recorded.Pairwise (· < ·)
  lowest : ∀ v ∈ recorded, ∀ g ∈ files, g.version < v → g.version ∈ recorded
  known : ∀ v ∈ recorded, ∃ f ∈ files, f.version = v

theorem Chronicle.count_le (h : Chronicle files db.recorded) (v : Nat) : db.recorded.count v ≤ 1 :=
  List.nodup_iff_count_le_one.mp (h.ascending.imp Nat.ne_of_lt) v

theorem Chronicle.snoc {recorded : List Nat} (h : Chronicle files recorded) {mf : MigrationFile} (hmf : mf ∈ files)
    (hnew : mf.version ∉ recorded) (hlower : ∀ g ∈ files, g.version < mf.version → g.version ∈ recorded) :
    Chronicle files (recorded ++ [mf.version]) where
  ascending := by
    rw [List.pairwise_append]
    refine ⟨h.ascending, List.pairwise_singleton _ _, fun v hv w hw => ?_⟩
    obtain rfl := List.mem_singleton.mp hw
    rcases Nat.lt_trichotomy v mf.version with hlt | heq | hgt
    · exact hlt
    · exact absurd (heq ▸ hv) hnew
    · exact absurd (h.lowest v hv mf hmf hgt) hnew
  lowest v hv g hg hlt := by
    apply List.mem_append_left
    rcases List.mem_append.mp hv with hv | hv
    · exact h.lowest v hv g hg hlt
    · rw [List.mem_singleton.mp hv] at hlt
      exact hlower g hg hlt
  known v hv := by
    rcases List.mem_append.mp hv with hv | hv
    · exact h.known v hv
    · exact ⟨mf, hmf, (List.mem_singleton.mp hv).symm⟩

/-- What ran is what is recorded, what is on its way to be recorded, and what was cut off. -/
structure Booked (files cut : List MigrationFile) (db : MigrationDb) (pending : List Nat) : Prop where
  chronicle : Chronicle files db.recorded
  counts : ∀ f ∈ files,
    db.executed.count f = cut.count f + db.recorded.count f.version + pending.count f.version

/-- What the holder of the lock knows besides. -/
def Runner.Holding (db : MigrationDb) : Runner → Prop
  | .critical .executed _ mf _ => mf.version ∉ db.recorded ∧ db.executed.getLast? = some mf
  | .critical .inserted _ mf _ =>
    ¬ hasNoTransactionMarker mf.sql → mf.version ∉ db.recorded ∧ db.executed.getLast? = some mf
  | _ => True

theorem Runner.holding_of_not_critical (h : ¬ r.Critical) : r.Holding db := by
  cases r with
  | critical => exact absurd trivial h
  | _ => trivial

theorem count_version (hdistinct : (files.map (·.version)).Nodup) {f mf : MigrationFile} (hf : f ∈ files)
    (hmf : mf ∈ files) : [mf.version].count f.version = [mf].count f := by
  by_cases hsame : mf = f
  · simp [hsame]
  · have hversion : mf.version ≠ f.version := fun heq => hsame (List.inj_on_of_nodup_map hdistinct hmf hf heq)
    simp [hsame, hversion]

/-- The instance that has the lock is the only one that runs migrations, and the books are right. -/
structure Durable (files : List MigrationFile) (s : Fleet) : Prop where
  knows : ∀ (i : Nat) (r : Runner), s.cluster.runners[i]? = some r → r.Knows files s.cluster.db.recorded
  critical : ∀ (i : Nat) (r : Runner), s.cluster.runners[i]? = some r → (r.Critical ↔ s.cluster.db.lock = some i)
  taken : ∀ i, s.cluster.db.lock = some i → i < s.cluster.runners.length
  accounts : Booked files s.cutOff s.cluster.db ((s.cluster.holder.map Runner.pending).getD [])
  holding : ∀ r, s.cluster.holder = some r → r.Holding s.cluster.db
  marked : ∀ f ∈ s.cutOff, hasNoTransactionMarker f.sql

theorem durable_init (files : List MigrationFile) (instances : Nat) : Durable files (Fleet.init instances) where
  knows i r hr := by
    rw [List.eq_of_mem_replicate (List.mem_of_getElem? hr)]
    trivial
  critical i r hr := by
    rw [List.eq_of_mem_replicate (List.mem_of_getElem? hr)]
    exact ⟨False.elim, nofun⟩
  taken := nofun
  accounts := ⟨⟨.nil, nofun, nofun⟩, fun _ _ => rfl⟩
  holding := nofun
  marked := nofun

/-- The books, from the side of one instance. -/
theorem Durable.books (h : Durable files s) (hr : s.cluster.runners[i]? = some r)
    (hfree : s.cluster.db.lock = none ∨ s.cluster.db.lock = some i) :
    Booked files s.cutOff s.cluster.db r.pending ∧ r.Holding s.cluster.db := by
  have haccounts := h.accounts
  rcases hfree with hnone | hsome
  · have hout : ¬ r.Critical := by
      rw [h.critical i r hr, hnone]
      exact nofun
    rw [Cluster.holder, hnone] at haccounts
    rw [Runner.pending_of_not_critical hout]
    exact ⟨haccounts, Runner.holding_of_not_critical hout⟩
  · have hholder : s.cluster.holder = some r := by rw [Cluster.holder, hsome, Option.bind_some, hr]
    rw [hholder] at haccounts
    exact ⟨haccounts, h.holding r hholder⟩

theorem Durable.outside (h : Durable files s) (hr : s.cluster.runners[i]? = some r) (hout : ¬ r.Critical)
    (hout' : ¬ r'.Critical) (hknows : r'.Knows files s.cluster.db.recorded) :
    Durable files ⟨⟨s.cluster.db, s.cluster.runners.set i r'⟩, s.cutOff⟩ := by
  have hlock : s.cluster.db.lock ≠ some i := fun hlock => hout ((h.critical i r hr).mpr hlock)
  have hholder : Cluster.holder ⟨s.cluster.db, s.cluster.runners.set i r'⟩ = s.cluster.holder := by
    unfold Cluster.holder
    cases hholds : s.cluster.db.lock with
    | none => rfl
    | some j =>
      have hij : i ≠ j := fun heq => hlock (heq ▸ hholds)
      simp only [Option.bind_some, List.getElem?_set_ne hij]
  constructor
  · intro j t ht
    rw [List.getElem?_set] at ht
    split at ht
    · split at ht <;> cases ht
      exact hknows
    · exact h.knows j t ht
  · intro j t ht
    rw [List.getElem?_set] at ht
    split at ht
    · rename_i hij
      subst hij
      split at ht <;> cases ht
      exact ⟨fun hc => absurd hc hout', fun heq => absurd heq hlock⟩
    · exact h.critical j t ht
  · intro j hj
    rw [List.length_set]
    exact h.taken j hj
  · rw [hholder]
    exact h.accounts
  · rw [hholder]
    exact h.holding
  · exact h.marked

theorem Durable.inside (h : Durable files s) (hr : s.cluster.runners[i]? = some r)
    (hfree : s.cluster.db.lock = none ∨ s.cluster.db.lock = some i) (hsub : s.cluster.db.recorded ⊆ db'.recorded)
    (haccounts : Booked files cut' db' r'.pending) (hholding : r'.Holding db')
    (hmarked : ∀ f ∈ cut', hasNoTransactionMarker f.sql) (hknows : r'.Knows files db'.recorded)
    (hlock : r'.Critical ∧ db'.lock = some i ∨ ¬ r'.Critical ∧ db'.lock = none) :
    Durable files ⟨⟨db', s.cluster.runners.set i r'⟩, cut'⟩ := by
  -- No other instance can be critical.
  have hother : ∀ j t, i ≠ j → s.cluster.runners[j]? = some t → ¬ t.Critical := by
    intro j t hij ht
    rw [h.critical j t ht]
    rcases hfree with hnone | hsome
    · rw [hnone]
      exact nofun
    · rw [hsome]
      exact fun heq => hij (Option.some.inj heq)
  have hlocked : ∀ j, db'.lock = some j → i = j := by
    intro j hj
    rcases hlock with ⟨-, hlock⟩ | ⟨-, hlock⟩
    · exact Option.some.inj (hlock.symm.trans hj)
    · rw [hlock] at hj
      cases hj
  have hlt : i < s.cluster.runners.length := (List.getElem?_eq_some_iff.mp hr).1
  have hself : (s.cluster.runners.set i r')[i]? = some r' := List.getElem?_set_self hlt
  have hholder : (Cluster.holder ⟨db', s.cluster.runners.set i r'⟩ = some r') ∨
      (Cluster.holder ⟨db', s.cluster.runners.set i r'⟩ = none ∧ ¬ r'.Critical) := by
    rcases hlock with ⟨-, hlock⟩ | ⟨hout, hlock⟩
    · exact .inl (by simp only [Cluster.holder, hlock, Option.bind_some, hself])
    · exact .inr ⟨by simp only [Cluster.holder, hlock, Option.bind_none], hout⟩
  constructor
  · intro j t ht
    rw [List.getElem?_set] at ht
    split at ht
    · cases ht
      exact hknows
    · rename_i hij
      exact (h.knows j t ht).mono (hother j t hij ht) hsub
  · intro j t ht
    rw [List.getElem?_set] at ht
    split at ht
    · rename_i hij
      subst hij
      cases ht
      rcases hlock with ⟨hin, hlock⟩ | ⟨hout, hlock⟩
      · exact ⟨fun _ => hlock, fun _ => hin⟩
      · rw [hlock]
        exact ⟨fun hin => absurd hin hout, nofun⟩
    · rename_i hij
      exact ⟨fun hin => absurd hin (hother j t hij ht), fun hj => absurd (hlocked j hj) hij⟩
  · intro j hj
    obtain rfl := hlocked j hj
    rw [List.length_set]
    exact hlt
  · rcases hholder with hsome | ⟨hnone, hout⟩
    · rw [hsome]
      exact haccounts
    · rw [hnone]
      rwa [Runner.pending_of_not_critical hout] at haccounts
  · intro t ht
    rcases hholder with hsome | ⟨hnone, -⟩
    · obtain rfl := Option.some.inj (hsome.symm.trans ht)
      exact hholding
    · rw [hnone] at ht
      cases ht
  · exact hmarked

/-! ## A working step -/

section

variable {stage : Stage} {applied : List Nat} {mf : MigrationFile} {rest : List MigrationFile}

theorem pending_executed : (Runner.critical .executed applied mf rest).pending = [mf.version] := rfl

theorem Durable.next_critical {p : MigrationDb × Runner} (hdistinct : (files.map (·.version)).Nodup)
    (h : Durable files s) (hr : s.cluster.runners[i]? = some (.critical stage applied mf rest))
    (hnext : (Runner.critical stage applied mf rest).next i s.cluster.db = some p) :
    Durable files ⟨⟨p.1, s.cluster.runners.set i p.2⟩, s.cutOff⟩ := by
  have hlock := (h.critical i _ hr).mp trivial
  obtain ⟨hprogress, hstage⟩ := h.knows i _ hr
  obtain ⟨haccounts, hholding⟩ := h.books hr (.inr hlock)
  have hsame := List.Subset.refl s.cluster.db.recorded
  have hmf := hprogress.mem
  have hrecord := fun hnew => haccounts.chronicle.snoc hmf hnew fun g hg hlt => hprogress.lower hg hlt
  have hsub := List.subset_append_left s.cluster.db.recorded [mf.version]
  cases stage with
  | locked =>
    obtain rfl := Option.some.inj hnext
    refine h.inside hr (.inr hlock) hsame ?_ ?_ h.marked ⟨hprogress, ?_⟩ (.inl ⟨trivial, hlock⟩)
    · split <;> exact haccounts
    · split <;> trivial
    · split <;> assumption
  | found =>
    obtain rfl := Option.some.inj hnext
    exact h.inside hr (.inr hlock) hsame ⟨haccounts.chronicle, haccounts.counts⟩ trivial h.marked
      (hprogress.next hstage) (.inr ⟨id, rfl⟩)
  | unseen =>
    obtain rfl := Option.some.inj hnext
    refine h.inside hr (.inr hlock) hsame ⟨haccounts.chronicle, fun f hf => ?_⟩
      ⟨hstage, List.getLast?_concat⟩ h.marked ⟨hprogress, trivial⟩ (.inl ⟨trivial, hlock⟩)
    have hcount := haccounts.counts f hf
    rw [pending_executed, count_version hdistinct hf hmf, List.count_append, hcount]
    rfl
  | executed =>
    obtain rfl := Option.some.inj hnext
    obtain ⟨hnew, hlast⟩ := hholding
    by_cases hmarker : hasNoTransactionMarker mf.sql
    · rw [if_pos hmarker]
      refine h.inside hr (.inr hlock) hsub ⟨hrecord hnew, fun f hf => ?_⟩ (fun hno => absurd hmarker hno) h.marked
        ⟨hprogress.mono hsub, fun _ => by simp⟩ (.inl ⟨trivial, hlock⟩)
      rw [Runner.pending_inserted, if_pos hmarker, List.count_append, List.count_nil, ← Nat.add_assoc]
      exact haccounts.counts f hf
    · rw [if_neg hmarker]
      refine h.inside hr (.inr hlock) hsame ⟨haccounts.chronicle, fun f hf => ?_⟩ (fun _ => ⟨hnew, hlast⟩) h.marked
        ⟨hprogress, fun hm => absurd hm hmarker⟩ (.inl ⟨trivial, hlock⟩)
      rw [Runner.pending_inserted, if_neg hmarker]
      exact haccounts.counts f hf
  | inserted =>
    obtain rfl := Option.some.inj hnext
    by_cases hmarker : hasNoTransactionMarker mf.sql
    · rw [Runner.pending_inserted, if_pos hmarker] at haccounts
      rw [if_pos hmarker]
      exact h.inside hr (.inr hlock) hsame ⟨haccounts.chronicle, haccounts.counts⟩ trivial h.marked
        (hprogress.next (hstage hmarker)) (.inr ⟨id, rfl⟩)
    · rw [Runner.pending_inserted, if_neg hmarker] at haccounts
      rw [if_neg hmarker]
      refine h.inside hr (.inr hlock) hsub ⟨hrecord (hholding hmarker).1, fun f hf => ?_⟩ trivial h.marked
        ((hprogress.mono hsub).next (by simp)) (.inr ⟨id, rfl⟩)
      have hcount := haccounts.counts f hf
      rw [List.count_append, ← Nat.add_assoc]
      exact hcount

end

theorem Durable.next {p : MigrationDb × Runner} (hdistinct : (files.map (·.version)).Nodup) (h : Durable files s)
    (hr : s.cluster.runners[i]? = some r) (hnext : r.next i s.cluster.db = some p) :
    Durable files ⟨⟨p.1, s.cluster.runners.set i p.2⟩, s.cutOff⟩ := by
  have hknows := h.knows i r hr
  cases r with
  | boot => cases hnext
  | returned => cases hnext
  | scanned ms =>
    cases ms with
    | nil =>
      obtain rfl := Option.some.inj hnext
      apply h.outside hr id id
      intro f hf
      rw [List.nil_perm.mp hknows.1] at hf
      cases hf
    | cons mf ms =>
      obtain rfl := Option.some.inj hnext
      exact h.outside hr id id ⟨List.Subset.refl _, [], hknows, by simp⟩
  | loop applied ms =>
    cases ms with
    | nil =>
      obtain rfl := Option.some.inj hnext
      exact h.outside hr id id (Progress.done hknows)
    | cons mf rest =>
      rw [Runner.next] at hnext
      split at hnext
      · rename_i hseen
        obtain rfl := Option.some.inj hnext
        exact h.outside hr id id (Progress.next hknows (Progress.snapshot hknows hseen))
      · obtain ⟨hfree, hsome⟩ := Option.ite_none_right_eq_some.mp hnext
        obtain rfl := Option.some.inj hsome
        obtain ⟨haccounts, -⟩ := h.books hr (.inl hfree)
        exact h.inside hr (.inl hfree) (List.Subset.refl _) ⟨haccounts.chronicle, haccounts.counts⟩ trivial h.marked
          ⟨hknows, trivial⟩ (.inl ⟨trivial, rfl⟩)
  | critical stage applied mf rest => exact h.next_critical hdistinct hr hnext

/-! ## A failing step -/

theorem rollback_recorded (db : MigrationDb) (r : Runner) : (r.rollback db).recorded = db.recorded := by
  unfold Runner.rollback
  split
  · split <;> rfl
  · split <;> rfl
  · rfl
  · rfl

theorem rollback_lock (db : MigrationDb) (hr : r.Critical) : (r.rollback db).lock = none := by
  cases r with
  | critical stage applied mf rest =>
    cases stage with
    | locked | found | unseen => rfl
    | executed | inserted =>
      simp only [Runner.rollback]
      split <;> rfl
  | _ => exact hr.elim

theorem rollback_accounts {stage : Stage} {applied : List Nat} {mf : MigrationFile} {rest : List MigrationFile}
    (hdistinct : (files.map (·.version)).Nodup) (hmf : mf ∈ files)
    (h : Booked files cut db (Runner.critical stage applied mf rest).pending)
    (hholding : (Runner.critical stage applied mf rest).Holding db) :
    Booked files (cut ++ (Runner.critical stage applied mf rest).unrecorded)
      ((Runner.critical stage applied mf rest).rollback db) [] := by
  have hlast : ∀ {f}, f ∈ files → db.executed.getLast? = some mf →
      db.executed.count f = db.executed.dropLast.count f + [mf.version].count f.version := by
    intro f hf hget
    have hsplit := List.dropLast_append_getLast? mf hget
    rw [count_version hdistinct hf hmf, ← List.count_append, hsplit]
  have hchronicle : Chronicle files ((Runner.critical stage applied mf rest).rollback db).recorded := by
    rw [rollback_recorded]
    exact h.chronicle
  refine ⟨hchronicle, fun f hf => ?_⟩
  have hcount := h.counts f hf
  rw [rollback_recorded, List.count_append, List.count_nil]
  unfold Runner.rollback Runner.unrecorded
  cases stage with
  | locked | found | unseen => simpa [Runner.pending] using hcount
  | executed =>
    rw [pending_executed] at hcount
    by_cases hmarker : hasNoTransactionMarker mf.sql
    · simp only [if_pos hmarker]
      rw [hcount, count_version hdistinct hf hmf]
      omega
    · simp only [if_neg hmarker, List.count_nil]
      rw [hlast hf hholding.2] at hcount
      omega
  | inserted =>
    rw [Runner.pending_inserted] at hcount
    by_cases hmarker : hasNoTransactionMarker mf.sql
    · rw [if_pos hmarker] at hcount
      simpa [hmarker] using hcount
    · rw [if_neg hmarker, hlast hf (hholding hmarker).2] at hcount
      simp only [if_neg hmarker, List.count_nil]
      omega

theorem unrecorded_marked (r : Runner) : ∀ f ∈ r.unrecorded, hasNoTransactionMarker f.sql := by
  intro f hf
  unfold Runner.unrecorded at hf
  split at hf
  · split at hf
    · rename_i hmarker
      rw [List.mem_singleton.mp hf]
      exact hmarker
    · cases hf
  · cases hf

theorem rollback_outside (db : MigrationDb) (hr : ¬ r.Critical) : r.rollback db = db ∧ r.unrecorded = [] := by
  cases r with
  | critical => exact absurd trivial hr
  | _ => exact ⟨rfl, rfl⟩

theorem Durable.fails (hdistinct : (files.map (·.version)).Nodup) (h : Durable files s)
    (hr : s.cluster.runners[i]? = some r) :
    Durable files ⟨⟨r.rollback s.cluster.db, s.cluster.runners.set i .boot⟩, s.cutOff ++ r.unrecorded⟩ := by
  by_cases hin : r.Critical
  · have hlock := (h.critical i r hr).mp hin
    obtain ⟨haccounts, hholding⟩ := h.books hr (.inr hlock)
    have hknows := h.knows i r hr
    cases r with
    | critical stage applied mf rest =>
      refine h.inside hr (.inr hlock) ?_ (rollback_accounts hdistinct hknows.1.mem haccounts hholding) trivial ?_
        trivial (.inr ⟨id, rollback_lock _ hin⟩)
      · rw [rollback_recorded]
        exact List.Subset.refl _
      · exact List.forall_mem_append.mpr ⟨h.marked, unrecorded_marked _⟩
    | _ => exact hin.elim
  · obtain ⟨hdb, hnone⟩ := rollback_outside s.cluster.db hin
    rw [hdb, hnone, List.append_nil]
    exact h.outside hr hin id trivial

theorem Durable.retries {stage : Stage} {applied : List Nat} {mf : MigrationFile} {rest : List MigrationFile}
    (hdistinct : (files.map (·.version)).Nodup) (h : Durable files s)
    (hr : s.cluster.runners[i]? = some (.critical stage applied mf rest)) (hmarker : ¬ hasNoTransactionMarker mf.sql) :
    Durable files ⟨⟨(Runner.critical stage applied mf rest).rollback s.cluster.db,
      s.cluster.runners.set i (.loop applied (mf :: rest))⟩, s.cutOff⟩ := by
  have hlock := (h.critical i _ hr).mp trivial
  obtain ⟨haccounts, hholding⟩ := h.books hr (.inr hlock)
  obtain ⟨hprogress, -⟩ := h.knows i _ hr
  have hnone : (Runner.critical stage applied mf rest).unrecorded = [] := by
    cases stage with
    | executed => simp [Runner.unrecorded, hmarker]
    | _ => rfl
  have hbooks := rollback_accounts hdistinct hprogress.mem haccounts hholding
  rw [hnone, List.append_nil] at hbooks
  refine h.inside hr (.inr hlock) ?_ hbooks trivial h.marked ?_ (.inr ⟨id, rollback_lock _ trivial⟩)
  · rw [rollback_recorded]
    exact List.Subset.refl _
  · rw [rollback_recorded]
    exact hprogress

/-! ## Any run -/

theorem Durable.step {dir : List DirEntry} {event : FaultEvent} (hdir : scanDirectory dir = .ok files)
    (hdistinct : (files.map (·.version)).Nodup) (h : Durable files s) (hstep : s.step dir event = some s') :
    Durable files s' := by
  cases event with
  | works event =>
    obtain ⟨c, hc, rfl⟩ := Option.map_eq_some_iff.mp hstep
    obtain ⟨i, listing, found, ms, hboot, hperm, hfound, ⟨hms, hsorted⟩, rfl⟩ | ⟨i, r, p, hr, hnext, rfl⟩ :=
      step_cases hc
    · exact h.outside hboot id id ⟨hms.trans (scanDirectory_perm hdir hperm hfound), hsorted⟩
    · exact h.next hdistinct hr hnext
  | retries i =>
    rw [Fleet.step] at hstep
    split at hstep
    · rename_i stage applied mf rest hr
      split at hstep
      · cases hstep
      · rename_i hmarker
        obtain rfl := Option.some.inj hstep
        exact h.retries hdistinct hr hmarker
    · cases hstep
  | fails i =>
    rw [Fleet.step] at hstep
    split at hstep
    · cases hstep
    · rename_i r hr
      obtain rfl := Option.some.inj hstep
      exact h.fails hdistinct hr

theorem Durable.run {dir : List DirEntry} {events : List FaultEvent} (hdir : scanDirectory dir = .ok files)
    (hdistinct : (files.map (·.version)).Nodup) (h : Durable files s) (hrun : s.run dir events = some s') :
    Durable files s' := by
  induction events generalizing s with
  | nil =>
    obtain rfl := Option.some.inj hrun
    exact h
  | cons event events ih =>
    obtain ⟨mid, hstep, hrest⟩ := Option.bind_eq_some_iff.mp hrun
    exact ih (h.step hdir hdistinct hstep) hrest

theorem Durable.committed (hdistinct : (files.map (·.version)).Nodup) (h : Durable files s) {f : MigrationFile}
    (hf : f ∈ files) : s.cluster.committed.count f = (s.cutOff ++ (s.cluster.holder.map Runner.unrecorded).getD []).count f +
      s.cluster.db.recorded.count f.version := by
  have haccounts := h.accounts
  unfold Cluster.committed
  cases hholder : s.cluster.holder with
  | none =>
    rw [hholder] at haccounts
    rw [Option.map_none, Option.getD_none, List.append_nil]
    exact haccounts.counts f hf
  | some r =>
    obtain ⟨i, hlock, hr⟩ := Option.bind_eq_some_iff.mp hholder
    have hin := (h.critical i r hr).mpr hlock
    have hknows := h.knows i r hr
    rw [hholder] at haccounts
    cases r with
    | critical stage applied mf rest =>
      have hbooks := rollback_accounts hdistinct hknows.1.mem haccounts (h.holding _ hholder)
      have hcount := hbooks.counts f hf
      rwa [rollback_recorded] at hcount
    | _ => exact hin.elim

/-- A migration that has run and has no row is the only one, and no version of it is recorded. -/
theorem Durable.unrecorded (h : Durable files s) {r : Runner} (hholder : s.cluster.holder = some r) (f : MigrationFile) :
    r.unrecorded.count f + s.cluster.db.recorded.count f.version ≤ 1 := by
  have hone := h.accounts.chronicle.count_le f.version
  have hholding := h.holding r hholder
  unfold Runner.unrecorded
  split
  · rename_i mf _
    have hnew : mf.version ∉ s.cluster.db.recorded := hholding.1
    split
    · by_cases hsame : mf = f
      · subst hsame
        rw [List.count_eq_zero.mpr hnew, List.count_singleton_self]
      · simpa [List.count_singleton, hsame] using hone
    · simpa using hone
  · simpa using hone

/-- **Failures leave no half of a migration.** Instances may fail, be cut off, try again and boot again in any order
and as often as they like. At every moment a migration in a transaction is there exactly when its version is recorded,
and once. One outside a transaction is there at least when its version is recorded, and once more for each time that it
was cut off before its row. The recorded versions are the lowest ones of the files, in order, and once an instance
returns they are all recorded. -/
theorem migrations_durable {dir : List DirEntry} (hdir : scanDirectory dir = .ok files)
    (hdistinct : (files.map (·.version)).Nodup) {instances : Nat} {events : List FaultEvent}
    (hrun : (Fleet.init instances).run dir events = some s) :
    (∀ f ∈ files, ¬ hasNoTransactionMarker f.sql →
      s.cluster.committed.count f = s.cluster.db.recorded.count f.version) ∧
    (∀ f ∈ files, s.cluster.db.recorded.count f.version ≤ s.cluster.committed.count f ∧
      s.cluster.committed.count f ≤ s.cutOff.count f + 1) ∧
    (∀ f ∈ s.cutOff, hasNoTransactionMarker f.sql) ∧
    s.cluster.db.recorded.Pairwise (· < ·) ∧
    (∀ v ∈ s.cluster.db.recorded, ∃ f ∈ files, f.version = v) ∧
    (∀ v ∈ s.cluster.db.recorded, ∀ g ∈ files, g.version < v → g.version ∈ s.cluster.db.recorded) ∧
    (.returned ∈ s.cluster.runners → ∀ f ∈ files, f.version ∈ s.cluster.db.recorded) := by
  have h := (durable_init files instances).run hdir hdistinct hrun
  refine ⟨fun f hf hmarker => ?_, fun f hf => ?_, h.marked,
    h.accounts.chronicle.ascending, h.accounts.chronicle.known, h.accounts.chronicle.lowest, ?_⟩
  · have hnone : f ∉ s.cutOff ++ (s.cluster.holder.map Runner.unrecorded).getD [] := by
      intro hmem
      rcases List.mem_append.mp hmem with hmem | hmem
      · exact hmarker (h.marked f hmem)
      · cases hholder : s.cluster.holder with
        | none =>
          rw [hholder] at hmem
          cases hmem
        | some r =>
          rw [hholder] at hmem
          exact hmarker (unrecorded_marked r f hmem)
    rw [h.committed hdistinct hf, List.count_eq_zero.mpr hnone, Nat.zero_add]
  · rw [h.committed hdistinct hf, List.count_append]
    have hone := h.accounts.chronicle.count_le f.version
    cases hholder : s.cluster.holder with
    | none =>
      simp only [Option.map_none, Option.getD_none, List.count_nil]
      omega
    | some r =>
      have hsum := h.unrecorded hholder f
      simp only [Option.map_some, Option.getD_some]
      omega
  · intro hreturned
    obtain ⟨i, hi⟩ := List.getElem?_of_mem hreturned
    exact h.knows i _ hi

/-- The instance dies between the statement of `002_b.sql` and its row, and boots again. -/
def cutOffEvents : List FaultEvent :=
  [.works (.scan 0 bootDir bootFiles)] ++ List.replicate 9 (.works (.next 0)) ++
    [.fails 0, .works (.scan 0 bootDir bootFiles)] ++ List.replicate 8 (.works (.next 0))

theorem migrations_durable_sample : ∃ s, (Fleet.init 1).run bootDir cutOffEvents = some s ∧
    (∀ f ∈ bootFiles.reverse, ¬ hasNoTransactionMarker f.sql →
      s.cluster.committed.count f = s.cluster.db.recorded.count f.version) ∧
    (∀ f ∈ bootFiles.reverse, s.cluster.db.recorded.count f.version ≤ s.cluster.committed.count f ∧
      s.cluster.committed.count f ≤ s.cutOff.count f + 1) ∧
    s.cutOff = bootFiles.drop 1 ∧ (∀ f ∈ s.cutOff, hasNoTransactionMarker f.sql) ∧
    s.cluster.db.recorded.Pairwise (· < ·) ∧
    (∀ v ∈ s.cluster.db.recorded, ∃ f ∈ bootFiles.reverse, f.version = v) ∧
    (∀ v ∈ s.cluster.db.recorded, ∀ g ∈ bootFiles.reverse, g.version < v → g.version ∈ s.cluster.db.recorded) ∧
    .returned ∈ s.cluster.runners ∧ ∀ f ∈ bootFiles.reverse, f.version ∈ s.cluster.db.recorded := by
  have hdir : scanDirectory bootDir = .ok bootFiles.reverse := by decide
  have hrun : (Fleet.init 1).run bootDir cutOffEvents =
      some ⟨⟨⟨[1, 2], none, bootFiles ++ bootFiles.drop 1⟩, [.returned]⟩, bootFiles.drop 1⟩ := by decide
  obtain ⟨honce, hrepeats, hmarked, hascending, hknown, hlowest, hall⟩ := migrations_durable hdir (by decide) hrun
  exact ⟨_, hrun, honce, hrepeats, rfl, hmarked, hascending, hknown, hlowest, by decide, hall (by decide)⟩

end LlmGuard
