import LlmGuard.Code.RegistryIndex
import Mathlib.Data.List.Forall2
import Mathlib.Data.List.Nodup

/-!
# What a registry answers

`build` keeps its three containers in step, so that a lookup by id or by data type answers as a search
through the rules would.
-/

namespace LlmGuard

namespace Containers

variable {env : Env} {reg reg' : Containers} {rules before : List Rule}

/-! ## The maps agree with the rules -/

/-- Both maps say what a walk over the rules would find. -/
structure Indexed (reg : Containers) : Prop where
  ids : ∀ id, reg.byIdIndex id = reg.rules.findIdx? (·.rule.id = id)
  types : ∀ dt, (reg.byDataType dt).getD [] =
    (reg.rules.zipIdx.filter fun entry => entry.1.rule.dataType = dt).map (·.2)

theorem indexed_empty : Indexed empty where
  ids _ := rfl
  types _ := rfl

theorem Indexed.add (h : Indexed reg) {cr : CompiledRule} (hnew : reg.byIdIndex cr.rule.id = none) :
    Indexed (reg.add cr) where
  ids id := by
    unfold Containers.add
    rw [List.findIdx?_append, ← h.ids id]
    by_cases hid : id = cr.rule.id
    · subst hid
      simp [hnew]
    · simp [hid, Ne.symm hid]
  types dt := by
    unfold Containers.add
    rw [List.zipIdx_append, List.filter_append, List.map_append, ← h.types dt]
    by_cases hdt : dt = cr.rule.dataType
    · subst hdt
      simp
    · simp [hdt, Ne.symm hdt]

/-! ## `build` -/

def Accepted (env : Env) (rules : List Rule) : Prop :=
  (rules.map (·.id)).Nodup ∧ ∀ r ∈ rules, ∃ cr, compileRule env r = .ok cr

/-- The error of a rule behind these: a repeated id comes before anything `compile_rule` would say. -/
def Offends (env : Env) (before : List Rule) (r : Rule) (e : RuleError) : Prop :=
  if r.id ∈ before.map (·.id) then e = ⟨.duplicateId, ruleText r.id (ascii ": duplicate rule_id")⟩
  else compileRule env r = .error e

/-- The error of the first rule that has one. -/
def FirstOffence (env : Env) (rules : List Rule) (e : RuleError) : Prop :=
  ∃ before r after, rules = before ++ r :: after ∧ Accepted env before ∧ Offends env before r e

theorem Accepted.front {rs : List Rule} (h : Accepted env (before ++ rs)) : Accepted env before := by
  obtain ⟨hnodup, hall⟩ := h
  rw [List.map_append] at hnodup
  exact ⟨hnodup.of_append_left, fun r hr => hall r (List.mem_append_left _ hr)⟩

theorem accepted_snoc {r : Rule} (h : Accepted env before) (hnew : r.id ∉ before.map (·.id)) {cr : CompiledRule}
    (hcr : compileRule env r = .ok cr) : Accepted env (before ++ [r]) := by
  obtain ⟨hnodup, hall⟩ := h
  constructor
  · rw [List.map_append, List.map_singleton, List.nodup_append]
    refine ⟨hnodup, by simp, ?_⟩
    rintro id hid _ hr rfl
    exact hnew (List.mem_singleton.mp hr ▸ hid)
  · intro r' hr'
    rcases List.mem_append.mp hr' with hr' | hr'
    · exact hall r' hr'
    · exact ⟨cr, List.mem_singleton.mp hr' ▸ hcr⟩

theorem Accepted.not_offends {r : Rule} {after : List Rule} {e : RuleError}
    (h : Accepted env (before ++ r :: after)) : ¬ Offends env before r e := by
  obtain ⟨hnodup, hall⟩ := h
  unfold Offends
  split
  · rename_i hmem
    rw [List.map_append, List.map_cons] at hnodup
    exact absurd rfl ((List.nodup_append.mp hnodup).2.2 _ hmem _ List.mem_cons_self)
  · obtain ⟨cr, hcr⟩ := hall r (by simp)
    rw [hcr]
    exact nofun

theorem Offends.unique {r : Rule} {e e' : RuleError} (h : Offends env before r e) (h' : Offends env before r e') :
    e = e' := by
  unfold Offends at h h'
  split at h
  · rename_i hmem
    rw [if_pos hmem] at h'
    rw [h, h']
  · rename_i hmem
    rw [if_neg hmem, h] at h'
    exact Except.error.inj h'

theorem FirstOffence.unique {e e' : RuleError} (h : FirstOffence env rules e) (h' : FirstOffence env rules e') :
    e = e' := by
  obtain ⟨before, r, after, rfl, haccepted, hoff⟩ := h
  obtain ⟨before', r', after', heq, haccepted', hoff'⟩ := h'
  rcases List.append_eq_append_iff.mp heq with ⟨mid, rfl, htail⟩ | ⟨mid, rfl, htail⟩
  · cases mid with
    | nil =>
      obtain ⟨rfl, -⟩ := List.cons.inj htail
      rw [List.append_nil] at hoff'
      exact hoff.unique hoff'
    | cons r₁ mid =>
      obtain ⟨rfl, -⟩ := List.cons.inj htail
      exact absurd hoff haccepted'.not_offends
  · cases mid with
    | nil =>
      obtain ⟨rfl, -⟩ := List.cons.inj htail
      rw [List.append_nil] at hoff
      exact hoff.unique hoff'
    | cons r₁ mid =>
      obtain ⟨rfl, -⟩ := List.cons.inj htail
      exact absurd hoff' haccepted.not_offends

/-- What `build` has made of the rules before. -/
structure Built (env : Env) (before : List Rule) (reg : Containers) : Prop where
  indexed : Indexed reg
  compiled : List.Forall₂ (fun r cr => compileRule env r = .ok cr) before reg.rules
  accepted : Accepted env before

theorem built_empty : Built env [] empty := ⟨indexed_empty, .nil, List.nodup_nil, by simp⟩

theorem ids_of_compiled {crs : List CompiledRule}
    (h : List.Forall₂ (fun r cr => compileRule env r = .ok cr) before crs) :
    crs.map (·.rule.id) = before.map (·.id) := by
  induction h with
  | nil => rfl
  | cons hcr _ ih => rw [List.map_cons, List.map_cons, ih, (compileRule_ok hcr).1]

theorem exists_compiled {r : Rule} {crs : List CompiledRule}
    (h : List.Forall₂ (fun r cr => compileRule env r = .ok cr) before crs) (hr : r ∈ before) :
    ∃ cr ∈ crs, compileRule env r = .ok cr := by
  induction h with
  | nil => exact absurd hr List.not_mem_nil
  | cons hcr _ ih =>
    rcases List.mem_cons.mp hr with rfl | hr
    · exact ⟨_, List.mem_cons_self, hcr⟩
    · obtain ⟨cr, hmem, hcr⟩ := ih hr
      exact ⟨cr, List.mem_cons_of_mem _ hmem, hcr⟩

theorem Built.known_iff (h : Built env before reg) (id : Bytes) :
    (reg.byIdIndex id).isSome ↔ id ∈ before.map (·.id) := by
  rw [h.indexed.ids, List.findIdx?_isSome, ← ids_of_compiled h.compiled]
  simp

theorem Built.snoc (h : Built env before reg) {r : Rule} {cr : CompiledRule} (hnew : ¬ (reg.byIdIndex r.id).isSome)
    (hcr : compileRule env r = .ok cr) : Built env (before ++ [r]) (reg.add cr) where
  indexed := by
    apply h.indexed.add
    rw [(compileRule_ok hcr).1]
    simpa using hnew
  compiled := List.rel_append h.compiled (.cons hcr .nil)
  accepted := accepted_snoc h.accepted (fun hmem => hnew ((h.known_iff r.id).mpr hmem)) hcr

theorem buildFrom_spec (h : Built env before reg) (rules : List Rule) :
    match buildFrom env reg rules with
    | .ok reg' => Built env (before ++ rules) reg'
    | .error e => ∃ mid r after, rules = mid ++ r :: after ∧ Accepted env (before ++ mid) ∧
        Offends env (before ++ mid) r e := by
  induction rules generalizing before reg with
  | nil =>
    rw [List.append_nil]
    exact h
  | cons r rs ih =>
    unfold buildFrom Offends
    by_cases hdup : (reg.byIdIndex r.id).isSome
    · rw [if_pos hdup]
      refine ⟨[], r, rs, rfl, ?_, ?_⟩
      · rw [List.append_nil]
        exact h.accepted
      · rw [List.append_nil, if_pos ((h.known_iff r.id).mp hdup)]
    · rw [if_neg hdup]
      cases hcr : compileRule env r with
      | error e =>
        refine ⟨[], r, rs, rfl, ?_, ?_⟩
        · rw [List.append_nil]
          exact h.accepted
        · rw [List.append_nil, if_neg fun hmem => hdup ((h.known_iff r.id).mpr hmem), hcr]
      | ok cr =>
        have hrest := ih (h.snoc hdup hcr)
        dsimp only
        cases hbuild : buildFrom env (reg.add cr) rs with
        | ok reg' =>
          rw [hbuild, List.append_assoc, List.singleton_append] at hrest
          exact hrest
        | error e =>
          rw [hbuild] at hrest
          obtain ⟨mid, r', after, rfl, haccepted, hoff⟩ := hrest
          rw [List.append_assoc, List.singleton_append] at haccepted hoff
          exact ⟨r :: mid, r', after, rfl, haccepted, hoff⟩

theorem build_ok (h : build env rules = .ok reg) : Built env rules reg := by
  have hspec := buildFrom_spec (built_empty : Built env [] empty) rules
  unfold build at h
  rw [h] at hspec
  exact hspec

theorem build_error {e : RuleError} (h : build env rules = .error e) : FirstOffence env rules e := by
  have hspec := buildFrom_spec (built_empty : Built env [] empty) rules
  unfold build at h
  rw [h] at hspec
  exact hspec

theorem build_isOk_iff : (∃ reg, build env rules = .ok reg) ↔ Accepted env rules := by
  constructor
  · rintro ⟨reg, h⟩
    exact (build_ok h).accepted
  · intro h
    cases hbuild : build env rules with
    | ok reg => exact ⟨reg, rfl⟩
    | error e =>
      obtain ⟨before, r, after, rfl, -, hoff⟩ := build_error hbuild
      exact absurd hoff h.not_offends

theorem build_error_iff {e : RuleError} : build env rules = .error e ↔ FirstOffence env rules e := by
  constructor
  · exact build_error
  · intro h
    cases hbuild : build env rules with
    | ok reg =>
      obtain ⟨before, r, after, rfl, -, hoff⟩ := h
      exact absurd hoff (build_ok hbuild).accepted.not_offends
    | error e' => rw [(build_error hbuild).unique h]

/-! ## The snapshot is the abstract one -/

theorem add_rules (reg : Containers) (cr : CompiledRule) : (reg.add cr).rules = reg.rules ++ [cr] := rfl

theorem buildFrom_refines (h : Built env before reg) (abs : Registry) (habs : abs.rules = reg.rules)
    (rules : List Rule) :
    (buildFrom env reg rules).map Containers.rules = (abs.buildFrom env rules).map Registry.rules := by
  induction rules generalizing before reg abs with
  | nil => simp [buildFrom, Registry.buildFrom, Except.map, habs]
  | cons r rs ih =>
    unfold buildFrom Registry.buildFrom
    have hknown : (reg.byIdIndex r.id).isSome ↔ r.id ∈ abs.rules.map (·.rule.id) := by
      rw [h.known_iff, habs, ids_of_compiled h.compiled]
    by_cases hdup : (reg.byIdIndex r.id).isSome
    · rw [if_pos hdup, dif_pos (hknown.mp hdup)]
      rfl
    · rw [if_neg hdup, dif_neg (mt hknown.mpr hdup)]
      split
      · rename_i e hcr
        split
        · rename_i e' hcr'
          rw [hcr] at hcr'
          cases hcr'
          rfl
        · rename_i cr hcr'
          rw [hcr] at hcr'
          cases hcr'
      · rename_i cr hcr
        split
        · rename_i e hcr'
          rw [hcr] at hcr'
          cases hcr'
        · rename_i cr' hcr'
          obtain rfl := Except.ok.inj (hcr.symm.trans hcr')
          apply ih (h.snoc hdup hcr) _
          rw [add_rules, ← habs]
          rfl

/-- Both builds compile the same rules or throw the same error. -/
theorem build_refines (env : Env) (rules : List Rule) :
    (build env rules).map Containers.rules = (Registry.build env rules).map Registry.rules :=
  buildFrom_refines built_empty _ rfl rules

/-! ## Queries -/

theorem at?_of_getElem? {idx : Nat} {cr : CompiledRule} (h : reg.rules[idx]? = some cr) : reg.at? idx = .ok cr := by
  unfold at?
  rw [h]

theorem Indexed.byId_eq (h : Indexed reg) (id : Bytes) : reg.byId id = .ok (reg.rules.find? (·.rule.id = id)) := by
  unfold byId
  rw [h.ids]
  split
  · rename_i hidx
    have := List.findIdx?_eq_none_iff.mp hidx
    rw [List.find?_eq_none.mpr (by simpa using this)]
  · rename_i idx hidx
    obtain ⟨hlt, hid, hbefore⟩ := List.findIdx?_eq_some_iff_getElem.mp hidx
    have hfind : reg.rules.find? (·.rule.id = id) = some reg.rules[idx] :=
      List.find?_eq_some_iff_getElem.mpr ⟨hid, idx, hlt, rfl, fun j hj => by simpa using hbefore j hj⟩
    rw [hfind, at?_of_getElem? (List.getElem?_eq_getElem hlt)]
    rfl

theorem mapM_at? {entries : List (CompiledRule × Nat)} (h : ∀ entry ∈ entries, entry ∈ reg.rules.zipIdx) :
    (entries.map (·.2)).mapM reg.at? = .ok (entries.map (·.1)) := by
  induction entries with
  | nil => rfl
  | cons entry entries ih =>
    have hat := at?_of_getElem? (List.mem_zipIdx_iff_getElem?.mp (h entry List.mem_cons_self))
    rw [List.map_cons, List.mapM_cons, hat, ih fun e he => h e (List.mem_cons_of_mem _ he)]
    rfl

theorem Indexed.forDataTypes_eq (h : Indexed reg) (dts : List DataType) :
    reg.forDataTypes dts = .ok (dts.flatMap fun dt => reg.rules.filter (·.rule.dataType = dt)) := by
  induction dts with
  | nil => rfl
  | cons dt dts ih =>
    have hrules : (reg.rules.zipIdx.filter fun entry => entry.1.rule.dataType = dt).map (·.1) =
        reg.rules.filter (·.rule.dataType = dt) := by
      rw [← List.zipIdx_map_fst 0 reg.rules, List.filter_map, List.zipIdx_map_fst 0 reg.rules]
      rfl
    have htypes := h.types dt
    unfold forDataTypes
    rw [List.flatMap_cons]
    split
    · rename_i hnone
      rw [hnone, Option.getD_none] at htypes
      rw [← hrules, List.map_eq_nil_iff.mp htypes.symm, List.map_nil, List.nil_append, ih]
    · rename_i idxs hsome
      rw [hsome, Option.getD_some] at htypes
      rw [htypes, mapM_at? fun entry he => (List.mem_filter.mp he).1, ih, hrules]
      rfl

/-- What the queries give for a registry of these rules. -/
structure Answers (env : Env) (rules : List Rule) (reg : Containers) : Prop where
  compiled : List.Forall₂ (fun r cr => compileRule env r = .ok cr) rules reg.rules
  listed : ∀ r ∈ rules, ∃ cr, compileRule env r = .ok cr ∧ reg.byId r.id = .ok (some cr)
  unlisted : ∀ id, id ∉ rules.map (·.id) → reg.byId id = .ok none
  /-- Type by type, and in registration order within a type. -/
  grouped : ∀ dts, reg.forDataTypes dts = .ok (dts.flatMap fun dt => reg.rules.filter (·.rule.dataType = dt))
  /-- Each rule of distinct types, and none twice. -/
  once : ∀ dts out, dts.Nodup → reg.forDataTypes dts = .ok out →
    (out.map (·.rule.id)).Nodup ∧ ∀ cr, cr ∈ out ↔ cr ∈ reg.rules ∧ cr.rule.dataType ∈ dts

theorem mem_groups {dts : List DataType} {cr : CompiledRule} :
    cr ∈ (dts.flatMap fun dt => reg.rules.filter (·.rule.dataType = dt)) ↔
      cr ∈ reg.rules ∧ cr.rule.dataType ∈ dts := by
  rw [List.mem_flatMap]
  constructor
  · rintro ⟨dt, hdt, hcr⟩
    obtain ⟨hmem, htype⟩ := List.mem_filter.mp hcr
    obtain rfl := of_decide_eq_true htype
    exact ⟨hmem, hdt⟩
  · rintro ⟨hmem, hdt⟩
    exact ⟨_, hdt, List.mem_filter.mpr ⟨hmem, decide_eq_true rfl⟩⟩

/-- Groups of different types share no id, since a rule has one type and an id one rule. -/
theorem nodup_groups (hids : (reg.rules.map (·.rule.id)).Nodup) {dts : List DataType} (hdts : dts.Nodup) :
    ((dts.flatMap fun dt => reg.rules.filter (·.rule.dataType = dt)).map (·.rule.id)).Nodup := by
  have hinj : ∀ cr ∈ reg.rules, ∀ cr' ∈ reg.rules, cr.rule.id = cr'.rule.id → cr = cr' :=
    fun cr hcr cr' hcr' heq => List.inj_on_of_nodup_map hids hcr hcr' heq
  induction dts with
  | nil => exact List.nodup_nil
  | cons dt dts ih =>
    obtain ⟨hdt, hdts⟩ := List.nodup_cons.mp hdts
    rw [List.flatMap_cons, List.map_append, List.nodup_append]
    refine ⟨(List.filter_sublist.map _).nodup hids, ih hdts, ?_⟩
    intro id hid id' hid' heq
    obtain ⟨cr, hcr, rfl⟩ := List.mem_map.mp hid
    obtain ⟨cr', hcr', rfl⟩ := List.mem_map.mp hid'
    obtain ⟨hmem, htype⟩ := List.mem_filter.mp hcr
    obtain ⟨hmem', htypes⟩ := mem_groups.mp hcr'
    rw [← hinj cr hmem cr' hmem' heq, of_decide_eq_true htype] at htypes
    exact hdt htypes

theorem Built.answers (h : Built env rules reg) : Answers env rules reg where
  compiled := h.compiled
  listed r hr := by
    obtain ⟨cr, hmem, hcr⟩ := exists_compiled h.compiled hr
    refine ⟨cr, hcr, ?_⟩
    have hnodup := h.accepted.1
    rw [← ids_of_compiled h.compiled] at hnodup
    rw [h.indexed.byId_eq]
    cases hfind : reg.rules.find? (·.rule.id = r.id) with
    | none =>
      have := List.find?_eq_none.mp hfind cr hmem
      exact absurd (decide_eq_true (congrArg Rule.id (compileRule_ok hcr).1)) this
    | some found =>
      have hid : found.rule.id = cr.rule.id := by
        rw [(compileRule_ok hcr).1]
        simpa using List.find?_some hfind
      rw [List.inj_on_of_nodup_map hnodup (List.mem_of_find?_eq_some hfind) hmem hid]
  unlisted id hid := by
    rw [h.indexed.byId_eq, List.find?_eq_none.mpr]
    intro cr hcr heq
    rw [← ids_of_compiled h.compiled] at hid
    exact hid (List.mem_map.mpr ⟨cr, hcr, by simpa using heq⟩)
  grouped dts := h.indexed.forDataTypes_eq dts
  once dts out hdts hout := by
    rw [h.indexed.forDataTypes_eq] at hout
    obtain rfl := Except.ok.inj hout
    refine ⟨nodup_groups ?_ hdts, fun cr => mem_groups⟩
    rw [ids_of_compiled h.compiled]
    exact h.accepted.1

/-- **A registry is what was listed.** It is built exactly when the ids are distinct and every rule compiles;
otherwise the first rule that offends says why. Its lookups find the listed rules and no others. -/
theorem registry_build (env : Env) (rules : List Rule) :
    ((∃ reg, build env rules = .ok reg) ↔
        (rules.map (·.id)).Nodup ∧ ∀ r ∈ rules, ∃ cr, compileRule env r = .ok cr) ∧
      (∀ e, build env rules = .error e ↔ FirstOffence env rules e) ∧
      ∀ reg, build env rules = .ok reg → Answers env rules reg :=
  ⟨build_isOk_iff, fun _ => build_error_iff, fun _ h => (build_ok h).answers⟩

end Containers

end LlmGuard
