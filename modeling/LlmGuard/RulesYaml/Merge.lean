import LlmGuard.Code.RulesYaml
import Mathlib.Data.List.Forall2
import Mathlib.Data.List.Nodup

/-!
# What a list of catalogs is merged to

The rules of all files behind each other, as long as no id comes twice. Otherwise the first fault is thrown.
-/

namespace LlmGuard.RulesYaml

variable {Node : Type} {yaml : YamlCpp Node} {u : Utf8proc}

/-! ## Which files are loaded -/

/-- Each path once, where it comes first, and none that is blank. -/
def files (paths : List Bytes) : List Bytes := ((paths.map asciiTrim).filter (· ≠ [])).eraseDups

/-- Those that were not seen yet. -/
def newFiles (seen paths : List Bytes) : List Bytes :=
  ((paths.map asciiTrim).filter fun path => decide (path ≠ [] ∧ path ∉ seen)).eraseDups

theorem newFiles_skip {seen paths : List Bytes} {rawPath : Bytes} (h : asciiTrim rawPath = [] ∨ asciiTrim rawPath ∈ seen) :
    newFiles seen (rawPath :: paths) = newFiles seen paths := by
  unfold newFiles
  rw [List.map_cons, List.filter_cons_of_neg]
  rcases h with h | h <;> simp [h]

theorem newFiles_take {seen paths : List Bytes} {rawPath : Bytes} (h : ¬ (asciiTrim rawPath = [] ∨ asciiTrim rawPath ∈ seen)) :
    newFiles seen (rawPath :: paths) = asciiTrim rawPath :: newFiles (asciiTrim rawPath :: seen) paths := by
  unfold newFiles
  rw [List.map_cons, List.filter_cons_of_pos (by simpa using h), List.eraseDups_cons, List.filter_filter]
  congr 2
  refine List.filter_congr fun path _ => ?_
  simp only [List.mem_cons, not_or]
  by_cases hpath : path = asciiTrim rawPath <;> simp [hpath]

theorem newFiles_nil_left (paths : List Bytes) : newFiles [] paths = files paths := by
  simp [newFiles, files]

theorem mergeFiles_eq (m : Merge) (paths : List Bytes) (hseen : ∀ m' m'' path, mergeFile yaml u path m' = .ok m'' →
    m''.seenPaths = path :: m'.seenPaths) :
    mergeFiles yaml u m paths = (newFiles m.seenPaths paths).foldlM (fun m path => mergeFile yaml u path m) m := by
  induction paths generalizing m with
  | nil => simp [mergeFiles, newFiles, pure, Except.pure]
  | cons rawPath paths ih =>
    unfold mergeFiles
    dsimp only
    split
    · rename_i hskip
      rw [newFiles_skip hskip, ih m]
    · rename_i htake
      rw [newFiles_take htake, List.foldlM_cons]
      cases hstep : mergeFile yaml u (asciiTrim rawPath) m with
      | error e => rfl
      | ok m' =>
        show mergeFiles yaml u m' paths = _
        rw [ih m', hseen m m' _ hstep]
        rfl

/-! ## One file -/

def ids (rules : List CatalogRule) : List Bytes := rules.map (·.id)

/-- The ids that were seen are those of the rules. -/
def Merge.Known (m : Merge) : Prop := m.seenRuleIds.map Prod.fst = ids m.all.rules

def Merge.push (m : Merge) (path : Bytes) (rules : List CatalogRule) : Merge :=
  { m with
    all := { m.all with rules := m.all.rules ++ rules }
    seenRuleIds := m.seenRuleIds ++ rules.map fun r => (r.id, path) }

theorem Merge.Known.push {m : Merge} (h : m.Known) (path : Bytes) (rules : List CatalogRule) : (m.push path rules).Known := by
  unfold Known at h ⊢
  simp [Merge.push, ids, h, Function.comp_def]

theorem Merge.push_push (m : Merge) (path : Bytes) (rules rules' : List CatalogRule) :
    (m.push path rules).push path rules' = m.push path (rules ++ rules') := by
  simp [Merge.push]

theorem lookup_none_iff {m : Merge} (h : m.Known) (id : Bytes) : m.seenRuleIds.lookup id = none ↔ id ∉ ids m.all.rules := by
  rw [← h, List.lookup_eq_none_iff, List.mem_map, not_exists]
  simp only [bne_iff_ne, not_and]
  exact ⟨fun hne p hp heq => hne p hp heq.symm, fun hne p hp heq => hne p hp heq.symm⟩

theorem mergeRules_append {m : Merge} (h : m.Known) (path : Bytes) {rules : List CatalogRule} (rest : List CatalogRule)
    (hnodup : (ids (m.all.rules ++ rules)).Nodup) :
    mergeRules path m (rules ++ rest) = mergeRules path (m.push path rules) rest := by
  induction rules generalizing m with
  | nil => simp [Merge.push]
  | cons r rules ih =>
    have hnew : m.seenRuleIds.lookup r.id = none := by
      rw [lookup_none_iff h]
      intro hmem
      unfold ids at hnodup hmem
      rw [List.map_append, List.map_cons, List.nodup_append] at hnodup
      exact hnodup.2.2 _ hmem _ List.mem_cons_self rfl
    have hstep := ih (h.push path [r]) (by simpa [Merge.push] using hnodup)
    rw [Merge.push_push, List.singleton_append] at hstep
    rw [List.cons_append, mergeRules, hnew]
    exact hstep

theorem mergeRules_ok {m : Merge} (h : m.Known) (path : Bytes) {rules : List CatalogRule}
    (hnodup : (ids (m.all.rules ++ rules)).Nodup) : mergeRules path m rules = .ok (m.push path rules) := by
  have happend := mergeRules_append h path [] hnodup
  rwa [List.append_nil] at happend

theorem mergeRules_duplicate {m : Merge} (h : m.Known) (path : Bytes) {pre post : List CatalogRule} {r : CatalogRule}
    {first : Bytes} (hnodup : (ids (m.all.rules ++ pre)).Nodup)
    (hfirst : (m.push path pre).seenRuleIds.lookup r.id = some first) :
    mergeRules path m (pre ++ r :: post) = .error (duplicateRule r.id first path) := by
  rw [mergeRules_append h path _ hnodup, mergeRules, hfirst]

theorem nodup_or_duplicate {before : List CatalogRule} (rules : List CatalogRule) (h : (ids before).Nodup) :
    (ids (before ++ rules)).Nodup ∨
      ∃ pre r post, rules = pre ++ r :: post ∧ (ids (before ++ pre)).Nodup ∧ r.id ∈ ids (before ++ pre) := by
  induction rules generalizing before with
  | nil => exact .inl (by simpa using h)
  | cons r rules ih =>
    by_cases hmem : r.id ∈ ids before
    · exact .inr ⟨[], r, rules, rfl, by simpa using h, by simpa using hmem⟩
    · have hnodup : (ids (before ++ [r])).Nodup := by
        unfold ids at h hmem ⊢
        rw [List.map_append, List.map_singleton]
        exact List.nodup_append.mpr ⟨h, List.nodup_singleton _, fun a ha b hb heq =>
          hmem (List.mem_singleton.mp hb ▸ heq ▸ ha)⟩
      rcases ih hnodup with hall | ⟨pre, r', post, rfl, hpre, hdup⟩
      · exact .inl (by simpa using hall)
      · exact .inr ⟨r :: pre, r', post, rfl, by simpa using hpre, by simpa using hdup⟩

/-! ## Many files -/

/-- Every file is loaded. -/
def Loads (yaml : YamlCpp Node) (u : Utf8proc) : List Bytes → List LoadedRules → Prop :=
  List.Forall₂ fun path loaded => loadRulesFile yaml u path = .ok loaded

def merged (loads : List LoadedRules) : LoadedRules := ⟨loads.flatMap (·.groups), loads.flatMap (·.rules)⟩

/-- These files are one catalog: no id comes twice. -/
def Catalog (yaml : YamlCpp Node) (u : Utf8proc) (files : List Bytes) (all : LoadedRules) : Prop :=
  ∃ loads, Loads yaml u files loads ∧ all = merged loads ∧ (ids all.rules).Nodup

/-- The rules of these files, file by file. -/
def sources (files : List Bytes) (loads : List LoadedRules) : List (Bytes × List CatalogRule) :=
  files.zip (loads.map (·.rules))

/-- A file brings an id again. The error names the file that had it first. -/
def Duplicate (files : List Bytes) (loads : List LoadedRules) (path : Bytes) (rules : List CatalogRule) (e : LoadError) :
    Prop :=
  ∃ pre r post, rules = pre ++ r :: post ∧ (ids ((merged loads).rules ++ pre)).Nodup ∧
    ∃ source ∈ sources files loads ++ [(path, pre)], r.id ∈ ids source.2 ∧ e = duplicateRule r.id source.1 path

/-- What is wrong with a file behind these, which are a catalog. -/
def Fault (yaml : YamlCpp Node) (u : Utf8proc) (before : List Bytes) (path : Bytes) (e : LoadError) : Prop :=
  ∃ loads, Loads yaml u before loads ∧ (ids (merged loads).rules).Nodup ∧
    (loadRulesFile yaml u path = .error e ∨
      ∃ loaded, loadRulesFile yaml u path = .ok loaded ∧ Duplicate before loads path loaded.rules e)

/-- Either the files are a catalog, or one of them is the first that is at fault. -/
theorem catalog_or_fault (yaml : YamlCpp Node) (u : Utf8proc) (files : List Bytes) : (∃ all, Catalog yaml u files all) ∨
    ∃ before path after e, files = before ++ path :: after ∧ Fault yaml u before path e := by
  induction files using List.reverseRecOn with
  | nil => exact .inl ⟨_, [], .nil, rfl, List.nodup_nil⟩
  | append_singleton before path ih =>
    rcases ih with ⟨_, loads, hloads, rfl, hnodup⟩ | ⟨front, path', after, e, rfl, hfault⟩
    · cases hload : loadRulesFile yaml u path with
      | error e => exact .inr ⟨before, path, [], e, rfl, loads, hloads, hnodup, .inl hload⟩
      | ok loaded =>
        rcases nodup_or_duplicate loaded.rules hnodup with hall | ⟨pre, r, post, hrules, hpre, hdup⟩
        · refine .inl ⟨_, loads ++ [loaded], List.rel_append hloads (.cons hload .nil), rfl, ?_⟩
          simpa [merged] using hall
        · have hsource : ∃ source ∈ sources before loads ++ [(path, pre)], r.id ∈ ids source.2 := by
            unfold ids at hdup
            rw [List.map_append, List.mem_append] at hdup
            rcases hdup with hdup | hdup
            · obtain ⟨r', hr', hid⟩ := List.mem_map.mp hdup
              obtain ⟨loaded', hloaded', hmem⟩ := List.mem_flatMap.mp hr'
              obtain ⟨i, hi, rfl⟩ := List.getElem_of_mem hloaded'
              have hlen := hloads.length_eq
              refine ⟨(before[i], loads[i].rules), List.mem_append_left _ ?_, List.mem_map.mpr ⟨r', hmem, hid⟩⟩
              have hzip : i < (sources before loads).length := by simp [sources]; omega
              have hget : (sources before loads)[i] = (before[i], loads[i].rules) := by simp [sources]
              exact hget ▸ List.getElem_mem hzip
            · exact ⟨_, List.mem_append_right _ List.mem_cons_self, hdup⟩
          obtain ⟨source, hmem, hid⟩ := hsource
          exact .inr ⟨before, path, [], _, rfl, loads, hloads, hnodup,
            .inr ⟨loaded, hload, pre, r, post, hrules, hpre, source, hmem, hid, rfl⟩⟩
    · exact .inr ⟨front, path', after ++ [path], e, by simp, hfault⟩

/-! ## The loop over the files -/

def tags (sources : List (Bytes × List CatalogRule)) : List (Bytes × Bytes) :=
  sources.flatMap fun source => source.2.map fun r => (r.id, source.1)

/-- The loop behind these files. -/
def state (files : List Bytes) (loads : List LoadedRules) : Merge :=
  ⟨merged loads, files.reverse, tags (sources files loads), files.length⟩

theorem known_state {files : List Bytes} {loads : List LoadedRules} (h : Loads yaml u files loads) :
    (state files loads).Known := by
  unfold Merge.Known state
  induction h with
  | nil => rfl
  | cons _ _ ih =>
    simp only [tags, sources, merged, ids, List.map_cons, List.zip_cons_cons, List.flatMap_cons, List.map_append,
      List.map_map] at ih ⊢
    rw [ih]
    rfl

theorem mergeRules_seenPaths {path : Bytes} {m m' : Merge} {rules : List CatalogRule}
    (h : mergeRules path m rules = .ok m') : m'.seenPaths = m.seenPaths := by
  induction rules generalizing m with
  | nil =>
    obtain rfl := Except.ok.inj h
    rfl
  | cons r rules ih =>
    unfold mergeRules at h
    split at h
    · cases h
    · have hrest := ih h
      exact hrest

theorem mergeFile_seenPaths (yaml : YamlCpp Node) (u : Utf8proc) (m m' : Merge) (path : Bytes)
    (h : mergeFile yaml u path m = .ok m') :
    m'.seenPaths = path :: m.seenPaths := by
  obtain ⟨loaded, -, hmerge⟩ := bind_eq_ok.mp h
  exact mergeRules_seenPaths hmerge

/-- The groups of a file are there before its rules. -/
def Merge.opened (m : Merge) (path : Bytes) (groups : List DataTypeGroup) : Merge :=
  ⟨⟨m.all.groups ++ groups, m.all.rules⟩, path :: m.seenPaths, m.seenRuleIds, m.loadedFiles + 1⟩

theorem mergeFile_eq {path : Bytes} {loaded : LoadedRules} (h : loadRulesFile yaml u path = .ok loaded) (m : Merge) :
    mergeFile yaml u path m = mergeRules path (m.opened path loaded.groups) loaded.rules := by
  unfold mergeFile
  rw [h]
  rfl

theorem state_snoc {files : List Bytes} {loads : List LoadedRules} (h : files.length = loads.length) (path : Bytes)
    (loaded : LoadedRules) : ((state files loads).opened path loaded.groups).push path loaded.rules =
      state (files ++ [path]) (loads ++ [loaded]) := by
  have hzip : sources (files ++ [path]) (loads ++ [loaded]) = sources files loads ++ [(path, loaded.rules)] := by
    unfold sources
    rw [List.map_append, List.zip_append (by simpa using h)]
    rfl
  simp [state, Merge.opened, Merge.push, merged, tags, hzip]

theorem foldlM_state {before files : List Bytes} {loads loads' : List LoadedRules} (hbefore : Loads yaml u before loads)
    (h : Loads yaml u files loads') (hnodup : (ids (merged (loads ++ loads')).rules).Nodup) :
    files.foldlM (fun m path => mergeFile yaml u path m) (state before loads) =
      .ok (state (before ++ files) (loads ++ loads')) := by
  induction h generalizing before loads with
  | nil => simp [pure, Except.pure]
  | @cons path loaded files loads' hload _ ih =>
    rw [← List.singleton_append, ← List.append_assoc] at hnodup
    have hfront : (ids ((merged loads).rules ++ loaded.rules)).Nodup := by
      simp only [merged, ids, List.flatMap_append, List.map_append, List.flatMap_singleton] at hnodup ⊢
      exact hnodup.of_append_left
    have hstep : mergeFile yaml u path (state before loads) = .ok (state (before ++ [path]) (loads ++ [loaded])) := by
      have hknown : ((state before loads).opened path loaded.groups).Known := known_state hbefore
      rw [mergeFile_eq hload, mergeRules_ok hknown path hfront, state_snoc hbefore.length_eq]
    have hrest := ih (List.rel_append hbefore (.cons hload .nil)) hnodup
    rw [List.append_assoc, List.append_assoc] at hrest
    rw [List.foldlM_cons, hstep]
    exact hrest

theorem lookup_of_mem {l : List (Bytes × Bytes)} (h : (l.map Prod.fst).Nodup) {key value : Bytes} (hmem : (key, value) ∈ l) :
    l.lookup key = some value := by
  obtain ⟨l₁, l₂, rfl⟩ := List.append_of_mem hmem
  refine List.lookup_eq_some_iff.mpr ⟨l₁, l₂, rfl, fun p hp => ?_⟩
  rw [List.map_append, List.map_cons, List.nodup_append] at h
  rw [bne_iff_ne]
  exact fun heq => h.2.2 _ (List.mem_map_of_mem hp) _ List.mem_cons_self heq.symm

theorem mergeFile_fault {before : List Bytes} {path : Bytes} {e : LoadError} {loads : List LoadedRules}
    (h : Loads yaml u before loads) (hfault : loadRulesFile yaml u path = .error e ∨
      ∃ loaded, loadRulesFile yaml u path = .ok loaded ∧ Duplicate before loads path loaded.rules e) :
    mergeFile yaml u path (state before loads) = .error e := by
  rcases hfault with hload | ⟨loaded, hload, pre, r, post, hrules, hnodup, source, hsource, hid, rfl⟩
  · unfold mergeFile
    rw [hload]
    rfl
  · have hknown : ((state before loads).opened path loaded.groups).Known := known_state h
    rw [mergeFile_eq hload, hrules]
    refine mergeRules_duplicate hknown path hnodup (lookup_of_mem ?_ ?_)
    · rw [hknown.push path pre]
      exact hnodup
    · have hseen : (((state before loads).opened path loaded.groups).push path pre).seenRuleIds =
          tags (sources before loads ++ [(path, pre)]) := by simp [Merge.push, Merge.opened, state, tags]
      rw [hseen]
      obtain ⟨r', hr', hid'⟩ := List.mem_map.mp hid
      exact List.mem_flatMap.mpr ⟨source, hsource, List.mem_map.mpr ⟨r', hr', by rw [hid']⟩⟩

def noFiles : LoadError := .parseError (ascii "no guardrails rules files configured")

/-- What the loop gives, file by file. -/
def run (yaml : YamlCpp Node) (u : Utf8proc) (paths : List Bytes) : Except LoadError Merge :=
  (files paths).foldlM (fun m path => mergeFile yaml u path m) (state [] [])

theorem loadRulesFiles_run (paths : List Bytes) : loadRulesFiles yaml u paths =
    (run yaml u paths).bind fun m => if m.loadedFiles = 0 then .error noFiles else .ok m.all := by
  have hloop := mergeFiles_eq (state [] []) paths (mergeFile_seenPaths yaml u)
  have hseen : (state [] []).seenPaths = [] := rfl
  rw [hseen, newFiles_nil_left] at hloop
  unfold loadRulesFiles run
  rw [← hloop]
  rfl

theorem loadRulesFiles_none {paths : List Bytes} (hempty : files paths = []) :
    loadRulesFiles yaml u paths = .error noFiles := by
  have hrun : run yaml u paths = .ok (state [] []) := by
    unfold run
    rw [hempty]
    rfl
  rw [loadRulesFiles_run, hrun]
  rfl

theorem loadRulesFiles_catalog {paths : List Bytes} {all : LoadedRules} (hsome : files paths ≠ [])
    (h : Catalog yaml u (files paths) all) : loadRulesFiles yaml u paths = .ok all := by
  obtain ⟨loads, hloads, rfl, hnodup⟩ := h
  have hrun : run yaml u paths = .ok (state (files paths) loads) := foldlM_state .nil hloads hnodup
  have hlen : (state (files paths) loads).loadedFiles ≠ 0 := mt List.length_eq_zero_iff.mp hsome
  rw [loadRulesFiles_run, hrun]
  exact if_neg hlen

theorem loadRulesFiles_fault {paths before after : List Bytes} {path : Bytes} {e : LoadError}
    (hfiles : files paths = before ++ path :: after) (h : Fault yaml u before path e) :
    loadRulesFiles yaml u paths = .error e := by
  obtain ⟨loads, hloads, hnodup, hbad⟩ := h
  have hrun : run yaml u paths = .error e := by
    unfold run
    rw [hfiles, List.foldlM_append, foldlM_state .nil hloads hnodup]
    show (path :: after).foldlM (fun m path => mergeFile yaml u path m) (state before loads) = _
    rw [List.foldlM_cons, mergeFile_fault hloads hbad]
    rfl
  rw [loadRulesFiles_run, hrun]
  rfl

theorem loadRulesFiles_ok {paths : List Bytes} {all : LoadedRules} (h : loadRulesFiles yaml u paths = .ok all) :
    files paths ≠ [] ∧ Catalog yaml u (files paths) all := by
  have hsome : files paths ≠ [] := fun hempty => by cases h.symm.trans (loadRulesFiles_none hempty)
  refine ⟨hsome, ?_⟩
  rcases catalog_or_fault yaml u (files paths) with ⟨all', hall'⟩ | ⟨before, path, after, e, hfiles, hbad⟩
  · obtain rfl := Except.ok.inj (h.symm.trans (loadRulesFiles_catalog hsome hall'))
    exact hall'
  · cases h.symm.trans (loadRulesFiles_fault hfiles hbad)

theorem loadRulesFiles_error {paths : List Bytes} {e : LoadError} (h : loadRulesFiles yaml u paths = .error e) :
    (files paths = [] ∧ e = noFiles) ∨
      ∃ before path after, files paths = before ++ path :: after ∧ Fault yaml u before path e := by
  by_cases hempty : files paths = []
  · exact .inl ⟨hempty, Except.error.inj (h.symm.trans (loadRulesFiles_none hempty))⟩
  · rcases catalog_or_fault yaml u (files paths) with ⟨all, hall⟩ | ⟨before, path, after, e', hfiles, hbad⟩
    · cases h.symm.trans (loadRulesFiles_catalog hempty hall)
    · obtain rfl := Except.error.inj (h.symm.trans (loadRulesFiles_fault hfiles hbad))
      exact .inr ⟨before, path, after, hfiles, hbad⟩

/-- A list of paths is loaded as what its files are, each path once: their groups and rules behind each other. It fails
exactly when there is no file, or when a file is at fault, and then with the first fault. -/
theorem loadRulesFiles_spec (yaml : YamlCpp Node) (u : Utf8proc) (paths : List Bytes) :
    (∀ all, loadRulesFiles yaml u paths = .ok all ↔ files paths ≠ [] ∧ Catalog yaml u (files paths) all) ∧
    ∀ e, loadRulesFiles yaml u paths = .error e ↔ (files paths = [] ∧ e = noFiles) ∨
      ∃ before path after, files paths = before ++ path :: after ∧ Fault yaml u before path e := by
  constructor
  · intro all
    exact ⟨loadRulesFiles_ok, fun ⟨hsome, hall⟩ => loadRulesFiles_catalog hsome hall⟩
  · intro e
    constructor
    · exact loadRulesFiles_error
    · rintro (⟨hempty, rfl⟩ | ⟨before, path, after, hfiles, hbad⟩)
      · exact loadRulesFiles_none hempty
      · exact loadRulesFiles_fault hfiles hbad

end LlmGuard.RulesYaml
