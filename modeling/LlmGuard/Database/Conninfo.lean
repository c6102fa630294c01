import LlmGuard.Code.Pg
import LlmGuard.Lib.Conninfo
import Mathlib.Data.List.TakeWhile

/-!
# A connection string says what it was made of

No content closes its own quote. So the reader is back between two settings behind every value.
-/

namespace LlmGuard.Pg

open Conninfo

/-! ## One setting -/

theorem run_escapedValue (settings : List (Bytes × Bytes)) (name read v : Bytes) :
    run ⟨settings, .quoted name read⟩
        (v.flatMap fun c => if c = ch '\\' || c = ch '\'' then [ch '\\', c] else [c]) =
      some ⟨settings, .quoted name (read ++ v)⟩ := by
  induction v generalizing read with
  | nil => simp [run]
  | cons c v ih =>
    rw [List.flatMap_cons, run_append]
    split
    · rw [run_escaped, Option.bind_some, ih, List.append_assoc, List.singleton_append]
    · rename_i hplain
      simp only [Bool.or_eq_true, decide_eq_true_eq, not_or] at hplain
      have hone : run ⟨settings, .quoted name read⟩ [c] = some ⟨settings, .quoted name (read ++ [c])⟩ := by
        rw [run_cons, step_quoted hplain.2 hplain.1]
        rfl
      rw [hone, Option.bind_some, ih, List.append_assoc, List.singleton_append]

theorem run_quoteValue (settings : List (Bytes × Bytes)) (name v : Bytes) :
    run ⟨settings, .value name⟩ (quoteValue v) = some ⟨settings ++ [(name, v)], .between⟩ := by
  unfold quoteValue
  rw [List.cons_append, run_cons, step_openQuote, Option.bind_some, run_append, run_escapedValue, Option.bind_some,
    List.nil_append, run_cons, step_closeQuote]
  rfl

theorem run_setting (settings : List (Bytes × Bytes)) {name : Bytes} (hne : name ≠ []) (hname : ∀ c ∈ name, InKeyword c)
    (v : Bytes) : run ⟨settings, .between⟩ (name ++ [ch '='] ++ quoteValue v) =
      some ⟨settings ++ [(name, v)], .between⟩ := by
  rw [run_append, run_name hne hname, Option.bind_some, run_quoteValue]

set_option maxRecDepth 8192 in
theorem inBare_intString (n : Int) : ∀ c ∈ intString n, InBare c := by
  have hdigit : ∀ c, isDigit c → InBare c := by decide
  intro c hc
  unfold intString at hc
  split at hc
  · rcases List.mem_cons.mp hc with rfl | hc
    · decide
    · exact hdigit c (decimal_digits _ c hc)
  · exact hdigit c (decimal_digits _ c hc)

theorem intString_ne_nil (n : Int) : intString n ≠ [] := by
  unfold intString
  split
  · exact List.cons_ne_nil _ _
  · exact decimal_ne_nil _

theorem run_port (settings : List (Bytes × Bytes)) {name : Bytes} (hne : name ≠ []) (hname : ∀ c ∈ name, InKeyword c)
    (n : Int) : run ⟨settings, .between⟩ (name ++ [ch '='] ++ (intString n ++ [ch ' '])) =
      some ⟨settings ++ [(name, intString n)], .between⟩ := by
  rw [run_append, run_name hne hname, Option.bind_some, run_bareValue (intString_ne_nil n) (inBare_intString n)]

/-! ## The whole string -/

theorem zero_not_mem_quoteValue {v : Bytes} (h : 0 ∉ v) : 0 ∉ quoteValue v := by
  unfold quoteValue
  simp only [List.cons_append, List.mem_cons, List.mem_append, List.mem_flatMap, List.not_mem_nil, or_false, not_or]
  refine ⟨by decide, ?_, by decide⟩
  rintro ⟨c, hc, hzero⟩
  have hne : (0 : Byte) ≠ c := fun heq => h (heq ▸ hc)
  split at hzero
  · simp only [List.mem_cons, List.not_mem_nil, or_false] at hzero
    exact hzero.elim (by decide) hne
  · exact hne (List.mem_singleton.mp hzero)

theorem zero_not_mem_intString (n : Int) : 0 ∉ intString n := by
  intro h
  unfold intString at h
  split at h
  · rcases List.mem_cons.mp h with h | h
    · exact absurd h (by decide)
    · exact absurd (decimal_digits _ 0 h) (by decide)
  · exact absurd (decimal_digits _ 0 h) (by decide)

/-- The settings that a connection string is made of. -/
def settings (host : Bytes) (port : Int) (user dbname password : Bytes) : List (Bytes × Bytes) :=
  [(ascii "host", host), (ascii "port", intString port), (ascii "user", user), (ascii "dbname", dbname)] ++
    if password = [] then [] else [(ascii "password", password)]

theorem run_makeConninfo (host : Bytes) (port : Int) (user dbname password : Bytes) :
    run ⟨[], .between⟩ (makeConninfo host port user dbname password) =
      some ⟨settings host port user dbname password, .between⟩ := by
  have hblank : ∀ found, run ⟨found, .between⟩ [ch ' '] = some ⟨found, .between⟩ := fun found => by
    rw [run_cons, step_blank]
    rfl
  have hfour : ∀ rest, ascii "host=" ++ quoteValue host ++ ascii " port=" ++ intString port ++ ascii " user=" ++
      quoteValue user ++ ascii " dbname=" ++ quoteValue dbname ++ rest =
        (ascii "host" ++ [ch '='] ++ quoteValue host) ++ ([ch ' '] ++ ((ascii "port" ++ [ch '='] ++
          (intString port ++ [ch ' '])) ++ ((ascii "user" ++ [ch '='] ++ quoteValue user) ++ ([ch ' '] ++
            ((ascii "dbname" ++ [ch '='] ++ quoteValue dbname) ++ rest))))) := by
    intro rest
    simp [ascii]
  have hrun : ∀ rest, run ⟨[], .between⟩ (ascii "host=" ++ quoteValue host ++ ascii " port=" ++ intString port ++
      ascii " user=" ++ quoteValue user ++ ascii " dbname=" ++ quoteValue dbname ++ rest) =
        run ⟨settings host port user dbname [], .between⟩ rest := by
    intro rest
    rw [hfour, run_append, run_setting _ (by decide) (by decide), Option.bind_some, run_append, hblank,
      Option.bind_some, run_append, run_port _ (by decide) (by decide), Option.bind_some, run_append,
      run_setting _ (by decide) (by decide), Option.bind_some, run_append, hblank, Option.bind_some, run_append,
      run_setting _ (by decide) (by decide), Option.bind_some]
    rfl
  unfold makeConninfo
  dsimp only
  split
  · rename_i hempty
    have hnil : password = [] := List.isEmpty_iff.mp hempty
    have := hrun []
    rw [List.append_nil] at this
    rw [this, hnil]
    rfl
  · rename_i hpassword
    have hne : password ≠ [] := fun h => hpassword (List.isEmpty_iff.mpr h)
    have hlast : ascii " password=" ++ quoteValue password =
        [ch ' '] ++ (ascii "password" ++ [ch '='] ++ quoteValue password) := by simp [ascii]
    rw [hrun, hlast, run_append, hblank, Option.bind_some, run_setting _ (by decide) (by decide)]
    simp [settings, hne]

theorem zero_not_mem_makeConninfo {host user dbname password : Bytes} (port : Int) (hhost : 0 ∉ host) (huser : 0 ∉ user)
    (hdbname : 0 ∉ dbname) (hpassword : 0 ∉ password) : 0 ∉ makeConninfo host port user dbname password := by
  have hkeys : 0 ∉ ascii "host=" ∧ 0 ∉ ascii " port=" ∧ 0 ∉ ascii " user=" ∧ 0 ∉ ascii " dbname=" ∧
      0 ∉ ascii " password=" := by decide
  obtain ⟨h₁, h₂, h₃, h₄, h₅⟩ := hkeys
  unfold makeConninfo
  dsimp only
  split <;> simp only [List.mem_append, not_or, h₁, h₂, h₃, h₄, h₅, zero_not_mem_quoteValue hhost,
    zero_not_mem_quoteValue huser, zero_not_mem_quoteValue hdbname, zero_not_mem_quoteValue hpassword,
    zero_not_mem_intString port, not_false_eq_true, and_self]

/-- No content closes its quote, swallows a key or loses a byte. -/
theorem read_makeConninfo {host user dbname password : Bytes} (port : Int) (hhost : 0 ∉ host) (huser : 0 ∉ user)
    (hdbname : 0 ∉ dbname) (hpassword : 0 ∉ password) :
    Conninfo.read (makeConninfo host port user dbname password) =
      some ([(ascii "host", host), (ascii "port", intString port), (ascii "user", user), (ascii "dbname", dbname)] ++
        if password = [] then [] else [(ascii "password", password)]) := by
  have hnul : (makeConninfo host port user dbname password).takeWhile (· ≠ 0) =
      makeConninfo host port user dbname password := by
    rw [List.takeWhile_eq_self_iff]
    intro c hc
    rw [decide_eq_true_eq]
    rintro rfl
    exact zero_not_mem_makeConninfo port hhost huser hdbname hpassword hc
  rw [Conninfo.read, hnul, run_makeConninfo]
  rfl

/-- A host that tries to set another host. -/
theorem read_makeConninfo_hostile :
    Conninfo.read (makeConninfo (ascii "a' host=evil\\") (-1) (ascii "\\'") [] []) =
      some [(ascii "host", ascii "a' host=evil\\"), (ascii "port", ascii "-1"), (ascii "user", ascii "\\'"),
        (ascii "dbname", [])] :=
  read_makeConninfo (-1) (by decide) (by decide) (by decide) (by decide)

end LlmGuard.Pg
