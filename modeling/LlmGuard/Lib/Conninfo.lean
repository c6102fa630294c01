import LlmGuard.Spec.Bytes

/-!
# Connection strings

The documented grammar of a libpq connection string: `keyword = value` settings with white space between them. A value
in single quotes may hold anything. In a value a backslash stands for the byte behind it.
-/

namespace Conninfo

open LlmGuard (Byte Bytes ch)

/-- `isspace` -/
def isBlank (c : Byte) : Bool := c = ch ' ' || (9 ≤ c && c ≤ 13)

inductive State
  /-- Between two settings. -/
  | between
  | keyword (name : Bytes)
  /-- Only white space and the equal sign may follow. -/
  | equals (name : Bytes)
  | value (name : Bytes)
  | bare (name value : Bytes)
  | bareEscape (name value : Bytes)
  | quoted (name value : Bytes)
  | quotedEscape (name value : Bytes)
deriving DecidableEq

/-- The settings read so far, and where the reader is. -/
structure Reader where
  settings : List (Bytes × Bytes)
  state : State
deriving DecidableEq

def Reader.goes (r : Reader) (state : State) : Reader := { r with state }

def Reader.sets (r : Reader) (name value : Bytes) : Reader := ⟨r.settings ++ [(name, value)], .between⟩

def step (r : Reader) (c : Byte) : Option Reader :=
  match r.state with
  | .between => some (if isBlank c then r else r.goes (if c = ch '=' then .value [] else .keyword [c]))
  | .keyword name =>
    some (r.goes (if c = ch '=' then .value name else if isBlank c then .equals name else .keyword (name ++ [c])))
  | .equals name => if c = ch '=' then some (r.goes (.value name)) else if isBlank c then some r else none
  | .value name =>
    some (if isBlank c then r
      else r.goes (if c = ch '\'' then .quoted name [] else if c = ch '\\' then .bareEscape name [] else .bare name [c]))
  | .bare name v =>
    some (if isBlank c then r.sets name v
      else r.goes (if c = ch '\\' then .bareEscape name v else .bare name (v ++ [c])))
  | .bareEscape name v => some (r.goes (.bare name (v ++ [c])))
  | .quoted name v =>
    some (if c = ch '\'' then r.sets name v
      else r.goes (if c = ch '\\' then .quotedEscape name v else .quoted name (v ++ [c])))
  | .quotedEscape name v => some (r.goes (.quoted name (v ++ [c])))

/-- What the end of the text makes of it: a keyword without a value and an open quote are errors. -/
def finish (r : Reader) : Option (List (Bytes × Bytes)) :=
  match r.state with
  | .between => some r.settings
  | .value name => some (r.settings ++ [(name, [])])
  | .bare name v | .bareEscape name v => some (r.settings ++ [(name, v)])
  | _ => none

def run (r : Reader) (s : Bytes) : Option Reader := s.foldlM step r

/-- A C string ends at its first zero byte. -/
def read (s : Bytes) : Option (List (Bytes × Bytes)) := (run ⟨[], .between⟩ (s.takeWhile (· ≠ 0))).bind finish

/-! ## Reading one piece after the other -/

theorem run_append (r : Reader) (a b : Bytes) : run r (a ++ b) = (run r a).bind fun r' => run r' b :=
  List.foldlM_append

theorem run_cons (r : Reader) (c : Byte) (s : Bytes) : run r (c :: s) = (step r c).bind fun r' => run r' s := rfl

/-- A byte of a keyword. -/
def InKeyword (c : Byte) : Prop := c ≠ ch '=' ∧ isBlank c = false

instance (c : Byte) : Decidable (InKeyword c) := inferInstanceAs (Decidable (_ ∧ _))

theorem run_keyword {settings : List (Bytes × Bytes)} (name : Bytes) {s : Bytes} (h : ∀ c ∈ s, InKeyword c) :
    run ⟨settings, .keyword name⟩ (s ++ [ch '=']) = some ⟨settings, .value (name ++ s)⟩ := by
  induction s generalizing name with
  | nil => simp [run, step, Reader.goes]
  | cons c s ih =>
    obtain ⟨hne, hblank⟩ := h c (by simp)
    have hstep : step ⟨settings, .keyword name⟩ c = some ⟨settings, .keyword (name ++ [c])⟩ := by
      simp [step, hne, hblank, Reader.goes]
    rw [List.cons_append, run_cons, hstep, Option.bind_some, ih _ fun d hd => h d (by simp [hd])]
    simp

theorem run_name {settings : List (Bytes × Bytes)} {name : Bytes} (hne : name ≠ []) (h : ∀ c ∈ name, InKeyword c) :
    run ⟨settings, .between⟩ (name ++ [ch '=']) = some ⟨settings, .value name⟩ := by
  obtain ⟨c, s, rfl⟩ := List.exists_cons_of_ne_nil hne
  obtain ⟨hne, hblank⟩ := h c (by simp)
  have hstep : step ⟨settings, .between⟩ c = some ⟨settings, .keyword [c]⟩ := by
    simp [step, hne, hblank, Reader.goes]
  rw [List.cons_append, run_cons, hstep, Option.bind_some, run_keyword [c] fun d hd => h d (by simp [hd])]
  rfl

/-- A byte that stands for itself in a value without quotes. -/
def InBare (c : Byte) : Prop := c ≠ ch '\\' ∧ c ≠ ch '\'' ∧ isBlank c = false

instance (c : Byte) : Decidable (InBare c) := inferInstanceAs (Decidable (_ ∧ _ ∧ _))

theorem run_bare {settings : List (Bytes × Bytes)} {name : Bytes} (v : Bytes) {s : Bytes} (h : ∀ c ∈ s, InBare c) :
    run ⟨settings, .bare name v⟩ (s ++ [ch ' ']) = some ⟨settings ++ [(name, v ++ s)], .between⟩ := by
  induction s generalizing v with
  | nil => simp [run, step, Reader.sets, isBlank]
  | cons c s ih =>
    obtain ⟨hne, -, hblank⟩ := h c (by simp)
    have hstep : step ⟨settings, .bare name v⟩ c = some ⟨settings, .bare name (v ++ [c])⟩ := by
      simp [step, hne, hblank, Reader.goes]
    rw [List.cons_append, run_cons, hstep, Option.bind_some, ih _ fun d hd => h d (by simp [hd])]
    simp

theorem run_bareValue {settings : List (Bytes × Bytes)} {name s : Bytes} (hne : s ≠ []) (h : ∀ c ∈ s, InBare c) :
    run ⟨settings, .value name⟩ (s ++ [ch ' ']) = some ⟨settings ++ [(name, s)], .between⟩ := by
  obtain ⟨c, s, rfl⟩ := List.exists_cons_of_ne_nil hne
  obtain ⟨hne, hquote, hblank⟩ := h c (by simp)
  have hstep : step ⟨settings, .value name⟩ c = some ⟨settings, .bare name [c]⟩ := by
    simp [step, hne, hquote, hblank, Reader.goes]
  rw [List.cons_append, run_cons, hstep, Option.bind_some, run_bare [c] fun d hd => h d (by simp [hd])]
  rfl

theorem step_openQuote (settings : List (Bytes × Bytes)) (name : Bytes) :
    step ⟨settings, .value name⟩ (ch '\'') = some ⟨settings, .quoted name []⟩ := by
  have hblank : isBlank (ch '\'') = false := by decide
  simp [step, hblank, Reader.goes]

theorem step_closeQuote (settings : List (Bytes × Bytes)) (name v : Bytes) :
    step ⟨settings, .quoted name v⟩ (ch '\'') = some ⟨settings ++ [(name, v)], .between⟩ := by
  simp [step, Reader.sets]

theorem step_quoted {settings : List (Bytes × Bytes)} {name v : Bytes} {c : Byte} (hquote : c ≠ ch '\'')
    (hbackslash : c ≠ ch '\\') : step ⟨settings, .quoted name v⟩ c = some ⟨settings, .quoted name (v ++ [c])⟩ := by
  simp [step, hquote, hbackslash, Reader.goes]

theorem run_escaped (settings : List (Bytes × Bytes)) (name v : Bytes) (c : Byte) :
    run ⟨settings, .quoted name v⟩ [ch '\\', c] = some ⟨settings, .quoted name (v ++ [c])⟩ := by
  have hne : ch '\\' ≠ ch '\'' := by decide
  have hstep : step ⟨settings, .quoted name v⟩ (ch '\\') = some ⟨settings, .quotedEscape name v⟩ := by
    simp [step, hne, Reader.goes]
  rw [run_cons, hstep]
  rfl

theorem step_blank (settings : List (Bytes × Bytes)) :
    step ⟨settings, .between⟩ (ch ' ') = some ⟨settings, .between⟩ := by
  simp [step, isBlank]

end Conninfo
