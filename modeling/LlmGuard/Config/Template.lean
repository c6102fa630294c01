import LlmGuard.Code.Config
import LlmGuard.Sse.Frames

/-!
# What a text of the file stands for

Every text is a template in one way, and `expand_string` is its value. So a value of the environment is never
expanded again.
-/

namespace LlmGuard.Config

open Sse (find find_none find_at find_le find_isSome)

/-! ## Cutting at the first needle -/

theorem find_behind {needle pre post : Bytes}
    (h : ∀ i < pre.length, ¬ needle <+: (pre ++ needle ++ post).drop i) :
    find needle (pre ++ needle ++ post) = some pre.length := by
  obtain ⟨i, hi⟩ : ∃ i, find needle (pre ++ needle ++ post) = some i := find_isSome rfl
  rcases Nat.lt_or_eq_of_le (find_le hi rfl) with hlt | rfl
  · exact absurd (find_at hi).1 (h i hlt)
  · exact hi

theorem find_byte {b : Byte} {pre post : Bytes} (h : b ∉ pre) : find [b] (pre ++ b :: post) = some pre.length := by
  have hfirst : ∀ i < pre.length, ¬ [b] <+: (pre ++ [b] ++ post).drop i := by
    intro i hi hpre
    rw [List.append_assoc, List.drop_append_of_le_length hi.le, List.drop_eq_getElem_cons hi, List.cons_append,
      List.cons_prefix_cons] at hpre
    exact h (hpre.1 ▸ List.getElem_mem hi)
  have hfind := find_behind hfirst
  rwa [List.append_assoc, List.singleton_append] at hfind

theorem find_byte_none {b : Byte} {s : Bytes} (h : b ∉ s) : find [b] s = none := by
  cases hfind : find [b] s with
  | none => rfl
  | some i =>
    have hmem : b ∈ s.drop i := (find_at hfind).1.subset List.mem_cons_self
    exact absurd (List.mem_of_mem_drop hmem) h

theorem not_mem_of_find {b : Byte} {s : Bytes} (h : find [b] s = none) : b ∉ s := by
  intro hmem
  obtain ⟨pre, post, rfl⟩ := List.append_of_mem hmem
  exact find_none h (List.cons_ne_nil _ _) ⟨pre, post, by rw [List.append_assoc, List.singleton_append]⟩

theorem find_cut {needle s : Bytes} {i : Nat} (h : find needle s = some i) :
    s = s.take i ++ needle ++ s.drop (i + needle.length) ∧ (s.take i).length = i := by
  obtain ⟨⟨rest, hrest⟩, hle⟩ := find_at h
  refine ⟨?_, List.length_take_of_le hle⟩
  rw [← List.drop_drop, ← hrest, List.drop_left, List.append_assoc, hrest, List.take_append_drop]

theorem not_mem_take_find {b : Byte} {s : Bytes} {i : Nat} (h : find [b] s = some i) : b ∉ s.take i := by
  intro hmem
  obtain ⟨pre, post, hsplit⟩ := List.append_of_mem hmem
  have hs : s = pre ++ [b] ++ (post ++ s.drop i) := by
    rw [List.append_assoc, List.singleton_append, ← List.cons_append, ← List.append_assoc, ← hsplit,
      List.take_append_drop]
  have hlen : pre.length < (s.take i).length := by
    rw [hsplit]
    simp
  have := find_le h hs
  have := (find_cut h).2
  omega

/-! ## Placeholders -/

/-- `${name}` or `${name:-dflt}`, without the braces. -/
structure Variable where
  name : Bytes
  dflt : Option Bytes
  plain : ¬ ascii ":-" <:+: name
  closes : ch '\x7d' ∉ name ∧ ∀ d ∈ dflt, ch '\x7d' ∉ d

namespace Variable

def expr (v : Variable) : Bytes := v.dflt.elim v.name (v.name ++ ascii ":-" ++ ·)

theorem ext_expr {v w : Variable} (h : (v.name, v.dflt) = (w.name, w.dflt)) : v = w := by
  obtain ⟨name, dflt, _, _⟩ := v
  obtain ⟨name', dflt', _, _⟩ := w
  obtain ⟨rfl, rfl⟩ := Prod.mk.inj h
  rfl

theorem not_mem_expr (v : Variable) : ch '\x7d' ∉ v.expr := by
  obtain ⟨name, dflt, plain, hname, hdflt⟩ := v
  cases dflt with
  | none => exact hname
  | some d =>
    have hd := hdflt d rfl
    simp only [expr, Option.elim_some, List.mem_append, not_or]
    exact ⟨⟨hname, by decide⟩, hd⟩

/-- A name cannot reach into the dash behind it. -/
theorem splitExpr_expr (v : Variable) : splitExpr v.expr = (v.name, v.dflt) := by
  obtain ⟨name, dflt, plain, _⟩ := v
  cases dflt with
  | none =>
    have hfind : find (ascii ":-") name = none := by
      cases h : find (ascii ":-") name with
      | none => rfl
      | some i => exact absurd ⟨_, _, (find_cut h).1.symm⟩ plain
    simp only [splitExpr, expr, Option.elim_none, hfind]
  | some d =>
    have hfind : find (ascii ":-") (name ++ ascii ":-" ++ d) = some name.length := by
      refine find_behind fun i hi hpre => ?_
      rcases Nat.lt_or_ge (i + 1) name.length with hin | hlast
      · refine plain (List.IsInfix.trans ?_ (List.drop_suffix i name).isInfix)
        rw [List.append_assoc, List.drop_append_of_le_length hi.le] at hpre
        refine (List.prefix_of_prefix_length_le hpre (List.prefix_append _ _) ?_).isInfix
        rw [List.length_drop]
        show 2 ≤ _
        omega
      · rw [List.append_assoc, List.drop_append_of_le_length hi.le, List.drop_eq_getElem_cons hi,
          List.drop_eq_nil_of_le hlast] at hpre
        obtain ⟨-, hdash⟩ := List.cons_prefix_cons.mp hpre
        exact absurd (List.cons_prefix_cons.mp hdash).1 (by decide)
    simp only [splitExpr, expr, Option.elim_some, hfind]
    rw [List.append_assoc, List.take_left, ← List.append_assoc,
      show name.length + 2 = (name ++ ascii ":-").length by rw [List.length_append]; rfl, List.drop_left]

theorem exists_expr {s : Bytes} (h : ch '\x7d' ∉ s) : ∃ v : Variable, v.expr = s := by
  cases hfind : find (ascii ":-") s with
  | none => exact ⟨⟨s, none, find_none hfind (by decide), h, fun d hd => by cases hd⟩, rfl⟩
  | some i =>
    obtain ⟨hcut, hlen⟩ := find_cut hfind
    have hplain : ¬ ascii ":-" <:+: s.take i := by
      rintro ⟨pre, post, hinside⟩
      have hs : s = pre ++ ascii ":-" ++ (post ++ s.drop i) := by
        rw [← List.append_assoc, hinside, List.take_append_drop]
      have hle := find_le hfind hs
      have hshort := congrArg List.length hinside
      have htwo : (ascii ":-").length = 2 := rfl
      simp only [List.length_append, hlen, htwo] at hshort
      omega
    refine ⟨⟨s.take i, some (s.drop (i + 2)), hplain, fun hmem => h (List.mem_of_mem_take hmem), ?_⟩, hcut.symm⟩
    intro d hd hmem
    obtain rfl := Option.some.inj hd
    exact h (List.mem_of_mem_drop hmem)

/-- What the environment gives, and otherwise the default. A name that is empty is never set. -/
def value (environ : Environment) (v : Variable) : Bytes :=
  ((if v.name = [] then none else getenv environ v.name).or v.dflt).getD []

theorem expandVariable_eq (environ : Environment) (v : Variable) :
    expandVariable environ v.name v.dflt = v.value environ := by
  unfold expandVariable value
  cases (if v.name = [] then none else getenv environ v.name) with
  | none => rw [Option.none_or]
  | some envValue => rfl

end Variable

/-! ## Templates -/

def opening : Bytes := ascii "$\x7b"

inductive Piece
  | byte (b : Byte)
  | var (v : Variable)

namespace Piece

def text : Piece → Bytes
  | .byte b => [b]
  | .var v => opening ++ v.expr ++ [ch '\x7d']

def value (environ : Environment) : Piece → Bytes
  | .byte b => [b]
  | .var v => v.value environ

end Piece

def textOf (pieces : List Piece) (rest : Bytes) : Bytes := pieces.flatMap Piece.text ++ rest

/-- No byte opens a placeholder, and what is left over is nothing or a placeholder that does not close. -/
inductive Fit : List Piece → Bytes → Prop
  | nil : Fit [] []
  | unclosed {s : Bytes} (h : ch '\x7d' ∉ s) : Fit [] (opening ++ s)
  | byte {b : Byte} {pieces : List Piece} {rest : Bytes} (h : ¬ opening <+: b :: textOf pieces rest)
      (hfit : Fit pieces rest) : Fit (.byte b :: pieces) rest
  | var (v : Variable) {pieces : List Piece} {rest : Bytes} (hfit : Fit pieces rest) : Fit (.var v :: pieces) rest

structure Template where
  pieces : List Piece
  rest : Bytes
  fit : Fit pieces rest

namespace Template

def text (t : Template) : Bytes := textOf t.pieces t.rest

/-- What is left over stands for itself. -/
def eval (environ : Environment) (t : Template) : Bytes := t.pieces.flatMap (Piece.value environ) ++ t.rest

end Template

theorem textOf_byte (b : Byte) (pieces : List Piece) (rest : Bytes) :
    textOf (.byte b :: pieces) rest = b :: textOf pieces rest := rfl

theorem textOf_var (v : Variable) (pieces : List Piece) (rest : Bytes) :
    textOf (.var v :: pieces) rest = opening ++ (v.expr ++ ch '\x7d' :: textOf pieces rest) := by
  simp [textOf, Piece.text]

theorem opening_prefix_iff {b : Byte} {s : Bytes} :
    opening <+: b :: s ↔ b = ch '$' ∧ s.head? = some (ch '\x7b') := by
  have hopening : opening = [ch '$', ch '\x7b'] := rfl
  rw [hopening, List.cons_prefix_cons]
  cases s with
  | nil => simp
  | cons c s => simp [List.cons_prefix_cons, eq_comm]

/-! ## `expand_string` is the value -/

theorem expandString_byte (environ : Environment) {b : Byte} {s : Bytes} (h : ¬ opening <+: b :: s) :
    expandString environ (b :: s) = b :: expandString environ s := by
  rw [expandString, if_neg (mt opening_prefix_iff.mpr h)]

theorem expandString_unclosed (environ : Environment) {s : Bytes} (h : ch '\x7d' ∉ s) :
    expandString environ (opening ++ s) = opening ++ s := by
  show expandString environ (ch '$' :: ch '\x7b' :: s) = ch '$' :: ch '\x7b' :: s
  rw [expandString, if_pos ⟨rfl, rfl⟩, List.drop_one, List.tail_cons, find_byte_none h]

theorem expandString_var (environ : Environment) (v : Variable) (s : Bytes) :
    expandString environ (opening ++ (v.expr ++ ch '\x7d' :: s)) = v.value environ ++ expandString environ s := by
  show expandString environ (ch '$' :: ch '\x7b' :: (v.expr ++ ch '\x7d' :: s)) = _
  rw [expandString, if_pos ⟨rfl, rfl⟩, List.drop_one, List.tail_cons, find_byte v.not_mem_expr]
  have hrest : (ch '\x7b' :: (v.expr ++ ch '\x7d' :: s)).drop (v.expr.length + 2) = s := by
    rw [List.drop_succ_cons, show v.expr ++ ch '\x7d' :: s = (v.expr ++ [ch '\x7d']) ++ s by simp]
    exact List.drop_left' (by simp)
  simp only [List.take_left, v.splitExpr_expr, v.expandVariable_eq, hrest]

theorem Fit.expandString_eq {pieces : List Piece} {rest : Bytes} (h : Fit pieces rest) (environ : Environment) :
    expandString environ (textOf pieces rest) = pieces.flatMap (Piece.value environ) ++ rest := by
  induction h with
  | nil => rw [textOf, List.flatMap_nil, List.nil_append, expandString]; rfl
  | unclosed h => exact expandString_unclosed environ h
  | byte h hfit ih =>
    rw [textOf_byte, expandString_byte environ h, ih]
    rfl
  | var v hfit ih => rw [textOf_var, expandString_var, ih, List.flatMap_cons, List.append_assoc]; rfl

/-! ## Every text is one template -/

theorem exists_fit (s : Bytes) : ∃ pieces rest, Fit pieces rest ∧ textOf pieces rest = s := by
  induction hlen : s.length using Nat.strong_induction_on generalizing s with
  | h n ih =>
    subst hlen
    by_cases hopen : opening <+: s
    · obtain ⟨inside, rfl⟩ := hopen
      by_cases hclose : ch '\x7d' ∈ inside
      · obtain ⟨inner, s, rfl, hinner⟩ := List.eq_append_cons_of_mem hclose
        obtain ⟨v, rfl⟩ := Variable.exists_expr hinner
        have hshort : s.length < (opening ++ (v.expr ++ ch '\x7d' :: s)).length := by
          simp only [List.length_append, List.length_cons]
          omega
        obtain ⟨pieces, rest, hfit, rfl⟩ := ih s.length hshort s rfl
        exact ⟨.var v :: pieces, rest, .var v hfit, textOf_var v pieces rest⟩
      · exact ⟨[], opening ++ inside, .unclosed hclose, rfl⟩
    · cases s with
      | nil => exact ⟨[], [], .nil, rfl⟩
      | cons b s =>
        obtain ⟨pieces, rest, hfit, rfl⟩ := ih s.length (Nat.lt_succ_self _) s rfl
        exact ⟨.byte b :: pieces, rest, .byte hopen hfit, rfl⟩

/-- The first closing brace is where the inside ends. -/
theorem cut_unique {x y s s' : Bytes} {b : Byte} (hx : b ∉ x) (hy : b ∉ y) (h : x ++ b :: s = y ++ b :: s') :
    x = y ∧ s = s' := by
  have hlen : find [b] (x ++ b :: s) = some x.length := find_byte hx
  rw [h, find_byte hy] at hlen
  obtain ⟨rfl, htail⟩ := List.append_inj h (Option.some.inj hlen).symm
  exact ⟨rfl, (List.cons.inj htail).2⟩

theorem Fit.unique {pieces pieces' : List Piece} {rest rest' : Bytes} (h : Fit pieces rest) (h' : Fit pieces' rest')
    (htext : textOf pieces rest = textOf pieces' rest') : pieces = pieces' ∧ rest = rest' := by
  induction h generalizing pieces' rest' with
  | nil =>
    cases h' with
    | nil => exact ⟨rfl, rfl⟩
    | unclosed => cases htext
    | byte => cases htext
    | var v =>
      rw [textOf_var] at htext
      cases htext
  | @unclosed s h =>
    have hwhole : textOf [] (opening ++ s) = opening ++ s := rfl
    rw [hwhole] at htext
    cases h' with
    | nil => cases htext
    | unclosed => exact ⟨rfl, htext⟩
    | byte hbyte =>
      rw [textOf_byte] at htext
      exact absurd ⟨s, htext⟩ hbyte
    | var v =>
      rw [textOf_var] at htext
      rw [List.append_cancel_left htext] at h
      exact absurd (List.mem_append_right _ List.mem_cons_self) h
  | @byte b pieces rest h hfit ih =>
    rw [textOf_byte] at htext
    cases h' with
    | nil => cases htext
    | unclosed =>
      rw [htext] at h
      exact absurd (List.prefix_append _ _) h
    | byte h' hfit' =>
      rw [textOf_byte] at htext
      obtain ⟨rfl, htail⟩ := List.cons.inj htext
      obtain ⟨rfl, rfl⟩ := ih hfit' htail
      exact ⟨rfl, rfl⟩
    | var v =>
      rw [htext, textOf_var] at h
      exact absurd (List.prefix_append _ _) h
  | @var v pieces rest hfit ih =>
    rw [textOf_var] at htext
    cases h' with
    | nil => cases htext
    | @unclosed s h =>
      have hwhole : textOf [] (opening ++ s) = opening ++ s := rfl
      rw [hwhole] at htext
      rw [← List.append_cancel_left htext] at h
      exact absurd (List.mem_append_right _ List.mem_cons_self) h
    | byte hbyte =>
      rw [textOf_byte] at htext
      rw [← htext] at hbyte
      exact absurd (List.prefix_append _ _) hbyte
    | var w hfit' =>
      rw [textOf_var] at htext
      obtain ⟨hexpr, htail⟩ := cut_unique v.not_mem_expr w.not_mem_expr (List.append_cancel_left htext)
      obtain rfl := Variable.ext_expr (v.splitExpr_expr ▸ w.splitExpr_expr ▸ congrArg splitExpr hexpr)
      obtain ⟨rfl, rfl⟩ := ih hfit' htail
      exact ⟨rfl, rfl⟩

/-- A text is one template, and what a template's text expands to is its value. So the environment is read once for
each placeholder, and what it gives is not expanded again. -/
theorem expandString_template (s : Bytes) :
    (∃! t : Template, t.text = s) ∧ ∀ (t : Template) environ, expandString environ t.text = t.eval environ := by
  constructor
  · obtain ⟨pieces, rest, hfit, htext⟩ := exists_fit s
    refine ⟨⟨pieces, rest, hfit⟩, htext, ?_⟩
    rintro ⟨pieces', rest', hfit'⟩ htext'
    obtain ⟨rfl, rfl⟩ := hfit'.unique hfit (htext'.trans htext.symm)
    rfl
  · rintro ⟨pieces, rest, hfit⟩ environ
    exact hfit.expandString_eq environ

end LlmGuard.Config
