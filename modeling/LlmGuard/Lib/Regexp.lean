import LlmGuard.Lib.Utf8Text
import LlmGuard.Spec.Bytes

/-!
# Regular expressions over UTF-8

Trees with the constructs that RE2 documents, and the words that they match in a text. What Unicode says about
cases and properties is a parameter.
-/

namespace Regexp

open LlmGuard (Byte Bytes ch isDigit)
open Utf8

structure Unicode where
  /-- Simple case folding takes the two characters to one. -/
  variant : Char → Char → Prop
  /-- The characters with a property, by its name. -/
  property : Bytes → Char → Prop

/-! ## Character classes -/

/-- `\d`, `\s` and `\w`, which know ASCII only. -/
inductive Perl where
  | digit
  | space
  | word
deriving DecidableEq, Repr

def Perl.ranges : Perl → List (Nat × Nat)
  | .digit => [(0x30, 0x39)]
  | .space => [(0x09, 0x0a), (0x0c, 0x0d), (0x20, 0x20)]
  | .word => [(0x30, 0x39), (0x41, 0x5a), (0x5f, 0x5f), (0x61, 0x7a)]

/-- The names that stand between `[:` and `:]`. -/
inductive Posix where
  | alnum
  | alpha
  | ascii
  | blank
  | cntrl
  | digit
  | graph
  | lower
  | print
  | punct
  | space
  | upper
  | word
  | xdigit
deriving DecidableEq, Repr

def Posix.name : Posix → Bytes
  | .alnum => LlmGuard.ascii "alnum"
  | .alpha => LlmGuard.ascii "alpha"
  | .ascii => LlmGuard.ascii "ascii"
  | .blank => LlmGuard.ascii "blank"
  | .cntrl => LlmGuard.ascii "cntrl"
  | .digit => LlmGuard.ascii "digit"
  | .graph => LlmGuard.ascii "graph"
  | .lower => LlmGuard.ascii "lower"
  | .print => LlmGuard.ascii "print"
  | .punct => LlmGuard.ascii "punct"
  | .space => LlmGuard.ascii "space"
  | .upper => LlmGuard.ascii "upper"
  | .word => LlmGuard.ascii "word"
  | .xdigit => LlmGuard.ascii "xdigit"

def Posix.ranges : Posix → List (Nat × Nat)
  | .alnum => [(0x30, 0x39), (0x41, 0x5a), (0x61, 0x7a)]
  | .alpha => [(0x41, 0x5a), (0x61, 0x7a)]
  | .ascii => [(0x00, 0x7f)]
  | .blank => [(0x09, 0x09), (0x20, 0x20)]
  | .cntrl => [(0x00, 0x1f), (0x7f, 0x7f)]
  | .digit => [(0x30, 0x39)]
  | .graph => [(0x21, 0x7e)]
  | .lower => [(0x61, 0x7a)]
  | .print => [(0x20, 0x7e)]
  | .punct => [(0x21, 0x2f), (0x3a, 0x40), (0x5b, 0x60), (0x7b, 0x7e)]
  | .space => [(0x09, 0x0d), (0x20, 0x20)]
  | .upper => [(0x41, 0x5a)]
  | .word => [(0x30, 0x39), (0x41, 0x5a), (0x5f, 0x5f), (0x61, 0x7a)]
  | .xdigit => [(0x30, 0x39), (0x41, 0x46), (0x61, 0x66)]

def InRanges (rs : List (Nat × Nat)) (c : Char) : Prop := ∃ r ∈ rs, r.1 ≤ c.toNat ∧ c.toNat ≤ r.2

inductive ClassItem where
  | range (lo hi : Char)
  | perl (negated : Bool) (p : Perl)
  /-- With the pattern behind it. -/
  | posix (negated : Bool) (p : Posix) (behind : Bytes)
  | property (negated : Bool) (name : Bytes)

def ClassItem.negated : ClassItem → Bool
  | .range _ _ => false
  | .perl negated _ => negated
  | .posix negated _ _ => negated
  | .property negated _ => negated

/-- The characters that the item lists, or excludes. -/
def ClassItem.Lists (U : Unicode) : ClassItem → Char → Prop
  | .range lo hi, c => lo.toNat ≤ c.toNat ∧ c.toNat ≤ hi.toNat
  | .perl _ p, c => InRanges p.ranges c
  | .posix _ p _, c => InRanges p.ranges c
  | .property _ name, c => U.property name c

/-- The second character is the first one, or another case of it where case does not count. -/
def Same (U : Unicode) (fold : Bool) (c d : Char) : Prop := d = c ∨ fold = true ∧ U.variant c d

/-- Cases are folded before an excluding item is negated. -/
def ClassItem.Holds (U : Unicode) (fold : Bool) (item : ClassItem) (d : Char) : Prop :=
  item.negated = false ↔ ∃ c, item.Lists U c ∧ Same U fold c d

/-- The other cases of ASCII characters, with the long s and the Kelvin sign. -/
def FoldsAscii (U : Unicode) : Prop :=
  ∀ {c d : Char}, c.toNat < 0x80 → U.variant c d → d.toNat < 0x80 ∧ d.toLower = c.toLower ∨
    (c = 's' ∨ c = 'S') ∧ d = '\u017F' ∨ (c = 'k' ∨ c = 'K') ∧ d = '\u212A'

/-- ASCII characters have these cases and no others. -/
def FoldsCases (U : Unicode) : Prop :=
  ∀ {c d : Char}, c.toNat < 0x80 → (U.variant c d ↔ d.toNat < 0x80 ∧ d.toLower = c.toLower ∨
    (c = 's' ∨ c = 'S') ∧ d = '\u017F' ∨ (c = 'k' ∨ c = 'K') ∧ d = '\u212A')

theorem FoldsCases.folds {U : Unicode} (h : FoldsCases U) : FoldsAscii U := fun hc => (h hc).mp

/-- No other cases than these. -/
def asciiUnicode : Unicode where
  variant c d := c.toNat < 0x80 ∧ d.toNat < 0x80 ∧ d.toLower = c.toLower ∨
    (c = 's' ∨ c = 'S') ∧ d = '\u017F' ∨ (c = 'k' ∨ c = 'K') ∧ d = '\u212A'
  property _ _ := False

theorem asciiUnicode_folds : FoldsAscii asciiUnicode := fun _ h => h.imp_left And.right

theorem asciiUnicode_cases : FoldsCases asciiUnicode := fun hc => or_congr_left (and_iff_right hc)

/-! ## Trees -/

inductive Assertion where
  | beginText
  | endText
  | beginLine
  | endLine
  | wordBoundary
  | noWordBoundary
deriving DecidableEq, Repr

def wordByte (b : Byte) : Bool :=
  (ch '0' ≤ b && b ≤ ch '9') || (ch 'A' ≤ b && b ≤ ch 'Z') || (ch 'a' ≤ b && b ≤ ch 'z') || b = ch '_'

/-- What an assertion says of the text before a place and behind it. -/
def Assertion.Holds : Assertion → Bytes → Bytes → Prop
  | .beginText, before, _ => before = []
  | .endText, _, after => after = []
  | .beginLine, before, _ => before = [] ∨ before.getLast? = some 10
  | .endLine, _, after => after = [] ∨ after.head? = some 10
  | .wordBoundary, before, after => before.getLast?.any wordByte ≠ after.head?.any wordByte
  | .noWordBoundary, before, after => before.getLast?.any wordByte = after.head?.any wordByte

inductive Tree where
  | empty
  | literal (fold : Bool) (c : Char)
  /-- A brace that begins no repetition, and the pattern behind it. -/
  | brace (fold : Bool) (behind : Bytes)
  | anyChar (newline : Bool)
  | anyByte
  | charClass (fold negated : Bool) (items : List ClassItem)
  | assertion (a : Assertion)
  | cat (s t : Tree)
  | alt (s t : Tree)
  /-- Whether flags or quotes stand between the operand and its quantifier, and the counts. -/
  | repeat (apart : Bool) (min : Nat) (max : Option Nat) (t : Tree)
  /-- A quote begins here. With the pattern behind `\Q`. -/
  | quote (behind : Bytes) (t : Tree)
  | capture (t : Tree)

/-! ## Matching -/

/-- The tree matches a word, between the text before it and the text behind it. -/
inductive Matches (U : Unicode) : Tree → Bytes → Bytes → Bytes → Prop
  | empty {before after : Bytes} : Matches U .empty before [] after
  | literal {fold : Bool} {c d : Char} {before after : Bytes} :
      Same U fold c d → Matches U (.literal fold c) before (encode d) after
  | brace {fold : Bool} {behind : Bytes} {d : Char} {before after : Bytes} :
      Same U fold '\x7b' d → Matches U (.brace fold behind) before (encode d) after
  | anyChar {newline : Bool} {d : Char} {before after : Bytes} :
      newline = true ∨ d ≠ '\n' → Matches U (.anyChar newline) before (encode d) after
  | anyByte {b : Byte} {before after : Bytes} : Matches U .anyByte before [b] after
  | charClass {fold negated : Bool} {items : List ClassItem} {d : Char} {before after : Bytes} :
      (negated = false ↔ ∃ item ∈ items, item.Holds U fold d) →
      Matches U (.charClass fold negated items) before (encode d) after
  | assertion {a : Assertion} {before after : Bytes} : a.Holds before after → Matches U (.assertion a) before [] after
  | cat {s t : Tree} {before x y after : Bytes} : Matches U s before x (y ++ after) → Matches U t (before ++ x) y after →
      Matches U (.cat s t) before (x ++ y) after
  | left {s t : Tree} {before x after : Bytes} : Matches U s before x after → Matches U (.alt s t) before x after
  | right {s t : Tree} {before x after : Bytes} : Matches U t before x after → Matches U (.alt s t) before x after
  | stop {apart : Bool} {max : Option Nat} {t : Tree} {before after : Bytes} :
      Matches U (.repeat apart 0 max t) before [] after
  | more {apart : Bool} {min : Nat} {max : Option Nat} {t : Tree} {before x y after : Bytes} :
      max ≠ some 0 → Matches U t before x (y ++ after) →
      Matches U (.repeat apart (min - 1) (max.map (· - 1)) t) (before ++ x) y after →
      Matches U (.repeat apart min max t) before (x ++ y) after
  | quote {t : Tree} {before x after behind : Bytes} : Matches U t before x after →
      Matches U (.quote behind t) before x after
  | capture {t : Tree} {before x after : Bytes} : Matches U t before x after → Matches U (.capture t) before x after

/-- The capturing groups of a tree. -/
def Tree.groups : Tree → Nat
  | .cat s t | .alt s t => s.groups + t.groups
  | .repeat _ _ _ t | .quote _ t => t.groups
  | .capture t => t.groups + 1
  | .empty | .literal _ _ | .brace _ _ | .anyChar _ | .anyByte | .charClass _ _ _ | .assertion _ => 0

/-- In a match of the word, group `n`, counted from 0, holds the last argument in one of its rounds. -/
inductive Captures (U : Unicode) : Nat → Tree → Bytes → Bytes → Bytes → Bytes → Prop
  | here {t : Tree} {before x after : Bytes} : Matches U t before x after → Captures U 0 (.capture t) before x after x
  | inside {n : Nat} {t : Tree} {before x after g : Bytes} : Captures U n t before x after g →
      Captures U (n + 1) (.capture t) before x after g
  | first {n : Nat} {s t : Tree} {before x y after g : Bytes} : Captures U n s before x (y ++ after) g →
      Matches U t (before ++ x) y after → Captures U n (.cat s t) before (x ++ y) after g
  | second {n : Nat} {s t : Tree} {before x y after g : Bytes} : Matches U s before x (y ++ after) →
      Captures U n t (before ++ x) y after g → Captures U (s.groups + n) (.cat s t) before (x ++ y) after g
  | left {n : Nat} {s t : Tree} {before x after g : Bytes} : Captures U n s before x after g →
      Captures U n (.alt s t) before x after g
  | right {n : Nat} {s t : Tree} {before x after g : Bytes} : Captures U n t before x after g →
      Captures U (s.groups + n) (.alt s t) before x after g
  | round {n min : Nat} {apart : Bool} {max : Option Nat} {t : Tree} {before x y after g : Bytes} : max ≠ some 0 →
      Captures U n t before x (y ++ after) g →
      Matches U (.repeat apart (min - 1) (max.map (· - 1)) t) (before ++ x) y after →
      Captures U n (.repeat apart min max t) before (x ++ y) after g
  | more {n min : Nat} {apart : Bool} {max : Option Nat} {t : Tree} {before x y after g : Bytes} : max ≠ some 0 →
      Matches U t before x (y ++ after) →
      Captures U n (.repeat apart (min - 1) (max.map (· - 1)) t) (before ++ x) y after g →
      Captures U n (.repeat apart min max t) before (x ++ y) after g
  | quote {n : Nat} {t : Tree} {before x after behind g : Bytes} : Captures U n t before x after g →
      Captures U n (.quote behind t) before x after g

/-- Every match goes through the group, and only once. -/
def Tree.passes : Nat → Tree → Bool
  | n, .cat s t => if n < s.groups then s.passes n else t.passes (n - s.groups)
  | n, .quote _ t => t.passes n
  | 0, .capture _ => true
  | n + 1, .capture t => t.passes n
  | _, _ => false

section Captures

variable {U : Unicode} {n : Nat} {t : Tree} {before w after g : Bytes}

theorem Captures.matches (h : Captures U n t before w after g) : Matches U t before w after := by
  induction h with
  | here h => exact .capture h
  | inside _ ih => exact .capture ih
  | first _ h ih => exact .cat ih h
  | second h _ ih => exact .cat h ih
  | left _ ih => exact .left ih
  | right _ ih => exact .right ih
  | round hmax _ h ih => exact .more hmax ih h
  | more hmax h _ ih => exact .more hmax h ih
  | quote _ ih => exact .quote ih

theorem Captures.lt_groups (h : Captures U n t before w after g) : n < t.groups := by
  induction h with
  | here => exact Nat.succ_pos _
  | inside _ ih => exact Nat.succ_lt_succ ih
  | first _ _ ih | left _ ih => exact Nat.lt_add_right _ ih
  | second _ _ ih | right _ ih => exact Nat.add_lt_add_left ih _
  | round _ _ _ ih | more _ _ _ ih | quote _ ih => exact ih

theorem Captures.of_passes (hpasses : t.passes n = true) (h : Matches U t before w after) :
    ∃ g, Captures U n t before w after g := by
  induction t generalizing n before w after with
  | cat s t ihs iht =>
    cases h with
    | cat hs ht =>
      unfold Tree.passes at hpasses
      split at hpasses
      · obtain ⟨g, hg⟩ := ihs hpasses hs
        exact ⟨g, .first hg ht⟩
      · rename_i hn
        obtain ⟨g, hg⟩ := iht hpasses ht
        have := hg.second hs
        rw [Nat.add_sub_cancel' (Nat.le_of_not_lt hn)] at this
        exact ⟨g, this⟩
  | quote behind t ih =>
    cases h with
    | quote h =>
      obtain ⟨g, hg⟩ := ih hpasses h
      exact ⟨g, .quote hg⟩
  | capture t ih =>
    cases h with
    | capture h =>
      cases n with
      | zero => exact ⟨w, .here h⟩
      | succ n =>
        obtain ⟨g, hg⟩ := ih hpasses h
        exact ⟨g, .inside hg⟩
  | _ => cases n <;> cases hpasses

theorem captures_cat_iff {s : Tree} (hs : s.groups = 0) : Captures U 0 (.cat s t) before w after g ↔
    ∃ x y, w = x ++ y ∧ Matches U s before x (y ++ after) ∧ Captures U 0 t (before ++ x) y after g := by
  constructor
  · intro h
    generalize hn : 0 = n at h
    cases h with
    | first h _ => exact absurd h.lt_groups (by omega)
    | second h hg =>
      obtain rfl : _ = 0 := Nat.eq_zero_of_add_eq_zero_left hn.symm
      rw [hs]
      exact ⟨_, _, rfl, h, hg⟩
  · rintro ⟨x, y, rfl, h, hg⟩
    have := hg.second h
    rwa [hs] at this

theorem captures_cat_front_iff {s : Tree} (hs : 0 < s.groups) : Captures U 0 (.cat s t) before w after g ↔
    ∃ x y, w = x ++ y ∧ Captures U 0 s before x (y ++ after) g ∧ Matches U t (before ++ x) y after := by
  constructor
  · intro h
    generalize hn : 0 = n at h
    cases h with
    | first hg h => exact ⟨_, _, rfl, hn ▸ hg, h⟩
    | second _ hg => exact absurd hn (by omega)
  · rintro ⟨x, y, rfl, hg, h⟩
    exact .first hg h

end Captures

end Regexp
