import LlmGuard.Lib.Regexp

/-!
# The syntax of RE2

Which tree RE2 builds from the front of a pattern, and what is left of the pattern. Quantifiers bind to what was
pushed last, so flags and empty quotes may stand before them.
-/

namespace Regexp

open LlmGuard (Byte Bytes ch isDigit digitsVal)
open Utf8

/-- The flags, and whether the pattern is inside `\Q..\E`. -/
structure Mode where
  fold : Bool := false
  multiline : Bool := false
  dotall : Bool := false
  quoted : Bool := false
deriving DecidableEq, Repr

/-! ## Counts -/

/-- A decimal number, as RE2 reads it in a repetition. -/
structure IsCount (ds : Bytes) : Prop where
  digits : ∀ d ∈ ds, isDigit d = true
  pos : 0 < ds.length
  short : ds.length ≤ 9
  zero : ds.head? = some (ch '0') → ds.length = 1

/-- What follows a `{` that begins a repetition. -/
inductive Repetition : Bytes → Nat → Option Nat → Bytes → Prop
  | exactly {ds s : Bytes} : IsCount ds → Repetition (ds ++ ch '\x7d' :: s) (digitsVal ds) (some (digitsVal ds)) s
  | atLeast {ds s : Bytes} : IsCount ds → Repetition (ds ++ ch ',' :: ch '\x7d' :: s) (digitsVal ds) none s
  | between {ds es s : Bytes} : IsCount ds → IsCount es →
      Repetition (ds ++ ch ',' :: (es ++ ch '\x7d' :: s)) (digitsVal ds) (some (digitsVal es)) s

/-- RE2 takes counts up to 1000. -/
def InLimits (min : Nat) (max : Option Nat) : Prop := min ≤ 1000 ∧ ∀ n ∈ max, min ≤ n ∧ n ≤ 1000

/-- A `?` behind a quantifier makes it lazy. -/
def dropLazy : Bytes → Bytes
  | [] => []
  | c :: s => if c = ch '?' then s else c :: s

inductive Quantifier : Bytes → Nat → Option Nat → Bytes → Prop
  | star {s : Bytes} : Quantifier (ch '*' :: s) 0 none (dropLazy s)
  | plus {s : Bytes} : Quantifier (ch '+' :: s) 1 none (dropLazy s)
  | quest {s : Bytes} : Quantifier (ch '?' :: s) 0 (some 1) (dropLazy s)
  | counted {s rest : Bytes} {min : Nat} {max : Option Nat} :
      Repetition s min max rest → InLimits min max → Quantifier (ch '\x7b' :: s) min max (dropLazy rest)

/-! ## Escapes -/

def octal (b : Byte) : Bool := ch '0' ≤ b && b ≤ ch '7'

def hexValue (b : Byte) : Option Nat :=
  if isDigit b then some (b.toNat - 48)
  else if ch 'a' ≤ b && b ≤ ch 'f' then some (b.toNat - 87)
  else if ch 'A' ≤ b && b ≤ ch 'F' then some (b.toNat - 55)
  else none

/-- The value of hexadecimal digits. -/
def hexNumber : Bytes → Option Nat
  | [] => none
  | b :: s => (b :: s).foldlM (fun v d => (hexValue d).map (16 * v + ·)) 0

def octalNumber (ds : Bytes) : Nat := ds.foldl (fun v d => 8 * v + (d.toNat - 48)) 0

/-- The letters of `\n`, `\t`, `\r`, `\f`, `\v` and `\a`. -/
def controls : List (Byte × Char) :=
  [(ch 'n', Char.ofNat 10), (ch 't', Char.ofNat 9), (ch 'r', Char.ofNat 13), (ch 'f', Char.ofNat 12),
    (ch 'v', Char.ofNat 11), (ch 'a', Char.ofNat 7)]

/-- What follows a backslash that stands for one character. -/
inductive EscapedChar : Bytes → Char → Bytes → Prop
  | self {b : Byte} {c : Char} {s : Bytes} : b < 0x80 → wordByte b = false ∨ b = ch '_' → c.toNat = b.toNat →
      EscapedChar (b :: s) c s
  | control {b : Byte} {c : Char} {s : Bytes} : (b, c) ∈ controls → EscapedChar (b :: s) c s
  | octal {ds s : Bytes} {c : Char} : (∀ d ∈ ds, octal d = true) → 1 ≤ ds.length → ds.length ≤ 3 →
      (ds.length < 3 → ∀ b ∈ s.head?, octal b = false) → (ds.head? ≠ some (ch '0') → 2 ≤ ds.length) →
      c.toNat = octalNumber ds → EscapedChar (ds ++ s) c s
  | hex {a b : Byte} {c : Char} {s : Bytes} : hexNumber [a, b] = some c.toNat → EscapedChar (ch 'x' :: a :: b :: s) c s
  | hexBraced {ds s : Bytes} {c : Char} : hexNumber ds = some c.toNat →
      EscapedChar (ch 'x' :: ch '\x7b' :: (ds ++ ch '\x7d' :: s)) c s

/-- The letters of the Perl classes. -/
def perls : List (Byte × Bool × Perl) :=
  [(ch 'd', false, .digit), (ch 's', false, .space), (ch 'w', false, .word), (ch 'D', true, .digit),
    (ch 'S', true, .space), (ch 'W', true, .word)]

/-- The letters of the assertions. -/
def assertions : List (Byte × Assertion) :=
  [(ch 'b', .wordBoundary), (ch 'B', .noWordBoundary), (ch 'A', .beginText), (ch 'z', .endText)]

/-- `p` or `P` and the name of a property, which may be negated inside the braces again. -/
inductive PropertyText : Bytes → ClassItem → Bytes → Prop
  | letter {b c : Byte} {s : Bytes} : b = ch 'p' ∨ b = ch 'P' → ch 'A' ≤ c ∧ c ≤ ch 'Z' →
      PropertyText (b :: c :: s) (.property (b = ch 'P') [c]) s
  | braced {b : Byte} {name s : Bytes} : b = ch 'p' ∨ b = ch 'P' → ch '\x7d' ∉ name → name.head? ≠ some (ch '^') →
      PropertyText (b :: ch '\x7b' :: (name ++ ch '\x7d' :: s)) (.property (b = ch 'P') name) s
  | excluded {b : Byte} {name s : Bytes} : b = ch 'p' ∨ b = ch 'P' → ch '\x7d' ∉ name →
      PropertyText (b :: ch '\x7b' :: ch '^' :: (name ++ ch '\x7d' :: s)) (.property (b ≠ ch 'P') name) s

inductive Escape (m : Mode) : Bytes → Tree → Bytes → Prop
  | char {s s' : Bytes} {c : Char} : EscapedChar s c s' → Escape m s (.literal m.fold c) s'
  | perl {b : Byte} {negated : Bool} {p : Perl} {s : Bytes} : (b, negated, p) ∈ perls →
      Escape m (b :: s) (.charClass m.fold false [.perl negated p]) s
  | property {s s' : Bytes} {item : ClassItem} : PropertyText s item s' → Escape m s (.charClass m.fold false [item]) s'
  | assertion {b : Byte} {a : Assertion} {s : Bytes} : (b, a) ∈ assertions → Escape m (b :: s) (.assertion a) s
  | anyByte {s : Bytes} : Escape m (ch 'C' :: s) .anyByte s

/-! ## Bracket expressions -/

inductive ClassChar : Bytes → Char → Bytes → Prop
  | plain {c : Char} {s : Bytes} : c ≠ '\\' → ClassChar (encode c ++ s) c s
  | escaped {s s' : Bytes} {c : Char} : EscapedChar s c s' → ClassChar (ch '\\' :: s) c s'

/-- A `[:` that is closed somewhere must name a class. -/
def PosixStart (s : Bytes) : Prop := ∃ name rest, s = ch '[' :: ch ':' :: (name ++ ch ':' :: ch ']' :: rest)

inductive ItemText : Bytes → ClassItem → Bytes → Prop
  | posix {p : Posix} {s : Bytes} : ItemText (ch '[' :: ch ':' :: (p.name ++ ch ':' :: ch ']' :: s)) (.posix false p s) s
  | notPosix {p : Posix} {s : Bytes} :
      ItemText (ch '[' :: ch ':' :: ch '^' :: (p.name ++ ch ':' :: ch ']' :: s)) (.posix true p s) s
  | property {s s' : Bytes} {item : ClassItem} : PropertyText s item s' → ItemText (ch '\\' :: s) item s'
  | perl {b : Byte} {negated : Bool} {p : Perl} {s : Bytes} : (b, negated, p) ∈ perls →
      ItemText (ch '\\' :: b :: s) (.perl negated p) s
  | char {s s' : Bytes} {c : Char} : ¬ PosixStart s → ClassChar s c s' →
      (∀ b t, s' = ch '-' :: b :: t → b = ch ']') → ItemText s (.range c c) s'
  | range {s s₁ s' : Bytes} {lo hi : Char} : ¬ PosixStart s → ClassChar s lo (ch '-' :: s₁) → s₁.head? ≠ some (ch ']') →
      ClassChar s₁ hi s' → lo.toNat ≤ hi.toNat → ItemText s (.range lo hi) s'

/-- The items of a bracket expression and its end. A bracket in front of them is one of them. -/
inductive ItemsText : Bool → Bytes → List ClassItem → Bytes → Prop
  | close {s : Bytes} : ItemsText false (ch ']' :: s) [] s
  | item {first : Bool} {s s₁ s' : Bytes} {item : ClassItem} {items : List ClassItem} :
      first = true ∨ s.head? ≠ some (ch ']') → ItemText s item s₁ → ItemsText false s₁ items s' →
      ItemsText first s (item :: items) s'

/-- What follows `[`. -/
inductive ClassText : Bytes → Bool → List ClassItem → Bytes → Prop
  | plain {s s' : Bytes} {items : List ClassItem} : s.head? ≠ some (ch '^') → ItemsText true s items s' →
      ClassText s false items s'
  | negated {s s' : Bytes} {items : List ClassItem} : ItemsText true s items s' → ClassText (ch '^' :: s) true items s'

/-! ## Flags and quotes -/

def flagByte (b : Byte) : Bool := b = ch 'i' || b = ch 'm' || b = ch 's' || b = ch 'U'

def Mode.set (m : Mode) (on off : Bytes) : Mode :=
  { m with
    fold := (m.fold || on.contains (ch 'i')) && !off.contains (ch 'i')
    multiline := (m.multiline || on.contains (ch 'm')) && !off.contains (ch 'm')
    dotall := (m.dotall || on.contains (ch 's')) && !off.contains (ch 's') }

/-- The flags between `(?` and `)` or `:`. -/
inductive FlagText (m : Mode) : Bytes → Mode → Prop
  | on {on : Bytes} : on.all flagByte → FlagText m on (m.set on [])
  | off {on off : Bytes} : on.all flagByte → off.all flagByte → off ≠ [] → FlagText m (on ++ ch '-' :: off) (m.set on off)

/-- What changes the mode and pushes nothing. -/
inductive Setter : Mode → Bytes → Mode → Bytes → Prop
  | flags {m m' : Mode} {fs s : Bytes} : m.quoted = false → FlagText m fs m' →
      Setter m (ch '(' :: ch '?' :: (fs ++ ch ')' :: s)) m' s
  | quote {m : Mode} {s : Bytes} : m.quoted = false → Setter m (ch '\\' :: ch 'Q' :: s) { m with quoted := true } s
  | unquote {m : Mode} {s : Bytes} : m.quoted = true → Setter m (ch '\\' :: ch 'E' :: s) { m with quoted := false } s

inductive Gap : Mode → Bytes → Mode → Bytes → Prop
  | nil {m : Mode} {s : Bytes} : Gap m s m s
  | cons {m m₁ m' : Mode} {s s₁ s' : Bytes} : Setter m s m₁ s₁ → Gap m₁ s₁ m' s' → Gap m s m' s'

/-- What becomes of an operand by the quantifiers behind it. Right behind a quantifier there is none. -/
inductive Suffix : Bool → Mode → Bytes → Tree → Mode → Bytes → Tree → Prop
  | done {stacked : Bool} {m : Mode} {s : Bytes} {t : Tree} : Suffix stacked m s t m s t
  | here {m m' : Mode} {s s₁ s' : Bytes} {min : Nat} {max : Option Nat} {t t' : Tree} : m.quoted = false →
      Quantifier s min max s₁ → Suffix true m s₁ (.repeat false min max t) m' s' t' → Suffix false m s t m' s' t'
  | apart {stacked : Bool} {m m₁ m₂ m' : Mode} {s s₁ s₂ s₃ s' : Bytes} {min : Nat} {max : Option Nat} {t t' : Tree} :
      Setter m s m₁ s₁ → Gap m₁ s₁ m₂ s₂ → m₂.quoted = false → Quantifier s₂ min max s₃ →
      Suffix true m₂ s₃ (.repeat true min max t) m' s' t' → Suffix stacked m s t m' s' t'

/-! ## Patterns -/

/-- The bytes that are no literals outside of quotes. -/
def metaByte (b : Byte) : Bool :=
  b = ch '\\' || b = ch '^' || b = ch '$' || b = ch '.' || b = ch '[' || b = ch '(' || b = ch ')' || b = ch '|' ||
    b = ch '*' || b = ch '+' || b = ch '?' || b = ch '\x7b'

mutual

inductive Alternation : Mode → Bytes → Tree → Mode → Bytes → Prop
  | one {m m' : Mode} {s s' : Bytes} {t : Tree} : Pieces m s t m' s' → s'.head? ≠ some (ch '|') →
      Alternation m s t m' s'
  | more {m m₁ m' : Mode} {s s₁ s' : Bytes} {t u : Tree} : Pieces m s t m₁ (ch '|' :: s₁) → Alternation m₁ s₁ u m' s' →
      Alternation m s (.alt t u) m' s'

inductive Pieces : Mode → Bytes → Tree → Mode → Bytes → Prop
  | done {m : Mode} {s : Bytes} : s = [] ∨ m.quoted = false ∧ (s.head? = some (ch '|') ∨ s.head? = some (ch ')')) →
      Pieces m s .empty m s
  | flags {m m₁ m' : Mode} {s s₁ s' : Bytes} {t : Tree} : Setter m s m₁ s₁ → m₁.quoted = false →
      Pieces m₁ s₁ t m' s' → Pieces m s t m' s'
  | quote {m m₁ m' : Mode} {s s₁ s' : Bytes} {t : Tree} : Setter m s m₁ s₁ → m₁.quoted = true →
      Pieces m₁ s₁ t m' s' → Pieces m s (.quote s₁ t) m' s'
  | piece {m m₁ m' : Mode} {s s₁ s₂ s' : Bytes} {t t' u : Tree} : Atom m s t s₁ → Suffix false m s₁ t m₁ s₂ t' →
      Pieces m₁ s₂ u m' s' → Pieces m s (.cat t' u) m' s'

inductive Atom : Mode → Bytes → Tree → Bytes → Prop
  | literal {m : Mode} {c : Char} {s : Bytes} : m.quoted = false → (∀ b ∈ (encode c).head?, metaByte b = false) →
      Atom m (encode c ++ s) (.literal m.fold c) s
  | quoted {m : Mode} {c : Char} {s : Bytes} : m.quoted = true → (∀ t, encode c ++ s ≠ ch '\\' :: ch 'E' :: t) →
      Atom m (encode c ++ s) (.literal m.fold c) s
  | brace {m : Mode} {s : Bytes} : m.quoted = false → (∀ min max rest, ¬ Repetition s min max rest) →
      Atom m (ch '\x7b' :: s) (.brace m.fold s) s
  | caret {m : Mode} {s : Bytes} : m.quoted = false →
      Atom m (ch '^' :: s) (.assertion (if m.multiline then .beginLine else .beginText)) s
  | dollar {m : Mode} {s : Bytes} : m.quoted = false →
      Atom m (ch '$' :: s) (.assertion (if m.multiline then .endLine else .endText)) s
  | dot {m : Mode} {s : Bytes} : m.quoted = false → Atom m (ch '.' :: s) (.anyChar m.dotall) s
  | charClass {m : Mode} {negated : Bool} {items : List ClassItem} {s s' : Bytes} : m.quoted = false →
      ClassText s negated items s' → Atom m (ch '[' :: s) (.charClass m.fold negated items) s'
  | escape {m : Mode} {s s' : Bytes} {t : Tree} : m.quoted = false → Escape m s t s' → Atom m (ch '\\' :: s) t s'
  | capture {m m' : Mode} {s s' : Bytes} {t : Tree} : m.quoted = false → s.head? ≠ some (ch '?') →
      Alternation m s t m' (ch ')' :: s') → Atom m (ch '(' :: s) (.capture t) s'
  | named {m m' : Mode} {opening name s s' : Bytes} {t : Tree} : m.quoted = false →
      opening = [ch 'P', ch '<'] ∨ opening = [ch '<'] → ch '>' ∉ name →
      Alternation m s t m' (ch ')' :: s') → Atom m (ch '(' :: ch '?' :: (opening ++ (name ++ ch '>' :: s))) (.capture t) s'
  | flagged {m m₁ m' : Mode} {fs s s' : Bytes} {t : Tree} : m.quoted = false → FlagText m fs m₁ →
      Alternation m₁ s t m' (ch ')' :: s') → Atom m (ch '(' :: ch '?' :: (fs ++ ch ':' :: s)) t s'

end

/-- The tree of a whole pattern. -/
def Reads (pattern : Bytes) (t : Tree) : Prop := ∃ m, Alternation {} pattern t m []

end Regexp
