import LlmGuard.Spec.Bytes

/-!
# The JSON grammar

RFC 8259 over bytes. A value keeps every byte of its text, the white space between its tokens and the
spelling of its numbers and strings too. Bytes from 0x20 on stand for themselves inside a string.
-/

namespace Rfc8259

open LlmGuard (Byte Bytes ch ascii isDigit)

/-! ## Tokens -/

def blank (c : Byte) : Bool := c = ch ' ' || c = 9 || c = 10 || c = 13

def hexDigit (c : Byte) : Bool :=
  (ch '0' ≤ c && c ≤ ch '9') || (ch 'a' ≤ c && c ≤ ch 'f') || (ch 'A' ≤ c && c ≤ ch 'F')

def simpleEscape (e : Byte) : Bool :=
  e = ch '"' || e = ch '\\' || e = ch '/' || e = ch 'b' || e = ch 'f' || e = ch 'n' || e = ch 'r' ||
    e = ch 't'

/-- What stands between the quotes of a string. -/
inductive IsBody : Bytes → Prop
  | nil : IsBody []
  | plain {c : Byte} {s : Bytes} : 0x20 ≤ c → c ≠ ch '"' → c ≠ ch '\\' → IsBody s → IsBody (c :: s)
  | escape {e : Byte} {s : Bytes} : simpleEscape e → IsBody s → IsBody (ch '\\' :: e :: s)
  | unicode {h₁ h₂ h₃ h₄ : Byte} {s : Bytes} : hexDigit h₁ → hexDigit h₂ → hexDigit h₃ → hexDigit h₄ → IsBody s →
      IsBody (ch '\\' :: ch 'u' :: h₁ :: h₂ :: h₃ :: h₄ :: s)

def IsDigits (ds : Bytes) : Prop := ds ≠ [] ∧ ∀ d ∈ ds, isDigit d

/-- No digit follows a leading zero. -/
def IsInteger (ds : Bytes) : Prop := ds = [ch '0'] ∨ IsDigits ds ∧ ds.head? ≠ some (ch '0')

def IsFraction (f : Bytes) : Prop := f = [] ∨ ∃ ds, IsDigits ds ∧ f = ch '.' :: ds

def IsExponent (e : Bytes) : Prop :=
  e = [] ∨ ∃ m sign ds, (m = ch 'e' ∨ m = ch 'E') ∧ (sign = [] ∨ sign = [ch '+'] ∨ sign = [ch '-']) ∧
    IsDigits ds ∧ e = m :: sign ++ ds

def IsNumber (t : Bytes) : Prop :=
  ∃ minus int frac exp, (minus = [] ∨ minus = [ch '-']) ∧ IsInteger int ∧ IsFraction frac ∧ IsExponent exp ∧
    t = minus ++ int ++ frac ++ exp

def literals : List Bytes := [ascii "true", ascii "false", ascii "null"]

def IsScalar (t : Bytes) : Prop := t ∈ literals ∨ IsNumber t

abbrev Ws := { w : Bytes // ∀ c ∈ w, blank c }

abbrev noWs : Ws := ⟨[], by simp⟩

abbrev Body := { s : Bytes // IsBody s }

abbrev Scalar := { t : Bytes // IsScalar t }

def quoted (s : Bytes) : Bytes := ch '"' :: s ++ [ch '"']

/-! ## Values -/

inductive Kind where
  | array
  | object
deriving DecidableEq, Repr

def Kind.opening : Kind → Byte
  | .array => ch '['
  | .object => ch '\x7b'

def Kind.closing : Kind → Byte
  | .array => ch ']'
  | .object => ch '\x7d'

/-- What stands before a value in a container. -/
inductive Label : Kind → Type where
  | element : Label .array
  | key (before : Ws) (name : Body) (after : Ws) : Label .object

def Label.text : {k : Kind} → Label k → Bytes
  | _, .element => []
  | _, .key before name after => before.1 ++ quoted name.1 ++ after.1 ++ [ch ':']

mutual

inductive Value : Type where
  | scalar (t : Scalar)
  | string (s : Body)
  | empty (k : Kind) (w : Ws)
  | group (k : Kind) (items : Items k)

/-- The elements of an array or the members of an object, with the commas between them. -/
inductive Items : Kind → Type where
  | last {k : Kind} (label : Label k) (before : Ws) (v : Value) (after : Ws) : Items k
  | more {k : Kind} (label : Label k) (before : Ws) (v : Value) (after : Ws) (rest : Items k) : Items k

end

mutual

def Value.text : Value → Bytes
  | .scalar t => t.1
  | .string s => quoted s.1
  | .empty k w => k.opening :: w.1 ++ [k.closing]
  | .group k items => k.opening :: items.text ++ [k.closing]

def Items.text : {k : Kind} → Items k → Bytes
  | _, .last label before v after => label.text ++ before.1 ++ v.text ++ after.1
  | _, .more label before v after rest => label.text ++ before.1 ++ v.text ++ after.1 ++ ch ',' :: rest.text

end

/-- A value, and white space around it. -/
structure Reading (doc : Bytes) where
  before : Ws
  value : Value
  after : Ws
  eq : doc = before.1 ++ value.text ++ after.1

/-- What may follow a value. -/
def Stops (rest : Bytes) : Prop :=
  ∀ c ∈ rest.head?, blank c ∨ c = ch ',' ∨ c = ch ']' ∨ c = ch '\x7d'

/-! ## Induction over the values of a container -/

def Items.values : {k : Kind} → Items k → List Value
  | _, .last _ _ v _ => [v]
  | _, .more _ _ v _ rest => v :: rest.values

@[elab_as_elim]
theorem Items.induction {k : Kind} {motive : Items k → Prop}
    (last : ∀ label before v after, motive (.last label before v after))
    (more : ∀ label before v after rest, motive rest → motive (.more label before v after rest)) :
    ∀ items, motive items
  | .last label before v after => last label before v after
  | .more label before v after rest => more label before v after rest (Items.induction last more rest)

mutual

@[elab_as_elim]
theorem Value.induction {motive : Value → Prop} (scalar : ∀ t, motive (.scalar t)) (string : ∀ s, motive (.string s))
    (empty : ∀ k w, motive (.empty k w))
    (group : ∀ k (items : Items k), (∀ v ∈ items.values, motive v) → motive (.group k items)) :
    ∀ v, motive v
  | .scalar t => scalar t
  | .string s => string s
  | .empty k w => empty k w
  | .group k items => group k items (Value.induction_items scalar string empty group items)

theorem Value.induction_items {motive : Value → Prop} (scalar : ∀ t, motive (.scalar t))
    (string : ∀ s, motive (.string s)) (empty : ∀ k w, motive (.empty k w))
    (group : ∀ k (items : Items k), (∀ v ∈ items.values, motive v) → motive (.group k items)) :
    ∀ {k : Kind} (items : Items k), ∀ v ∈ items.values, motive v
  | _, .last _ _ v _ => List.forall_mem_singleton.mpr (Value.induction scalar string empty group v)
  | _, .more _ _ v _ rest => List.forall_mem_cons.mpr
    ⟨Value.induction scalar string empty group v, Value.induction_items scalar string empty group rest⟩

end

end Rfc8259
