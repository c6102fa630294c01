import LlmGuard.Code.Json
import LlmGuard.Lib.JsonPlaces

/-!
# Lookups in the parse tree

A path leads from a value to one inside it. A key takes the first member with this decoded key.
-/

namespace LlmGuard.Json

open Rfc8259 (Kind Label Value Items Body Place quoted)

/-- The decoded key of a member. -/
def nameOf : {k : Kind} → Label k → Option Bytes
  | _, .element => none
  | _, .key _ name _ => some (decodeString (quoted name.1))

/-- Which value of a container a segment takes. -/
def segIndex : PathSeg → Value → Option Nat
  | .index i, .group .array items => if i < items.values.length then some i else none
  | .key key, .group .object items => items.labels.findIdx? fun label => nameOf label = some key
  | _, _ => none

/-- The address that a path leads to. -/
def lookup : Value → List PathSeg → Option (List Nat)
  | _, [] => some []
  | v, seg :: path => do
    let j ← segIndex seg v
    let p ← v.child j
    let a ← lookup p.value path
    some (j :: a)

/-- The place that a path leads to. -/
def lookupPlace (v : Value) (path : List PathSeg) : Option Place := (lookup v path).bind v.place

/-- The span of a place, in a document where the text around it starts at `base`. -/
def placeSpan (base : Nat) (p : Place) : ValueSpan :=
  ⟨base + p.before.length, base + p.before.length + p.value.text.length, p.value.text.head? = some (ch '"')⟩

/-- The segment that leads to the item at an index. -/
def segOf {k : Kind} (label : Label k) (j : Nat) : PathSeg :=
  match nameOf label with
  | none => .index j
  | some key => .key key

mutual

/-- The strings among the values, from left to right: their paths and their addresses. -/
def leaves : Value → List (List PathSeg × List Nat)
  | .string _ => [([], [])]
  | .group _ items => itemLeaves 0 items
  | _ => []

def itemLeaves : Nat → {k : Kind} → Items k → List (List PathSeg × List Nat)
  | j, _, .last label _ v _ => (leaves v).map fun l => (segOf label j :: l.1, j :: l.2)
  | j, _, .more label _ v _ rest =>
    (leaves v).map (fun l => (segOf label j :: l.1, j :: l.2)) ++ itemLeaves (j + 1) rest

end

/-- No two members have the same decoded key. -/
def DistinctNames : Value → Prop
  | .group _ items => (items.labels.filterMap nameOf).Nodup
  | _ => True

/-- No object in the value has two members with the same decoded key. -/
def UniqueKeys (v : Value) : Prop := ∀ a p, v.place a = some p → DistinctNames p.value

end LlmGuard.Json
