import LlmGuard.Code.Masker
import LlmGuard.Lib.Fresh

/-!
# What masking is for

A call asks for one placeholder per replaced match. Equal originals share a placeholder, and every
placeholder is new to the request. `Proofs.lean` shows that `MaskerState` keeps `MaskingLaw`.
-/

namespace LlmGuard

open Splice

def ScanMatch.span (m : ScanMatch) : Span := (m.start, m.stop)

/-- What a match asks of the masking state. -/
structure Request where
  rule : Rule
  original : Bytes
deriving DecidableEq, Repr

def Request.type (q : Request) : Bytes := q.rule.masking.placeholder

/-- A match without bytes asks for nothing, and so does a rule without a placeholder. -/
def requestOf (text : Bytes) (m : ScanMatch) : Option Request :=
  match m.rule with
  | none => none
  | some cr =>
    if slice text m.start m.stop = [] ∨ cr.rule.masking.placeholder = [] then none
    else some ⟨cr.rule, slice text m.start m.stop⟩

/-- The matches that are replaced. -/
def replacedMatches (text : Bytes) (ms : List ScanMatch) : List ScanMatch :=
  ms.filter fun m => (requestOf text m).isSome

def requests (text : Bytes) (ms : List ScanMatch) : List Request :=
  ms.filterMap (requestOf text)

/-- The arguments of one `mask_text`: the matches are in range, sorted by start and disjoint. -/
structure Call where
  text : Bytes
  ms : List ScanMatch
  ordered : Ordered text.length 0 (ms.map ScanMatch.span)
  ruled : ∀ m ∈ ms, m.rule.isSome

namespace Call

def args (c : Call) : Bytes × List ScanMatch := (c.text, c.ms)

def spans (c : Call) : List Span := (replacedMatches c.text c.ms).map ScanMatch.span

def requests (c : Call) : List Request := LlmGuard.requests c.text c.ms

/-- What is copied from the text to the output. -/
def gaps (c : Call) : List Bytes := Splice.gaps c.text 0 c.spans

end Call

/-- The `n` of a placeholder `<type_n>`. -/
def placeholderIndex (type placeholder : Bytes) : Option Nat :=
  let n := digitsVal ((placeholder.drop (type.length + 2)).dropLast)
  if renderPlaceholder type n = placeholder then some n else none

/-- The indexes of one type, in the order they were minted. -/
def mintedIndexes (type : Bytes) (replacements : List Replacement) : List Nat :=
  replacements.filterMap fun r => placeholderIndex type r.placeholder

def Recorded (replacements : List Replacement) (q : Request) (placeholder : Bytes) : Prop :=
  ∃ r ∈ replacements, r.original = q.original ∧ r.placeholder = placeholder

/-- The output is the text with the recorded placeholder of each original in its place. -/
def WritesRecorded (replacements : List Replacement) (c : Call) (out : Bytes) : Prop :=
  ∃ placeholders, out = weave c.gaps placeholders ∧
    List.Forall₂ (Recorded replacements) c.requests placeholders

/-- The first request of every original. -/
def firstRequests (served : List Request) : List Request :=
  served.foldl (fun firsts q => if firsts.any (·.original = q.original) then firsts else firsts ++ [q]) []

/-- The `k`-th placeholder and what it stands for. The first request of an original gives it its type, and every type
numbers its originals by the numbers that are not reserved. -/
def MintedAt (reserved : List Bytes) (served : List Request) (k : Nat) (placeholder original : Bytes) : Prop :=
  ∃ q c n, (firstRequests served)[k]? = some q ∧ q.original = original ∧ placeholder = renderPlaceholder q.type n ∧
    (Fresh.freeUpTo (renderPlaceholder q.type) reserved c)[((firstRequests served).take k).countP (·.type = q.type)]? =
      some n

/-- The placeholder stands for the original. -/
def Minted (reserved : List Bytes) (served : List Request) (placeholder original : Bytes) : Prop :=
  ∃ k, MintedAt reserved served k placeholder original

/-- The state after `calls`, which wrote `outs`. -/
structure MaskingLaw (reserved : List Bytes) (calls : List Call) (outs : List Bytes) (st : MaskerState) :
    Prop where
  originals_distinct : (st.replacements.map (·.original)).Nodup
  placeholders_distinct : (st.replacements.map (·.placeholder)).Nodup
  never_reserved : ∀ r ∈ st.replacements, r.placeholder ∉ reserved
  /-- The smallest free indexes of every type, in order. -/
  indexes : ∀ type, ∃ c,
    mintedIndexes type st.replacements = Fresh.freeUpTo (renderPlaceholder type) reserved c
  /-- A replacement tells its rule, and its placeholder is of the rule's type. -/
  origins : ∀ r ∈ st.replacements, ∃ q ∈ calls.flatMap Call.requests, ∃ n, 0 < n ∧
    r = ⟨q.rule.id, q.rule.dataType, q.original, renderPlaceholder q.type n⟩
  outputs : List.Forall₂ (WritesRecorded st.replacements) calls outs
  rules_sorted : st.triggeredRules.Pairwise (· < ·)
  rules_exact : ∀ id, id ∈ st.triggeredRules ↔ ∃ q ∈ calls.flatMap Call.requests, q.rule.id = id
  dataTypes_sorted : st.triggeredDataTypes.Pairwise (·.toNat < ·.toNat)
  dataTypes_exact : ∀ dt, dt ∈ st.triggeredDataTypes ↔
    isTriggerableDataType dt ∧ ∃ q ∈ calls.flatMap Call.requests, q.rule.dataType = dt

end LlmGuard
