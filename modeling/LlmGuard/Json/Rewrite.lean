import LlmGuard.Json.Scoped
import LlmGuard.Json.Splice
import LlmGuard.Json.Tree
import LlmGuard.Json.Unique
import Mathlib.Data.List.Pairwise

/-!
# Strings rewritten by their spans

The strings that change are spliced in, encoded. The decoded tree of the result is the tree with every string
rewritten.
-/

namespace LlmGuard.Json

open Rfc8259 (Value Body Place Ahead Apart quoted)

def encodedBody (s : Bytes) : Body := ⟨encodeBody 0 s, (encodeBody_spec s).1⟩

theorem decode_encodedBody (s : Bytes) : decodeString (quoted (encodedBody s).1) = s := (encodeString_roundTrip s).2

/-- The rewritten string at an address, if it differs. -/
def stringEdit (f : Bytes → Bytes) (v : Value) (l : List PathSeg × List Nat) : Option (List Nat × Value) :=
  match v.place l.2 with
  | some ⟨_, .string b, _⟩ =>
    if f (decodeString (quoted b.1)) = decodeString (quoted b.1) then none
    else some (l.2, .string (encodedBody (f (decodeString (quoted b.1)))))
  | _ => none

def stringEdits (f : Bytes → Bytes) (v : Value) : List (List Nat × Value) := (leaves v).filterMap (stringEdit f v)

theorem stringEdit_string {f : Bytes → Bytes} {v : Value} {l : List PathSeg × List Nat} {p : Place} {b : Body}
    (hp : v.place l.2 = some p) (hb : p.value = .string b) :
    stringEdit f v l = if f (decodeString (quoted b.1)) = decodeString (quoted b.1) then none
      else some (l.2, .string (encodedBody (f (decodeString (quoted b.1))))) := by
  obtain ⟨before, w, behind⟩ := p
  obtain rfl : w = .string b := hb
  unfold stringEdit
  rw [hp]

theorem mem_stringEdits {f : Bytes → Bytes} {v : Value} {e : List Nat × Value} (he : e ∈ stringEdits f v) :
    ∃ p b, v.place e.1 = some p ∧ p.value = .string b ∧ f (decodeString (quoted b.1)) ≠ decodeString (quoted b.1) ∧
      e.2 = .string (encodedBody (f (decodeString (quoted b.1)))) := by
  obtain ⟨l, hl, hedit⟩ := List.mem_filterMap.mp he
  obtain ⟨p, b, hp, hb⟩ := (mem_leaves_iff v l.2).mp ⟨l.1, hl⟩
  rw [stringEdit_string hp hb] at hedit
  split at hedit
  · cases hedit
  · rename_i hne
    obtain rfl := Option.some.inj hedit
    exact ⟨p, b, hp, hb, hne, rfl⟩

theorem stringEdits_apart (f : Bytes → Bytes) (v : Value) :
    (stringEdits f v).Pairwise fun e e' => Apart e.1 e'.1 := by
  have haddress : ∀ l e, stringEdit f v l = some e → e.1 = l.2 := by
    intro l e h
    unfold stringEdit at h
    split at h
    · split at h
      · cases h
      · obtain rfl := Option.some.inj h
        rfl
    · cases h
  unfold stringEdits
  rw [List.pairwise_filterMap]
  refine (leaves_ahead v).imp fun {l m} hahead e he e' he' => ?_
  rw [haddress l e he, haddress m e' he']
  exact .inl hahead

theorem stringEdits_unchanged {f : Bytes → Bytes} {v : Value} {a : List Nat} {p : Place} {b : Body}
    (hp : v.place a = some p) (hb : p.value = .string b)
    (hsame : f (decodeString (quoted b.1)) = decodeString (quoted b.1)) : ∀ e ∈ stringEdits f v, Apart a e.1 := by
  intro e he
  obtain ⟨q, b', hq, hb', hne, -⟩ := mem_stringEdits he
  obtain ⟨path, hpath⟩ := (mem_leaves_iff v a).mpr ⟨p, b, hp, hb⟩
  obtain ⟨path', hpath'⟩ := (mem_leaves_iff v e.1).mpr ⟨q, b', hq, hb'⟩
  have : Std.Symm fun l m : List PathSeg × List Nat => Apart l.2 m.2 := ⟨fun _ _ h => h.symm⟩
  have hapart : (leaves v).Pairwise fun l m => Apart l.2 m.2 := (leaves_ahead v).imp .inl
  refine hapart.forall hpath hpath' fun heq => hne ?_
  obtain ⟨-, rfl⟩ := Prod.mk.inj heq
  obtain rfl := Option.some.inj (hp.symm.trans hq)
  obtain rfl := Value.string.inj (hb.symm.trans hb')
  exact hsame

theorem sameFrame_string (b b' : Body) : SameFrame (.string b) (.string b') := rfl

/-- The value with the edits made has the rewritten tree. -/
theorem setAll_stringEdits {f : Bytes → Bytes} {v : Value} {order : List (List Nat × Value)}
    (hperm : order.Perm (stringEdits f v)) : treeOf (v.setAll order) = (treeOf v).mapStrings f := by
  have hapart : order.Pairwise fun e e' => Apart e.1 e'.1 :=
    (hperm.pairwise_iff fun h => h.symm).mpr (stringEdits_apart f v)
  have hmem : ∀ e ∈ order, ∃ p b, v.place e.1 = some p ∧ p.value = .string b ∧
      e.2 = .string (encodedBody (f (decodeString (quoted b.1)))) := by
    intro e he
    obtain ⟨p, b, hp, hb, -, hvalue⟩ := mem_stringEdits (hperm.mem_iff.mp he)
    exact ⟨p, b, hp, hb, hvalue⟩
  apply treeOf_mapStrings
  · refine sameFrame_setAll hapart fun e he => ?_
    obtain ⟨p, b, hp, hb, hvalue⟩ := hmem e he
    exact ⟨p, hp, by rw [hb, hvalue]; exact sameFrame_string _ _⟩
  · intro a p b hp hb
    by_cases hsame : f (decodeString (quoted b.1)) = decodeString (quoted b.1)
    · have hedits : ∀ e ∈ order, Apart a e.1 := fun e he =>
        stringEdits_unchanged hp hb hsame e (hperm.mem_iff.mp he)
      obtain ⟨q, hq, hvalue⟩ := Value.place_setAll_apart hedits hp
      exact ⟨q, b, hq, hvalue.trans hb, hsame.symm⟩
    · obtain ⟨path, hpath⟩ := (mem_leaves_iff v a).mpr ⟨p, b, hp, hb⟩
      have hedit : (a, Value.string (encodedBody (f (decodeString (quoted b.1))))) ∈ order := by
        apply hperm.mem_iff.mpr
        apply List.mem_filterMap.mpr
        refine ⟨(path, a), hpath, ?_⟩
        rw [stringEdit_string hp hb, if_neg hsame]
      have hplaces : ∀ e ∈ order, (v.place e.1).isSome := by
        intro e he
        obtain ⟨q, -, hq, -⟩ := hmem e he
        rw [hq, Option.isSome_some]
      obtain ⟨q, hq, hvalue⟩ := Value.place_setAll hapart hplaces hedit
      exact ⟨q, _, hq, hvalue, decode_encodedBody _⟩

theorem spliceAll_stringEdits {doc : Bytes} (f : Bytes → Bytes) (t : Rfc8259.Reading doc) :
    ∃ out, spliceAll doc ((stringEdits f t.value).map (editAt t.before.1.length t.value)) = .ok out ∧
      ∃ t' : Rfc8259.Reading out, treeOf t'.value = (treeOf t.value).mapStrings f := by
  have hplaces : ∀ e ∈ stringEdits f t.value, (t.value.place e.1).isSome := by
    intro e he
    obtain ⟨p, -, hp, -⟩ := mem_stringEdits he
    rw [hp, Option.isSome_some]
  obtain ⟨order, hperm, hout⟩ := spliceAll_setAll (Reading.spanOf t).1.doc_eq (stringEdits_apart f t.value) hplaces
  refine ⟨_, hout, ⟨t.before, t.value.setAll order, t.after, (List.append_assoc _ _ _).symm⟩, ?_⟩
  exact setAll_stringEdits hperm

end LlmGuard.Json
