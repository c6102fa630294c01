import LlmGuard.Json.Spec
import LlmGuard.Json.Strings

/-!
# Decoded trees

What a document says: its nesting, its numbers and literals, its keys and strings decoded. The white space and the
spelling of the strings are gone.
-/

namespace LlmGuard.Json

open Rfc8259 (Kind Label Value Items Body Scalar Place quoted)

/-- The items of an array have no key. -/
inductive Tree where
  | scalar (t : Scalar)
  | string (s : Bytes)
  | group (k : Kind) (items : List (Option Bytes × Tree))

mutual

def treeOf : Value → Tree
  | .scalar t => .scalar t
  | .string b => .string (decodeString (quoted b.1))
  | .empty k _ => .group k []
  | .group k items => .group k (treesOf items)

def treesOf : {k : Kind} → Items k → List (Option Bytes × Tree)
  | _, .last label _ v _ => [(nameOf label, treeOf v)]
  | _, .more label _ v _ rest => (nameOf label, treeOf v) :: treesOf rest

end

mutual

/-- The tree with every string replaced. The keys stay. -/
def Tree.mapStrings (f : Bytes → Bytes) : Tree → Tree
  | .scalar t => .scalar t
  | .string s => .string (f s)
  | .group k items => .group k (mapItems f items)

def mapItems (f : Bytes → Bytes) : List (Option Bytes × Tree) → List (Option Bytes × Tree)
  | [] => []
  | (key, t) :: items => (key, t.mapStrings f) :: mapItems f items

end

theorem treesOf_eq {k : Kind} (items : Items k) :
    treesOf items = (items.labels.map nameOf).zip (items.values.map treeOf) := by
  induction items using Items.induction with
  | last => rfl
  | more label before v after rest ih =>
    rw [treesOf, ih]
    rfl

theorem mapItems_zip (f : Bytes → Bytes) (keys : List (Option Bytes)) (ts : List Tree) :
    mapItems f (keys.zip ts) = keys.zip (ts.map (Tree.mapStrings f)) := by
  induction keys generalizing ts with
  | nil => rfl
  | cons key keys ih =>
    cases ts with
    | nil => rfl
    | cons t ts => simp only [List.zip_cons_cons, mapItems, ih, List.map_cons]

/-- The strings of both trees may differ, and nothing else. -/
def SameFrame (v w : Value) : Prop := (treeOf v).mapStrings (fun _ => []) = (treeOf w).mapStrings fun _ => []

theorem sameFrame_refl (v : Value) : SameFrame v v := rfl

theorem SameFrame.trans {u v w : Value} (h : SameFrame u v) (h' : SameFrame v w) : SameFrame u w := Eq.trans h h'

theorem treesOf_ne_nil {k : Kind} (items : Items k) : treesOf items ≠ [] := by
  cases items <;> exact List.cons_ne_nil _ _

theorem mapStrings_group {f : Bytes → Bytes} {t : Tree} {k : Kind} {items : List (Option Bytes × Tree)}
    (h : t.mapStrings f = .group k items) : ∃ items', t = .group k items' ∧ mapItems f items' = items := by
  cases t with
  | scalar t => cases h
  | string s => cases h
  | group k' items' =>
    obtain ⟨rfl, hitems⟩ := Tree.group.inj h
    exact ⟨items', rfl, hitems⟩

theorem mapItems_length (f : Bytes → Bytes) (items : List (Option Bytes × Tree)) :
    (mapItems f items).length = items.length := by
  induction items with
  | nil => rfl
  | cons item items ih => simp only [mapItems, List.length_cons, ih]

mutual

theorem mapStrings_comp (f g : Bytes → Bytes) : ∀ t : Tree, (t.mapStrings f).mapStrings g = t.mapStrings (g ∘ f)
  | .scalar _ => rfl
  | .string _ => rfl
  | .group k items => congrArg (Tree.group k) (mapItems_comp f g items)

theorem mapItems_comp (f g : Bytes → Bytes) : ∀ items, mapItems g (mapItems f items) = mapItems (g ∘ f) items
  | [] => rfl
  | (_, t) :: items => congrArg₂ (fun t items => (_, t) :: items) (mapStrings_comp f g t) (mapItems_comp f g items)

end

mutual

theorem mapStrings_id : ∀ t : Tree, t.mapStrings id = t
  | .scalar _ => rfl
  | .string _ => rfl
  | .group k items => congrArg (Tree.group k) (mapItems_id items)

theorem mapItems_id : ∀ items, mapItems id items = items
  | [] => rfl
  | (_, t) :: items => congrArg₂ (fun t items => (_, t) :: items) (mapStrings_id t) (mapItems_id items)

end

theorem mapItems_eq {f g : Bytes → Bytes} {k : Kind} {items items' : Items k}
    (h : mapItems f (treesOf items) = mapItems g (treesOf items')) :
    items.labels.map nameOf = items'.labels.map nameOf ∧ items.values.length = items'.values.length ∧
      ∀ (j : Nat) (hj : j < items.values.length) (hj' : j < items'.values.length),
        (treeOf items.values[j]).mapStrings f = (treeOf items'.values[j]).mapStrings g := by
  rw [treesOf_eq, treesOf_eq, mapItems_zip, mapItems_zip] at h
  have hlen : ∀ (f : Bytes → Bytes) (l : Items k),
      (l.labels.map nameOf).length = ((l.values.map treeOf).map (Tree.mapStrings f)).length := by
    intro f l
    simp only [List.length_map, Items.labels_length]
  have hfst := congrArg (List.map Prod.fst) h
  rw [List.map_fst_zip (Nat.le_of_eq (hlen f items)), List.map_fst_zip (Nat.le_of_eq (hlen g items'))] at hfst
  have hsnd := congrArg (List.map Prod.snd) h
  rw [List.map_snd_zip (Nat.le_of_eq (hlen f items).symm), List.map_snd_zip (Nat.le_of_eq (hlen g items').symm)] at hsnd
  have hvalues := congrArg List.length hsnd
  simp only [List.length_map] at hvalues
  refine ⟨hfst, hvalues, fun j hj hj' => ?_⟩
  have hget := congrArg (fun l : List Tree => l[j]?) hsnd
  simpa [List.getElem?_eq_getElem hj, List.getElem?_eq_getElem hj'] using hget

theorem group_of_tree {f g : Bytes → Bytes} {k : Kind} {items : Items k} {w : Value}
    (h : (treeOf (.group k items)).mapStrings f = (treeOf w).mapStrings g) :
    ∃ items' : Items k, w = .group k items' ∧ mapItems f (treesOf items) = mapItems g (treesOf items') := by
  obtain ⟨ts, hts, hmap⟩ := mapStrings_group h.symm
  cases w with
  | scalar t => cases hts
  | string b => cases hts
  | empty k' blank =>
    obtain ⟨-, rfl⟩ := Tree.group.inj hts
    have hlen := congrArg List.length hmap
    rw [mapItems_length, mapItems_length] at hlen
    exact absurd (List.eq_nil_of_length_eq_zero hlen.symm) (treesOf_ne_nil items)
  | group k' items' =>
    obtain ⟨rfl, hitems⟩ := Tree.group.inj hts
    exact ⟨items', rfl, by rw [← hmap, hitems]⟩

theorem child_values {k : Kind} {items : Items k} {j : Nat} (hj : j < items.values.length) :
    ∃ p, (Value.group k items).child j = some p ∧ p.value = items.values[j] := by
  have hvalue := Items.place_value items j
  rw [List.getElem?_eq_getElem hj] at hvalue
  obtain ⟨q, hq, hval⟩ := Option.map_eq_some_iff.mp hvalue
  exact ⟨_, Option.map_eq_some_iff.mpr ⟨q, hq, rfl⟩, hval⟩

/-! ## Strings replaced -/

/-- In one frame, trees differ as their strings do. -/
theorem treeOf_mapStrings {f : Bytes → Bytes} {v w : Value} (hframe : SameFrame v w)
    (hstrings : ∀ a p b, v.place a = some p → p.value = .string b → ∃ q b', w.place a = some q ∧
      q.value = .string b' ∧ decodeString (quoted b'.1) = f (decodeString (quoted b.1))) :
    treeOf w = (treeOf v).mapStrings f := by
  induction v using Value.induction generalizing w with
  | scalar t =>
    unfold SameFrame at hframe
    cases hw : treeOf w with
    | scalar t' =>
      rw [hw] at hframe
      exact hframe.symm
    | string s => rw [hw] at hframe; cases hframe
    | group k items => rw [hw] at hframe; cases hframe
  | string b =>
    obtain ⟨q, b', hq, hb', hdecoded⟩ := hstrings [] _ b rfl rfl
    obtain rfl := Option.some.inj hq
    obtain rfl : w = .string b' := hb'
    rw [treeOf, treeOf, Tree.mapStrings, hdecoded]
  | empty k blank =>
    obtain ⟨items, hw, hmap⟩ := mapStrings_group hframe.symm
    have hlen := congrArg List.length hmap
    rw [mapItems_length, mapItems_length] at hlen
    obtain rfl := List.eq_nil_of_length_eq_zero hlen
    exact hw
  | group k items ih =>
    obtain ⟨items', rfl, hitems⟩ := group_of_tree hframe
    obtain ⟨hnames, hlength, hvalues⟩ := mapItems_eq hitems
    rw [treeOf, treeOf, Tree.mapStrings, treesOf_eq, treesOf_eq, mapItems_zip, hnames]
    congr 2
    apply List.ext_getElem
    · simp [hlength]
    · intro j hj' hj
      simp only [List.length_map] at hj hj'
      obtain ⟨p, hp, hpv⟩ := child_values hj
      obtain ⟨p', hp', hpv'⟩ := child_values hj'
      simp only [List.getElem_map]
      apply ih _ (List.getElem_mem hj) (hvalues j hj hj')
      intro a q b hq hb
      rw [← hpv] at hq
      obtain ⟨r, b', hr, hb', hdecoded⟩ := hstrings (j :: a) (p.inside q) b (Value.place_cons.mpr ⟨p, q, hp, hq, rfl⟩) hb
      obtain ⟨p'', q', hp'', hq', rfl⟩ := Value.place_cons.mp hr
      obtain rfl := Option.some.inj (hp'.symm.trans hp'')
      exact ⟨q', b', hpv' ▸ hq', hb', hdecoded⟩

theorem sameFrame_setChild {v : Value} {j : Nat} {p : Place} (hp : v.child j = some p) {w : Value}
    (h : SameFrame p.value w) : SameFrame v (v.setChild j w) := by
  cases v with
  | group k items =>
    obtain ⟨q, hq, rfl⟩ := Option.map_eq_some_iff.mp hp
    have hvalue := Items.place_value items j
    rw [hq, Option.map_some] at hvalue
    obtain ⟨hj, hget⟩ := List.getElem?_eq_some_iff.mp hvalue.symm
    unfold SameFrame at h ⊢
    rw [Value.setChild, treeOf, treeOf, Tree.mapStrings, Tree.mapStrings, treesOf_eq, treesOf_eq, Items.labels_set,
      Items.values_set, mapItems_zip, mapItems_zip, List.map_set, List.map_set, ← h, ← hget]
    congr 2
    exact (List.set_getElem_self (by simpa using hj) |>.symm.trans (by simp))
  | scalar | string | empty => cases hp

theorem sameFrame_set {v : Value} {a : List Nat} {p : Place} (hp : v.place a = some p) {w : Value}
    (h : SameFrame p.value w) : SameFrame v (v.set a w) := by
  induction a generalizing v p with
  | nil =>
    obtain rfl := Option.some.inj hp
    exact h
  | cons j a ih =>
    obtain ⟨p₁, q, hp₁, hq, rfl⟩ := Value.place_cons.mp hp
    rw [Value.set, hp₁]
    exact sameFrame_setChild hp₁ (ih hq h)

theorem sameFrame_setAll {v : Value} {edits : List (List Nat × Value)}
    (hapart : edits.Pairwise fun e e' => Rfc8259.Apart e.1 e'.1)
    (hplaces : ∀ e ∈ edits, ∃ p, v.place e.1 = some p ∧ SameFrame p.value e.2) : SameFrame v (v.setAll edits) := by
  induction edits with
  | nil => exact sameFrame_refl v
  | cons e edits ih =>
    obtain ⟨hfirst, hrest⟩ := List.pairwise_cons.mp hapart
    obtain ⟨p, hp, hsame⟩ := hplaces e List.mem_cons_self
    obtain ⟨q, hq, hvalue⟩ := Value.place_setAll_apart hfirst hp
    apply (ih hrest fun e' he' => hplaces e' (List.mem_cons_of_mem _ he')).trans
    exact sameFrame_set hq (hvalue ▸ hsame)

end LlmGuard.Json
