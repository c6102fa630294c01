import LlmGuard.Lib.JsonSyntax

/-!
# Places in a JSON value

An address leads from a value to one inside it, one index for each container on the way. A place is what an
address leads to, with the text around it.
-/

namespace Rfc8259

open LlmGuard (Byte Bytes ch)

structure Place where
  before : Bytes
  value : Value
  behind : Bytes

/-- The place of something inside this place. -/
def Place.inside (p q : Place) : Place := ⟨p.before ++ q.before, q.value, q.behind ++ p.behind⟩

def Place.text (p : Place) : Bytes := p.before ++ p.value.text ++ p.behind

def Items.labels : {k : Kind} → Items k → List (Label k)
  | _, .last label _ _ _ => [label]
  | _, .more label _ _ _ rest => label :: rest.labels

/-- The item at an index, in the text of the items. -/
def Items.place : {k : Kind} → Items k → Nat → Option Place
  | _, .last label before v after, 0 => some ⟨label.text ++ before.1, v, after.1⟩
  | _, .last _ _ _ _, _ + 1 => none
  | _, .more label before v after rest, 0 => some ⟨label.text ++ before.1, v, after.1 ++ ch ',' :: rest.text⟩
  | _, .more label before v after rest, j + 1 =>
    (rest.place j).map fun p => ⟨label.text ++ before.1 ++ v.text ++ after.1 ++ ch ',' :: p.before, p.value, p.behind⟩

/-- The value at an index of a container. -/
def Value.child : Value → Nat → Option Place
  | .group k items, j => (items.place j).map fun p => ⟨k.opening :: p.before, p.value, p.behind ++ [k.closing]⟩
  | _, _ => none

def Value.place : Value → List Nat → Option Place
  | v, [] => some ⟨[], v, []⟩
  | v, j :: a =>
    match v.child j with
    | none => none
    | some p => (p.value.place a).map p.inside

/-! ## The text around a place -/

theorem Items.place_text {k : Kind} {items : Items k} {j : Nat} {p : Place} (h : items.place j = some p) :
    items.text = p.text := by
  induction items using Items.induction generalizing j p with
  | last label before v after =>
    cases j with
    | zero =>
      obtain rfl := Option.some.inj h
      rfl
    | succ j => cases h
  | more label before v after rest ih =>
    cases j with
    | zero =>
      obtain rfl := Option.some.inj h
      simp [Items.text, Place.text]
    | succ j =>
      obtain ⟨q, hq, rfl⟩ := Option.map_eq_some_iff.mp h
      simp [Items.text, ih hq, Place.text]

theorem Value.child_text {v : Value} {j : Nat} {p : Place} (h : v.child j = some p) : v.text = p.text := by
  cases v with
  | group k items =>
    obtain ⟨q, hq, rfl⟩ := Option.map_eq_some_iff.mp h
    simp [Value.text, Items.place_text hq, Place.text]
  | scalar | string | empty => cases h

theorem Place.inside_text {p q : Place} (h : p.value.text = q.text) : p.text = (p.inside q).text := by
  simp [Place.text, Place.inside, h]

theorem Value.place_cons {v : Value} {j : Nat} {a : List Nat} {r : Place} :
    v.place (j :: a) = some r ↔ ∃ p q, v.child j = some p ∧ p.value.place a = some q ∧ r = p.inside q := by
  rw [Value.place]
  cases v.child j with
  | none => simp
  | some p =>
    constructor
    · intro h
      obtain ⟨q, hq, rfl⟩ := Option.map_eq_some_iff.mp h
      exact ⟨p, q, rfl, hq, rfl⟩
    · rintro ⟨p', q, hp, hq, rfl⟩
      obtain rfl := Option.some.inj hp
      exact Option.map_eq_some_iff.mpr ⟨q, hq, rfl⟩

theorem Value.place_text {v : Value} {a : List Nat} {p : Place} (h : v.place a = some p) : v.text = p.text := by
  induction a generalizing v p with
  | nil =>
    obtain rfl := Option.some.inj h
    simp [Place.text]
  | cons j a ih =>
    obtain ⟨p, q, hp, hq, rfl⟩ := Value.place_cons.mp h
    rw [Value.child_text hp]
    exact Place.inside_text (ih hq)

/-! ## The values of a container -/

theorem Items.place_value {k : Kind} (items : Items k) (j : Nat) :
    (items.place j).map Place.value = items.values[j]? := by
  induction items using Items.induction generalizing j with
  | last label before v after => cases j <;> rfl
  | more label before v after rest ih =>
    cases j with
    | zero => rfl
    | succ j =>
      rw [Items.place, Option.map_map, Items.values, List.getElem?_cons_succ, ← ih j]
      rfl

theorem Items.place_isSome {k : Kind} (items : Items k) (j : Nat) :
    (items.place j).isSome ↔ j < items.values.length := by
  rw [← Option.isSome_map (f := Place.value), Items.place_value, isSome_getElem?]

theorem Items.labels_length {k : Kind} (items : Items k) : items.labels.length = items.values.length := by
  induction items using Items.induction with
  | last => rfl
  | more label before v after rest ih => simp [Items.labels, Items.values, ih]

/-! ## Another value at a place -/

def Items.set : {k : Kind} → Items k → Nat → Value → Items k
  | _, .last label before _ after, 0, w => .last label before w after
  | _, .last label before v after, _ + 1, _ => .last label before v after
  | _, .more label before _ after rest, 0, w => .more label before w after rest
  | _, .more label before v after rest, j + 1, w => .more label before v after (rest.set j w)

def Value.setChild : Value → Nat → Value → Value
  | .group k items, j, w => .group k (items.set j w)
  | v, _, _ => v

def Value.set : Value → List Nat → Value → Value
  | _, [], w => w
  | v, j :: a, w =>
    match v.child j with
    | none => v
    | some p => v.setChild j (p.value.set a w)

def Place.put (p : Place) (w : Value) : Place := { p with value := w }

theorem Items.labels_set {k : Kind} (items : Items k) (j : Nat) (w : Value) :
    (items.set j w).labels = items.labels := by
  induction items using Items.induction generalizing j with
  | last label before v after => cases j <;> rfl
  | more label before v after rest ih =>
    cases j with
    | zero => rfl
    | succ j => simp [Items.set, Items.labels, ih]

theorem Items.values_set {k : Kind} (items : Items k) (j : Nat) (w : Value) :
    (items.set j w).values = items.values.set j w := by
  induction items using Items.induction generalizing j with
  | last label before v after => cases j <;> rfl
  | more label before v after rest ih =>
    cases j with
    | zero => rfl
    | succ j => simp [Items.set, Items.values, ih]

theorem Items.place_set {k : Kind} (items : Items k) (j : Nat) (w : Value) :
    (items.set j w).place j = (items.place j).map (Place.put · w) := by
  induction items using Items.induction generalizing j with
  | last label before v after => cases j <;> rfl
  | more label before v after rest ih =>
    cases j with
    | zero => rfl
    | succ j =>
      simp only [Items.set, Items.place, ih, Option.map_map]
      rfl

theorem Value.child_setChild (v : Value) (j : Nat) (w : Value) :
    (v.setChild j w).child j = (v.child j).map (Place.put · w) := by
  cases v with
  | group k items =>
    simp only [Value.setChild, Value.child, Items.place_set, Option.map_map]
    rfl
  | scalar | string | empty => rfl

theorem Value.place_set {v : Value} {a : List Nat} {p : Place} (h : v.place a = some p) (w : Value) :
    (v.set a w).place a = some (p.put w) := by
  induction a generalizing v p with
  | nil =>
    obtain rfl := Option.some.inj h
    rfl
  | cons j a ih =>
    obtain ⟨p, q, hp, hq, rfl⟩ := Value.place_cons.mp h
    refine Value.place_cons.mpr ⟨p.put (p.value.set a w), q.put w, ?_, ih hq, rfl⟩
    rw [Value.set, hp]
    simp only [Value.child_setChild, hp, Option.map_some]

theorem Value.set_text {v : Value} {a : List Nat} {p : Place} (h : v.place a = some p) (w : Value) :
    (v.set a w).text = p.before ++ w.text ++ p.behind := Value.place_text (Value.place_set h w)

theorem Value.child_setChild_ne {v : Value} {i j : Nat} (h : i ≠ j) (w : Value) :
    ((v.setChild j w).child i).map Place.value = (v.child i).map Place.value := by
  cases v with
  | group k items =>
    simp only [Value.setChild, Value.child, Option.map_map]
    change ((items.set j w).place i).map Place.value = (items.place i).map Place.value
    rw [Items.place_value, Items.place_value, Items.values_set, List.getElem?_set_ne (Ne.symm h)]
  | scalar | string | empty => rfl

/-! ## The order of places -/

/-- The first address leads into an earlier item than the second. -/
inductive Ahead : List Nat → List Nat → Prop
  | here {i j : Nat} {a b : List Nat} : i < j → Ahead (i :: a) (j :: b)
  | inside {i : Nat} {a b : List Nat} : Ahead a b → Ahead (i :: a) (i :: b)

/-- The first place ends before the second one starts. -/
def Place.endsBefore (p q : Place) : Prop := p.before.length + p.value.text.length ≤ q.before.length

theorem Items.place_order {k : Kind} {items : Items k} {i j : Nat} (hij : i < j) {p q : Place}
    (hp : items.place i = some p) (hq : items.place j = some q) : p.endsBefore q := by
  induction items using Items.induction generalizing i j p q with
  | last label before v after =>
    cases j with
    | zero => omega
    | succ j => cases hq
  | more label before v after rest ih =>
    obtain ⟨j, rfl⟩ : ∃ j', j = j' + 1 := ⟨j - 1, by omega⟩
    obtain ⟨q₁, hq₁, rfl⟩ := Option.map_eq_some_iff.mp hq
    cases i with
    | zero =>
      obtain rfl := Option.some.inj hp
      simp only [Place.endsBefore, List.length_append]
      omega
    | succ i =>
      obtain ⟨p₁, hp₁, rfl⟩ := Option.map_eq_some_iff.mp hp
      have := ih (Nat.lt_of_succ_lt_succ hij) hp₁ hq₁
      simp only [Place.endsBefore, List.length_append, List.length_cons] at this ⊢
      omega

theorem Value.child_order {v : Value} {i j : Nat} (hij : i < j) {p q : Place} (hp : v.child i = some p)
    (hq : v.child j = some q) : p.endsBefore q := by
  cases v with
  | group k items =>
    obtain ⟨p₁, hp₁, rfl⟩ := Option.map_eq_some_iff.mp hp
    obtain ⟨q₁, hq₁, rfl⟩ := Option.map_eq_some_iff.mp hq
    have := Items.place_order hij hp₁ hq₁
    simp only [Place.endsBefore, List.length_cons] at this ⊢
    omega
  | scalar | string | empty => cases hp

theorem Place.text_length (p : Place) :
    p.text.length = p.before.length + p.value.text.length + p.behind.length := by
  simp [Place.text, Nat.add_assoc]

theorem Value.place_order {v : Value} {a b : List Nat} (h : Ahead a b) {p q : Place} (hp : v.place a = some p)
    (hq : v.place b = some q) : p.endsBefore q := by
  induction h generalizing v p q with
  | here hij =>
    obtain ⟨p₁, p₂, hp₁, hp₂, rfl⟩ := Value.place_cons.mp hp
    obtain ⟨q₁, q₂, hq₁, hq₂, rfl⟩ := Value.place_cons.mp hq
    have := Value.child_order hij hp₁ hq₁
    have hlen := congrArg List.length (Value.place_text hp₂)
    rw [Place.text_length] at hlen
    simp only [Place.endsBefore, Place.inside, List.length_append] at this ⊢
    omega
  | inside _ ih =>
    obtain ⟨p₁, p₂, hp₁, hp₂, rfl⟩ := Value.place_cons.mp hp
    obtain ⟨q₁, q₂, hq₁, hq₂, rfl⟩ := Value.place_cons.mp hq
    obtain rfl := Option.some.inj (hp₁.symm.trans hq₁)
    have := ih hp₂ hq₂
    simp only [Place.endsBefore, Place.inside, List.length_append] at this ⊢
    omega

/-! ## Several places at once -/

/-- Neither address leads into the value at the other. -/
def Apart (a b : List Nat) : Prop := Ahead a b ∨ Ahead b a

theorem Items.place_set_lt {k : Kind} (items : Items k) {i j : Nat} (hij : i < j) (w : Value) {p : Place}
    (hp : items.place i = some p) : ∃ behind, (items.set j w).place i = some ⟨p.before, p.value, behind⟩ := by
  induction items using Items.induction generalizing i j p with
  | last label before v after =>
    cases i with
    | zero =>
      obtain ⟨j, rfl⟩ : ∃ j', j = j' + 1 := ⟨j - 1, by omega⟩
      obtain rfl := Option.some.inj hp
      exact ⟨_, rfl⟩
    | succ i => cases hp
  | more label before v after rest ih =>
    obtain ⟨j, rfl⟩ : ∃ j', j = j' + 1 := ⟨j - 1, by omega⟩
    cases i with
    | zero =>
      obtain rfl := Option.some.inj hp
      exact ⟨_, rfl⟩
    | succ i =>
      obtain ⟨q, hq, rfl⟩ := Option.map_eq_some_iff.mp hp
      obtain ⟨behind, hset⟩ := ih (Nat.lt_of_succ_lt_succ hij) hq
      exact ⟨behind, by simp only [Items.set, Items.place, hset, Option.map_some]⟩

theorem Value.child_setChild_lt {v : Value} {i j : Nat} (hij : i < j) (w : Value) {p : Place}
    (hp : v.child i = some p) : ∃ behind, (v.setChild j w).child i = some ⟨p.before, p.value, behind⟩ := by
  cases v with
  | group k items =>
    obtain ⟨q, hq, rfl⟩ := Option.map_eq_some_iff.mp hp
    obtain ⟨behind, hset⟩ := Items.place_set_lt items hij w hq
    exact ⟨behind ++ [k.closing], by simp only [Value.setChild, Value.child, hset, Option.map_some]⟩
  | scalar | string | empty => cases hp

theorem Value.place_set_ahead {v : Value} {a b : List Nat} (h : Ahead a b) (w : Value) {p : Place}
    (hp : v.place a = some p) : ∃ behind, (v.set b w).place a = some ⟨p.before, p.value, behind⟩ := by
  induction h generalizing v p with
  | @here i j a b hij =>
    obtain ⟨p₁, q, hp₁, hq, rfl⟩ := Value.place_cons.mp hp
    cases hc : v.child j with
    | none =>
      rw [Value.set, hc]
      exact ⟨_, hp⟩
    | some r =>
      obtain ⟨behind, hset⟩ := Value.child_setChild_lt hij (r.value.set b w) hp₁
      refine ⟨q.behind ++ behind, Value.place_cons.mpr ⟨⟨p₁.before, p₁.value, behind⟩, q, ?_, hq, rfl⟩⟩
      simp only [Value.set, hc, hset]
  | @inside i a b _ ih =>
    obtain ⟨p₁, q, hp₁, hq, rfl⟩ := Value.place_cons.mp hp
    obtain ⟨behind, hset⟩ := ih hq
    refine ⟨behind ++ p₁.behind, Value.place_cons.mpr ⟨p₁.put (p₁.value.set b w), _, ?_, hset, rfl⟩⟩
    rw [Value.set, hp₁]
    simp only [Value.child_setChild, hp₁, Option.map_some]

theorem Value.child_setChild_value {v : Value} {i j : Nat} (hij : i ≠ j) (w : Value) {p : Place}
    (hp : v.child i = some p) : ∃ q, (v.setChild j w).child i = some q ∧ q.value = p.value := by
  have := Value.child_setChild_ne hij w (v := v)
  rw [hp, Option.map_some] at this
  exact Option.map_eq_some_iff.mp this

theorem Value.place_set_ne {v : Value} {i j : Nat} (hij : i ≠ j) {a b : List Nat} (w : Value) {p : Place}
    (hp : v.place (i :: a) = some p) : ∃ q, (v.set (j :: b) w).place (i :: a) = some q ∧ q.value = p.value := by
  obtain ⟨p₁, q, hp₁, hq, rfl⟩ := Value.place_cons.mp hp
  cases hc : v.child j with
  | none =>
    rw [Value.set, hc]
    exact ⟨_, hp, rfl⟩
  | some r =>
    obtain ⟨q₁, hset, hvalue⟩ := Value.child_setChild_value hij (r.value.set b w) hp₁
    refine ⟨q₁.inside q, Value.place_cons.mpr ⟨q₁, q, ?_, by rw [hvalue, hq], rfl⟩, rfl⟩
    simp only [Value.set, hc, hset]

/-- Another value at a place leaves the values at the places apart from it. -/
theorem Value.place_set_apart {v : Value} {a b : List Nat} (h : Apart a b) (w : Value) {p : Place}
    (hp : v.place a = some p) : ∃ q, (v.set b w).place a = some q ∧ q.value = p.value := by
  rcases h with h | h
  · obtain ⟨behind, hset⟩ := Value.place_set_ahead h w hp
    exact ⟨_, hset, rfl⟩
  · induction h generalizing v p with
    | here hij => exact Value.place_set_ne (Nat.ne_of_gt hij) w hp
    | @inside i b a _ ih =>
      obtain ⟨p₁, q, hp₁, hq, rfl⟩ := Value.place_cons.mp hp
      obtain ⟨q', hset, hvalue⟩ := ih hq
      refine ⟨_, Value.place_cons.mpr ⟨p₁.put (p₁.value.set b w), q', ?_, hset, rfl⟩, hvalue⟩
      rw [Value.set, hp₁]
      simp only [Value.child_setChild, hp₁, Option.map_some]

/-- The last replacement is made first. -/
def Value.setAll (v : Value) : List (List Nat × Value) → Value
  | [] => v
  | (a, w) :: edits => (v.setAll edits).set a w

theorem Value.place_setAll_ahead {v : Value} {a : List Nat} {edits : List (List Nat × Value)}
    (h : ∀ e ∈ edits, Ahead a e.1) {p : Place} (hp : v.place a = some p) :
    ∃ behind, (v.setAll edits).place a = some ⟨p.before, p.value, behind⟩ := by
  induction edits with
  | nil => exact ⟨p.behind, hp⟩
  | cons e edits ih =>
    obtain ⟨behind, hset⟩ := ih fun e' he' => h e' (List.mem_cons_of_mem _ he')
    obtain ⟨behind', hset'⟩ := Value.place_set_ahead (h e List.mem_cons_self) e.2 hset
    exact ⟨behind', hset'⟩

theorem Value.place_setAll_apart {v : Value} {a : List Nat} {edits : List (List Nat × Value)}
    (h : ∀ e ∈ edits, Apart a e.1) {p : Place} (hp : v.place a = some p) :
    ∃ q, (v.setAll edits).place a = some q ∧ q.value = p.value := by
  induction edits with
  | nil => exact ⟨p, hp, rfl⟩
  | cons e edits ih =>
    obtain ⟨q, hset, hvalue⟩ := ih fun e' he' => h e' (List.mem_cons_of_mem _ he')
    obtain ⟨r, hr, hsame⟩ := Value.place_set_apart (h e List.mem_cons_self) e.2 hset
    exact ⟨r, hr, hsame.trans hvalue⟩

theorem Value.place_setAll {v : Value} {edits : List (List Nat × Value)}
    (hapart : edits.Pairwise fun e e' => Apart e.1 e'.1) (hplaces : ∀ e ∈ edits, (v.place e.1).isSome)
    {e : List Nat × Value} (he : e ∈ edits) : ∃ q, (v.setAll edits).place e.1 = some q ∧ q.value = e.2 := by
  induction edits with
  | nil => cases he
  | cons e' edits ih =>
    obtain ⟨hfirst, hrest⟩ := List.pairwise_cons.mp hapart
    rcases List.mem_cons.mp he with rfl | he
    · obtain ⟨p, hp⟩ := Option.isSome_iff_exists.mp (hplaces e List.mem_cons_self)
      obtain ⟨q, hq, -⟩ := Value.place_setAll_apart hfirst hp
      exact ⟨q.put e.2, Value.place_set hq e.2, rfl⟩
    · obtain ⟨q, hq, hvalue⟩ := ih hrest (fun e he => hplaces e (List.mem_cons_of_mem _ he)) he
      obtain ⟨r, hr, hsame⟩ := Value.place_set_apart ((hfirst e he).symm) e'.2 hq
      exact ⟨r, hr, hsame.trans hvalue⟩

end Rfc8259
