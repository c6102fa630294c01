import LlmGuard.Code.Extract
import LlmGuard.Json.Rewrite
import Mathlib.Data.List.Nodup

/-!
# Walks of a value

A walk picks places of a value. A lawful one picks the same places after a place that it picked got another value of
the same sort.
-/

namespace LlmGuard.Extract

open Rfc8259 (Kind Label Value Items Body Place Ahead Apart quoted)
open Json (PathSeg decodeString nameOf segIndex leaves SameFrame)

/-- A picked place: a text, or an object that stays raw. -/
structure Focus where
  path : List PathSeg
  address : List Nat
  raw : Bool
deriving DecidableEq, Repr

def Focus.under (seg : PathSeg) (j : Nat) (f : Focus) : Focus := ⟨seg :: f.path, j :: f.address, f.raw⟩

abbrev Walk := Value → List Focus

/-! ## Picking -/

/-- A string that does not decode to the empty one. -/
def IsText : Value → Prop
  | .string b => decodeString (quoted b.1) ≠ []
  | _ => False

/-- An object that is not written as `{}`. -/
def IsRaw : Value → Prop
  | .empty .object w => w.1 ≠ []
  | .group .object _ => True
  | _ => False

instance : DecidablePred IsText
  | .string b => inferInstanceAs (Decidable (decodeString (quoted b.1) ≠ []))
  | .scalar _ | .empty _ _ | .group _ _ => .isFalse id

instance : DecidablePred IsRaw
  | .empty .object w => inferInstanceAs (Decidable (w.1 ≠ []))
  | .group .object _ => .isTrue trivial
  | .scalar _ | .string _ | .empty .array _ | .group .array _ => .isFalse id

def Fits (raw : Bool) (v : Value) : Prop := if raw then IsRaw v else IsText v

def text : Walk := fun v => if IsText v then [⟨[], [], false⟩] else []

def rawObject : Walk := fun v => if IsRaw v then [⟨[], [], true⟩] else []

/-- The texts at any depth. -/
def strings : Walk := fun v =>
  (leaves v).filterMap fun l => if (v.place l.2).any fun p => IsText p.value then some ⟨l.1, l.2, false⟩ else none

/-- The elements of an array. -/
def each (w : Walk) : Walk
  | .group .array items => eachElement (fun i v => (w v).map (Focus.under (.index i) i)) items.values
  | _ => []

/-- A text, or the elements of an array. -/
def textOrEach (w : Walk) : Walk := fun v => text v ++ each w v

/-- The first member with this key. -/
def member (key : Bytes) (v : Value) : Option (Nat × Value) := do
  let j ← segIndex (.key key) v
  let p ← v.child j
  some (j, p.value)

def under (key : Bytes) (w : Walk) : Walk := fun v =>
  match member key v with
  | none => []
  | some (j, u) => (w u).map (Focus.under (.key key) j)

def fields (l : List (Bytes × Walk)) : Walk := fun v => l.flatMap fun e => under e.1 e.2 v

/-- The decoded `type` of an object. -/
def typeName (v : Value) : Bytes :=
  match member (ascii "type") v with
  | some (_, .string b) => decodeString (quoted b.1)
  | _ => []

/-- The members to go into depend on the type. -/
def fieldsByType (l : Bytes → List (Bytes × Walk)) : Walk := fun v => fields (l (typeName v)) v

/-! ## The laws -/

structure Lawful (w : Walk) : Prop where
  fits : ∀ v, ∀ f ∈ w v, ∃ p, v.place f.address = some p ∧ Fits f.raw p.value
  apart : ∀ v, (w v).Pairwise fun f g => Apart f.address g.address
  stable : ∀ v, ∀ f ∈ w v, ∀ x, Fits f.raw x → w (v.set f.address x) = w v

/-- A write at a place that a walk picks. -/
def Writes (w : Walk) (v : Value) (e : List Nat × Value) : Prop := ∃ f ∈ w v, f.address = e.1 ∧ Fits f.raw e.2

theorem Lawful.setAll {w : Walk} (h : Lawful w) {P : Value → Prop} {v : Value} (hv : P v)
    (hstep : ∀ v, P v → ∀ e, Writes w v e → P (v.set e.1 e.2)) {edits : List (List Nat × Value)}
    (hedits : ∀ e ∈ edits, Writes w v e) : w (v.setAll edits) = w v ∧ P (v.setAll edits) := by
  induction edits with
  | nil => exact ⟨rfl, hv⟩
  | cons e edits ih =>
    obtain ⟨hsame, hrest⟩ := ih fun e' he' => hedits e' (List.mem_cons_of_mem _ he')
    obtain ⟨f, hmem, hf, hfits⟩ := hedits e List.mem_cons_self
    rw [← hsame] at hmem
    refine ⟨?_, hstep _ hrest e ⟨f, hmem, hf, hfits⟩⟩
    rw [Value.setAll, ← hf, h.stable _ f hmem e.2 hfits, hsame]

theorem mem_text {v : Value} {f : Focus} : f ∈ text v ↔ IsText v ∧ f = ⟨[], [], false⟩ := by
  unfold text
  split <;> simp [*]

theorem mem_rawObject {v : Value} {f : Focus} : f ∈ rawObject v ↔ IsRaw v ∧ f = ⟨[], [], true⟩ := by
  unfold rawObject
  split <;> simp [*]

theorem lawful_text : Lawful text where
  fits v f hf := by
    obtain ⟨htext, rfl⟩ := mem_text.mp hf
    exact ⟨_, rfl, htext⟩
  apart v := by
    unfold text
    split
    · exact List.pairwise_singleton _ _
    · exact .nil
  stable v f hf x hx := by
    obtain ⟨htext, rfl⟩ := mem_text.mp hf
    have hx : IsText x := hx
    unfold text
    rw [Value.set, if_pos hx, if_pos htext]

theorem lawful_rawObject : Lawful rawObject where
  fits v f hf := by
    obtain ⟨hraw, rfl⟩ := mem_rawObject.mp hf
    exact ⟨_, rfl, hraw⟩
  apart v := by
    unfold rawObject
    split
    · exact List.pairwise_singleton _ _
    · exact .nil
  stable v f hf x hx := by
    obtain ⟨hraw, rfl⟩ := mem_rawObject.mp hf
    have hx : IsRaw x := hx
    unfold rawObject
    rw [Value.set, if_pos hx, if_pos hraw]

/-! ## Elements -/

theorem mem_eachElement {α β : Type} {f : Nat → α → List β} {l : List α} {y : β} :
    y ∈ eachElement f l ↔ ∃ i a, l[i]? = some a ∧ y ∈ f i a := by
  unfold eachElement
  rw [List.mem_flatMap]
  constructor
  · rintro ⟨⟨a, i⟩, hmem, hy⟩
    exact ⟨i, a, List.mem_zipIdx_iff_getElem?.mp hmem, hy⟩
  · rintro ⟨i, a, hget, hy⟩
    exact ⟨(a, i), List.mem_zipIdx_iff_getElem?.mpr hget, hy⟩

theorem eachElement_congr {α β γ : Type} {f : Nat → α → List γ} {g : Nat → β → List γ} {l : List α} {l' : List β}
    (h : ∀ i : Nat, l[i]?.map (f i) = l'[i]?.map (g i)) : eachElement f l = eachElement g l' := by
  unfold eachElement
  rw [List.flatMap_def, List.flatMap_def]
  congr 1
  apply List.ext_getElem?
  intro i
  simp only [List.getElem?_map, List.getElem?_zipIdx, Option.map_map, Function.comp_def, Nat.zero_add]
  exact h i

theorem pairwise_eachElement {α β : Type} {R : β → β → Prop} {f : Nat → α → List β} {l : List α}
    (hone : ∀ i a, l[i]? = some a → (f i a).Pairwise R)
    (htwo : ∀ i j a b, i < j → l[i]? = some a → l[j]? = some b → ∀ x ∈ f i a, ∀ y ∈ f j b, R x y) :
    (eachElement f l).Pairwise R := by
  unfold eachElement
  rw [List.pairwise_flatMap]
  constructor
  · rintro ⟨a, i⟩ hmem
    exact hone i a (List.mem_zipIdx_iff_getElem?.mp hmem)
  · rw [List.pairwise_iff_getElem]
    intro i j hi hj hij x hx y hy
    simp only [List.length_zipIdx] at hi hj
    simp only [List.getElem_zipIdx, Nat.zero_add] at hx hy
    exact htwo i j _ _ hij (List.getElem?_eq_getElem hi) (List.getElem?_eq_getElem hj) x hx y hy

theorem each_array (w : Walk) (items : Items .array) : each w (.group .array items) =
    eachElement (fun i v => (w v).map (Focus.under (.index i) i)) items.values := rfl

theorem array_of_each {w : Walk} {v : Value} (h : each w v ≠ []) : ∃ items, v = .group .array items := by
  cases v with
  | group k items =>
    cases k with
    | array => exact ⟨items, rfl⟩
    | object => exact absurd rfl h
  | scalar | string | empty => exact absurd rfl h

theorem mem_each {w : Walk} {v : Value} {f : Focus} : f ∈ each w v ↔ ∃ items, v = .group .array items ∧
    ∃ i p g, v.child i = some p ∧ g ∈ w p.value ∧ f = g.under (.index i) i := by
  constructor
  · intro hf
    obtain ⟨items, rfl⟩ := array_of_each (List.ne_nil_of_mem hf)
    rw [each_array] at hf
    obtain ⟨i, u, hget, hf⟩ := mem_eachElement.mp hf
    obtain ⟨g, hg, rfl⟩ := List.mem_map.mp hf
    obtain ⟨hi, hu⟩ := List.getElem?_eq_some_iff.mp hget
    obtain ⟨p, hp, hvalue⟩ := Json.child_values hi
    exact ⟨items, rfl, i, p, g, hp, by rw [hvalue, hu]; exact hg, rfl⟩
  · rintro ⟨items, rfl, i, p, g, hp, hg, rfl⟩
    obtain ⟨q, hq, rfl⟩ := Option.map_eq_some_iff.mp hp
    have hvalue := Items.place_value items i
    rw [hq, Option.map_some] at hvalue
    rw [each_array]
    exact mem_eachElement.mpr ⟨i, q.value, hvalue.symm, List.mem_map.mpr ⟨g, hg, rfl⟩⟩

theorem place_under {v : Value} {j : Nat} {p : Place} (hp : v.child j = some p) (a : List Nat) :
    v.place (j :: a) = (p.value.place a).map p.inside := by
  rw [Value.place, hp]

theorem set_under {v : Value} {j : Nat} {p : Place} (hp : v.child j = some p) (a : List Nat) (x : Value) :
    v.set (j :: a) x = v.setChild j (p.value.set a x) := by
  rw [Value.set, hp]

theorem fits_under {w : Walk} (h : Lawful w) {v : Value} {j : Nat} {p : Place} (hp : v.child j = some p) {g : Focus}
    (hg : g ∈ w p.value) (seg : PathSeg) :
    ∃ q, v.place (g.under seg j).address = some q ∧ Fits (g.under seg j).raw q.value := by
  obtain ⟨q, hq, hfits⟩ := h.fits p.value g hg
  refine ⟨p.inside q, ?_, hfits⟩
  rw [Focus.under, place_under hp, hq, Option.map_some]

theorem apart_under {w : Walk} (h : Lawful w) (v : Value) (seg : PathSeg) (j : Nat) :
    ((w v).map (Focus.under seg j)).Pairwise fun f g => Apart f.address g.address := by
  rw [List.pairwise_map]
  exact (h.apart v).imp fun {f g} hfg => hfg.imp .inside .inside

theorem apart_of_ne {i j : Nat} (h : i ≠ j) (a b : List Nat) : Apart (i :: a) (j :: b) :=
  (Nat.lt_or_gt_of_ne h).imp .here .here

theorem Lawful.each {w : Walk} (h : Lawful w) : Lawful (each w) where
  fits v f hf := by
    obtain ⟨items, -, i, p, g, hp, hg, rfl⟩ := mem_each.mp hf
    exact fits_under h hp hg _
  apart v := by
    by_cases hnone : Extract.each w v = []
    · rw [hnone]
      exact .nil
    · obtain ⟨items, rfl⟩ := array_of_each hnone
      rw [each_array]
      apply pairwise_eachElement
      · exact fun i u _ => apart_under h u _ i
      · intro i j u u' hij _ _ f hf f' hf'
        obtain ⟨g, -, rfl⟩ := List.mem_map.mp hf
        obtain ⟨g', -, rfl⟩ := List.mem_map.mp hf'
        exact apart_of_ne (Nat.ne_of_lt hij) _ _
  stable v f hf x hx := by
    obtain ⟨items, rfl, i, p, g, hp, hg, rfl⟩ := mem_each.mp hf
    have hstable := h.stable p.value g hg x hx
    obtain ⟨q, hq, rfl⟩ := Option.map_eq_some_iff.mp hp
    have hvalue := Items.place_value items i
    rw [hq, Option.map_some] at hvalue
    rw [Focus.under, set_under hp]
    rw [Value.setChild, each_array, each_array, Items.values_set]
    apply eachElement_congr
    intro j
    obtain ⟨hi, hget⟩ := List.getElem?_eq_some_iff.mp hvalue.symm
    by_cases hij : i = j
    · subst j
      rw [List.getElem?_set_self hi, ← hvalue, Option.map_some, Option.map_some, hstable]
    · rw [List.getElem?_set_ne hij]

theorem isText_string {v : Value} (h : IsText v) : ∃ b, v = .string b := by
  cases v with
  | string b => exact ⟨b, rfl⟩
  | scalar | empty | group => exact h.elim

theorem text_eq {v : Value} (h : IsText v) : text v = [⟨[], [], false⟩] := if_pos h

theorem textOrEach_text {w : Walk} {v : Value} (h : IsText v) : textOrEach w v = text v := by
  obtain ⟨b, rfl⟩ := isText_string h
  exact List.append_nil _

theorem Lawful.textOrEach {w : Walk} (h : Lawful w) : Lawful (textOrEach w) where
  fits v f hf := by
    rcases List.mem_append.mp hf with hf | hf
    · exact lawful_text.fits v f hf
    · exact h.each.fits v f hf
  apart v := by
    by_cases htext : IsText v
    · rw [textOrEach_text htext]
      exact lawful_text.apart v
    · have hnone : text v = [] := if_neg htext
      unfold Extract.textOrEach
      rw [hnone, List.nil_append]
      exact h.each.apart v
  stable v f hf x hx := by
    rcases List.mem_append.mp hf with hf | hf
    · obtain ⟨htext, rfl⟩ := mem_text.mp hf
      have hx : IsText x := hx
      rw [Value.set, textOrEach_text hx, textOrEach_text htext, text_eq hx, text_eq htext]
    · have hstable := h.each.stable v f hf x hx
      obtain ⟨items, rfl, i, p, g, hp, -, rfl⟩ := mem_each.mp hf
      rw [Focus.under, set_under hp] at hstable ⊢
      exact hstable

/-! ## Members -/

theorem member_eq_some {key : Bytes} {v : Value} {j : Nat} {u : Value} :
    member key v = some (j, u) ↔ segIndex (.key key) v = some j ∧ ∃ p, v.child j = some p ∧ p.value = u := by
  unfold member
  cases segIndex (.key key) v with
  | none => simp
  | some i =>
    simp only [Option.bind_eq_bind, Option.bind_some, Option.bind_eq_some_iff, Option.some.injEq, Prod.mk.injEq]
    constructor
    · rintro ⟨p, hp, rfl, hu⟩
      exact ⟨rfl, p, hp, hu⟩
    · rintro ⟨rfl, p, hp, hu⟩
      exact ⟨p, hp, rfl, hu⟩

theorem segIndex_setChild (key : Bytes) (v : Value) (j : Nat) (x : Value) :
    segIndex (.key key) (v.setChild j x) = segIndex (.key key) v := by
  cases v with
  | group k items =>
    cases k with
    | array => rfl
    | object =>
      change (items.set j x).labels.findIdx? _ = _
      rw [Items.labels_set]
      rfl
  | scalar | string | empty => rfl

theorem member_setChild {key : Bytes} {v : Value} {j : Nat} {u : Value} (h : member key v = some (j, u)) (x : Value) :
    member key (v.setChild j x) = some (j, x) := by
  obtain ⟨hseg, p, hp, -⟩ := member_eq_some.mp h
  refine member_eq_some.mpr ⟨by rw [segIndex_setChild, hseg], p.put x, ?_, rfl⟩
  rw [Value.child_setChild, hp, Option.map_some]

theorem member_setChild_ne {key : Bytes} {v : Value} {j : Nat} (h : segIndex (.key key) v ≠ some j) (x : Value) :
    member key (v.setChild j x) = member key v := by
  unfold member
  rw [segIndex_setChild]
  cases hseg : segIndex (.key key) v with
  | none => rfl
  | some i =>
    have hij : i ≠ j := fun hij => h (by rw [hseg, hij])
    have hvalue := Value.child_setChild_ne hij x (v := v)
    simp only [Option.bind_eq_bind, Option.bind_some]
    cases hc : v.child i with
    | none =>
      rw [hc, Option.map_none, Option.map_eq_none_iff] at hvalue
      rw [hvalue]
    | some p =>
      rw [hc, Option.map_some] at hvalue
      obtain ⟨q, hq, hqv⟩ := Option.map_eq_some_iff.mp hvalue
      rw [hq]
      simp only [Option.bind_some, hqv]

theorem segIndex_inj {key key' : Bytes} {v : Value} {j : Nat} (h : segIndex (.key key) v = some j)
    (h' : segIndex (.key key') v = some j) : key = key' := by
  cases v with
  | group k items =>
    cases k with
    | array => cases h
    | object =>
      unfold segIndex at h h'
      obtain ⟨hj, hname, -⟩ := List.findIdx?_eq_some_iff_getElem.mp h
      obtain ⟨_, hname', -⟩ := List.findIdx?_eq_some_iff_getElem.mp h'
      exact Option.some.inj ((of_decide_eq_true hname).symm.trans (of_decide_eq_true hname'))
  | scalar | string | empty => cases h

theorem mem_under {key : Bytes} {w : Walk} {v : Value} {f : Focus} : f ∈ under key w v ↔
    ∃ j u g, member key v = some (j, u) ∧ g ∈ w u ∧ f = g.under (.key key) j := by
  unfold under
  cases hm : member key v with
  | none => simp
  | some m =>
    obtain ⟨j, u⟩ := m
    rw [List.mem_map]
    constructor
    · rintro ⟨g, hg, rfl⟩
      exact ⟨j, u, g, rfl, hg, rfl⟩
    · rintro ⟨j', u', g, hju, hg, rfl⟩
      obtain ⟨rfl, rfl⟩ := Prod.mk.inj (Option.some.inj hju)
      exact ⟨g, hg, rfl⟩

/-- What a write below a member does to the walks below all members. -/
theorem under_set {key : Bytes} {w : Walk} (h : Lawful w) {v : Value} {f : Focus} (hf : f ∈ under key w v) {x : Value}
    (hx : Fits f.raw x) :
    under key w (v.set f.address x) = under key w v ∧
      ∀ key' (w' : Walk), key' ≠ key → under key' w' (v.set f.address x) = under key' w' v := by
  obtain ⟨j, u, g, hm, hg, rfl⟩ := mem_under.mp hf
  obtain ⟨hseg, p, hp, rfl⟩ := member_eq_some.mp hm
  rw [Focus.under, set_under hp]
  constructor
  · unfold under
    rw [member_setChild hm, hm]
    simp only
    rw [h.stable p.value g hg x hx]
  · intro key' w' hne
    unfold under
    rw [member_setChild_ne fun hseg' => hne (segIndex_inj hseg' hseg)]

theorem typeName_set {key : Bytes} {w : Walk} {v : Value} {f : Focus} (hf : f ∈ under key w v) (hkey : ascii "type" ≠ key)
    (x : Value) : typeName (v.set f.address x) = typeName v := by
  obtain ⟨j, u, g, hm, hg, rfl⟩ := mem_under.mp hf
  obtain ⟨hseg, p, hp, rfl⟩ := member_eq_some.mp hm
  rw [Focus.under, set_under hp]
  unfold typeName
  rw [member_setChild_ne fun hseg' => hkey (segIndex_inj hseg' hseg)]

theorem mem_fields {l : List (Bytes × Walk)} {v : Value} {f : Focus} :
    f ∈ fields l v ↔ ∃ e ∈ l, f ∈ under e.1 e.2 v := List.mem_flatMap

theorem fields_set {l : List (Bytes × Walk)} (hkeys : (l.map Prod.fst).Nodup) (hl : ∀ e ∈ l, Lawful e.2) {v : Value}
    {f : Focus} (hf : f ∈ fields l v) {x : Value} (hx : Fits f.raw x) :
    fields l (v.set f.address x) = fields l v := by
  obtain ⟨e, he, hf⟩ := mem_fields.mp hf
  obtain ⟨hsame, hother⟩ := under_set (hl e he) hf hx
  unfold fields
  rw [List.flatMap_def, List.flatMap_def]
  congr 1
  apply List.map_congr_left
  intro e' he'
  by_cases hkey : e'.1 = e.1
  · obtain rfl : e' = e := List.inj_on_of_nodup_map hkeys he' he hkey
    exact hsame
  · exact hother e'.1 e'.2 hkey

theorem apart_fields {l : List (Bytes × Walk)} (hkeys : (l.map Prod.fst).Nodup) (hl : ∀ e ∈ l, Lawful e.2)
    (v : Value) : (fields l v).Pairwise fun f g => Apart f.address g.address := by
  unfold fields
  rw [List.pairwise_flatMap]
  constructor
  · intro e he
    unfold under
    split
    · exact .nil
    · exact apart_under (hl e he) _ _ _
  · rw [List.nodup_iff_pairwise_ne, List.pairwise_map] at hkeys
    refine hkeys.imp fun {e e'} hne f hf f' hf' => ?_
    obtain ⟨j, u, g, hm, -, rfl⟩ := mem_under.mp hf
    obtain ⟨j', u', g', hm', -, rfl⟩ := mem_under.mp hf'
    apply apart_of_ne
    rintro rfl
    exact hne (segIndex_inj (member_eq_some.mp hm).1 (member_eq_some.mp hm').1)

theorem fits_fields {l : List (Bytes × Walk)} (hl : ∀ e ∈ l, Lawful e.2) {v : Value} {f : Focus} (hf : f ∈ fields l v) :
    ∃ p, v.place f.address = some p ∧ Fits f.raw p.value := by
  obtain ⟨e, he, hf⟩ := mem_fields.mp hf
  obtain ⟨j, u, g, hm, hg, rfl⟩ := mem_under.mp hf
  obtain ⟨-, p, hp, rfl⟩ := member_eq_some.mp hm
  exact fits_under (hl e he) hp hg _

theorem lawful_fields {l : List (Bytes × Walk)} (hkeys : (l.map Prod.fst).Nodup) (hl : ∀ e ∈ l, Lawful e.2) :
    Lawful (fields l) where
  fits _ _ hf := fits_fields hl hf
  apart v := apart_fields hkeys hl v
  stable _ _ hf _ hx := fields_set hkeys hl hf hx

/-- No walk goes into the type, so the type stays. -/
theorem lawful_fieldsByType {l : Bytes → List (Bytes × Walk)} (hkeys : ∀ type, ((l type).map Prod.fst).Nodup)
    (htype : ∀ type, ∀ e ∈ l type, ascii "type" ≠ e.1) (hl : ∀ type, ∀ e ∈ l type, Lawful e.2) :
    Lawful (fieldsByType l) where
  fits _ _ hf := fits_fields (hl _) hf
  apart v := apart_fields (hkeys _) (hl _) v
  stable v f hf x hx := by
    have hf' : f ∈ fields (l (typeName v)) v := hf
    obtain ⟨e, he, hunder⟩ := mem_fields.mp hf'
    unfold fieldsByType
    rw [typeName_set hunder (htype _ e he)]
    exact fields_set (hkeys _) (hl _) hf' hx

/-! ## Texts at any depth -/

theorem itemLeaves_congr {k : Kind} {items items' : Items k}
    (hnames : items.labels.map nameOf = items'.labels.map nameOf)
    (hvalues : items.values.map leaves = items'.values.map leaves) (start : Nat) :
    Json.itemLeaves start items = Json.itemLeaves start items' := by
  have hseg : ∀ (label label' : Label k) j, nameOf label = nameOf label' → Json.segOf label j = Json.segOf label' j := by
    intro label label' j h
    unfold Json.segOf
    rw [h]
  induction items using Items.induction generalizing items' start with
  | last label before v after =>
    cases items' with
    | last label' before' v' after' =>
      simp only [Items.labels, Items.values, List.map_cons, List.map_nil, List.cons.injEq, and_true] at hnames hvalues
      rw [Json.itemLeaves, Json.itemLeaves, hvalues, hseg _ _ start hnames]
    | more label' before' v' after' rest' =>
      cases rest' <;> simp [Items.values] at hvalues
  | more label before v after rest ih =>
    cases items' with
    | last label' before' v' after' =>
      cases rest <;> simp [Items.values] at hvalues
    | more label' before' v' after' rest' =>
      obtain ⟨hname, hnames⟩ := List.cons.inj hnames
      obtain ⟨hvalue, hvalues⟩ := List.cons.inj hvalues
      rw [Json.itemLeaves, Json.itemLeaves, hvalue, hseg _ _ start hname, ih hnames hvalues]

theorem leaves_congr {v w : Value} (h : SameFrame v w) : leaves v = leaves w := by
  induction v using Value.induction generalizing w with
  | scalar t =>
    cases w with
    | scalar t' => rfl
    | string b => cases h
    | empty k blank => cases h
    | group k items => cases h
  | string b =>
    cases w with
    | string b' => rfl
    | scalar t => cases h
    | empty k blank => cases h
    | group k items => cases h
  | empty k blank =>
    cases w with
    | empty k' blank' => rfl
    | scalar t => cases h
    | string b => cases h
    | group k' items =>
      obtain ⟨items', heq, -⟩ := Json.group_of_tree h.symm
      cases heq
  | group k items ih =>
    obtain ⟨items', rfl, hitems⟩ := Json.group_of_tree h
    obtain ⟨hnames, hlength, hvalues⟩ := Json.mapItems_eq hitems
    rw [Json.leaves, Json.leaves]
    apply itemLeaves_congr hnames
    apply List.ext_getElem
    · simp only [List.length_map, hlength]
    · intro j hj hj'
      simp only [List.length_map] at hj hj'
      rw [List.getElem_map, List.getElem_map]
      exact ih _ (List.getElem_mem hj) (hvalues j hj hj')

/-- What `strings` asks of an address. -/
def TextAt (v : Value) (a : List Nat) : Prop := ∃ p, v.place a = some p ∧ IsText p.value

theorem mem_strings {v : Value} {f : Focus} :
    f ∈ strings v ↔ ∃ l ∈ leaves v, TextAt v l.2 ∧ f = ⟨l.1, l.2, false⟩ := by
  unfold strings
  rw [List.mem_filterMap]
  refine exists_congr fun l => and_congr_right fun _ => ?_
  unfold TextAt
  cases v.place l.2 with
  | none => simp
  | some p =>
    simp only [Option.any_some, decide_eq_true_eq, Option.some.injEq, exists_eq_left']
    split
    · simp [*, eq_comm]
    · simp [*]

theorem lawful_strings : Lawful strings where
  fits v f hf := by
    obtain ⟨l, -, ⟨p, hp, htext⟩, rfl⟩ := mem_strings.mp hf
    exact ⟨p, hp, htext⟩
  apart v := by
    unfold strings
    rw [List.pairwise_filterMap]
    refine (Json.leaves_ahead v).imp fun {l m} hahead f hf g hg => ?_
    split at hf <;> cases hf
    split at hg <;> cases hg
    exact .inl hahead
  stable v f hf x hx := by
    obtain ⟨l, hl, ⟨p, hp, htext⟩, rfl⟩ := mem_strings.mp hf
    have hx : IsText x := hx
    obtain ⟨b, hb⟩ := isText_string htext
    obtain ⟨b', rfl⟩ := isText_string hx
    have hframe : SameFrame v (v.set l.2 (.string b')) :=
      Json.sameFrame_set hp (by rw [hb]; exact Json.sameFrame_string _ _)
    have : Std.Symm fun l m : List PathSeg × List Nat => Apart l.2 m.2 := ⟨fun _ _ h => h.symm⟩
    have hapart : (leaves v).Pairwise fun l m => Apart l.2 m.2 := (Json.leaves_ahead v).imp .inl
    unfold strings
    rw [← leaves_congr hframe]
    apply List.filterMap_congr
    intro m hm
    by_cases hlm : m = l
    · subst m
      rw [Value.place_set hp, hp]
      simp only [Option.any_some, Place.put, hx, htext, decide_true]
    · obtain ⟨q, b₂, hq, -⟩ := (Json.mem_leaves_iff v m.2).mp ⟨m.1, hm⟩
      obtain ⟨q', hq', hvalue⟩ := Value.place_set_apart (hapart.forall hm hl hlm) (.string b') hq
      rw [hq, hq']
      simp only [Option.any_some, hvalue]

end LlmGuard.Extract
