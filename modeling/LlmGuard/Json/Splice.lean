import LlmGuard.Json.Scan
import LlmGuard.Json.Spec

/-!
# `splice_all`

The edits may come in any order. Where their spans lie apart, they are made as if all at once, and every byte outside
them stays. Where they do not, it throws. Edits at places of a value give the text of the value with these places set.
-/

namespace LlmGuard.Json

open Rfc8259 (Value Place Ahead Apart)
open Splice (Ordered weave)

def spanPair (e : ValueSpan × Bytes) : Nat × Nat := (e.1.start, e.1.stop)

theorem checkEdits_ok {doc : Bytes} {pos : Nat} {edits : List (ValueSpan × Bytes)} {last : Option Nat}
    (hlast : ∀ n, last = some n → n ≤ pos) (h : Ordered doc.length pos (edits.map spanPair)) :
    checkEdits doc last edits = .ok () := by
  induction edits generalizing pos last with
  | nil => rfl
  | cons e edits ih =>
    obtain ⟨span, text⟩ := e
    obtain ⟨hpos, hle, hrest⟩ := h
    simp only at hpos hle hrest
    have hend := hrest.pos_le
    unfold checkEdits
    rw [if_neg (by simp; omega), if_neg ?_]
    · exact ih (fun n hn => Nat.le_of_eq (Option.some.inj hn).symm) hrest
    · cases last with
      | none => simp
      | some n =>
        have := hlast n rfl
        simp only [Option.any_some, decide_eq_true_eq]
        omega

theorem gaps_split {doc : Bytes} {i j : Nat} (hij : i ≤ j) {spans : List (Nat × Nat)} (texts : List Bytes)
    (h : Ordered doc.length j spans) (hlen : texts.length = spans.length) :
    weave (Splice.gaps doc i spans) texts = slice doc i j ++ weave (Splice.gaps doc j spans) texts := by
  cases spans with
  | nil =>
    obtain rfl := List.length_eq_zero_iff.mp hlen
    simp only [Splice.gaps_nil, Splice.weave_singleton]
    exact (Splice.slice_append_drop doc i j hij).symm
  | cons p spans =>
    obtain ⟨text, texts, rfl⟩ := List.exists_cons_of_length_eq_add_one hlen
    obtain ⟨hj, -, -⟩ := h
    simp only [Splice.gaps, Splice.weave_cons, ← List.append_assoc]
    rw [Splice.slice_append doc i j p.1 hij hj]

theorem applyEdits_ok {doc : Bytes} {pos : Nat} {edits : List (ValueSpan × Bytes)}
    (h : Ordered doc.length pos (edits.map spanPair)) :
    applyEdits doc edits = .ok (weave (Splice.gaps doc 0 (edits.map spanPair)) (edits.map (·.2))) := by
  induction edits generalizing pos with
  | nil => simp [applyEdits]
  | cons e edits ih =>
    obtain ⟨span, text⟩ := e
    obtain ⟨hpos, hle, hrest⟩ := h
    simp only at hpos hle hrest
    have hend := hrest.pos_le
    have hsplit := gaps_split (Nat.zero_le span.stop) (edits.map (·.2)) hrest (by simp)
    have hsize : (slice doc 0 span.stop).length = span.stop := Splice.slice_length doc 0 span.stop hend
    rw [applyEdits, ih hrest, hsplit]
    simp only [bind, Except.bind]
    unfold splice
    rw [if_neg (by simp only [Bool.or_eq_true, decide_eq_true_eq, List.length_append, hsize]; omega)]
    simp only [List.map_cons, Splice.gaps, Splice.weave_cons, spanPair]
    congr 2
    · rw [List.take_append_of_le_length (by omega)]
      simp only [slice, Nat.sub_zero, List.drop_zero, List.take_take, Nat.min_eq_left hle]
    · rw [List.drop_append_of_le_length (by omega), List.drop_of_length_le (by omega), List.nil_append]

/-- The order in which `splice_all` takes the edits. -/
def editOrder (edits : List (ValueSpan × Bytes)) : List (ValueSpan × Bytes) :=
  edits.mergeSort fun a b => a.1.start ≤ b.1.start

theorem spliceAll_ok {doc : Bytes} {edits : List (ValueSpan × Bytes)}
    (h : Ordered doc.length 0 ((editOrder edits).map spanPair)) :
    spliceAll doc edits = .ok (weave (Splice.gaps doc 0 ((editOrder edits).map spanPair)) ((editOrder edits).map (·.2))) := by
  unfold spliceAll
  split
  · rename_i hempty
    rw [List.isEmpty_iff.mp hempty]
    simp [editOrder]
  · have hcheck : checkEdits doc none (editOrder edits) = .ok () := checkEdits_ok (fun n hn => by cases hn) h
    have happly := applyEdits_ok h
    simp only [editOrder, bind, Except.bind] at hcheck happly ⊢
    rw [hcheck]
    exact happly

theorem editOrder_ordered {doc : Bytes} {edits : List (ValueSpan × Bytes)}
    (hin : ∀ e ∈ edits, e.1.start < e.1.stop ∧ e.1.stop ≤ doc.length)
    (hapart : edits.Pairwise fun a b => a.1.stop ≤ b.1.start ∨ b.1.stop ≤ a.1.start) :
    Ordered doc.length 0 ((editOrder edits).map spanPair) := by
  have hperm : (editOrder edits).Perm edits := List.mergeSort_perm _ _
  have hsorted : (editOrder edits).Pairwise fun a b => a.1.start ≤ b.1.start :=
    (List.pairwise_mergeSort (fun a b c hab hbc => by simp at hab hbc ⊢; omega) (fun a b => by simp; omega) edits).imp
      fun h => by simpa using h
  have hapart' := (hperm.pairwise_iff fun h => h.symm).mpr hapart
  apply Splice.ordered_of_pairwise (Nat.zero_le _)
  · intro p hp
    obtain ⟨e, he, rfl⟩ := List.mem_map.mp hp
    obtain ⟨hlt, hle⟩ := hin e (hperm.mem_iff.mp he)
    exact ⟨Nat.zero_le _, Nat.le_of_lt hlt, hle⟩
  · rw [List.pairwise_map]
    refine (hsorted.and hapart').imp_of_mem fun {a b} ha hb hab => ?_
    obtain ⟨hlt, -⟩ := hin a (hperm.mem_iff.mp ha)
    obtain ⟨hlt', -⟩ := hin b (hperm.mem_iff.mp hb)
    obtain ⟨hstart, hor⟩ := hab
    simp only [spanPair]
    omega

/-! ## All edits at once -/

def OutOfRange (doc : Bytes) (span : ValueSpan) : Prop := span.stop < span.start ∨ doc.length < span.stop

def Overlap (a b : ValueSpan) : Prop := a.start < b.stop ∧ b.start < a.stop

/-- A span outside the document, or two entries of the list with a byte in common. -/
def Clash (doc : Bytes) (edits : List (ValueSpan × Bytes)) : Prop :=
  (∃ e ∈ edits, OutOfRange doc e.1) ∨ ∃ a b, [a, b].Sublist edits ∧ Overlap a.1 b.1

/-- The bytes outside all spans, with every text in the place of its span. -/
def replaceAll (doc : Bytes) (edits : List (ValueSpan × Bytes)) : Bytes :=
  Splice.replaced (edits.map fun e => (spanPair e, e.2)) 0 doc

theorem checkEdits_ordered {doc : Bytes} {last : Option Nat} {edits : List (ValueSpan × Bytes)}
    (hlast : ∀ n, last = some n → n ≤ doc.length) (h : checkEdits doc last edits = .ok ()) :
    Ordered doc.length (last.getD 0) (edits.map spanPair) := by
  induction edits generalizing last with
  | nil =>
    cases last with
    | none => exact Nat.zero_le _
    | some n => exact hlast n rfl
  | cons e edits ih =>
    obtain ⟨span, text⟩ := e
    unfold checkEdits at h
    split at h
    · cases h
    · rename_i hrange
      simp only [Bool.or_eq_true, decide_eq_true_eq, not_or, not_lt] at hrange
      split at h
      · cases h
      · rename_i hafter
        have hrest := ih (fun n hn => by cases hn; exact hrange.2) h
        refine ⟨?_, hrange.1, hrest⟩
        cases last with
        | none => exact Nat.zero_le _
        | some n => simpa using hafter

theorem overlapping_iff {edits : List (ValueSpan × Bytes)} :
    (∃ a b, [a, b].Sublist edits ∧ Overlap a.1 b.1) ↔ ¬ edits.Pairwise fun a b => ¬ Overlap a.1 b.1 := by
  rw [List.pairwise_iff_forall_sublist]
  simp

theorem Clash.perm {doc : Bytes} {edits edits' : List (ValueSpan × Bytes)} (hperm : edits.Perm edits')
    (h : Clash doc edits) : Clash doc edits' := by
  unfold Clash at h ⊢
  rw [overlapping_iff] at h ⊢
  rcases h with ⟨e, he, hout⟩ | hover
  · exact .inl ⟨e, hperm.mem_iff.mp he, hout⟩
  · exact .inr fun hpair => hover ((hperm.pairwise_iff fun h h' => h h'.symm).mpr hpair)

theorem inside_of_free {doc : Bytes} {edits : List (ValueSpan × Bytes)} (hspans : ∀ e ∈ edits, e.1.start ≠ e.1.stop)
    (h : ¬ Clash doc edits) : (∀ e ∈ edits, e.1.start < e.1.stop ∧ e.1.stop ≤ doc.length) ∧
      edits.Pairwise fun a b => a.1.stop ≤ b.1.start ∨ b.1.stop ≤ a.1.start := by
  unfold Clash at h
  rw [overlapping_iff, not_or, not_not] at h
  obtain ⟨hrange, hpair⟩ := h
  refine ⟨fun e he => ?_, hpair.imp fun hab => ?_⟩
  · have hne := hspans e he
    have : ¬ OutOfRange doc e.1 := fun hout => hrange ⟨e, he, hout⟩
    unfold OutOfRange at this
    omega
  · unfold Overlap at hab
    omega

/-- What the checks on the sorted edits decide. -/
theorem editOrder_ordered_iff {doc : Bytes} {edits : List (ValueSpan × Bytes)}
    (hspans : ∀ e ∈ edits, e.1.start ≠ e.1.stop) :
    Ordered doc.length 0 ((editOrder edits).map spanPair) ↔ ¬ Clash doc edits := by
  have hperm : (editOrder edits).Perm edits := List.mergeSort_perm _ _
  constructor
  · intro h hclash
    have hmem : ∀ e ∈ edits, e.1.start ≤ e.1.stop ∧ e.1.stop ≤ doc.length := fun e he =>
      h.mem (List.mem_map.mpr ⟨e, hperm.mem_iff.mpr he, rfl⟩)
    rcases hclash with ⟨e, he, hout⟩ | ⟨a, b, hsub, hoverlap⟩
    · have := hmem e he
      unfold OutOfRange at hout
      omega
    · have hpair : (editOrder edits).Pairwise fun a b => a.1.stop ≤ b.1.start ∨ b.1.stop ≤ a.1.start :=
        (List.pairwise_map.mp h.pairwise).imp Or.inl
      have hapart := List.pairwise_iff_forall_sublist.mp ((hperm.pairwise_iff fun h => h.symm).mp hpair) hsub
      unfold Overlap at hoverlap
      omega
  · intro h
    obtain ⟨hin, hapart⟩ := inside_of_free hspans h
    exact editOrder_ordered hin hapart

theorem spliceAll_error {doc : Bytes} {edits : List (ValueSpan × Bytes)}
    (h : ¬ Ordered doc.length 0 ((editOrder edits).map spanPair)) : ∃ e, spliceAll doc edits = .error e := by
  unfold spliceAll
  split
  · rename_i hempty
    rw [List.isEmpty_iff.mp hempty] at h
    exact absurd (by simp [editOrder, Ordered]) h
  · cases hcheck : checkEdits doc none (editOrder edits) with
    | error e =>
      simp only [editOrder] at hcheck
      exact ⟨e, by simp only [hcheck, bind, Except.bind]⟩
    | ok u => exact absurd (checkEdits_ordered (fun n hn => by cases hn) hcheck) h

theorem weave_editOrder {doc : Bytes} {edits : List (ValueSpan × Bytes)}
    (hin : ∀ e ∈ edits, e.1.start < e.1.stop) (h : Ordered doc.length 0 ((editOrder edits).map spanPair)) :
    weave (Splice.gaps doc 0 ((editOrder edits).map spanPair)) ((editOrder edits).map (·.2)) =
      replaceAll doc (editOrder edits) := by
  have hperm : (editOrder edits).Perm edits := List.mergeSort_perm _ _
  have hweave := @Splice.weave_eq_replaced _ doc 0 ((editOrder edits).map fun e => (spanPair e, e.2))
    (by
      intro p hp
      obtain ⟨e, he, rfl⟩ := List.mem_map.mp hp
      exact hin e (hperm.mem_iff.mp he))
    (by simpa [List.map_map, Function.comp_def] using h)
  simpa [List.map_map, Function.comp_def, replaceAll] using hweave

theorem replaceAll_perm {doc : Bytes} {edits edits' : List (ValueSpan × Bytes)} (hperm : edits.Perm edits')
    (hin : ∀ e ∈ edits, e.1.start < e.1.stop)
    (hapart : edits.Pairwise fun a b => a.1.stop ≤ b.1.start ∨ b.1.stop ≤ a.1.start) :
    replaceAll doc edits = replaceAll doc edits' := by
  apply Splice.replaced_perm (hperm.map _)
  · intro p hp
    obtain ⟨e, he, rfl⟩ := List.mem_map.mp hp
    exact hin e he
  · exact List.pairwise_map.mpr hapart

/-- The edits all at once, whatever their order, unless spans clash. -/
theorem spliceAll_spec (doc : Bytes) {edits : List (ValueSpan × Bytes)} (hspans : ∀ e ∈ edits, e.1.start ≠ e.1.stop) :
    ((∃ e, spliceAll doc edits = .error e) ↔ Clash doc edits) ∧
      (¬ Clash doc edits → spliceAll doc edits = .ok (replaceAll doc edits)) ∧
      ∀ edits', edits'.Perm edits → (spliceAll doc edits').toOption = (spliceAll doc edits).toOption := by
  have hdecide : ∀ {l : List (ValueSpan × Bytes)}, l.Perm edits →
      (Clash doc l → ∃ e, spliceAll doc l = .error e) ∧
        (¬ Clash doc l → spliceAll doc l = .ok (replaceAll doc edits)) := by
    intro l hperm
    have hspans' : ∀ e ∈ l, e.1.start ≠ e.1.stop := fun e he => hspans e (hperm.mem_iff.mp he)
    refine ⟨fun hclash => spliceAll_error fun h => (editOrder_ordered_iff hspans').mp h hclash, fun hfree => ?_⟩
    obtain ⟨hin, hapart⟩ := inside_of_free hspans' hfree
    have hlt : ∀ e ∈ l, e.1.start < e.1.stop := fun e he => (hin e he).1
    have hordered := editOrder_ordered hin hapart
    have hsort : (editOrder l).Perm l := List.mergeSort_perm _ _
    rw [spliceAll_ok hordered, weave_editOrder hlt hordered, ← replaceAll_perm hsort.symm hlt hapart,
      replaceAll_perm hperm hlt hapart]
  have hclash : ∀ {l : List (ValueSpan × Bytes)}, l.Perm edits → (Clash doc l ↔ Clash doc edits) := fun hperm =>
    ⟨Clash.perm hperm, Clash.perm hperm.symm⟩
  obtain ⟨hbad, hgood⟩ := hdecide (.refl edits)
  refine ⟨⟨?_, hbad⟩, hgood, fun edits' hperm => ?_⟩
  · rintro ⟨e, he⟩
    by_contra hfree
    rw [hgood hfree] at he
    cases he
  · obtain ⟨hbad', hgood'⟩ := hdecide hperm
    by_cases hc : Clash doc edits
    · obtain ⟨e, he⟩ := hbad hc
      obtain ⟨e', he'⟩ := hbad' ((hclash hperm).mpr hc)
      rw [he, he']
      rfl
    · rw [hgood hc, hgood' (mt (hclash hperm).mp hc)]

theorem spliceAll_spec_overlap :
    ∃ e, spliceAll (ascii "0123456789") [(⟨3, 6, false⟩, ascii "b"), (⟨1, 4, false⟩, ascii "a")] = .error e :=
  (spliceAll_spec _ (by simp)).1.mpr (.inr ⟨_, _, List.Sublist.refl _, by simp [Overlap]⟩)

example : replaceAll (ascii "0123456789") [(⟨6, 8, false⟩, ascii "XYZ"), (⟨1, 3, false⟩, ascii "a")] =
    ascii "0a345XYZ89" := by decide

/-! ## Edits in a tree -/

/-- The edit that puts a value at an address of `v`. -/
def editAt (base : Nat) (v : Value) (e : List Nat × Value) : ValueSpan × Bytes :=
  (placeSpan base ((v.place e.1).getD ⟨[], v, []⟩), e.2.text)

theorem editAt_place {base : Nat} {v : Value} {e : List Nat × Value} {p : Place} (hp : v.place e.1 = some p) :
    editAt base v e = (placeSpan base p, e.2.text) := by
  rw [editAt, hp, Option.getD_some]

theorem splice_middle {a b c : Bytes} {span : ValueSpan} (hstart : span.start = a.length)
    (hstop : span.stop = a.length + b.length) (text : Bytes) :
    splice (a ++ (b ++ c)) span text = .ok (a ++ (text ++ c)) := by
  unfold splice
  rw [if_neg (by simp only [hstart, hstop, Bool.or_eq_true, decide_eq_true_eq, List.length_append]; omega), hstart, hstop,
    List.take_left, ← List.append_assoc a b, ← List.length_append, List.drop_left, List.append_assoc]

theorem applyEdits_setAll {doc pre post : Bytes} {v : Value} (hdoc : doc = pre ++ (v.text ++ post))
    {edits : List (List Nat × Value)} (hahead : edits.Pairwise fun e e' => Ahead e.1 e'.1)
    (hplaces : ∀ e ∈ edits, (v.place e.1).isSome) :
    applyEdits doc (edits.map (editAt pre.length v)) = .ok (pre ++ ((v.setAll edits).text ++ post)) := by
  induction edits with
  | nil => rw [hdoc]; rfl
  | cons e edits ih =>
    obtain ⟨hfirst, hrest⟩ := List.pairwise_cons.mp hahead
    obtain ⟨p, hp⟩ := Option.isSome_iff_exists.mp (hplaces e List.mem_cons_self)
    obtain ⟨behind, hset⟩ := Value.place_setAll_ahead hfirst hp
    have hout := ih hrest fun e' he' => hplaces e' (List.mem_cons_of_mem _ he')
    have htext : (v.setAll edits).text = p.before ++ p.value.text ++ behind := Value.place_text hset
    have htext' : (v.setAll (e :: edits)).text = p.before ++ e.2.text ++ behind := Value.set_text hset e.2
    have hsplice : splice ((pre ++ p.before) ++ (p.value.text ++ (behind ++ post))) (placeSpan pre.length p) e.2.text =
        _ := splice_middle (by simp [placeSpan]) (by simp [placeSpan]) e.2.text
    simp only [List.append_assoc] at hsplice
    rw [List.map_cons, editAt_place hp, applyEdits, hout, htext, htext']
    simp only [bind, Except.bind, List.append_assoc, hsplice]

theorem editAt_apart {doc pre post : Bytes} {v : Value} (hdoc : doc = pre ++ (v.text ++ post))
    {edits : List (List Nat × Value)} (hapart : edits.Pairwise fun e e' => Apart e.1 e'.1)
    (hplaces : ∀ e ∈ edits, (v.place e.1).isSome) :
    (∀ e ∈ edits.map (editAt pre.length v), e.1.start < e.1.stop ∧ e.1.stop ≤ doc.length) ∧
      (edits.map (editAt pre.length v)).Pairwise fun a b => a.1.stop ≤ b.1.start ∨ b.1.stop ≤ a.1.start := by
  constructor
  · intro e he
    obtain ⟨e', he', rfl⟩ := List.mem_map.mp he
    obtain ⟨p, hp⟩ := Option.isSome_iff_exists.mp (hplaces e' he')
    have hlen := congrArg List.length (Value.place_text hp)
    rw [Place.text_length] at hlen
    have hpos := text_pos p.value
    rw [editAt_place hp, hdoc]
    simp only [placeSpan, List.length_append]
    omega
  · rw [List.pairwise_map]
    refine hapart.imp_of_mem fun {e e'} he he' h => ?_
    obtain ⟨p, hp⟩ := Option.isSome_iff_exists.mp (hplaces e he)
    obtain ⟨q, hq⟩ := Option.isSome_iff_exists.mp (hplaces e' he')
    rw [editAt_place hp, editAt_place hq]
    simp only [placeSpan]
    rcases h with h | h
    · have := Value.place_order h hp hq
      simp only [Place.endsBefore] at this
      omega
    · have := Value.place_order h hq hp
      simp only [Place.endsBefore] at this
      omega

theorem spliceAll_setAll {doc pre post : Bytes} {v : Value} (hdoc : doc = pre ++ (v.text ++ post))
    {edits : List (List Nat × Value)} (hapart : edits.Pairwise fun e e' => Apart e.1 e'.1)
    (hplaces : ∀ e ∈ edits, (v.place e.1).isSome) :
    ∃ order, order.Perm edits ∧
      spliceAll doc (edits.map (editAt pre.length v)) = .ok (pre ++ ((v.setAll order).text ++ post)) := by
  obtain ⟨hin, hspans⟩ := editAt_apart hdoc hapart hplaces
  have hordered := editOrder_ordered hin hspans
  have happly := applyEdits_ok hordered
  let order := edits.mergeSort fun a b => (editAt pre.length v a).1.start ≤ (editAt pre.length v b).1.start
  have hperm : order.Perm edits := List.mergeSort_perm _ _
  have horder : order.map (editAt pre.length v) = editOrder (edits.map (editAt pre.length v)) :=
    List.map_mergeSort fun _ _ _ _ => rfl
  have hplaces' : ∀ e ∈ order, (v.place e.1).isSome := fun e he => hplaces e (hperm.mem_iff.mp he)
  have hahead : order.Pairwise fun e e' => Ahead e.1 e'.1 := by
    have hsorted : order.Pairwise fun e e' => (editAt pre.length v e).1.start ≤ (editAt pre.length v e').1.start :=
      (List.pairwise_mergeSort (fun a b c hab hbc => by simp at hab hbc ⊢; omega) (fun a b => by simp; omega) edits).imp
        fun h => by simpa using h
    have hapart' := (hperm.pairwise_iff fun h => h.symm).mpr hapart
    refine (hsorted.and hapart').imp_of_mem fun {e e'} he he' ⟨hstart, h⟩ => h.resolve_right fun hbehind => ?_
    obtain ⟨p, hp⟩ := Option.isSome_iff_exists.mp (hplaces' e he)
    obtain ⟨q, hq⟩ := Option.isSome_iff_exists.mp (hplaces' e' he')
    have hbefore := Value.place_order hbehind hq hp
    have hpos := text_pos q.value
    rw [editAt_place hp, editAt_place hq] at hstart
    simp only [placeSpan, Place.endsBefore] at hstart hbefore
    omega
  refine ⟨order, hperm, ?_⟩
  rw [spliceAll_ok hordered, ← happly, ← horder, applyEdits_setAll hdoc hahead hplaces']

end LlmGuard.Json
