import LlmGuard.Json.Lookup

/-!
# `array_elements` against probing

One pass over an array finds the elements that the indices find. White space behind a comma is left in front
of an element there.
-/

namespace LlmGuard.Json

open Rfc8259 (Kind Label Value Items Ws Place quoted)

/-- The white space in front of each value, behind its label. -/
def leads : {k : Kind} → Items k → List Bytes
  | _, .last _ before _ _ => [before.1]
  | _, .more _ before _ _ rest => before.1 :: leads rest

/-- No white space stands behind a comma of the array. -/
def TightCommas : Value → Prop
  | .group .array items => ∀ w ∈ (leads items).tail, w = []
  | _ => True

/-- A span that starts with the white space `w` in front of the place. -/
def looseSpan (base : Nat) (w : Bytes) (p : Place) : ValueSpan :=
  ⟨base + p.before.length - w.length, base + p.before.length + p.value.text.length,
    (w ++ p.value.text).head? = some (ch '"')⟩

theorem elementsFrom_value {doc pre r : Bytes} (w : Ws) (v : Value) (hdoc : doc = pre ++ (w.1 ++ (v.text ++ r)))
    (hr : EndsNumber r) (fuel : Nat) :
    elementsFrom doc (fuel + 1) (w.1 ++ (v.text ++ r)) =
      looseSpan pre.length w.1 ⟨w.1, v, r⟩ ::
        match skipWs r with
        | [] => []
        | d :: rest => if d = ch ',' then elementsFrom doc fuel rest else [] := by
  obtain ⟨c, s, hv, -⟩ := head_text v
  rw [elementsFrom, skipValue_ws, skipValue_text v hr]
  simp only
  congr 1
  have hlen := congrArg List.length hdoc
  simp only [List.length_append] at hlen
  have hhead : (w.1 ++ (v.text ++ r)).head? = (w.1 ++ v.text).head? := by
    rw [hv]
    cases w.1 <;> simp
  simp only [spanOf, looseSpan, hhead, List.length_append]
  congr 1 <;> omega

theorem elementsFrom_items {doc pre r : Bytes} (items : Items .array)
    (hdoc : doc = pre ++ (items.text ++ ch ']' :: r)) {fuel : Nat} (hfuel : items.text.length < fuel) (i : Nat) :
    (elementsFrom doc fuel (items.text ++ ch ']' :: r))[i]? =
      (items.place i).map fun p => looseSpan pre.length ((leads items)[i]?.getD []) p := by
  induction items using Items.induction generalizing pre fuel i with
  | last label before v after =>
    obtain ⟨fuel, rfl⟩ : ∃ n, fuel = n + 1 := ⟨fuel - 1, by omega⟩
    cases label
    have hend : EndsNumber (after.1 ++ ch ']' :: r) := endsNumber_ws (endsNumber_closing .array r)
    simp only [Items.text, Label.text, List.nil_append, List.append_assoc] at hdoc ⊢
    rw [elementsFrom_value before v hdoc hend, skipWs_ws, skipWs_cons (by decide)]
    cases i <;> rfl
  | more label before v after rest ih =>
    obtain ⟨fuel, rfl⟩ : ∃ n, fuel = n + 1 := ⟨fuel - 1, by omega⟩
    cases label
    have hend : EndsNumber (after.1 ++ ch ',' :: (rest.text ++ ch ']' :: r)) := endsNumber_ws (endsNumber_comma _)
    simp only [Items.text, Label.text, List.nil_append, List.append_assoc, List.cons_append, List.length_append,
      List.length_cons] at hdoc hfuel ⊢
    rw [elementsFrom_value before v hdoc hend, skipWs_ws, skipWs_cons isWs_comma]
    simp only [if_true]
    cases i with
    | zero => rfl
    | succ i =>
      have hdoc' : doc = (pre ++ before.1 ++ v.text ++ after.1 ++ [ch ',']) ++ (rest.text ++ ch ']' :: r) := by
        rw [hdoc]
        simp
      rw [List.getElem?_cons_succ, ih hdoc' (by omega), Items.place, Option.map_map]
      congr 1
      funext p
      simp only [Function.comp_apply, looseSpan, leads, List.getElem?_cons_succ, List.length_append, List.length_cons,
        List.length_nil, Label.text]
      congr 1 <;> omega

/-- The white space that is left in front of each element: none in front of the first. -/
def gaps (items : Items .array) : List Bytes := [] :: (leads items).tail

def dropLead : Items .array → Items .array
  | .last label _ v after => .last label Rfc8259.noWs v after
  | .more label _ v after rest => .more label Rfc8259.noWs v after rest

theorem leads_dropLead (items : Items .array) : leads (dropLead items) = gaps items := by
  cases items <;> rfl

theorem dropLead_text (items : Items .array) : ∃ w : Ws, items.text = w.1 ++ (dropLead items).text ∧
    ∀ (base : Nat) (i : Nat) (gap : Bytes), ((dropLead items).place i).map (looseSpan (base + w.1.length) gap) =
      (items.place i).map (looseSpan base gap) := by
  have hspan : ∀ (base : Nat) (w x y : Bytes) (v : Value) (gap : Bytes),
      looseSpan (base + w.length) gap ⟨x, v, y⟩ = looseSpan base gap ⟨w ++ x, v, y⟩ := by
    intro base w x y v gap
    simp [looseSpan, Nat.add_assoc]
  cases items with
  | last label before v after =>
    cases label
    refine ⟨before, by simp [Items.text, dropLead, Label.text], fun base i gap => ?_⟩
    cases i with
    | zero => simpa [Items.place, dropLead, Label.text] using hspan base before.1 [] after.1 v gap
    | succ i => rfl
  | more label before v after rest =>
    cases label
    refine ⟨before, by simp [Items.text, dropLead, Label.text], fun base i gap => ?_⟩
    cases i with
    | zero => simpa [Items.place, dropLead, Label.text] using hspan base before.1 [] _ v gap
    | succ i =>
      simp only [Items.place, dropLead, Option.map_map]
      congr 1
      funext p
      simpa [Label.text] using hspan base before.1 (v.text ++ (after.1 ++ ch ',' :: p.before)) p.behind p.value gap

theorem arrayElements_array {doc pre post : Bytes} {c : ValueSpan} {items : Items .array}
    (h : SpanOf doc c pre (.group .array items) post) (i : Nat) :
    (arrayElements doc c)[i]? =
      (items.place i).map fun p => looseSpan (pre.length + 1) ((gaps items)[i]?.getD []) p := by
  obtain ⟨-, hle, hlen⟩ := h.slice_eq
  obtain ⟨w, hw, hplace⟩ := dropLead_text items
  have hdoc : doc = pre ++ ch '[' :: (w.1 ++ ((dropLead items).text ++ ch ']' :: post)) := by
    rw [h.doc_eq, Value.text, hw]
    simp [Kind.opening, Kind.closing]
  have hstart : doc.drop c.start = ch '[' :: (w.1 ++ ((dropLead items).text ++ ch ']' :: post)) := by
    rw [h.span_eq, hdoc, List.drop_left]
  have hstring : c.isString = false := by
    rw [h.span_eq]
    rfl
  have hstop : ¬ c.stop ≤ c.start := by
    rw [h.span_eq, Value.text]
    simp
  have hfirst : ∃ b s, (dropLead items).text ++ ch ']' :: post = b :: s ∧ isWs b = false ∧ b ≠ ch ']' := by
    cases items with
    | last label before v after =>
      cases label
      obtain ⟨b, s, hb, hws, hclose, -⟩ := head_text v
      exact ⟨b, s ++ (after.1 ++ ch ']' :: post), by simp [dropLead, Items.text, Label.text, hb], hws, hclose⟩
    | more label before v after rest =>
      cases label
      obtain ⟨b, s, hb, hws, hclose, -⟩ := head_text v
      exact ⟨b, s ++ (after.1 ++ ch ',' :: (rest.text ++ ch ']' :: post)),
        by simp [dropLead, Items.text, Label.text, hb], hws, hclose⟩
  obtain ⟨b, s, hbs, hws, hclose⟩ := hfirst
  have hskip : skipWs (w.1 ++ ((dropLead items).text ++ ch ']' :: post)) = b :: s := by
    rw [skipWs_ws, hbs, skipWs_cons hws]
  have hpass : arrayElements doc c = elementsFrom doc (s.length + 1) (b :: s) := by
    unfold arrayElements
    rw [if_neg (by simp; omega), if_neg (by simp [hstring]; omega), hstart]
    simp only [hskip]
    rw [if_neg (by simp), if_neg hclose]
  have hdoc' : doc = (pre ++ ch '[' :: w.1) ++ ((dropLead items).text ++ ch ']' :: post) := by
    rw [hdoc]
    simp
  have hfuel : (dropLead items).text.length < s.length + 1 := by
    have := congrArg List.length hbs
    simp only [List.length_append, List.length_cons] at this
    omega
  rw [hpass, ← hbs, elementsFrom_items (dropLead items) hdoc' hfuel, leads_dropLead]
  have hbase : (pre ++ ch '[' :: w.1).length = pre.length + 1 + w.1.length := by simp; omega
  rw [hbase]
  exact hplace (pre.length + 1) i _

theorem arrayElements_empty {doc pre post : Bytes} {c : ValueSpan} {w : Ws}
    (h : SpanOf doc c pre (.empty .array w) post) : arrayElements doc c = [] := by
  have hstart : doc.drop c.start = ch '[' :: (w.1 ++ ch ']' :: post) := by
    rw [h.span_eq, h.doc_eq, List.drop_left, Value.text]
    simp [Kind.opening, Kind.closing]
  unfold arrayElements
  rw [hstart]
  simp only [skipWs_ws, skipWs_cons (show isWs (ch ']') = false by decide), ne_eq, not_true_eq_false, if_true,
    ite_self]

theorem arrayElements_other {doc pre post : Bytes} {c : ValueSpan} {v : Value} (h : SpanOf doc c pre v post)
    (hv : v.text.head? ≠ some (ch '[')) : arrayElements doc c = [] := by
  obtain ⟨b, s, hb, -⟩ := head_text v
  have hstart : doc.drop c.start = b :: (s ++ post) := by
    rw [h.span_eq, h.doc_eq, List.drop_left, hb, List.cons_append]
  have hne : b ≠ ch '[' := by simpa [hb] using hv
  unfold arrayElements
  rw [hstart]
  simp [hne]

/-! ## Probing -/

theorem findValueIn_index {doc pre post : Bytes} {c : ValueSpan} {v : Value} (h : SpanOf doc c pre v post) (i : Nat) :
    findValueIn doc c [.index i] = ((segIndex (.index i) v).bind v.child).map (placeSpan pre.length) := by
  rw [findValueIn_value h, lookupPlace_seg]

theorem findValueIn_array {doc pre post : Bytes} {c : ValueSpan} {items : Items .array}
    (h : SpanOf doc c pre (.group .array items) post) (i : Nat) :
    findValueIn doc c [.index i] = (items.place i).map (looseSpan (pre.length + 1) []) := by
  rw [findValueIn_index h, segIndex]
  have hplace : (Value.group .array items).child i = (items.place i).map fun p =>
      ⟨ch '[' :: p.before, p.value, p.behind ++ [ch ']']⟩ := rfl
  split
  · rw [Option.bind_some, hplace, Option.map_map]
    congr 1
    funext p
    simp only [Function.comp_apply, placeSpan, looseSpan, List.length_cons, List.length_nil, List.nil_append]
    congr 1 <;> omega
  · rename_i hlen
    rw [← Items.place_isSome, Bool.not_eq_true, Option.isSome_eq_false_iff, Option.isNone_iff_eq_none] at hlen
    rw [hlen]
    rfl

/-- The white space in front of a value belongs to the text before it. -/
theorem lead_of_place {k : Kind} {items : Items k} {i : Nat} {p : Place} (h : items.place i = some p) :
    ∃ (w : Ws) (x : Bytes), (leads items)[i]? = some w.1 ∧ p.before = x ++ w.1 := by
  induction items using Items.induction generalizing i p with
  | last label before v after =>
    cases i with
    | zero =>
      obtain rfl := Option.some.inj h
      exact ⟨before, label.text, rfl, rfl⟩
    | succ i => cases h
  | more label before v after rest ih =>
    cases i with
    | zero =>
      obtain rfl := Option.some.inj h
      exact ⟨before, label.text, rfl, rfl⟩
    | succ i =>
      obtain ⟨q, hq, rfl⟩ := Option.map_eq_some_iff.mp h
      obtain ⟨w, x, hw, hx⟩ := ih hq
      exact ⟨w, label.text ++ before.1 ++ v.text ++ after.1 ++ ch ',' :: x, hw, by simp [hx]⟩

theorem gap_of_place {items : Items .array} {i : Nat} {p : Place} (h : items.place i = some p) :
    ∃ (w : Ws) (x : Bytes), (gaps items)[i]?.getD [] = w.1 ∧ p.before = x ++ w.1 := by
  cases i with
  | zero => exact ⟨⟨[], by simp⟩, p.before, rfl, by simp⟩
  | succ i =>
    obtain ⟨w, x, hw, hx⟩ := lead_of_place h
    refine ⟨w, x, ?_, hx⟩
    rw [gaps, List.getElem?_cons_succ, List.getElem?_tail, hw, Option.getD_some]

theorem looseSpan_eq_iff {base : Nat} {w x : Bytes} {p : Place} (h : p.before = x ++ w) :
    looseSpan base w p = looseSpan base [] p ↔ w = [] := by
  constructor
  · intro heq
    have hstart := congrArg ValueSpan.start heq
    simp only [looseSpan, h, List.length_append, List.length_nil] at hstart
    exact List.eq_nil_of_length_eq_zero (by omega)
  · rintro rfl
    rfl

theorem leads_length {k : Kind} (items : Items k) : (leads items).length = items.values.length := by
  induction items using Items.induction with
  | last => rfl
  | more label before v after rest ih => simp [leads, Items.values, ih]

theorem leads_ne_nil {k : Kind} (items : Items k) : leads items ≠ [] := by
  cases items <;> simp [leads]

theorem gaps_agree_iff (items : Items .array) (base : Nat) :
    (∀ i p, items.place i = some p →
      looseSpan base ((gaps items)[i]?.getD []) p = looseSpan base [] p) ↔ ∀ w ∈ (leads items).tail, w = [] := by
  obtain ⟨w₀, ws, hws⟩ := List.exists_cons_of_ne_nil (leads_ne_nil items)
  have hgap : ∀ i, (gaps items)[i + 1]? = (leads items)[i + 1]? := by
    intro i
    simp [gaps, hws]
  constructor
  · intro hagree w hw
    rw [hws, List.tail_cons] at hw
    obtain ⟨i, hi, hget⟩ := List.mem_iff_getElem.mp hw
    have hlead : (leads items)[i + 1]? = some w := by
      rw [hws, List.getElem?_cons_succ, List.getElem?_eq_getElem hi, hget]
    have hlen : i + 1 < items.values.length := by
      rw [← leads_length, hws, List.length_cons]
      omega
    obtain ⟨p, hp⟩ := Option.isSome_iff_exists.mp ((items.place_isSome (i + 1)).mpr hlen)
    obtain ⟨w', x, hw', hx⟩ := lead_of_place hp
    obtain rfl := Option.some.inj (hw'.symm.trans hlead)
    have := hagree (i + 1) p hp
    rw [hgap, hlead, Option.getD_some] at this
    exact (looseSpan_eq_iff hx).mp this
  · intro htight i p hp
    cases i with
    | zero => rfl
    | succ i =>
      obtain ⟨w, x, hw, hx⟩ := lead_of_place hp
      have hmem : w.1 ∈ (leads items).tail := by
        rw [hws, List.getElem?_cons_succ] at hw
        rw [hws]
        exact List.mem_of_getElem? hw
      rw [hgap, hw, Option.getD_some, htight w.1 hmem]

/-- The pass reports what probing finds, exactly when no white space stands behind a comma of the array. -/
theorem arrayElements_agree_iff (doc : Bytes) (path : List PathSeg) (c : ValueSpan)
    (h : findValue doc path = some c) :
    (∃ v : Value, slice doc c.start c.stop = v.text) ∧
    ∀ v : Value, slice doc c.start c.stop = v.text →
      ((∀ i, (arrayElements doc c)[i]? = findValueIn doc c [.index i]) ↔ TightCommas v) := by
  obtain ⟨pre, v₀, post, hspan₀, -⟩ := findValue_found h
  refine ⟨⟨v₀, hspan₀.slice_eq.1⟩, fun v hv => ?_⟩
  have htext : v₀.text = v.text := hspan₀.slice_eq.1.symm.trans hv
  have hspan : SpanOf doc c pre v post :=
    ⟨by rw [← htext]; exact hspan₀.doc_eq, by rw [← htext]; exact hspan₀.span_eq, by rw [← htext]; exact hspan₀.skip⟩
  have hnone : (∀ i, segIndex (.index i) v = none) → arrayElements doc c = [] →
      ∀ i, (arrayElements doc c)[i]? = findValueIn doc c [.index i] := by
    intro hindex hempty i
    rw [hempty, findValueIn_index hspan, hindex]
    rfl
  match v, hspan with
  | .scalar t, hspan =>
    obtain ⟨b, s, ht, -, -, harray, -⟩ := head_scalar t
    exact iff_of_true (hnone (fun _ => rfl) (arrayElements_other hspan (by simp [Value.text, ht, harray]))) trivial
  | .string b, hspan =>
    exact iff_of_true (hnone (fun _ => rfl) (arrayElements_other hspan (by simp [Value.text, quoted]; decide))) trivial
  | .empty .object w, hspan =>
    exact iff_of_true (hnone (fun _ => rfl) (arrayElements_other hspan (by simp [Value.text, Kind.opening]; decide)))
      trivial
  | .group .object items, hspan =>
    exact iff_of_true (hnone (fun _ => rfl) (arrayElements_other hspan (by simp [Value.text, Kind.opening]; decide)))
      trivial
  | .empty .array w, hspan => exact iff_of_true (hnone (fun _ => rfl) (arrayElements_empty hspan)) trivial
  | .group .array items, hspan =>
    refine Iff.trans ?_ (gaps_agree_iff items (pre.length + 1))
    refine forall_congr' fun i => ?_
    rw [arrayElements_array hspan, findValueIn_array hspan]
    cases items.place i with
    | none => simp
    | some p => simp

/-- A blank behind a comma moves the start of the second element. -/
theorem arrayElements_blank : ∃ c, findValue (ascii "[1, 2]") [] = some c ∧
    ¬ ∀ i, (arrayElements (ascii "[1, 2]") c)[i]? = findValueIn (ascii "[1, 2]") c [.index i] :=
  ⟨⟨0, 6, false⟩, by decide, fun h => absurd (h 1) (by decide)⟩

theorem isScalar_digit {d : Byte} (hd : isDigit d) (hne : d ≠ ch '0') : Rfc8259.IsScalar [d] :=
  .inr ⟨[], [d], [], [], .inl rfl, .inr ⟨⟨by simp, by simpa using hd⟩, by simpa using hne⟩, .inl rfl, .inl rfl, rfl⟩

/-- The same array without the blank. -/
theorem arrayElements_agree_sample : findValue (ascii "[1,2]") [] = some ⟨0, 5, false⟩ ∧
    ∀ i, (arrayElements (ascii "[1,2]") ⟨0, 5, false⟩)[i]? = findValueIn (ascii "[1,2]") ⟨0, 5, false⟩ [.index i] :=
  let none : Ws := ⟨[], by simp⟩
  let one : Value := .scalar ⟨[ch '1'], isScalar_digit (by decide) (by decide)⟩
  let two : Value := .scalar ⟨[ch '2'], isScalar_digit (by decide) (by decide)⟩
  ⟨by decide, ((arrayElements_agree_iff (ascii "[1,2]") [] ⟨0, 5, false⟩ (by decide)).2
    (.group .array (.more .element none one none (.last .element none two none))) (by decide)).mpr
    (by simp [TightCommas, leads, none])⟩

end LlmGuard.Json
