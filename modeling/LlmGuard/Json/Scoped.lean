import LlmGuard.Json.Leaves

/-!
# Strings of a document and of a cut-out part

The strings that `string_leaves` lists are those of the parse tree, in order. A walk of a cut-out value lists what
the walk of the whole document lists there.
-/

namespace LlmGuard.Json

open Rfc8259 (Kind Label Value Items Ws Body Place quoted Ahead)

/-! ## The strings of a tree -/

theorem mem_itemLeaves {k : Kind} {items : Items k} {start : Nat} {l : List PathSeg × List Nat} :
    l ∈ itemLeaves start items ↔ ∃ j label p l', items.labels[j]? = some label ∧ items.place j = some p ∧
      l' ∈ leaves p.value ∧ l = (segOf label (start + j) :: l'.1, (start + j) :: l'.2) := by
  induction items using Items.induction generalizing start with
  | last label before v after =>
    rw [itemLeaves, List.mem_map]
    constructor
    · rintro ⟨l', hl', rfl⟩
      exact ⟨0, label, _, l', rfl, rfl, hl', rfl⟩
    · rintro ⟨j, label', p, l', hlabel, hp, hl', rfl⟩
      cases j with
      | zero =>
        obtain rfl := Option.some.inj hlabel
        obtain rfl := Option.some.inj hp
        exact ⟨l', hl', rfl⟩
      | succ j => cases hp
  | more label before v after rest ih =>
    rw [itemLeaves, List.mem_append, List.mem_map, ih]
    constructor
    · rintro (⟨l', hl', rfl⟩ | ⟨j, label', p, l', hlabel, hp, hl', rfl⟩)
      · exact ⟨0, label, _, l', rfl, rfl, hl', rfl⟩
      · exact ⟨j + 1, label', _, l', hlabel, Option.map_eq_some_iff.mpr ⟨p, hp, rfl⟩, hl',
          by rw [Nat.add_assoc, Nat.add_comm 1 j]⟩
    · rintro ⟨j, label', p, l', hlabel, hp, hl', rfl⟩
      cases j with
      | zero =>
        obtain rfl := Option.some.inj hlabel
        obtain rfl := Option.some.inj hp
        exact .inl ⟨l', hl', rfl⟩
      | succ j =>
        obtain ⟨q, hq, rfl⟩ := Option.map_eq_some_iff.mp hp
        exact .inr ⟨j, label', q, l', hlabel, hq, hl', by rw [Nat.add_assoc, Nat.add_comm 1 j]⟩

theorem mem_leaves_group {k : Kind} {items : Items k} {l : List PathSeg × List Nat} :
    l ∈ leaves (.group k items) ↔ ∃ j label p l', items.labels[j]? = some label ∧
      (Value.group k items).child j = some p ∧ l' ∈ leaves p.value ∧ l = (segOf label j :: l'.1, j :: l'.2) := by
  rw [leaves, mem_itemLeaves]
  constructor
  · rintro ⟨j, label, p, l', hlabel, hp, hl', rfl⟩
    exact ⟨j, label, _, l', hlabel, Option.map_eq_some_iff.mpr ⟨p, hp, rfl⟩, hl', by rw [Nat.zero_add]⟩
  · rintro ⟨j, label, p, l', hlabel, hp, hl', rfl⟩
    obtain ⟨q, hq, rfl⟩ := Option.map_eq_some_iff.mp hp
    exact ⟨j, label, q, l', hlabel, hq, hl', by rw [Nat.zero_add]⟩

theorem child_mem {k : Kind} {items : Items k} {j : Nat} {p : Place} (h : (Value.group k items).child j = some p) :
    p.value ∈ items.values := by
  obtain ⟨q, hq, rfl⟩ := Option.map_eq_some_iff.mp h
  have := Items.place_value items j
  rw [hq, Option.map_some] at this
  exact List.mem_of_getElem? this.symm

theorem mem_leaves_iff (v : Value) (a : List Nat) :
    (∃ path, (path, a) ∈ leaves v) ↔ ∃ p b, v.place a = some p ∧ p.value = .string b := by
  induction v using Value.induction generalizing a with
  | scalar t =>
    constructor
    · rintro ⟨path, h⟩
      cases h
    · rintro ⟨p, b, hp, hb⟩
      cases a with
      | nil =>
        obtain rfl := Option.some.inj hp
        cases hb
      | cons j a => cases hp
  | string b =>
    constructor
    · rintro ⟨path, h⟩
      obtain rfl := (Prod.mk.inj (List.mem_singleton.mp h)).2
      exact ⟨_, b, rfl, rfl⟩
    · rintro ⟨p, b, hp, hb⟩
      cases a with
      | nil => exact ⟨[], List.mem_singleton.mpr rfl⟩
      | cons j a => cases hp
  | empty k w =>
    constructor
    · rintro ⟨path, h⟩
      cases h
    · rintro ⟨p, b, hp, hb⟩
      cases a with
      | nil =>
        obtain rfl := Option.some.inj hp
        cases hb
      | cons j a => cases hp
  | group k items ih =>
    constructor
    · rintro ⟨path, h⟩
      obtain ⟨j, label, p, l', -, hp, hl', hl⟩ := mem_leaves_group.mp h
      obtain ⟨rfl, rfl⟩ := Prod.mk.inj hl
      obtain ⟨q, b, hq, hb⟩ := (ih p.value (child_mem hp) l'.2).mp ⟨l'.1, hl'⟩
      exact ⟨_, b, Value.place_cons.mpr ⟨p, q, hp, hq, rfl⟩, hb⟩
    · rintro ⟨r, b, hr, hb⟩
      cases a with
      | nil =>
        obtain rfl := Option.some.inj hr
        cases hb
      | cons j a =>
        obtain ⟨p, q, hp, hq, rfl⟩ := Value.place_cons.mp hr
        obtain ⟨path, hpath⟩ := (ih p.value (child_mem hp) a).mpr ⟨q, b, hq, hb⟩
        have hj : j < items.labels.length := by
          rw [Items.labels_length]
          obtain ⟨p', hp', -⟩ := Option.map_eq_some_iff.mp hp
          exact (Items.place_isSome items j).mp (by rw [hp', Option.isSome_some])
        exact ⟨_, mem_leaves_group.mpr ⟨j, items.labels[j], p, (path, a), List.getElem?_eq_getElem hj, hp, hpath, rfl⟩⟩

theorem itemLeaves_ahead {k : Kind} (items : Items k)
    (hvalues : ∀ v ∈ items.values, (leaves v).Pairwise fun l m => Ahead l.2 m.2) (start : Nat) :
    (itemLeaves start items).Pairwise fun l m => Ahead l.2 m.2 := by
  have hfirst : ∀ (v : Value) (seg : PathSeg) (start : Nat), (leaves v).Pairwise (fun l m => Ahead l.2 m.2) →
      ((leaves v).map fun l => (seg :: l.1, start :: l.2)).Pairwise fun l m => Ahead l.2 m.2 := by
    intro v seg start h
    rw [List.pairwise_map]
    exact h.imp .inside
  induction items using Items.induction generalizing start with
  | last label before v after => exact hfirst v _ start (hvalues v (by simp [Items.values]))
  | more label before v after rest ih =>
    rw [itemLeaves, List.pairwise_append]
    refine ⟨hfirst v _ start (hvalues v (by simp [Items.values])),
      ih (fun w hw => hvalues w (by simp [Items.values, hw])) (start + 1), ?_⟩
    intro l hl m hm
    obtain ⟨l', -, rfl⟩ := List.mem_map.mp hl
    obtain ⟨j, -, -, m', -, -, -, rfl⟩ := mem_itemLeaves.mp hm
    exact .here (by omega)

theorem leaves_ahead (v : Value) : (leaves v).Pairwise fun l m => Ahead l.2 m.2 := by
  induction v using Value.induction with
  | scalar t => exact .nil
  | string b => exact List.pairwise_singleton _ _
  | empty k w => exact .nil
  | group k items ih =>
    rw [leaves]
    exact itemLeaves_ahead items ih 0

theorem UniqueKeys.child {v : Value} (h : UniqueKeys v) {j : Nat} {p : Place} (hp : v.child j = some p) :
    UniqueKeys p.value := by
  intro a q hq
  exact h (j :: a) (p.inside q) (Value.place_cons.mpr ⟨p, q, hp, hq, rfl⟩)

/-- With distinct keys every label leads to its own item. -/
theorem segIndex_label {k : Kind} {items : Items k} (hnames : DistinctNames (.group k items)) {j : Nat}
    {label : Label k} (hlabel : items.labels[j]? = some label) : segIndex (segOf label j) (.group k items) = some j := by
  obtain ⟨hj, hget⟩ := List.getElem?_eq_some_iff.mp hlabel
  cases label with
  | element =>
    rw [Items.labels_length] at hj
    exact if_pos hj
  | key before name after =>
    change items.labels.findIdx? (fun label => nameOf label = some (decodeString (quoted name.1))) = some j
    rw [List.findIdx?_eq_some_iff_getElem]
    refine ⟨hj, by simp [hget, nameOf], ?_⟩
    intro i hij
    have hpair := List.pairwise_iff_getElem.mp (List.pairwise_filterMap.mp hnames) i j (hij.trans hj) hj hij
    rw [hget] at hpair
    simpa using fun hname => hpair _ hname _ rfl rfl

theorem lookup_leaf {v : Value} (hkeys : UniqueKeys v) {path : List PathSeg} {a : List Nat}
    (h : (path, a) ∈ leaves v) : lookup v path = some a := by
  induction v using Value.induction generalizing path a with
  | scalar t => cases h
  | string b =>
    obtain ⟨rfl, rfl⟩ := Prod.mk.inj (List.mem_singleton.mp h)
    rfl
  | empty k w => cases h
  | group k items ih =>
    obtain ⟨j, label, p, l', hlabel, hp, hl', hl⟩ := mem_leaves_group.mp h
    obtain ⟨rfl, rfl⟩ := Prod.mk.inj hl
    have hseg := segIndex_label (hkeys [] _ rfl) hlabel
    have hrest := ih p.value (child_mem hp) (hkeys.child hp) hl'
    rw [lookup]
    simp only [hseg, hp, hrest, Option.bind_eq_bind, Option.bind_some]

/-! ## The strings of the value at a span -/

/-- The string at a path and an address of a value, in a document where the value starts at `base`. -/
def leafOf (root : List PathSeg) (base : Nat) (v : Value) (l : List PathSeg × List Nat) : Option StringLeaf :=
  (v.place l.2).map fun p => ⟨root ++ l.1, placeSpan base p⟩

theorem leafOf_of_leafAt {root : List PathSeg} {base : Nat} {v : Value} {leaf : StringLeaf}
    {l : List PathSeg × List Nat} (h : LeafAt root base v leaf l) : leafOf root base v l = some leaf := by
  obtain ⟨hpath, p, hp, hspan⟩ := h
  rw [leafOf, hp, Option.map_some, ← hpath, ← hspan]

theorem stringLeaves_eq {doc : Bytes} {root : List PathSeg} {c : ValueSpan} {pre post : Bytes} {v : Value}
    (hfind : findValue doc root = some c) (h : SpanOf doc c pre v post) :
    stringLeaves doc root = (leaves v).filterMap (leafOf root pre.length v) := by
  have hleaves := stringLeaves_span hfind h
  generalize stringLeaves doc root = ls at hleaves ⊢
  generalize leaves v = ks at hleaves ⊢
  induction hleaves with
  | nil => rfl
  | cons hl _ ih => rw [List.filterMap_cons, leafOf_of_leafAt hl, ← ih]

theorem SpanOf.inside {doc : Bytes} {c : ValueSpan} {pre post : Bytes} {v : Value} (h : SpanOf doc c pre v post)
    {path : List PathSeg} {p : Place} (hp : lookupPlace v path = some p) :
    SpanOf doc (placeSpan pre.length p) (pre ++ p.before) p.value (p.behind ++ post) := by
  refine ⟨by rw [doc_of_place h.doc_eq (lookupPlace_text hp), List.append_assoc], ?_, ?_⟩
  · simp only [placeSpan, List.length_append]
  · have hfrom := findFrom_value path v h.skip
    rw [hp] at hfrom
    exact findFrom_skip hfrom

theorem stringLeaves_append {doc : Bytes} {path : List PathSeg} {c : ValueSpan} {pre post : Bytes} {v : Value}
    (h : SpanOf doc c pre v post) (hfrom : findFrom path (skipWs doc) = some (v.text ++ post, post))
    (path' : List PathSeg) :
    stringLeaves doc (path ++ path') = ((lookupPlace v path').map fun p =>
      (leaves p.value).filterMap (leafOf (path ++ path') (pre ++ p.before).length p.value)).getD [] := by
  have hfind := findValue_append h hfrom path'
  cases hp : lookupPlace v path' with
  | none =>
    rw [hp] at hfind
    unfold stringLeaves
    simp only [hfind]
    rfl
  | some p =>
    rw [hp] at hfind
    exact stringLeaves_eq hfind (h.inside hp)

theorem spanOf_cut (v : Value) :
    SpanOf v.text ⟨0, v.text.length, v.text.head? = some (ch '"')⟩ [] v [] ∧
      findFrom [] (skipWs v.text) = some (v.text ++ [], []) := by
  have hskip : skipValue (v.text ++ []) = some [] := skipValue_text v (by simp [EndsNumber])
  have hws := skipWs_value v []
  refine ⟨⟨by simp, by simp, hskip⟩, ?_⟩
  rw [List.append_nil] at hws hskip
  rw [hws, findFrom, hskip, List.append_nil]
  rfl

theorem stringLeavesIn_append {doc : Bytes} {path : List PathSeg} {c : ValueSpan}
    (h : findValue doc path = some c) (path' : List PathSeg) :
    stringLeaves doc (path ++ path') =
      (stringLeavesIn doc c path').map fun leaf => ⟨path ++ leaf.path, leaf.span⟩ := by
  obtain ⟨pre, v, post, hspan, hfrom⟩ := findValue_found h
  obtain ⟨hslice, hle, hlen⟩ := hspan.slice_eq
  obtain ⟨hcut, hcutFrom⟩ := spanOf_cut v
  have hstart : c.start = pre.length := by rw [hspan.span_eq]
  have hinner := stringLeaves_append hcut hcutFrom path'
  rw [List.nil_append] at hinner
  unfold stringLeavesIn
  rw [stringLeaves_append hspan hfrom, if_neg (by simp; omega), hslice, hinner, hstart]
  cases lookupPlace v path' with
  | none => rfl
  | some p =>
    simp only [Option.map_some, Option.getD_some, List.map_filterMap]
    congr 1
    funext l
    simp only [leafOf, Option.map_map]
    congr 1
    funext q
    simp only [Function.comp, placeSpan, ValueSpan.shift, List.append_assoc, List.nil_append, List.length_append,
      StringLeaf.mk.injEq, ValueSpan.mk.injEq, true_and]
    exact ⟨by omega, by omega, trivial⟩

/-- Scoped lookups and walks find what lookups and walks from the root find. -/
theorem scoped_eq_root (doc : Bytes) (path : List PathSeg) (c : ValueSpan) (h : findValue doc path = some c) :
    (∀ path', findValueIn doc c path' = findValue doc (path ++ path')) ∧
      ∀ path', (stringLeavesIn doc c path').map StringLeaf.span =
        (stringLeaves doc (path ++ path')).map StringLeaf.span := by
  refine ⟨findValueIn_append h, fun path' => ?_⟩
  rw [stringLeavesIn_append h path', List.map_map]
  rfl

theorem sampleDoc_a : findValue sampleDoc [.key (ascii "a")] = some ⟨8, 27, false⟩ := by decide +kernel

theorem scoped_eq_root_sample :
    (∀ path', findValueIn sampleDoc ⟨8, 27, false⟩ path' = findValue sampleDoc ([.key (ascii "a")] ++ path')) ∧
      ∀ path', (stringLeavesIn sampleDoc ⟨8, 27, false⟩ path').map StringLeaf.span =
        (stringLeaves sampleDoc ([.key (ascii "a")] ++ path')).map StringLeaf.span :=
  scoped_eq_root sampleDoc [.key (ascii "a")] _ sampleDoc_a

/-! ## The strings of a valid document -/

theorem Reading.spanOf {doc : Bytes} (t : Rfc8259.Reading doc) :
    SpanOf doc ⟨t.before.1.length, t.before.1.length + t.value.text.length, t.value.text.head? = some (ch '"')⟩
      t.before.1 t.value t.after.1 ∧ findFrom [] (skipWs doc) = some (t.value.text ++ t.after.1, t.after.1) := by
  obtain ⟨w, v, w', hdoc⟩ := t
  rw [List.append_assoc] at hdoc
  have hend : EndsNumber (w'.1 ++ []) := endsNumber_ws (by simp [EndsNumber])
  rw [List.append_nil] at hend
  have hskip := skipValue_text v hend
  have hws : skipWs doc = v.text ++ w'.1 := by rw [hdoc, skipWs_ws, skipWs_value]
  refine ⟨⟨hdoc, rfl, hskip⟩, ?_⟩
  rw [hws, findFrom, hskip]
  rfl

theorem leafOf_eq_some {root : List PathSeg} {base : Nat} {v : Value} {l : List PathSeg × List Nat} {leaf : StringLeaf}
    (hl : l ∈ leaves v) (h : leafOf root base v l = some leaf) :
    ∃ p b, v.place l.2 = some p ∧ p.value = .string b ∧ leaf = ⟨root ++ l.1, placeSpan base p⟩ := by
  obtain ⟨p, hp, rfl⟩ := Option.map_eq_some_iff.mp h
  obtain ⟨q, b, hq, hb⟩ := (mem_leaves_iff v l.2).mp ⟨l.1, hl⟩
  obtain rfl := Option.some.inj (hp.symm.trans hq)
  exact ⟨p, b, hp, hb, rfl⟩

theorem leafOf_order {root : List PathSeg} {base : Nat} {v : Value} {l m : List PathSeg × List Nat}
    (hahead : Ahead l.2 m.2) {x y : StringLeaf} (hx : leafOf root base v l = some x)
    (hy : leafOf root base v m = some y) : x.span.stop ≤ y.span.start := by
  obtain ⟨p, hp, rfl⟩ := Option.map_eq_some_iff.mp hx
  obtain ⟨q, hq, rfl⟩ := Option.map_eq_some_iff.mp hy
  have := Value.place_order hahead hp hq
  simp only [Place.endsBefore, placeSpan] at this ⊢
  omega

theorem stringLeaves_reading {doc : Bytes} (t : Rfc8259.Reading doc) :
    stringLeaves doc [] = (leaves t.value).filterMap (leafOf [] t.before.1.length t.value) := by
  obtain ⟨hspan, hfrom⟩ := Reading.spanOf t
  have hroot := stringLeaves_append hspan hfrom []
  simpa [lookupPlace, lookup, Value.place] using hroot

/-- On a valid document `string_leaves` lists exactly the strings of the parse tree, each once and from left to
right, and never a key. The spans do not overlap and hold the quoted strings. With distinct keys the path of a
string leads back to it. -/
theorem stringLeaves_complete (doc : Bytes) (hvalid : valid doc = true) :
    Nonempty (Rfc8259.Reading doc) ∧ ∀ t : Rfc8259.Reading doc,
      (∃ addresses : List (List Nat), addresses.Pairwise Ahead ∧
        (∀ a, a ∈ addresses ↔ ∃ p b, t.value.place a = some p ∧ p.value = .string b) ∧
        List.Forall₂ (fun leaf a => ∃ p b, t.value.place a = some p ∧ p.value = .string b ∧
          leaf.span.start = t.before.1.length + p.before.length ∧ leaf.span.isString = true ∧
          slice doc leaf.span.start leaf.span.stop = quoted b.1) (stringLeaves doc []) addresses) ∧
      (stringLeaves doc []).Pairwise (fun l m => l.span.stop ≤ m.span.start) ∧
      (∀ leaf ∈ stringLeaves doc [], leaf.span.start < leaf.span.stop) ∧
      (UniqueKeys t.value → ∀ leaf ∈ stringLeaves doc [], findValue doc leaf.path = some leaf.span) := by
  refine ⟨(valid_iff_reading doc).mp hvalid, fun t => ?_⟩
  obtain ⟨hspan, hfrom⟩ := Reading.spanOf t
  have hlist := stringLeaves_reading t
  have hat := stringLeaves_span (findValue_append hspan hfrom []) hspan
  refine ⟨⟨(leaves t.value).map (·.2), ?_, ?_, ?_⟩, ?_, ?_, ?_⟩
  · rw [List.pairwise_map]
    exact leaves_ahead t.value
  · intro a
    rw [← mem_leaves_iff, List.mem_map]
    exact ⟨fun ⟨l, hl, ha⟩ => ⟨l.1, ha ▸ hl⟩, fun ⟨path, hpath⟩ => ⟨_, hpath, rfl⟩⟩
  · rw [List.forall₂_map_right_iff, List.forall₂_iff_zip]
    obtain ⟨hlength, hzip⟩ := List.forall₂_iff_zip.mp hat
    refine ⟨hlength, fun {leaf l} hmem => ?_⟩
    obtain ⟨p, b, hp, hb, rfl⟩ := leafOf_eq_some (List.of_mem_zip hmem).2 (leafOf_of_leafAt (hzip hmem))
    have htext : t.value.text = p.text := Value.place_text hp
    refine ⟨p, b, hp, hb, rfl, by simp [placeSpan, hb, Value.text, quoted], ?_⟩
    rw [(slice_placeSpan hspan.doc_eq htext).1, hb]
    rfl
  · rw [hlist, List.pairwise_filterMap]
    exact (leaves_ahead t.value).imp fun hahead x hx y hy => leafOf_order hahead hx hy
  · intro leaf hleaf
    rw [hlist] at hleaf
    obtain ⟨l, hl, hleaf⟩ := List.mem_filterMap.mp hleaf
    obtain ⟨p, b, hp, hb, rfl⟩ := leafOf_eq_some hl hleaf
    simp [placeSpan, hb, Value.text, quoted]
  · intro hkeys leaf hleaf
    rw [hlist] at hleaf
    obtain ⟨l, hl, hleaf⟩ := List.mem_filterMap.mp hleaf
    obtain ⟨p, b, hp, hb, rfl⟩ := leafOf_eq_some hl hleaf
    have hlookup : lookupPlace t.value l.1 = some p := by
      rw [lookupPlace, lookup_leaf hkeys hl, Option.bind_some, hp]
    have hfind := findValue_append hspan hfrom l.1
    rw [hlookup] at hfind
    exact hfind

/-! ## Nested strings -/

theorem uniqueKeys_string (b : Rfc8259.Body) : UniqueKeys (.string b) := by
  intro a p hp
  cases a with
  | nil =>
    obtain rfl := Option.some.inj hp
    trivial
  | cons j a => cases hp

theorem uniqueKeys_group {k : Rfc8259.Kind} {items : Rfc8259.Items k} (hnames : (items.labels.filterMap nameOf).Nodup)
    (hvalues : ∀ v ∈ items.values, UniqueKeys v) : UniqueKeys (.group k items) := by
  intro a p hp
  cases a with
  | nil =>
    obtain rfl := Option.some.inj hp
    exact hnames
  | cons j a =>
    obtain ⟨q, r, hq, hr, rfl⟩ := Value.place_cons.mp hp
    obtain ⟨q', hq', rfl⟩ := Option.map_eq_some_iff.mp hq
    have hvalue := Items.place_value items j
    rw [hq', Option.map_some] at hvalue
    exact hvalues q'.value (List.mem_of_getElem? hvalue.symm) a r hr

def oneByte (b : Byte) (h : 0x20 ≤ b ∧ b ≠ ch '"' ∧ b ≠ ch '\\') : Rfc8259.Body := ⟨[b], .plain h.1 h.2.1 h.2.2 .nil⟩

/-- An array of two strings. -/
def innerArray : Rfc8259.Items .array :=
  .more (.element) Rfc8259.noWs (.string (oneByte (ch 'x') (by decide))) Rfc8259.noWs
    (.last (.element) Rfc8259.noWs (.string (oneByte (ch 'a') (by decide))) Rfc8259.noWs)

/-- A key of the outer object once more. -/
def innerObject : Rfc8259.Items .object :=
  .last (.key Rfc8259.noWs (oneByte (ch 'a') (by decide)) Rfc8259.noWs) Rfc8259.noWs
    (.string (oneByte (ch 'y') (by decide))) Rfc8259.noWs

def outerObject : Rfc8259.Items .object :=
  .more (.key Rfc8259.noWs (oneByte (ch 'a') (by decide)) Rfc8259.noWs) Rfc8259.noWs (.group .array innerArray)
    Rfc8259.noWs (.last (.key Rfc8259.noWs (oneByte (ch 'b') (by decide)) Rfc8259.noWs) Rfc8259.noWs
      (.group .object innerObject) Rfc8259.noWs)

theorem outerObject_keys : UniqueKeys (.group .object outerObject) := by
  refine uniqueKeys_group (by decide) fun v hv => ?_
  rcases List.mem_cons.mp hv with rfl | hv
  · refine uniqueKeys_group (by decide) fun w hw => ?_
    rcases List.mem_cons.mp hw with rfl | hw
    · exact uniqueKeys_string _
    · rw [List.mem_singleton.mp hw]
      exact uniqueKeys_string _
  · rw [List.mem_singleton.mp hv]
    refine uniqueKeys_group (by decide) fun w hw => ?_
    rw [List.mem_singleton.mp hw]
    exact uniqueKeys_string _

def nestedText : Bytes := ascii "\x7b\"a\":[\"x\",\"a\"],\"b\":\x7b\"a\":\"y\"\x7d\x7d"

/-- The strings in their order, and none of the keys. -/
theorem stringLeaves_complete_sample :
    stringLeaves nestedText [] =
        [⟨[.key (ascii "a"), .index 0], ⟨6, 9, true⟩⟩, ⟨[.key (ascii "a"), .index 1], ⟨10, 13, true⟩⟩,
          ⟨[.key (ascii "b"), .key (ascii "a")], ⟨24, 27, true⟩⟩] ∧
      (stringLeaves nestedText []).Pairwise (fun l m => l.span.stop ≤ m.span.start) ∧
      ∀ leaf ∈ stringLeaves nestedText [], findValue nestedText leaf.path = some leaf.span := by
  let t : Rfc8259.Reading nestedText := ⟨⟨[], by simp⟩, .group .object outerObject, ⟨[], by simp⟩, by decide⟩
  obtain ⟨-, hapart, -, hback⟩ := (stringLeaves_complete nestedText (by decide +kernel)).2 t
  exact ⟨by decide +kernel, hapart, hback outerObject_keys⟩

end LlmGuard.Json
