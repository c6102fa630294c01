import LlmGuard.Json.Scan
import LlmGuard.Json.Spec

/-!
# `find_value` against the parse tree

In the text of a value, a segment takes the value that it names. What stands behind the container does not
matter.
-/

namespace LlmGuard.Json

open Rfc8259 (Kind Label Value Items Ws Body Place Stops quoted)

/-- What a lookup reports for a place with `r` behind the value. -/
def seen (r : Bytes) (p : Place) : Bytes × Bytes := (p.value.text ++ (p.behind ++ r), p.behind ++ r)

theorem skipWs_cons {c : Byte} (hc : isWs c = false) (s : Bytes) : skipWs (c :: s) = c :: s :=
  skipWs_of_head (by simpa using hc)

theorem isWs_comma : isWs (ch ',') = false := by decide

theorem skipWs_value (v : Value) (r : Bytes) : skipWs (v.text ++ r) = v.text ++ r := by
  obtain ⟨c, s, hv, hws, -⟩ := head_text v
  rw [hv]
  exact skipWs_of_head (by simpa using hws)

theorem skipValue_ws (w : Ws) (s : Bytes) : skipValue (w.1 ++ s) = skipValue s := by
  rw [← skipValue_skipWs, skipWs_ws, skipValue_skipWs]

/-! ## An index in an array -/

theorem findIndex_value (index fuel idx : Nat) (w : Ws) (v : Value) {r : Bytes} (hr : EndsNumber r) :
    findIndex index (fuel + 1) idx (w.1 ++ (v.text ++ r)) =
      if idx = index then some (v.text ++ r, r)
      else match skipWs r with
        | [] => none
        | d :: rest => if d = ch ',' then findIndex index fuel (idx + 1) rest else none := by
  have hskip := skipValue_text v hr
  obtain ⟨c, s, hv, -, hclose, -⟩ := head_text v
  rw [findIndex, skipWs_ws, skipWs_value]
  rw [hv, List.cons_append] at hskip ⊢
  simp only [hskip, Option.bind_eq_bind, Option.bind_some]
  rewrite [if_neg hclose]
  rfl

theorem findIndex_items (items : Items .array) (r : Bytes) {index fuel idx : Nat} (hle : idx ≤ index)
    (hfuel : items.text.length < fuel) :
    findIndex index fuel idx (items.text ++ ch ']' :: r) =
      (items.place (index - idx)).map (seen (ch ']' :: r)) := by
  induction items using Items.induction generalizing fuel idx with
  | last label before v after =>
    obtain ⟨fuel, rfl⟩ : ∃ n, fuel = n + 1 := ⟨fuel - 1, by omega⟩
    cases label
    have hend : EndsNumber (after.1 ++ ch ']' :: r) := endsNumber_ws (endsNumber_closing .array r)
    simp only [Items.text, Label.text, List.nil_append, List.append_assoc]
    rw [findIndex_value index fuel idx before v hend]
    split
    · rename_i heq
      subst heq
      simp [Items.place, seen]
    · rename_i hne
      rw [skipWs_ws, skipWs_cons (by decide)]
      obtain ⟨j, hj⟩ : ∃ j, index - idx = j + 1 := ⟨index - idx - 1, by omega⟩
      rw [hj]
      rfl
  | more label before v after rest ih =>
    obtain ⟨fuel, rfl⟩ : ∃ n, fuel = n + 1 := ⟨fuel - 1, by omega⟩
    cases label
    have hend : EndsNumber (after.1 ++ ch ',' :: (rest.text ++ ch ']' :: r)) := endsNumber_ws (endsNumber_comma _)
    simp only [Items.text, Label.text, List.nil_append, List.append_assoc, List.cons_append, List.length_append,
      List.length_cons] at hfuel ⊢
    rw [findIndex_value index fuel idx before v hend]
    split
    · rename_i heq
      subst heq
      simp [Items.place, seen]
    · rename_i hne
      rw [skipWs_ws, skipWs_cons isWs_comma]
      simp only [if_true]
      obtain ⟨j, hj⟩ : ∃ j, index - idx = j + 1 := ⟨index - idx - 1, by omega⟩
      rw [ih (by omega) (by omega), hj, Items.place, Option.map_map, show index - (idx + 1) = j by omega]
      rfl

/-! ## A key in an object -/

theorem upTo_append (s stop : Bytes) : upTo (s ++ stop) stop = s := by
  rw [upTo, List.length_append, Nat.add_sub_cancel, List.take_left]

theorem readKey_label (name : Body) (after : Ws) (s : Bytes) :
    readKey (quoted name.1 ++ (after.1 ++ ch ':' :: s)) = some (decodeString (quoted name.1), skipWs s) := by
  unfold readKey
  rw [skipString_quoted]
  simp only [Option.bind_eq_bind, Option.bind_some]
  rw [skipWs_ws, skipWs_cons (by decide)]
  simp only [if_true, upTo_append]

theorem findKey_value (key : Bytes) (fuel : Nat) (before : Ws) (name : Body) (after w : Ws) (v : Value) {r : Bytes}
    (hskip : skipValue (v.text ++ r) = some r) :
    findKey key (fuel + 1) ((Label.key before name after).text ++ (w.1 ++ (v.text ++ r))) =
      if decodeString (quoted name.1) = key then some (v.text ++ r, r)
      else match skipWs r with
        | [] => none
        | d :: rest => if d = ch ',' then findKey key fuel rest else none := by
  have htext : (Label.key before name after).text ++ (w.1 ++ (v.text ++ r)) =
      before.1 ++ (quoted name.1 ++ (after.1 ++ ch ':' :: (w.1 ++ (v.text ++ r)))) := by
    simp [Label.text]
  have hread := readKey_label name after (w.1 ++ (v.text ++ r))
  have hquoted : ∃ s, quoted name.1 = ch '"' :: s := ⟨_, rfl⟩
  obtain ⟨s, hs⟩ := hquoted
  rw [skipWs_ws, skipWs_value, hs, List.cons_append] at hread
  rw [htext, findKey, skipWs_ws, hs, List.cons_append, skipWs_cons (by decide)]
  simp only [hread, hskip, Option.bind_eq_bind, Option.bind_some]
  rewrite [if_neg (by decide)]
  rfl

theorem findName_cons (key : Bytes) (before : Ws) (name : Body) (after : Ws) (labels : List (Label .object)) :
    (Label.key before name after :: labels).findIdx? (fun label => nameOf label = some key) =
      if decodeString (quoted name.1) = key then some 0
      else (labels.findIdx? fun label => nameOf label = some key).map (· + 1) := by
  rw [List.findIdx?_cons]
  simp [nameOf]

/-- No member is found behind a value that `post` follows. -/
def Stuck (post : Bytes) : Prop := ∀ key fuel, (match skipWs post with
  | [] => none
  | d :: rest => if d = ch ',' then findKey key fuel rest else none) = none

/-- `skip_value` ends behind the last value. -/
def LastEnds : Items .object → Bytes → Prop
  | .last _ _ v after, post => skipValue (v.text ++ (after.1 ++ post)) = some (after.1 ++ post)
  | .more _ _ _ _ rest, post => LastEnds rest post

theorem findKey_open {items : Items .object} {post : Bytes} (hlast : LastEnds items post) (hstuck : Stuck post)
    (key : Bytes) {fuel : Nat} (hfuel : items.text.length < fuel) :
    findKey key fuel (items.text ++ post) =
      (items.labels.findIdx? fun label => nameOf label = some key).bind fun j => (items.place j).map (seen post) := by
  induction items using Items.induction generalizing fuel with
  | last label before v after =>
    obtain ⟨fuel, rfl⟩ : ∃ n, fuel = n + 1 := ⟨fuel - 1, by omega⟩
    cases label with
    | key outer name inner =>
      rw [LastEnds] at hlast
      simp only [Items.text, List.append_assoc]
      rw [findKey_value key fuel outer name inner before v hlast, Items.labels, findName_cons]
      split
      · simp [Items.place, seen]
      · rw [skipWs_ws]
        exact hstuck key fuel
  | more label before v after rest ih =>
    obtain ⟨fuel, rfl⟩ : ∃ n, fuel = n + 1 := ⟨fuel - 1, by omega⟩
    cases label with
    | key outer name inner =>
      rw [LastEnds] at hlast
      have hend : EndsNumber (after.1 ++ ch ',' :: (rest.text ++ post)) := endsNumber_ws (endsNumber_comma _)
      simp only [Items.text, List.append_assoc, List.cons_append, List.length_append, List.length_cons] at hfuel ⊢
      rw [findKey_value key fuel outer name inner before v (skipValue_text v hend), Items.labels, findName_cons]
      split
      · simp [Items.place, seen]
      · rw [skipWs_ws, skipWs_cons isWs_comma]
        simp only [if_true]
        rw [ih hlast (by omega), Option.bind_map]
        congr 1
        funext j
        simp only [Function.comp_apply, Items.place, Option.map_map]
        rfl

theorem stuck_closing (r : Bytes) : Stuck (ch '\x7d' :: r) := by
  intro key fuel
  rw [skipWs_cons (by decide)]
  rfl

theorem lastEnds_closing (items : Items .object) (r : Bytes) : LastEnds items (ch '\x7d' :: r) := by
  induction items using Items.induction with
  | last label before v after =>
    rw [LastEnds]
    exact skipValue_text v (endsNumber_ws (endsNumber_closing .object r))
  | more label before v after rest ih =>
    rw [LastEnds]
    exact ih

theorem findKey_items (items : Items .object) (r key : Bytes) {fuel : Nat} (hfuel : items.text.length < fuel) :
    findKey key fuel (items.text ++ ch '\x7d' :: r) =
      (items.labels.findIdx? fun label => nameOf label = some key).bind fun j =>
        (items.place j).map (seen (ch '\x7d' :: r)) :=
  findKey_open (lastEnds_closing items r) (stuck_closing r) key hfuel

/-! ## Paths -/

theorem seen_inside (p q : Place) (r : Bytes) : seen r (p.inside q) = seen (p.behind ++ r) q := by
  simp [seen, Place.inside]

theorem findSegment_opening (seg : PathSeg) (k : Kind) (s : Bytes) :
    findSegment seg (k.opening :: s) =
      match k, seg with
      | .array, .index index => findIndex index (s.length + 1) 0 s
      | .object, .key key => findKey key (s.length + 1) s
      | _, _ => none := by
  rw [findSegment, skipWs_cons (isWs_opening k)]
  cases k <;> cases seg <;> rfl

theorem findSegment_atom {v : Value} (h : IsAtom v) (seg : PathSeg) (r : Bytes) :
    findSegment seg (v.text ++ r) = none := by
  have hnone : ∀ c s, isWs c = false → c ≠ ch '[' → c ≠ ch '\x7b' → findSegment seg (c :: s) = none := by
    intro c s hws harray hobject
    rw [findSegment, skipWs_cons hws]
    cases seg <;> simp [harray, hobject]
  cases v with
  | scalar t =>
    obtain ⟨c, s, ht, hws, -, harray, hobject, -⟩ := head_scalar t
    rw [Value.text, ht]
    exact hnone c (s ++ r) hws harray hobject
  | string b => exact hnone (ch '"') _ (by decide) (by decide) (by decide)
  | empty | group => exact h.elim

theorem findIndex_close (index fuel idx : Nat) (w : Ws) (r : Bytes) :
    findIndex index (fuel + 1) idx (w.1 ++ ch ']' :: r) = none := by
  rw [findIndex, skipWs_ws, skipWs_cons (by decide)]
  rfl

theorem findKey_close (key : Bytes) (fuel : Nat) (w : Ws) (r : Bytes) :
    findKey key (fuel + 1) (w.1 ++ ch '\x7d' :: r) = none := by
  rw [findKey, skipWs_ws, skipWs_cons (by decide)]
  rfl

theorem fuel_text {k : Kind} (items : Items k) (k' : Kind) (r : Bytes) :
    items.text.length < (items.text ++ k'.closing :: r).length + 1 := by
  rw [List.length_append]
  omega

theorem findSegment_value (seg : PathSeg) (v : Value) (r : Bytes) :
    findSegment seg (v.text ++ r) = ((segIndex seg v).bind v.child).map (seen r) := by
  have hchild : ∀ {k : Kind} (items : Items k) (j : Nat),
      (items.place j).map (seen (k.closing :: r)) = ((Value.group k items).child j).map (seen r) := by
    intro k items j
    rw [Value.child, Option.map_map]
    congr 1
    funext p
    simp [seen]
  cases v with
  | scalar t =>
    rw [findSegment_atom (v := .scalar t) trivial]
    cases seg <;> rfl
  | string b =>
    rw [findSegment_atom (v := .string b) trivial]
    cases seg <;> rfl
  | empty k w =>
    simp only [Value.text, List.cons_append, List.append_assoc, List.nil_append]
    rw [findSegment_opening]
    cases k with
    | array =>
      cases seg with
      | key key => rfl
      | index index => exact findIndex_close index _ 0 w r
    | object =>
      cases seg with
      | index index => rfl
      | key key => exact findKey_close key _ w r
  | group k items =>
    simp only [Value.text, List.cons_append, List.append_assoc, List.nil_append]
    rw [findSegment_opening]
    cases k with
    | array =>
      cases seg with
      | key key => rfl
      | index index =>
        have hitems := findIndex_items items r (Nat.zero_le index) (fuel_text items .array r)
        rw [Nat.sub_zero] at hitems
        refine hitems.trans ((hchild items index).trans ?_)
        rw [segIndex]
        split
        · rfl
        · rename_i hlen
          rw [← Items.place_isSome, Bool.not_eq_true, Option.isSome_eq_false_iff, Option.isNone_iff_eq_none] at hlen
          simp [Value.child, hlen]
    | object =>
      cases seg with
      | index index => rfl
      | key key =>
        apply (findKey_items items r key (fuel_text items .object r)).trans
        rw [segIndex, Option.map_bind]
        congr 1
        funext j
        exact hchild items j

/-! ## Every document -/

theorem findIndex_skip {index fuel idx : Nat} {s : Bytes} {found : Bytes × Bytes}
    (h : findIndex index fuel idx s = some found) : skipValue found.1 = some found.2 := by
  induction fuel generalizing idx s with
  | zero => cases h
  | succ fuel ih =>
    rw [findIndex] at h
    split at h
    · cases h
    · split at h
      · cases h
      · obtain ⟨stop, hstop, h⟩ := Option.bind_eq_some_iff.mp h
        split at h
        · obtain rfl := Option.some.inj h
          exact hstop
        · split at h
          · cases h
          · split at h
            · exact ih h
            · cases h

theorem findKey_skip {key : Bytes} {fuel : Nat} {s : Bytes} {found : Bytes × Bytes}
    (h : findKey key fuel s = some found) : skipValue found.1 = some found.2 := by
  induction fuel generalizing s with
  | zero => cases h
  | succ fuel ih =>
    rw [findKey] at h
    split at h
    · cases h
    · split at h
      · cases h
      · obtain ⟨⟨name, value⟩, -, h⟩ := Option.bind_eq_some_iff.mp h
        obtain ⟨stop, hstop, h⟩ := Option.bind_eq_some_iff.mp h
        split at h
        · obtain rfl := Option.some.inj h
          exact hstop
        · split at h
          · cases h
          · split at h
            · exact ih h
            · cases h

theorem findSegment_skip {seg : PathSeg} {s : Bytes} {found : Bytes × Bytes} (h : findSegment seg s = some found) :
    skipValue found.1 = some found.2 := by
  unfold findSegment at h
  split at h
  · cases h
  · split at h
    · split at h
      · exact findIndex_skip h
      · cases h
    · split at h
      · exact findKey_skip h
      · cases h

theorem findFrom_cons (seg : PathSeg) (path : List PathSeg) (s : Bytes) :
    findFrom (seg :: path) s = (findSegment seg s).bind fun found => findFrom path found.1 := by
  cases path with
  | nil =>
    rw [findFrom]
    cases h : findSegment seg s with
    | none => rfl
    | some found =>
      rw [Option.bind_some, findFrom, findSegment_skip h]
      rfl
  | cons seg' path => rfl

theorem findFrom_skip {path : List PathSeg} {s : Bytes} {found : Bytes × Bytes} (h : findFrom path s = some found) :
    skipValue found.1 = some found.2 := by
  induction path generalizing s with
  | nil =>
    obtain ⟨stop, hstop, rfl⟩ := Option.map_eq_some_iff.mp h
    exact hstop
  | cons seg path ih =>
    rw [findFrom_cons] at h
    obtain ⟨first, -, h⟩ := Option.bind_eq_some_iff.mp h
    exact ih h

theorem findFrom_append {path : List PathSeg} {s : Bytes} {found : Bytes × Bytes} (h : findFrom path s = some found)
    (path' : List PathSeg) : findFrom (path ++ path') s = findFrom path' found.1 := by
  induction path generalizing s with
  | nil =>
    obtain ⟨stop, -, rfl⟩ := Option.map_eq_some_iff.mp h
    rfl
  | cons seg path ih =>
    rw [findFrom_cons] at h
    obtain ⟨first, hfirst, h⟩ := Option.bind_eq_some_iff.mp h
    rw [List.cons_append, findFrom_cons, hfirst, Option.bind_some]
    exact ih h

theorem lookupPlace_cons (v : Value) (seg : PathSeg) (path : List PathSeg) :
    lookupPlace v (seg :: path) =
      ((segIndex seg v).bind v.child).bind fun p => (lookupPlace p.value path).map p.inside := by
  unfold lookupPlace
  rw [lookup]
  cases hj : segIndex seg v with
  | none => rfl
  | some j =>
    cases hp : v.child j with
    | none => simp [hp]
    | some p =>
      cases ha : lookup p.value path with
      | none => simp [hp, ha]
      | some a => simp [hp, ha, Value.place]

theorem lookupPlace_seg (v : Value) (seg : PathSeg) : lookupPlace v [seg] = (segIndex seg v).bind v.child := by
  rw [lookupPlace_cons]
  cases (segIndex seg v).bind v.child with
  | none => rfl
  | some p => simp [lookupPlace, lookup, Value.place, Place.inside]

theorem findFrom_value (path : List PathSeg) (v : Value) {r : Bytes} (hr : skipValue (v.text ++ r) = some r) :
    findFrom path (v.text ++ r) = (lookupPlace v path).map (seen r) := by
  induction path generalizing v r with
  | nil =>
    rw [findFrom, hr]
    rfl
  | cons seg path ih =>
    rw [findFrom_cons, lookupPlace_cons, findSegment_value]
    cases hp : (segIndex seg v).bind v.child with
    | none => rfl
    | some p =>
      have hfound : findSegment seg (v.text ++ r) = some (seen r p) := by rw [findSegment_value, hp, Option.map_some]
      simp only [Option.map_some, Option.bind_some, Option.map_map]
      apply (ih p.value (findSegment_skip hfound)).trans
      congr 1
      funext q
      exact (seen_inside p q r).symm

/-! ## Spans -/

theorem doc_of_place {doc : Bytes} {w r : Bytes} {v : Value} {p : Place} (hdoc : doc = w ++ (v.text ++ r))
    (hp : v.text = p.text) : doc = w ++ p.before ++ p.value.text ++ (p.behind ++ r) := by
  rw [hdoc, hp]
  simp [Place.text]

theorem spanOf_seen {doc : Bytes} {w r : Bytes} {v : Value} {p : Place} (hdoc : doc = w ++ (v.text ++ r))
    (hp : v.text = p.text) :
    spanOf doc (seen r p).1 (seen r p).2 ((seen r p).1.head? = some (ch '"')) = placeSpan w.length p := by
  obtain ⟨c, s, hv, -⟩ := head_text p.value
  have hlen := congrArg List.length (doc_of_place hdoc hp)
  simp only [List.length_append] at hlen
  simp only [seen, spanOf, placeSpan, hv, List.cons_append, List.head?_cons, List.length_append,
    List.length_cons] at hlen ⊢
  congr 1 <;> omega

theorem slice_placeSpan {doc : Bytes} {w r : Bytes} {v : Value} {p : Place} (hdoc : doc = w ++ (v.text ++ r))
    (hp : v.text = p.text) :
    slice doc (placeSpan w.length p).start (placeSpan w.length p).stop = p.value.text ∧
      (placeSpan w.length p).stop ≤ doc.length := by
  have hdoc' := doc_of_place hdoc hp
  simp only [placeSpan]
  constructor
  · rw [hdoc', slice, Nat.add_sub_cancel_left, ← List.length_append, List.append_assoc (w ++ p.before),
      List.drop_left, List.take_left]
  · rw [hdoc']
    simp only [List.length_append]
    omega

theorem lookupPlace_text {v : Value} {path : List PathSeg} {p : Place} (h : lookupPlace v path = some p) :
    v.text = p.text := by
  obtain ⟨a, -, hp⟩ := Option.bind_eq_some_iff.mp h
  exact Value.place_text hp

theorem findValue_value {doc : Bytes} {w : Ws} {v : Value} {r : Bytes} (hdoc : doc = w.1 ++ (v.text ++ r))
    (hr : skipValue (v.text ++ r) = some r) (path : List PathSeg) :
    findValue doc path = (lookupPlace v path).map (placeSpan w.1.length) := by
  have hws : skipWs doc = v.text ++ r := by rw [hdoc, skipWs_ws, skipWs_value]
  have hfrom := findFrom_value path v hr
  obtain ⟨c, s, hv, -⟩ := head_text v
  unfold findValue
  rw [hws]
  rw [hv, List.cons_append] at hfrom ⊢
  simp only [hfrom, Option.map_map]
  cases hp : lookupPlace v path with
  | none => rfl
  | some p => exact congrArg some (spanOf_seen hdoc (lookupPlace_text hp))

theorem head_quote_iff (v : Value) : v.text.head? = some (ch '"') ↔ ∃ b, v = .string b := by
  cases v with
  | scalar t =>
    obtain ⟨c, s, ht, -, hquote, -⟩ := head_scalar t
    simp [Value.text, ht, hquote]
  | string b => exact ⟨fun _ => ⟨b, rfl⟩, fun _ => rfl⟩
  | empty k w => cases k <;> simp [Value.text, Kind.opening] <;> decide
  | group k items => cases k <;> simp [Value.text, Kind.opening] <;> decide

/-! ## What is found in any document -/

theorem skipWs_suffix (s : Bytes) : skipWs s <:+ s := List.dropWhile_suffix _

theorem skipValue_suffix {s r : Bytes} (h : skipValue s = some r) : r <:+ s := by
  obtain ⟨v, hv⟩ := value_of_skipValue h
  exact (hv ▸ List.suffix_append v.text r).trans (skipWs_suffix s)

theorem readKey_suffix {s name value : Bytes} (h : readKey s = some (name, value)) :
    value <:+ s ∧ skipWs value = value := by
  obtain ⟨stop, hstop, h⟩ := Option.bind_eq_some_iff.mp h
  obtain ⟨b, rfl⟩ := quoted_of_skipString hstop
  split at h
  · cases h
  · rename_i c rest hrest
    split at h
    · obtain ⟨-, rfl⟩ := Prod.mk.inj (Option.some.inj h)
      refine ⟨?_, skipWs_skipWs rest⟩
      have hstop : c :: rest <:+ stop := hrest ▸ skipWs_suffix stop
      exact (skipWs_suffix rest).trans ((List.suffix_cons c rest).trans (hstop.trans (List.suffix_append _ _)))
    · cases h

/-- A value found further on starts with no white space. -/
def FoundIn (s : Bytes) (found : Bytes × Bytes) : Prop := found.1 <:+ s ∧ skipWs found.1 = found.1

theorem FoundIn.mono {s s' : Bytes} {found : Bytes × Bytes} (h : FoundIn s found) (hs : s <:+ s') : FoundIn s' found :=
  ⟨h.1.trans hs, h.2⟩

theorem findIndex_found {index fuel idx : Nat} {s : Bytes} {found : Bytes × Bytes}
    (h : findIndex index fuel idx s = some found) : FoundIn s found := by
  induction fuel generalizing idx s with
  | zero => cases h
  | succ fuel ih =>
    have hws := skipWs_suffix s
    rw [findIndex] at h
    split at h
    · cases h
    · rename_i c s₁ hs
      split at h
      · cases h
      · obtain ⟨stop, hstop, h⟩ := Option.bind_eq_some_iff.mp h
        split at h
        · obtain rfl := Option.some.inj h
          exact ⟨hs ▸ hws, hs ▸ skipWs_skipWs s⟩
        · split at h
          · cases h
          · rename_i d rest hrest
            split at h
            · have hstop : d :: rest <:+ s₁.cons c := hrest ▸ (skipWs_suffix stop).trans (skipValue_suffix hstop)
              exact (ih h).mono ((List.suffix_cons d rest).trans (hstop.trans (hs ▸ hws)))
            · cases h

theorem findKey_found {key : Bytes} {fuel : Nat} {s : Bytes} {found : Bytes × Bytes}
    (h : findKey key fuel s = some found) : FoundIn s found := by
  induction fuel generalizing s with
  | zero => cases h
  | succ fuel ih =>
    have hws := skipWs_suffix s
    rw [findKey] at h
    split at h
    · cases h
    · rename_i c s₁ hs
      split at h
      · cases h
      · obtain ⟨⟨name, value⟩, hread, h⟩ := Option.bind_eq_some_iff.mp h
        obtain ⟨stop, hstop, h⟩ := Option.bind_eq_some_iff.mp h
        obtain ⟨hvalue, hfirst⟩ := readKey_suffix hread
        have hvalue : value <:+ s := hvalue.trans (hs ▸ hws)
        split at h
        · obtain rfl := Option.some.inj h
          exact ⟨hvalue, hfirst⟩
        · split at h
          · cases h
          · rename_i d rest hrest
            split at h
            · have hstop : d :: rest <:+ value := hrest ▸ (skipWs_suffix stop).trans (skipValue_suffix hstop)
              exact (ih h).mono ((List.suffix_cons d rest).trans (hstop.trans hvalue))
            · cases h

theorem findSegment_found {seg : PathSeg} {s : Bytes} {found : Bytes × Bytes} (h : findSegment seg s = some found) :
    FoundIn s found := by
  unfold findSegment at h
  split at h
  · cases h
  · rename_i c s₁ hs
    have hrest : s₁ <:+ s := (List.suffix_cons c s₁).trans (hs ▸ skipWs_suffix s)
    split at h
    · split at h
      · exact (findIndex_found h).mono hrest
      · cases h
    · split at h
      · exact (findKey_found h).mono hrest
      · cases h

theorem findFrom_found {path : List PathSeg} {s : Bytes} (hs : skipWs s = s) {found : Bytes × Bytes}
    (h : findFrom path s = some found) : FoundIn s found := by
  induction path generalizing s with
  | nil =>
    obtain ⟨stop, -, rfl⟩ := Option.map_eq_some_iff.mp h
    exact ⟨List.suffix_refl s, hs⟩
  | cons seg path ih =>
    rw [findFrom_cons] at h
    obtain ⟨first, hfirst, h⟩ := Option.bind_eq_some_iff.mp h
    obtain ⟨hsuffix, hws⟩ := findSegment_found hfirst
    exact (ih hws h).mono hsuffix

/-- The value at a span, and the document around it. -/
structure SpanOf (doc : Bytes) (c : ValueSpan) (pre : Bytes) (v : Value) (post : Bytes) : Prop where
  doc_eq : doc = pre ++ (v.text ++ post)
  span_eq : c = ⟨pre.length, pre.length + v.text.length, v.text.head? = some (ch '"')⟩
  skip : skipValue (v.text ++ post) = some post

/-- What `find_value` finds is a value, whatever the rest of the document is. -/
theorem findValue_found {doc : Bytes} {path : List PathSeg} {c : ValueSpan} (h : findValue doc path = some c) :
    ∃ pre v post, SpanOf doc c pre v post ∧ findFrom path (skipWs doc) = some (v.text ++ post, post) := by
  unfold findValue at h
  split at h
  · cases h
  · rename_i b s hs
    obtain ⟨⟨value, post⟩, hfrom, rfl⟩ := Option.map_eq_some_iff.mp h
    rw [← hs] at hfrom
    obtain ⟨hsuffix, hws⟩ := findFrom_found (skipWs_skipWs doc) hfrom
    have hskip : skipValue value = some post := findFrom_skip hfrom
    obtain ⟨v, hv⟩ := value_of_skipValue hskip
    have hws : skipWs value = value := hws
    obtain rfl := hws.symm.trans hv
    obtain ⟨pre, hpre⟩ := hsuffix.trans (skipWs_suffix doc)
    refine ⟨pre, v, post, ⟨hpre.symm, ?_, hskip⟩, hfrom⟩
    obtain ⟨c, t, hc, -⟩ := head_text v
    have hlen := congrArg List.length hpre
    simp only [List.length_append] at hlen
    simp only [spanOf, hc, List.cons_append, List.head?_cons, List.length_append, List.length_cons] at hlen ⊢
    congr 1 <;> omega

theorem SpanOf.slice_eq {doc : Bytes} {c : ValueSpan} {pre post : Bytes} {v : Value} (h : SpanOf doc c pre v post) :
    slice doc c.start c.stop = v.text ∧ c.start ≤ c.stop ∧ c.stop ≤ doc.length := by
  rw [h.span_eq, h.doc_eq]
  refine ⟨?_, Nat.le_add_right _ _, ?_⟩
  · rw [slice, Nat.add_sub_cancel_left, List.drop_left, List.take_left]
  · simp only [List.length_append]
    omega

/-- Further lookups walk the value that was found. -/
theorem findValue_append {doc : Bytes} {path : List PathSeg} {c : ValueSpan} {pre post : Bytes} {v : Value}
    (h : SpanOf doc c pre v post) (hfrom : findFrom path (skipWs doc) = some (v.text ++ post, post))
    (path' : List PathSeg) :
    findValue doc (path ++ path') = (lookupPlace v path').map (placeSpan pre.length) := by
  have hfrom' := (findFrom_append hfrom path').trans (findFrom_value path' v h.skip)
  have hne : skipWs doc ≠ [] := by
    intro hnil
    rw [hnil] at hfrom
    have := (findFrom_found rfl hfrom).1
    obtain ⟨b, s, hb, -⟩ := head_text v
    simp [hb] at this
  obtain ⟨b, s, hs⟩ := List.exists_cons_of_ne_nil hne
  rw [hs] at hfrom'
  unfold findValue
  rw [hs]
  simp only [hfrom', Option.map_map]
  cases hp : lookupPlace v path' with
  | none => rfl
  | some p => exact congrArg some (spanOf_seen h.doc_eq (lookupPlace_text hp))

theorem placeSpan_shift (base : Nat) (p : Place) : (placeSpan 0 p).shift base = placeSpan base p := by
  simp only [placeSpan, ValueSpan.shift, Nat.zero_add]
  congr 1 <;> omega

theorem findValueIn_value {doc : Bytes} {c : ValueSpan} {pre post : Bytes} {v : Value} (h : SpanOf doc c pre v post)
    (path : List PathSeg) : findValueIn doc c path = (lookupPlace v path).map (placeSpan pre.length) := by
  obtain ⟨hslice, hle, hlen⟩ := h.slice_eq
  have hskip : skipValue (v.text ++ []) = some [] := skipValue_text v (by simp [EndsNumber])
  have hdoc : v.text = (⟨[], by simp⟩ : Ws).1 ++ (v.text ++ []) := by simp
  have hcut := findValue_value hdoc hskip path
  have hstart : c.start = pre.length := by rw [h.span_eq]
  unfold findValueIn
  rw [if_neg (by simp; omega), hslice, hcut, Option.map_map, hstart]
  congr 1
  funext p
  exact placeSpan_shift pre.length p

theorem findValueIn_append {doc : Bytes} {path : List PathSeg} {c : ValueSpan} (h : findValue doc path = some c)
    (path' : List PathSeg) : findValueIn doc c path' = findValue doc (path ++ path') := by
  obtain ⟨pre, v, post, hspan, hfrom⟩ := findValue_found h
  rw [findValueIn_value hspan, findValue_append hspan hfrom]

/-- On a valid document `find_value` walks the parse tree: it finds the value that the path leads to, where it
stands, and nothing where the path leads nowhere. -/
theorem findValue_lookup (doc : Bytes) (hvalid : valid doc = true) :
    Nonempty (Rfc8259.Reading doc) ∧ ∀ (t : Rfc8259.Reading doc) (path : List PathSeg),
      (lookupPlace t.value path = none → findValue doc path = none) ∧
      ∀ p, lookupPlace t.value path = some p → ∃ span, findValue doc path = some span ∧
        span.start = t.before.1.length + p.before.length ∧ slice doc span.start span.stop = p.value.text ∧
        (span.isString = true ↔ ∃ b, p.value = .string b) := by
  refine ⟨(valid_iff_reading doc).mp hvalid, ?_⟩
  rintro ⟨w, v, w', hdoc⟩ path
  rw [List.append_assoc] at hdoc
  have hend : EndsNumber (w'.1 ++ []) := endsNumber_ws (by simp [EndsNumber])
  rw [List.append_nil] at hend
  have hfind := findValue_value hdoc (skipValue_text v hend) path
  constructor
  · intro hnone
    rw [hfind, hnone, Option.map_none]
  · intro p hp
    refine ⟨_, by rw [hfind, hp, Option.map_some], rfl, (slice_placeSpan hdoc (lookupPlace_text hp)).1, ?_⟩
    rw [← head_quote_iff p.value]
    simp [placeSpan]

def sampleDoc : Bytes := ascii " \x7b\"a\" : [1, \"x\", \x7b\"b\":\"y\"\x7d], \"c\":\"z\"\x7d"

theorem findValue_lookup_sample :
    Nonempty (Rfc8259.Reading sampleDoc) ∧ ∀ (t : Rfc8259.Reading sampleDoc) (path : List PathSeg),
      (lookupPlace t.value path = none → findValue sampleDoc path = none) ∧
      ∀ p, lookupPlace t.value path = some p → ∃ span, findValue sampleDoc path = some span ∧
        span.start = t.before.1.length + p.before.length ∧ slice sampleDoc span.start span.stop = p.value.text ∧
        (span.isString = true ↔ ∃ b, p.value = .string b) :=
  findValue_lookup sampleDoc (by decide +kernel)

end LlmGuard.Json
