import LlmGuard.Json.Lookup
import LlmGuard.Json.Splice

/-!
# Documents that need not be JSON

A lookup of a key needs the members up to this key only. The document may go wrong behind them, and edits at places
inside the members do not change where it does.
-/

namespace LlmGuard.Json

open Rfc8259 (Kind Label Value Items Ws Body Place Ahead Apart quoted)
open Splice (Ordered weave)

/-- A root object, with the members that lookups get to. -/
structure Root (doc : Bytes) where
  before : Ws
  items : Items .object
  post : Bytes
  eq : doc = before.1 ++ (ch '\x7b' :: items.text ++ post)
  last : LastEnds items post
  stuck : Stuck post

def Root.value {doc : Bytes} (r : Root doc) : Value := .group .object r.items

/-! ## Lookups -/

theorem spanOf_append (w x y : Bytes) (isString : Bool) :
    spanOf (w ++ (x ++ y)) (x ++ y) y isString = ⟨w.length, w.length + x.length, isString⟩ := by
  unfold spanOf
  simp only [List.length_append]
  congr 1 <;> omega

theorem Root.skipWs_eq {doc : Bytes} (r : Root doc) : skipWs doc = ch '\x7b' :: (r.items.text ++ r.post) := by
  have hskip := skipWs_ws r.before (ch '\x7b' :: (r.items.text ++ r.post))
  rw [← List.cons_append, ← r.eq] at hskip
  rw [hskip]
  exact skipWs_cons (by decide) _

theorem Root.doc_eq {doc : Bytes} (r : Root doc) {j : Nat} {q : Place} (hq : r.items.place j = some q) :
    doc = (r.before.1 ++ ch '\x7b' :: q.before) ++ (q.value.text ++ (q.behind ++ r.post)) := by
  apply r.eq.trans
  rw [Items.place_text hq]
  simp [Place.text]

theorem Root.findSegment_eq {doc : Bytes} (r : Root doc) (key : Bytes) :
    findSegment (.key key) (ch '\x7b' :: (r.items.text ++ r.post)) =
      ((segIndex (.key key) r.value).bind r.items.place).map (seen r.post) := by
  have hseg := findSegment_opening (.key key) .object (r.items.text ++ r.post)
  have hfuel : r.items.text.length < (r.items.text ++ r.post).length + 1 := by
    rw [List.length_append]
    omega
  have hopen := findKey_open r.last r.stuck key hfuel
  exact hseg.trans (hopen.trans Option.map_bind.symm)

theorem Root.lookupPlace_eq {doc : Bytes} (r : Root doc) (key : Bytes) :
    lookupPlace r.value [.key key] = ((segIndex (.key key) r.value).bind r.items.place).map fun q =>
      ⟨ch '\x7b' :: q.before, q.value, q.behind ++ [ch '\x7d']⟩ := by
  rw [lookupPlace_seg, Option.map_bind]
  rfl

theorem Root.findValue_eq {doc : Bytes} (r : Root doc) (key : Bytes) :
    findValue doc [.key key] = (lookupPlace r.value [.key key]).map (placeSpan r.before.1.length) := by
  have hseg := r.findSegment_eq key
  unfold findValue
  rw [r.skipWs_eq, r.lookupPlace_eq]
  simp only [findFrom, hseg, Option.map_map]
  cases hq : (segIndex (.key key) r.value).bind r.items.place with
  | none => rfl
  | some q =>
    obtain ⟨j, -, hplace⟩ := Option.bind_eq_some_iff.mp hq
    have hhead : (seen r.post q).1.head? = q.value.text.head? := by
      obtain ⟨c, s, hc, -⟩ := head_text q.value
      simp [seen, hc]
    have hspan := spanOf_append (r.before.1 ++ ch '\x7b' :: q.before) q.value.text (q.behind ++ r.post)
      (decide ((seen r.post q).1.head? = some (ch '"')))
    rw [← r.doc_eq hplace] at hspan
    refine congrArg some (hspan.trans ?_)
    simp only [Function.comp_apply, placeSpan, hhead, List.length_append, List.length_cons]

theorem Root.inside {doc : Bytes} (r : Root doc) {key : Bytes} {p : Place}
    (hp : lookupPlace r.value [.key key] = some p) :
    ∃ post, SpanOf doc (placeSpan r.before.1.length p) (r.before.1 ++ p.before) p.value post := by
  have hseg := r.findSegment_eq key
  rw [r.lookupPlace_eq] at hp
  obtain ⟨q, hq, rfl⟩ := Option.map_eq_some_iff.mp hp
  obtain ⟨j, -, hplace⟩ := Option.bind_eq_some_iff.mp hq
  rw [hq, Option.map_some] at hseg
  exact ⟨_, r.doc_eq hplace, by simp [placeSpan], findSegment_skip hseg⟩

/-! ## Every document has such a root, or no members at all -/

theorem label_of_readKey {s name value : Bytes} (h : readKey s = some (name, value)) (before : Ws) :
    ∃ (label : Label .object) (w : Ws), before.1 ++ s = label.text ++ (w.1 ++ value) := by
  obtain ⟨stop, hstop, h⟩ := Option.bind_eq_some_iff.mp h
  obtain ⟨b, rfl⟩ := quoted_of_skipString hstop
  obtain ⟨after, hafter⟩ := exists_ws stop
  split at h
  · cases h
  · rename_i c rest hrest
    split at h
    · rename_i hc
      obtain ⟨-, rfl⟩ := Prod.mk.inj (Option.some.inj h)
      obtain ⟨w, hw⟩ := exists_ws rest
      refine ⟨.key before b after, w, ?_⟩
      rw [hafter, hrest, hc, ← hw]
      simp [Label.text]
    · cases h

theorem member_of_findKey {key : Bytes} {fuel : Nat} {s : Bytes} (h : findKey key fuel s ≠ none) :
    ∃ (label : Label .object) (w : Ws) (v : Value) (r : Bytes),
      s = label.text ++ (w.1 ++ (v.text ++ r)) ∧ skipValue (v.text ++ r) = some r := by
  obtain ⟨found, h⟩ := Option.ne_none_iff_exists'.mp h
  obtain ⟨before, hbefore⟩ := exists_ws s
  cases fuel with
  | zero => cases h
  | succ fuel =>
    rw [findKey] at h
    split at h
    · cases h
    · rename_i c s₁ hs
      split at h
      · cases h
      · obtain ⟨⟨name, value⟩, hread, h⟩ := Option.bind_eq_some_iff.mp h
        obtain ⟨r, hskip, -⟩ := Option.bind_eq_some_iff.mp h
        obtain ⟨v, hv⟩ := value_of_skipValue hskip
        obtain rfl := (readKey_suffix hread).2.symm.trans hv
        obtain ⟨label, w, hlabel⟩ := label_of_readKey hread before
        exact ⟨label, w, v, r, by rw [hbefore, hs, hlabel], hskip⟩

/-- A value that a member can follow. -/
theorem comma_of_not_stuck {r : Bytes} (h : ¬ Stuck r) :
    ∃ (after : Ws) (rest : Bytes) (key : Bytes) (fuel : Nat), r = after.1 ++ ch ',' :: rest ∧
      findKey key fuel rest ≠ none := by
  obtain ⟨after, hafter⟩ := exists_ws r
  unfold Stuck at h
  push Not at h
  obtain ⟨key, fuel, h⟩ := h
  split at h
  · exact absurd rfl h
  · rename_i d rest hrest
    split at h
    · rename_i hd
      exact ⟨after, rest, key, fuel, by rw [← hd, ← hrest, ← hafter], h⟩
    · exact absurd rfl h

theorem items_of_findKey (n : Nat) {s key : Bytes} {fuel : Nat} (hn : s.length < n) (h : findKey key fuel s ≠ none) :
    ∃ (items : Items .object) (post : Bytes), s = items.text ++ post ∧ LastEnds items post ∧ Stuck post := by
  induction n generalizing s key fuel with
  | zero => omega
  | succ n ih =>
    obtain ⟨label, w, v, r, rfl, hskip⟩ := member_of_findKey h
    by_cases hstuck : Stuck r
    · refine ⟨.last label w v ⟨[], by simp⟩, r, by simp [Items.text], ?_, hstuck⟩
      rw [LastEnds]
      exact hskip
    · obtain ⟨after, rest, key', fuel', rfl, hfound⟩ := comma_of_not_stuck hstuck
      simp only [List.length_append, List.length_cons] at hn
      obtain ⟨items, post, rfl, hlast, hpost⟩ := ih (by omega) hfound
      refine ⟨.more label w v after items, post, by simp [Items.text], ?_, hpost⟩
      rw [LastEnds]
      exact hlast

theorem exists_root {doc key : Bytes} (h : findValue doc [.key key] ≠ none) : Nonempty (Root doc) := by
  obtain ⟨before, hbefore⟩ := exists_ws doc
  unfold findValue at h
  split at h
  · exact absurd rfl h
  · rename_i c s hs
    have hseg : findSegment (.key key) (c :: s) ≠ none := by simpa [findFrom] using h
    have hc : skipWs (c :: s) = c :: s := by rw [← hs, skipWs_skipWs]
    unfold findSegment at hseg
    rw [hc] at hseg
    simp only at hseg
    split at hseg
    · rename_i hobject
      obtain ⟨items, post, rfl, hlast, hstuck⟩ := items_of_findKey _ (Nat.lt_succ_self _) hseg
      exact ⟨before, items, post, by rw [hbefore, hs, hobject]; rfl, hlast, hstuck⟩
    · exact absurd rfl hseg

/-! ## Edits inside the members -/

theorem lastEnds_set {items : Items .object} {post : Bytes} (h : LastEnds items post) {j : Nat} {w : Value}
    (hw : ∀ v, items.values[j]? = some v → ∀ r, skipValue (v.text ++ r) = some r → skipValue (w.text ++ r) = some r) :
    LastEnds (items.set j w) post := by
  induction items using Items.induction generalizing j with
  | last label before v after =>
    cases j with
    | succ j => exact h
    | zero =>
      rw [LastEnds] at h
      rw [Items.set, LastEnds]
      exact hw _ rfl _ h
  | more label before v after rest ih =>
    rw [LastEnds] at h
    cases j with
    | zero =>
      rw [Items.set, LastEnds]
      exact h
    | succ j =>
      rw [Items.set, LastEnds]
      exact ih h fun v hv => hw v (by rw [Items.values, List.getElem?_cons_succ, hv])

/-- A value that is no scalar, put anywhere, lets no number end later. -/
theorem skipValue_set {v x : Value} {a : List Nat} (hx : ∀ t, x ≠ .scalar t) {r : Bytes}
    (h : skipValue (v.text ++ r) = some r) : skipValue ((v.set a x).text ++ r) = some r := by
  cases a with
  | nil => exact skipValue_closed hx r
  | cons j a =>
    rw [Value.set]
    cases v.child j with
    | none => exact h
    | some p =>
      cases v with
      | group k items => exact skipValue_closed (fun t ht => by cases ht) r
      | scalar | string | empty => exact h

theorem exists_setAll {items : Items .object} {post : Bytes} (h : LastEnds items post) {edits : List (List Nat × Value)}
    (hedits : ∀ e ∈ edits, e.1 ≠ [] ∧ ∀ t, e.2 ≠ .scalar t) :
    ∃ items', (Value.group .object items).setAll edits = .group .object items' ∧ LastEnds items' post := by
  induction edits with
  | nil => exact ⟨items, rfl, h⟩
  | cons e edits ih =>
    obtain ⟨items', heq, hlast⟩ := ih fun e' he' => hedits e' (List.mem_cons_of_mem _ he')
    obtain ⟨hne, hclosed⟩ := hedits e List.mem_cons_self
    obtain ⟨j, a, ha⟩ := List.exists_cons_of_ne_nil hne
    rw [Value.setAll, heq, ha, Value.set]
    cases hc : (Value.group .object items').child j with
    | none => exact ⟨items', rfl, hlast⟩
    | some p =>
      refine ⟨items'.set j (p.value.set a e.2), rfl, lastEnds_set hlast fun v hv r hr => ?_⟩
      obtain ⟨q, hq, rfl⟩ := Option.map_eq_some_iff.mp hc
      rw [← Items.place_value, hq] at hv
      obtain rfl := Option.some.inj hv
      exact skipValue_set hclosed hr

theorem slice_append_left {s : Bytes} (x : Bytes) {i j : Nat} (hij : i ≤ j) (hj : j ≤ s.length) :
    slice (s ++ x) i j = slice s i j := by
  unfold slice
  rw [List.drop_append_of_le_length (by omega), List.take_append_of_le_length (by simp; omega)]

theorem weave_gaps_append {s : Bytes} (x : Bytes) {pos : Nat} {spans : List (Nat × Nat)} {texts : List Bytes}
    (h : Ordered s.length pos spans) (hlen : texts.length = spans.length) :
    weave (Splice.gaps (s ++ x) pos spans) texts = weave (Splice.gaps s pos spans) texts ++ x := by
  induction spans generalizing pos texts with
  | nil =>
    obtain rfl := List.length_eq_zero_iff.mp hlen
    simp only [Splice.gaps_nil, Splice.weave_singleton]
    exact List.drop_append_of_le_length h
  | cons p spans ih =>
    obtain ⟨text, texts, rfl⟩ := List.exists_cons_of_length_eq_add_one hlen
    obtain ⟨hpos, hle, hrest⟩ := h
    have hend := hrest.pos_le
    simp only [Splice.gaps, Splice.weave_cons, List.append_assoc]
    rw [ih hrest (by simpa using hlen), slice_append_left x hpos (by omega)]

theorem behind_of_place {v : Value} {j : Nat} {a : List Nat} {p : Place} (hp : v.place (j :: a) = some p) :
    p.behind ≠ [] := by
  obtain ⟨p₁, q, hp₁, -, rfl⟩ := Value.place_cons.mp hp
  cases v with
  | group k items =>
    obtain ⟨q₁, -, rfl⟩ := Option.map_eq_some_iff.mp hp₁
    simp [Place.inside]
  | scalar | string | empty => cases hp₁

theorem spliceAll_append {s : Bytes} (x : Bytes) {edits : List (ValueSpan × Bytes)}
    (hin : ∀ e ∈ edits, e.1.start < e.1.stop ∧ e.1.stop ≤ s.length)
    (hapart : edits.Pairwise fun a b => a.1.stop ≤ b.1.start ∨ b.1.stop ≤ a.1.start) :
    spliceAll (s ++ x) edits =
      .ok (weave (Splice.gaps s 0 ((editOrder edits).map spanPair)) ((editOrder edits).map (·.2)) ++ x) := by
  have hin' : ∀ e ∈ edits, e.1.start < e.1.stop ∧ e.1.stop ≤ (s ++ x).length := fun e he => by
    obtain ⟨hlt, hle⟩ := hin e he
    rw [List.length_append]
    omega
  rw [spliceAll_ok (editOrder_ordered hin' hapart),
    weave_gaps_append x (editOrder_ordered hin hapart) (by rw [List.length_map, List.length_map])]

/-- The document up to where the members end. -/
def Root.front {doc : Bytes} (r : Root doc) : Bytes := r.before.1 ++ (ch '\x7b' :: r.items.text)

theorem Root.front_append {doc : Bytes} (r : Root doc) : doc = r.front ++ r.post :=
  r.eq.trans (List.append_assoc _ _ _).symm

theorem Root.front_closed {doc : Bytes} (r : Root doc) :
    r.front ++ [ch '\x7d'] = r.before.1 ++ (r.value.text ++ []) := by
  simp [Root.front, Root.value, Value.text, Kind.opening, Kind.closing]

theorem Root.place_in {doc : Bytes} (r : Root doc) {a : List Nat} (ha : a ≠ []) {p : Place}
    (hp : r.value.place a = some p) :
    (placeSpan r.before.1.length p).start < (placeSpan r.before.1.length p).stop ∧
      (placeSpan r.before.1.length p).stop ≤ r.front.length := by
  obtain ⟨j, b, rfl⟩ := List.exists_cons_of_ne_nil ha
  have hbehind := List.length_pos_of_ne_nil (behind_of_place hp)
  have hlen := congrArg List.length (Value.place_text hp)
  have htotal := congrArg List.length r.front_closed
  have hpos := text_pos p.value
  rw [Place.text_length] at hlen
  simp only [List.length_append, List.length_singleton, List.length_nil, Nat.add_zero] at htotal
  simp only [placeSpan]
  omega

theorem Root.slice_place {doc : Bytes} (r : Root doc) {a : List Nat} (ha : a ≠ []) {p : Place}
    (hp : r.value.place a = some p) :
    slice doc (placeSpan r.before.1.length p).start (placeSpan r.before.1.length p).stop = p.value.text := by
  obtain ⟨hlt, hle⟩ := r.place_in ha hp
  have hslice := (slice_placeSpan r.front_closed (Value.place_text hp)).1
  rw [slice_append_left _ (Nat.le_of_lt hlt) hle] at hslice
  have hsame := slice_append_left r.post (Nat.le_of_lt hlt) hle
  rw [← r.front_append] at hsame
  exact hsame.trans hslice

/-- What `splice_all` makes of edits inside the members: a document that goes wrong at the same place, if it does. -/
theorem Root.spliceAll_setAll {doc : Bytes} (r : Root doc) {edits : List (List Nat × Value)}
    (hapart : edits.Pairwise fun e e' => Apart e.1 e'.1) (hplaces : ∀ e ∈ edits, (r.value.place e.1).isSome)
    (hedits : ∀ e ∈ edits, e.1 ≠ [] ∧ ∀ t, e.2 ≠ .scalar t) :
    ∃ (order : List (List Nat × Value)) (out : Bytes) (r' : Root out), order.Perm edits ∧
      spliceAll doc (edits.map (editAt r.before.1.length r.value)) = .ok out ∧
      r'.before = r.before ∧ r'.post = r.post ∧ r'.value = r.value.setAll order := by
  obtain ⟨-, hspans⟩ := editAt_apart r.front_closed hapart hplaces
  have hfront : ∀ e ∈ edits.map (editAt r.before.1.length r.value),
      e.1.start < e.1.stop ∧ e.1.stop ≤ r.front.length := by
    intro e he
    obtain ⟨e', he', rfl⟩ := List.mem_map.mp he
    obtain ⟨p, hp⟩ := Option.isSome_iff_exists.mp (hplaces e' he')
    rw [editAt_place hp]
    exact r.place_in (hedits e' he').1 hp
  obtain ⟨order, hperm, hout⟩ := Json.spliceAll_setAll r.front_closed hapart hplaces
  obtain ⟨items, hitems, hlast⟩ := exists_setAll r.last fun e he => hedits e (hperm.mem_iff.mp he)
  have hset : r.value.setAll order = .group .object items := hitems
  rw [spliceAll_append _ hfront hspans, hset] at hout
  have hweave := Except.ok.inj hout
  have htext : r.before.1 ++ ((Value.group .object items).text ++ []) =
      (r.before.1 ++ (ch '\x7b' :: items.text)) ++ [ch '\x7d'] := by
    simp [Value.text, Kind.opening, Kind.closing]
  rw [htext, List.append_left_inj] at hweave
  refine ⟨order, r.before.1 ++ (ch '\x7b' :: items.text ++ r.post), ⟨r.before, items, r.post, rfl, hlast, r.stuck⟩,
    hperm, ?_, rfl, rfl, hset.symm⟩
  have hwhole := spliceAll_append r.post hfront hspans
  rw [← r.front_append, hweave] at hwhole
  rw [hwhole, List.append_assoc]

/-! ## Valid documents -/

theorem Root.valid {doc : Bytes} (r : Root doc) {w : Ws} (hpost : r.post = ch '\x7d' :: w.1) : Json.valid doc = true := by
  apply (valid_iff_reading doc).mpr
  refine ⟨r.before, r.value, w, r.eq.trans ?_⟩
  rw [hpost]
  simp [Root.value, Value.text, Kind.opening, Kind.closing]

theorem exists_root_closed {doc key : Bytes} (h : findValue doc [.key key] ≠ none) :
    ∃ r : Root doc, Json.valid doc = true → ∃ w : Ws, r.post = ch '\x7d' :: w.1 := by
  by_cases hvalid : Json.valid doc = true
  · obtain ⟨t⟩ := (valid_iff_reading doc).mp hvalid
    have hdoc : doc = t.before.1 ++ (t.value.text ++ t.after.1) := t.eq.trans (List.append_assoc _ _ _)
    have hend : EndsNumber (t.after.1 ++ []) := endsNumber_ws (by simp [EndsNumber])
    rw [List.append_nil] at hend
    have hfind := findValue_value hdoc (skipValue_text t.value hend) [.key key]
    rw [lookupPlace_seg] at hfind
    obtain ⟨before, v, after, heq⟩ := t
    cases v with
    | group k items =>
      cases k with
      | array => exact absurd hfind h
      | object =>
        refine ⟨⟨before, items, ch '\x7d' :: after.1, ?_, lastEnds_closing items after.1, stuck_closing after.1⟩,
          fun _ => ⟨after, rfl⟩⟩
        rw [heq]
        simp [Value.text, Kind.opening, Kind.closing]
    | empty k blank => cases k <;> exact absurd hfind h
    | scalar | string => exact absurd hfind h
  · obtain ⟨r⟩ := exists_root h
    exact ⟨r, fun hyes => absurd hyes hvalid⟩

end LlmGuard.Json
