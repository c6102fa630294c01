import LlmGuard.Json.Lookup
import Mathlib.Data.List.Forall2

/-!
# `string_leaves` against the parse tree

Taking a container apart puts its values on the stack, from left to right. A value is done with before what
lies below it on the stack.
-/

namespace LlmGuard.Json

open Rfc8259 (Kind Label Value Items Ws Body Place quoted)

/-! ## Taking a container apart -/

/-- What a container with `r` behind it puts on the stack, from item `j` on. -/
def itemTasks (path : List PathSeg) (r : Bytes) : Nat → {k : Kind} → Items k → List WalkTask
  | j, k, .last label _ v after => [⟨path ++ [segOf label j], v.text ++ (after.1 ++ k.closing :: r)⟩]
  | j, k, .more label _ v after rest =>
    ⟨path ++ [segOf label j], v.text ++ (after.1 ++ ch ',' :: (rest.text ++ k.closing :: r))⟩ ::
      itemTasks path r (j + 1) rest

theorem elementTasks_items (path : List PathSeg) (r : Bytes) (items : Items .array) {fuel : Nat}
    (hfuel : items.values.length ≤ fuel) (j : Nat) :
    elementTasks path fuel j (items.text ++ ch ']' :: r) = some (itemTasks path r j items) := by
  induction items using Items.induction generalizing fuel j with
  | last label before v after =>
    obtain ⟨fuel, rfl⟩ : ∃ n, fuel = n + 1 := ⟨fuel - 1, by simp [Items.values] at hfuel; omega⟩
    cases label
    have hend : EndsNumber (after.1 ++ ch ']' :: r) := endsNumber_ws (endsNumber_closing .array r)
    simp only [Items.text, Label.text, List.nil_append, List.append_assoc]
    rw [elementTasks, skipWs_ws, skipWs_value, skipValue_text v hend, Option.bind_eq_bind, Option.bind_some, skipWs_ws,
      skipWs_cons (by decide)]
    rfl
  | more label before v after rest ih =>
    rw [Items.values, List.length_cons] at hfuel
    obtain ⟨fuel, rfl⟩ : ∃ n, fuel = n + 1 := ⟨fuel - 1, by omega⟩
    cases label
    have hend : EndsNumber (after.1 ++ ch ',' :: (rest.text ++ ch ']' :: r)) := endsNumber_ws (endsNumber_comma _)
    simp only [Items.text, Label.text, List.nil_append, List.append_assoc, List.cons_append]
    rw [elementTasks, skipWs_ws, skipWs_value, skipValue_text v hend, Option.bind_eq_bind, Option.bind_some, skipWs_ws,
      skipWs_cons isWs_comma]
    simp only [if_true, ih (Nat.le_of_succ_le_succ hfuel), Option.bind_eq_bind, Option.bind_some]
    rfl

theorem readKey_member (before : Ws) (name : Body) (after w : Ws) (v : Value) (r : Bytes) :
    ∃ s, skipWs ((Label.key before name after).text ++ (w.1 ++ (v.text ++ r))) = ch '"' :: s ∧
      readKey (ch '"' :: s) = some (decodeString (quoted name.1), v.text ++ r) := by
  have hread := readKey_label name after (w.1 ++ (v.text ++ r))
  rw [skipWs_ws, skipWs_value] at hread
  refine ⟨name.1 ++ [ch '"'] ++ (after.1 ++ ch ':' :: (w.1 ++ (v.text ++ r))), ?_, hread⟩
  have htext : (Label.key before name after).text ++ (w.1 ++ (v.text ++ r)) =
      before.1 ++ ch '"' :: (name.1 ++ [ch '"'] ++ (after.1 ++ ch ':' :: (w.1 ++ (v.text ++ r)))) := by
    simp [Label.text, quoted]
  rw [htext, skipWs_ws, skipWs_cons (by decide)]

theorem objectChildren_items (path : List PathSeg) (r : Bytes) (items : Items .object) {fuel : Nat}
    (hfuel : items.text.length < fuel) (j : Nat) :
    objectChildren path fuel (items.text ++ ch '\x7d' :: r) = some (itemTasks path r j items) := by
  induction items using Items.induction generalizing fuel j with
  | last label before v after =>
    obtain ⟨fuel, rfl⟩ : ∃ n, fuel = n + 1 := ⟨fuel - 1, by omega⟩
    cases label with
    | key outer name inner =>
      have hend : EndsNumber (after.1 ++ ch '\x7d' :: r) := endsNumber_ws (endsNumber_closing .object r)
      obtain ⟨s, hs, hread⟩ := readKey_member outer name inner before v (after.1 ++ ch '\x7d' :: r)
      simp only [Items.text, List.append_assoc]
      rw [objectChildren, hs]
      simp only [hread, skipValue_text v hend, Option.bind_eq_bind, Option.bind_some]
      rw [if_neg (by decide), skipWs_ws, skipWs_cons (by decide)]
      rfl
  | more label before v after rest ih =>
    obtain ⟨fuel, rfl⟩ : ∃ n, fuel = n + 1 := ⟨fuel - 1, by omega⟩
    cases label with
    | key outer name inner =>
      have hend : EndsNumber (after.1 ++ ch ',' :: (rest.text ++ ch '\x7d' :: r)) :=
        endsNumber_ws (endsNumber_comma _)
      obtain ⟨s, hs, hread⟩ := readKey_member outer name inner before v
        (after.1 ++ ch ',' :: (rest.text ++ ch '\x7d' :: r))
      simp only [Items.text, List.append_assoc, List.cons_append, List.length_append, List.length_cons] at hfuel ⊢
      rw [objectChildren, hs]
      simp only [hread, skipValue_text v hend, Option.bind_eq_bind, Option.bind_some]
      rw [if_neg (by decide), skipWs_ws, skipWs_cons isWs_comma]
      simp only [if_true, ih (by omega : rest.text.length < fuel) (j + 1), Option.bind_some]
      rfl

theorem values_length_le {k : Kind} (items : Items k) : items.values.length ≤ items.text.length := by
  induction items using Items.induction with
  | last label before v after =>
    have := text_pos v
    simp only [Items.values, Items.text, List.length_append, List.length_singleton]
    omega
  | more label before v after rest ih =>
    have := text_pos v
    simp only [Items.values, Items.text, List.length_append, List.length_cons]
    omega

theorem arrayChildren_items (path : List PathSeg) (r : Bytes) (items : Items .array) :
    arrayChildren path (items.text ++ ch ']' :: r) = some (itemTasks path r 0 items) := by
  have hfirst : ∃ c s, skipWs (items.text ++ ch ']' :: r) = c :: s ∧ c ≠ ch ']' ∧ items.values.length ≤ s.length := by
    cases items with
    | last label before v after =>
      cases label
      obtain ⟨c, s, hv, hws, hclose, -⟩ := head_text v
      refine ⟨c, s ++ (after.1 ++ ch ']' :: r), ?_, hclose, by simp [Items.values]; omega⟩
      simp only [Items.text, Label.text, List.nil_append, List.append_assoc]
      rw [skipWs_ws, skipWs_value, hv, List.cons_append]
    | more label before v after rest =>
      cases label
      obtain ⟨c, s, hv, hws, hclose, -⟩ := head_text v
      have := values_length_le rest
      refine ⟨c, s ++ (after.1 ++ ch ',' :: (rest.text ++ ch ']' :: r)), ?_, hclose, ?_⟩
      · simp only [Items.text, Label.text, List.nil_append, List.append_assoc, List.cons_append]
        rw [skipWs_ws, skipWs_value, hv, List.cons_append]
      · simp only [Items.values, List.length_cons, List.length_append]
        omega
  obtain ⟨c, s, hs, hclose, hlen⟩ := hfirst
  have htasks := elementTasks_items path r items (Nat.le_succ_of_le hlen) 0
  have hskip : elementTasks path (s.length + 1) 0 (c :: s) =
      elementTasks path (s.length + 1) 0 (items.text ++ ch ']' :: r) := by
    rw [← hs, elementTasks, elementTasks, skipWs_skipWs]
  unfold arrayChildren
  rw [hs]
  simp only [if_neg hclose, hskip, htasks]

theorem children_group (path : List PathSeg) (r : Bytes) {k : Kind} (items : Items k) :
    children path k.opening (items.text ++ k.closing :: r) = itemTasks path r 0 items := by
  cases k with
  | array =>
    have := arrayChildren_items path r items
    change (if ch '[' = ch '\x7b' then _ else if ch '[' = ch '[' then _ else _) = _
    rw [if_neg (by decide), if_pos rfl]
    exact congrArg (Option.getD · []) this
  | object =>
    have hfuel : items.text.length < (items.text ++ ch '\x7d' :: r).length + 1 := by
      rw [List.length_append]
      omega
    have := objectChildren_items path r items hfuel 0
    change (if ch '\x7b' = ch '\x7b' then _ else _) = _
    rw [if_pos rfl]
    exact congrArg (Option.getD · []) this

theorem children_empty (path : List PathSeg) (r : Bytes) (k : Kind) (w : Ws) :
    children path k.opening (w.1 ++ k.closing :: r) = [] := by
  cases k with
  | array =>
    change (if ch '[' = ch '\x7b' then _ else if ch '[' = ch '[' then _ else _) = _
    rw [if_neg (by decide), if_pos rfl, arrayChildren, skipWs_ws]
    rfl
  | object =>
    change (if ch '\x7b' = ch '\x7b' then _ else _) = _
    rw [if_pos rfl, objectChildren, skipWs_ws]
    rfl

/-! ## The loop -/

mutual

/-- How often the loop takes something from the stack for a value. -/
def nodes : Value → Nat
  | .group _ items => 1 + itemNodes items
  | _ => 1

def itemNodes : {k : Kind} → Items k → Nat
  | _, .last _ _ v _ => nodes v
  | _, .more _ _ v _ rest => nodes v + itemNodes rest

end

/-- A leaf that the loop reports, and a string of the value. -/
def LeafAt (path : List PathSeg) (base : Nat) (v : Value) (leaf : StringLeaf) (l : List PathSeg × List Nat) : Prop :=
  leaf.path = path ++ l.1 ∧ ∃ p, v.place l.2 = some p ∧ leaf.span = placeSpan base p

/-- The same for the items of a container, from index `start` on. -/
def ItemLeafAt (path : List PathSeg) (base : Nat) {k : Kind} (items : Items k) (start : Nat) (leaf : StringLeaf)
    (l : List PathSeg × List Nat) : Prop :=
  leaf.path = path ++ l.1 ∧ ∃ j a p q, l.2 = (start + j) :: a ∧ items.place j = some p ∧ p.value.place a = some q ∧
    leaf.span = placeSpan base (p.inside q)

/-- The loop reports the strings of a value and goes on with the stack below it. -/
def TakesLeaves (v : Value) : Prop :=
  ∀ (doc pre r : Bytes) (path : List PathSeg) (stack : List WalkTask), doc = pre ++ (v.text ++ r) →
    ∃ ls, List.Forall₂ (LeafAt path pre.length v) ls (leaves v) ∧
      ∀ fuel, leavesLoop doc (nodes v + fuel) (⟨path, v.text ++ r⟩ :: stack) = ls ++ leavesLoop doc fuel stack

theorem placeSpan_inside (base : Nat) (p q : Place) :
    placeSpan base (p.inside q) = placeSpan (base + p.before.length) q := by
  simp only [placeSpan, Place.inside, List.length_append, Nat.add_assoc]
  rfl

theorem itemLeafAt_first {path : List PathSeg} {pre : Bytes} {k : Kind} {items : Items k} {start : Nat} {p : Place}
    {seg : PathSeg} (hplace : items.place 0 = some p) {ls : List StringLeaf}
    (h : List.Forall₂ (LeafAt (path ++ [seg]) (pre ++ p.before).length p.value) ls (leaves p.value)) :
    List.Forall₂ (ItemLeafAt path pre.length items start) ls
      ((leaves p.value).map fun l => (seg :: l.1, start :: l.2)) := by
  rw [List.forall₂_map_right_iff]
  refine List.Forall₂.imp ?_ h
  rintro leaf l ⟨hpath, q, hq, hspan⟩
  refine ⟨by simp [hpath], 0, l.2, p, q, rfl, hplace, hq, ?_⟩
  rw [hspan, placeSpan_inside, List.length_append]

theorem takesLeaves_items {k : Kind} (items : Items k) (hvalues : ∀ v ∈ items.values, TakesLeaves v)
    {doc pre r : Bytes} (path : List PathSeg) (stack : List WalkTask) (start : Nat)
    (hdoc : doc = pre ++ (items.text ++ k.closing :: r)) :
    ∃ ls, List.Forall₂ (ItemLeafAt path pre.length items start) ls (itemLeaves start items) ∧
      ∀ fuel, leavesLoop doc (itemNodes items + fuel) (itemTasks path r start items ++ stack) =
        ls ++ leavesLoop doc fuel stack := by
  induction items using Items.induction generalizing pre start with
  | last label before v after =>
    have hdoc' : doc = (pre ++ (label.text ++ before.1)) ++ (v.text ++ (after.1 ++ k.closing :: r)) := by
      rw [hdoc]
      simp [Items.text]
    obtain ⟨ls, hls, hloop⟩ := hvalues v (by simp [Items.values]) doc _ _ (path ++ [segOf label start]) stack hdoc'
    have hplace : (Items.last label before v after).place 0 = some ⟨label.text ++ before.1, v, after.1⟩ := rfl
    exact ⟨ls, itemLeafAt_first hplace hls, hloop⟩
  | more label before v after rest ih =>
    have hdoc₁ : doc = (pre ++ (label.text ++ before.1)) ++
        (v.text ++ (after.1 ++ ch ',' :: (rest.text ++ k.closing :: r))) := by
      rw [hdoc]
      simp [Items.text]
    have hdoc₂ : doc = (pre ++ (label.text ++ before.1 ++ v.text ++ after.1 ++ [ch ','])) ++
        (rest.text ++ k.closing :: r) := by
      rw [hdoc]
      simp [Items.text]
    obtain ⟨ls₁, hls₁, hloop₁⟩ := hvalues v (by simp [Items.values]) doc _ _ (path ++ [segOf label start])
      (itemTasks path r (start + 1) rest ++ stack) hdoc₁
    obtain ⟨ls₂, hls₂, hloop₂⟩ := ih (fun w hw => hvalues w (by simp [Items.values, hw])) (start + 1) hdoc₂
    have hplace : (Items.more label before v after rest).place 0 =
        some ⟨label.text ++ before.1, v, after.1 ++ ch ',' :: rest.text⟩ := rfl
    refine ⟨ls₁ ++ ls₂, List.rel_append (itemLeafAt_first hplace hls₁) (List.Forall₂.imp ?_ hls₂), fun fuel => ?_⟩
    · rintro leaf l ⟨hpath, j, a, p, q, hl, hp, hq, hspan⟩
      have hnext : (Items.more label before v after rest).place (j + 1) =
          some ⟨label.text ++ before.1 ++ v.text ++ after.1 ++ ch ',' :: p.before, p.value, p.behind⟩ := by
        rw [Items.place, hp, Option.map_some]
      have hindex : l.2 = (start + (j + 1)) :: a := by
        rw [hl, Nat.add_assoc, Nat.add_comm 1 j]
      refine ⟨hpath, j + 1, a, _, q, hindex, hnext, hq, ?_⟩
      rw [hspan]
      simp only [placeSpan, Place.inside, List.length_append, List.length_cons, List.length_nil]
      congr 1 <;> omega
    · rw [itemNodes, Nat.add_assoc, itemTasks, List.cons_append, hloop₁, hloop₂, List.append_assoc]

theorem leavesLoop_container {doc : Bytes} {k : Kind} {s : Bytes} (path : List PathSeg) (fuel : Nat)
    (stack : List WalkTask) : leavesLoop doc (1 + fuel) (⟨path, k.opening :: s⟩ :: stack) =
      leavesLoop doc fuel (children path k.opening s ++ stack) := by
  rw [Nat.add_comm, leavesLoop, skipWs_cons (isWs_opening k)]
  simp only
  rw [if_neg (by cases k <;> decide)]

theorem takesLeaves (v : Value) : TakesLeaves v := by
  induction v using Value.induction with
  | scalar t =>
    intro doc pre r path stack hdoc
    obtain ⟨c, s, ht, hws, hquote, harray, hobject, -⟩ := head_scalar t
    refine ⟨[], .nil, fun fuel => ?_⟩
    change leavesLoop doc (1 + fuel) _ = _
    rw [Nat.add_comm, leavesLoop, skipWs_value, Value.text, ht]
    simp only [List.cons_append]
    rw [if_neg hquote, children, if_neg hobject, if_neg harray]
    rfl
  | string b =>
    intro doc pre r path stack hdoc
    refine ⟨[⟨path, placeSpan pre.length ⟨[], .string b, []⟩⟩], .cons ?_ .nil, fun fuel => ?_⟩
    · exact ⟨(List.append_nil path).symm, _, rfl, rfl⟩
    · have hspan : spanOf doc (ch '"' :: (b.1 ++ [ch '"'] ++ r)) r true = placeSpan pre.length ⟨[], .string b, []⟩ :=
        spanOf_seen (p := ⟨[], .string b, []⟩) hdoc (by simp [Place.text])
      have hskip : skipString (ch '"' :: (b.1 ++ [ch '"'] ++ r)) = some r := skipString_quoted b r
      have htext : Value.text (.string b) ++ r = ch '"' :: (b.1 ++ [ch '"'] ++ r) := rfl
      change leavesLoop doc (1 + fuel) _ = _
      rw [Nat.add_comm, leavesLoop, skipWs_value, htext]
      simp only [if_true, hskip, hspan]
      rfl
  | empty k w =>
    intro doc pre r path stack hdoc
    refine ⟨[], .nil, fun fuel => ?_⟩
    simp only [Value.text, List.cons_append, List.append_assoc, List.nil_append]
    change leavesLoop doc (1 + fuel) _ = _
    rw [leavesLoop_container, children_empty]
    rfl
  | group k items ih =>
    intro doc pre r path stack hdoc
    have hdoc' : doc = (pre ++ [k.opening]) ++ (items.text ++ k.closing :: r) := by
      rw [hdoc]
      simp [Value.text]
    obtain ⟨ls, hls, hloop⟩ := takesLeaves_items items ih path stack 0 hdoc'
    refine ⟨ls, List.Forall₂.imp ?_ hls, fun fuel => ?_⟩
    · rintro leaf l ⟨hpath, j, a, p, q, hl, hp, hq, hspan⟩
      have hchild : (Value.group k items).child j =
          some ⟨k.opening :: p.before, p.value, p.behind ++ [k.closing]⟩ := by
        rw [Value.child, hp, Option.map_some]
      rw [Nat.zero_add] at hl
      refine ⟨hpath, _, by rw [hl]; exact Value.place_cons.mpr ⟨_, q, hchild, hq, rfl⟩, ?_⟩
      rw [hspan]
      simp only [placeSpan, Place.inside, List.length_append, List.length_cons, List.length_nil]
      congr 1 <;> omega
    · simp only [Value.text, List.cons_append, List.append_assoc, List.nil_append]
      rw [nodes, Nat.add_assoc, leavesLoop_container, children_group, hloop]

/-- The loop takes something from the stack at most once for each byte. -/
theorem nodes_le (v : Value) : nodes v ≤ v.text.length := by
  have hitems : ∀ {k : Kind} (items : Items k), (∀ v ∈ items.values, nodes v ≤ v.text.length) →
      itemNodes items ≤ items.text.length := by
    intro k items hvalues
    induction items using Items.induction with
    | last label before v after =>
      have := hvalues v (by simp [Items.values])
      simp only [itemNodes, Items.text, List.length_append]
      omega
    | more label before v after rest ih =>
      have := hvalues v (by simp [Items.values])
      have := ih fun w hw => hvalues w (by simp [Items.values, hw])
      simp only [itemNodes, Items.text, List.length_append, List.length_cons]
      omega
  induction v using Value.induction with
  | scalar t =>
    obtain ⟨c, s, ht, -⟩ := head_scalar t
    simp [nodes, Value.text, ht]
  | string b => simp [nodes, Value.text, quoted]
  | empty k w => simp [nodes, Value.text]
  | group k items ih =>
    have := hitems items ih
    simp only [nodes, Value.text, List.length_cons, List.length_append]
    omega

theorem leavesLoop_nil (doc : Bytes) (fuel : Nat) : leavesLoop doc fuel [] = [] := by
  cases fuel <;> rfl

theorem stringLeaves_span {doc : Bytes} {root : List PathSeg} {c : ValueSpan} {pre post : Bytes} {v : Value}
    (hfind : findValue doc root = some c) (h : SpanOf doc c pre v post) :
    List.Forall₂ (LeafAt root pre.length v) (stringLeaves doc root) (leaves v) := by
  obtain ⟨ls, hls, hloop⟩ := takesLeaves v doc pre post root [] h.doc_eq
  have hdrop : doc.drop c.start = v.text ++ post := by rw [h.span_eq, h.doc_eq, List.drop_left]
  have hfuel : doc.length + 1 = nodes v + (doc.length + 1 - nodes v) := by
    have := nodes_le v
    have hlen := congrArg List.length h.doc_eq
    simp only [List.length_append] at hlen
    omega
  have hleaves : stringLeaves doc root = ls := by
    unfold stringLeaves
    simp only [hfind]
    rw [hdrop, hfuel, hloop, leavesLoop_nil, List.append_nil]
  rw [hleaves]
  exact hls

end LlmGuard.Json
