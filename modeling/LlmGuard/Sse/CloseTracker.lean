import LlmGuard.Code.Sse
import LlmGuard.Lib.JsonSyntax

/-!
# `JsonCloseTracker` sees the end of an object

The tracker counts braces outside strings. A whole value inside the object leaves it as it was, so only the last brace
of the object brings the depth back to zero.
-/

namespace LlmGuard.Sse

open Rfc8259

/-! ## One byte after the other -/

theorem feed_append (t : JsonCloseTracker) (a b : Bytes) : t.feed (a ++ b) = (t.feed a).feed b :=
  List.foldl_append

theorem feed_cons (t : JsonCloseTracker) (c : Byte) (s : Bytes) : t.feed (c :: s) = (t.feedByte c).feed s := rfl

/-- Where a fragment ends makes no difference. -/
theorem feed_fragments (t : JsonCloseTracker) (fragments : List Bytes) :
    fragments.foldl JsonCloseTracker.feed t = t.feed fragments.flatten :=
  List.foldl_flatten.symm

theorem feedByte_closed {t : JsonCloseTracker} (h : t.closed) (c : Byte) : (t.feedByte c).closed := by
  unfold JsonCloseTracker.feedByte
  repeat' split
  all_goals simp [h]

theorem feed_closed {t : JsonCloseTracker} (h : t.closed) (s : Bytes) : (t.feed s).closed := by
  induction s generalizing t with
  | nil => exact h
  | cons c s ih => exact ih (feedByte_closed h c)

theorem int32_small {n : Int} (hlow : 0 ≤ n) (hhigh : n < 2 ^ 31) : int32 n = n := by
  unfold int32
  rw [Int.bmod_eq_of_le] <;> omega

/-! ## What leaves the tracker as it was -/

/-- A byte that the tracker does not look at. -/
def Quiet (c : Byte) : Prop := c ≠ ch '\\' ∧ c ≠ ch '"' ∧ c ≠ ch '\x7b' ∧ c ≠ ch '\x7d'

instance (c : Byte) : Decidable (Quiet c) := inferInstanceAs (Decidable (_ ∧ _ ∧ _ ∧ _))

/-- Between two tokens of an object. -/
structure Inside (t : JsonCloseTracker) : Prop where
  escaped : t.escaped = false
  inString : t.inString = false
  opened : t.opened = true
  depth : 1 ≤ t.depth

theorem feedByte_quiet {t : JsonCloseTracker} (hescaped : t.escaped = false) {c : Byte} (h : Quiet c) :
    t.feedByte c = t := by
  obtain ⟨hbackslash, hquote, hopen, hclose⟩ := h
  unfold JsonCloseTracker.feedByte
  rw [if_neg (by simp [hescaped]), if_neg hbackslash, if_neg hquote, if_neg hopen, if_neg hclose, ite_self]

theorem feed_quiet {t : JsonCloseTracker} (hescaped : t.escaped = false) {s : Bytes} (h : ∀ c ∈ s, Quiet c) :
    t.feed s = t := by
  induction s with
  | nil => rfl
  | cons c s ih =>
    rw [feed_cons, feedByte_quiet hescaped (h c (by simp)), ih fun d hd => h d (by simp [hd])]

theorem quiet_blank {c : Byte} (h : blank c) : Quiet c := by
  unfold blank at h
  simp only [Bool.or_eq_true, decide_eq_true_eq] at h
  rcases h with ((rfl | rfl) | rfl) | rfl <;> decide

theorem quiet_digit {c : Byte} (h : isDigit c) : Quiet c := by
  refine ⟨?_, ?_, ?_, ?_⟩ <;> rintro rfl <;> revert h <;> decide

theorem quiet_number {t : Bytes} (h : IsNumber t) : ∀ c ∈ t, Quiet c := by
  obtain ⟨minus, int, frac, exp, hminus, hint, hfrac, hexp, rfl⟩ := h
  have hdigits : ∀ ds, IsDigits ds → ∀ c ∈ ds, Quiet c := fun ds hds c hc => quiet_digit (hds.2 c hc)
  intro c hc
  simp only [List.mem_append] at hc
  rcases hc with ((hc | hc) | hc) | hc
  · rcases hminus with rfl | rfl
    · cases hc
    · rw [List.mem_singleton.mp hc]
      decide
  · rcases hint with rfl | ⟨hint, -⟩
    · rw [List.mem_singleton.mp hc]
      decide
    · exact hdigits int hint c hc
  · rcases hfrac with rfl | ⟨ds, hds, rfl⟩
    · cases hc
    · rcases List.mem_cons.mp hc with rfl | hc
      · decide
      · exact hdigits ds hds c hc
  · rcases hexp with rfl | ⟨m, sign, ds, hm, hsign, hds, rfl⟩
    · cases hc
    · rw [List.cons_append, List.mem_cons, List.mem_append] at hc
      rcases hc with rfl | hc | hc
      · rcases hm with rfl | rfl <;> decide
      · rcases hsign with rfl | rfl | rfl
        · cases hc
        · rw [List.mem_singleton.mp hc]
          decide
        · rw [List.mem_singleton.mp hc]
          decide
      · exact hdigits ds hds c hc

theorem quiet_scalar (t : Scalar) : ∀ c ∈ t.1, Quiet c := by
  rcases t.2 with h | h
  · have hall : ∀ lit ∈ literals, ∀ c ∈ lit, Quiet c := by decide
    exact hall _ h
  · exact quiet_number h

theorem quiet_ws (w : Ws) : ∀ c ∈ w.1, Quiet c := fun c hc => quiet_blank (w.2 c hc)

/-! ## Strings -/

theorem feedByte_plain {t : JsonCloseTracker} (hescaped : t.escaped = false) (hstring : t.inString = true) {c : Byte}
    (hquote : c ≠ ch '"') (hbackslash : c ≠ ch '\\') : t.feedByte c = t := by
  unfold JsonCloseTracker.feedByte
  rw [if_neg (by simp [hescaped]), if_neg hbackslash, if_neg hquote, if_pos hstring]

theorem feed_escape {t : JsonCloseTracker} (hescaped : t.escaped = false) (e : Byte) (s : Bytes) :
    t.feed (ch '\\' :: e :: s) = t.feed s := by
  have hround : (t.feedByte (ch '\\')).feedByte e = t := by
    unfold JsonCloseTracker.feedByte
    simp only [hescaped, Bool.false_eq_true, if_false, if_true]
    rw [← hescaped]
  rw [feed_cons, feed_cons, hround]

theorem plain_hexDigit {h : Byte} (hh : hexDigit h) : h ≠ ch '"' ∧ h ≠ ch '\\' := by
  constructor <;> rintro rfl <;> revert hh <;> decide

theorem feed_body {t : JsonCloseTracker} (hescaped : t.escaped = false) (hstring : t.inString = true) {s : Bytes}
    (h : IsBody s) : t.feed s = t := by
  induction h with
  | nil => rfl
  | plain _ hquote hbackslash _ ih => rw [feed_cons, feedByte_plain hescaped hstring hquote hbackslash, ih]
  | escape _ _ ih => rw [feed_escape hescaped, ih]
  | unicode h₁ h₂ h₃ h₄ _ ih =>
    have hplain := fun {h : Byte} (hh : hexDigit h) =>
      feedByte_plain hescaped hstring (plain_hexDigit hh).1 (plain_hexDigit hh).2
    rw [feed_escape hescaped, feed_cons, hplain h₁, feed_cons, hplain h₂, feed_cons, hplain h₃, feed_cons, hplain h₄, ih]

theorem feed_quoted {t : JsonCloseTracker} (hescaped : t.escaped = false) (hstring : t.inString = false) {s : Bytes}
    (h : IsBody s) : t.feed (quoted s) = t := by
  have hquote : ∀ u : JsonCloseTracker, u.escaped = false → u.feedByte (ch '"') = { u with inString := !u.inString } := by
    intro u hu
    unfold JsonCloseTracker.feedByte
    rw [if_neg (by simp [hu]), if_neg (by decide), if_pos rfl]
  have hbody : JsonCloseTracker.feed { t with inString := true } s = { t with inString := true } :=
    feed_body (t := { t with inString := true }) hescaped rfl h
  unfold quoted
  rw [List.cons_append, feed_cons, hquote t hescaped, feed_append, hstring, Bool.not_false, hbody, feed_cons,
    hquote { t with inString := true } hescaped, Bool.not_true, ← hstring]
  rfl

/-! ## Values -/

mutual

/-- How deep the objects of a value are nested. -/
def braceDepth : Value → Nat
  | .empty .object _ => 1
  | .group .object items => itemBraceDepth items + 1
  | .group .array items => itemBraceDepth items
  | _ => 0

def itemBraceDepth : {k : Kind} → Items k → Nat
  | _, .last _ _ v _ => braceDepth v
  | _, .more _ _ v _ rest => max (braceDepth v) (itemBraceDepth rest)

end

theorem braceDepth_le {k : Kind} {items : Items k} {v : Value} (h : v ∈ items.values) :
    braceDepth v ≤ itemBraceDepth items := by
  induction items using Items.induction with
  | last label before v' after =>
    rw [List.mem_singleton.mp h, itemBraceDepth]
  | more label before v' after rest ih =>
    rw [itemBraceDepth]
    rcases List.mem_cons.mp h with rfl | h
    · exact Nat.le_max_left _ _
    · exact (ih h).trans (Nat.le_max_right _ _)

/-- The text leaves the tracker as it was. -/
def Neutral (depth : Nat) (s : Bytes) : Prop :=
  ∀ t, Inside t → t.depth + depth < 2 ^ 31 → JsonCloseTracker.feed t s = t

theorem neutral_label {k : Kind} (label : Label k) (depth : Nat) : Neutral depth label.text := by
  intro t ht _
  cases label with
  | element => rfl
  | key before name after =>
    simp only [Label.text, feed_append, feed_quiet ht.escaped (quiet_ws _), feed_quoted ht.escaped ht.inString name.2]
    exact feed_quiet ht.escaped (by decide)

theorem neutral_items {k : Kind} {items : Items k} {depth : Nat} (h : ∀ v ∈ items.values, Neutral depth v.text) :
    Neutral depth items.text := by
  intro t ht hdepth
  induction items using Items.induction with
  | last label before v after =>
    simp only [Items.text, feed_append, neutral_label label depth t ht hdepth, feed_quiet ht.escaped (quiet_ws _),
      h v (by simp [Items.values]) t ht hdepth]
  | more label before v after rest ih =>
    have hrest := ih fun v hv => h v (by simp [Items.values, hv])
    have hcomma : t.feedByte (ch ',') = t := feedByte_quiet ht.escaped (by decide)
    simp only [Items.text, feed_append, feed_cons, neutral_label label depth t ht hdepth,
      feed_quiet ht.escaped (quiet_ws _), h v (by simp [Items.values]) t ht hdepth, hcomma, hrest]

theorem feedByte_opening {t : JsonCloseTracker} (hescaped : t.escaped = false) (hstring : t.inString = false)
    (hlow : 0 ≤ t.depth) (hhigh : t.depth + 1 < 2 ^ 31) :
    t.feedByte (Kind.opening .object) = { t with depth := t.depth + 1, opened := true } := by
  unfold JsonCloseTracker.feedByte
  rw [if_neg (by simp [hescaped]), if_neg (by decide), if_neg (by decide), if_neg (by simp [hstring]),
    if_pos (by rfl), int32_small (by omega) hhigh]

theorem feedByte_closing {t : JsonCloseTracker} (ht : Inside t) (hhigh : t.depth < 2 ^ 31) :
    t.feedByte (Kind.closing .object) =
      { t with depth := t.depth - 1, closed := t.closed || decide (t.depth - 1 = 0) } := by
  have := ht.depth
  unfold JsonCloseTracker.feedByte
  rw [if_neg (by simp [ht.escaped]), if_neg (by decide), if_neg (by decide), if_neg (by simp [ht.inString]),
    if_neg (by decide), if_pos (by rfl), int32_small (by omega) (by omega)]
  simp only [ht.opened, Bool.true_and]

/-- A bracket of an array is not counted, a pair of braces is counted up and down. -/
theorem neutral_brackets {k : Kind} {depth : Nat} {s : Bytes} (h : Neutral depth s) :
    Neutral (if k = .object then depth + 1 else depth) (k.opening :: s ++ [k.closing]) := by
  intro t ht hdepth
  cases k with
  | array =>
    have hopen : t.feedByte (Kind.opening .array) = t := feedByte_quiet ht.escaped (by decide)
    have hclose : t.feedByte (Kind.closing .array) = t := feedByte_quiet ht.escaped (by decide)
    rw [List.cons_append, feed_cons, hopen, feed_append, h t ht (by simpa using hdepth), feed_cons, hclose]
    rfl
  | object =>
    have hlow := ht.depth
    simp only [if_true] at hdepth
    have hinner : Inside { t with depth := t.depth + 1, opened := true } :=
      ⟨ht.escaped, ht.inString, rfl, by simp only; omega⟩
    rw [List.cons_append, feed_cons, feedByte_opening ht.escaped ht.inString (by omega) (by omega), feed_append,
      h _ hinner (by simp only; omega), feed_cons, feedByte_closing hinner (by simp only; omega)]
    have hopened := ht.opened
    obtain ⟨d, inString, escaped, opened, closed⟩ := t
    simp only at hlow hopened
    have hne : ¬ d = 0 := by omega
    simp [JsonCloseTracker.feed, hne, hopened]

theorem neutral_value (v : Value) : Neutral (braceDepth v) v.text := by
  induction v using Value.induction with
  | scalar t => exact fun _ ht _ => feed_quiet ht.escaped (quiet_scalar t)
  | string s => exact fun _ ht _ => feed_quoted ht.escaped ht.inString s.2
  | empty k w =>
    have hws : Neutral 0 w.1 := fun _ ht _ => feed_quiet ht.escaped (quiet_ws w)
    have := neutral_brackets (k := k) hws
    cases k <;> simpa [braceDepth, Value.text] using this
  | group k items ih =>
    have hitems : Neutral (itemBraceDepth items) items.text := by
      refine neutral_items fun v hv t ht hdepth => ih v hv t ht ?_
      have := braceDepth_le hv
      omega
    have := neutral_brackets (k := k) hitems
    cases k <;> simpa [braceDepth, Value.text] using this

/-! ## The object -/

def IsObject : Value → Prop
  | .empty .object _ => True
  | .group .object _ => True
  | _ => False

theorem exists_inside {v : Value} (h : IsObject v) :
    ∃ s, v.text = ch '\x7b' :: s ++ [ch '\x7d'] ∧ Neutral (braceDepth v - 1) s := by
  cases v with
  | scalar t => cases h
  | string s => cases h
  | empty k w =>
    cases k with
    | array => cases h
    | object => exact ⟨w.1, rfl, fun _ ht _ => feed_quiet ht.escaped (quiet_ws w)⟩
  | group k items =>
    cases k with
    | array => cases h
    | object =>
      refine ⟨items.text, rfl, neutral_items fun v hv t ht hdepth => neutral_value v t ht ?_⟩
      have := braceDepth_le hv
      simp only [braceDepth, Nat.add_sub_cancel] at hdepth
      omega

/-- The tracker is closed as soon as it has seen the last brace, however the text is cut. -/
theorem closeTracker_exact {doc : Bytes} (reading : Reading doc) (hobject : IsObject reading.value)
    (hdepth : braceDepth reading.value < 2 ^ 31) (tracker : JsonCloseTracker) {done todo : List Bytes}
    (hcut : (done ++ todo).flatten = doc) :
    ((done.foldl JsonCloseTracker.feed {}).closed ↔
        reading.before.1.length + reading.value.text.length ≤ done.flatten.length) ∧
      ((done.foldl JsonCloseTracker.feed tracker.reset).closed ↔
        reading.before.1.length + reading.value.text.length ≤ done.flatten.length) := by
  obtain ⟨s, htext, hinside⟩ := exists_inside hobject
  have hopen : JsonCloseTracker.feed {} (reading.before.1 ++ ch '\x7b' :: s) = { depth := 1, opened := true } := by
    have hbrace : JsonCloseTracker.feedByte {} (ch '\x7b') = { depth := 1, opened := true } := by decide
    rw [feed_append, feed_quiet rfl (quiet_ws _), feed_cons, hbrace]
    exact hinside _ ⟨rfl, rfl, rfl, Int.le_refl 1⟩ (by simp only; omega)
  have hclose : (JsonCloseTracker.feed {} (reading.before.1 ++ reading.value.text)).closed := by
    rw [htext, ← List.append_assoc, feed_append, hopen]
    decide
  obtain ⟨rest, hrest⟩ : ∃ rest, done.flatten ++ rest = reading.before.1 ++ reading.value.text ++ reading.after.1 :=
    ⟨todo.flatten, by rw [← reading.eq, ← hcut, List.flatten_append]⟩
  have hfresh : (done.foldl JsonCloseTracker.feed {}).closed ↔
      reading.before.1.length + reading.value.text.length ≤ done.flatten.length := by
    rw [feed_fragments]
    constructor
    · intro h
      by_contra hshort
      have hpre : done.flatten <+: reading.before.1 ++ ch '\x7b' :: s := by
        refine List.prefix_of_prefix_length_le ⟨rest, hrest⟩ ?_ ?_
        · exact ⟨ch '\x7d' :: reading.after.1, by simp [htext]⟩
        · simp only [htext, List.length_append, List.length_cons, List.length_nil] at hshort ⊢
          omega
      obtain ⟨u, hu⟩ := hpre
      have hsticky := feed_closed h u
      rw [← feed_append, hu, hopen] at hsticky
      cases hsticky
    · intro hlong
      obtain ⟨u, hu⟩ : reading.before.1 ++ reading.value.text <+: done.flatten := by
        apply List.prefix_of_prefix_length_le ⟨reading.after.1, rfl⟩ ⟨rest, hrest⟩
        rwa [List.length_append]
      rw [← hu, feed_append]
      exact feed_closed hclose u
  exact ⟨hfresh, hfresh⟩

/-- A brace and an escaped quote in a string, cut behind the backslash. -/
def bracedString : Value :=
  .group .object (.last (.key noWs ⟨[], .nil⟩ noWs) noWs
    (.string ⟨ascii "\x7d\\\"", .plain (by decide) (by decide) (by decide) (.escape (by decide) .nil)⟩) noWs)

theorem closeTracker_exact_sample :
    ([ascii " \x7b\"\":\"\x7d\\", ascii "\"\"\x7d"].foldl JsonCloseTracker.feed {}).closed :=
  have hcut : ([ascii " \x7b\"\":\"\x7d\\", ascii "\"\"\x7d"] ++ []).flatten =
      ascii " " ++ bracedString.text ++ [] := by decide
  (closeTracker_exact ⟨⟨ascii " ", by decide⟩, bracedString, ⟨[], by simp⟩, rfl⟩ trivial (by decide) {} hcut).1.mpr
    (by decide)

end LlmGuard.Sse
