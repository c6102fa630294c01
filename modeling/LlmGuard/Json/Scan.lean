import LlmGuard.Json.Tokens

/-!
# `skip_value` against the grammar

The machine keeps one frame for each open container. What the frames still ask of the document is `Closes`.
-/

namespace LlmGuard.Json

open Rfc8259 (Kind Label Value Items Ws Body Scalar IsNumber IsScalar Stops quoted blank literals)

/-! ## Frames and kinds -/

def walkKind : Kind → WalkKind
  | .array => .array
  | .object => .object

def startOf : Kind → WalkState
  | .array => .arrayStart
  | .object => .objectStart

def afterCommaOf : Kind → WalkState
  | .array => .arrayAfterComma
  | .object => .objectAfterComma

def afterValueOf : Kind → WalkState
  | .array => .arrayAfterValue
  | .object => .objectAfterValue

/-- A frame that waits for an item. -/
def Waits (k : Kind) (st : WalkState) : Prop := st = startOf k ∨ st = afterCommaOf k

/-- A frame that waits for a value, behind its label. -/
def Ready : Kind → WalkState → Prop
  | .array, st => Waits .array st
  | .object, st => st = .objectAfterColon

theorem completeValue_cons (k : Kind) (st : WalkState) (frames : List WalkFrame) :
    completeValue (⟨walkKind k, st⟩ :: frames) = ⟨walkKind k, afterValueOf k⟩ :: frames := by
  cases k <;> rfl

/-! ## One value without its items -/

theorem isWs_opening (k : Kind) : isWs k.opening = false := by cases k <;> decide

theorem openOrScalar_opening (k : Kind) (s : Bytes) :
    openOrScalar (k.opening :: s) = some (s, some ⟨walkKind k, startOf k⟩) := by
  cases k <;> rfl

theorem openOrScalar_string (b : Body) (r : Bytes) : openOrScalar (quoted b.1 ++ r) = some (r, none) := by
  have hskip := skipString_quoted b r
  change skipString (ch '"' :: (b.1 ++ [ch '"'] ++ r)) = some r at hskip
  change openOrScalar (ch '"' :: (b.1 ++ [ch '"'] ++ r)) = some (r, none)
  rw [openOrScalar, if_pos rfl, hskip]
  rfl

theorem head_number {t : Bytes} (ht : IsNumber t) : ∃ c s, t = c :: s ∧ (c = ch '-' ∨ isDigit c) := by
  obtain ⟨minus, int, frac, exp, hminus, hint, -, -, rfl⟩ := ht
  rcases hminus with rfl | rfl
  · obtain ⟨d, ds, rfl, hd⟩ := head_integer hint
    exact ⟨d, _, rfl, .inr hd⟩
  · exact ⟨ch '-', _, rfl, .inl rfl⟩

theorem openOrScalar_scalar (t : Scalar) {r : Bytes} (hr : EndsNumber r) :
    openOrScalar (t.1 ++ r) = some (r, none) := by
  obtain ⟨t, hlit | hnum⟩ := t
  · simp only [literals, List.mem_cons, List.not_mem_nil, or_false] at hlit
    rcases hlit with rfl | rfl | rfl <;> rfl
  · have hskip := skipNumber_number hnum hr
    obtain ⟨c, s, rfl, hc⟩ := head_number hnum
    simp only [List.cons_append] at hskip ⊢
    have hquote : c ≠ ch '"' := by
      rintro rfl
      rcases hc with hc | hc <;> exact absurd hc (by decide)
    rw [openOrScalar, if_neg hquote, if_pos (by simpa using hc), hskip]
    rfl

theorem literal_of_matchLiteral {lit s r : Bytes} (h : matchLiteral lit s = some r) : s = lit ++ r := by
  unfold matchLiteral at h
  split at h
  · rename_i hpre
    obtain ⟨m, rfl⟩ := List.isPrefixOf_iff_prefix.mp hpre
    rw [← Option.some.inj h, List.drop_left]
  · cases h

/-- A value whose text `open_or_scalar` takes whole. -/
def IsAtom : Value → Prop
  | .scalar _ => True
  | .string _ => True
  | _ => False

theorem openOrScalar_sound {s r : Bytes} {opened : Option WalkFrame} (h : openOrScalar s = some (r, opened)) :
    (opened = none ∧ ∃ v, IsAtom v ∧ s = v.text ++ r) ∨
      ∃ k : Kind, opened = some ⟨walkKind k, startOf k⟩ ∧ s = k.opening :: r := by
  cases s with
  | nil => cases h
  | cons c s =>
    have hlit : ∀ lit ∈ literals, (matchLiteral lit (c :: s)).map (·, (none : Option WalkFrame)) = some (r, opened) →
        opened = none ∧ ∃ v, IsAtom v ∧ c :: s = v.text ++ r := by
      intro lit hmem hmap
      obtain ⟨r', hmatch, heq⟩ := Option.map_eq_some_iff.mp hmap
      obtain ⟨rfl, rfl⟩ := Prod.mk.inj heq
      exact ⟨rfl, .scalar ⟨lit, .inl hmem⟩, trivial, literal_of_matchLiteral hmatch⟩
    rw [openOrScalar] at h
    split at h
    · obtain ⟨r', hskip, heq⟩ := Option.map_eq_some_iff.mp h
      obtain ⟨rfl, rfl⟩ := Prod.mk.inj heq
      obtain ⟨b, hb⟩ := quoted_of_skipString hskip
      exact .inl ⟨rfl, .string b, trivial, hb⟩
    · split at h
      · obtain ⟨r', hskip, heq⟩ := Option.map_eq_some_iff.mp h
        obtain ⟨rfl, rfl⟩ := Prod.mk.inj heq
        obtain ⟨t, ht, hs⟩ := number_of_skipNumber hskip
        exact .inl ⟨rfl, .scalar ⟨t, .inr ht⟩, trivial, hs⟩
      · split at h
        · exact .inl (hlit _ (by simp [literals]) h)
        · split at h
          · exact .inl (hlit _ (by simp [literals]) h)
          · split at h
            · exact .inl (hlit _ (by simp [literals]) h)
            · split at h
              · rename_i hc
                obtain ⟨rfl, rfl⟩ := Prod.mk.inj (Option.some.inj h)
                exact .inr ⟨.object, rfl, by rw [hc]; rfl⟩
              · split at h
                · rename_i hc
                  obtain ⟨rfl, rfl⟩ := Prod.mk.inj (Option.some.inj h)
                  exact .inr ⟨.array, rfl, by rw [hc]; rfl⟩
                · cases h

theorem head_scalar (t : Scalar) : ∃ c s, t.1 = c :: s ∧ isWs c = false ∧
    c ≠ ch '"' ∧ c ≠ ch '[' ∧ c ≠ ch '\x7b' ∧ c ≠ ch ']' ∧ c ≠ ch '\x7d' := by
  obtain ⟨t, hlit | hnum⟩ := t
  · simp only [literals, List.mem_cons, List.not_mem_nil, or_false] at hlit
    rcases hlit with rfl | rfl | rfl <;> exact ⟨_, _, rfl, by decide⟩
  · obtain ⟨c, s, rfl, hc⟩ := head_number hnum
    refine ⟨c, s, rfl, ?_⟩
    rcases hc with rfl | hc
    · decide
    · have hne : ∀ d, isDigit d = false → c ≠ d := by
        rintro d hd rfl
        rw [hc] at hd
        cases hd
      refine ⟨?_, hne _ (by decide), hne _ (by decide), hne _ (by decide), hne _ (by decide), hne _ (by decide)⟩
      simp only [isWs, Bool.or_eq_false_iff, decide_eq_false_iff_not]
      exact ⟨⟨⟨hne _ (by decide), hne _ (by decide)⟩, hne _ (by decide)⟩, hne _ (by decide)⟩

theorem head_text (v : Value) : ∃ c s, v.text = c :: s ∧ isWs c = false ∧ c ≠ ch ']' ∧ c ≠ ch '\x7d' := by
  cases v with
  | scalar t =>
    obtain ⟨c, s, ht, hws, -, -, -, hclose⟩ := head_scalar t
    exact ⟨c, s, ht, hws, hclose⟩
  | string s => exact ⟨ch '"', _, rfl, by decide⟩
  | empty k w => cases k <;> exact ⟨_, _, rfl, by decide⟩
  | group k items => cases k <;> exact ⟨_, _, rfl, by decide⟩

theorem text_pos (v : Value) : 0 < v.text.length := by
  obtain ⟨c, s, hv, -⟩ := head_text v
  simp [hv]

/-! ## The loop -/

theorem openOrScalar_length {s r : Bytes} {opened : Option WalkFrame} (h : openOrScalar s = some (r, opened)) :
    r.length < s.length := by
  rcases openOrScalar_sound h with ⟨-, v, -, rfl⟩ | ⟨k, -, rfl⟩
  · obtain ⟨c, t, hv, -⟩ := head_text v
    rw [hv, List.length_append, List.length_cons]
    omega
  · simp

theorem skipString_length {s r : Bytes} (h : skipString s = some r) : r.length < s.length := by
  obtain ⟨b, rfl⟩ := quoted_of_skipString h
  simp [quoted]
  omega

theorem valueIn_length {f : WalkFrame} {frames frames' : List WalkFrame} {after : WalkState} {s r : Bytes}
    (h : valueIn f frames after s = some (r, frames')) : r.length < s.length := by
  unfold valueIn at h
  split at h
  · cases h
  all_goals
    rename_i hopen
    obtain ⟨rfl, rfl⟩ := Prod.mk.inj (Option.some.inj h)
    exact openOrScalar_length hopen

theorem walkStep_length {f : WalkFrame} {frames frames' : List WalkFrame} {c : Byte} {s r : Bytes}
    (h : walkStep f frames c s = some (r, frames')) : r.length ≤ s.length := by
  have hkey : ∀ frames'', (skipString (c :: s)).map (·, frames'') = some (r, frames') → r.length ≤ s.length := by
    intro frames'' hmap
    obtain ⟨r', hskip, heq⟩ := Option.map_eq_some_iff.mp hmap
    have := skipString_length hskip
    rw [(Prod.mk.inj heq).1, List.length_cons] at this
    omega
  have hvalue : ∀ after, valueIn f frames after (c :: s) = some (r, frames') → r.length ≤ s.length := by
    intro after hval
    have := valueIn_length hval
    rw [List.length_cons] at this
    omega
  have hsome : ∀ {frames'' : List WalkFrame}, some (s, frames'') = some (r, frames') → r.length ≤ s.length := by
    intro frames'' heq
    rw [(Prod.mk.inj (Option.some.inj heq)).1]
  unfold walkStep at h
  split at h
  · split at h
    · exact hsome h
    · exact hvalue _ h
  · exact hvalue _ h
  · split at h
    · exact hsome h
    · split at h
      · exact hsome h
      · cases h
  · split at h
    · exact hsome h
    · exact hkey _ h
  · exact hkey _ h
  · split at h
    · exact hsome h
    · cases h
  · exact hvalue _ h
  · split at h
    · exact hsome h
    · split at h
      · exact hsome h
      · cases h

theorem skipWs_length (s : Bytes) : (skipWs s).length ≤ s.length := (List.dropWhile_sublist _).length_le

theorem walkLoop_fuel (n m : Nat) (frames : List WalkFrame) (s : Bytes) (hn : s.length ≤ n) (hm : s.length ≤ m) :
    walkLoop n frames s = walkLoop m frames s := by
  induction n generalizing m frames s with
  | zero =>
    obtain rfl := List.eq_nil_of_length_eq_zero (Nat.le_zero.mp hn)
    cases frames <;> cases m <;> rfl
  | succ n ih =>
    cases frames with
    | nil => cases m <;> rfl
    | cons f frames =>
      have hws := skipWs_length s
      cases m with
      | zero =>
        obtain rfl := List.eq_nil_of_length_eq_zero (Nat.le_zero.mp hm)
        rfl
      | succ m =>
        rw [walkLoop, walkLoop]
        split
        · rfl
        · rename_i c s' hs
          rw [hs, List.length_cons] at hws
          split
          · rfl
          · rename_i r frames' hstep
            have := walkStep_length hstep
            exact ih m frames' r (by omega) (by omega)

/-- The loop with all the fuel it can use. -/
def walk (frames : List WalkFrame) (s : Bytes) : Option Bytes := walkLoop s.length frames s

@[simp] theorem walk_nil (s : Bytes) : walk [] s = some s := by
  unfold walk
  cases s <;> rfl

theorem walk_step {f : WalkFrame} {frames frames' : List WalkFrame} {c : Byte} {s r : Bytes} (w : Ws)
    (hc : isWs c = false) (h : walkStep f frames c s = some (r, frames')) :
    walk (f :: frames) (w.1 ++ c :: s) = walk frames' r := by
  have hskip : skipWs (w.1 ++ c :: s) = c :: s := by
    rw [skipWs_ws]
    exact skipWs_of_head (by simpa using hc)
  have hlen : (w.1 ++ c :: s).length = (w.1.length + s.length) + 1 := by simp; omega
  have := walkStep_length h
  unfold walk
  rw [hlen, walkLoop, hskip]
  simp only [h]
  exact walkLoop_fuel _ _ _ _ (by omega) (Nat.le_refl _)

/-! ## Every value is taken whole -/

theorem walk_close {k : Kind} {st : WalkState} (hst : st = startOf k ∨ st = afterValueOf k)
    (frames : List WalkFrame) (w : Ws) (r : Bytes) :
    walk (⟨walkKind k, st⟩ :: frames) (w.1 ++ k.closing :: r) = walk (completeValue frames) r := by
  refine walk_step w ?_ ?_
  · cases k <;> decide
  · cases k <;> rcases hst with rfl | rfl <;> rfl

theorem walk_comma (k : Kind) (frames : List WalkFrame) (w : Ws) (s : Bytes) :
    walk (⟨walkKind k, afterValueOf k⟩ :: frames) (w.1 ++ ch ',' :: s) =
      walk (⟨walkKind k, afterCommaOf k⟩ :: frames) s := by
  apply walk_step w (by decide)
  cases k <;> rfl

theorem walk_label {k : Kind} {st : WalkState} (hst : Waits k st) (label : Label k) (frames : List WalkFrame)
    (s : Bytes) : ∃ st', Ready k st' ∧
      walk (⟨walkKind k, st⟩ :: frames) (label.text ++ s) = walk (⟨walkKind k, st'⟩ :: frames) s := by
  cases label with
  | element => exact ⟨st, hst, rfl⟩
  | key before name after =>
    refine ⟨.objectAfterColon, rfl, ?_⟩
    have hkey : walkStep ⟨.object, st⟩ frames (ch '"') (name.1 ++ [ch '"'] ++ (after.1 ++ ch ':' :: s)) =
        some (after.1 ++ ch ':' :: s, ⟨.object, .objectAfterKey⟩ :: frames) := by
      have hskip : skipString (ch '"' :: (name.1 ++ [ch '"'] ++ (after.1 ++ ch ':' :: s))) =
          some (after.1 ++ ch ':' :: s) := skipString_quoted name _
      rcases hst with rfl | rfl
      · simp only [walkStep, startOf, hskip, Option.map_some]
        rw [if_neg (by decide)]
      · simp only [walkStep, afterCommaOf, hskip, Option.map_some]
    have htext : (Label.key before name after).text ++ s =
        before.1 ++ ch '"' :: (name.1 ++ [ch '"'] ++ (after.1 ++ ch ':' :: s)) := by
      simp [Label.text, quoted]
    rw [htext, walkKind, walk_step before (by decide) hkey]
    exact walk_step after (by decide) (by simp [walkStep])

/-- The machine gets over the text of a value, and the frame around it goes on. -/
def WalksOver (v : Value) : Prop :=
  ∀ (k : Kind) (st : WalkState) (frames : List WalkFrame) (w : Ws) (r : Bytes), Ready k st → EndsNumber r →
    walk (⟨walkKind k, st⟩ :: frames) (w.1 ++ (v.text ++ r)) = walk (⟨walkKind k, afterValueOf k⟩ :: frames) r

theorem walkStep_ready {k : Kind} {st : WalkState} (hst : Ready k st) (frames : List WalkFrame) {c : Byte}
    (hc : c ≠ ch ']') (s : Bytes) :
    walkStep ⟨walkKind k, st⟩ frames c s = valueIn ⟨walkKind k, st⟩ frames (afterValueOf k) (c :: s) := by
  cases k with
  | array =>
    rcases hst with rfl | rfl
    · simp only [walkStep, startOf, if_neg hc]
      rfl
    · rfl
  | object =>
    obtain rfl := hst
    rfl

theorem walksOver_of_atom {v : Value} (h : ∀ r, EndsNumber r → openOrScalar (v.text ++ r) = some (r, none)) :
    WalksOver v := by
  intro k st frames w r hst hr
  obtain ⟨c, s, hv, hws, hc, -⟩ := head_text v
  have hopen := h r hr
  rw [hv, List.cons_append] at hopen ⊢
  apply walk_step w hws
  rw [walkStep_ready hst frames hc, valueIn, hopen]

theorem walk_opening (k' : Kind) {k : Kind} {st : WalkState} (hst : Ready k st) (frames : List WalkFrame) (w : Ws)
    (s : Bytes) : walk (⟨walkKind k, st⟩ :: frames) (w.1 ++ k'.opening :: s) =
      walk (⟨walkKind k', startOf k'⟩ :: ⟨walkKind k, st⟩ :: frames) s := by
  apply walk_step w (isWs_opening k')
  rw [walkStep_ready hst frames (by cases k' <;> decide), valueIn, openOrScalar_opening]

theorem endsNumber_ws {w : Ws} {r : Bytes} (hr : EndsNumber r) : EndsNumber (w.1 ++ r) := by
  obtain ⟨w, hw⟩ := w
  cases w with
  | nil => exact hr
  | cons c w =>
    refine Stops.endsNumber fun d hd => .inl ?_
    obtain rfl : c = d := by simpa using hd
    exact hw c (by simp)

theorem endsNumber_comma (s : Bytes) : EndsNumber (ch ',' :: s) :=
  Stops.endsNumber fun d hd => .inr (.inl (by simpa using hd.symm))

theorem endsNumber_closing (k : Kind) (s : Bytes) : EndsNumber (k.closing :: s) := by
  refine Stops.endsNumber fun d hd => ?_
  obtain rfl : k.closing = d := by simpa using hd
  cases k
  · exact .inr (.inr (.inl rfl))
  · exact .inr (.inr (.inr rfl))

theorem walk_item {k : Kind} {st : WalkState} (hst : Waits k st) (label : Label k) (before : Ws) {v : Value}
    (hv : WalksOver v) (frames : List WalkFrame) {r : Bytes} (hr : EndsNumber r) :
    walk (⟨walkKind k, st⟩ :: frames) (label.text ++ (before.1 ++ (v.text ++ r))) =
      walk (⟨walkKind k, afterValueOf k⟩ :: frames) r := by
  obtain ⟨st', hready, hlabel⟩ := walk_label hst label frames (before.1 ++ (v.text ++ r))
  rw [hlabel]
  exact hv k st' frames before r hready hr

theorem walk_items {k : Kind} (items : Items k) (hvalues : ∀ v ∈ items.values, WalksOver v) {st : WalkState}
    (hst : Waits k st) (frames : List WalkFrame) (r : Bytes) :
    walk (⟨walkKind k, st⟩ :: frames) (items.text ++ k.closing :: r) = walk (completeValue frames) r := by
  induction items using Items.induction generalizing st with
  | last label before v after =>
    have hv := hvalues v (by simp [Items.values])
    have hrest : EndsNumber (after.1 ++ k.closing :: r) := endsNumber_ws (endsNumber_closing k r)
    simp only [Items.text, List.append_assoc]
    rw [walk_item hst label before hv frames hrest]
    exact walk_close (.inr rfl) frames after r
  | more label before v after rest ih =>
    have hv := hvalues v (by simp [Items.values])
    have hrest : EndsNumber (after.1 ++ ch ',' :: (rest.text ++ k.closing :: r)) :=
      endsNumber_ws (endsNumber_comma _)
    simp only [Items.text, List.append_assoc, List.cons_append]
    rw [walk_item hst label before hv frames hrest, walk_comma]
    exact ih (fun v hv => hvalues v (by simp [Items.values, hv])) (.inr rfl)

theorem walksOver (v : Value) : WalksOver v := by
  induction v using Value.induction with
  | scalar t => exact walksOver_of_atom fun r hr => openOrScalar_scalar t hr
  | string s => exact walksOver_of_atom fun r _ => openOrScalar_string s r
  | empty k' w' =>
    intro k st frames w r hst hr
    simp only [Value.text, List.cons_append, List.append_assoc, List.nil_append]
    rw [walk_opening k' hst, walk_close (.inl rfl), completeValue_cons]
  | group k' items ih =>
    intro k st frames w r hst hr
    simp only [Value.text, List.cons_append, List.append_assoc, List.nil_append]
    rw [walk_opening k' hst, walk_items items ih (.inl rfl), completeValue_cons]

theorem skipValue_opening (k : Kind) (s : Bytes) :
    skipValue (k.opening :: s) = walk [⟨walkKind k, startOf k⟩] s := by
  unfold skipValue
  rw [skipWs_of_head (by simp [isWs_opening]), openOrScalar_opening]
  rfl

theorem skipValue_skipWs (s : Bytes) : skipValue (skipWs s) = skipValue s := by
  unfold skipValue
  rw [skipWs_skipWs]

theorem skipValue_atom {v : Value} {r : Bytes} (hopen : openOrScalar (v.text ++ r) = some (r, none)) :
    skipValue (v.text ++ r) = some r := by
  obtain ⟨c, s, hv, hws, -⟩ := head_text v
  unfold skipValue
  rw [skipWs_of_head (by simpa [hv] using hws), hopen]

theorem skipValue_closed {v : Value} (hclosed : ∀ t, v ≠ .scalar t) (r : Bytes) : skipValue (v.text ++ r) = some r := by
  cases v with
  | scalar t => exact absurd rfl (hclosed t)
  | string s => exact skipValue_atom (openOrScalar_string s r)
  | empty k w =>
    simp only [Value.text, List.cons_append, List.append_assoc, List.nil_append]
    rw [skipValue_opening, walk_close (.inl rfl)]
    exact walk_nil r
  | group k items =>
    simp only [Value.text, List.cons_append, List.append_assoc, List.nil_append]
    rw [skipValue_opening, walk_items items (fun v _ => walksOver v) (.inl rfl)]
    exact walk_nil r

/-- `skip_value` ends right behind a value. What follows matters to a number only. -/
theorem skipValue_text (v : Value) {r : Bytes} (hr : EndsNumber r) : skipValue (v.text ++ r) = some r := by
  cases v with
  | scalar t => exact skipValue_atom (openOrScalar_scalar t hr)
  | string | empty | group => exact skipValue_closed (fun t h => by cases h) r

/-! ## What is taken is a value -/

/-- The rest of a container behind one of its values. -/
def After (k : Kind) (t : Bytes) : Prop :=
  ∃ w : Ws, t = w.1 ++ [k.closing] ∨ ∃ items : Items k, t = w.1 ++ ch ',' :: (items.text ++ [k.closing])

/-- The rest of a container whose frame is in this state. -/
inductive Tail : Kind → WalkState → Bytes → Prop
  | close (k : Kind) (w : Ws) : Tail k (startOf k) (w.1 ++ [k.closing])
  | items (k : Kind) {st : WalkState} (hst : Waits k st) (items : Items k) : Tail k st (items.text ++ [k.closing])
  | key {w w' : Ws} {v : Value} {t : Bytes} (h : After .object t) :
      Tail .object .objectAfterKey (w.1 ++ ch ':' :: (w'.1 ++ (v.text ++ t)))
  | colon {w : Ws} {v : Value} {t : Bytes} (h : After .object t) :
      Tail .object .objectAfterColon (w.1 ++ (v.text ++ t))
  | after {k : Kind} {t : Bytes} (h : After k t) : Tail k (afterValueOf k) t

/-- Closing every frame but the top one takes the document from `s` to `r`. -/
def ClosesOuter : List WalkFrame → Bytes → Bytes → Prop
  | [], s, r => s = r
  | f :: frames, s, r => ∃ k t m, f.kind = walkKind k ∧ s = t ++ m ∧ After k t ∧ ClosesOuter frames m r

/-- Closing every frame takes the document from `s` to `r`. -/
def Closes : List WalkFrame → Bytes → Bytes → Prop
  | [], s, r => s = r
  | f :: frames, s, r =>
    ∃ k t m, f.kind = walkKind k ∧ s = t ++ m ∧ Tail k f.state t ∧ ClosesOuter frames m r

theorem walkKind_injective {k k' : Kind} (h : walkKind k = walkKind k') : k = k' := by
  cases k <;> cases k' <;> first | rfl | cases h

theorem after_of_tail {k : Kind} {t : Bytes} (h : Tail k (afterValueOf k) t) : After k t := by
  generalize hst : afterValueOf k = st at h
  cases h with
  | close => cases k <;> cases hst
  | items k hwait => rcases hwait with rfl | rfl <;> cases k <;> cases hst
  | key => cases hst
  | colon => cases hst
  | after h => exact h

theorem value_of_tail {k : Kind} {t : Bytes} (h : Tail k (startOf k) t) : ∃ v : Value, k.opening :: t = v.text := by
  generalize hst : startOf k = st at h
  cases h with
  | close _ w => exact ⟨.empty k w, rfl⟩
  | items k _ items => exact ⟨.group k items, rfl⟩
  | key => cases hst
  | colon => cases hst
  | after => cases k <;> cases hst

theorem closesOuter_of_closes {frames : List WalkFrame} {s r : Bytes} (h : Closes (completeValue frames) s r) :
    ClosesOuter frames s r := by
  cases frames with
  | nil => exact h
  | cons f frames =>
    obtain ⟨k, t, m, hk, hs, htail, houter⟩ := h
    have hk : f.kind = walkKind k := hk
    refine ⟨k, t, m, hk, hs, after_of_tail ?_, houter⟩
    have hstate : (if f.kind = .array then WalkState.arrayAfterValue else .objectAfterValue) = afterValueOf k := by
      rw [hk]
      cases k <;> rfl
    rw [← hstate]
    exact htail

theorem items_of_after {k : Kind} (label : Label k) (before : Ws) (v : Value) {t : Bytes} (h : After k t) :
    ∃ items : Items k, label.text ++ (before.1 ++ (v.text ++ t)) = items.text ++ [k.closing] := by
  obtain ⟨w, rfl | ⟨items, rfl⟩⟩ := h
  · exact ⟨.last label before v w, by simp [Items.text]⟩
  · exact ⟨.more label before v w items, by simp [Items.text]⟩

theorem valueIn_sound {f : WalkFrame} {frames frames' : List WalkFrame} {k : Kind} {s s' r : Bytes}
    (hf : f.kind = walkKind k) (h : valueIn f frames (afterValueOf k) s = some (s', frames'))
    (hcloses : Closes frames' s' r) :
    ∃ v t m, s = Value.text v ++ t ++ m ∧ After k t ∧ ClosesOuter frames m r := by
  unfold valueIn at h
  split at h
  · cases h
  · rename_i hopen
    obtain ⟨rfl, rfl⟩ := Prod.mk.inj (Option.some.inj h)
    rcases openOrScalar_sound hopen with ⟨-, v, -, rfl⟩ | ⟨_, hnone, -⟩
    · obtain ⟨k', t, m, hk, rfl, htail, houter⟩ := hcloses
      obtain rfl := walkKind_injective (hf.symm.trans hk)
      exact ⟨v, t, m, by simp, after_of_tail htail, houter⟩
    · cases hnone
  · rename_i hopen
    obtain ⟨rfl, rfl⟩ := Prod.mk.inj (Option.some.inj h)
    rcases openOrScalar_sound hopen with ⟨hsome, -⟩ | ⟨k₁, hopened, rfl⟩
    · cases hsome
    · obtain rfl := Option.some.inj hopened
      obtain ⟨k₂, t₂, m₂, hk₂, rfl, htail, houter⟩ := hcloses
      obtain rfl := walkKind_injective hk₂
      obtain ⟨v, hv⟩ := value_of_tail htail
      obtain ⟨k₃, t, m, hk, rfl, hafter, houter⟩ := houter
      obtain rfl := walkKind_injective (hf.symm.trans hk)
      exact ⟨v, t, m, by rw [← hv]; simp, hafter, houter⟩

theorem items_of_tail {k : Kind} {t : Bytes} (h : Tail k (afterCommaOf k) t) :
    ∃ items : Items k, t = items.text ++ [k.closing] := by
  generalize hst : afterCommaOf k = st at h
  cases h with
  | close => cases k <;> cases hst
  | items k _ items => exact ⟨items, rfl⟩
  | key => cases hst
  | colon => cases hst
  | after => cases k <;> cases hst

theorem valueIn_suffix {f : WalkFrame} {frames frames' : List WalkFrame} {after : WalkState} {s s' : Bytes}
    (h : valueIn f frames after s = some (s', frames')) : ∃ taken, s = taken ++ s' := by
  unfold valueIn at h
  split at h
  · cases h
  all_goals
    rename_i hopen
    obtain ⟨rfl, rfl⟩ := Prod.mk.inj (Option.some.inj h)
    rcases openOrScalar_sound hopen with ⟨-, v, -, rfl⟩ | ⟨k, -, rfl⟩
    · exact ⟨_, rfl⟩
    · exact ⟨[k.opening], rfl⟩

/-- The states that a frame of this kind goes through. -/
def Fits (k : Kind) (st : WalkState) : Prop :=
  Waits k st ∨ Ready k st ∨ st = afterValueOf k ∨ st = .objectAfterKey ∧ k = .object

/-- The state of the top frame is one of its kind. -/
def TopFits : List WalkFrame → Prop
  | [] => True
  | f :: _ => ∃ k, f.kind = walkKind k ∧ Fits k f.state

theorem topFits_completeValue (frames : List WalkFrame) : TopFits (completeValue frames) := by
  cases frames with
  | nil => trivial
  | cons f frames =>
    obtain ⟨kind, st⟩ := f
    cases kind
    · exact ⟨.object, rfl, .inr (.inr (.inl rfl))⟩
    · exact ⟨.array, rfl, .inr (.inr (.inl rfl))⟩

theorem topFits_valueIn {f : WalkFrame} {frames frames' : List WalkFrame} {k : Kind} {s s' : Bytes}
    (hf : f.kind = walkKind k) (h : valueIn f frames (afterValueOf k) s = some (s', frames')) : TopFits frames' := by
  unfold valueIn at h
  split at h
  · cases h
  · obtain ⟨rfl, rfl⟩ := Prod.mk.inj (Option.some.inj h)
    exact ⟨k, hf, .inr (.inr (.inl rfl))⟩
  · rename_i hopen
    obtain ⟨rfl, rfl⟩ := Prod.mk.inj (Option.some.inj h)
    rcases openOrScalar_sound hopen with ⟨hsome, -⟩ | ⟨k₁, hopened, -⟩
    · cases hsome
    · obtain rfl := Option.some.inj hopened
      exact ⟨k₁, rfl, .inl (.inl rfl)⟩

/-- What a round takes, put before what is left to close. -/
structure Keeps (f : WalkFrame) (frames : List WalkFrame) (taken : Bytes) (frames' : List WalkFrame)
    (left : Bytes) : Prop where
  fits : TopFits frames'
  closes : ∀ (w : Ws) (r : Bytes), Closes frames' left r → Closes (f :: frames) (w.1 ++ (taken ++ left)) r

theorem keeps_close (k : Kind) {st : WalkState} (hst : st = startOf k ∨ st = afterValueOf k)
    (frames : List WalkFrame) (s : Bytes) :
    Keeps ⟨walkKind k, st⟩ frames [k.closing] (completeValue frames) s where
  fits := topFits_completeValue frames
  closes w r hcloses := by
    refine ⟨k, w.1 ++ [k.closing], s, rfl, by simp, ?_, closesOuter_of_closes hcloses⟩
    rcases hst with rfl | rfl
    · exact .close k w
    · exact .after ⟨w, .inl rfl⟩

theorem keeps_comma (k : Kind) (frames : List WalkFrame) (s : Bytes) :
    Keeps ⟨walkKind k, afterValueOf k⟩ frames [ch ','] (⟨walkKind k, afterCommaOf k⟩ :: frames) s where
  fits := ⟨k, rfl, .inl (.inr rfl)⟩
  closes w r hcloses := by
    obtain ⟨k', t, m, hk', rfl, htail, houter⟩ := hcloses
    obtain rfl := walkKind_injective hk'
    obtain ⟨items, rfl⟩ := items_of_tail htail
    exact ⟨k, w.1 ++ ch ',' :: (items.text ++ [k.closing]), m, rfl, by simp, .after ⟨w, .inr ⟨items, rfl⟩⟩, houter⟩

theorem keeps_key {st : WalkState} (hst : Waits .object st) (frames : List WalkFrame) (b : Body) (s : Bytes) :
    Keeps ⟨.object, st⟩ frames (quoted b.1) (⟨.object, .objectAfterKey⟩ :: frames) s where
  fits := ⟨.object, rfl, .inr (.inr (.inr ⟨rfl, rfl⟩))⟩
  closes w r hcloses := by
    obtain ⟨k', t, m, hk', rfl, htail, houter⟩ := hcloses
    obtain rfl : Kind.object = k' := walkKind_injective hk'
    have htail : Tail .object .objectAfterKey t := htail
    cases htail with
    | @key w₁ w₂ v t' hafter =>
      obtain ⟨items, hitems⟩ := items_of_after (.key w b w₁) w₂ v hafter
      refine ⟨.object, items.text ++ [Kind.closing .object], m, rfl, ?_, .items _ hst items, houter⟩
      rw [← hitems]
      simp [Label.text]
    | items _ hwaits => rcases hwaits with h | h <;> cases h

theorem keeps_colon (frames : List WalkFrame) (s : Bytes) :
    Keeps ⟨.object, .objectAfterKey⟩ frames [ch ':'] (⟨.object, .objectAfterColon⟩ :: frames) s where
  fits := ⟨.object, rfl, .inr (.inl rfl)⟩
  closes w r hcloses := by
    obtain ⟨k', t, m, hk', rfl, htail, houter⟩ := hcloses
    obtain rfl : Kind.object = k' := walkKind_injective hk'
    have htail : Tail .object .objectAfterColon t := htail
    cases htail with
    | @colon w' v t' hafter =>
      exact ⟨.object, w.1 ++ ch ':' :: (w'.1 ++ (v.text ++ t')), m, rfl, by simp, .key hafter, houter⟩
    | items _ hwaits => rcases hwaits with h | h <;> cases h

theorem keeps_value {k : Kind} {st : WalkState} (hst : Ready k st) {frames frames' : List WalkFrame} {s s' : Bytes}
    (h : valueIn ⟨walkKind k, st⟩ frames (afterValueOf k) s = some (s', frames')) :
    ∃ taken, s = taken ++ s' ∧ Keeps ⟨walkKind k, st⟩ frames taken frames' s' := by
  obtain ⟨taken, rfl⟩ := valueIn_suffix h
  refine ⟨taken, rfl, topFits_valueIn rfl h, fun w r hcloses => ?_⟩
  obtain ⟨v, t, m, hs, hafter, houter⟩ := valueIn_sound rfl h hcloses
  rw [hs]
  refine ⟨k, w.1 ++ (v.text ++ t), m, rfl, by simp, ?_, houter⟩
  cases k with
  | array =>
    obtain ⟨items, hitems⟩ := items_of_after .element w v hafter
    rw [show w.1 ++ (v.text ++ t) = items.text ++ [Kind.closing .array] from hitems]
    exact .items _ hst items
  | object =>
    rw [show st = .objectAfterColon from hst]
    exact .colon hafter

theorem walkStep_array {st : WalkState} (hfits : Fits .array st) {frames frames' : List WalkFrame} {c : Byte}
    {s s' : Bytes} (h : walkStep ⟨.array, st⟩ frames c s = some (s', frames')) :
    ∃ taken, c :: s = taken ++ s' ∧ Keeps ⟨.array, st⟩ frames taken frames' s' := by
  cases st with
  | arrayStart =>
    simp only [walkStep] at h
    split at h
    · rename_i hc
      obtain ⟨rfl, rfl⟩ := Prod.mk.inj (Option.some.inj h)
      exact ⟨[c], rfl, hc ▸ keeps_close .array (.inl rfl) frames s⟩
    · exact keeps_value (k := .array) (.inl rfl) h
  | arrayAfterComma => exact keeps_value (k := .array) (.inr rfl) h
  | arrayAfterValue =>
    simp only [walkStep] at h
    split at h
    · rename_i hc
      obtain ⟨rfl, rfl⟩ := Prod.mk.inj (Option.some.inj h)
      exact ⟨[c], rfl, hc ▸ keeps_close .array (.inr rfl) frames s⟩
    · split at h
      · rename_i hc
        obtain ⟨rfl, rfl⟩ := Prod.mk.inj (Option.some.inj h)
        exact ⟨[c], rfl, hc ▸ keeps_comma .array frames s⟩
      · cases h
  | objectStart | objectAfterKey | objectAfterColon | objectAfterValue | objectAfterComma =>
    simp [Fits, Waits, Ready, startOf, afterCommaOf, afterValueOf] at hfits

theorem walkStep_object {st : WalkState} (hfits : Fits .object st) {frames frames' : List WalkFrame} {c : Byte}
    {s s' : Bytes} (h : walkStep ⟨.object, st⟩ frames c s = some (s', frames')) :
    ∃ taken, c :: s = taken ++ s' ∧ Keeps ⟨.object, st⟩ frames taken frames' s' := by
  have hkey : Waits .object st →
      (skipString (c :: s)).map (·, (⟨.object, .objectAfterKey⟩ :: frames : List WalkFrame)) = some (s', frames') →
      ∃ taken, c :: s = taken ++ s' ∧ Keeps ⟨.object, st⟩ frames taken frames' s' := by
    intro hwaits hmap
    obtain ⟨s₁, hskip, heq⟩ := Option.map_eq_some_iff.mp hmap
    obtain ⟨rfl, rfl⟩ := Prod.mk.inj heq
    obtain ⟨b, hb⟩ := quoted_of_skipString hskip
    exact ⟨quoted b.1, hb, keeps_key hwaits frames b s₁⟩
  cases st with
  | objectStart =>
    simp only [walkStep] at h
    split at h
    · rename_i hc
      obtain ⟨rfl, rfl⟩ := Prod.mk.inj (Option.some.inj h)
      exact ⟨[c], rfl, hc ▸ keeps_close .object (.inl rfl) frames s⟩
    · exact hkey (.inl rfl) h
  | objectAfterComma => exact hkey (.inr rfl) h
  | objectAfterKey =>
    simp only [walkStep] at h
    split at h
    · rename_i hc
      obtain ⟨rfl, rfl⟩ := Prod.mk.inj (Option.some.inj h)
      exact ⟨[c], rfl, hc ▸ keeps_colon frames s⟩
    · cases h
  | objectAfterColon => exact keeps_value (k := .object) rfl h
  | objectAfterValue =>
    simp only [walkStep] at h
    split at h
    · rename_i hc
      obtain ⟨rfl, rfl⟩ := Prod.mk.inj (Option.some.inj h)
      exact ⟨[c], rfl, hc ▸ keeps_close .object (.inr rfl) frames s⟩
    · split at h
      · rename_i hc
        obtain ⟨rfl, rfl⟩ := Prod.mk.inj (Option.some.inj h)
        exact ⟨[c], rfl, hc ▸ keeps_comma .object frames s⟩
      · cases h
  | arrayStart | arrayAfterValue | arrayAfterComma =>
    simp [Fits, Waits, Ready, startOf, afterCommaOf, afterValueOf] at hfits

theorem walkStep_sound {f : WalkFrame} {frames frames' : List WalkFrame} {c : Byte} {s s' : Bytes}
    (hfits : TopFits (f :: frames)) (h : walkStep f frames c s = some (s', frames')) :
    ∃ taken, c :: s = taken ++ s' ∧ Keeps f frames taken frames' s' := by
  obtain ⟨kind, st⟩ := f
  obtain ⟨k, rfl, hfits⟩ := hfits
  cases k with
  | array => exact walkStep_array hfits h
  | object => exact walkStep_object hfits h

theorem closes_of_walkLoop {n : Nat} {frames : List WalkFrame} {s r : Bytes} (hfits : TopFits frames)
    (h : walkLoop n frames s = some r) : Closes frames s r := by
  induction n generalizing frames s with
  | zero =>
    cases frames with
    | nil => exact Option.some.inj h
    | cons f frames => cases h
  | succ n ih =>
    cases frames with
    | nil => exact Option.some.inj h
    | cons f frames =>
      rw [walkLoop] at h
      split at h
      · cases h
      · rename_i c s₁ hs
        split at h
        · cases h
        · rename_i s₂ frames' hstep
          obtain ⟨taken, htaken, hkeeps⟩ := walkStep_sound hfits hstep
          obtain ⟨w, hw⟩ := exists_ws s
          rw [hw, hs, htaken]
          exact hkeeps.closes w r (ih hkeeps.fits h)

/-- What `skip_value` takes is a value. -/
theorem value_of_skipValue {s r : Bytes} (h : skipValue s = some r) : ∃ v : Value, skipWs s = v.text ++ r := by
  unfold skipValue at h
  split at h
  · cases h
  · rename_i hopen
    obtain rfl := Option.some.inj h
    rcases openOrScalar_sound hopen with ⟨-, v, -, hv⟩ | ⟨_, hnone, -⟩
    · exact ⟨v, hv⟩
    · cases hnone
  · rename_i s₁ opened hopen
    rcases openOrScalar_sound hopen with ⟨hsome, -⟩ | ⟨k, hopened, hs⟩
    · cases hsome
    · obtain rfl := Option.some.inj hopened
      have hfits : TopFits [⟨walkKind k, startOf k⟩] := ⟨k, rfl, .inl (.inl rfl)⟩
      obtain ⟨k', t, m, hk, rfl, htail, hm⟩ := closes_of_walkLoop hfits h
      obtain rfl := walkKind_injective hk
      obtain rfl : m = r := hm
      obtain ⟨v, hv⟩ := value_of_tail htail
      exact ⟨v, by rw [hs, ← hv, List.cons_append]⟩

/-! ## `valid` -/

theorem valid_iff_reading (doc : Bytes) : valid doc = true ↔ Nonempty (Rfc8259.Reading doc) := by
  constructor
  · intro h
    unfold valid at h
    split at h
    · cases h
    · rename_i c s hs
      split at h
      · cases h
      · rename_i stop hstop
        obtain ⟨v, hv⟩ := value_of_skipValue hstop
        obtain ⟨w, hw⟩ := exists_ws doc
        obtain ⟨w', hw'⟩ := exists_ws stop
        rw [← hs, skipWs_skipWs] at hv
        rw [List.isEmpty_iff.mp h, List.append_nil] at hw'
        exact ⟨⟨w, v, w', by rw [hw, hv, hw', List.append_assoc]⟩⟩
  · rintro ⟨w, v, w', rfl⟩
    obtain ⟨c, s, hv, hws, -⟩ := head_text v
    have hend : EndsNumber (w'.1 ++ []) := endsNumber_ws (by simp [EndsNumber])
    rw [List.append_nil] at hend
    have hskip := skipValue_text v hend
    have hfirst : skipWs (w.1 ++ v.text ++ w'.1) = c :: (s ++ w'.1) := by
      rw [List.append_assoc, skipWs_ws, hv, List.cons_append]
      exact skipWs_of_head (by simpa using hws)
    have hlast : skipWs w'.1 = [] := by
      have := skipWs_ws w' []
      rwa [List.append_nil] at this
    rw [hv, List.cons_append] at hskip
    unfold valid
    rw [hfirst]
    simp only [hskip, hlast]
    rfl

theorem drop_skipWsAt (doc : Bytes) (pos : Nat) : doc.drop (skipWsAt doc pos) = skipWs (doc.drop pos) := by
  rw [skipWsAt, ← List.drop_drop]
  generalize doc.drop pos = s
  calc s.drop (s.takeWhile isWs).length
      = (s.takeWhile isWs ++ s.dropWhile isWs).drop (s.takeWhile isWs).length := by
        rw [List.takeWhile_append_dropWhile]
    _ = s.dropWhile isWs := List.drop_left

/-- `valid` accepts the grammar, and `skip_value` gets over one value of it. -/
theorem valid_grammar (doc : Bytes) :
    (valid doc = true ↔ Nonempty (Rfc8259.Reading doc)) ∧
    ∀ pos,
      (∀ e, skipValueAt doc pos = some e → skipWsAt doc pos ≤ e ∧ e ≤ doc.length ∧
        ∃ v : Value, slice doc (skipWsAt doc pos) e = v.text) ∧
      ∀ (v : Value) e, e ≤ doc.length → slice doc (skipWsAt doc pos) e = v.text → Stops (doc.drop e) →
        skipValueAt doc pos = some e := by
  refine ⟨valid_iff_reading doc, fun pos => ⟨?_, ?_⟩⟩
  · intro e he
    obtain ⟨stop, hstop, rfl⟩ := Option.map_eq_some_iff.mp he
    obtain ⟨v, hv⟩ := value_of_skipValue hstop
    obtain ⟨c, s, hc, -⟩ := head_text v
    rw [← drop_skipWsAt] at hv
    have hlen := congrArg List.length hv
    simp only [List.length_drop, List.length_append, hc, List.length_cons] at hlen
    refine ⟨by omega, Nat.sub_le _ _, v, ?_⟩
    rw [slice, hv, show doc.length - stop.length - skipWsAt doc pos = v.text.length by
      rw [hc, List.length_cons]
      omega]
    exact List.take_left
  · intro v e he hslice hstops
    obtain ⟨c, s, hc, hws, -⟩ := head_text v
    have hlt : skipWsAt doc pos < e := by
      have := congrArg List.length hslice
      simp only [slice, List.length_take, hc, List.length_cons] at this
      omega
    have hdrop : skipWs (doc.drop pos) = v.text ++ doc.drop e := by
      rw [← drop_skipWsAt, ← hslice, slice]
      conv_lhs => rw [← List.take_append_drop (e - skipWsAt doc pos) (doc.drop (skipWsAt doc pos))]
      rw [List.drop_drop, show skipWsAt doc pos + (e - skipWsAt doc pos) = e by omega]
    have hskip := skipValue_text v (Stops.endsNumber hstops)
    rw [← hdrop, skipValue_skipWs] at hskip
    rw [skipValueAt, hskip, Option.map_some, List.length_drop]
    congr 1
    omega

end LlmGuard.Json
