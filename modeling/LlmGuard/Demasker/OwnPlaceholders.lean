import LlmGuard.Demasker.Recogniser
import LlmGuard.Lib.Fields

/-!
# A rule reads its own placeholders

A name is split at its underscores, and the recogniser has up to three separators behind each token and none in
front of the first. So a literal is read back, whatever its case and its separators, when the name has no
underscore in front and the literal no four of them in a row. Other names are minted and not read.
-/

namespace LlmGuard

open Tokens Fence

/-- A byte of a literal and what stands for it: another case of it, or another separator. -/
def Drifts (b c : Byte) : Prop := asciiToLower c = asciiToLower b ∨ b = ch '_' ∧ (c = ch '-' ∨ c = ch ' ')

/-- A name over `[A-Za-z0-9_]` with a letter or a digit. -/
def IsName (name : Bytes) : Prop := (∀ b ∈ name, isWordByte b = true) ∧ ∃ b ∈ name, b ≠ ch '_'

/-- A digit or a bracket. They stand for themselves only. -/
def IsFixed (b : Byte) : Prop := isDigit b = true ∨ IsBracket b

/-- The recogniser has room for each run of underscores in the literal. -/
def FitsDrift (name : Bytes) : Prop :=
  name.head? ≠ some (ch '_') ∧ ¬ List.replicate 4 (ch '_') <:+: name ++ [ch '_']

/-! ## Bytes -/

set_option maxRecDepth 8192 in
theorem isWordByte_not {b : Byte} (hb : isWordByte b = true) :
    ¬ IsBracket b ∧ isSpace b = false ∧ (b ≠ ch '_' → isSepByte b = false) := by
  unfold IsBracket
  revert b
  decide

set_option maxRecDepth 8192 in
theorem isDigit_not {b : Byte} (hb : isDigit b = true) : b < 0x80 ∧ isSepByte b = false ∧ isBlankByte b = false := by
  revert b
  decide

set_option maxRecDepth 8192 in
theorem isSepByte_lower (b : Byte) : isSepByte (asciiToLower b) = isSepByte b := by
  revert b
  decide

set_option maxRecDepth 8192 in
theorem IsFixed.eq_of_lower {b c : Byte} (hb : IsFixed b) (h : asciiToLower c = asciiToLower b) : c = b := by
  have hall : ∀ b : Byte, (isDigit b = true ∨ b = ch '<' ∨ b = ch '>' → asciiToLower b = b) ∧
      (isDigit (asciiToLower b) = true ∨ asciiToLower b = ch '<' ∨ asciiToLower b = ch '>' → asciiToLower b = b) := by
    decide
  rw [(hall b).1 hb] at h
  rw [← (hall c).2 (h ▸ hb), h]

set_option maxRecDepth 8192 in
theorem word_ascii {b c : Byte} (hb : isWordByte b = true) (hc : asciiToLower c = asciiToLower b) : c < 0x80 := by
  have hall : ∀ b : Byte, (isWordByte b = true → asciiToLower b < 0x80) ∧ (asciiToLower b < 0x80 → b < 0x80) := by
    decide
  exact (hall c).2 (hc ▸ (hall b).1 hb)

/-! ## The fields of a name -/

theorem splitFields_snoc (current s : Bytes) : splitFields current (s ++ [ch '_']) = splitFields current s := by
  induction s generalizing current with
  | nil =>
    unfold splitFields
    rfl
  | cons c s ih =>
    rw [List.cons_append, splitFields, splitFields, ih, ih]

theorem splitFields_field {field : Bytes} (hfree : ch '_' ∉ field) (current s : Bytes) :
    splitFields current (field ++ s) = splitFields (current ++ field) s := by
  induction field generalizing current with
  | nil => rw [List.nil_append, List.append_nil]
  | cons c field ih =>
    have hc : c ≠ ch '_' := fun h => hfree (h ▸ List.mem_cons_self)
    rw [List.cons_append, splitFields, if_neg hc, ih fun h => hfree (List.mem_cons_of_mem c h), List.append_assoc,
      List.singleton_append]

theorem splitFields_run (k : Nat) (s : Bytes) : splitFields [] (List.replicate k (ch '_') ++ s) = splitFields [] s := by
  induction k with
  | zero => rfl
  | succ k ih => rwa [List.replicate_succ, List.cons_append, splitFields, if_pos rfl, if_pos (by rfl)]

theorem splitFields_render {fs : List (Bytes × Nat)} (hfs : ∀ f ∈ fs, Fields.IsField (ch '_') f) :
    splitFields [] (Fields.render (ch '_') fs) = fs.map (·.1) := by
  induction fs with
  | nil => rfl
  | cons f fs ih =>
    obtain ⟨hne, hfree, hpos⟩ := hfs f List.mem_cons_self
    obtain ⟨k, hk⟩ := Nat.exists_eq_add_of_le' hpos
    rw [Fields.render_cons, splitFields_field hfree, List.nil_append, hk, List.replicate_succ, List.cons_append,
      splitFields, if_pos rfl, if_neg (by simpa using hne), splitFields_run,
      ih fun g hg => hfs g (List.mem_cons_of_mem f hg), List.map_cons]

/-- A field of letters and digits. -/
structure IsToken (f : Bytes × Nat) : Prop extends Fields.IsField (ch '_') f where
  word : ∀ b ∈ f.1, isWordByte b = true

theorem exists_fields_of_name {name : Bytes} (hname : IsName name) :
    ∃ k fs, (∀ f ∈ fs, IsToken f) ∧ name ++ [ch '_'] = List.replicate k (ch '_') ++ Fields.render (ch '_') fs ∧
      splitOnUnderscore name = fs.map (·.1) := by
  obtain ⟨hword, b, hb, hbar⟩ := hname
  obtain ⟨k, rest, hrun, hbehind⟩ := Fields.exists_run (u := ch '_') (name ++ [ch '_'])
  have hlast : ∀ a ∈ rest.getLast?, a = ch '_' := by
    intro a ha
    have hlast : (name ++ [ch '_']).getLast? = some a := by
      rw [hrun, List.getLast?_append, Option.mem_def.mp ha]
      rfl
    rw [List.getLast?_concat] at hlast
    exact (Option.some.inj hlast).symm
  obtain ⟨fs, hfs, rfl⟩ := Fields.exists_fields hbehind hlast
  have htokens : splitFields [] name = fs.map (·.1) := by
    rw [← splitFields_snoc, hrun, splitFields_run, splitFields_render hfs]
  refine ⟨k, fs, fun f hf => ⟨hfs f hf, ?_⟩, hrun, ?_⟩
  · intro c hc
    have htoken : f.1 ∈ splitFields [] name := htokens ▸ List.mem_map_of_mem hf
    exact hword c (by simpa using mem_splitFields htoken hc)
  · unfold splitOnUnderscore
    rw [htokens, if_neg]
    intro hempty
    rw [List.isEmpty_iff, List.map_eq_nil_iff] at hempty
    rw [hempty, Fields.render, List.append_nil] at hrun
    have hmem : b ∈ List.replicate k (ch '_') := hrun ▸ List.mem_append_left _ hb
    exact hbar (List.eq_of_mem_replicate hmem)

theorem fitsDrift_iff {name : Bytes} (hname : IsName name) {k : Nat} {fs : List (Bytes × Nat)}
    (hfs : ∀ f ∈ fs, IsToken f) (h : name ++ [ch '_'] = List.replicate k (ch '_') ++ Fields.render (ch '_') fs) :
    FitsDrift name ↔ k = 0 ∧ ∀ f ∈ fs, f.2 ≤ 3 := by
  have hfields : ∀ f ∈ fs, Fields.IsField (ch '_') f := fun f hf => (hfs f hf).toIsField
  obtain ⟨-, b, hb, -⟩ := hname
  have hhead : name.head? = (List.replicate k (ch '_') ++ Fields.render (ch '_') fs).head? := by
    rw [← h, List.head?_append_of_ne_nil name (List.ne_nil_of_mem hb)]
  unfold FitsDrift
  rw [hhead, h]
  cases k with
  | zero =>
    rw [List.replicate_zero, List.nil_append, Fields.runs_le_iff hfields]
    simp [Fields.head?_render hfields]
  | succ k => simp [List.replicate_succ]

/-! ## Bytes under drift -/

/-- Text that begins with no separator. -/
def StartsText (s : Bytes) : Prop := ∃ b t, s = b :: t ∧ isSepByte b = false

theorem StartsText.append {s : Bytes} (h : StartsText s) (t : Bytes) : StartsText (s ++ t) := by
  obtain ⟨b, s, rfl, hb⟩ := h
  exact ⟨b, s ++ t, rfl, hb⟩

theorem Drifts.eq_of_fixed {b c : Byte} (h : Drifts b c) (hb : IsFixed b) : c = b := by
  rcases h with h | ⟨rfl, -⟩
  · exact hb.eq_of_lower h
  · exact absurd hb (by unfold IsFixed IsBracket; decide)

theorem drifts_self (b : Byte) : Drifts b b := .inl rfl

theorem drift_field {token v : Bytes} (hfree : ch '_' ∉ token) (h : List.Forall₂ Drifts token v) :
    asciiFold token v := by
  unfold asciiFold
  induction h with
  | nil => rfl
  | @cons b c token v hbc _ ih =>
    rw [List.mem_cons, not_or] at hfree
    rcases hbc with hbc | ⟨rfl, -⟩
    · rw [List.map_cons, List.map_cons, hbc, ih hfree.2]
    · exact absurd rfl hfree.1

theorem drift_run {k : Nat} {v : Bytes} (h : List.Forall₂ Drifts (List.replicate k (ch '_')) v) :
    v.length = k ∧ v.all isSepByte = true := by
  refine ⟨by rw [← h.length_eq, List.length_replicate], ?_⟩
  rw [List.all_eq_true]
  intro c hc
  obtain ⟨b, hb, hbc⟩ := exists_of_mem_right h hc
  obtain rfl := List.eq_of_mem_replicate hb
  rcases hbc with hbc | ⟨-, rfl | rfl⟩
  · rw [← isSepByte_lower, hbc]
    rfl
  · rfl
  · rfl

theorem drift_fixed {s w : Bytes} (hs : ∀ b ∈ s, IsFixed b) (h : List.Forall₂ Drifts s w) :
    w = s := by
  induction h with
  | nil => rfl
  | cons hbc _ ih =>
    rw [hbc.eq_of_fixed (hs _ List.mem_cons_self), ih fun d hd => hs d (List.mem_cons_of_mem _ hd)]

/-! ## Reading a drifted literal -/

theorem separators_unique {sep sep' x y : Bytes} (hsep : sep.all isSepByte = true) (hsep' : sep'.all isSepByte = true)
    (hx : StartsText x) (hy : StartsText y) (h : sep ++ x = sep' ++ y) : sep = sep' ∧ x = y := by
  have hfront : ∀ {sep x : Bytes}, sep.all isSepByte = true → StartsText x → (sep ++ x).takeWhile isSepByte = sep := by
    rintro sep _ hsep ⟨b, t, rfl, hb⟩
    rw [List.takeWhile_append_of_pos (List.all_eq_true.mp hsep), List.takeWhile_cons_of_neg (by rw [hb]; decide),
      List.append_nil]
  have heq := congrArg (List.takeWhile isSepByte) h
  rw [hfront hsep hx, hfront hsep' hy] at heq
  subst heq
  exact ⟨rfl, List.append_cancel_left h⟩

theorem IsToken.startsText {f : Bytes × Nat} (hf : IsToken f) {w : Bytes} (h : asciiFold f.1 w) : StartsText w := by
  obtain ⟨⟨hne, hfree, -⟩, hword⟩ := hf
  cases hf₁ : f.1 with
  | nil => exact absurd hf₁ hne
  | cons b token =>
    rw [hf₁] at h hfree hword
    unfold asciiFold at h
    cases w with
    | nil => cases h
    | cons c w =>
      refine ⟨c, w, rfl, ?_⟩
      rw [← isSepByte_lower, ← (List.cons.inj h).1, isSepByte_lower]
      exact (isWordByte_not (hword b List.mem_cons_self)).2.2 fun hb => hfree (hb ▸ List.mem_cons_self)

section Fields

variable {fs : List (Bytes × Nat)} {words v x y : Bytes}

theorem startsText_words (hfs : ∀ f ∈ fs, IsToken f) (h : TokenWords asciiFold (fs.map (·.1)) words)
    (hx : StartsText x) : StartsText (words ++ x) := by
  cases fs with
  | nil =>
    cases h
    exact hx
  | cons f fs =>
    cases h with
    | cons htoken _ _ =>
      rw [List.append_assoc]
      exact ((hfs f List.mem_cons_self).startsText htoken).append _

theorem startsText_drift (hfs : ∀ f ∈ fs, IsToken f) (h : List.Forall₂ Drifts (Fields.render (ch '_') fs) v)
    (hy : StartsText y) : StartsText (v ++ y) := by
  cases fs with
  | nil =>
    cases h
    exact hy
  | cons f fs =>
    rw [Fields.render_cons] at h
    obtain ⟨word, rest, rfl, hword, -⟩ := forall₂_append_left h
    rw [List.append_assoc]
    have hf := hfs f List.mem_cons_self
    exact (hf.startsText (drift_field hf.free hword)).append _

theorem tokenWords_of_drift (hfs : ∀ f ∈ fs, IsToken f) (hrun : ∀ f ∈ fs, f.2 ≤ 3)
    (h : List.Forall₂ Drifts (Fields.render (ch '_') fs) v) : TokenWords asciiFold (fs.map (·.1)) v := by
  induction fs generalizing v with
  | nil =>
    cases h
    exact .nil
  | cons f fs ih =>
    rw [Fields.render_cons] at h
    obtain ⟨word, rest, rfl, hword, hrest⟩ := forall₂_append_left h
    obtain ⟨sep, v, rfl, hsep, hv⟩ := forall₂_append_left hrest
    obtain ⟨hlen, hall⟩ := drift_run hsep
    refine .cons (drift_field (hfs f List.mem_cons_self).free hword) ⟨?_, hall⟩ ?_
    · rw [hlen]
      exact hrun f List.mem_cons_self
    · exact ih (fun g hg => hfs g (List.mem_cons_of_mem f hg)) (fun g hg => hrun g (List.mem_cons_of_mem f hg)) hv

/-- The tokens are read where they stand, so no run is too long. -/
theorem tokenWords_align (hfs : ∀ f ∈ fs, IsToken f) (hwords : TokenWords asciiFold (fs.map (·.1)) words)
    (hv : List.Forall₂ Drifts (Fields.render (ch '_') fs) v) (hx : StartsText x) (hy : StartsText y)
    (h : words ++ x = v ++ y) : words = v ∧ ∀ f ∈ fs, f.2 ≤ 3 := by
  induction fs generalizing words v with
  | nil =>
    cases hwords
    cases hv
    exact ⟨rfl, by simp⟩
  | cons f fs ih =>
    have hfs' : ∀ f ∈ fs, IsToken f := fun g hg => hfs g (List.mem_cons_of_mem f hg)
    rw [Fields.render_cons] at hv
    obtain ⟨word', rest', rfl, hword', hrest'⟩ := forall₂_append_left hv
    obtain ⟨sep', v', rfl, hsep', hv'⟩ := forall₂_append_left hrest'
    obtain ⟨hlen', hall'⟩ := drift_run hsep'
    cases hwords with
    | @cons _ word sep words _ htoken hsep hwords =>
      have hlen : word.length = word'.length := by
        have := congrArg List.length htoken
        rw [List.length_map, List.length_map] at this
        rw [← this, hword'.length_eq]
      simp only [List.append_assoc] at h
      obtain ⟨rfl, hbehind⟩ := List.append_inj h hlen
      obtain ⟨rfl, hnext⟩ := separators_unique hsep.2 hall' (startsText_words hfs' hwords hx)
        (startsText_drift hfs' hv' hy) hbehind
      obtain ⟨rfl, hrun⟩ := ih hfs' hwords hv' hnext
      refine ⟨rfl, fun g hg => ?_⟩
      rcases List.mem_cons.mp hg with rfl | hg
      · rw [← hlen']
        exact hsep.1
      · exact hrun g hg

end Fields

/-! ## The index -/

theorem startsText_digits {digits : Bytes} (hne : digits ≠ []) (hdigits : ∀ b ∈ digits, isDigit b = true) :
    StartsText digits := by
  obtain ⟨b, digits, rfl⟩ := List.exists_cons_of_ne_nil hne
  exact ⟨b, digits, rfl, (isDigit_not (hdigits b List.mem_cons_self)).2.1⟩

theorem decimal_length {n : Nat} (hn : n ≤ 999999999) : (decimal n).length ≤ 9 := by
  rw [decimal, List.length_map]
  exact (Nat.length_toDigits_le_iff (by omega) (by omega)).mpr (by omega)

theorem parsePlaceholderIndex_decimal {n : Nat} (hpos : 1 ≤ n) (hn : n ≤ 999999999) :
    parsePlaceholderIndex (decimal n) = some n := by
  unfold parsePlaceholderIndex
  rw [if_neg, if_neg, digitsVal_decimal, if_neg (by omega)]
  · simpa using decimal_digits n
  · simpa [decimal_ne_nil n] using decimal_length hn

theorem digits_unique {digits more rest : Bytes} (hdigits : ∀ b ∈ digits, isDigit b = true)
    (hmore : ∀ b ∈ more, isDigit b = true) {after : Bytes} (hafter : after.all isBlankByte = true)
    (h : digits ++ (after ++ [ch '>']) = more ++ ch '>' :: rest) : digits = more := by
  have hfront : ∀ {s t : Bytes} {b : Byte}, (∀ b ∈ s, isDigit b = true) → isDigit b = false →
      (s ++ b :: t).takeWhile isDigit = s := by
    intro s t b hs hb
    rw [List.takeWhile_append_of_pos hs, List.takeWhile_cons_of_neg (by rw [hb]; decide), List.append_nil]
  have heq := congrArg (List.takeWhile isDigit) h
  rw [hfront hmore (by decide)] at heq
  rw [← heq]
  cases after with
  | nil => exact (hfront hdigits (by decide)).symm
  | cons b after =>
    rw [List.all_cons, Bool.and_eq_true] at hafter
    refine (hfront hdigits (Bool.eq_false_iff.mpr fun hb => ?_)).symm
    rw [(isDigit_not hb).2.2] at hafter
    cases hafter.1

/-! ## The literal as a word of the recogniser -/

theorem drift_render {name w : Bytes} {n : Nat} (h : List.Forall₂ Drifts (renderPlaceholder name n) w) :
    ∃ v, w = ch '<' :: (v ++ (decimal n ++ [ch '>'])) ∧ List.Forall₂ Drifts (name ++ [ch '_']) v := by
  unfold renderPlaceholder at h
  obtain ⟨w, close, rfl, h, hclose⟩ := forall₂_append_left h
  obtain ⟨w, index, rfl, h, hindex⟩ := forall₂_append_left h
  rw [List.append_assoc] at h
  obtain ⟨open', v, rfl, hopen, hv⟩ := forall₂_append_left h
  have hfixed : IsFixed (ch '<') ∧ IsFixed (ch '>') := ⟨.inr (.inl rfl), .inr (.inr rfl)⟩
  obtain rfl := drift_fixed (s := ascii "<") (by simpa [ascii] using hfixed.1) hopen
  obtain rfl := drift_fixed (s := ascii ">") (by simpa [ascii] using hfixed.2) hclose
  obtain rfl := drift_fixed (fun b hb => .inl (decimal_digits n b hb)) hindex
  exact ⟨v, by simp [ascii], hv⟩

section Word

variable {name v digits : Bytes} {fs : List (Bytes × Nat)} {n : Nat}

theorem templateWord_of_drift (hfs : ∀ f ∈ fs, IsToken f) (hsplit : splitOnUnderscore name = fs.map (·.1))
    (hrun : ∀ f ∈ fs, f.2 ≤ 3) (hn : n ≤ 999999999) (hv : List.Forall₂ Drifts (Fields.render (ch '_') fs) v) :
    TemplateWord asciiFold name (ch '<' :: (v ++ (decimal n ++ [ch '>']))) (decimal n) := by
  have hdigits : AtMost 9 isDigit (decimal n) := ⟨decimal_length hn, List.all_eq_true.mpr (decimal_digits n)⟩
  have hwords : TokenWords asciiFold (splitOnUnderscore name) v := by
    rw [hsplit]
    exact tokenWords_of_drift hfs hrun hv
  have hnone : AtMost 3 isBlankByte [] := ⟨by simp, rfl⟩
  exact .intro hnone hwords (decimal_ne_nil n) hdigits hnone

/-- A recogniser that matches the whole literal reads its parts where they stand. -/
theorem templateWord_align (hfs : ∀ f ∈ fs, IsToken f) (hsplit : splitOnUnderscore name = fs.map (·.1)) {front : Bytes}
    (hfront : front.all isSepByte = true) (hv : List.Forall₂ Drifts (Fields.render (ch '_') fs) v)
    (h : TemplateWord asciiFold name (ch '<' :: (front ++ v ++ (decimal n ++ [ch '>']))) digits) :
    front.all isBlankByte = true ∧ digits = decimal n ∧ ∀ f ∈ fs, f.2 ≤ 3 := by
  generalize hw : ch '<' :: (front ++ v ++ (decimal n ++ [ch '>'])) = w at h
  cases h with
  | @intro before words digits after hbefore hwords hne hdigits hafter =>
    have hblank : ∀ b : Byte, isBlankByte b = true → isSepByte b = true := fun b hb => by rw [isSepByte, hb]; rfl
    have hbefore' : before.all isSepByte = true :=
      List.all_eq_true.mpr fun b hb => hblank b (List.all_eq_true.mp hbefore.2 b hb)
    have hindex : StartsText (decimal n ++ [ch '>']) :=
      (startsText_digits (decimal_ne_nil n) (decimal_digits n)).append _
    have hdigits' : ∀ b ∈ digits, isDigit b = true := List.all_eq_true.mp hdigits.2
    have hnext : StartsText (digits ++ (after ++ [ch '>'])) := (startsText_digits hne hdigits').append _
    rw [hsplit] at hwords
    have htail := (List.cons.inj hw).2
    rw [List.append_assoc] at htail
    obtain ⟨rfl, hbehind⟩ := separators_unique hfront hbefore' (startsText_drift hfs hv hindex)
      (startsText_words hfs hwords hnext) htail
    obtain ⟨rfl, hrun⟩ := tokenWords_align hfs hwords hv hnext hindex hbehind.symm
    refine ⟨hbefore.2, ?_, hrun⟩
    exact digits_unique hdigits' (decimal_digits n) hafter.2 (List.append_cancel_left hbehind).symm

end Word

/-! ## The recogniser of the rule -/

theorem UnicodeFold.ascii {token w : Bytes} (h : UnicodeFold token w) (hw : ∀ b ∈ w, b < 0x80) : asciiFold token w := by
  unfold asciiFold
  induction h with
  | nil => rfl
  | @cons c w token words hc _ ih =>
    rw [List.forall_mem_append] at hw
    rcases hc with ⟨d, rfl, hd⟩ | ⟨-, rfl⟩ | ⟨-, rfl⟩
    · rw [List.singleton_append, List.map_cons, List.map_cons, hd, ih hw.2]
    · exact absurd (hw.1 0xC5 (by simp)) (by decide)
    · exact absurd (hw.1 0xE2 (by simp)) (by decide)

section Fold

variable {fold fold' : Bytes → Bytes → Prop} {name w digits : Bytes} {tokens : List Bytes}

theorem TokenWords.imp (h : TokenWords fold tokens w)
    (himp : ∀ token ∈ tokens, ∀ v, v <:+: w → fold token v → fold' token v) : TokenWords fold' tokens w := by
  induction h with
  | nil => exact .nil
  | @cons token word sep rest tokens htoken hsep _ ih =>
    refine .cons (himp token List.mem_cons_self word (List.prefix_append _ _).isInfix htoken) hsep (ih ?_)
    intro t ht v hv
    refine himp t (List.mem_cons_of_mem token ht) v (hv.trans ?_)
    rw [← List.append_assoc]
    exact (List.suffix_append _ _).isInfix

theorem TemplateWord.imp (h : TemplateWord fold name w digits)
    (himp : ∀ token ∈ splitOnUnderscore name, ∀ v, v <:+: w → fold token v → fold' token v) :
    TemplateWord fold' name w digits := by
  cases h with
  | @intro before words digits after hbefore hwords hne hdigits hafter =>
    refine .intro hbefore (hwords.imp fun token ht v hv => himp token ht v (hv.trans ?_)) hne hdigits hafter
    rw [← List.cons_append, ← List.append_assoc]
    exact List.infix_append _ _ _

end Fold

theorem IsName.bracketless {name : Bytes} (h : IsName name) : Bracketless name :=
  fun b hb => (isWordByte_not (h.1 b hb)).1

theorem IsName.ascii {name : Bytes} (h : IsName name) : ∀ c ∈ name, c < 0x80 := fun c hc => word_ascii (h.1 c hc) rfl

theorem IsName.trim {name : Bytes} (h : IsName name) : asciiTrim name = name := by
  have hkeep : ∀ s : Bytes, (∀ b ∈ s, isSpace b = false) → s.dropWhile isSpace = s := by
    intro s hs
    cases s with
    | nil => rfl
    | cons b s => rw [List.dropWhile_cons_of_neg (by rw [hs b List.mem_cons_self]; decide)]
  have hspace : ∀ b ∈ name, isSpace b = false := fun b hb => (isWordByte_not (h.1 b hb)).2.1
  unfold asciiTrim
  rw [hkeep name hspace, hkeep name.reverse fun b hb => hspace b (List.mem_reverse.mp hb), List.reverse_reverse]

theorem IsName.not_blank {name : Bytes} (h : IsName name) : isBlankPlaceholder name = false := by
  obtain ⟨hword, b, hb, -⟩ := h
  unfold isBlankPlaceholder
  rw [List.all_eq_false]
  exact ⟨b, hb, by rw [(isWordByte_not (hword b hb)).2.1]; decide⟩

theorem ascii_of_drift {name v : Bytes} (hword : ∀ b ∈ name, isWordByte b = true) (h : List.Forall₂ Drifts name v) :
    ∀ c ∈ v, c < 0x80 := by
  intro c hc
  obtain ⟨b, hb, hbc⟩ := exists_of_mem_right h hc
  rcases hbc with hbc | ⟨-, rfl | rfl⟩
  · exact word_ascii (hword b hb) hbc
  · decide
  · decide

theorem compiled_recogniser {env : Env} {r : Rule} {cr : CompiledRule} (h : compileRule env r = .ok cr)
    (hne : asciiTrim r.masking.placeholder ≠ []) : cr.placeholderRe = some (recogniser env.re2 r) := by
  cases hre : cr.placeholderRe with
  | some re => rw [placeholderRe_of_compiled h hre]
  | none =>
    obtain ⟨-, -, -, hplaceholder, -⟩ := compileRule_ok h
    unfold compilePlaceholder at hplaceholder
    rw [if_neg (by simpa using hne), hre] at hplaceholder
    split at hplaceholder
    · cases hplaceholder
    · simp only at hplaceholder
      split at hplaceholder
      · cases hplaceholder
      · split at hplaceholder
        · cases hplaceholder
        · exact nomatch Except.ok.inj hplaceholder

section OneRule

variable {env : Env} {r : Rule} {cr : CompiledRule} {spell : Spelling} {n : Nat} {w : Bytes}

theorem search_whole {re : Regex} {f : Bytes → Option Bytes} (hfinds : Finds env.re2 re f)
    (hwords : ∀ w, (f w).isSome → IsPlaceholder w) (hw : (f w).isSome) :
    ∃ g, env.re2.search re w 0 = some g ∧ g.whole = (0, w.length) := by
  obtain ⟨hfound, hleftmost, hnothing⟩ := hfinds
  have hwhole : f (slice w 0 w.length) ≠ none := by
    rw [Splice.slice_zero_length]
    exact Option.isSome_iff_ne_none.mp hw
  cases hsearch : env.re2.search re w 0 with
  | none => exact absurd (hnothing w 0 hsearch 0 w.length (Nat.le_refl 0) (Nat.zero_le _) (Nat.le_refl _)) hwhole
  | some g =>
    obtain ⟨-, -, hend, span, -, hsome⟩ := hfound w 0 g hsearch
    have hstart : g.whole.1 = 0 := by
      by_contra hstart
      exact hwhole (hleftmost w 0 g hsearch 0 w.length (Nat.le_refl 0) (by omega) (Nat.zero_le _) (Nat.le_refl _))
    -- a shorter word would be a fence at the front of this fence
    have hfront : slice w g.whole.1 g.whole.2 = w := by
      refine IsFence.eq_of_prefix (s := w) (hwords _ (by rw [hsome]; rfl)) (hwords w hw) ?_ (List.prefix_refl w)
      rw [hstart, slice]
      exact List.take_prefix _ _
    have hlen := congrArg List.length hfront
    rw [Splice.slice_length w _ _ hend, hstart, Nat.sub_zero] at hlen
    exact ⟨g, rfl, Prod.ext hstart hlen⟩

theorem scanRule_whole (hfinds : ∀ re, cr.placeholderRe = some re → Finds env.re2 re (spell re))
    (hwords : ∀ w, (ruleSpelling spell cr w).isSome → IsPlaceholder w) {p : Bytes}
    (hread : readPlaceholder spell w cr = some p) : scanRule env w cr = [⟨cr.rule.id, 0, w.length, p⟩] := by
  have hw : (ruleSpelling spell cr w).isSome := by
    unfold readPlaceholder at hread
    cases hspell : ruleSpelling spell cr w with
    | none =>
      rw [hspell] at hread
      cases hread
    | some digits => rfl
  have hfaithful : Faithful (fun w => (ruleSpelling spell cr w).isSome) [.tok w] := by
    refine faithful_of_greedy angle_ne hwords ?_ ?_
    · intro v hv
      obtain rfl : v = w := by simpa using hv
      exact hw
    · rintro xs a ys heq
      cases xs with
      | nil => cases heq
      | cons x xs => simp at heq
  have hscan := scanRule_render hfinds (fun _ h => h) [.tok w] hfaithful
  rw [show render [.tok w] = w by simp] at hscan
  rw [hscan, marks, marks, List.filterMap_cons, ruleMatch, hread]
  simp

theorem ruleSpelling_of_compiled (hcompile : compileRule env r = .ok cr) (hname : IsName r.masking.placeholder) (w : Bytes) :
    ruleSpelling spell cr w = spell (recogniser env.re2 r) w := by
  have hne : asciiTrim r.masking.placeholder ≠ [] := by
    obtain ⟨-, b, hb, -⟩ := id hname
    rw [hname.trim]
    exact List.ne_nil_of_mem hb
  unfold ruleSpelling
  rw [compiled_recogniser hcompile hne, (compileRule_ok hcompile).1]
  exact if_neg (by rw [hname.not_blank]; decide)

theorem recognised_fence (hreads : ReadsTemplates env.re2 UnicodeFold spell [r]) (hname : IsName r.masking.placeholder)
    (hw : (spell (recogniser env.re2 r) w).isSome) : IsPlaceholder w := by
  obtain ⟨digits, hdigits⟩ := Option.isSome_iff_exists.mp hw
  apply (hreads.sound r (List.mem_singleton_self r) w digits hdigits).isPlaceholder hreads.folds
  rw [hname.trim]
  exact hname.bracketless

theorem spelled_ascii (hreads : ReadsTemplates env.re2 UnicodeFold spell [r]) (hname : IsName r.masking.placeholder)
    (hw : ∀ b ∈ w, b < 0x80) {digits : Bytes} (h : spell (recogniser env.re2 r) w = some digits) :
    TemplateWord asciiFold r.masking.placeholder w digits := by
  have hword := hreads.sound r (List.mem_singleton_self r) w digits h
  rw [hname.trim] at hword
  exact hword.imp fun token _ v hv hfold => hfold.ascii fun b hb => hw b (hv.mem hb)

theorem ascii_of_render (hname : IsName r.masking.placeholder) {v : Bytes}
    (hv : List.Forall₂ Drifts (r.masking.placeholder ++ [ch '_']) v) :
    ∀ b ∈ ch '<' :: (v ++ (decimal n ++ [ch '>'])), b < 0x80 := by
  have hword : ∀ b ∈ r.masking.placeholder ++ [ch '_'], isWordByte b = true := by
    rw [List.forall_mem_append, List.forall_mem_singleton]
    exact ⟨hname.1, rfl⟩
  have hclose : ∀ b ∈ [ch '>'], b < 0x80 := List.forall_mem_singleton.mpr (by decide)
  rw [List.forall_mem_cons, List.forall_mem_append, List.forall_mem_append]
  exact ⟨by decide, ascii_of_drift hword hv, fun b hb => (isDigit_not (decimal_digits n b hb)).1, hclose⟩

theorem spelled_of_fits (hreads : ReadsTemplates env.re2 UnicodeFold spell [r]) (hname : IsName r.masking.placeholder)
    (hfits : FitsDrift r.masking.placeholder) (hn : n ≤ 999999999)
    (hdrift : List.Forall₂ Drifts (renderPlaceholder r.masking.placeholder n) w) :
    spell (recogniser env.re2 r) w = some (decimal n) := by
  obtain ⟨k, fs, hfs, hrender, hsplit⟩ := exists_fields_of_name hname
  obtain ⟨rfl, hrun⟩ := (fitsDrift_iff hname hfs hrender).mp hfits
  obtain ⟨v, rfl, hv⟩ := drift_render hdrift
  have hascii := ascii_of_render (n := n) hname hv
  rw [hrender, List.replicate_zero, List.nil_append] at hv
  have hword := (templateWord_of_drift hfs hsplit hrun hn hv).mono fun _ _ => asciiFold_unicodeFold
  rw [← hname.trim] at hword
  obtain ⟨digits, hspell⟩ :=
    Option.isSome_iff_exists.mp (hreads.complete r (List.mem_singleton_self r) _ _ hword)
  have hread := spelled_ascii hreads hname hascii hspell
  obtain ⟨-, rfl, -⟩ := templateWord_align hfs hsplit (List.all_nil : [].all isSepByte = true) hv hread
  exact hspell

theorem fits_of_spelled (hreads : ReadsTemplates env.re2 UnicodeFold spell [r]) (hname : IsName r.masking.placeholder)
    {digits : Bytes} (hspell : spell (recogniser env.re2 r) (renderPlaceholder r.masking.placeholder n) = some digits) :
    FitsDrift r.masking.placeholder := by
  obtain ⟨k, fs, hfs, hrender, hsplit⟩ := exists_fields_of_name hname
  have hself : ∀ s, List.Forall₂ Drifts s s := fun s => List.forall₂_same.mpr fun b _ => drifts_self b
  have hliteral : renderPlaceholder r.masking.placeholder n =
      ch '<' :: (r.masking.placeholder ++ [ch '_'] ++ (decimal n ++ [ch '>'])) := by
    simp [renderPlaceholder, ascii]
  rw [hliteral] at hspell
  have hread := spelled_ascii hreads hname (ascii_of_render hname (hself _)) hspell
  rw [hrender] at hread
  have hseps : (List.replicate k (ch '_')).all isSepByte = true :=
    List.all_eq_true.mpr fun b hb => List.eq_of_mem_replicate hb ▸ rfl
  obtain ⟨hblank, -, hrun⟩ := templateWord_align hfs hsplit hseps (hself _) hread
  refine (fitsDrift_iff hname hfs hrender).mpr ⟨?_, hrun⟩
  -- only blanks may stand behind the bracket
  cases k with
  | zero => rfl
  | succ k => exact absurd hblank (by simp [List.replicate_succ, show isBlankByte (ch '_') = false from rfl])

theorem recognised_iff_of_reads (hcompile : compileRule env r = .ok cr)
    (hreads : ReadsTemplates env.re2 UnicodeFold spell [r]) (hname : IsName r.masking.placeholder) (hpos : 1 ≤ n)
    (hn : n ≤ 999999999) :
    (∀ w, List.Forall₂ Drifts (renderPlaceholder r.masking.placeholder n) w →
      (∃ g, env.re2.search (recogniser env.re2 r) w 0 = some g ∧ g.whole = (0, w.length)) ∧
        scanRule env w cr = [⟨r.id, 0, w.length, renderPlaceholder r.masking.placeholder n⟩]) ↔
      FitsDrift r.masking.placeholder := by
  have hfinds := hreads.finds r (List.mem_singleton_self r)
  constructor
  · intro h
    obtain ⟨⟨g, hsearch, hwhole⟩, -⟩ := h _ (List.forall₂_same.mpr fun b _ => drifts_self b)
    obtain ⟨-, -, -, span, -, hspell⟩ := hfinds.found _ 0 g hsearch
    rw [hwhole, Splice.slice_zero_length] at hspell
    exact fits_of_spelled hreads hname hspell
  · intro hfits w hdrift
    have hspell := spelled_of_fits hreads hname hfits hn hdrift
    refine ⟨search_whole hfinds (fun w => recognised_fence hreads hname) (by rw [hspell]; rfl), ?_⟩
    obtain rfl := (compileRule_ok hcompile).1
    have hread : readPlaceholder spell w cr = some (renderPlaceholder cr.rule.masking.placeholder n) := by
      unfold readPlaceholder
      rw [ruleSpelling_of_compiled hcompile hname, hspell, Option.bind_some, parsePlaceholderIndex_decimal hpos hn]
      rfl
    refine scanRule_whole ?_ ?_ hread
    · intro re hre
      rw [placeholderRe_of_compiled hcompile hre]
      exact hfinds
    · intro w hw
      rw [ruleSpelling_of_compiled hcompile hname] at hw
      exact recognised_fence hreads hname hw

/-- **A rule reads its own placeholders.** Each drifted literal of a name is matched in full and read as the
literal, when the name fits the drift of the recogniser. A name that does not fit has a literal that is not read. -/
theorem placeholder_recognised_iff {U : Regexp.Unicode} {t : Regexp.Tree} (hcompile : compileRule env r = .ok cr)
    (hU : Regexp.FoldsCases U) (hquotes : QuotesAscii env.re2) (hruns : RunsAs U env.re2 (recogniser env.re2 r) t)
    (hname : IsName r.masking.placeholder) (hpos : 1 ≤ n) (hn : n ≤ 999999999) :
    (∀ w, List.Forall₂ Drifts (renderPlaceholder r.masking.placeholder n) w →
      (∃ g, env.re2.search (recogniser env.re2 r) w 0 = some g ∧ g.whole = (0, w.length)) ∧
        scanRule env w cr = [⟨r.id, 0, w.length, renderPlaceholder r.masking.placeholder n⟩]) ↔
      FitsDrift r.masking.placeholder := by
  have hreads : ReadsTemplates env.re2 UnicodeFold (treeSpelling U) [r] := by
    refine readsTemplates_of_runs hU hquotes ?_ ?_
    · rintro r' hr'
      obtain rfl := List.mem_singleton.mp hr'
      exact hname.ascii
    · rintro r' hr'
      obtain rfl := List.mem_singleton.mp hr'
      exact ⟨t, hruns⟩
  exact recognised_iff_of_reads hcompile hreads hname hpos hn

end OneRule

/-! ## Two names -/

/-- A name whose letters have no case outside ASCII. -/
def Narrow (name : Bytes) : Prop := ∀ b ∈ name, asciiToLower b ≠ ch 's' ∧ asciiToLower b ≠ ch 'k'

theorem UnicodeFold.narrow {token w : Bytes} (h : UnicodeFold token w) (htoken : Narrow token) : asciiFold token w := by
  unfold asciiFold
  induction h with
  | nil => rfl
  | @cons c w token words hc _ ih =>
    obtain ⟨hs, hk⟩ := htoken c List.mem_cons_self
    rcases hc with ⟨d, rfl, hd⟩ | ⟨h, -⟩ | ⟨h, -⟩
    · rw [List.singleton_append, List.map_cons, List.map_cons, hd, ih fun b hb => htoken b (List.mem_cons_of_mem c hb)]
    · exact absurd h hs
    · exact absurd h hk

/-- An engine with the real `QuoteMeta`. -/
def quotingRe2 (spell : Spelling) : Re2 := { sampleRe2 spell with quoteMeta := fun token => token.flatMap quotedByte }

/-- RE2 on the recogniser of one rule. -/
def templateSpelling (r : Rule) : Spelling := fun re w =>
  if re = recogniser (quotingRe2 fun _ _ => none) r then (readTemplate (asciiTrim r.masking.placeholder) w).head? else none

theorem templateSpelling_recogniser (r : Rule) (w : Bytes) :
    templateSpelling r (recogniser (quotingRe2 (templateSpelling r)) r) w =
      (readTemplate (asciiTrim r.masking.placeholder) w).head? := if_pos rfl

theorem templateSpelling_captures (r : Rule) : Captures (templateSpelling r) := by
  intro re w captured h
  unfold templateSpelling at h
  split at h
  · cases mem_readTemplate.mp (List.mem_of_head? h) with
    | @intro before words digits after =>
      exact ⟨ch '<' :: (before ++ words), after ++ [ch '>'], by simp⟩
  · cases h

theorem groups_templateTree (tokens : List Bytes) : (templateTree tokens).groups = 1 := by
  have htoken : ∀ (token : Bytes) (t : Regexp.Tree), (tokenTree token t).groups = t.groups := by
    intro token t
    induction token with
    | nil => rfl
    | cons c token ih => exact (Nat.zero_add _).trans ih
  have htokens : ∀ t : Regexp.Tree, (tokensTree tokens t).groups = t.groups := by
    intro t
    induction tokens with
    | nil => rfl
    | cons token tokens ih => exact (htoken token _).trans ((Nat.zero_add _).trans ih)
  simp [templateTree, Regexp.Tree.groups, htokens, literalTree, blankTree, indexTree]

/-- An engine that finds the words of the template does what RE2 documents. -/
theorem runsAs_narrow {spell : Spelling} (hcaptures : Captures spell) {r : Rule}
    (hspell : ∀ w, spell (recogniser (quotingRe2 spell) r) w = (readTemplate (asciiTrim r.masking.placeholder) w).head?)
    (hascii : ∀ c ∈ asciiTrim r.masking.placeholder, c < 0x80) (hr : Narrow (asciiTrim r.masking.placeholder)) :
    RunsAs Regexp.asciiUnicode (quotingRe2 spell) (recogniser (quotingRe2 spell) r)
      (templateTree (splitOnUnderscore (asciiTrim r.masking.placeholder))) := by
  have hmeans := groupMeans_template Regexp.asciiUnicode_cases hascii
  have hword : ∀ {w digits}, spell (recogniser (quotingRe2 spell) r) w = some digits →
      TemplateWord UnicodeFold (asciiTrim r.masking.placeholder) w digits := by
    intro w digits h
    rw [hspell] at h
    exact (mem_readTemplate.mp (List.mem_of_head? h)).mono fun _ _ => asciiFold_unicodeFold
  have hnone : ∀ {text : Bytes} {i j : Nat},
      spell (recogniser (quotingRe2 spell) r) (slice text i j) = none →
      ¬ MatchesAt Regexp.asciiUnicode (templateTree (splitOnUnderscore (asciiTrim r.masking.placeholder))) text i j := by
    intro text i j h hmatches
    obtain ⟨digits, hdigits⟩ := Regexp.Captures.of_passes (passes_templateTree _) hmatches
    have hread := ((hmeans _ _ _ _).mp hdigits).imp fun token ht v _ hfold =>
      hfold.narrow fun b hb => hr b (mem_splitOnUnderscore ht hb)
    rw [hspell, List.head?_eq_none_iff] at h
    exact absurd (mem_readTemplate.mpr hread) (by simp [h])
  refine ⟨reads_recogniser (fun _ _ => rfl) hascii, ?_, ?_, ?_, ?_, ?_⟩
  · intro text pos g hg
    obtain ⟨hpos, hle, hend, -, captured, hsome, -⟩ := sampleSearch_some hg
    exact ⟨hpos, hle, hend, ((hmeans _ _ _ _).mpr (hword hsome)).matches⟩
  · intro text pos g hg i j hpos hlt hij hj
    exact hnone ((sampleSearch_some hg).2.2.2.1 i j hpos hlt hij hj)
  · intro text pos hg i j hpos hij hj
    exact hnone (sampleSearch_none hg i j hpos hij hj)
  · intro text pos g hg n span hspan
    obtain ⟨-, hle, hend, -, captured, hsome, hgroups⟩ := sampleSearch_some hg
    cases n with
    | zero =>
      obtain rfl : captureAt g.whole.1 (slice text g.whole.1 g.whole.2) captured = span := by
        simpa [Submatches.get, hgroups] using hspan
      rw [(captureAt_text hend hle (hcaptures _ _ _ hsome)).2]
      exact (hmeans _ _ _ _).mpr (hword hsome)
    | succ n => simp [Submatches.get, hgroups] at hspan
  · intro text pos g hg n hn
    obtain ⟨-, -, -, -, captured, hsome, hgroups⟩ := sampleSearch_some hg
    have hmatches := ((hmeans (text.take g.whole.1) _ (text.drop g.whole.2) _).mpr (hword hsome)).matches
    obtain ⟨_, hround⟩ := Regexp.Captures.of_passes hn hmatches
    have hlt := hround.lt_groups
    rw [groups_templateTree] at hlt
    obtain rfl : n = 0 := by omega
    simp [Submatches.get, hgroups]

def ownRule (placeholder : String) : Rule := sampleRule "secret" "x" placeholder

def ownEnv (placeholder : String) : Env :=
  { sampleEnv (templateSpelling (ownRule placeholder)) with re2 := quotingRe2 (templateSpelling (ownRule placeholder)) }

instance (name : Bytes) : Decidable (IsName name) := inferInstanceAs (Decidable (_ ∧ _))

instance (name : Bytes) : Decidable (FitsDrift name) := inferInstanceAs (Decidable (_ ∧ _))

instance (b c : Byte) : Decidable (Drifts b c) := inferInstanceAs (Decidable (_ ∨ _))

instance (name : Bytes) : Decidable (Narrow name) := inferInstanceAs (Decidable (∀ _ ∈ _, _))

/-- A repeated underscore, with other separators in its place. -/
theorem placeholder_recognised_iff_sample :
    ∃ cr, compileRule (ownEnv "API__NAME") (ownRule "API__NAME") = .ok cr ∧
      scanRule (ownEnv "API__NAME") (ascii "<api- Name-7>") cr = [⟨ascii "secret", 0, 13, ascii "<API__NAME_7>"⟩] := by
  have hok : (compileRule (ownEnv "API__NAME") (ownRule "API__NAME")).isOk = true := by decide +kernel
  cases hcompile : compileRule (ownEnv "API__NAME") (ownRule "API__NAME") with
  | error e =>
    rw [hcompile] at hok
    cases hok
  | ok cr =>
    have hname : IsName (ownRule "API__NAME").masking.placeholder := by decide
    have hfits : FitsDrift (ownRule "API__NAME").masking.placeholder := by decide
    have hruns := runsAs_narrow (templateSpelling_captures _) (templateSpelling_recogniser (ownRule "API__NAME"))
      (by decide) (by decide)
    have hdrift : List.Forall₂ Drifts (renderPlaceholder (ownRule "API__NAME").masking.placeholder 7)
        (ascii "<api- Name-7>") := by
      decide
    exact ⟨cr, rfl, ((placeholder_recognised_iff hcompile Regexp.asciiUnicode_cases (fun _ _ => rfl) hruns hname (by decide)
      (by decide)).mpr hfits _ hdrift).2⟩

/-- The recogniser of `_ID` has no underscore in front, so it does not know `<_ID_1>`. -/
theorem leading_underscore_unread :
    ¬ ∀ (env : Env) (r : Rule) (cr : CompiledRule) (U : Regexp.Unicode) (t : Regexp.Tree) (n : Nat) (w : Bytes),
      compileRule env r = .ok cr → Regexp.FoldsCases U → QuotesAscii env.re2 → RunsAs U env.re2 (recogniser env.re2 r) t →
      IsName r.masking.placeholder → 1 ≤ n → n ≤ 999999999 →
      List.Forall₂ Drifts (renderPlaceholder r.masking.placeholder n) w →
      (∃ g, env.re2.search (recogniser env.re2 r) w 0 = some g ∧ g.whole = (0, w.length)) ∧
        scanRule env w cr = [⟨r.id, 0, w.length, renderPlaceholder r.masking.placeholder n⟩] := by
  intro h
  have hnone : (compileRule (ownEnv "_ID") (ownRule "_ID")).map (scanRule (ownEnv "_ID") (ascii "<_ID_1>")) = .ok [] := by
    decide +kernel
  cases hcompile : compileRule (ownEnv "_ID") (ownRule "_ID") with
  | error e =>
    rw [hcompile] at hnone
    cases hnone
  | ok cr =>
    have hread := h _ _ cr _ _ 1 (ascii "<_ID_1>") hcompile Regexp.asciiUnicode_cases (fun _ _ => rfl)
      (runsAs_narrow (templateSpelling_captures _) (templateSpelling_recogniser (ownRule "_ID")) (by decide)
        (by decide)) (by decide) (by decide) (by decide) (by decide)
    rw [hcompile] at hnone
    exact absurd (hread.2.symm.trans (Except.ok.inj hnone)) (by simp)

end LlmGuard
