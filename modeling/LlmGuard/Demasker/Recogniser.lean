import LlmGuard.Demasker.HoldBack
import LlmGuard.Lib.RegexpUnique
import LlmGuard.Pattern.Guarantee

/-!
# The tree of a recogniser

The text that `build_placeholder_pattern` writes, as RE2 reads it, and the words that its tree matches.
-/

namespace LlmGuard

open Regexp (Tree Mode Setter FlagText Pieces Suffix Matches Same FoldsCases)
open Utf8

/-! ## The tree -/

def literalTree (c : Byte) : Tree := .literal true (Char.ofNat c.toNat)

/-- `\s{0,3}` -/
def blankTree : Tree := .repeat false 0 (some 3) (.charClass true false [.perl false .space])

/-- `[\s_-]{0,3}` -/
def sepTree : Tree :=
  .repeat false 0 (some 3) (.charClass true false [.perl false .space, .range '_' '_', .range '-' '-'])

/-- `([0-9]{1,9})` -/
def indexTree : Tree := .capture (.cat (.repeat false 1 (some 9) (.charClass true false [.range '0' '9'])) .empty)

/-- The literals of a token, in front of a tree. -/
def tokenTree (token : Bytes) (t : Tree) : Tree := token.foldr (fun c t => .cat (literalTree c) t) t

def tokensTree (tokens : List Bytes) (t : Tree) : Tree :=
  tokens.foldr (fun token t => tokenTree token (.cat sepTree t)) t

def templateTree (tokens : List Bytes) : Tree :=
  .cat (literalTree (ch '<')) (.cat blankTree (tokensTree tokens
    (.cat indexTree (.cat blankTree (.cat (literalTree (ch '>')) .empty)))))

/-! ## How RE2 reads the template -/

theorem byte_char {c : Byte} (hc : c < 0x80) : (Char.ofNat c.toNat).toNat = c.toNat ∧ encode (Char.ofNat c.toNat) = [c] := by
  obtain ⟨d, hd, hnat⟩ := exists_one c hc
  obtain rfl : Char.ofNat c.toNat = d := by rw [← hnat, Char.ofNat_toNat]
  exact ⟨hnat, hd⟩

set_option maxRecDepth 8192 in
theorem isWordByte_spec (c : Byte) :
    isWordByte c = Regexp.wordByte c ∧ (isWordByte c = true → Regexp.metaByte c = false) := by
  revert c
  decide

theorem dropLazy_of_noQuantifier {s : Bytes} (hs : NoQuantifier s) : Regexp.dropLazy s = s := by
  cases s with
  | nil => rfl
  | cons c s =>
    refine if_neg fun hc => ?_
    rw [NoQuantifier, hc] at hs
    exact absurd hs (by decide)

theorem count_digit {d : Byte} (hd : isDigit d = true) : Regexp.IsCount [d] where
  digits := by simpa using hd
  pos := Nat.one_pos
  short := by simp
  zero _ := rfl

theorem head_cons_ne {a b : Byte} (h : a ≠ b) (s : Bytes) : (a :: s).head? ≠ some b := fun heq => h (Option.some.inj heq)

theorem itemText_char {c : Char} {b : Byte} {s : Bytes} (hc : encode c = [b] ∧ c ≠ '\\' ∧ b ≠ ch '[')
    (hs : ∀ d t, s = ch '-' :: d :: t → d = ch ']') : Regexp.ItemText (b :: s) (.range c c) s := by
  obtain ⟨hencode, hplain, hbracket⟩ := hc
  have hchar : Regexp.ClassChar (encode c ++ s) c s := .plain hplain
  rw [hencode] at hchar
  refine .char ?_ hchar hs
  rintro ⟨name, rest, heq⟩
  exact hbracket (List.cons.inj heq).1

theorem classText_sep (s : Bytes) :
    Regexp.ClassText (ascii "\\s_-]" ++ s) false [.perl false .space, .range '_' '_', .range '-' '-'] s := by
  have hperl : Regexp.ItemText (ascii "\\s" ++ (ascii "_-]" ++ s)) (.perl false .space) (ascii "_-]" ++ s) :=
    .perl (by decide)
  have hbar : Regexp.ItemText (ascii "_-]" ++ s) (.range '_' '_') (ascii "-]" ++ s) := by
    refine itemText_char (by decide) fun d t h => ?_
    exact (List.cons.inj (List.cons.inj h).2).1.symm
  have hdash : Regexp.ItemText (ascii "-]" ++ s) (.range '-' '-') (ch ']' :: s) :=
    itemText_char (by decide) fun d t h => absurd (List.cons.inj h).1 (by decide)
  exact .plain (head_cons_ne (by decide) _)
    (.item (.inl rfl) hperl (.item (.inr (head_cons_ne (by decide) _)) hbar
      (.item (.inr (head_cons_ne (by decide) _)) hdash .close)))

theorem classText_digit (s : Bytes) : Regexp.ClassText (ascii "0-9]" ++ s) false [.range '0' '9'] s := by
  have hlo : Regexp.ClassChar (ascii "0-9]" ++ s) '0' (ch '-' :: (ascii "9]" ++ s)) := .plain (c := '0') (by decide)
  have hhi : Regexp.ClassChar (ascii "9]" ++ s) '9' (ch ']' :: s) := .plain (c := '9') (by decide)
  have hitem : Regexp.ItemText (ascii "0-9]" ++ s) (.range '0' '9') (ch ']' :: s) := by
    refine .range ?_ hlo (head_cons_ne (by decide) _) hhi (by decide)
    rintro ⟨name, rest, heq⟩
    exact absurd (List.cons.inj heq).1 (by decide)
  exact .plain (head_cons_ne (by decide) _) (.item (.inl rfl) hitem .close)

section Reading

variable {m m' : Mode} {s s' : Bytes} {t u : Tree}

theorem suffix_counted (hq : m.quoted = false) {a b : Byte} (hdigits : isDigit a = true ∧ isDigit b = true)
    (hle : digitsVal [a] ≤ digitsVal [b] ∧ digitsVal [b] ≤ 1000) (hs : NoQuantifier s) :
    Suffix false m (ch '\x7b' :: a :: ch ',' :: b :: ch '\x7d' :: s) t m s
      (.repeat false (digitsVal [a]) (some (digitsVal [b])) t) := by
  have hrep : Regexp.Repetition (a :: ch ',' :: b :: ch '\x7d' :: s) (digitsVal [a]) (some (digitsVal [b])) s :=
    .between (count_digit hdigits.1) (count_digit hdigits.2)
  have hlimits : Regexp.InLimits (digitsVal [a]) (some (digitsVal [b])) := by
    refine ⟨hle.1.trans hle.2, fun n hn => ?_⟩
    obtain rfl := Option.some.inj hn
    exact hle
  have hquantifier := Regexp.Quantifier.counted hrep hlimits
  rw [dropLazy_of_noQuantifier hs] at hquantifier
  exact .here hq hquantifier .done

variable (hfold : m.fold = true) (hq : m.quoted = false)

include hfold hq

theorem pieces_quoted {c : Byte} (hc : c < 0x80) (h : Pieces m s t m' s') :
    Pieces m (quotedByte c ++ s) (.cat (literalTree c) t) m' s' := by
  obtain ⟨hnat, hencode⟩ := byte_char hc
  have hatom : Regexp.Atom m (quotedByte c ++ s) (.literal m.fold (Char.ofNat c.toNat)) s := by
    unfold quotedByte
    change Regexp.Atom m ((if isWordByte c = true then [c] else _) ++ s) _ s
    split
    · rename_i hword
      have hliteral : Regexp.Atom m (encode (Char.ofNat c.toNat) ++ s) (.literal m.fold (Char.ofNat c.toNat)) s := by
        refine .literal hq ?_
        rw [hencode]
        simpa using (isWordByte_spec c).2 hword
      rwa [hencode] at hliteral
    · rename_i hword
      rw [(isWordByte_spec c).1, Bool.not_eq_true] at hword
      split
      · rename_i hzero
        refine .escape hq (.char (.hex ?_))
        rw [hnat, hzero]
        rfl
      · exact .escape hq (.char (.self hc (.inl hword) hnat))
  rw [hfold] at hatom
  exact .piece hatom .done h

theorem pieces_token {token : Bytes} (htoken : ∀ c ∈ token, c < 0x80) (h : Pieces m s t m' s') :
    Pieces m (token.flatMap quotedByte ++ s) (tokenTree token t) m' s' := by
  induction token with
  | nil => exact h
  | cons c token ih =>
    rw [List.flatMap_cons, List.append_assoc]
    exact pieces_quoted hfold hq (htoken c List.mem_cons_self) (ih fun d hd => htoken d (List.mem_cons_of_mem _ hd))

theorem pieces_bracket {b : Byte} (hb : b < 0x80 ∧ Regexp.metaByte b = false) (h : Pieces m s t m' s') :
    Pieces m (b :: s) (.cat (literalTree b) t) m' s' := by
  obtain ⟨-, hencode⟩ := byte_char hb.1
  have hliteral : Regexp.Atom m (encode (Char.ofNat b.toNat) ++ s) (.literal m.fold (Char.ofNat b.toNat)) s := by
    refine .literal hq ?_
    rw [hencode]
    simpa using hb.2
  rw [hencode, hfold] at hliteral
  exact .piece hliteral .done h

theorem atom_space : Regexp.Atom m (ascii "\\s" ++ s) (.charClass true false [.perl false .space]) s := by
  rw [← hfold]
  exact .escape hq (.perl (by decide))

theorem pieces_blank (hs : NoQuantifier s) (h : Pieces m s t m' s') :
    Pieces m (ascii "\\s\x7b0,3\x7d" ++ s) (.cat blankTree t) m' s' :=
  .piece (atom_space hfold hq) (suffix_counted hq (by decide) (by decide) hs) h

theorem pieces_sep (hs : NoQuantifier s) (h : Pieces m s t m' s') :
    Pieces m (sepText ++ s) (.cat sepTree t) m' s' := by
  have hatom := Regexp.Atom.charClass hq (classText_sep (ascii "\x7b0,3\x7d" ++ s))
  rw [hfold] at hatom
  exact .piece hatom (suffix_counted hq (by decide) (by decide) hs) h

theorem pieces_index (h : Pieces m s t m' s') :
    Pieces m (ascii "([0-9]\x7b1,9\x7d)" ++ s) (.cat indexTree t) m' s' := by
  have hatom := Regexp.Atom.charClass hq (classText_digit (ascii "\x7b1,9\x7d)" ++ s))
  rw [hfold] at hatom
  have hdigits : Pieces m (ascii "[0-9]\x7b1,9\x7d)" ++ s) _ m (ch ')' :: s) :=
    .piece hatom (suffix_counted hq (by decide) (by decide) (noQuantifier_cons (by decide) s)) (.done (.inr ⟨hq, .inr rfl⟩))
  exact .piece (.capture hq (head_cons_ne (by decide) _) (.one hdigits (head_cons_ne (by decide) _))) .done h

end Reading

/-! ## The whole pattern -/

/-- `(?im)` -/
def templateMode : Mode := { fold := true, multiline := true }

theorem pieces_tokens {tokens : List Bytes} (htokens : ∀ token ∈ tokens, ∀ c ∈ token, c < 0x80) {s s' : Bytes} {t : Tree}
    {m' : Mode} (hs : NoQuantifier s) (h : Pieces templateMode s t m' s') :
    Pieces templateMode ((tokens.flatMap fun token => token.flatMap quotedByte ++ sepText) ++ s) (tokensTree tokens t)
      m' s' := by
  induction tokens with
  | nil => exact h
  | cons token tokens ih =>
    have hrest : ∀ token ∈ tokens, ∀ c ∈ token, c < 0x80 := fun t ht => htokens t (List.mem_cons_of_mem _ ht)
    have hnext := (@prefixes_tokens 0 _ _ hrest hs).2
    rw [List.flatMap_cons, List.append_assoc, List.append_assoc]
    exact pieces_token rfl rfl (htokens token List.mem_cons_self) (pieces_sep rfl rfl hnext (ih hrest))

/-- RE2 reads the template as its tree. -/
theorem reads_recogniser {re2 : Re2} (hquotes : QuotesAscii re2) {r : Rule}
    (hascii : ∀ c ∈ asciiTrim r.masking.placeholder, c < 0x80) :
    Regexp.Reads (recogniser re2 r) (templateTree (splitOnUnderscore (asciiTrim r.masking.placeholder))) := by
  have htokens : ∀ token ∈ splitOnUnderscore (asciiTrim r.masking.placeholder), ∀ c ∈ token, c < 0x80 :=
    fun token ht c hc => hascii c (mem_splitOnUnderscore ht hc)
  have hclose : Pieces templateMode (ascii ">") (.cat (literalTree (ch '>')) .empty) templateMode [] :=
    pieces_bracket rfl rfl (by decide) (.done (.inl rfl))
  have hindex := pieces_index rfl rfl (pieces_blank rfl rfl (noQuantifier_cons (by decide) _) hclose)
  have hnext : NoQuantifier (ascii "([0-9]\x7b1,9\x7d)" ++ (ascii "\\s\x7b0,3\x7d" ++ ascii ">")) :=
    noQuantifier_cons (by decide) _
  have hwords := pieces_tokens htokens hnext hindex
  have hfirst := (@prefixes_tokens 0 _ _ htokens hnext).2
  have hbody := pieces_bracket (b := ch '<') rfl rfl (by decide) (pieces_blank rfl rfl hfirst hwords)
  unfold recogniser
  rw [template_eq hquotes hascii]
  have hm : FlagText {} (ascii "m") { multiline := true } := .on rfl
  have hi : FlagText { multiline := true } (ascii "i") templateMode := .on rfl
  exact ⟨templateMode, .one (.flags (.flags rfl hm) rfl (.flags (.flags rfl hi) rfl hbody)) (by decide)⟩

/-! ## The words of its parts -/

/-- The words of a tree, whatever stands around them. -/
def Means (U : Regexp.Unicode) (t : Tree) (words : Bytes → Prop) : Prop :=
  ∀ before w after, Matches U t before w after ↔ words w

/-- The words of a tree and what its first group holds in them. -/
def GroupMeans (U : Regexp.Unicode) (t : Tree) (words : Bytes → Bytes → Prop) : Prop :=
  ∀ before w after g, Regexp.Captures U 0 t before w after g ↔ words w g

section Words

variable {U : Regexp.Unicode} {s t : Tree} {L M : Bytes → Prop} {R : Bytes → Bytes → Prop}

theorem means_empty : Means U .empty (· = []) := by
  intro before w after
  constructor
  · rintro ⟨⟩
    rfl
  · rintro rfl
    exact .empty

theorem means_cat (hs : Means U s L) (ht : Means U t M) : Means U (.cat s t) fun w => ∃ x y, w = x ++ y ∧ L x ∧ M y := by
  intro before w after
  constructor
  · rintro ⟨⟩
    rename_i x y hx hy
    exact ⟨x, y, rfl, (hs _ _ _).mp hx, (ht _ _ _).mp hy⟩
  · rintro ⟨x, y, rfl, hx, hy⟩
    exact .cat ((hs _ _ _).mpr hx) ((ht _ _ _).mpr hy)

theorem groupMeans_cat (hgroups : s.groups = 0) (hs : Means U s L) (ht : GroupMeans U t R) :
    GroupMeans U (.cat s t) fun w g => ∃ x y, w = x ++ y ∧ L x ∧ R y g := by
  intro before w after g
  simp only [Regexp.captures_cat_iff hgroups, hs _ _ _, ht _ _ _ _]

theorem groupMeans_front (hgroups : 0 < s.groups) (hs : GroupMeans U s R) (ht : Means U t M) :
    GroupMeans U (.cat s t) fun w g => ∃ x y, w = x ++ y ∧ R x g ∧ M y := by
  intro before w after g
  simp only [Regexp.captures_cat_front_iff hgroups, hs _ _ _ _, ht _ _ _]

theorem groupMeans_capture (ht : Means U t L) : GroupMeans U (.capture t) fun w g => L w ∧ g = w := by
  intro before w after g
  constructor
  · intro h
    generalize hn : 0 = n at h
    cases h with
    | here h => exact ⟨(ht _ _ _).mp h, rfl⟩
    | inside => cases hn
  · rintro ⟨hw, rfl⟩
    exact .here ((ht _ _ _).mpr hw)

theorem means_repeat {kind : Byte → Bool} (ht : Means U t fun w => ∃ b, kind b = true ∧ w = [b]) (min max : Nat) :
    Means U (.repeat false min (some max) t) fun w => min ≤ w.length ∧ w.length ≤ max ∧ w.all kind = true := by
  intro before w after
  induction max generalizing min before w with
  | zero =>
    constructor
    · intro h
      cases h with
      | stop => exact ⟨Nat.le_refl 0, Nat.le_refl 0, rfl⟩
      | more hmax _ _ => exact absurd rfl hmax
    · rintro ⟨hmin, hmax, -⟩
      obtain rfl := List.eq_nil_of_length_eq_zero (Nat.le_zero.mp hmax)
      obtain rfl := Nat.le_zero.mp hmin
      exact .stop
  | succ max ih =>
    constructor
    · intro h
      cases h with
      | stop => exact ⟨Nat.le_refl 0, Nat.zero_le _, rfl⟩
      | more _ hx hy =>
        obtain ⟨b, hb, rfl⟩ := (ht _ _ _).mp hx
        obtain ⟨hmin, hmax, hall⟩ := (ih _ _ _).mp hy
        simp only [List.length_append, List.length_singleton, List.all_append, hall, List.all_cons, hb, List.all_nil,
          Bool.and_self, and_true]
        omega
    · rintro ⟨hmin, hmax, hall⟩
      cases w with
      | nil =>
        obtain rfl := Nat.le_zero.mp hmin
        exact .stop
      | cons b w =>
        rw [List.all_cons, Bool.and_eq_true] at hall
        rw [List.length_cons] at hmin hmax
        have hrest := (ih (min - 1) (before ++ [b]) w).mpr ⟨by omega, by omega, hall.2⟩
        exact .more (x := [b]) (by simp) ((ht _ _ _).mpr ⟨b, hall.1, rfl⟩) hrest

end Words

/-! ## Cases -/

set_option maxRecDepth 8192 in
theorem asciiToLower_spec (c : Byte) :
    (asciiToLower c < 0x80 → c < 0x80) ∧ (c < 0x80 → asciiToLower c < 0x80) ∧
      (asciiToLower c = ch 's' ↔ c = ch 's' ∨ c = ch 'S') ∧ (asciiToLower c = ch 'k' ↔ c = ch 'k' ∨ c = ch 'K') := by
  revert c
  decide

theorem byte_of_char {d : Char} (hd : d.toNat < 0x80) : d.toNat.toUInt8 < 0x80 ∧ Char.ofNat d.toNat.toUInt8.toNat = d := by
  have hval : d.toNat.toUInt8.toNat = d.toNat := Nat.mod_eq_of_lt (by omega)
  rw [UInt8.lt_iff_toNat_lt, hval, Char.ofNat_toNat]
  exact ⟨hd, rfl⟩

theorem toLower_eq_iff {c d : Char} (hc : c.toNat < 0x80) (hd : d.toNat < 0x80) :
    d.toLower = c.toLower ↔ asciiToLower d.toNat.toUInt8 = asciiToLower c.toNat.toUInt8 := by
  have hlow : ∀ n < 128, (Char.ofNat n).toLower.toNat < 128 := by decide
  have hlow : ∀ {c : Char}, c.toNat < 0x80 → c.toLower.toNat < 0x80 := by
    intro c hc
    have := hlow c.toNat hc
    rwa [Char.ofNat_toNat] at this
  rw [asciiToLower_char hc, asciiToLower_char hd]
  constructor
  · intro h
    rw [h]
  · intro h
    rw [← (byte_of_char (hlow hd)).2, h, (byte_of_char (hlow hc)).2]

theorem same_iff {U : Regexp.Unicode} (hU : FoldsCases U) {c : Byte} (hc : c < 0x80) (d : Char) :
    Same U true (Char.ofNat c.toNat) d ↔ FoldsTo c (encode d) := by
  obtain ⟨hnat, hencode⟩ := byte_char hc
  have hascii : (Char.ofNat c.toNat).toNat < 0x80 := by
    rw [hnat]
    exact hc
  have hbyte : (Char.ofNat c.toNat).toNat.toUInt8 = c := by
    rw [hnat]
    exact UInt8.ofNat_toNat
  have hchar : ∀ b : Byte, b < 0x80 → (Char.ofNat c.toNat = Char.ofNat b.toNat ↔ c = b) := by
    intro b hb
    refine ⟨fun h => ?_, fun h => by rw [h]⟩
    have heq := congrArg encode h
    rw [hencode, (byte_char hb).2] at heq
    exact (List.cons.inj heq).1
  obtain ⟨-, -, hs, hk⟩ := asciiToLower_spec c
  have hlong : (Char.ofNat c.toNat = 's' ∨ Char.ofNat c.toNat = 'S') ↔ asciiToLower c = ch 's' := by
    rw [hs]
    exact or_congr (hchar (ch 's') (by decide)) (hchar (ch 'S') (by decide))
  have hkelvin : (Char.ofNat c.toNat = 'k' ∨ Char.ofNat c.toNat = 'K') ↔ asciiToLower c = ch 'k' := by
    rw [hk]
    exact or_congr (hchar (ch 'k') (by decide)) (hchar (ch 'K') (by decide))
  unfold Same FoldsTo
  rw [hU hascii, hlong, hkelvin]
  constructor
  · rintro (rfl | ⟨-, ⟨hd, hlower⟩ | ⟨h, rfl⟩ | ⟨h, rfl⟩⟩)
    · exact .inl ⟨c, hencode, rfl⟩
    · rw [toLower_eq_iff hascii hd, hbyte] at hlower
      exact .inl ⟨_, encode_ascii hd, hlower⟩
    · exact .inr (.inl ⟨h, rfl⟩)
    · exact .inr (.inr ⟨h, rfl⟩)
  · rintro (⟨b, hb, hlower⟩ | ⟨h, hd⟩ | ⟨h, hd⟩)
    · have hb' : b < 0x80 := (asciiToLower_spec b).1 (hlower ▸ (asciiToLower_spec c).2.1 hc)
      obtain ⟨hbnat, hbencode⟩ := byte_char hb'
      obtain rfl : d = Char.ofNat b.toNat := encode_injective (hb.trans hbencode.symm)
      have hd : (Char.ofNat b.toNat).toNat < 0x80 := by
        rw [hbnat]
        exact hb'
      refine .inr ⟨rfl, .inl ⟨hd, (toLower_eq_iff hascii hd).mpr ?_⟩⟩
      rw [hbyte, hbnat]
      exact (congrArg asciiToLower UInt8.ofNat_toNat).trans hlower
    · exact .inr ⟨rfl, .inr (.inl ⟨h, encode_injective (hd.trans (by decide))⟩)⟩
    · exact .inr ⟨rfl, .inr (.inr ⟨h, encode_injective (hd.trans (by decide))⟩)⟩

theorem FoldsTo.exists_char {c : Byte} {w : Bytes} (hc : c < 0x80) (h : FoldsTo c w) : ∃ d, w = encode d := by
  rcases h with ⟨b, rfl, hlower⟩ | ⟨-, rfl⟩ | ⟨-, rfl⟩
  · have hb : b < 0x80 := (asciiToLower_spec b).1 (hlower ▸ (asciiToLower_spec c).2.1 hc)
    exact ⟨_, (byte_char hb).2.symm⟩
  · exact ⟨'\u017F', by decide⟩
  · exact ⟨'\u212A', by decide⟩

/-- A byte without cases. -/
def Caseless (c : Byte) : Prop := asciiToLower c = c ∧ isLower c = false

instance (c : Byte) : Decidable (Caseless c) := inferInstanceAs (Decidable (_ ∧ _))

set_option maxRecDepth 8192 in
theorem Caseless.foldsTo_iff {c : Byte} (hc : Caseless c) (w : Bytes) : FoldsTo c w ↔ w = [c] := by
  have hall : ∀ b : Byte, isLower (asciiToLower b) = false → asciiToLower b = b := by decide
  constructor
  · rintro (⟨b, rfl, hlower⟩ | ⟨h, -⟩ | ⟨h, -⟩)
    · rw [hc.1] at hlower
      rw [← hall b (hlower ▸ hc.2), hlower]
    · rw [hc.1] at h
      exact absurd hc.2 (by rw [h]; decide)
    · rw [hc.1] at h
      exact absurd hc.2 (by rw [h]; decide)
  · rintro rfl
    exact .inl ⟨c, rfl, rfl⟩

set_option maxRecDepth 8192 in
theorem FoldsTo.bracket {c b : Byte} {w : Bytes} (h : FoldsTo c w) (hb : b ∈ w) (hbracket : IsBracket b) : b = c := by
  have hlower : ∀ c : Byte, asciiToLower c = ch '<' ∨ asciiToLower c = ch '>' → asciiToLower c = c := by decide
  have hwide : ∀ b : Byte, b ∈ ([0xC5, 0xBF] : Bytes) ∨ b ∈ ([0xE2, 0x84, 0xAA] : Bytes) → ¬ (b = ch '<' ∨ b = ch '>') := by
    decide
  have hself : asciiToLower b = b := by rcases hbracket with rfl | rfl <;> rfl
  rcases h with ⟨d, rfl, hd⟩ | ⟨-, rfl⟩ | ⟨-, rfl⟩
  · obtain rfl := List.mem_singleton.mp hb
    rw [hself] at hd
    rw [hd, hlower c (hd ▸ hbracket)]
  · exact absurd hbracket (hwide b (.inl hb))
  · exact absurd hbracket (hwide b (.inr hb))

theorem unicodeFold_caseFold : CaseFold UnicodeFold where
  brackets token w hfold b hb hbracket := by
    induction hfold with
    | nil => cases hb
    | @cons c w token words hc _ ih =>
      rcases List.mem_append.mp hb with hb | hb
      · exact hc.bracket hb hbracket ▸ List.mem_cons_self
      · exact List.mem_cons_of_mem c (ih hb)

section Folds

variable {U : Regexp.Unicode} (hU : FoldsCases U)

include hU

theorem means_literal {c : Byte} (hc : c < 0x80) : Means U (literalTree c) (FoldsTo c) := by
  intro before w after
  constructor
  · rintro ⟨⟩
    rename_i d h
    exact (same_iff hU hc d).mp h
  · intro h
    obtain ⟨d, rfl⟩ := h.exists_char hc
    exact .literal ((same_iff hU hc d).mpr h)

theorem means_class {items : List Regexp.ClassItem} {kind : Byte → Bool} (hitems : ∀ item ∈ items, item.negated = false)
    (hkind : ∀ b, kind b = true → b < 0x80 ∧ Caseless b)
    (hlists : ∀ c : Char, (∃ item ∈ items, item.Lists U c) ↔ ∃ b, kind b = true ∧ c = Char.ofNat b.toNat) :
    Means U (.charClass true false items) fun w => ∃ b, kind b = true ∧ w = [b] := by
  intro before w after
  constructor
  · rintro ⟨⟩
    rename_i d h
    obtain ⟨item, hitem, hholds⟩ := h.mp rfl
    obtain ⟨c, hc, hsame⟩ := hholds.mp (hitems item hitem)
    obtain ⟨b, hb, rfl⟩ := (hlists c).mp ⟨item, hitem, hc⟩
    obtain ⟨hascii, hcaseless⟩ := hkind b hb
    exact ⟨b, hb, (hcaseless.foldsTo_iff _).mp ((same_iff hU hascii d).mp hsame)⟩
  · rintro ⟨b, hb, rfl⟩
    obtain ⟨item, hitem, hlist⟩ := (hlists (Char.ofNat b.toNat)).mpr ⟨b, hb, rfl⟩
    rw [← (byte_char (hkind b hb).1).2]
    refine .charClass ⟨fun _ => ⟨item, hitem, ?_⟩, fun _ => rfl⟩
    exact ⟨fun _ => ⟨_, hlist, .inl rfl⟩, fun _ => hitems item hitem⟩

end Folds

theorem exists_byte_iff {P : Nat → Prop} {kind : Byte → Bool} (hP : ∀ n, P n → n < 128) (hkind : ∀ b, kind b = true → b < 0x80)
    (hall : ∀ n < 128, P n ↔ kind n.toUInt8 = true) (c : Char) :
    P c.toNat ↔ ∃ b, kind b = true ∧ c = Char.ofNat b.toNat := by
  constructor
  · intro h
    have hc := hP _ h
    exact ⟨_, (hall _ hc).mp h, (byte_of_char hc).2.symm⟩
  · rintro ⟨b, hb, rfl⟩
    have hlow := hkind b hb
    rw [(byte_char hlow).1]
    apply (hall b.toNat hlow).mpr
    rwa [show b.toNat.toUInt8 = b from UInt8.ofNat_toNat]

set_option maxRecDepth 8192 in
theorem isSepByte_spec (b : Byte) : (isSepByte b = true ∨ isDigit b = true → b < 0x80 ∧ Caseless b) ∧
    (isBlankByte b = true → isSepByte b = true) := by
  revert b
  decide

section Parts

variable {U : Regexp.Unicode} (hU : FoldsCases U)

include hU

theorem means_blank : Means U blankTree (AtMost 3 isBlankByte) := by
  have hclass : Means U (.charClass true false [.perl false .space]) fun w => ∃ b, isBlankByte b = true ∧ w = [b] := by
    refine means_class hU (by simp [Regexp.ClassItem.negated])
      (fun b hb => (isSepByte_spec b).1 (.inl ((isSepByte_spec b).2 hb))) fun c => ?_
    have hbytes : (9 ≤ c.toNat ∧ c.toNat ≤ 10 ∨ 12 ≤ c.toNat ∧ c.toNat ≤ 13 ∨ 32 ≤ c.toNat ∧ c.toNat ≤ 32) ↔
        ∃ b, isBlankByte b = true ∧ c = Char.ofNat b.toNat :=
      exists_byte_iff (P := fun n => 9 ≤ n ∧ n ≤ 10 ∨ 12 ≤ n ∧ n ≤ 13 ∨ 32 ≤ n ∧ n ≤ 32) (by omega)
        (fun b hb => ((isSepByte_spec b).1 (.inl ((isSepByte_spec b).2 hb))).1) (by decide) c
    rw [← hbytes]
    simp only [Regexp.ClassItem.Lists, Regexp.InRanges, Regexp.Perl.ranges, List.exists_mem_cons_iff, List.not_mem_nil,
      false_and, exists_false, or_false]
  intro before w after
  rw [blankTree, means_repeat hclass 0 3, AtMost]
  simp

theorem means_sep : Means U sepTree (AtMost 3 isSepByte) := by
  have hclass : Means U (.charClass true false [.perl false .space, .range '_' '_', .range '-' '-'])
      fun w => ∃ b, isSepByte b = true ∧ w = [b] := by
    refine means_class hU (by simp [Regexp.ClassItem.negated]) (fun b hb => (isSepByte_spec b).1 (.inl hb)) fun c => ?_
    have hbytes : ((9 ≤ c.toNat ∧ c.toNat ≤ 10 ∨ 12 ≤ c.toNat ∧ c.toNat ≤ 13 ∨ 32 ≤ c.toNat ∧ c.toNat ≤ 32) ∨
        95 ≤ c.toNat ∧ c.toNat ≤ 95 ∨ 45 ≤ c.toNat ∧ c.toNat ≤ 45) ↔ ∃ b, isSepByte b = true ∧ c = Char.ofNat b.toNat :=
      exists_byte_iff (P := fun n => (9 ≤ n ∧ n ≤ 10 ∨ 12 ≤ n ∧ n ≤ 13 ∨ 32 ≤ n ∧ n ≤ 32) ∨ 95 ≤ n ∧ n ≤ 95 ∨
        45 ≤ n ∧ n ≤ 45) (by omega) (fun b hb => ((isSepByte_spec b).1 (.inl hb)).1) (by decide) c
    rw [← hbytes]
    simp only [Regexp.ClassItem.Lists, Regexp.InRanges, Regexp.Perl.ranges, List.exists_mem_cons_iff, List.not_mem_nil,
      false_and, exists_false, or_false]
    rfl
  intro before w after
  rw [sepTree, means_repeat hclass 0 3, AtMost]
  simp

theorem groupMeans_index : GroupMeans U indexTree fun w g => (w ≠ [] ∧ AtMost 9 isDigit w) ∧ g = w := by
  have hclass : Means U (.charClass true false [.range '0' '9']) fun w => ∃ b, isDigit b = true ∧ w = [b] := by
    refine means_class hU (by simp [Regexp.ClassItem.negated]) (fun b hb => (isSepByte_spec b).1 (.inr hb)) fun c => ?_
    have hbytes : (48 ≤ c.toNat ∧ c.toNat ≤ 57) ↔ ∃ b, isDigit b = true ∧ c = Char.ofNat b.toNat :=
      exists_byte_iff (P := fun n => 48 ≤ n ∧ n ≤ 57) (by omega)
        (fun b hb => ((isSepByte_spec b).1 (.inr hb)).1) (by decide) c
    rw [← hbytes]
    simp only [Regexp.ClassItem.Lists, List.exists_mem_cons_iff, List.not_mem_nil, false_and, exists_false, or_false]
    rfl
  have hbody := means_cat (means_repeat hclass 1 9) (means_empty (U := U))
  intro before w after g
  rw [indexTree, groupMeans_capture hbody]
  constructor
  · rintro ⟨⟨x, y, rfl, ⟨hmin, hmax, hall⟩, rfl⟩, rfl⟩
    rw [List.append_nil]
    exact ⟨⟨List.ne_nil_of_length_pos hmin, hmax, hall⟩, rfl⟩
  · rintro ⟨⟨hne, hmax, hall⟩, rfl⟩
    exact ⟨⟨g, [], (List.append_nil g).symm, ⟨List.length_pos_iff.mpr hne, hmax, hall⟩, rfl⟩, rfl⟩

theorem groupMeans_token {token : Bytes} (htoken : ∀ c ∈ token, c < 0x80) {t : Tree} {R : Bytes → Bytes → Prop}
    (ht : GroupMeans U t R) :
    GroupMeans U (tokenTree token t) fun w g => ∃ x y, w = x ++ y ∧ UnicodeFold token x ∧ R y g := by
  induction token with
  | nil =>
    intro before w after g
    rw [tokenTree, List.foldr_nil, ht]
    constructor
    · exact fun h => ⟨[], w, rfl, .nil, h⟩
    · rintro ⟨_, y, rfl, ⟨⟩, h⟩
      exact h
  | cons c token ih =>
    intro before w after g
    have hrest := ih fun d hd => htoken d (List.mem_cons_of_mem _ hd)
    have hcat := groupMeans_cat rfl (means_literal hU (htoken c List.mem_cons_self)) hrest before w after g
    refine hcat.trans ⟨?_, ?_⟩
    · rintro ⟨x, _, rfl, hx, y, z, rfl, hy, hz⟩
      exact ⟨x ++ y, z, (List.append_assoc _ _ _).symm, .cons hx hy, hz⟩
    · rintro ⟨_, z, rfl, ⟨⟩, hz⟩
      rename_i x y hx hy
      exact ⟨x, y ++ z, List.append_assoc _ _ _, hx, y, z, rfl, hy, hz⟩

theorem groupMeans_tokens {tokens : List Bytes} (htokens : ∀ token ∈ tokens, ∀ c ∈ token, c < 0x80) {t : Tree}
    {R : Bytes → Bytes → Prop} (ht : GroupMeans U t R) :
    GroupMeans U (tokensTree tokens t) fun w g => ∃ x y, w = x ++ y ∧ TokenWords UnicodeFold tokens x ∧ R y g := by
  induction tokens with
  | nil =>
    intro before w after g
    rw [tokensTree, List.foldr_nil, ht]
    constructor
    · exact fun h => ⟨[], w, rfl, .nil, h⟩
    · rintro ⟨_, y, rfl, ⟨⟩, h⟩
      exact h
  | cons token tokens ih =>
    intro before w after g
    have hrest := groupMeans_cat rfl (means_sep hU) (ih fun t ht => htokens t (List.mem_cons_of_mem _ ht))
    refine (groupMeans_token hU (htokens token List.mem_cons_self) hrest before w after g).trans ⟨?_, ?_⟩
    · rintro ⟨x, _, rfl, hx, sep, _, rfl, hsep, y, z, rfl, hy, hz⟩
      exact ⟨x ++ (sep ++ y), z, by simp only [List.append_assoc], .cons hx hsep hy, hz⟩
    · rintro ⟨_, z, rfl, ⟨⟩, hz⟩
      rename_i x sep y hsep hx hy
      exact ⟨x, sep ++ (y ++ z), by simp only [List.append_assoc], hx, sep, y ++ z, rfl, hsep, y, z, rfl, hy, hz⟩

theorem means_angle {b : Byte} (hb : b < 0x80 ∧ Caseless b) : Means U (literalTree b) (· = [b]) := by
  intro before w after
  rw [means_literal hU hb.1, hb.2.foldsTo_iff]

/-- The words of the tree are the words of the template. -/
theorem groupMeans_template {name : Bytes} (hascii : ∀ c ∈ name, c < 0x80) :
    GroupMeans U (templateTree (splitOnUnderscore name)) (TemplateWord UnicodeFold name) := by
  have htokens : ∀ token ∈ splitOnUnderscore name, ∀ c ∈ token, c < 0x80 :=
    fun token ht c hc => hascii c (mem_splitOnUnderscore ht hc)
  have hclose := means_cat (means_angle hU (b := ch '>') (by decide)) means_empty
  have hindex := groupMeans_front (s := indexTree) Nat.one_pos (groupMeans_index hU) (means_cat (means_blank hU) hclose)
  have hwords := groupMeans_cat rfl (means_blank hU) (groupMeans_tokens hU htokens hindex)
  intro before w after g
  refine (groupMeans_cat rfl (means_angle hU (b := ch '<') (by decide)) hwords before w after g).trans ⟨?_, ?_⟩
  · rintro ⟨_, _, rfl, rfl, front, _, rfl, hfront, words, _, rfl, hwords, digits, _, rfl, ⟨⟨hne, hdigits⟩, rfl⟩, back, _, rfl,
      hback, _, _, rfl, rfl, rfl⟩
    exact .intro hfront hwords hne hdigits hback
  · rintro ⟨hfront, hwords, hne, hdigits, hback⟩
    rename_i front words back
    exact ⟨[ch '<'], _, rfl, rfl, front, _, rfl, hfront, words, _, rfl, hwords, g, _, rfl, ⟨⟨hne, hdigits⟩, rfl⟩, back, _, rfl,
      hback, [ch '>'], [], rfl, rfl, rfl⟩

end Parts

/-! ## The index of a word -/

set_option maxRecDepth 8192 in
theorem foldsTo_digits {c : Byte} {w : Bytes} (h : FoldsTo c w) : w.countP isDigit = [c].countP isDigit := by
  have hall : ∀ b : Byte, isDigit (asciiToLower b) = isDigit b := by decide
  rcases h with ⟨d, rfl, hlower⟩ | ⟨hs, rfl⟩ | ⟨hk, rfl⟩
  · rw [List.countP_singleton, List.countP_singleton, ← hall d, hlower, hall]
  · rw [List.countP_singleton, ← hall, hs]
    rfl
  · rw [List.countP_singleton, ← hall, hk]
    rfl

theorem countP_eq_zero_of_kind {n : Nat} {kind : Byte → Bool} {w : Bytes} (h : AtMost n kind w)
    (hkind : ∀ b, kind b = true → isDigit b = false) : w.countP isDigit = 0 := by
  rw [List.countP_eq_zero]
  intro b hb
  rw [hkind b (List.all_eq_true.mp h.2 b hb)]
  decide

theorem isSepByte_not_digit {b : Byte} (hb : isSepByte b = true) : isDigit b = false := by
  revert b
  set_option maxRecDepth 8192 in decide

theorem unicodeFold_digits {token w : Bytes} (h : UnicodeFold token w) : w.countP isDigit = token.countP isDigit := by
  induction h with
  | nil => rfl
  | @cons c w token words hc _ ih =>
    rw [List.countP_append, ih, foldsTo_digits hc, ← List.countP_append, List.singleton_append]

theorem tokenWords_digits {tokens : List Bytes} {w : Bytes} (h : TokenWords UnicodeFold tokens w) :
    w.countP isDigit = tokens.flatten.countP isDigit := by
  induction h with
  | nil => rfl
  | cons htoken hsep _ ih =>
    rw [List.countP_append, List.countP_append, unicodeFold_digits htoken,
      countP_eq_zero_of_kind hsep fun _ => isSepByte_not_digit, ih, List.flatten_cons, List.countP_append, Nat.zero_add]

theorem templateWord_unique {name w g g' : Bytes} (h : TemplateWord UnicodeFold name w g)
    (h' : TemplateWord UnicodeFold name w g') : g = g' := by
  have hblank : ∀ b : Byte, isBlankByte b = true → isDigit b = false := fun b hb =>
    isSepByte_not_digit ((isSepByte_spec b).2 hb)
  have hcount : ∀ {w g : Bytes}, TemplateWord UnicodeFold name w g →
      w.countP isDigit = (splitOnUnderscore name).flatten.countP isDigit + g.length := by
    rintro w g ⟨hfront, hwords, -, hdigits, hback⟩
    rw [List.countP_cons_of_neg (by decide), List.countP_append, List.countP_append, List.countP_append, List.countP_append,
      countP_eq_zero_of_kind hfront hblank, countP_eq_zero_of_kind hback hblank, tokenWords_digits hwords,
      List.countP_eq_length.mpr fun b hb => List.all_eq_true.mp hdigits.2 b hb,
      List.countP_cons_of_neg (by decide), List.countP_nil]
    omega
  have hlen : g.length = g'.length := by
    have := (hcount h).symm.trans (hcount h')
    omega
  -- Behind the index stand blanks up to the bracket.
  have hend : ∀ {w g : Bytes}, TemplateWord UnicodeFold name w g →
      ∃ back front d, w.reverse = ch '>' :: (back ++ d :: front) ∧ (∀ b ∈ back, isBlankByte b = true) ∧
        isBlankByte d = false ∧ g.reverse <+: d :: front := by
    rintro w g ⟨hfront, hwords, hne, hdigits, hback⟩
    rename_i front words back
    obtain ⟨g₀, d, rfl⟩ := List.eq_nil_or_concat g |>.resolve_left hne
    refine ⟨back.reverse, g₀.reverse ++ (words.reverse ++ (front.reverse ++ [ch '<'])), d, by simp, ?_, ?_, by simp⟩
    · exact fun b hb => List.all_eq_true.mp hback.2 b (List.mem_reverse.mp hb)
    · cases hd : isBlankByte d with
      | false => rfl
      | true =>
        have := List.all_eq_true.mp hdigits.2 d (by simp)
        rw [hblank d hd] at this
        cases this
  obtain ⟨back, front, d, hw, hback, hd, hg⟩ := hend h
  obtain ⟨back', front', d', hw', hback', hd', hg'⟩ := hend h'
  obtain ⟨-, rfl, rfl⟩ := Regexp.run_unique hback hback' hd hd' (List.cons.inj (hw.symm.trans hw')).2
  have hrev : g.reverse.length = g'.reverse.length := by rw [List.length_reverse, List.length_reverse, hlen]
  exact List.reverse_injective ((List.prefix_of_prefix_length_le hg hg' hrev.le).eq_of_length hrev)

/-! ## RE2 on the recognisers -/

/-- A match of the tree at a place of a text. -/
def MatchesAt (U : Regexp.Unicode) (t : Tree) (text : Bytes) (i j : Nat) : Prop :=
  Matches U t (text.take i) (slice text i j) (text.drop j)

/-- What RE2 documents of a search without an anchor, where it reads the pattern as the tree: it finds a match
that starts as far left as one can, and what a group holds is one of the group's rounds in the match. -/
structure RunsAs (U : Regexp.Unicode) (re2 : Re2) (re : Regex) (t : Tree) : Prop where
  reads : Regexp.Reads re t
  found : ∀ text pos g, re2.search re text pos = some g →
    pos ≤ g.whole.1 ∧ g.whole.1 ≤ g.whole.2 ∧ g.whole.2 ≤ text.length ∧ MatchesAt U t text g.whole.1 g.whole.2
  leftmost : ∀ text pos g, re2.search re text pos = some g →
    ∀ i j, pos ≤ i → i < g.whole.1 → i ≤ j → j ≤ text.length → ¬ MatchesAt U t text i j
  nothing : ∀ text pos, re2.search re text pos = none →
    ∀ i j, pos ≤ i → i ≤ j → j ≤ text.length → ¬ MatchesAt U t text i j
  holds : ∀ text pos g, re2.search re text pos = some g → ∀ n span, g.get (n + 1) = some span →
    Regexp.Captures U n t (text.take g.whole.1) (slice text g.whole.1 g.whole.2) (text.drop g.whole.2)
      (slice text span.1 span.2)
  sets : ∀ text pos g, re2.search re text pos = some g → ∀ n, t.passes n = true → (g.get (n + 1)).isSome

open Classical in
/-- The words of a pattern on their own, with what the first group holds. -/
noncomputable def treeSpelling (U : Regexp.Unicode) : Spelling := fun re w =>
  if h : ∃ g t, Regexp.Reads re t ∧ Regexp.Captures U 0 t [] w [] g then some h.choose else none

theorem treeSpelling_eq_some {U : Regexp.Unicode} {re w g : Bytes} (h : treeSpelling U re w = some g) :
    ∃ t, Regexp.Reads re t ∧ Regexp.Captures U 0 t [] w [] g := by
  unfold treeSpelling at h
  split at h
  · rename_i hex
    obtain rfl := Option.some.inj h
    exact hex.choose_spec
  · cases h

theorem treeSpelling_isSome {U : Regexp.Unicode} {re w g : Bytes} {t : Tree} (hre : Regexp.Reads re t)
    (h : Regexp.Captures U 0 t [] w [] g) : (treeSpelling U re w).isSome := by
  unfold treeSpelling
  rw [dif_pos ⟨g, t, hre, h⟩]
  rfl

theorem passes_tokensTree (tokens : List Bytes) {t : Tree} (h : t.passes 0 = true) :
    (tokensTree tokens t).passes 0 = true := by
  have htoken : ∀ (token : Bytes) (t : Tree), t.passes 0 = true → (tokenTree token t).passes 0 = true := by
    intro token t ht
    induction token with
    | nil => exact ht
    | cons c token ih => exact ih
  induction tokens with
  | nil => exact h
  | cons token tokens ih => exact htoken token _ ih

theorem passes_templateTree (tokens : List Bytes) : (templateTree tokens).passes 0 = true :=
  passes_tokensTree tokens (t := .cat indexTree (.cat blankTree (.cat (literalTree (ch '>')) .empty))) rfl

theorem TemplateWord.length_pos {fold : Bytes → Bytes → Prop} {name w g : Bytes} (h : TemplateWord fold name w g) :
    0 < w.length := by
  cases h
  exact Nat.succ_pos _

section Engine

variable {U : Regexp.Unicode} (hU : FoldsCases U) {re2 : Re2} (hquotes : QuotesAscii re2) {r : Rule}
  (hascii : ∀ c ∈ asciiTrim r.masking.placeholder, c < 0x80)

include hU hquotes hascii

theorem captures_recogniser {t : Tree} (hre : Regexp.Reads (recogniser re2 r) t) :
    GroupMeans U t (TemplateWord UnicodeFold (asciiTrim r.masking.placeholder)) ∧ t.passes 0 = true := by
  obtain rfl := hre.unique (reads_recogniser hquotes hascii)
  exact ⟨groupMeans_template hU hascii, passes_templateTree _⟩

theorem treeSpelling_iff {w g : Bytes} : treeSpelling U (recogniser re2 r) w = some g ↔
    TemplateWord UnicodeFold (asciiTrim r.masking.placeholder) w g := by
  have hsound : ∀ {g}, treeSpelling U (recogniser re2 r) w = some g →
      TemplateWord UnicodeFold (asciiTrim r.masking.placeholder) w g := by
    intro g h
    obtain ⟨t, hre, hcaptures⟩ := treeSpelling_eq_some h
    exact ((captures_recogniser hU hquotes hascii hre).1 _ _ _ _).mp hcaptures
  refine ⟨hsound, fun h => ?_⟩
  have hre := reads_recogniser hquotes hascii
  have hcaptures := ((captures_recogniser hU hquotes hascii hre).1 [] w [] g).mpr h
  obtain ⟨g', hg'⟩ := Option.isSome_iff_exists.mp (treeSpelling_isSome hre hcaptures)
  rw [hg', templateWord_unique (hsound hg') h]

theorem treeSpelling_none {t : Tree} (hre : Regexp.Reads (recogniser re2 r) t) {text : Bytes} {i j : Nat}
    (h : ¬ MatchesAt U t text i j) : treeSpelling U (recogniser re2 r) (slice text i j) = none := by
  cases hspell : treeSpelling U (recogniser re2 r) (slice text i j) with
  | none => rfl
  | some g =>
    have hword := (treeSpelling_iff hU hquotes hascii).mp hspell
    exact absurd (((captures_recogniser hU hquotes hascii hre).1 _ _ _ _).mpr hword).matches h

theorem finds_recogniser {t : Tree} (hruns : RunsAs U re2 (recogniser re2 r) t) :
    Finds re2 (recogniser re2 r) (treeSpelling U (recogniser re2 r)) := by
  obtain ⟨hmeans, hpasses⟩ := captures_recogniser hU hquotes hascii hruns.reads
  refine ⟨fun text pos g hg => ?_, fun text pos g hg i j hpos hlt hij hj => ?_, fun text pos hnone i j hpos hij hj => ?_⟩
  · obtain ⟨hpos, hle, hend, -⟩ := hruns.found text pos g hg
    obtain ⟨span, hspan⟩ := Option.isSome_iff_exists.mp (hruns.sets text pos g hg 0 hpasses)
    have hword := (hmeans _ _ _ _).mp (hruns.holds text pos g hg 0 span hspan)
    have hlen := hword.length_pos
    rw [Splice.slice_length text _ _ hend] at hlen
    exact ⟨hpos, by omega, hend, span, hspan, (treeSpelling_iff hU hquotes hascii).mpr hword⟩
  · exact treeSpelling_none hU hquotes hascii hruns.reads (hruns.leftmost text pos g hg i j hpos hlt hij hj)
  · exact treeSpelling_none hU hquotes hascii hruns.reads (hruns.nothing text pos hnone i j hpos hij hj)

end Engine

/-- What RE2 documents makes it read the recognisers as templates, where the names are ASCII. -/
theorem readsTemplates_of_runs {U : Regexp.Unicode} (hU : FoldsCases U) {re2 : Re2} (hquotes : QuotesAscii re2)
    {rules : List Rule} (hnames : ∀ r ∈ rules, ∀ c ∈ r.masking.placeholder, c < 0x80)
    (hruns : ∀ r ∈ rules, ∃ t, RunsAs U re2 (recogniser re2 r) t) :
    ReadsTemplates re2 UnicodeFold (treeSpelling U) rules := by
  have hascii : ∀ r ∈ rules, ∀ c ∈ asciiTrim r.masking.placeholder, c < 0x80 := fun r hr c hc =>
    hnames r hr c (mem_asciiTrim hc)
  refine ⟨unicodeFold_caseFold, fun r hr => ?_, fun r hr w digits h => ?_, fun r hr w digits h => ?_⟩
  · obtain ⟨t, ht⟩ := hruns r hr
    exact finds_recogniser hU hquotes (hascii r hr) ht
  · exact (treeSpelling_iff hU hquotes (hascii r hr)).mp h
  · rw [(treeSpelling_iff hU hquotes (hascii r hr)).mpr h]
    rfl

end LlmGuard
