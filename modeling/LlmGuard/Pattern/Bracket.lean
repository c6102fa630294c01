import LlmGuard.Lib.RegexpSyntax
import LlmGuard.Pattern.Grammar
import LlmGuard.Scanner.Decode

/-!
# Bracket expressions

RE2 and `parse_char_class` group the tokens of a bracket expression in different ways, but both end it at the same
bracket, unless a POSIX class stands in it. Then `parse_char_class` ends it at the bracket of that class.
-/

namespace LlmGuard

open Utf8 Regexp

/-! ## Tokens -/

inductive Token where
  | char (c : Char)
  | perl (negated : Bool)
  | property

inductive TokenText : Bytes → Token → Bytes → Prop
  | char {s s' : Bytes} {c : Char} : ClassChar s c s' → TokenText s (.char c) s'
  | perl {b : Byte} {negated : Bool} {p : Perl} {s : Bytes} : (b, negated, p) ∈ perls →
      TokenText (ch '\\' :: b :: s) (.perl negated) s
  | property {s s' : Bytes} {item : ClassItem} : PropertyText s item s' → TokenText (ch '\\' :: s) .property s'

/-- The tokens up to the closing bracket. -/
inductive TokensText : Bytes → List Token → Bytes → Prop
  | close {s : Bytes} : TokensText (ch ']' :: s) [] s
  | token {s s₁ s' : Bytes} {k : Token} {ks : List Token} : s.head? ≠ some (ch ']') → TokenText s k s₁ →
      TokensText s₁ ks s' → TokensText s (k :: ks) s'

/-- The tokens that spell an item. -/
def SpelledBy (ks : List Token) : ClassItem → Prop
  | .range lo hi => .char lo ∈ ks ∧ .char hi ∈ ks
  | .perl negated _ => .perl negated ∈ ks
  | .posix _ _ _ => False
  | .property _ _ => .property ∈ ks

theorem SpelledBy.mono {ks ks' : List Token} (h : ∀ k ∈ ks, k ∈ ks') {item : ClassItem} (hitem : SpelledBy ks item) :
    SpelledBy ks' item := by
  cases item with
  | range lo hi => exact ⟨h _ hitem.1, h _ hitem.2⟩
  | perl negated p => exact h _ hitem
  | posix negated p => exact hitem
  | property negated name => exact h _ hitem

theorem dash_text (s : Bytes) : ClassChar (ch '-' :: s) '-' s := .plain (c := '-') (by decide)

theorem TokensText.plain {w s s' : Bytes} {ks : List Token} (hw : ∀ b ∈ w, b < 0x80 ∧ b ≠ ch ']' ∧ b ≠ ch '\\')
    (h : TokensText s ks s') : ∃ front, TokensText (w ++ s) (front ++ ks) s' := by
  induction w with
  | nil => exact ⟨[], h⟩
  | cons b w ih =>
    obtain ⟨⟨hb, hclose, hescape⟩, hw⟩ := List.forall_mem_cons.mp hw
    obtain ⟨front, hfront⟩ := ih hw
    obtain ⟨c, hc, -⟩ := exists_one b hb
    refine ⟨.char c :: front, .token (fun h => hclose (Option.some.inj h)) (.char ?_) hfront⟩
    have hplain : ClassChar (encode c ++ (w ++ s)) c (w ++ s) := by
      refine .plain ?_
      rintro rfl
      exact hescape (List.cons.inj hc).1.symm
    rwa [hc, List.singleton_append] at hplain

/-- `parse_char_class` takes a POSIX class for tokens and a closing bracket. -/
theorem Posix.tokens (p : Posix) (s : Bytes) : (∃ ks, TokensText (ch ':' :: (p.name ++ ch ':' :: ch ']' :: s)) ks s) ∧
    ∃ ks, TokensText (ch ':' :: ch '^' :: (p.name ++ ch ':' :: ch ']' :: s)) ks s := by
  have hplain : ∀ b ∈ ch ':' :: ch '^' :: (p.name ++ [ch ':']), b < 0x80 ∧ b ≠ ch ']' ∧ b ≠ ch '\\' := by
    cases p <;> decide
  have hname : ∀ b ∈ ch ':' :: (p.name ++ [ch ':']), b < 0x80 ∧ b ≠ ch ']' ∧ b ≠ ch '\\' := fun b hb => by
    apply hplain b
    rcases List.mem_cons.mp hb with rfl | hb
    · exact List.mem_cons_self
    · exact List.mem_cons_of_mem _ (List.mem_cons_of_mem _ hb)
  constructor
  · obtain ⟨front, hfront⟩ := TokensText.plain hname (.close (s := s))
    simp only [List.cons_append, List.append_assoc, List.nil_append] at hfront
    exact ⟨_, hfront⟩
  · obtain ⟨front, hfront⟩ := TokensText.plain hplain (.close (s := s))
    simp only [List.cons_append, List.append_assoc, List.nil_append] at hfront
    exact ⟨_, hfront⟩

theorem ItemText.tokens {s s₁ s' : Bytes} {item : ClassItem} {ks : List Token} (h : ItemText s item s₁)
    (hhead : s.head? ≠ some (ch ']')) (hks : TokensText s₁ ks s') :
    (∃ front, TokensText s (front ++ ks) s' ∧ SpelledBy front item) ∨
      ∃ negated p, item = .posix negated p s₁ ∧ ∃ ks, TokensText s ks s₁ := by
  have hopen : ∀ {t}, ClassChar (ch '[' :: t) '[' t := fun {t} => .plain (c := '[') (by decide)
  cases h with
  | @posix p =>
    obtain ⟨⟨ks, hname⟩, -⟩ := Posix.tokens p s₁
    exact .inr ⟨false, p, rfl, _, .token hhead (.char hopen) hname⟩
  | @notPosix p =>
    obtain ⟨-, ks, hname⟩ := Posix.tokens p s₁
    exact .inr ⟨true, p, rfl, _, .token hhead (.char hopen) hname⟩
  | property hprop =>
    refine .inl ⟨[.property], .token hhead (.property hprop) hks, ?_⟩
    cases hprop <;> exact List.mem_singleton_self _
  | perl hperl => exact .inl ⟨[.perl _], .token hhead (.perl hperl) hks, List.mem_singleton_self _⟩
  | @char _ _ c _ hc _ =>
    exact .inl ⟨[.char c], .token hhead (.char hc) hks, List.mem_singleton_self _, List.mem_singleton_self _⟩
  | @range _ s₂ _ lo hi _ hlo hnext hhi _ =>
    refine .inl ⟨[.char lo, .char '-', .char hi], ?_, by simp, by simp⟩
    exact .token hhead (.char hlo) (.token (fun h => absurd (Option.some.inj h) (by decide)) (.char (dash_text s₂))
      (.token hnext (.char hhi) hks))

theorem ItemsText.tokens {first : Bool} {s s' : Bytes} {items : List ClassItem} (h : ItemsText first s items s')
    (hhead : first = true → s.head? ≠ some (ch ']')) :
    (∃ ks, TokensText s ks s' ∧ ∀ item ∈ items, SpelledBy ks item) ∨
      ∃ negated p behind, .posix negated p behind ∈ items ∧ ∃ ks, TokensText s ks behind := by
  induction h with
  | close => exact .inl ⟨[], .close, by simp⟩
  | @item first s s₁ s' item items hfirst hitem _ ih =>
    have hhead : s.head? ≠ some (ch ']') := hfirst.elim hhead id
    have hposix : (∃ negated p, item = .posix negated p s₁ ∧ ∃ ks, TokensText s ks s₁) →
        ∃ negated p behind, .posix negated p behind ∈ item :: items ∧ ∃ ks, TokensText s ks behind := by
      rintro ⟨negated, p, rfl, hks⟩
      exact ⟨negated, p, s₁, List.mem_cons_self, hks⟩
    rcases ih (by simp) with ⟨ks, hks, hspelled⟩ | ⟨negated, p, behind, hmem, ks, hks⟩
    · rcases ItemText.tokens hitem hhead hks with ⟨front, hfront, hspell⟩ | hend
      · refine .inl ⟨front ++ ks, hfront, fun i hi => ?_⟩
        rcases List.mem_cons.mp hi with rfl | hi
        · exact hspell.mono fun k hk => List.mem_append_left _ hk
        · exact (hspelled i hi).mono fun k hk => List.mem_append_right _ hk
      · exact .inr (hposix hend)
    · rcases ItemText.tokens hitem hhead hks with ⟨front, hfront, -⟩ | hend
      · exact .inr ⟨negated, p, behind, List.mem_cons_of_mem _ hmem, _, hfront⟩
      · exact .inr (hposix hend)

/-! ## What the code makes of a token -/

theorem consumeRune_encode {c : Char} {b : Byte} {s t : Bytes} (h : encode c ++ s = b :: t) :
    consumeRune b t = (encode c, s) := by
  have hlead : leadLength b = (encode c).length := by
    unfold leadLength
    rw [if_congr (and_E0 b) rfl rfl, if_congr (and_F0 b) rfl rfl, if_congr (and_F8 b) rfl rfl]
    rcases encode_cases c with ⟨hc, a, he, ha⟩ | ⟨hc, hc', a, x, he, ha, -⟩ | ⟨hc, hc', a, x, y, he, ha, -⟩ |
      ⟨hc, hc', a, x, y, z, he, ha, -⟩ <;> rw [he] at h ⊢ <;> rw [← (List.cons.inj h).1]
    · rw [if_neg (by omega), if_neg (by omega), if_neg (by omega), List.length_singleton]
    · rw [if_pos (by omega)]
      rfl
    · rw [if_neg (by omega), if_pos (by omega)]
      rfl
    · rw [if_neg (by omega), if_neg (by omega), if_pos (by omega)]
      rfl
  have hpos := encode_pos c
  have htake : (b :: t).take (leadLength b) = encode c := by rw [← h, hlead, List.take_left]
  have hdrop : (b :: t).drop (leadLength b) = s := by rw [← h, hlead, List.drop_left]
  rw [← hlead] at hpos
  obtain ⟨n, hn⟩ := Nat.exists_eq_add_of_le' hpos
  unfold consumeRune
  rw [hn] at htake hdrop ⊢
  rw [Nat.add_sub_cancel, ← htake, ← hdrop, List.take_succ_cons, List.drop_succ_cons]

theorem consumeRune_self {b : Byte} {c : Char} (hb : b < 0x80) (hc : c.toNat = b.toNat) (s : Bytes) :
    consumeRune b s = (encode c, s) :=
  consumeRune_encode (by rw [encode_of_ascii hb hc, List.singleton_append])

/-- What an action makes of the escapes that may stand in a bracket expression. -/
structure Escapes {α : Type} (A : Actions α) (blind : α → Prop) (perl : Bool → α) : Prop where
  char : ∀ {fold s c s' x rest}, EscapedChar s c s' → parseEscape A fold s = .ok (x, rest) →
    rest = s' ∧ (x = A.literal (encode c) fold ∨ blind x)
  perl : ∀ {fold b negated p s x rest}, (b, negated, p) ∈ perls → A.escape fold b s = .ok (x, rest) →
    rest = s ∧ x = perl negated
  property : ∀ {fold s item s' x rest}, PropertyText s item s' → parseEscape A fold s = .ok (x, rest) →
    rest = s' ∧ blind x

section Members

variable {α : Type} {A : Actions α} {blind : α → Prop} {perl : Bool → α} {fold : Bool}

/-- What stands for a token. -/
def TokenValue (A : Actions α) (blind : α → Prop) (perl : Bool → α) (fold : Bool) : Token → α → Prop
  | .char c, x => x = A.literal (encode c) fold ∨ blind x
  | .perl negated, x => x = perl negated
  | .property, x => blind x

theorem classMember_token (hA : Escapes A blind perl) {b : Byte} {s s' rest : Bytes} {k : Token} {x : α}
    (htext : TokenText (b :: s) k s') (h : classMember A fold b s = .ok (x, rest)) :
    rest = s' ∧ TokenValue A blind perl fold k x := by
  unfold classMember at h
  generalize hs : b :: s = text at htext
  cases htext with
  | char hchar =>
    cases hchar with
    | @plain c s' hc =>
      rw [if_neg] at h
      · rw [consumeRune_encode hs.symm] at h
        obtain ⟨rfl, rfl⟩ := Prod.mk.inj (Except.ok.inj h)
        exact ⟨rfl, .inl rfl⟩
      · rintro rfl
        exact hc (encode_injective (d := '\\') (encode_ascii_front hs.symm (by decide)).1)
    | escaped hc =>
      obtain ⟨rfl, rfl⟩ := List.cons.inj hs
      rw [if_pos rfl] at h
      exact hA.char hc h
  | perl hperl =>
    obtain ⟨rfl, rfl⟩ := List.cons.inj hs
    rw [if_pos rfl] at h
    exact hA.perl hperl h
  | property hprop =>
    obtain ⟨rfl, rfl⟩ := List.cons.inj hs
    rw [if_pos rfl] at h
    exact hA.property hprop h

theorem TokenText.of_dash {s s' : Bytes} {k : Token} (h : TokenText (ch '-' :: s) k s') : k = .char '-' ∧ s' = s := by
  generalize hs : ch '-' :: s = text at h
  cases h with
  | char hchar =>
    cases hchar with
    | plain hc =>
      obtain ⟨he, rfl⟩ := encode_ascii_front hs.symm (by decide)
      rw [encode_injective (d := '-') he]
      exact ⟨rfl, rfl⟩
    | escaped hc => exact absurd (List.cons.inj hs).1 (by decide)
  | perl hperl => exact absurd (List.cons.inj hs).1 (by decide)
  | property hprop => exact absurd (List.cons.inj hs).1 (by decide)

/-- The members stand for the tokens. Some dashes are left out. -/
structure StandsFor (A : Actions α) (blind : α → Prop) (perl : Bool → α) (fold : Bool) (ks : List Token) (xs : List α) :
    Prop where
  sound : ∀ x ∈ xs, ∃ k ∈ ks, TokenValue A blind perl fold k x
  complete : ∀ k ∈ ks, k = .char '-' ∨ ∃ x ∈ xs, TokenValue A blind perl fold k x
  nonempty : ks ≠ [] → xs ≠ []

theorem StandsFor.nil : StandsFor A blind perl fold [] [] := ⟨by simp, by simp, fun h => absurd rfl h⟩

theorem StandsFor.cons {k : Token} {x : α} {ks : List Token} {xs : List α} (hx : TokenValue A blind perl fold k x)
    (h : StandsFor A blind perl fold ks xs) : StandsFor A blind perl fold (k :: ks) (x :: xs) where
  sound y hy := by
    rcases List.mem_cons.mp hy with rfl | hy
    · exact ⟨k, List.mem_cons_self, hx⟩
    · obtain ⟨k', hk', hy⟩ := h.sound y hy
      exact ⟨k', List.mem_cons_of_mem _ hk', hy⟩
  complete k' hk' := by
    rcases List.mem_cons.mp hk' with rfl | hk'
    · exact .inr ⟨x, List.mem_cons_self, hx⟩
    · apply (h.complete k' hk').imp_right
      rintro ⟨y, hy, hvalue⟩
      exact ⟨y, List.mem_cons_of_mem _ hy, hvalue⟩
  nonempty _ := List.cons_ne_nil _ _

theorem StandsFor.dash {ks : List Token} {xs : List α} (hxs : xs ≠ []) (h : StandsFor A blind perl fold ks xs) :
    StandsFor A blind perl fold (.char '-' :: ks) xs where
  sound x hx := by
    obtain ⟨k, hk, hvalue⟩ := h.sound x hx
    exact ⟨k, List.mem_cons_of_mem _ hk, hvalue⟩
  complete k hk := by
    rcases List.mem_cons.mp hk with rfl | hk
    · exact .inl rfl
    · exact h.complete k hk
  nonempty _ := hxs

theorem classLoop_tokens (hA : Escapes A blind perl) {fuel : Nat} {s s' rest : Bytes} {ks : List Token} {xs : List α}
    (htext : TokensText s ks s') (h : classLoop A fold fuel s = .ok (xs, rest)) :
    rest = s' ∧ StandsFor A blind perl fold ks xs := by
  induction fuel generalizing s ks xs with
  | zero => cases h
  | succ fuel ih =>
    cases htext with
    | close =>
      unfold classLoop at h
      rw [if_pos rfl] at h
      obtain ⟨rfl, rfl⟩ := Prod.mk.inj (Except.ok.inj h)
      exact ⟨rfl, .nil⟩
    | @token _ s₁ _ k ks hhead hk hks =>
      cases s with
      | nil => cases h
      | cons c s =>
        unfold classLoop at h
        rw [if_neg fun hc => hhead (by rw [hc]; rfl)] at h
        obtain ⟨⟨m, s₁'⟩, hm, h⟩ := bind_eq_ok.mp h
        obtain ⟨rfl, hvalue⟩ := classMember_token hA hk hm
        simp only at h
        split at h
        · rename_i dash d t
          split at h
          · rename_i hdash
            simp only [Bool.and_eq_true, decide_eq_true_eq] at hdash
            obtain ⟨rfl, hd⟩ := hdash
            obtain ⟨⟨hi, s₂⟩, hhi, h⟩ := bind_eq_ok.mp h
            obtain ⟨⟨ms, s₃⟩, hms, h⟩ := bind_eq_ok.mp h
            obtain ⟨rfl, rfl⟩ := Prod.mk.inj (Except.ok.inj h)
            cases hks with
            | token _ hdash hks =>
              obtain ⟨rfl, rfl⟩ := hdash.of_dash
              cases hks with
              | close => exact absurd rfl hd
              | token _ hk' hks =>
                obtain ⟨rfl, hhi⟩ := classMember_token hA hk' hhi
                obtain ⟨rfl, hms⟩ := ih hks hms
                have hrest := hms.cons hhi
                exact ⟨rfl, (hrest.dash (List.cons_ne_nil _ _)).cons hvalue⟩
          · obtain ⟨⟨ms, s₃⟩, hms, h⟩ := bind_eq_ok.mp h
            obtain ⟨rfl, rfl⟩ := Prod.mk.inj (Except.ok.inj h)
            obtain ⟨rfl, hms⟩ := ih hks hms
            exact ⟨rfl, hms.cons hvalue⟩
        · obtain ⟨⟨ms, s₃⟩, hms, h⟩ := bind_eq_ok.mp h
          obtain ⟨rfl, rfl⟩ := Prod.mk.inj (Except.ok.inj h)
          obtain ⟨rfl, hms⟩ := ih hks hms
          exact ⟨rfl, hms.cons hvalue⟩

/-- Both read the same bracket expression, or `parse_char_class` ends it behind a POSIX class. -/
theorem parseCharClass_aligned (hA : Escapes A blind perl) {s s' rest : Bytes} {negated : Bool}
    {items : List ClassItem} {x : α} (htext : ClassText s negated items s') (h : parseCharClass A fold s = .ok (x, rest)) :
    (rest = s' ∧ ∃ ks xs, x = A.charClass negated xs ∧ xs ≠ [] ∧ StandsFor A blind perl fold ks xs ∧
      ∀ item ∈ items, SpelledBy ks item) ∨ ∃ excluded p, .posix excluded p rest ∈ items := by
  have hbody : ∀ {s fuel}, ItemsText true s items s' →
      (classLoop A fold fuel s >>= fun p => if p.1.isEmpty then Except.error ParseFailure.refused
        else Except.ok (A.charClass negated p.1, p.2)) = .ok (x, rest) →
      (rest = s' ∧ ∃ ks xs, x = A.charClass negated xs ∧ xs ≠ [] ∧ StandsFor A blind perl fold ks xs ∧
        ∀ item ∈ items, SpelledBy ks item) ∨ ∃ excluded p, .posix excluded p rest ∈ items := by
    intro s fuel hitems h
    obtain ⟨⟨ms, s₁⟩, hms, h⟩ := bind_eq_ok.mp h
    simp only at h
    split at h
    · cases h
    rename_i hne
    have hhead : s.head? ≠ some (ch ']') := by
      intro hhead
      obtain ⟨t, rfl⟩ := List.head?_eq_some_iff.mp hhead
      cases fuel with
      | zero => cases hms
      | succ fuel =>
        unfold classLoop at hms
        rw [if_pos rfl] at hms
        rw [← (Prod.mk.inj (Except.ok.inj hms)).1] at hne
        exact hne rfl
    rcases ItemsText.tokens hitems fun _ => hhead with ⟨ks, hks, hspelled⟩ | ⟨excluded, p, behind, hmem, ks, hks⟩
    · obtain ⟨rfl, hfor⟩ := classLoop_tokens hA hks hms
      obtain ⟨rfl, rfl⟩ := Prod.mk.inj (Except.ok.inj h)
      exact .inl ⟨rfl, ks, ms, rfl, by simpa using hne, hfor, hspelled⟩
    · obtain ⟨rfl, -⟩ := classLoop_tokens hA hks hms
      obtain ⟨-, rfl⟩ := Prod.mk.inj (Except.ok.inj h)
      exact .inr ⟨excluded, p, hmem⟩
  unfold parseCharClass at h
  cases htext with
  | plain hhead hitems =>
    cases s with
    | nil =>
      simp only at h
      exact hbody hitems h
    | cons c s =>
      rw [List.head?_cons] at hhead
      simp only [if_neg fun hc : c = ch '^' => hhead (congrArg some hc)] at h
      exact hbody hitems h
  | negated hitems =>
    simp only [if_pos] at h
    exact hbody hitems h

end Members

end LlmGuard
