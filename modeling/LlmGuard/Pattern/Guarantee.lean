import LlmGuard.Code.Prefilter
import LlmGuard.Pattern.Halts
import LlmGuard.Scanner.Lower
import LlmGuard.Spec.Sample
import Mathlib.Data.List.Forall2

/-!
# The keyword prover

A node says what a match looks like: a literal, parts in a row, one of several. The prover finds a keyword in every
word that looks so.
-/

namespace LlmGuard

open Utf8

/-! ## What a node says -/

def chars (cs : List Char) : Bytes := cs.flatMap encode

/-- The word spells the literal, in any case where case does not count. -/
def Spells (U : Regexp.Unicode) (literal : Bytes) (fold : Bool) (w : Bytes) : Prop :=
  ∃ cs ds, literal = chars cs ∧ w = chars ds ∧ List.Forall₂ (Regexp.Same U fold) cs ds

/-- A part of the word between two boundaries. -/
def Within (P : Bytes → Prop) (w : Bytes) : Prop := ∃ a x b, w = a ++ (x ++ b) ∧ Text a ∧ Text x ∧ Text b ∧ P x

mutual

def Allows (U : Regexp.Unicode) : Node → Bytes → Prop
  | .literal literal fold, w => Spells U literal fold w
  | .concat children, w => AllowsRow U children w
  | .alternate children, w => AllowsSome U children w
  | .capture child, w => Allows U child w
  | .repeat min child, w => 1 ≤ min → Within (Allows U child) w
  | .unsupported, _ => True

def AllowsRow (U : Regexp.Unicode) : List Node → Bytes → Prop
  | [], w => w = []
  | child :: children, w => ∃ x y, w = x ++ y ∧ Text x ∧ Text y ∧ Allows U child x ∧ AllowsRow U children y

def AllowsSome (U : Regexp.Unicode) : List Node → Bytes → Prop
  | [], _ => False
  | child :: children, w => Allows U child w ∨ AllowsSome U children w

end

/-- Every match is a text as the node says. -/
def Describes (U : Regexp.Unicode) (node : Node) (t : Regexp.Tree) : Prop :=
  ∀ {before w after}, Regexp.Matches U t before w after → Text w ∧ Allows U node w

theorem text_chars (cs : List Char) : Text (chars cs) := by
  induction cs with
  | nil => exact .nil
  | cons c cs ih => exact .char c ih

theorem Within.self {P : Bytes → Prop} {w : Bytes} (hw : Text w) (h : P w) : Within P w :=
  ⟨[], w, [], by simp, .nil, hw, .nil, h⟩

theorem Within.append {P : Bytes → Prop} {w s : Bytes} (h : Within P w) (hs : Text s) : Within P (w ++ s) := by
  obtain ⟨a, x, b, rfl, ha, hx, hb, h⟩ := h
  exact ⟨a, x, b ++ s, by simp, ha, hx, hb.append hs, h⟩

theorem Spells.append {U : Regexp.Unicode} {l l' : Bytes} {fold : Bool} {w w' : Bytes} (h : Spells U l fold w)
    (h' : Spells U l' fold w') : Spells U (l ++ l') fold (w ++ w') := by
  obtain ⟨cs, ds, rfl, rfl, hsame⟩ := h
  obtain ⟨cs', ds', rfl, rfl, hsame'⟩ := h'
  exact ⟨cs ++ cs', ds ++ ds', by simp [chars], by simp [chars], List.rel_append hsame hsame'⟩

theorem Spells.text {U : Regexp.Unicode} {l : Bytes} {fold : Bool} {w : Bytes} (h : Spells U l fold w) : Text w := by
  obtain ⟨-, ds, -, rfl, -⟩ := h
  exact text_chars ds

/-! ## Concatenations -/

/-- The literal run that is still open. -/
def Pending (U : Regexp.Unicode) : Option (Bytes × Bool) → Bytes → Prop
  | none, w => w = []
  | some (l, fold), w => Spells U l fold w

theorem mergeLiterals_other {x : Node} {quantified : Bool} (hx : quantified = true ∨ ∀ l f, x ≠ .literal l f)
    (pending : Option (Bytes × Bool)) (ps : List (Node × Bool)) :
    mergeLiterals pending ((x, quantified) :: ps) =
      mergeLiterals pending [] ++ x :: mergeLiterals none ps := by
  cases pending with
  | none =>
    cases x with
    | literal l f =>
      cases quantified with
      | true => rfl
      | false =>
        rcases hx with h | h
        · cases h
        · exact absurd rfl (h l f)
    | _ => rfl
  | some p =>
    obtain ⟨l', f'⟩ := p
    cases x with
    | literal l f =>
      cases quantified with
      | true => rfl
      | false =>
        rcases hx with h | h
        · cases h
        · exact absurd rfl (h l f)
    | _ => rfl

section Row

variable {U : Regexp.Unicode}

theorem AllowsRow.flush {pending : Option (Bytes × Bool)} {w s : Bytes} {children : List Node} (h : Pending U pending w)
    (hs : Text s) (hrow : AllowsRow U children s) : AllowsRow U (mergeLiterals pending [] ++ children) (w ++ s) := by
  cases pending with
  | none =>
    rw [show w = [] from h]
    exact hrow
  | some p => exact ⟨w, s, rfl, Spells.text h, hs, h, hrow⟩

theorem AllowsRow.piece {pending : Option (Bytes × Bool)} {w x s : Bytes} {node : Node} {quantified : Bool}
    {ps : List (Node × Bool)} (h : Pending U pending w) (hx : Text x) (hnode : Allows U node x) (hs : Text s)
    (hrow : ∀ {pending w}, Pending U pending w → AllowsRow U (mergeLiterals pending ps) (w ++ s)) :
    AllowsRow U (mergeLiterals pending ((node, quantified) :: ps)) (w ++ (x ++ s)) := by
  by_cases hother : quantified = true ∨ ∀ l f, node ≠ .literal l f
  · rw [mergeLiterals_other hother]
    refine AllowsRow.flush h (hx.append hs) ⟨x, s, rfl, hx, hs, hnode, ?_⟩
    exact @hrow none [] rfl
  · push Not at hother
    obtain ⟨hq, l, f, rfl⟩ := hother
    obtain rfl : quantified = false := by simpa using hq
    cases pending with
    | none =>
      rw [show w = [] from h]
      exact @hrow (some (l, f)) x hnode
    | some p =>
      obtain ⟨l', f'⟩ := p
      simp only [mergeLiterals]
      split
      · rename_i hf
        subst hf
        rw [← List.append_assoc]
        exact @hrow (some (l' ++ l, f')) (w ++ x) (Spells.append h hnode)
      · exact ⟨w, x ++ s, rfl, Spells.text h, hx.append hs, h, @hrow (some (l, f)) x hnode⟩

theorem repeat_text {t : Regexp.Tree} (ht : ∀ {before w after}, Regexp.Matches U t before w after → Text w) {apart : Bool}
    {min : Nat} {max : Option Nat} {before w after : Bytes}
    (h : Regexp.Matches U (.repeat apart min max t) before w after) : Text w := by
  generalize htree : Regexp.Tree.repeat apart min max t = tree at h
  induction h generalizing min max with
  | stop => exact .nil
  | more _ hx _ _ ih =>
    obtain ⟨rfl, rfl, rfl, rfl⟩ := Regexp.Tree.repeat.inj htree
    exact (ht hx).append (ih rfl)
  | _ => cases htree

theorem TextTree.text {t : Regexp.Tree} (h : TextTree t) {before w after : Bytes}
    (hw : Regexp.Matches U t before w after) : Text w := by
  have hliteral : ∀ {fold c before w after}, Regexp.Matches U (.literal fold c) before w after → Text w := by
    rintro fold c before w after ⟨⟩
    exact Text.encode _
  cases h with
  | literal => exact hliteral hw
  | brace =>
    cases hw
    exact Text.encode _
  | «repeat» => exact repeat_text hliteral hw

theorem Behind.matches {v u : Regexp.Tree} (h : Behind v u) {before w after : Bytes}
    (hw : Regexp.Matches U v before w after) :
    ∃ x y before', w = x ++ y ∧ Text x ∧ Regexp.Matches U u before' y after := by
  induction h generalizing before w with
  | refl => exact ⟨[], w, before, rfl, .nil, hw⟩
  | text ht _ ih =>
    cases hw with
    | cat hx hy =>
      obtain ⟨x, y, before', rfl, htext, hy⟩ := ih hy
      exact ⟨_, y, before', (List.append_assoc _ _ _).symm, (ht.text hx).append htext, hy⟩

theorem Allows.counted {q : Quantifier} {node : Node} {x s : Bytes} (hx : Text x) (hs : Text s) (h : Allows U node x) :
    Allows U (quantifiedNode q node) (x ++ s) := by
  have hrepeat : ∀ n, Allows U (.repeat n node) (x ++ s) := fun n _ => (Within.self hx h).append hs
  cases q <;> exact hrepeat _

theorem describes_row {leaf : Regexp.Tree → Prop} {ps : List (Node × Bool)} {u : Regexp.Tree}
    (h : Strung nodeActions leaf (· = .unsupported) (Describes U) ps u)
    {before s after : Bytes} (hs : Regexp.Matches U u before s after) :
    Text s ∧ ∀ {pending w}, Pending U pending w → AllowsRow U (mergeLiterals pending ps) (w ++ s) := by
  induction h generalizing before s with
  | nil =>
    cases hs
    refine ⟨.nil, fun {pending w} h => ?_⟩
    have hflush : AllowsRow U (mergeLiterals pending [] ++ []) (w ++ []) := AllowsRow.flush h .nil rfl
    rwa [List.append_nil] at hflush
  | piece hx _ ih =>
    cases hs with
    | cat hmatch hrest =>
      obtain ⟨htext, hnode⟩ := hx hmatch
      obtain ⟨hs, hrow⟩ := ih hrest
      exact ⟨htext.append hs, fun h => AllowsRow.piece h htext hnode hs hrow⟩
  | setter hx _ ih =>
    subst hx
    obtain ⟨hs, hrow⟩ := ih hs
    exact ⟨hs, fun h => AllowsRow.piece h .nil trivial hs hrow⟩
  | quote _ ih =>
    cases hs with
    | quote hs => exact ih hs
  | count hx _ _ hbehind _ ih =>
    cases hs with
    | cat hmatch hrest =>
      obtain ⟨htext, hnode⟩ := hx hmatch
      obtain ⟨y, z, before', rfl, hy, hrest⟩ := hbehind.matches hrest
      obtain ⟨hz, hrow⟩ := ih hrest
      refine ⟨htext.append (hy.append hz), fun h => ?_⟩
      rw [← List.append_assoc _ y z]
      exact AllowsRow.piece h (htext.append hy) (Allows.counted htext hy hnode) hz hrow
  | setterCount hx _ _ hbehind _ ih =>
    subst hx
    obtain ⟨y, z, before', rfl, hy, hrest⟩ := hbehind.matches hs
    obtain ⟨hz, hrow⟩ := ih hrest
    refine ⟨hy.append hz, fun h => ?_⟩
    exact AllowsRow.piece h hy (@Allows.counted U _ _ [] y .nil hy trivial) hz hrow

theorem describes_concat {leaf : Regexp.Tree → Prop} {ps : List (Node × Bool)} {u : Regexp.Tree}
    (h : Strung nodeActions leaf (· = .unsupported) (Describes U) ps u) : Describes U (concatNode ps) u := by
  intro before w after hw
  obtain ⟨htext, hrow⟩ := describes_row h hw
  have hrow : AllowsRow U (mergeLiterals none ps) w := @hrow none [] rfl
  refine ⟨htext, ?_⟩
  unfold concatNode
  split
  · rename_i hnil
    rw [hnil] at hrow
    exact ⟨[], [], rfl, hrow, .nil⟩
  · rename_i child hone
    rw [hone] at hrow
    obtain ⟨x, y, rfl, -, -, hchild, rfl⟩ := hrow
    rwa [List.append_nil]
  · exact hrow

theorem describes_alternation {x : Node} {xs : List Node} {t : Regexp.Tree} (h : Branched (Describes U) x xs t) :
    Describes U (nodeActions.alternation x xs) t := by
  have hsome : ∀ {x xs t}, Branched (Describes U) x xs t → ∀ {before w after}, Regexp.Matches U t before w after →
      Text w ∧ AllowsSome U (x :: xs) w := by
    intro x xs t h
    induction h with
    | one hx => exact fun hw => (hx hw).imp_right .inl
    | more hx _ ih =>
      intro before w after hw
      cases hw with
      | left hw => exact (hx hw).imp_right .inl
      | right hw => exact (ih hw).imp_right .inr
  intro before w after hw
  cases h with
  | one hx => exact hx hw
  | more hx hmore => exact hsome (.more hx hmore) hw

/-! ## Repetitions -/

theorem digits_zero {ds : Bytes} {v : Nat} (h : ds.foldl (fun v b => 10 * v + (b.toNat - 48)) v = 0) :
    v = 0 ∧ ∀ d ∈ ds, d.toNat - 48 = 0 := by
  induction ds generalizing v with
  | nil => exact ⟨h, by simp⟩
  | cons d ds ih =>
    obtain ⟨hv, hds⟩ := ih h
    have hv : 10 * v + (d.toNat - 48) = 0 := hv
    exact ⟨by omega, List.forall_mem_cons.mpr ⟨by omega, hds⟩⟩

theorem digitsVal_pos {ds : Bytes} (h : 1 ≤ repeatMin ds) : 1 ≤ digitsVal ds := by
  by_contra hzero
  have hdigits : ∀ d ∈ ds, d.toNat - 48 = 0 := (digits_zero (v := 0) (by unfold digitsVal at hzero; omega)).2
  have hall : ∀ {ds : Bytes}, (∀ d ∈ ds, d.toNat - 48 = 0) →
      ds.foldl (fun min d => (min * 10 + (d.toNat - 48)) % (sizeMax + 1)) 0 = 0 := by
    intro ds hds
    induction ds with
    | nil => rfl
    | cons d ds ih =>
      obtain ⟨hd, hds⟩ := List.forall_mem_cons.mp hds
      rw [List.foldl_cons, hd]
      exact ih hds
  have hmin : repeatMin ds = 0 := hall hdigits
  omega

theorem describes_quantified {q : Quantifier} {min : Nat} {max : Option Nat} {x : Node} {t : Regexp.Tree}
    (hq : Counts q min max) (hx : Describes U x t) : Describes U (quantifiedNode q x) (.repeat false min max t) := by
  intro before w after hw
  have htext : Text w := repeat_text (fun h => (hx h).1) hw
  have hrepeat : ∀ {n}, (1 ≤ n → 1 ≤ min) → Text w ∧ Allows U (.repeat n x) w := by
    refine fun {n} hn => ⟨htext, fun hpos => ?_⟩
    have hmin := hn hpos
    cases hw with
    | stop => cases hmin
    | more _ hfirst hrest =>
      obtain ⟨hfirst, hallows⟩ := hx hfirst
      exact (Within.self hfirst hallows).append (repeat_text (fun h => (hx h).1) hrest)
  cases hq with
  | star => exact hrepeat fun h => h
  | plus => exact hrepeat fun h => h
  | quest => exact hrepeat fun h => h
  | exactly _ => exact hrepeat digitsVal_pos
  | atLeast _ => exact hrepeat digitsVal_pos
  | between _ _ => exact hrepeat digitsVal_pos

end Row

/-! ## Escapes -/

set_option maxRecDepth 8192 in
theorem hexValue_digit {d : Byte} : (Regexp.hexValue d).isSome = true → isXDigit d = true := by
  revert d
  decide

theorem hexNumber_digits {ds : Bytes} {v : Nat} (h : Regexp.hexNumber ds = some v) :
    ds ≠ [] ∧ ∀ d ∈ ds, isXDigit d = true := by
  have hall : ∀ {ds : Bytes} {v r : Nat}, ds.foldlM (fun v d => (Regexp.hexValue d).map (16 * v + ·)) v = some r →
      ∀ d ∈ ds, isXDigit d = true := by
    intro ds
    induction ds with
    | nil => simp
    | cons d ds ih =>
      intro v r h
      rw [List.foldlM_cons] at h
      obtain ⟨v', hv', h⟩ := Option.bind_eq_some_iff.mp h
      obtain ⟨n, hn, -⟩ := Option.map_eq_some_iff.mp hv'
      exact List.forall_mem_cons.mpr ⟨hexValue_digit (by rw [hn]; rfl), ih h⟩
  cases ds with
  | nil => cases h
  | cons d ds => exact ⟨List.cons_ne_nil _ _, hall h⟩

theorem skipBraced_text {w s : Bytes} (hw : ch '\x7d' ∉ w) : skipBraced (w ++ ch '\x7d' :: s) = .ok s := by
  unfold skipBraced
  have hdrop : (w ++ ch '\x7d' :: s).dropWhile (· ≠ ch '\x7d') = ch '\x7d' :: s := by
    rw [List.dropWhile_append_of_pos, List.dropWhile_cons_of_neg (by simp)]
    exact fun b hb => decide_eq_true fun hc => hw (hc ▸ hb)
  rw [hdrop]

theorem skipProperty_text {b : Byte} {s s' : Bytes} {item : Regexp.ClassItem} (h : Regexp.PropertyText (b :: s) item s') :
    (b = ch 'p' ∨ b = ch 'P') ∧ skipProperty s = .ok s' := by
  cases h with
  | letter hb hc =>
    refine ⟨hb, if_neg ?_⟩
    rintro rfl
    exact absurd hc.2 (by decide)
  | braced hb hname _ => exact ⟨hb, skipBraced_text hname⟩
  | @excluded _ name _ hb hname =>
    have hname' : ch '\x7d' ∉ ch '^' :: name := fun h => (List.mem_cons.mp h).elim (by decide) hname
    have hskip : skipBraced ((ch '^' :: name) ++ ch '\x7d' :: s') = .ok s' := skipBraced_text hname'
    exact ⟨hb, hskip⟩

set_option maxRecDepth 8192 in
theorem escape_self {b : Byte} : Regexp.wordByte b = false ∨ b = ch '_' → isPerlEscape b = false ∧ controlEscape b = none ∧
    (b = ch 'p' || b = ch 'P') = false ∧ b ≠ ch 'x' ∧ isOctal b = false ∧ isAlphanumeric b = false := by
  revert b
  decide

set_option maxRecDepth 8192 in
theorem escape_octal {b : Byte} : Regexp.octal b = true → isPerlEscape b = false ∧ controlEscape b = none ∧
    (b = ch 'p' || b = ch 'P') = false ∧ b ≠ ch 'x' := by
  revert b
  decide

theorem take_octal {ds s : Bytes} (hds : ∀ d ∈ ds, isOctal d = true) (hlen : ds.length ≤ 2)
    (hnext : ds.length < 2 → ∀ b ∈ s.head?, isOctal b = false) : ((ds ++ s).take 2).takeWhile isOctal = ds := by
  have hend : (s.take (2 - ds.length)).takeWhile isOctal = [] := by
    by_cases hfull : 2 - ds.length = 0
    · rw [hfull, List.take_zero, List.takeWhile_nil]
    · cases s with
      | nil => rw [List.take_nil, List.takeWhile_nil]
      | cons b s =>
        have hb : isOctal b = false := hnext (by omega) b rfl
        obtain ⟨k, hk⟩ := Nat.exists_eq_succ_of_ne_zero hfull
        rw [hk, List.take_succ_cons, List.takeWhile_cons_of_neg (by rw [hb]; decide)]
  rw [List.take_append, List.take_of_length_le hlen, List.takeWhile_append_of_pos hds, hend, List.append_nil]

theorem nodeActions_escapes : Escapes nodeActions (· = .unsupported) fun _ => .unsupported where
  char {fold s c s' x rest} hchar h := by
    cases hchar with
    | @self b c s hb hword hc =>
      obtain ⟨hperl, hcontrol, hp, hx, hoctal, halnum⟩ := escape_self hword
      simp only [parseEscape, nodeActions, escapeNode, hperl, hcontrol, hp, if_neg hx, hoctal, halnum,
        consumeRune_self hb hc] at h
      obtain ⟨rfl, rfl⟩ := Prod.mk.inj (Except.ok.inj h)
      exact ⟨rfl, .inl rfl⟩
    | control hb =>
      have hok : ∀ {control}, (Except.ok (Node.literal [control] fold, s') : Except ParseFailure _) = .ok (x, rest) →
          encode c = [control] → rest = s' ∧ (x = nodeActions.literal (encode c) fold ∨ x = .unsupported) := by
        intro control h hone
        obtain ⟨rfl, rfl⟩ := Prod.mk.inj (Except.ok.inj h)
        exact ⟨rfl, .inl (by rw [hone]; rfl)⟩
      simp only [Regexp.controls, List.mem_cons, Prod.mk.injEq, List.not_mem_nil, or_false] at hb
      rcases hb with ⟨rfl, rfl⟩ | ⟨rfl, rfl⟩ | ⟨rfl, rfl⟩ | ⟨rfl, rfl⟩ | ⟨rfl, rfl⟩ | ⟨rfl, rfl⟩ <;>
        exact hok h (by decide)
    | @octal ds s c hall hpos hlen hnext _ _ =>
      obtain ⟨d, ds, rfl⟩ := List.exists_cons_of_ne_nil (List.length_pos_iff.mp hpos)
      obtain ⟨hd, hds⟩ := List.forall_mem_cons.mp hall
      obtain ⟨hperl, hcontrol, hp, hx⟩ := escape_octal hd
      have hoctal : isOctal d = true := hd
      have hds : ∀ d ∈ ds, isOctal d = true := hds
      simp only [List.length_cons] at hlen hnext
      have hdigits := take_octal hds (by omega) (fun hshort => hnext (by omega))
      simp only [List.cons_append, parseEscape, nodeActions, escapeNode, hperl, hcontrol, hp, if_neg hx, hoctal, hdigits,
        List.drop_left] at h
      obtain ⟨rfl, rfl⟩ := Prod.mk.inj (Except.ok.inj h)
      exact ⟨rfl, .inr rfl⟩
    | @hex a b c s hval =>
      obtain ⟨-, hdigits⟩ := hexNumber_digits hval
      have ha : isXDigit a = true := hdigits a (by simp)
      have hb : isXDigit b = true := hdigits b (by simp)
      have hbrace : a ≠ ch '\x7b' := by
        rintro rfl
        cases ha
      have hskip : skipHex (a :: b :: s') = .ok s' := by simp [skipHex, hbrace, ha, hb]
      have h : (skipHex (a :: b :: s') >>= fun s => Except.ok (Node.unsupported, s)) = .ok (x, rest) := h
      rw [hskip] at h
      obtain ⟨rfl, rfl⟩ := Prod.mk.inj (Except.ok.inj h)
      exact ⟨rfl, .inr rfl⟩
    | @hexBraced ds s c hval =>
      obtain ⟨-, hdigits⟩ := hexNumber_digits hval
      have hclose : ch '\x7d' ∉ ds := fun hmem => absurd (hdigits _ hmem) (by decide)
      have h : (skipBraced (ds ++ ch '\x7d' :: s') >>= fun s => Except.ok (Node.unsupported, s)) = .ok (x, rest) := h
      rw [skipBraced_text hclose] at h
      obtain ⟨rfl, rfl⟩ := Prod.mk.inj (Except.ok.inj h)
      exact ⟨rfl, .inr rfl⟩
  perl {fold b negated p s x rest} hperl h := by
    have hok : (Except.ok (Node.unsupported, s) : Except ParseFailure _) = .ok (x, rest) →
        rest = s ∧ x = .unsupported := by
      intro h
      obtain ⟨rfl, rfl⟩ := Prod.mk.inj (Except.ok.inj h)
      exact ⟨rfl, rfl⟩
    simp only [Regexp.perls, List.mem_cons, Prod.mk.injEq, List.not_mem_nil, or_false] at hperl
    rcases hperl with ⟨rfl, -⟩ | ⟨rfl, -⟩ | ⟨rfl, -⟩ | ⟨rfl, -⟩ | ⟨rfl, -⟩ | ⟨rfl, -⟩ <;> exact hok h
  property {fold s item s' x rest} hprop h := by
    cases s with
    | nil => cases h
    | cons b s =>
      obtain ⟨hb, hskip⟩ := skipProperty_text hprop
      have h : (skipProperty s >>= fun s => Except.ok (Node.unsupported, s)) = .ok (x, rest) := by
        rcases hb with rfl | rfl <;> exact h
      rw [hskip] at h
      obtain ⟨rfl, rfl⟩ := Prod.mk.inj (Except.ok.inj h)
      exact ⟨rfl, rfl⟩

/-! ## Every construct -/

/-- A node that says nothing describes every tree whose matches are texts. -/
theorem describes_unsupported {U : Regexp.Unicode} {t : Regexp.Tree}
    (h : ∀ {before w after}, Regexp.Matches U t before w after → Text w) : Describes U .unsupported t :=
  fun hw => ⟨h hw, trivial⟩

theorem class_text {U : Regexp.Unicode} {fold negated : Bool} {items : List Regexp.ClassItem} {before w after : Bytes}
    (h : Regexp.Matches U (.charClass fold negated items) before w after) : Text w := by
  cases h
  exact Text.encode _

theorem nodeActions_simulates (U : Regexp.Unicode) :
    Simulates nodeActions (· = .unsupported) (· = .unsupported) (fun _ => .unsupported) (fun _ => True) (Describes U) where
  consumes := nodeActions_consumes
  escapes := nodeActions_escapes
  literal {fold fold' c} hfold _ {before w after} hw := by
    cases hw with
    | @literal _ _ d _ _ hsame =>
      have hsame : Regexp.Same U fold c d := hsame.imp_right fun h => ⟨hfold h.1, h.2⟩
      exact ⟨Text.encode d, [c], [d], by simp [chars], by simp [chars], .cons hsame .nil⟩
  blindChar {x fold c} hx := by
    subst hx
    refine describes_unsupported fun hw => ?_
    cases hw
    exact Text.encode _
  blindProperty _ hx := by
    subst hx
    exact describes_unsupported class_text
  perlClass _ := describes_unsupported class_text
  charClass _ _ _ _ _ := describes_unsupported class_text
  anchor a := by
    refine describes_unsupported fun hw => ?_
    cases hw
    exact .nil
  assertion {fold b a s x rest} ha h := by
    have hok : (Except.ok (Node.unsupported, s) : Except ParseFailure _) = .ok (x, rest) →
        rest = s ∧ Describes U x (.assertion a) := by
      intro h
      obtain ⟨rfl, rfl⟩ := Prod.mk.inj (Except.ok.inj h)
      refine ⟨rfl, describes_unsupported fun hw => ?_⟩
      cases hw
      exact .nil
    simp only [Regexp.assertions, List.mem_cons, Prod.mk.injEq, List.not_mem_nil, or_false] at ha
    rcases ha with ⟨rfl, -⟩ | ⟨rfl, -⟩ | ⟨rfl, -⟩ | ⟨rfl, -⟩ <;> exact hok h
  anyByte h := by cases h
  dot newline := by
    refine describes_unsupported fun hw => ?_
    cases hw
    exact Text.encode _
  flagSetter := rfl
  quoteMark {fold b s x rest} hb h := by
    rcases hb with rfl | rfl <;> cases h
  quote _ h := by cases h
  capture h := by
    intro before w after hw
    cases hw with
    | capture hw => exact h hw
  quantified := describes_quantified
  concat := describes_concat
  alternation := describes_alternation

/-! ## The proof -/

/-- utf8proc takes the Kelvin sign to `k`. -/
def LowersKelvin (u : Utf8proc) : Prop := u.encodeChar (u.tolower 0x212A) = [ch 'k']

section Proof

variable {U : Regexp.Unicode} {u : Utf8proc} (hu : Utf8procSpec u) (hfold : Regexp.FoldsAscii U)
  (hkelvin : LowersKelvin u)

theorem encode_ascii {c : Char} (hc : c.toNat < 0x80) : encode c = [c.toNat.toUInt8] := by
  have hval : c.toNat.toUInt8.toNat = c.toNat := Nat.mod_eq_of_lt (by omega)
  obtain ⟨d, hd, hd'⟩ := exists_one c.toNat.toUInt8 (by omega)
  obtain rfl := toNat_injective (hd'.trans hval)
  exact hd

theorem asciiToLower_char {c : Char} (hc : c.toNat < 0x80) : asciiToLower c.toNat.toUInt8 = c.toLower.toNat.toUInt8 := by
  have hall : ∀ n < 128, asciiToLower n.toUInt8 = (Char.ofNat n).toLower.toNat.toUInt8 := by decide
  rw [hall _ hc, Char.ofNat_toNat]

include hu

theorem lowerChar_ascii {c : Char} (hc : c.toNat < 0x80) : lowerChar u c = [asciiToLower c.toNat.toUInt8] := by
  have hval : c.toNat.toUInt8.toNat = c.toNat := Nat.mod_eq_of_lt (by omega)
  have hlower := hu.ascii c.toNat.toUInt8 (by rw [UInt8.lt_iff_toNat_lt, hval]; exact hc)
  rw [hval] at hlower
  rw [lowerChar, hlower]
  rfl

theorem toLowerUtf8_chars (cs : List Char) : toLowerUtf8 u (chars cs) = cs.flatMap (lowerChar u) := by
  rw [toLowerUtf8_eq hu]
  induction cs with
  | nil => rfl
  | cons c cs ih =>
    rw [chars, List.flatMap_cons, toLowerLoop_char hu, List.flatMap_cons, ← ih]
    rfl

include hfold hkelvin

theorem lowerChar_same {fold : Bool} {c d : Char} (hsafe : fold = true → literalIsFoldSafe (encode c) true = true)
    (h : Regexp.Same U fold c d) : lowerChar u d = lowerChar u c := by
  rcases h with rfl | ⟨hfolding, hvariant⟩
  · rfl
  have hsafe := hsafe hfolding
  simp only [literalIsFoldSafe, Bool.not_true, Bool.false_or] at hsafe
  have hc : c.toNat < 0x80 := by
    by_contra hwide
    obtain ⟨b, w, hbw⟩ := List.exists_cons_of_ne_nil (encode_ne_nil c)
    have hb := List.all_eq_true.mp hsafe b (by rw [hbw]; exact List.mem_cons_self)
    simp only [Bool.and_eq_true, decide_eq_true_eq] at hb
    have hone := encode_of_ascii_mem (c := c) (b := b) (by rw [hbw]; exact List.mem_cons_self) hb.1
    obtain ⟨e, he, hval⟩ := exists_one b hb.1
    have := encode_injective (hone.trans he.symm)
    subst this
    exact hwide (hval ▸ hb.1)
  rw [encode_ascii hc, List.all_cons, List.all_nil, Bool.and_true] at hsafe
  rcases hfold hc hvariant with ⟨hd, hlower⟩ | ⟨hs, -⟩ | ⟨hk, hd⟩
  · rw [lowerChar_ascii hu hd, lowerChar_ascii hu hc, asciiToLower_char hd, asciiToLower_char hc, hlower]
  · rcases hs with rfl | rfl <;> exact absurd hsafe (by decide)
  · have hlower : lowerChar u '\u212A' = [ch 'k'] := by
      rw [lowerChar, show ('\u212A' : Char).toNat = 0x212A from rfl, show _ = _ from hkelvin]
      rfl
    rw [hd, hlower, lowerChar_ascii hu hc]
    rcases hk with rfl | rfl <;> rfl

theorem toLowerUtf8_spells {l w : Bytes} {fold : Bool} (hsafe : literalIsFoldSafe l fold = true) (h : Spells U l fold w) :
    toLowerUtf8 u w = toLowerUtf8 u l := by
  obtain ⟨cs, ds, rfl, rfl, hsame⟩ := h
  rw [toLowerUtf8_chars hu, toLowerUtf8_chars hu]
  induction hsame with
  | nil => rfl
  | @cons c d cs ds hcd _ ih =>
    have hsplit : fold = true → literalIsFoldSafe (encode c) true = true ∧ literalIsFoldSafe (chars cs) true = true := by
      rintro rfl
      simpa [literalIsFoldSafe, chars, List.flatMap_cons, List.all_append] using hsafe
    have hrest : literalIsFoldSafe (chars cs) fold = true := by
      cases fold with
      | true => exact (hsplit rfl).2
      | false => rfl
    rw [List.flatMap_cons, List.flatMap_cons, ih hrest, lowerChar_same hu hfold hkelvin (fun h => (hsplit h).1) hcd]

end Proof

def ShowsKeyword (u : Utf8proc) (loweredKeywords : List Bytes) (w : Bytes) : Prop :=
  ∃ kw ∈ loweredKeywords, kw ≠ [] ∧ contains (toLowerUtf8 u w) kw = true

section Guarantees

variable {U : Regexp.Unicode} {u : Utf8proc} (hu : Utf8procSpec u) {kws : List Bytes}

include hu

theorem toLowerUtf8_append {x y : Bytes} (hx : Text x) : toLowerUtf8 u (x ++ y) = toLowerUtf8 u x ++ toLowerUtf8 u y := by
  simp only [toLowerUtf8_eq hu]
  induction hx with
  | nil => rfl
  | char c _ ih => rw [List.append_assoc, toLowerLoop_char hu, toLowerLoop_char hu, ih, List.append_assoc]

theorem ShowsKeyword.around {a x b : Bytes} (ha : Text a) (hx : Text x) (h : ShowsKeyword u kws x) :
    ShowsKeyword u kws (a ++ (x ++ b)) := by
  obtain ⟨kw, hkw, hne, hcontains⟩ := h
  refine ⟨kw, hkw, hne, ?_⟩
  rw [toLowerUtf8_append hu ha, toLowerUtf8_append hu hx]
  exact decide_eq_true ((of_decide_eq_true hcontains).trans ⟨_, _, List.append_assoc _ _ _⟩)

end Guarantees

section Sound

variable {U : Regexp.Unicode} {u : Utf8proc} {kws : List Bytes}

mutual

/-- A word as a guaranteeing node says shows a keyword. -/
theorem showsKeyword_of_guarantees (hu : Utf8procSpec u) (hfold : Regexp.FoldsAscii U) (hkelvin : LowersKelvin u) :
    ∀ (node : Node) {w : Bytes}, guaranteesKeyword u kws node = true → Text w → Allows U node w → ShowsKeyword u kws w
  | .literal l fold, w, h, hw, hallows => by
    rw [guaranteesKeyword, Bool.and_eq_true] at h
    obtain ⟨kw, hkw, hcontains⟩ := List.any_eq_true.mp h.2
    rw [Bool.and_eq_true] at hcontains
    refine ⟨kw, hkw, by simpa using hcontains.1, ?_⟩
    rw [toLowerUtf8_spells hu hfold hkelvin h.1 hallows]
    exact hcontains.2
  | .concat children, w, h, hw, hallows => showsKeyword_of_any hu hfold hkelvin children h hallows
  | .alternate children, w, h, hw, hallows => by
    rw [guaranteesKeyword, Bool.and_eq_true] at h
    exact showsKeyword_of_all hu hfold hkelvin children h.2 hw hallows
  | .capture child, w, h, hw, hallows => showsKeyword_of_guarantees hu hfold hkelvin child h hw hallows
  | .repeat min child, w, h, hw, hallows => by
    rw [guaranteesKeyword, Bool.and_eq_true, decide_eq_true_eq] at h
    obtain ⟨a, x, b, rfl, ha, hx, hb, hallows⟩ := hallows h.1
    exact (showsKeyword_of_guarantees hu hfold hkelvin child h.2 hx hallows).around hu ha hx
  | .unsupported, w, h, hw, hallows => by
    rw [guaranteesKeyword] at h
    cases h

theorem showsKeyword_of_any (hu : Utf8procSpec u) (hfold : Regexp.FoldsAscii U) (hkelvin : LowersKelvin u) :
    ∀ (children : List Node) {w : Bytes}, anyGuarantees u kws children = true → AllowsRow U children w →
      ShowsKeyword u kws w
  | [], w, h, hallows => by
    rw [anyGuarantees] at h
    cases h
  | child :: children, w, h, hallows => by
    obtain ⟨x, y, rfl, hx, hy, hchild, hrow⟩ := hallows
    rw [anyGuarantees, Bool.or_eq_true] at h
    rcases h with h | h
    · exact (showsKeyword_of_guarantees hu hfold hkelvin child h hx hchild).around hu .nil hx
    · have := (showsKeyword_of_any hu hfold hkelvin children h hrow).around hu (b := []) hx hy
      rwa [List.append_nil] at this

theorem showsKeyword_of_all (hu : Utf8procSpec u) (hfold : Regexp.FoldsAscii U) (hkelvin : LowersKelvin u) :
    ∀ (children : List Node) {w : Bytes}, allGuarantee u kws children = true → Text w → AllowsSome U children w →
      ShowsKeyword u kws w
  | [], w, h, hw, hallows => hallows.elim
  | child :: children, w, h, hw, hallows => by
    rw [allGuarantee, Bool.and_eq_true] at h
    rcases hallows with hallows | hallows
    · exact showsKeyword_of_guarantees hu hfold hkelvin child h.1 hw hallows
    · exact showsKeyword_of_all hu hfold hkelvin children h.2 hw hallows

end

/-- Where both readers agree on the pattern, or the prover gives up before they differ, the proof is right. -/
theorem regexGuaranteesKeyword_sound (hu : Utf8procSpec u) (hfold : Regexp.FoldsAscii U)
    (hkelvin : LowersKelvin u) {pattern : Bytes} {keywords : List Bytes} {t : Regexp.Tree}
    (hre : Regexp.Reads pattern t) (halike : ReadAlike nodeActions (fun _ => True) pattern t)
    (h : regexGuaranteesKeyword u pattern keywords = true) {before w after : Bytes}
    (hw : Regexp.Matches U t before w after) :
    ∃ kw ∈ keywords, kw ≠ [] ∧ contains (toLowerUtf8 u w) (toLowerUtf8 u kw) = true := by
  unfold regexGuaranteesKeyword at h
  rw [Bool.and_eq_true] at h
  cases hparse : parsePattern nodeActions pattern with
  | error e =>
    rw [hparse] at h
    cases h.2
  | ok node =>
    rw [hparse] at h
    obtain ⟨m', hre⟩ := hre
    obtain ⟨htext, hallows⟩ := simulates_of_reads (nodeActions_simulates U) rfl rfl halike hre hparse hw
    obtain ⟨kw', hkw', hne, hcontains⟩ := showsKeyword_of_guarantees hu hfold hkelvin node h.2 htext hallows
    obtain ⟨kw, hkw, rfl⟩ := List.mem_map.mp hkw'
    refine ⟨kw, hkw, ?_, hcontains⟩
    rintro rfl
    exact hne rfl

end Sound

/-! ## Two patterns -/

/-- Lowers the Kelvin sign as well. -/
def kelvinUtf8proc : Utf8proc :=
  { sampleUtf8proc with tolower := fun cp => if cp = 0x212A then 0x6B else sampleUtf8proc.tolower cp }

theorem kelvinUtf8proc_spec : Utf8procSpec kelvinUtf8proc where
  iterate := sampleUtf8proc_spec.iterate
  ascii b hb := by
    have hne : b.toNat ≠ 0x212A := fun h => by
      have hlt : b.toNat < 256 := b.toNat_lt
      omega
    simp only [kelvinUtf8proc, if_neg hne]
    exact sampleUtf8proc_spec.ascii b hb

/-- The Kelvin sign is a letter of `(?i)key`, and `to_lower_utf8` takes it to `k`. -/
theorem regexGuaranteesKeyword_sound_kelvin :
    regexGuaranteesKeyword kelvinUtf8proc (ascii "(?i)key") [ascii "key"] = true ∧
      ∃ kw ∈ [ascii "key"], kw ≠ [] ∧
        contains (toLowerUtf8 kelvinUtf8proc (encode '\u212A' ++ (encode 'E' ++ (encode 'Y' ++ []))))
          (toLowerUtf8 kelvinUtf8proc kw) = true := by
  have hguarantees : regexGuaranteesKeyword kelvinUtf8proc (ascii "(?i)key") [ascii "key"] = true := by decide +kernel
  have hkey : Regexp.Pieces { fold := true } [ch 'k', ch 'e', ch 'y']
      (.cat (.literal true 'k') (.cat (.literal true 'e') (.cat (.literal true 'y') .empty))) { fold := true } [] :=
    Pieces.letter rfl (by decide) (by decide) <| Pieces.letter rfl (by decide) (by decide) <|
      Pieces.letter rfl (by decide) (by decide) (.done (.inl rfl))
  have hflags : Regexp.FlagText {} (ascii "i") { fold := true } := .on (by decide)
  have hre : Regexp.Reads (ascii "(?i)key")
      (.cat (.literal true 'k') (.cat (.literal true 'e') (.cat (.literal true 'y') .empty))) :=
    ⟨_, .one (.flags (.flags rfl hflags) rfl hkey) (by decide)⟩
  have hmatches : Regexp.Matches Regexp.asciiUnicode
      (.cat (.literal true 'k') (.cat (.literal true 'e') (.cat (.literal true 'y') .empty))) []
      (encode '\u212A' ++ (encode 'E' ++ (encode 'Y' ++ []))) [] :=
    .cat (.literal (.inr ⟨rfl, .inr (.inr ⟨.inl rfl, rfl⟩)⟩))
      (.cat (.literal (.inr ⟨rfl, .inl (by decide)⟩)) (.cat (.literal (.inr ⟨rfl, .inl (by decide)⟩)) .empty))
  exact ⟨hguarantees, regexGuaranteesKeyword_sound kelvinUtf8proc_spec Regexp.asciiUnicode_folds rfl hre
    (.inl ⟨trivial, trivial, trivial, trivial⟩) hguarantees hmatches⟩

/-- What RE2 reads in `[[:alpha:]secret[x]`. -/
def alphaItems : List Regexp.ClassItem :=
  .posix false .alpha (ascii "secret[x]") :: (['s', 'e', 'c', 'r', 'e', 't', '[', 'x'].map fun c => .range c c)

theorem itemsText_char {first : Bool} {c : Char} {a b : Byte} {s s' : Bytes} {items : List Regexp.ClassItem}
    (hc : encode c = [a]) (ha : c ≠ '\\' ∧ a ≠ ch ']' ∧ (a = ch '[' → b ≠ ch ':')) (hb : b ≠ ch '-')
    (h : Regexp.ItemsText false (b :: s) items s') : Regexp.ItemsText first (a :: b :: s) (.range c c :: items) s' := by
  have hplain : Regexp.ClassChar (a :: b :: s) c (b :: s) := by
    have := Regexp.ClassChar.plain (s := b :: s) ha.1
    rwa [hc, List.singleton_append] at this
  have hposix : ¬ Regexp.PosixStart (a :: b :: s) := by
    rintro ⟨name, rest, hstart⟩
    obtain ⟨hopen, htail⟩ := List.cons.inj hstart
    exact ha.2.2 hopen (List.cons.inj htail).1
  refine .item (.inr fun hclose => ha.2.1 (Option.some.inj hclose)) (.char hposix hplain fun d t hdash => ?_) h
  exact absurd (List.cons.inj hdash).1 hb

/-- The walk ends the class at the bracket of the POSIX class and takes its last members for text. -/
theorem regexGuaranteesKeyword_posix :
    ¬ ∀ (U : Regexp.Unicode) (u : Utf8proc), Utf8procSpec u → Regexp.FoldsAscii U →
      LowersKelvin u → ∀ (pattern : Bytes) (keywords : List Bytes) (t : Regexp.Tree), Regexp.Reads pattern t →
      regexGuaranteesKeyword u pattern keywords = true → ∀ before w after, Regexp.Matches U t before w after →
        ∃ kw ∈ keywords, kw ≠ [] ∧ contains (toLowerUtf8 u w) (toLowerUtf8 u kw) = true := by
  intro h
  have hguarantees : regexGuaranteesKeyword kelvinUtf8proc (ascii "[[:alpha:]secret[x]") [ascii "secret"] = true := by
    decide +kernel
  have hitems : Regexp.ItemsText true (ascii "[:alpha:]secret[x]") alphaItems [] :=
    .item (.inl rfl) (.posix (p := .alpha)) <|
      itemsText_char (a := ch 's') (by decide) (by decide) (by decide) <|
      itemsText_char (a := ch 'e') (by decide) (by decide) (by decide) <|
      itemsText_char (a := ch 'c') (by decide) (by decide) (by decide) <|
      itemsText_char (a := ch 'r') (by decide) (by decide) (by decide) <|
      itemsText_char (a := ch 'e') (by decide) (by decide) (by decide) <|
      itemsText_char (a := ch 't') (by decide) (by decide) (by decide) <|
      itemsText_char (a := ch '[') (by decide) (by decide) (by decide) <|
      itemsText_char (a := ch 'x') (by decide) (by decide) (by decide) .close
  have hre : Regexp.Reads (ascii "[[:alpha:]secret[x]") (.cat (.charClass false false alphaItems) .empty) :=
    ⟨_, .one (.piece (.charClass rfl (.plain (by decide) hitems)) .done (.done (.inl rfl))) (by decide)⟩
  have hmatches : Regexp.Matches Regexp.asciiUnicode (.cat (.charClass false false alphaItems) .empty) []
      (encode 'q' ++ []) [] :=
    .cat (.charClass ⟨fun _ => ⟨_, List.mem_cons_self, fun _ => ⟨'q', ⟨(0x61, 0x7a), by decide⟩, .inl rfl⟩, fun _ => rfl⟩,
      fun _ => rfl⟩) .empty
  obtain ⟨kw, hkw, -, hcontains⟩ := h Regexp.asciiUnicode kelvinUtf8proc kelvinUtf8proc_spec
    Regexp.asciiUnicode_folds rfl _ _ _ hre hguarantees _ _ _ hmatches
  rw [List.mem_singleton.mp hkw] at hcontains
  exact absurd hcontains (by decide)

end LlmGuard
