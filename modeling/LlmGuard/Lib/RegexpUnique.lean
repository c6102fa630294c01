import LlmGuard.Lib.RegexpSyntax

/-!
# One tree for a pattern

The syntax leaves no choice: every construct is told by its first bytes, and ends at one place.
-/

namespace Regexp

open LlmGuard (Byte Bytes ascii ch isDigit digitsVal)
open Utf8

/-! ## Runs of bytes -/

theorem run_unique {kind : Byte → Bool} {xs ys s t : Bytes} {a b : Byte} (hx : ∀ c ∈ xs, kind c = true)
    (hy : ∀ c ∈ ys, kind c = true) (ha : kind a = false) (hb : kind b = false) (h : xs ++ a :: s = ys ++ b :: t) :
    xs = ys ∧ a = b ∧ s = t := by
  have hfront : ∀ {zs u : Bytes} {d : Byte}, (∀ c ∈ zs, kind c = true) → kind d = false →
      (zs ++ d :: u).takeWhile kind = zs := by
    intro zs u d hz hd
    rw [List.takeWhile_append_of_pos hz, List.takeWhile_cons_of_neg (by rw [hd]; decide), List.append_nil]
  have hrun : xs = ys := by
    rw [← hfront (u := s) hx ha, h, hfront hy hb]
  subst hrun
  obtain ⟨hab, hst⟩ := List.cons.inj (List.append_cancel_left h)
  exact ⟨rfl, hab, hst⟩

theorem run_until {xs ys s t : Bytes} {b : Byte} (hx : b ∉ xs) (hy : b ∉ ys) (h : xs ++ b :: s = ys ++ b :: t) :
    xs = ys ∧ s = t := by
  have hkind : ∀ {zs : Bytes}, b ∉ zs → ∀ c ∈ zs, decide (c ≠ b) = true :=
    fun hz c hc => decide_eq_true fun hcb => hz (hcb ▸ hc)
  obtain ⟨hrun, -, hrest⟩ := run_unique (hkind hx) (hkind hy) (by simp) (by simp) h
  exact ⟨hrun, hrest⟩

theorem encode_append_inj {c d : Char} {s t : Bytes} (h : encode c ++ s = encode d ++ t) : c = d ∧ s = t := by
  obtain rfl := encode_unique ⟨s, rfl⟩ ⟨t, h.symm⟩
  exact ⟨rfl, List.append_cancel_left h⟩

/-! ## Quantifiers -/

theorem Repetition.unique {s r r' : Bytes} {min min' : Nat} {max max' : Option Nat} (h : Repetition s min max r)
    (h' : Repetition s min' max' r') : min = min' ∧ max = max' ∧ r = r' := by
  have hcomma : isDigit (ch ',') = false := by decide
  have hclose : isDigit (ch '\x7d') = false := by decide
  generalize htext : s = text at h'
  cases h with
  | exactly hds =>
    cases h' with
    | exactly hds' =>
      obtain ⟨rfl, -, rfl⟩ := run_unique hds.digits hds'.digits hclose hclose htext
      exact ⟨rfl, rfl, rfl⟩
    | atLeast hds' => exact absurd (run_unique hds.digits hds'.digits hclose hcomma htext).2.1 (by decide)
    | between hds' _ => exact absurd (run_unique hds.digits hds'.digits hclose hcomma htext).2.1 (by decide)
  | atLeast hds =>
    cases h' with
    | exactly hds' => exact absurd (run_unique hds.digits hds'.digits hcomma hclose htext).2.1 (by decide)
    | atLeast hds' =>
      obtain ⟨rfl, -, hrest⟩ := run_unique hds.digits hds'.digits hcomma hcomma htext
      exact ⟨rfl, rfl, (List.cons.inj hrest).2⟩
    | between hds' hes' =>
      obtain ⟨-, -, hrest⟩ := run_unique hds.digits hds'.digits hcomma hcomma htext
      have hnil := (run_unique (List.forall_mem_nil _) hes'.digits hclose hclose hrest).1
      exact absurd hes'.pos (by rw [← hnil]; decide)
  | between hds hes =>
    cases h' with
    | exactly hds' => exact absurd (run_unique hds.digits hds'.digits hcomma hclose htext).2.1 (by decide)
    | atLeast hds' =>
      obtain ⟨-, -, hrest⟩ := run_unique hds.digits hds'.digits hcomma hcomma htext
      have hnil := (run_unique hes.digits (List.forall_mem_nil _) hclose hclose hrest).1
      exact absurd hes.pos (by rw [hnil]; decide)
    | between hds' hes' =>
      obtain ⟨rfl, -, hrest⟩ := run_unique hds.digits hds'.digits hcomma hcomma htext
      obtain ⟨rfl, -, rfl⟩ := run_unique hes.digits hes'.digits hclose hclose hrest
      exact ⟨rfl, rfl, rfl⟩

theorem Quantifier.unique {s r r' : Bytes} {min min' : Nat} {max max' : Option Nat} (h : Quantifier s min max r)
    (h' : Quantifier s min' max' r') : min = min' ∧ max = max' ∧ r = r' := by
  generalize htext : s = text at h'
  cases h with
  | star =>
    cases h' with
    | star => exact ⟨rfl, rfl, by rw [(List.cons.inj htext).2]⟩
    | plus | quest | counted => exact absurd (List.cons.inj htext).1 (by decide)
  | plus =>
    cases h' with
    | plus => exact ⟨rfl, rfl, by rw [(List.cons.inj htext).2]⟩
    | star | quest | counted => exact absurd (List.cons.inj htext).1 (by decide)
  | quest =>
    cases h' with
    | quest => exact ⟨rfl, rfl, by rw [(List.cons.inj htext).2]⟩
    | star | plus | counted => exact absurd (List.cons.inj htext).1 (by decide)
  | counted hrep _ =>
    cases h' with
    | counted hrep' _ =>
      obtain ⟨-, rfl⟩ := List.cons.inj htext
      obtain ⟨rfl, rfl, rfl⟩ := hrep.unique hrep'
      exact ⟨rfl, rfl, rfl⟩
    | star | plus | quest => exact absurd (List.cons.inj htext).1 (by decide)

/-! ## Escapes -/

/-- What an escape is told by. -/
inductive EscapeKind where
  | self
  | octal
  | control
  | hex
  | perl
  | property
  | assertion
  | anyByte
  | other
deriving DecidableEq

def escapeKind (b : Byte) : EscapeKind :=
  if !wordByte b || b = ch '_' then .self
  else if octal b then .octal
  else if b ∈ controls.map (·.1) then .control
  else if b = ch 'x' then .hex
  else if b ∈ perls.map (·.1) then .perl
  else if b = ch 'p' || b = ch 'P' then .property
  else if b ∈ assertions.map (·.1) then .assertion
  else if b = ch 'C' then .anyByte
  else .other

/-- The kinds that stand for one character. -/
def EscapeKind.isChar (k : EscapeKind) : Bool := k = .self || k = .octal || k = .control || k = .hex

set_option maxRecDepth 8192 in
theorem escapeKind_octal {b : Byte} : octal b = true → escapeKind b = .octal := by
  revert b
  decide

theorem escapeKind_control {b : Byte} {c : Char} (h : (b, c) ∈ controls) : escapeKind b = .control := by
  have hall : ∀ p ∈ controls, escapeKind p.1 = .control := by decide
  exact hall _ h

theorem escapeKind_self {b : Byte} (h : wordByte b = false ∨ b = ch '_') : escapeKind b = .self := by
  unfold escapeKind
  rcases h with h | rfl
  · rw [h]
    rfl
  · rfl

theorem escapeKind_perl {b : Byte} {negated : Bool} {p : Perl} (h : (b, negated, p) ∈ perls) : escapeKind b = .perl := by
  have hall : ∀ q ∈ perls, escapeKind q.1 = .perl := by decide
  exact hall _ h

theorem escapeKind_assertion {b : Byte} {a : Assertion} (h : (b, a) ∈ assertions) : escapeKind b = .assertion := by
  have hall : ∀ q ∈ assertions, escapeKind q.1 = .assertion := by decide
  exact hall _ h

theorem escapeKind_property {b : Byte} (h : b = ch 'p' ∨ b = ch 'P') : escapeKind b = .property := by
  rcases h with rfl | rfl <;> rfl

/-- What an escape that begins with `b` says, told by its kind. -/
def CharSaid (b : Byte) (s : Bytes) (c : Char) (r : Bytes) : EscapeKind → Prop
  | .self => c.toNat = b.toNat ∧ r = s
  | .control => (b, c) ∈ controls ∧ r = s
  | .octal => ∃ ds, b :: s = ds ++ r ∧ (∀ d ∈ ds, octal d = true) ∧ ds.length ≤ 3 ∧
      (ds.length < 3 → ∀ d ∈ r.head?, octal d = false) ∧ c.toNat = octalNumber ds
  | .hex => (∃ x y, s = x :: y :: r ∧ hexNumber [x, y] = some c.toNat) ∨
      ∃ ds, s = ch '\x7b' :: (ds ++ ch '\x7d' :: r) ∧ hexNumber ds = some c.toNat
  | _ => False

theorem EscapedChar.said {b : Byte} {s r : Bytes} {c : Char} (h : EscapedChar (b :: s) c r) :
    CharSaid b s c r (escapeKind b) := by
  generalize htext : b :: s = text at h
  cases h with
  | self _ hb hc =>
    obtain ⟨rfl, rfl⟩ := List.cons.inj htext
    rw [escapeKind_self hb]
    exact ⟨hc, rfl⟩
  | control hb =>
    obtain ⟨rfl, rfl⟩ := List.cons.inj htext
    rw [escapeKind_control hb]
    exact ⟨hb, rfl⟩
  | @octal ds _ _ hall hpos hlen hnext _ hc =>
    have hb : Regexp.octal b = true := by
      obtain ⟨d, ds, rfl⟩ := List.exists_cons_of_ne_nil (List.length_pos_iff.mp hpos)
      rw [(List.cons.inj htext).1]
      exact hall d List.mem_cons_self
    rw [escapeKind_octal hb]
    exact ⟨ds, htext, hall, hlen, hnext, hc⟩
  | hex hval =>
    obtain ⟨rfl, rfl⟩ := List.cons.inj htext
    exact .inl ⟨_, _, rfl, hval⟩
  | hexBraced hval =>
    obtain ⟨rfl, rfl⟩ := List.cons.inj htext
    exact .inr ⟨_, rfl, hval⟩

theorem EscapedChar.kind {b : Byte} {s r : Bytes} {c : Char} (h : EscapedChar (b :: s) c r) :
    (escapeKind b).isChar = true := by
  have hsaid := h.said
  generalize escapeKind b = kind at hsaid ⊢
  cases kind with
  | self | octal | control | hex => rfl
  | perl | property | assertion | anyByte | other => exact hsaid.elim

theorem EscapedChar.ne_nil {s r : Bytes} {c : Char} (h : EscapedChar s c r) : s ≠ [] := by
  cases h with
  | octal _ hpos _ _ _ _ => exact fun hnil => absurd hpos (by rw [(List.append_eq_nil_iff.mp hnil).1]; decide)
  | self | control | hex | hexBraced => exact List.cons_ne_nil _ _

theorem octal_unique {ds es s t : Bytes} (hds : ∀ d ∈ ds, octal d = true) (hes : ∀ d ∈ es, octal d = true)
    (hlen : ds.length ≤ 3) (hlen' : es.length ≤ 3) (hnext : ds.length < 3 → ∀ b ∈ s.head?, octal b = false)
    (hnext' : es.length < 3 → ∀ b ∈ t.head?, octal b = false) (h : ds ++ s = es ++ t) : ds = es ∧ s = t := by
  have hlong : ∀ {ds es s t : Bytes}, (∀ d ∈ es, octal d = true) → es.length ≤ 3 →
      (ds.length < 3 → ∀ b ∈ s.head?, octal b = false) → ds ++ s = es ++ t → ¬ ds.length < es.length := by
    intro ds es s t hes hlen' hnext h hlt
    have hget : (ds ++ s)[ds.length]? = s.head? := by
      rw [List.getElem?_append_right (Nat.le_refl _), Nat.sub_self, List.head?_eq_getElem?]
    rw [h, List.getElem?_append_left hlt, List.getElem?_eq_getElem hlt] at hget
    have := hnext (by omega) _ hget.symm
    rw [hes _ (List.getElem_mem hlt)] at this
    cases this
  have heq : ds.length = es.length :=
    Nat.le_antisymm (Nat.not_lt.mp (hlong hds hlen hnext' h.symm)) (Nat.not_lt.mp (hlong hes hlen' hnext h))
  exact List.append_inj h heq

theorem hexNumber_digits {ds : Bytes} {v : Nat} (h : hexNumber ds = some v) : ∀ d ∈ ds, (hexValue d).isSome = true := by
  have hall : ∀ {ds : Bytes} {v r : Nat}, ds.foldlM (fun v d => (hexValue d).map (16 * v + ·)) v = some r →
      ∀ d ∈ ds, (hexValue d).isSome = true := by
    intro ds
    induction ds with
    | nil => simp
    | cons d ds ih =>
      intro v r h
      rw [List.foldlM_cons] at h
      obtain ⟨v', hv', h⟩ := Option.bind_eq_some_iff.mp h
      obtain ⟨n, hn, -⟩ := Option.map_eq_some_iff.mp hv'
      exact List.forall_mem_cons.mpr ⟨by rw [hn]; rfl, ih h⟩
  cases ds with
  | nil => simp
  | cons d ds => exact hall h

theorem CharSaid.unique {b : Byte} {s r r' : Bytes} {c c' : Char} {kind : EscapeKind}
    (h : CharSaid b s c r kind) (h' : CharSaid b s c' r' kind) : c = c' ∧ r = r' := by
  have hdigits : ∀ {ds : Bytes} {v : Nat} {d : Byte}, hexNumber ds = some v → hexValue d = none → d ∉ ds :=
    fun hval hnone hmem => by simpa [hnone] using hexNumber_digits hval _ hmem
  cases kind with
  | self => exact ⟨toNat_injective (h.1.trans h'.1.symm), h.2.trans h'.2.symm⟩
  | control =>
    have hall : ∀ p ∈ controls, ∀ q ∈ controls, p.1 = q.1 → p.2 = q.2 := by decide
    exact ⟨hall _ h.1 _ h'.1 rfl, h.2.trans h'.2.symm⟩
  | octal =>
    obtain ⟨ds, htext, hall, hlen, hnext, hc⟩ := h
    obtain ⟨ds', htext', hall', hlen', hnext', hc'⟩ := h'
    obtain ⟨rfl, rfl⟩ := octal_unique hall hall' hlen hlen' hnext hnext' (htext.symm.trans htext')
    exact ⟨toNat_injective (hc.trans hc'.symm), rfl⟩
  | hex =>
    -- a brace is no hexadecimal digit, so the two forms begin and end apart
    rcases h with ⟨x, y, rfl, hval⟩ | ⟨ds, rfl, hval⟩ <;> rcases h' with ⟨x', y', htext, hval'⟩ | ⟨ds', htext, hval'⟩
    · obtain ⟨rfl, hrest⟩ := List.cons.inj htext
      obtain ⟨rfl, rfl⟩ := List.cons.inj hrest
      exact ⟨toNat_injective (Option.some.inj (hval.symm.trans hval')), rfl⟩
    · obtain ⟨rfl, -⟩ := List.cons.inj htext
      exact absurd List.mem_cons_self (hdigits hval (by decide))
    · obtain ⟨rfl, -⟩ := List.cons.inj htext
      exact absurd List.mem_cons_self (hdigits hval' (by decide))
    · obtain ⟨rfl, rfl⟩ := run_until (hdigits hval (by decide)) (hdigits hval' (by decide)) (List.cons.inj htext).2
      exact ⟨toNat_injective (Option.some.inj (hval.symm.trans hval')), rfl⟩
  | perl | property | assertion | anyByte | other => exact h.elim

theorem EscapedChar.unique {s r r' : Bytes} {c c' : Char} (h : EscapedChar s c r) (h' : EscapedChar s c' r') :
    c = c' ∧ r = r' := by
  obtain ⟨b, s, rfl⟩ := List.exists_cons_of_ne_nil h.ne_nil
  exact h.said.unique h'.said

theorem PropertyText.head {s s' : Bytes} {item : ClassItem} (h : PropertyText s item s') :
    ∃ b t, s = b :: t ∧ escapeKind b = .property := by
  cases h with
  | letter hb _ | braced hb _ _ | excluded hb _ => exact ⟨_, _, rfl, escapeKind_property hb⟩

theorem PropertyText.unique {s r r' : Bytes} {item item' : ClassItem} (h : PropertyText s item r)
    (h' : PropertyText s item' r') : item = item' ∧ r = r' := by
  generalize htext : s = text at h'
  cases h with
  | letter _ hc =>
    cases h' with
    | letter _ _ =>
      obtain ⟨rfl, hrest⟩ := List.cons.inj htext
      obtain ⟨rfl, rfl⟩ := List.cons.inj hrest
      exact ⟨rfl, rfl⟩
    | braced _ _ _ | excluded _ _ =>
      rw [(List.cons.inj (List.cons.inj htext).2).1] at hc
      exact absurd hc.2 (by decide)
  | braced _ hname hhead =>
    cases h' with
    | letter _ hc =>
      rw [← (List.cons.inj (List.cons.inj htext).2).1] at hc
      exact absurd hc.2 (by decide)
    | braced _ hname' _ =>
      obtain ⟨rfl, hrest⟩ := List.cons.inj htext
      obtain ⟨rfl, rfl⟩ := run_until hname hname' (List.cons.inj hrest).2
      exact ⟨rfl, rfl⟩
    | @excluded _ name' _ _ hname' =>
      have hfront : ch '\x7d' ∉ ch '^' :: name' := fun h => (List.mem_cons.mp h).elim (by decide) hname'
      have hrun := (run_until hname hfront (List.cons.inj (List.cons.inj htext).2).2).1
      exact absurd (by rw [hrun, List.head?_cons]) hhead
  | @excluded _ name _ _ hname =>
    have hfront : ch '\x7d' ∉ ch '^' :: name := fun h => (List.mem_cons.mp h).elim (by decide) hname
    cases h' with
    | letter _ hc =>
      rw [← (List.cons.inj (List.cons.inj htext).2).1] at hc
      exact absurd hc.2 (by decide)
    | braced _ hname' hhead' =>
      have hrun := (run_until hfront hname' (List.cons.inj (List.cons.inj htext).2).2).1
      exact absurd (by rw [← hrun, List.head?_cons]) hhead'
    | excluded _ hname' =>
      obtain ⟨rfl, hrest⟩ := List.cons.inj htext
      obtain ⟨rfl, rfl⟩ := run_until hname hname' (List.cons.inj (List.cons.inj hrest).2).2
      exact ⟨rfl, rfl⟩

/-- What an escape outside of brackets says, told by its kind. -/
def EscapeSaid (m : Mode) (b : Byte) (s : Bytes) (t : Tree) (r : Bytes) : EscapeKind → Prop
  | .self | .octal | .control | .hex => ∃ c, EscapedChar (b :: s) c r ∧ t = .literal m.fold c
  | .perl => ∃ negated p, (b, negated, p) ∈ perls ∧ t = .charClass m.fold false [.perl negated p] ∧ r = s
  | .property => ∃ item, PropertyText (b :: s) item r ∧ t = .charClass m.fold false [item]
  | .assertion => ∃ a, (b, a) ∈ assertions ∧ t = .assertion a ∧ r = s
  | .anyByte => t = .anyByte ∧ r = s
  | .other => False

theorem Escape.said {m : Mode} {b : Byte} {s r : Bytes} {t : Tree} (h : Escape m (b :: s) t r) :
    EscapeSaid m b s t r (escapeKind b) := by
  generalize htext : b :: s = text at h
  cases h with
  | char hc =>
    subst htext
    have hkind := hc.kind
    generalize escapeKind b = kind at hkind
    cases kind with
    | self | octal | control | hex => exact ⟨_, hc, rfl⟩
    | perl | property | assertion | anyByte | other => cases hkind
  | perl hb =>
    obtain ⟨rfl, rfl⟩ := List.cons.inj htext
    rw [escapeKind_perl hb]
    exact ⟨_, _, hb, rfl, rfl⟩
  | property hprop =>
    subst htext
    obtain ⟨b', t, heq, hb⟩ := hprop.head
    rw [(List.cons.inj heq).1, hb, ← (List.cons.inj heq).1]
    exact ⟨_, hprop, rfl⟩
  | assertion hb =>
    obtain ⟨rfl, rfl⟩ := List.cons.inj htext
    rw [escapeKind_assertion hb]
    exact ⟨_, hb, rfl, rfl⟩
  | anyByte =>
    obtain ⟨rfl, rfl⟩ := List.cons.inj htext
    exact ⟨rfl, rfl⟩

theorem perls_unique {b : Byte} {negated negated' : Bool} {p p' : Perl} (h : (b, negated, p) ∈ perls)
    (h' : (b, negated', p') ∈ perls) : negated = negated' ∧ p = p' := by
  have hall : ∀ p ∈ perls, ∀ q ∈ perls, p.1 = q.1 → p.2 = q.2 := by decide
  exact Prod.mk.inj (hall _ h _ h' rfl)

theorem EscapeSaid.unique {m : Mode} {b : Byte} {s r r' : Bytes} {t t' : Tree} {kind : EscapeKind}
    (h : EscapeSaid m b s t r kind) (h' : EscapeSaid m b s t' r' kind) : t = t' ∧ r = r' := by
  cases kind with
  | self | octal | control | hex =>
    obtain ⟨c, hc, rfl⟩ := h
    obtain ⟨c', hc', rfl⟩ := h'
    obtain ⟨rfl, rfl⟩ := hc.unique hc'
    exact ⟨rfl, rfl⟩
  | perl =>
    obtain ⟨negated, p, hb, rfl, rfl⟩ := h
    obtain ⟨negated', p', hb', rfl, rfl⟩ := h'
    obtain ⟨rfl, rfl⟩ := perls_unique hb hb'
    exact ⟨rfl, rfl⟩
  | property =>
    obtain ⟨item, hitem, rfl⟩ := h
    obtain ⟨item', hitem', rfl⟩ := h'
    obtain ⟨rfl, rfl⟩ := hitem.unique hitem'
    exact ⟨rfl, rfl⟩
  | assertion =>
    obtain ⟨a, hb, rfl, rfl⟩ := h
    obtain ⟨a', hb', rfl, rfl⟩ := h'
    have hall : ∀ p ∈ assertions, ∀ q ∈ assertions, p.1 = q.1 → p.2 = q.2 := by decide
    exact ⟨congrArg Tree.assertion (hall _ hb _ hb' rfl), rfl⟩
  | anyByte => exact ⟨h.1.trans h'.1.symm, h.2.trans h'.2.symm⟩
  | other => exact h.elim

theorem Escape.ne_nil {m : Mode} {s r : Bytes} {t : Tree} (h : Escape m s t r) : s ≠ [] := by
  cases h with
  | char hc => exact hc.ne_nil
  | property hprop =>
    obtain ⟨b, t, rfl, -⟩ := hprop.head
    exact List.cons_ne_nil _ _
  | perl | assertion | anyByte => exact List.cons_ne_nil _ _

theorem Escape.unique {m : Mode} {s r r' : Bytes} {t t' : Tree} (h : Escape m s t r) (h' : Escape m s t' r') :
    t = t' ∧ r = r' := by
  obtain ⟨b, s, rfl⟩ := List.exists_cons_of_ne_nil h.ne_nil
  exact h.said.unique h'.said

theorem Escape.kind {m : Mode} {b : Byte} {s r : Bytes} {t : Tree} (h : Escape m (b :: s) t r) :
    escapeKind b ≠ .other := by
  intro hother
  have hsaid := h.said
  rw [hother] at hsaid
  exact hsaid

/-! ## Bracket expressions -/

theorem ClassChar.unique {s r r' : Bytes} {c c' : Char} (h : ClassChar s c r) (h' : ClassChar s c' r') :
    c = c' ∧ r = r' := by
  have hescape : ∀ {c : Char} {s t : Bytes}, c ≠ '\\' → encode c ++ s ≠ ch '\\' :: t := by
    intro c s t hc h
    exact hc (encode_injective (d := '\\') (encode_ascii_front h (by decide)).1)
  generalize htext : s = text at h'
  cases h with
  | plain hc =>
    cases h' with
    | plain _ => exact encode_append_inj htext
    | escaped _ => exact absurd htext (hescape hc)
  | escaped hc =>
    cases h' with
    | plain hc' => exact absurd htext.symm (hescape hc')
    | escaped hc' =>
      obtain ⟨-, rfl⟩ := List.cons.inj htext
      exact hc.unique hc'

theorem Posix.name_letters (p : Posix) : ch ':' ∉ p.name ∧ p.name.head? ≠ some (ch '^') := by
  cases p <;> decide

theorem Posix.name_injective {p q : Posix} (h : p.name = q.name) : p = q := by
  cases p <;> cases q <;> first | rfl | exact absurd h (by decide)

theorem ClassChar.head_escape {s r : Bytes} {c : Char} (h : ClassChar (ch '\\' :: s) c r) : EscapedChar s c r := by
  generalize htext : ch '\\' :: s = text at h
  cases h with
  | plain hc => exact absurd (encode_injective (d := '\\') (encode_ascii_front htext.symm (by decide)).1) hc
  | escaped hc =>
    obtain ⟨-, rfl⟩ := List.cons.inj htext
    exact hc

theorem not_class_escape {b : Byte} {s r : Bytes} {c : Char} (h : ClassChar (ch '\\' :: b :: s) c r)
    (hkind : (escapeKind b).isChar = false) : False := by
  have := h.head_escape.kind
  rw [hkind] at this
  cases this

theorem posixStart_name (p : Posix) (s : Bytes) : PosixStart (ch '[' :: ch ':' :: (p.name ++ ch ':' :: ch ']' :: s)) :=
  ⟨p.name, s, rfl⟩

theorem posixStart_negated (p : Posix) (s : Bytes) :
    PosixStart (ch '[' :: ch ':' :: ch '^' :: (p.name ++ ch ':' :: ch ']' :: s)) :=
  ⟨ch '^' :: p.name, s, rfl⟩

theorem Posix.name_not_negated (p q : Posix) (s t : Bytes) :
    p.name ++ ch ':' :: s ≠ ch '^' :: (q.name ++ ch ':' :: t) := by
  intro h
  have hhead := congrArg List.head? h
  have hne : p.name ≠ [] := by cases p <;> decide
  rw [List.head?_append_of_ne_nil _ hne] at hhead
  exact p.name_letters.2 hhead

theorem Posix.name_unique {p q : Posix} {s t : Bytes}
    (h : p.name ++ ch ':' :: ch ']' :: s = q.name ++ ch ':' :: ch ']' :: t) : p = q ∧ s = t := by
  obtain ⟨hname, hrest⟩ := run_until p.name_letters.1 q.name_letters.1 h
  exact ⟨Posix.name_injective hname, (List.cons.inj hrest).2⟩

theorem PropertyText.not_classChar {s t r r' : Bytes} {c : Char} {item : ClassItem} (htext : ch '\\' :: s = t)
    (h : PropertyText s item r) : ¬ ClassChar t c r' := by
  subst htext
  intro hc
  obtain ⟨b, t, rfl, hb⟩ := h.head
  exact not_class_escape hc (by rw [hb]; rfl)

theorem perls_not_classChar {b : Byte} {s t r' : Bytes} {c : Char} {negated : Bool} {p : Perl}
    (htext : ch '\\' :: b :: s = t) (h : (b, negated, p) ∈ perls) : ¬ ClassChar t c r' := by
  subst htext
  exact fun hc => not_class_escape hc (by rw [escapeKind_perl h]; rfl)

theorem PropertyText.not_perl {b : Byte} {s r : Bytes} {item : ClassItem} {negated : Bool} {p : Perl}
    (h : PropertyText (b :: s) item r) : (b, negated, p) ∉ perls := by
  intro hb
  obtain ⟨b', t, heq, hkind⟩ := h.head
  rw [← (List.cons.inj heq).1, escapeKind_perl hb] at hkind
  cases hkind

/-- A dash with a character behind it that is no `]` is not the end of a single character. -/
theorem ClassChar.not_behind_dash {s r : Bytes} {c : Char} (hhead : s.head? ≠ some (ch ']')) (h : ClassChar s c r) :
    ¬ ∀ b t, ch '-' :: s = ch '-' :: b :: t → b = ch ']' := by
  intro hall
  cases s with
  | nil =>
    generalize htext : ([] : Bytes) = text at h
    cases h with
    | plain _ => exact encode_ne_nil _ (List.append_eq_nil_iff.mp htext.symm).1
    | escaped _ => cases htext
  | cons b t => exact hhead (by rw [hall b t rfl]; rfl)

theorem ItemText.unique {s r r' : Bytes} {item item' : ClassItem} (h : ItemText s item r) (h' : ItemText s item' r') :
    item = item' ∧ r = r' := by
  generalize htext : s = text at h'
  cases h with
  | posix =>
    cases h' with
    | posix =>
      obtain ⟨rfl, rfl⟩ := Posix.name_unique (List.cons.inj (List.cons.inj htext).2).2
      exact ⟨rfl, rfl⟩
    | notPosix => exact absurd (List.cons.inj (List.cons.inj htext).2).2 (Posix.name_not_negated _ _ _ _)
    | property _ | perl _ => exact absurd (List.cons.inj htext).1 (by decide)
    | char hposix _ _ => exact absurd (htext ▸ posixStart_name _ _) hposix
    | range hposix _ _ _ _ => exact absurd (htext ▸ posixStart_name _ _) hposix
  | notPosix =>
    cases h' with
    | posix => exact absurd (List.cons.inj (List.cons.inj htext).2).2.symm (Posix.name_not_negated _ _ _ _)
    | notPosix =>
      obtain ⟨rfl, rfl⟩ := Posix.name_unique (List.cons.inj (List.cons.inj (List.cons.inj htext).2).2).2
      exact ⟨rfl, rfl⟩
    | property _ | perl _ => exact absurd (List.cons.inj htext).1 (by decide)
    | char hposix _ _ => exact absurd (htext ▸ posixStart_negated _ _) hposix
    | range hposix _ _ _ _ => exact absurd (htext ▸ posixStart_negated _ _) hposix
  | property hprop =>
    cases h' with
    | posix | notPosix => exact absurd (List.cons.inj htext).1 (by decide)
    | property hprop' =>
      obtain ⟨-, rfl⟩ := List.cons.inj htext
      exact hprop.unique hprop'
    | perl hb =>
      obtain ⟨-, rfl⟩ := List.cons.inj htext
      exact absurd hb hprop.not_perl
    | char _ hc _ => exact absurd hc (hprop.not_classChar htext)
    | range _ hc _ _ _ => exact absurd hc (hprop.not_classChar htext)
  | perl hb =>
    cases h' with
    | posix | notPosix => exact absurd (List.cons.inj htext).1 (by decide)
    | property hprop =>
      obtain ⟨-, rfl⟩ := List.cons.inj htext
      exact absurd hb hprop.not_perl
    | perl hb' =>
      obtain ⟨rfl, rfl⟩ := List.cons.inj (List.cons.inj htext).2
      obtain ⟨rfl, rfl⟩ := perls_unique hb hb'
      exact ⟨rfl, rfl⟩
    | char _ hc _ => exact absurd hc (perls_not_classChar htext hb)
    | range _ hc _ _ _ => exact absurd hc (perls_not_classChar htext hb)
  | char hposix hc hnext =>
    cases h' with
    | posix => exact absurd (htext ▸ posixStart_name _ _) hposix
    | notPosix => exact absurd (htext ▸ posixStart_negated _ _) hposix
    | property hprop => exact absurd hc (hprop.not_classChar htext.symm)
    | perl hb => exact absurd hc (perls_not_classChar htext.symm hb)
    | char _ hc' _ =>
      subst htext
      obtain ⟨rfl, rfl⟩ := hc.unique hc'
      exact ⟨rfl, rfl⟩
    | range _ hc' hhead hhi _ =>
      subst htext
      obtain ⟨-, rfl⟩ := hc.unique hc'
      exact absurd hnext (hhi.not_behind_dash hhead)
  | range hposix hc hhead hhi _ =>
    cases h' with
    | posix => exact absurd (htext ▸ posixStart_name _ _) hposix
    | notPosix => exact absurd (htext ▸ posixStart_negated _ _) hposix
    | property hprop => exact absurd hc (hprop.not_classChar htext.symm)
    | perl hb => exact absurd hc (perls_not_classChar htext.symm hb)
    | char _ hc' hnext =>
      subst htext
      obtain ⟨-, rfl⟩ := hc'.unique hc
      exact absurd hnext (hhi.not_behind_dash hhead)
    | range _ hc' _ hhi' _ =>
      subst htext
      obtain ⟨rfl, hs⟩ := hc.unique hc'
      obtain ⟨-, rfl⟩ := List.cons.inj hs
      obtain ⟨rfl, rfl⟩ := hhi.unique hhi'
      exact ⟨rfl, rfl⟩

theorem ItemsText.unique {first : Bool} {s r r' : Bytes} {items items' : List ClassItem} (h : ItemsText first s items r)
    (h' : ItemsText first s items' r') : items = items' ∧ r = r' := by
  induction h generalizing items' with
  | close =>
    generalize htext : ch ']' :: _ = text at h'
    cases h' with
    | close => exact ⟨rfl, (List.cons.inj htext).2⟩
    | item hfirst _ _ =>
      subst htext
      exact absurd rfl (hfirst.resolve_left (by decide))
  | item hfirst hitem _ ih =>
    cases h' with
    | close => exact absurd rfl (hfirst.resolve_left (by decide))
    | item _ hitem' hitems' =>
      obtain ⟨rfl, rfl⟩ := hitem.unique hitem'
      obtain ⟨rfl, rfl⟩ := ih hitems'
      exact ⟨rfl, rfl⟩

theorem ClassText.unique {s r r' : Bytes} {negated negated' : Bool} {items items' : List ClassItem}
    (h : ClassText s negated items r) (h' : ClassText s negated' items' r') :
    negated = negated' ∧ items = items' ∧ r = r' := by
  cases h with
  | plain hhead hitems =>
    cases h' with
    | plain _ hitems' => exact ⟨rfl, hitems.unique hitems'⟩
    | negated _ => exact absurd rfl hhead
  | negated hitems =>
    cases h' with
    | plain hhead _ => exact absurd rfl hhead
    | negated hitems' => exact ⟨rfl, hitems.unique hitems'⟩

/-! ## Flags and quotes -/

theorem flagByte_dash : flagByte (ch '-') = false ∧ flagByte (ch ')') = false ∧ flagByte (ch ':') = false := by decide

theorem FlagText.unique {m m₁ m₁' : Mode} {fs fs' s s' : Bytes} {stop stop' : Byte}
    (hstop : stop = ch ')' ∨ stop = ch ':') (hstop' : stop' = ch ')' ∨ stop' = ch ':') (h : FlagText m fs m₁)
    (h' : FlagText m fs' m₁') (htext : fs ++ stop :: s = fs' ++ stop' :: s') : m₁ = m₁' ∧ stop = stop' ∧ s = s' := by
  have hend : ∀ {b : Byte}, b = ch ')' ∨ b = ch ':' → flagByte b = false ∧ b ≠ ch '-' := by
    rintro b (rfl | rfl) <;> decide
  have hall : ∀ {l : Bytes}, l.all flagByte = true → ∀ b ∈ l, flagByte b = true := fun h => List.all_eq_true.mp h
  cases h with
  | on hon =>
    cases h' with
    | on hon' =>
      obtain ⟨rfl, rfl, rfl⟩ := run_unique (hall hon) (hall hon') (hend hstop).1 (hend hstop').1 htext
      exact ⟨rfl, rfl, rfl⟩
    | off hon' _ _ =>
      rw [List.append_assoc] at htext
      have := (run_unique (hall hon) (hall hon') (hend hstop).1 flagByte_dash.1 htext).2.1
      exact absurd this (hend hstop).2
  | off hon hoff _ =>
    rw [List.append_assoc] at htext
    cases h' with
    | on hon' =>
      have := (run_unique (hall hon) (hall hon') flagByte_dash.1 (hend hstop').1 htext).2.1
      exact absurd this.symm (hend hstop').2
    | off hon' hoff' _ =>
      rw [List.append_assoc] at htext
      obtain ⟨rfl, -, hrest⟩ := run_unique (hall hon) (hall hon') flagByte_dash.1 flagByte_dash.1 htext
      obtain ⟨rfl, rfl, rfl⟩ := run_unique (hall hoff) (hall hoff') (hend hstop).1 (hend hstop').1 hrest
      exact ⟨rfl, rfl, rfl⟩

theorem FlagText.head {m m₁ : Mode} {fs s t : Bytes} {stop b : Byte} (h : FlagText m fs m₁)
    (heq : fs ++ stop :: s = b :: t) : flagByte b = true ∨ b = ch '-' ∨ b = stop := by
  cases fs with
  | nil => exact .inr (.inr (List.cons.inj heq).1.symm)
  | cons d fs =>
    obtain ⟨rfl, -⟩ := List.cons.inj heq
    generalize hfs : d :: fs = l at h
    cases h with
    | on hon =>
      subst hfs
      exact .inl (List.all_eq_true.mp hon d List.mem_cons_self)
    | @off on off hon _ _ =>
      cases on with
      | nil => exact .inr (.inl (List.cons.inj hfs).1)
      | cons c on =>
        obtain ⟨rfl, -⟩ := List.cons.inj hfs
        exact .inl (List.all_eq_true.mp hon d List.mem_cons_self)

theorem Setter.unique {m m₁ m₁' : Mode} {s s₁ s₁' : Bytes} (h : Setter m s m₁ s₁) (h' : Setter m s m₁' s₁') :
    m₁ = m₁' ∧ s₁ = s₁' := by
  have hmode : ∀ {b : Bool}, b = true → b = false → False := fun h h' => by rw [h] at h'; cases h'
  generalize htext : s = text at h'
  cases h with
  | flags hq hflags =>
    cases h' with
    | flags _ hflags' =>
      have heq := (List.cons.inj (List.cons.inj htext).2).2
      obtain ⟨rfl, -, rfl⟩ := FlagText.unique (.inl rfl) (.inl rfl) hflags hflags' heq
      exact ⟨rfl, rfl⟩
    | quote _ => exact absurd (List.cons.inj htext).1 (by decide)
    | unquote hq' => exact (hmode hq' hq).elim
  | quote hq =>
    cases h' with
    | flags _ _ => exact absurd (List.cons.inj htext).1 (by decide)
    | quote _ => exact ⟨rfl, (List.cons.inj (List.cons.inj htext).2).2⟩
    | unquote hq' => exact (hmode hq' hq).elim
  | unquote hq =>
    cases h' with
    | flags hq' _ => exact (hmode hq hq').elim
    | quote hq' => exact (hmode hq hq').elim
    | unquote _ => exact ⟨rfl, (List.cons.inj (List.cons.inj htext).2).2⟩

theorem Quantifier.not_setter {m m₁ : Mode} {s s₁ r : Bytes} {min : Nat} {max : Option Nat}
    (h : Quantifier s min max r) : ¬ Setter m s m₁ s₁ := by
  intro hsetter
  generalize htext : s = text at hsetter
  cases h <;> cases hsetter <;> exact absurd (List.cons.inj htext).1 (by decide)

theorem Gap.unique {m m₁ m₁' : Mode} {s s₁ s₁' r r' : Bytes} {min min' : Nat} {max max' : Option Nat}
    (h : Gap m s m₁ s₁) (h' : Gap m s m₁' s₁') (hq : Quantifier s₁ min max r) (hq' : Quantifier s₁' min' max' r') :
    m₁ = m₁' ∧ s₁ = s₁' := by
  induction h with
  | nil =>
    cases h' with
    | nil => exact ⟨rfl, rfl⟩
    | cons hsetter _ => exact absurd hsetter hq.not_setter
  | cons hsetter _ ih =>
    cases h' with
    | nil => exact absurd hsetter hq'.not_setter
    | cons hsetter' hgap' =>
      obtain ⟨rfl, rfl⟩ := hsetter.unique hsetter'
      exact ih hgap' hq

/-! ## Atoms -/

/-- The first bytes of the atoms outside of quotes that are no literals. -/
theorem literal_head {c : Char} {s t : Bytes} {b : Byte} (hmeta : ∀ d ∈ (encode c).head?, metaByte d = false)
    (h : encode c ++ s = b :: t) : metaByte b = false := by
  obtain ⟨d, w, hdw⟩ := List.exists_cons_of_ne_nil (encode_ne_nil c)
  rw [hdw] at h hmeta
  rw [← (List.cons.inj h).1]
  exact hmeta d rfl

theorem Atom.ne_nil {m : Mode} {s r : Bytes} {t : Tree} (h : Atom m s t r) : s ≠ [] := by
  cases h with
  | literal _ _ | quoted _ _ => exact fun hnil => encode_ne_nil _ (List.append_eq_nil_iff.mp hnil).1
  | brace | caret | dollar | dot | charClass | escape | capture | named | flagged => exact List.cons_ne_nil _ _

theorem Atom.not_ends {m : Mode} {b : Byte} {s r : Bytes} {t : Tree} (hq : m.quoted = false)
    (hb : b = ch '|' ∨ b = ch ')') : ¬ Atom m (b :: s) t r := by
  intro h
  have hmeta : metaByte b = true := by rcases hb with rfl | rfl <;> rfl
  have hne : ∀ {c : Byte}, c ≠ ch '|' → c ≠ ch ')' → b ≠ c := by
    rintro c hbar hclose rfl
    exact hb.elim hbar hclose
  generalize htext : b :: s = text at h
  cases h with
  | literal _ hliteral =>
    rw [literal_head hliteral htext.symm] at hmeta
    cases hmeta
  | quoted hquoted _ =>
    rw [hq] at hquoted
    cases hquoted
  | brace | caret | dollar | dot | charClass | escape | capture | named | flagged =>
    exact absurd (List.cons.inj htext).1 (hne (by decide) (by decide))

theorem Quantifier.not_atom {m : Mode} {s s' r : Bytes} {t : Tree} {min : Nat} {max : Option Nat}
    (hq : m.quoted = false) (h : Quantifier s min max r) : ¬ Atom m s t s' := by
  intro hatom
  obtain ⟨b, s, rfl⟩ := List.exists_cons_of_ne_nil hatom.ne_nil
  have hhead : b = ch '*' ∨ b = ch '+' ∨ b = ch '?' ∨ b = ch '\x7b' := by
    generalize htext : b :: s = text at h
    cases h with
    | star => exact .inl (List.cons.inj htext).1
    | plus => exact .inr (.inl (List.cons.inj htext).1)
    | quest => exact .inr (.inr (.inl (List.cons.inj htext).1))
    | counted _ _ => exact .inr (.inr (.inr (List.cons.inj htext).1))
  generalize htext : b :: s = text at hatom
  cases hatom with
  | literal _ hliteral =>
    have hmeta := literal_head hliteral htext.symm
    rcases hhead with rfl | rfl | rfl | rfl <;> cases hmeta
  | quoted hquoted _ =>
    rw [hq] at hquoted
    cases hquoted
  | brace _ hnone =>
    obtain ⟨rfl, rfl⟩ := List.cons.inj htext
    cases h with
    | counted hrep _ => exact hnone _ _ _ hrep
  | caret | dollar | dot | charClass | escape | capture | named | flagged =>
    obtain ⟨rfl, -⟩ := List.cons.inj htext
    rcases hhead with h | h | h | h <;> exact absurd h (by decide)

theorem Setter.not_atom {m m₁ : Mode} {s s₁ r : Bytes} {t : Tree} (h : Setter m s m₁ s₁) : ¬ Atom m s t r := by
  intro hatom
  generalize htext : s = text at hatom
  cases h with
  | flags hq hflags =>
    cases hatom with
    | literal _ hliteral => exact absurd (literal_head hliteral htext.symm) (by decide)
    | quoted hquoted _ =>
      rw [hq] at hquoted
      cases hquoted
    | capture _ hhead _ =>
      obtain ⟨-, rfl⟩ := List.cons.inj htext
      exact absurd rfl hhead
    | named _ hopening _ _ =>
      have heq := (List.cons.inj (List.cons.inj htext).2).2
      rcases hopening with rfl | rfl <;> exact absurd (hflags.head heq) (by decide)
    | flagged _ hflags' _ =>
      have heq := (List.cons.inj (List.cons.inj htext).2).2
      exact absurd (FlagText.unique (.inl rfl) (.inr rfl) hflags hflags' heq).2.1 (by decide)
    | brace | caret | dollar | dot | charClass | escape => exact absurd (List.cons.inj htext).1 (by decide)
  | quote hq =>
    cases hatom with
    | literal _ hliteral => exact absurd (literal_head hliteral htext.symm) (by decide)
    | quoted hquoted _ =>
      rw [hq] at hquoted
      cases hquoted
    | escape _ hescape =>
      obtain ⟨-, rfl⟩ := List.cons.inj htext
      exact absurd (by decide) hescape.kind
    | brace | caret | dollar | dot | charClass | capture | named | flagged =>
      exact absurd (List.cons.inj htext).1 (by decide)
  | unquote hq =>
    cases hatom with
    | quoted _ hnot => exact absurd htext.symm (hnot _)
    | literal h _ | brace h _ | caret h | dollar h | dot h | charClass h _ | escape h _ | capture h _ _ | named h _ _ _
    | flagged h _ _ =>
      rw [hq] at h
      cases h

theorem Quantifier.not_pieces {m m' : Mode} {s s' r : Bytes} {t : Tree} {min : Nat} {max : Option Nat}
    (hq : m.quoted = false) (h : Quantifier s min max r) : ¬ Pieces m s t m' s' := by
  intro hpieces
  cases hpieces with
  | done hend =>
    rcases hend with rfl | ⟨-, hend⟩
    · cases h
    · cases h <;> exact hend.elim (fun h => absurd (Option.some.inj h) (by decide)) fun h =>
        absurd (Option.some.inj h) (by decide)
  | flags hsetter _ _ | quote hsetter _ _ => exact h.not_setter hsetter
  | piece hatom _ _ => exact h.not_atom hq hatom

theorem Setter.not_done {m m₁ : Mode} {s s₁ : Bytes} (h : Setter m s m₁ s₁) :
    ¬ (s = [] ∨ m.quoted = false ∧ (s.head? = some (ch '|') ∨ s.head? = some (ch ')'))) := by
  rintro (rfl | ⟨-, hend⟩)
  · cases h
  · cases h <;> exact hend.elim (fun h => absurd (Option.some.inj h) (by decide)) fun h =>
      absurd (Option.some.inj h) (by decide)

theorem Atom.not_done {m : Mode} {s r : Bytes} {t : Tree} (h : Atom m s t r) :
    ¬ (s = [] ∨ m.quoted = false ∧ (s.head? = some (ch '|') ∨ s.head? = some (ch ')'))) := by
  obtain ⟨b, s, rfl⟩ := List.exists_cons_of_ne_nil h.ne_nil
  rintro (hnil | ⟨hq, hend⟩)
  · cases hnil
  · exact Atom.not_ends hq (hend.imp Option.some.inj Option.some.inj) h

/-- A setter in front of pieces is taken. -/
theorem Pieces.behind_setter {m m₁ m' : Mode} {s s₁ s' : Bytes} {t : Tree} (h : Pieces m s t m' s')
    (hsetter : Setter m s m₁ s₁) : ∃ u, Pieces m₁ s₁ u m' s' := by
  cases h with
  | done hend => exact absurd hend hsetter.not_done
  | flags hsetter' _ h | quote hsetter' _ h =>
    obtain ⟨rfl, rfl⟩ := hsetter.unique hsetter'
    exact ⟨_, h⟩
  | piece hatom _ _ => exact absurd hatom hsetter.not_atom

theorem Pieces.behind_gap {m m₁ m' : Mode} {s s₁ s' : Bytes} {t : Tree} (h : Pieces m s t m' s')
    (hgap : Gap m s m₁ s₁) : ∃ u, Pieces m₁ s₁ u m' s' := by
  induction hgap generalizing t with
  | nil => exact ⟨t, h⟩
  | cons hsetter _ ih =>
    obtain ⟨u, hu⟩ := h.behind_setter hsetter
    exact ih hu

theorem Suffix.unique {stacked : Bool} {m m₁ m₁' m' m'' : Mode} {s s₁ s₁' s' s'' : Bytes} {t u u' v v' : Tree}
    (h : Suffix stacked m s t m₁ s₁ u) (h' : Suffix stacked m s t m₁' s₁' u') (hrest : Pieces m₁ s₁ v m' s')
    (hrest' : Pieces m₁' s₁' v' m'' s'') : m₁ = m₁' ∧ s₁ = s₁' ∧ u = u' := by
  have hapart : ∀ {m m₁ m₂ m' : Mode} {s s₁ s₂ s' r : Bytes} {t : Tree} {min : Nat} {max : Option Nat},
      Setter m s m₁ s₁ → Gap m₁ s₁ m₂ s₂ → m₂.quoted = false → Quantifier s₂ min max r → ¬ Pieces m s t m' s' := by
    intro m m₁ m₂ m' s s₁ s₂ s' r t min max hsetter hgap hplain hq h
    obtain ⟨u, hu⟩ := h.behind_gap (.cons hsetter hgap)
    exact hq.not_pieces hplain hu
  induction h with
  | done =>
    cases h' with
    | done => exact ⟨rfl, rfl, rfl⟩
    | here hplain hq _ => exact absurd hrest (hq.not_pieces hplain)
    | apart hsetter hgap hplain hq _ => exact absurd hrest (hapart hsetter hgap hplain hq)
  | here hplain hq _ ih =>
    cases h' with
    | done => exact absurd hrest' (hq.not_pieces hplain)
    | here _ hq' hsuffix' =>
      obtain ⟨rfl, rfl, rfl⟩ := hq.unique hq'
      exact ih hsuffix' hrest
    | apart hsetter _ _ _ _ => exact absurd hsetter hq.not_setter
  | apart hsetter hgap hplain hq _ ih =>
    cases h' with
    | done => exact absurd hrest' (hapart hsetter hgap hplain hq)
    | here _ hq' _ => exact absurd hsetter hq'.not_setter
    | apart hsetter' hgap' _ hq' hsuffix' =>
      obtain ⟨rfl, rfl⟩ := hsetter.unique hsetter'
      obtain ⟨rfl, rfl⟩ := hgap.unique hgap' hq hq'
      obtain ⟨rfl, rfl, rfl⟩ := hq.unique hq'
      exact ih hsuffix' hrest

/-! ## Patterns -/

theorem group_unique {m m' : Mode} {t t' : Tree} {r r' : Bytes}
    (h : t = t' ∧ m = m' ∧ ch ')' :: r = ch ')' :: r') : t = t' ∧ r = r' :=
  ⟨h.1, (List.cons.inj h.2.2).2⟩

theorem opening_unique {opening opening' s s' : Bytes} (h : opening = [ch 'P', ch '<'] ∨ opening = [ch '<'])
    (h' : opening' = [ch 'P', ch '<'] ∨ opening' = [ch '<']) (heq : opening ++ s = opening' ++ s') : s = s' := by
  rcases h with rfl | rfl <;> rcases h' with rfl | rfl
  · exact (List.cons.inj (List.cons.inj heq).2).2
  · exact absurd (List.cons.inj heq).1 (by decide)
  · exact absurd (List.cons.inj heq).1 (by decide)
  · exact (List.cons.inj heq).2

mutual

theorem Alternation.unique : ∀ {m m₁ : Mode} {s r : Bytes} {t : Tree}, Alternation m s t m₁ r →
    ∀ {m₁' : Mode} {r' : Bytes} {t' : Tree}, Alternation m s t' m₁' r' → t = t' ∧ m₁ = m₁' ∧ r = r'
  | _, _, _, _, _, .one h hend, _, _, _, h' => by
    cases h' with
    | one h' _ => exact Pieces.unique h h'
    | more h' _ =>
      obtain ⟨-, -, rfl⟩ := Pieces.unique h h'
      exact absurd rfl hend
  | _, _, _, _, _, .more h hmore, _, _, _, h' => by
    cases h' with
    | one h' hend =>
      obtain ⟨-, -, rfl⟩ := Pieces.unique h h'
      exact absurd rfl hend
    | more h' hmore' =>
      obtain ⟨rfl, rfl, hs⟩ := Pieces.unique h h'
      obtain ⟨-, rfl⟩ := List.cons.inj hs
      obtain ⟨rfl, hrest⟩ := Alternation.unique hmore hmore'
      exact ⟨rfl, hrest⟩

theorem Pieces.unique : ∀ {m m₁ : Mode} {s r : Bytes} {t : Tree}, Pieces m s t m₁ r →
    ∀ {m₁' : Mode} {r' : Bytes} {t' : Tree}, Pieces m s t' m₁' r' → t = t' ∧ m₁ = m₁' ∧ r = r'
  | _, _, _, _, _, .done hend, _, _, _, h' => by
    cases h' with
    | done _ => exact ⟨rfl, rfl, rfl⟩
    | flags h _ _ | quote h _ _ => exact absurd hend h.not_done
    | piece h _ _ => exact absurd hend h.not_done
  | _, _, _, _, _, .flags hsetter hq h, _, _, _, h' => by
    cases h' with
    | done hend => exact absurd hend hsetter.not_done
    | flags hsetter' _ h' =>
      obtain ⟨rfl, rfl⟩ := hsetter.unique hsetter'
      exact Pieces.unique h h'
    | quote hsetter' hq' _ =>
      obtain ⟨rfl, -⟩ := hsetter.unique hsetter'
      rw [hq] at hq'
      cases hq'
    | piece hatom _ _ => exact absurd hatom hsetter.not_atom
  | _, _, _, _, _, .quote hsetter hq h, _, _, _, h' => by
    cases h' with
    | done hend => exact absurd hend hsetter.not_done
    | flags hsetter' hq' _ =>
      obtain ⟨rfl, -⟩ := hsetter.unique hsetter'
      rw [hq] at hq'
      cases hq'
    | quote hsetter' _ h' =>
      obtain ⟨rfl, rfl⟩ := hsetter.unique hsetter'
      obtain ⟨rfl, hrest⟩ := Pieces.unique h h'
      exact ⟨rfl, hrest⟩
    | piece hatom _ _ => exact absurd hatom hsetter.not_atom
  | _, _, _, _, _, .piece hatom hsuffix h, _, _, _, h' => by
    cases h' with
    | done hend => exact absurd hend hatom.not_done
    | flags hsetter _ _ | quote hsetter _ _ => exact absurd hatom hsetter.not_atom
    | piece hatom' hsuffix' h' =>
      obtain ⟨rfl, rfl⟩ := Atom.unique hatom hatom'
      obtain ⟨rfl, rfl, rfl⟩ := hsuffix.unique hsuffix' h h'
      obtain ⟨rfl, hrest⟩ := Pieces.unique h h'
      exact ⟨rfl, hrest⟩

theorem Atom.unique : ∀ {m : Mode} {s r : Bytes} {t : Tree}, Atom m s t r → ∀ {r' : Bytes} {t' : Tree},
    Atom m s t' r' → t = t' ∧ r = r'
  | _, _, _, _, @Atom.literal _ c s hq hmeta, _, _, h' => by
    generalize htext : encode c ++ s = text at h'
    cases h' with
    | literal _ _ =>
      obtain ⟨rfl, rfl⟩ := encode_append_inj htext
      exact ⟨rfl, rfl⟩
    | quoted hq' _ => simp [hq] at hq'
    | brace | caret | dollar | dot | charClass | escape | capture | named | flagged =>
      exact absurd (literal_head hmeta htext) (by decide)
  | _, _, _, _, @Atom.quoted _ c s hq _, _, _, h' => by
    generalize htext : encode c ++ s = text at h'
    cases h' with
    | quoted _ _ =>
      obtain ⟨rfl, rfl⟩ := encode_append_inj htext
      exact ⟨rfl, rfl⟩
    | literal hq' _ | brace hq' _ | caret hq' | dollar hq' | dot hq' | charClass hq' _ | escape hq' _ | capture hq' _ _
    | named hq' _ _ _ | flagged hq' _ _ => simp [hq] at hq'
  | _, _, _, _, @Atom.brace _ s hq _, _, _, h' => by
    generalize htext : ch '\x7b' :: s = text at h'
    cases h' with
    | literal _ hmeta => exact absurd (literal_head hmeta htext.symm) (by decide)
    | quoted hq' _ => simp [hq] at hq'
    | brace _ _ =>
      obtain ⟨-, rfl⟩ := List.cons.inj htext
      exact ⟨rfl, rfl⟩
    | caret | dollar | dot | charClass | escape | capture | named | flagged =>
      exact absurd (List.cons.inj htext).1 (by decide)
  | _, _, _, _, @Atom.caret _ s hq, _, _, h' => by
    generalize htext : ch '^' :: s = text at h'
    cases h' with
    | literal _ hmeta => exact absurd (literal_head hmeta htext.symm) (by decide)
    | quoted hq' _ => simp [hq] at hq'
    | caret _ => exact ⟨rfl, (List.cons.inj htext).2⟩
    | brace | dollar | dot | charClass | escape | capture | named | flagged =>
      exact absurd (List.cons.inj htext).1 (by decide)
  | _, _, _, _, @Atom.dollar _ s hq, _, _, h' => by
    generalize htext : ch '$' :: s = text at h'
    cases h' with
    | literal _ hmeta => exact absurd (literal_head hmeta htext.symm) (by decide)
    | quoted hq' _ => simp [hq] at hq'
    | dollar _ => exact ⟨rfl, (List.cons.inj htext).2⟩
    | brace | caret | dot | charClass | escape | capture | named | flagged =>
      exact absurd (List.cons.inj htext).1 (by decide)
  | _, _, _, _, @Atom.dot _ s hq, _, _, h' => by
    generalize htext : ch '.' :: s = text at h'
    cases h' with
    | literal _ hmeta => exact absurd (literal_head hmeta htext.symm) (by decide)
    | quoted hq' _ => simp [hq] at hq'
    | dot _ => exact ⟨rfl, (List.cons.inj htext).2⟩
    | brace | caret | dollar | charClass | escape | capture | named | flagged =>
      exact absurd (List.cons.inj htext).1 (by decide)
  | _, _, _, _, @Atom.charClass _ _ _ s _ hq hclass, _, _, h' => by
    generalize htext : ch '[' :: s = text at h'
    cases h' with
    | literal _ hmeta => exact absurd (literal_head hmeta htext.symm) (by decide)
    | quoted hq' _ => simp [hq] at hq'
    | charClass _ hclass' =>
      obtain ⟨-, rfl⟩ := List.cons.inj htext
      obtain ⟨rfl, rfl, rfl⟩ := hclass.unique hclass'
      exact ⟨rfl, rfl⟩
    | brace | caret | dollar | dot | escape | capture | named | flagged =>
      exact absurd (List.cons.inj htext).1 (by decide)
  | _, _, _, _, @Atom.escape _ s _ _ hq hescape, _, _, h' => by
    generalize htext : ch '\\' :: s = text at h'
    cases h' with
    | literal _ hmeta => exact absurd (literal_head hmeta htext.symm) (by decide)
    | quoted hq' _ => simp [hq] at hq'
    | escape _ hescape' =>
      obtain ⟨-, rfl⟩ := List.cons.inj htext
      exact hescape.unique hescape'
    | brace | caret | dollar | dot | charClass | capture | named | flagged =>
      exact absurd (List.cons.inj htext).1 (by decide)
  | _, _, _, _, @Atom.capture _ _ s _ _ hq hhead hbody, _, _, h' => by
    generalize htext : ch '(' :: s = text at h'
    cases h' with
    | literal _ hmeta => exact absurd (literal_head hmeta htext.symm) (by decide)
    | quoted hq' _ => simp [hq] at hq'
    | capture _ _ hbody' =>
      obtain ⟨-, rfl⟩ := List.cons.inj htext
      obtain ⟨rfl, rfl⟩ := group_unique (Alternation.unique hbody hbody')
      exact ⟨rfl, rfl⟩
    | named _ _ _ _ | flagged _ _ _ =>
      obtain ⟨-, rfl⟩ := List.cons.inj htext
      exact absurd rfl hhead
    | brace | caret | dollar | dot | charClass | escape => exact absurd (List.cons.inj htext).1 (by decide)
  | _, _, _, _, @Atom.named _ _ opening name s _ _ hq hopening hname hbody, _, _, h' => by
    generalize htext : ch '(' :: ch '?' :: (opening ++ (name ++ ch '>' :: s)) = text at h'
    cases h' with
    | literal _ hmeta => exact absurd (literal_head hmeta htext.symm) (by decide)
    | quoted hq' _ => simp [hq] at hq'
    | capture _ hhead _ =>
      obtain ⟨-, rfl⟩ := List.cons.inj htext
      exact absurd rfl hhead
    | named _ hopening' hname' hbody' =>
      have heq := (List.cons.inj (List.cons.inj htext).2).2
      obtain ⟨rfl, rfl⟩ := run_until hname hname' (opening_unique hopening hopening' heq)
      obtain ⟨rfl, rfl⟩ := group_unique (Alternation.unique hbody hbody')
      exact ⟨rfl, rfl⟩
    | flagged _ hflags _ =>
      have heq := (List.cons.inj (List.cons.inj htext).2).2
      rcases hopening with rfl | rfl <;> exact absurd (hflags.head heq.symm) (by decide)
    | brace | caret | dollar | dot | charClass | escape => exact absurd (List.cons.inj htext).1 (by decide)
  | _, _, _, _, @Atom.flagged _ _ _ fs s _ _ hq hflags hbody, _, _, h' => by
    generalize htext : ch '(' :: ch '?' :: (fs ++ ch ':' :: s) = text at h'
    cases h' with
    | literal _ hmeta => exact absurd (literal_head hmeta htext.symm) (by decide)
    | quoted hq' _ => simp [hq] at hq'
    | capture _ hhead _ =>
      obtain ⟨-, rfl⟩ := List.cons.inj htext
      exact absurd rfl hhead
    | named _ hopening _ _ =>
      have heq := (List.cons.inj (List.cons.inj htext).2).2
      rcases hopening with rfl | rfl <;> exact absurd (hflags.head heq) (by decide)
    | flagged _ hflags' hbody' =>
      have heq := (List.cons.inj (List.cons.inj htext).2).2
      obtain ⟨rfl, -, rfl⟩ := FlagText.unique (.inr rfl) (.inr rfl) hflags hflags' heq
      exact group_unique (Alternation.unique hbody hbody')
    | brace | caret | dollar | dot | charClass | escape => exact absurd (List.cons.inj htext).1 (by decide)

end

theorem Reads.unique {pattern : Bytes} {t t' : Tree} (h : Reads pattern t) (h' : Reads pattern t') : t = t' := by
  obtain ⟨m, h⟩ := h
  obtain ⟨m', h'⟩ := h'
  exact (h.unique h').1

end Regexp
