import LlmGuard.Code.PlaceholderRegex
import LlmGuard.Pattern.Halts

/-!
# The bound on the length

`regex_max_len` adds up the lengths that the constructs of a pattern can take. Where it is no `SIZE_MAX`, no match is
longer.
-/

namespace LlmGuard

open Utf8

/-! ## Saturating arithmetic -/

theorem satAdd_spec (a b : Nat) : satAdd a b = sizeMax ∨ satAdd a b = a + b := by
  unfold satAdd
  split
  · exact .inl rfl
  · exact .inr rfl

theorem satAdd_sizeMax (b : Nat) : satAdd sizeMax b = sizeMax := by
  unfold satAdd sizeMax
  split <;> omega

theorem sizeMax_satAdd (a : Nat) : satAdd a sizeMax = sizeMax := by
  unfold satAdd sizeMax
  split <;> omega

/-- `parse_concat` adds up its pieces. -/
def sumLen (total : Nat) (ps : List (Nat × Bool)) : Nat := ps.foldl (fun total piece => satAdd total piece.1) total

theorem sumLen_sizeMax (ps : List (Nat × Bool)) : sumLen sizeMax ps = sizeMax := by
  induction ps with
  | nil => rfl
  | cons p ps ih =>
    unfold sumLen at ih ⊢
    rw [List.foldl_cons, satAdd_sizeMax, ih]

theorem sumLen_exact (ps : List (Nat × Bool)) (total : Nat) :
    sumLen total ps = sizeMax ∨ sumLen total ps = total + (ps.map (·.1)).sum := by
  induction ps generalizing total with
  | nil => exact .inr rfl
  | cons p ps ih =>
    have hstep : sumLen total (p :: ps) = sumLen (satAdd total p.1) ps := rfl
    rw [hstep, List.map_cons, List.sum_cons]
    rcases satAdd_spec total p.1 with hsat | hsum
    · rw [hsat]
      exact .inl (sumLen_sizeMax ps)
    · rw [hsum, ← Nat.add_assoc]
      exact ih (total + p.1)

theorem satAdd_eq_min (a : Nat) {b : Nat} (hb : b ≤ sizeMax) : satAdd a b = min sizeMax (a + b) := by
  unfold satAdd
  split <;> omega

theorem lt_mul_of_div_lt {a b n : Nat} (hb : b ≠ 0) (h : n / b < a) : n < a * b :=
  (Nat.div_lt_iff_lt_mul (Nat.pos_of_ne_zero hb)).mp h

theorem satMul_eq_min (a b : Nat) : satMul a b = min sizeMax (a * b) := by
  unfold satMul
  split
  · rename_i hzero
    rcases hzero with rfl | rfl <;> simp
  · rename_i hzero
    push Not at hzero
    split
    · rename_i hlarge
      exact (Nat.min_eq_left (Nat.le_of_lt (lt_mul_of_div_lt hzero.2 hlarge))).symm
    · rename_i hfits
      exact (Nat.min_eq_right ((Nat.le_div_iff_mul_le (Nat.pos_of_ne_zero hzero.2)).mp (Nat.not_lt.mp hfits))).symm

/-! ## Widths -/

/-- A character of `n` bytes has room where this one is written. -/
def HasRoom (c : Char) (n : Nat) : Prop :=
  n ≤ (encode c).length ∨ n ≤ 3 ∧ (c = 's' ∨ c = 'S' ∨ c = 'k' ∨ c = 'K')

theorem runeLen_ge (c : Char) (fold : Bool) : (encode c).length ≤ runeLen (encode c) fold := by
  unfold runeLen
  split
  · rename_i b hb
    rw [hb, List.length_singleton]
    split <;> omega
  · exact Nat.le_refl _

theorem HasRoom.runeLen {c : Char} {n : Nat} (h : HasRoom c n) : n ≤ runeLen (encode c) true := by
  rcases h with h | ⟨h, hc⟩
  · exact h.trans (runeLen_ge c true)
  · have hthree : LlmGuard.runeLen (encode c) true = 3 := by
      rcases hc with rfl | rfl | rfl | rfl <;> decide
    rwa [hthree]

/-! ## What folding adds -/

def ItemRoom : Regexp.ClassItem → Nat → Prop
  | .range lo hi, n => HasRoom lo n ∨ HasRoom hi n
  | .perl negated _, n => negated = true ∨ n ≤ 1
  | .posix _ _ _, _ => False
  -- `\p` is refused.
  | .property _ _, _ => True

/-- What case folding adds to a literal or a class is no wider than what is written, what RE2 takes for text is no
count for the parser, and what is quoted is text outside of quotes too. -/
def FoldsInRoom (U : Regexp.Unicode) : Regexp.Tree → Prop
  | .literal fold c => fold = true → 0x80 ≤ c.toNat → ∀ d, U.variant c d → (encode d).length ≤ (encode c).length
  | .brace _ behind => braceQuantifier behind = none
  | .charClass fold negated items => fold = true → negated = false → ∀ item ∈ items, ∀ d, item.Holds U true d →
      ∃ written ∈ items, ItemRoom written (encode d).length
  | .quote behind _ => PlainQuote behind
  | _ => True

/-- The length is the largest size, or no match is longer. -/
structure Bounds (U : Regexp.Unicode) (len : Nat) (t : Regexp.Tree) : Prop where
  le : len ≤ sizeMax
  sound : len = sizeMax ∨ ∀ {before w after}, Regexp.Matches U t before w after → w.length ≤ len

theorem Bounds.saturated {U : Regexp.Unicode} {t : Regexp.Tree} : Bounds U sizeMax t := ⟨Nat.le_refl _, .inl rfl⟩

theorem Bounds.small {U : Regexp.Unicode} {len : Nat} {t : Regexp.Tree} (hlen : len ≤ kUtf8Max)
    (h : ∀ {before w after}, Regexp.Matches U t before w after → w.length ≤ len) : Bounds U len t :=
  ⟨hlen.trans (by decide), .inr h⟩

/-! ## Concatenations and alternatives -/

section Row

variable {U : Regexp.Unicode}

theorem sumLen_bounds {ps : List (Nat × Bool)} {u : Regexp.Tree}
    (h : Strung lengthActions (FoldsInRoom U) (· ≤ kUtf8Max) (Bounds U) ps u) {total : Nat} (htotal : total ≤ sizeMax) :
    sumLen total ps ≤ sizeMax ∧ (sumLen total ps = sizeMax ∨
      ∀ {before w after}, Regexp.Matches U u before w after → total + w.length ≤ sumLen total ps) := by
  induction h generalizing total with
  | nil =>
    refine ⟨htotal, .inr fun hw => ?_⟩
    cases hw
    exact Nat.le_refl _
  | @piece x quantified ps t u hx _ ih =>
    have hstep : sumLen total ((x, quantified) :: ps) = sumLen (satAdd total x) ps := rfl
    have hmin := satAdd_eq_min total hx.le
    rw [hstep]
    obtain ⟨hle, hrest⟩ := ih (show satAdd total x ≤ sizeMax by omega)
    refine ⟨hle, ?_⟩
    rcases satAdd_spec total x with hsat | hsum
    · rw [hsat]
      exact .inl (sumLen_sizeMax ps)
    rcases hx.sound with rfl | hx
    · rw [sizeMax_satAdd]
      exact .inl (sumLen_sizeMax ps)
    refine hrest.imp_right fun hrest {before w after} hw => ?_
    cases hw with
    | cat hfirst hsecond =>
      have hfirst := hx hfirst
      have hsecond := hrest hsecond
      rw [hsum] at hsecond ⊢
      rw [List.length_append]
      omega
  | @setter x ps u hx _ ih =>
    -- What it is built into only raises the sum.
    have hstep : sumLen total ((x, false) :: ps) = sumLen (satAdd total x) ps := rfl
    have hmin := satAdd_eq_min total (hx.trans (by decide : kUtf8Max ≤ sizeMax))
    rw [hstep]
    obtain ⟨hle, hrest⟩ := ih (show satAdd total x ≤ sizeMax by omega)
    refine ⟨hle, hrest.imp_right fun hrest {before w after} hw => ?_⟩
    have := hrest hw
    omega
  | quote _ ih =>
    obtain ⟨hle, hrest⟩ := ih htotal
    refine ⟨hle, hrest.imp_right fun hrest {before w after} hw => ?_⟩
    cases hw with
    | quote hw => exact hrest hw
  | count _ hleaf hbrace _ _ _ =>
    rw [show braceQuantifier _ = none from hleaf] at hbrace
    cases hbrace
  | setterCount _ hleaf hbrace _ _ _ =>
    rw [show braceQuantifier _ = none from hleaf] at hbrace
    cases hbrace

theorem bounds_concat {ps : List (Nat × Bool)} {u : Regexp.Tree}
    (h : Strung lengthActions (FoldsInRoom U) (· ≤ kUtf8Max) (Bounds U) ps u) : Bounds U (lengthActions.concat ps) u := by
  obtain ⟨hle, hsum⟩ := sumLen_bounds h (Nat.zero_le _)
  refine ⟨hle, hsum.imp_right fun hsum {before w after} hw => ?_⟩
  have := hsum hw
  rwa [Nat.zero_add] at this

theorem le_foldl_max (xs : List Nat) (n : Nat) : n ≤ xs.foldl max n ∧ ∀ x ∈ xs, x ≤ xs.foldl max n := by
  induction xs generalizing n with
  | nil => exact ⟨Nat.le_refl n, by simp⟩
  | cons x xs ih =>
    obtain ⟨hle, hall⟩ := ih (max n x)
    rw [List.foldl_cons]
    exact ⟨(Nat.le_max_left n x).trans hle, List.forall_mem_cons.mpr ⟨(Nat.le_max_right n x).trans hle, hall⟩⟩

theorem foldl_max_bounded {xs : List Nat} {n k : Nat} (hn : n ≤ k) (hxs : ∀ x ∈ xs, x ≤ k) : xs.foldl max n ≤ k := by
  induction xs generalizing n with
  | nil => exact hn
  | cons x xs ih =>
    obtain ⟨hx, hxs⟩ := List.forall_mem_cons.mp hxs
    exact ih (Nat.max_le.mpr ⟨hn, hx⟩) hxs

/-- The branches after the first one only raise the length. -/
theorem Bounds.max {n m : Nat} {t : Regexp.Tree} (h : Bounds U n t) (hm : m ≤ sizeMax) : Bounds U (Nat.max n m) t where
  le := Nat.max_le.mpr ⟨h.le, hm⟩
  sound := by
    rcases h.sound with rfl | hsound
    · exact .inl (Nat.max_eq_left hm)
    · exact .inr fun hw => (hsound hw).trans (Nat.le_max_left _ _)

theorem bounds_alternation {x : Nat} {xs : List Nat} {t : Regexp.Tree} (h : Branched (Bounds U) x xs t) :
    Bounds U (lengthActions.alternation x xs) t := by
  have hfold : ∀ (xs : List Nat) (n m : Nat), xs.foldl max (Nat.max n m) = Nat.max n (xs.foldl max m) := by
    intro xs
    induction xs with
    | nil => exact fun _ _ => rfl
    | cons y xs ih =>
      intro n m
      rw [List.foldl_cons, List.foldl_cons, ← ih, show max (Nat.max n m) y = Nat.max n (max m y) from Nat.max_assoc n m y]
  induction h with
  | one hx => exact hx
  | @more x y ys t u hx hmore ih =>
    have hlen : lengthActions.alternation x (y :: ys) = Nat.max x (lengthActions.alternation y ys) := hfold ys x y
    rw [hlen]
    have hright : Bounds U (Nat.max x (lengthActions.alternation y ys)) u := by
      have hcomm : Nat.max x (lengthActions.alternation y ys) = Nat.max (lengthActions.alternation y ys) x :=
        Nat.max_comm _ _
      rw [hcomm]
      exact ih.max hx.le
    have hleft := hx.max ih.le
    refine ⟨hleft.le, ?_⟩
    rcases hleft.sound with hsat | hsound
    · exact .inl hsat
    rcases hright.sound with hsat | hsound'
    · exact .inl hsat
    refine .inr fun hw => ?_
    cases hw with
    | left hw => exact hsound hw
    | right hw => exact hsound' hw

/-! ## Repetitions -/

theorem repeat_length {t : Regexp.Tree} {n : Nat}
    (ht : ∀ {before w after}, Regexp.Matches U t before w after → w.length ≤ n) {apart : Bool} {min : Nat}
    {max : Option Nat} {before w after : Bytes}
    (h : Regexp.Matches U (.repeat apart min max t) before w after) :
    (n = 0 → w.length = 0) ∧ ∀ k ∈ max, w.length ≤ k * n := by
  generalize htree : Regexp.Tree.repeat apart min max t = tree at h
  induction h generalizing min max with
  | stop => exact ⟨fun _ => rfl, fun _ _ => Nat.zero_le _⟩
  | more hmax hx _ _ ih =>
    obtain ⟨rfl, rfl, rfl, rfl⟩ := Regexp.Tree.repeat.inj htree
    obtain ⟨hzero, hcount⟩ := ih rfl
    have hx := ht hx
    rw [List.length_append]
    refine ⟨fun hn => ?_, fun k hk => ?_⟩
    · have := hzero hn
      omega
    · obtain rfl := Option.mem_def.mp hk
      have hpos : k ≠ 0 := fun hk => hmax (by rw [hk])
      have hrest := hcount (k - 1) rfl
      obtain ⟨j, rfl⟩ := Nat.exists_eq_succ_of_ne_zero hpos
      rw [Nat.succ_sub_one] at hrest
      rw [Nat.succ_mul]
      omega
  | _ => cases htree

theorem parseRepeatCount_eq {ds : Bytes} (hds : Regexp.IsCount ds) : parseRepeatCount ds = digitsVal ds := by
  have hfold : ∀ (ds : Bytes) (v j : Nat), (∀ d ∈ ds, isDigit d = true) → v < 10 ^ j → j + ds.length ≤ 9 →
      ds.foldl (fun v c => satAdd (satMul v 10) (c.toNat - 48)) v = ds.foldl (fun v b => 10 * v + (b.toNat - 48)) v := by
    intro ds
    induction ds with
    | nil => exact fun _ _ _ _ _ => rfl
    | cons d ds ih =>
      intro v j hds hv hj
      obtain ⟨hd, hds⟩ := List.forall_mem_cons.mp hds
      simp only [isDigit, Bool.and_eq_true, decide_eq_true_eq, UInt8.le_iff_toNat_le] at hd
      have hd : d.toNat ≤ 57 := hd.2
      rw [List.length_cons] at hj
      have hpow : 10 ^ j ≤ 10 ^ 8 := Nat.pow_le_pow_right (by decide) (by omega)
      have hmul : satMul v 10 = 10 * v := by
        rw [satMul_eq_min, Nat.mul_comm, Nat.min_eq_right (by unfold sizeMax; omega)]
      have hadd : satAdd (10 * v) (d.toNat - 48) = 10 * v + (d.toNat - 48) := by
        rw [satAdd_eq_min _ (by unfold sizeMax; omega), Nat.min_eq_right (by unfold sizeMax; omega)]
      rw [List.foldl_cons, List.foldl_cons, hmul, hadd]
      exact ih _ (j + 1) hds (by rw [Nat.pow_succ]; omega) (by omega)
  exact hfold ds 0 0 hds.digits (by decide) (by have := hds.short; omega)

theorem bounds_quantified {q : Quantifier} {min : Nat} {max : Option Nat} {len : Nat} {t : Regexp.Tree}
    (hq : Counts q min max) (h : Bounds U len t) :
    Bounds U (lengthActions.quantified q len) (.repeat false min max t) := by
  have hunbounded : ∀ {max : Option Nat}, Bounds U (repeatLen len) (.repeat false min max t) := by
    intro max
    unfold repeatLen
    split
    · rename_i hzero
      refine .small (Nat.zero_le _) fun hw => Nat.le_of_eq ((repeat_length ?_ hw).1 hzero)
      rcases h.sound with hsat | hsound
      · exact absurd (hzero.symm.trans hsat) (by decide)
      · exact hsound
    · exact .saturated
  have hcounted : ∀ {k : Nat}, Bounds U (satMul k len) (.repeat false min (some k) t) := by
    intro k
    rw [satMul_eq_min]
    refine ⟨Nat.min_le_left _ _, ?_⟩
    rcases h.sound with hsat | hsound
    · cases k with
      | zero =>
        refine .inr fun hw => ?_
        cases hw with
        | stop => exact Nat.zero_le _
        | more hmax _ _ => exact absurd rfl hmax
      | succ k =>
        refine .inl (Nat.min_eq_left ?_)
        rw [hsat, Nat.succ_mul]
        exact Nat.le_add_left _ _
    · by_cases hfits : k * len ≤ sizeMax
      · rw [Nat.min_eq_right hfits]
        exact .inr fun hw => (repeat_length hsound hw).2 k rfl
      · exact .inl (Nat.min_eq_left (by omega))
  cases hq with
  | star => exact hunbounded
  | plus => exact hunbounded
  | quest =>
    refine ⟨h.le, h.sound.imp_right fun hsound {before w after} hw => ?_⟩
    have := (repeat_length hsound hw).2 1 rfl
    rwa [Nat.one_mul] at this
  | @exactly ds hds =>
    have hlen : lengthActions.quantified (.braces ds none) len = satMul (digitsVal ds) len := by
      rw [← parseRepeatCount_eq hds]
      rfl
    rw [hlen]
    exact hcounted
  | atLeast _ => exact hunbounded
  | @between ds es _ hes =>
    have hlen : lengthActions.quantified (.braces ds (some es)) len = satMul (digitsVal es) len := by
      rw [← parseRepeatCount_eq hes]
      exact if_neg (by simpa using List.length_pos_iff.mp hes.pos)
    rw [hlen]
    exact hcounted

end Row

/-! ## Escapes -/

def perlLen (negated : Bool) : Nat := if negated then kUtf8Max else 1

set_option maxRecDepth 8192 in
theorem escapeLen_other {fold : Bool} {b : Byte} {s : Bytes} 
    (hb : (Regexp.wordByte b = false ∨ b = ch '_') ∨ Regexp.octal b = true) :
    escapeLen fold b s = if Regexp.octal b then .error .refused
      else .ok (runeLen (consumeRune b s).1 fold, (consumeRune b s).2) := by
  have hall : ∀ b : Byte, (Regexp.wordByte b = false ∨ b = ch '_') ∨ Regexp.octal b = true →
      (b = ch 'd' || b = ch 's' || b = ch 'w') = false ∧ (b = ch 'D' || b = ch 'S' || b = ch 'W') = false ∧
        (b = ch 'b' || b = ch 'B' || b = ch 'A' || b = ch 'z' || b = ch 'Z') = false ∧
        (b = ch 'n' || b = ch 't' || b = ch 'r' || b = ch 'f' || b = ch 'v' || b = ch 'a') = false ∧
        (b = ch 'p' || b = ch 'P') = false ∧ (b = ch 'x' || (ch '0' ≤ b && b ≤ ch '7')) = Regexp.octal b := by
    decide
  obtain ⟨hperl, hperl', hassertion, hcontrol, hproperty, hoctal⟩ := hall b hb
  simp only [escapeLen, hperl, hperl', hassertion, hcontrol, hproperty, hoctal, Bool.false_eq_true, if_false]

set_option maxRecDepth 8192 in
theorem not_octal {b : Byte} : Regexp.wordByte b = false ∨ b = ch '_' → Regexp.octal b = false := by
  revert b
  decide

theorem lengthActions_escapes : Escapes lengthActions (fun _ => False) perlLen where
  char {fold s c s' x rest} hchar h := by
    cases hchar with
    | @self b c s hb hword hc =>
      have h : escapeLen fold b s' = .ok (x, rest) := h
      rw [escapeLen_other (.inl hword), not_octal hword, consumeRune_self hb hc] at h
      obtain ⟨rfl, rfl⟩ := Prod.mk.inj (Except.ok.inj h)
      exact ⟨rfl, .inl rfl⟩
    | control hb =>
      have hok : (Except.ok (1, s') : Except ParseFailure _) = .ok (x, rest) → runeLen (encode c) fold = 1 →
          rest = s' ∧ (x = lengthActions.literal (encode c) fold ∨ False) := by
        intro h hone
        obtain ⟨rfl, rfl⟩ := Prod.mk.inj (Except.ok.inj h)
        exact ⟨rfl, .inl hone.symm⟩
      simp only [Regexp.controls, List.mem_cons, Prod.mk.injEq, List.not_mem_nil, or_false] at hb
      rcases hb with ⟨rfl, rfl⟩ | ⟨rfl, rfl⟩ | ⟨rfl, rfl⟩ | ⟨rfl, rfl⟩ | ⟨rfl, rfl⟩ | ⟨rfl, rfl⟩ <;>
        exact hok h (by cases fold <;> rfl)
    | @octal ds s c hall hpos hlen hnext _ _ =>
      obtain ⟨d, ds, rfl⟩ := List.exists_cons_of_ne_nil (List.length_pos_iff.mp hpos)
      have hd : Regexp.octal d = true := (List.forall_mem_cons.mp hall).1
      have h : escapeLen fold d (ds ++ s') = .ok (x, rest) := h
      rw [escapeLen_other (.inr hd), if_pos hd] at h
      cases h
    | hex _ => cases h
    | hexBraced _ => cases h
  perl {fold b negated p s x rest} hperl h := by
    have hok : ∀ {n}, (Except.ok (n, s) : Except ParseFailure _) = .ok (x, rest) → rest = s ∧ x = n := by
      intro n h
      obtain ⟨rfl, rfl⟩ := Prod.mk.inj (Except.ok.inj h)
      exact ⟨rfl, rfl⟩
    simp only [Regexp.perls, List.mem_cons, Prod.mk.injEq, List.not_mem_nil, or_false] at hperl
    rcases hperl with ⟨rfl, rfl, -⟩ | ⟨rfl, rfl, -⟩ | ⟨rfl, rfl, -⟩ | ⟨rfl, rfl, -⟩ | ⟨rfl, rfl, -⟩ | ⟨rfl, rfl, -⟩ <;>
      exact hok h
  property {fold s item s' x rest} hprop h := by
    have hrefused : ∀ {b s}, b = ch 'p' ∨ b = ch 'P' → parseEscape lengthActions fold (b :: s) ≠ .ok (x, rest) := by
      intro b s hb h
      rcases hb with rfl | rfl <;> cases h
    cases hprop with
    | letter hb _ => exact absurd h (hrefused hb)
    | braced hb _ _ => exact absurd h (hrefused hb)
    | excluded hb _ => exact absurd h (hrefused hb)

/-! ## Every construct -/

section Leaves

variable {U : Regexp.Unicode}

theorem perlRanges_ascii {p : Regexp.Perl} {c : Char} (h : Regexp.InRanges p.ranges c) : c.toNat < 0x80 := by
  obtain ⟨r, hr, -, hle⟩ := h
  have hall : ∀ r ∈ p.ranges, r.2 < 0x80 := by cases p <;> decide
  exact Nat.lt_of_le_of_lt hle (hall r hr)

theorem runeLen_le (c : Char) (fold : Bool) : runeLen (encode c) fold ≤ kUtf8Max := by
  have hle := encode_length_le c
  unfold runeLen
  split
  · split <;> decide
  · exact hle

theorem bounds_literal (hU : Regexp.FoldsAscii U) {fold fold' : Bool} {c : Char} (hfold : fold' = true → fold = true)
    (ht : FoldsInRoom U (.literal fold' c)) : Bounds U (runeLen (encode c) fold) (.literal fold' c) := by
  refine .small (runeLen_le c fold) fun hw => ?_
  cases hw with
  | @literal _ _ d _ _ hsame =>
    rcases hsame with rfl | ⟨hfolding, hvariant⟩
    · exact runeLen_ge _ fold
    rw [hfold hfolding]
    by_cases hc : c.toNat < 0x80
    · rcases hU hc hvariant with ⟨hd, -⟩ | ⟨hs, rfl⟩ | ⟨hk, rfl⟩
      · rw [encode_length_ascii hd, ← encode_length_ascii hc]
        exact runeLen_ge c true
      · exact HasRoom.runeLen (.inr ⟨by decide, hs.elim .inl fun h => .inr (.inl h)⟩)
      · exact HasRoom.runeLen (.inr ⟨by decide, .inr (.inr hk)⟩)
    · exact (ht hfolding (Nat.not_lt.mp hc) d hvariant).trans (runeLen_ge c true)

theorem class_length {fold negated : Bool} {items : List Regexp.ClassItem} {before w after : Bytes}
    (h : Regexp.Matches U (.charClass fold negated items) before w after) : w.length ≤ kUtf8Max := by
  cases h
  exact encode_length_le _

theorem bounds_perl {fold negated : Bool} {p : Regexp.Perl}
    (ht : FoldsInRoom U (.charClass fold false [.perl negated p])) :
    Bounds U (perlLen negated) (.charClass fold false [.perl negated p]) := by
  cases negated with
  | true => exact .small (Nat.le_refl _) class_length
  | false =>
    refine .small (by decide) fun hw => ?_
    cases hw with
    | @charClass _ _ _ d _ _ hd =>
      obtain ⟨item, hitem, hholds⟩ := hd.mp rfl
      obtain rfl := List.mem_singleton.mp hitem
      cases fold with
      | true =>
        obtain ⟨written, hwritten, hroom⟩ := ht rfl rfl _ hitem d hholds
        obtain rfl := List.mem_singleton.mp hwritten
        exact hroom.resolve_left (by decide)
      | false =>
        obtain ⟨c, hc, rfl | hsame⟩ := hholds.mp rfl
        · exact Nat.le_of_eq (encode_length_ascii (perlRanges_ascii hc))
        · cases hsame.1

section Class

variable {fold : Bool} {ks : List Token} {xs : List Nat}

theorem StandsFor.pos (h : StandsFor lengthActions (fun _ => False) perlLen fold ks xs) {x : Nat} (hx : x ∈ xs) :
    1 ≤ x := by
  obtain ⟨k, -, hvalue⟩ := h.sound x hx
  cases k with
  | char c =>
    obtain rfl := hvalue.resolve_right id
    exact (encode_pos c).trans_le (runeLen_ge c fold)
  | perl negated =>
    obtain rfl : x = perlLen negated := hvalue
    cases negated <;> decide
  | property => exact hvalue.elim

theorem StandsFor.widest (h : StandsFor lengthActions (fun _ => False) perlLen fold ks xs) (hne : xs ≠ []) {k : Token}
    (hk : k ∈ ks) {n : Nat} (hn : ∀ x, TokenValue lengthActions (fun _ => False) perlLen fold k x → n ≤ x) :
    n ≤ xs.foldl max 0 := by
  have hwidest := (le_foldl_max xs 0).2
  rcases h.complete k hk with rfl | ⟨x, hx, hvalue⟩
  · obtain ⟨x, hx⟩ := List.exists_mem_of_ne_nil xs hne
    have hone : n ≤ 1 := by
      have hdash := hn _ (.inl rfl)
      cases fold <;> exact hdash
    exact (hone.trans (h.pos hx)).trans (hwidest x hx)
  · exact (hn x hvalue).trans (hwidest x hx)

theorem StandsFor.char (h : StandsFor lengthActions (fun _ => False) perlLen fold ks xs) (hne : xs ≠ []) {c : Char}
    (hk : .char c ∈ ks) {n : Nat} (hn : n ≤ runeLen (encode c) fold) : n ≤ xs.foldl max 0 := by
  refine h.widest hne hk fun x hvalue => ?_
  rwa [show x = _ from hvalue.resolve_right id]

theorem StandsFor.le (h : StandsFor lengthActions (fun _ => False) perlLen fold ks xs) {x : Nat} (hx : x ∈ xs) :
    x ≤ kUtf8Max := by
  obtain ⟨k, -, hvalue⟩ := h.sound x hx
  cases k with
  | char c =>
    obtain rfl := hvalue.resolve_right id
    exact runeLen_le c fold
  | perl negated =>
    obtain rfl : x = perlLen negated := hvalue
    cases negated <;> decide
  | property => exact hvalue.elim

theorem StandsFor.listed (h : StandsFor lengthActions (fun _ => False) perlLen fold ks xs) (hne : xs ≠ [])
    {item : Regexp.ClassItem} (hitem : SpelledBy ks item) {d : Char} (hd : item.Holds U false d) :
    (encode d).length ≤ xs.foldl max 0 := by
  have hlists : item.negated = false → item.Lists U d := by
    intro hneg
    obtain ⟨c, hc, rfl | hsame⟩ := hd.mp hneg
    · exact hc
    · cases hsame.1
  cases item with
  | range lo hi => exact h.char hne hitem.2 ((encode_length_mono (hlists rfl).2).trans (runeLen_ge hi fold))
  | perl negated p =>
    refine h.widest hne hitem fun x hvalue => ?_
    obtain rfl : x = perlLen negated := hvalue
    cases negated with
    | true => exact encode_length_le d
    | false => exact Nat.le_of_eq (encode_length_ascii (perlRanges_ascii (hlists rfl)))
  | posix negated p behind => exact hitem.elim
  | property negated name => exact h.widest hne hitem fun x hvalue => hvalue.elim

theorem StandsFor.room (h : StandsFor lengthActions (fun _ => False) perlLen true ks xs) (hne : xs ≠ [])
    {item : Regexp.ClassItem} (hitem : SpelledBy ks item) {d : Char} (hroom : ItemRoom item (encode d).length) :
    (encode d).length ≤ xs.foldl max 0 := by
  cases item with
  | range lo hi =>
    rcases hroom with hroom | hroom
    · exact h.char hne hitem.1 hroom.runeLen
    · exact h.char hne hitem.2 hroom.runeLen
  | perl negated p =>
    refine h.widest hne hitem fun x hvalue => ?_
    obtain rfl : x = perlLen negated := hvalue
    rcases hroom with rfl | hone
    · exact encode_length_le d
    · exact hone.trans (by cases negated <;> decide)
  | posix negated p behind => exact hitem.elim
  | property negated name => exact h.widest hne hitem fun x hvalue => hvalue.elim

end Class

theorem bounds_class {fold fold' negated : Bool} {items : List Regexp.ClassItem} {ks : List Token} {xs : List Nat}
    (hfold : fold' = true → fold = true) (ht : FoldsInRoom U (.charClass fold' negated items)) (hne : xs ≠ [])
    (hfor : StandsFor lengthActions (fun _ => False) perlLen fold ks xs) (hitems : ∀ item ∈ items, SpelledBy ks item) :
    Bounds U (lengthActions.charClass negated xs) (.charClass fold' negated items) := by
  cases negated with
  | true => exact .small (Nat.le_refl _) class_length
  | false =>
    refine .small (foldl_max_bounded (Nat.zero_le _) fun x hx => hfor.le hx) fun hw => ?_
    cases hw with
    | @charClass _ _ _ d _ _ hd =>
      obtain ⟨item, hitem, hholds⟩ := hd.mp rfl
      cases fold' with
      | true =>
        obtain ⟨written, hwritten, hroom⟩ := ht rfl rfl _ hitem d hholds
        obtain rfl := hfold rfl
        exact hfor.room hne (hitems _ hwritten) hroom
      | false => exact hfor.listed hne (hitems _ hitem) hholds

end Leaves

theorem lengthActions_simulates {U : Regexp.Unicode} (hU : Regexp.FoldsAscii U) :
    Simulates lengthActions (fun _ => False) (· ≤ kUtf8Max) perlLen (FoldsInRoom U) (Bounds U) where
  consumes := lengthActions_consumes
  escapes := lengthActions_escapes
  literal hfold ht := bounds_literal hU hfold ht
  blindChar h := h.elim
  blindProperty _ h := h.elim
  perlClass := bounds_perl
  charClass := bounds_class
  anchor a := by
    refine .small (Nat.zero_le _) fun hw => ?_
    cases hw
    exact Nat.le_refl _
  assertion {fold b a s x rest} ha h := by
    have hok : (Except.ok (0, s) : Except ParseFailure _) = .ok (x, rest) → rest = s ∧ Bounds U x (.assertion a) := by
      intro h
      obtain ⟨rfl, rfl⟩ := Prod.mk.inj (Except.ok.inj h)
      refine ⟨rfl, .small (Nat.zero_le _) fun hw => ?_⟩
      cases hw
      exact Nat.le_refl _
    simp only [Regexp.assertions, List.mem_cons, Prod.mk.injEq, List.not_mem_nil, or_false] at ha
    rcases ha with ⟨rfl, -⟩ | ⟨rfl, -⟩ | ⟨rfl, -⟩ | ⟨rfl, -⟩ <;> exact hok h
  anyByte {fold s x rest} h := by
    have h : (Except.ok (runeLen [ch 'C'] fold, s) : Except ParseFailure _) = .ok (x, rest) := h
    obtain ⟨rfl, rfl⟩ := Prod.mk.inj (Except.ok.inj h)
    refine ⟨rfl, .small (by cases fold <;> decide) fun hw => ?_⟩
    cases hw
    rw [List.length_singleton]
    cases fold <;> decide
  dot newline := by
    refine .small (Nat.le_refl _) fun hw => ?_
    cases hw
    exact encode_length_le _
  flagSetter := Nat.zero_le _
  quoteMark {fold b s x rest} hb h := by
    have hok : ∀ {n}, n ≤ kUtf8Max → (Except.ok (n, s) : Except ParseFailure _) = .ok (x, rest) →
        rest = s ∧ x ≤ kUtf8Max := by
      intro n hn h
      obtain ⟨rfl, rfl⟩ := Prod.mk.inj (Except.ok.inj h)
      exact ⟨rfl, hn⟩
    rcases hb with rfl | rfl
    · exact @hok (runeLen [ch 'Q'] fold) (by cases fold <;> decide) h
    · exact @hok (runeLen [ch 'E'] fold) (by cases fold <;> decide) h
  quote h _ := h
  capture h := by
    refine ⟨h.le, h.sound.imp_right fun hsound {before w after} hw => ?_⟩
    cases hw with
    | capture hw => exact hsound hw
  quantified := bounds_quantified
  concat := bounds_concat
  alternation := bounds_alternation

/-- Where both readers agree on the pattern and what folding adds fits, or the parser gives up, no match is longer than
the bound. -/
theorem regexMaxLen_bounds {U : Regexp.Unicode} (hU : Regexp.FoldsAscii U) {pattern : Bytes} {t : Regexp.Tree}
    (hre : Regexp.Reads pattern t) (halike : ReadAlike lengthActions (FoldsInRoom U) pattern t) :
    (regexMaxLen pattern = sizeMax ∨
        ∀ before w after, Regexp.Matches U t before w after → w.length ≤ regexMaxLen pattern) ∧
      ∀ a b, b ≤ sizeMax → satAdd a b = min sizeMax (a + b) ∧ satMul a b = min sizeMax (a * b) := by
  refine ⟨?_, fun a b hb => ⟨satAdd_eq_min a hb, satMul_eq_min a b⟩⟩
  unfold regexMaxLen
  cases hparse : parsePattern lengthActions pattern with
  | error e => exact .inl rfl
  | ok len =>
    obtain ⟨m', hre⟩ := hre
    have hbounds := simulates_of_reads (lengthActions_simulates hU) rfl rfl halike hre hparse
    exact hbounds.sound.imp_right fun hsound _ _ _ hw => hsound hw

theorem itemText_range {lo hi : Char} {a b : Byte} {s : Bytes} (hlo : encode lo = [a] ∧ lo ≠ '\\' ∧ a ≠ ch '[')
    (hhi : encode hi = [b] ∧ hi ≠ '\\' ∧ b ≠ ch ']') (hle : lo.toNat ≤ hi.toNat) :
    Regexp.ItemText (a :: ch '-' :: b :: s) (.range lo hi) s := by
  have hchar : ∀ {c : Char} {a : Byte} {s : Bytes}, encode c = [a] → c ≠ '\\' → Regexp.ClassChar (a :: s) c s := by
    intro c a s ha hc
    have := Regexp.ClassChar.plain (s := s) hc
    rwa [ha, List.singleton_append] at this
  refine .range ?_ (hchar hlo.1 hlo.2.1) (fun hclose => hhi.2.2 (Option.some.inj hclose)) (hchar hhi.1 hhi.2.1) hle
  rintro ⟨name, rest, hstart⟩
  exact hlo.2.2 (List.cons.inj hstart).1

/-- The tree of `(?i)k[0-9]\x7b2\x7d`. -/
def kelvinTree : Regexp.Tree :=
  .cat (.literal true 'k') (.cat (.repeat false 2 (some 2) (.charClass true false [.range '0' '9'])) .empty)

/-- The Kelvin sign and two digits take all five bytes. -/
theorem regexMaxLen_bounds_kelvin :
    regexMaxLen (ascii "(?i)k[0-9]\x7b2\x7d") = 5 ∧
      (regexMaxLen (ascii "(?i)k[0-9]\x7b2\x7d") = sizeMax ∨ ∀ before w after,
        Regexp.Matches Regexp.asciiUnicode kelvinTree before w after →
          w.length ≤ regexMaxLen (ascii "(?i)k[0-9]\x7b2\x7d")) ∧
      ∀ a b, b ≤ sizeMax → satAdd a b = min sizeMax (a + b) ∧ satMul a b = min sizeMax (a * b) := by
  have hcount : Regexp.IsCount [ch '2'] := ⟨by decide, by decide, by decide, by decide⟩
  have hquantifier : Regexp.Quantifier (ascii "\x7b2\x7d") 2 (some 2) [] :=
    .counted (.exactly hcount) ⟨by decide, by decide⟩
  have hitem : Regexp.ItemText (ascii "0-9]\x7b2\x7d") (.range '0' '9') (ascii "]\x7b2\x7d") :=
    itemText_range (a := ch '0') (b := ch '9') (by decide) (by decide) (by decide)
  have hclass : Regexp.ClassText (ascii "0-9]\x7b2\x7d") false [.range '0' '9'] (ascii "\x7b2\x7d") :=
    .plain (by decide) (.item (.inl rfl) hitem .close)
  have hpieces : Regexp.Pieces { fold := true } (ch 'k' :: ch '[' :: ascii "0-9]\x7b2\x7d") kelvinTree
      { fold := true } [] :=
    Pieces.letter rfl (by decide) (by decide) (.piece (.charClass rfl hclass) (.here rfl hquantifier .done) (.done (.inl rfl)))
  have hflags : Regexp.FlagText {} (ascii "i") { fold := true } := .on (by decide)
  have hre : Regexp.Reads (ascii "(?i)k[0-9]\x7b2\x7d") kelvinTree :=
    ⟨_, .one (.flags (.flags rfl hflags) rfl hpieces) (by decide)⟩
  have hliteral : FoldsInRoom Regexp.asciiUnicode (.literal true 'k') := fun _ hwide => absurd hwide (by decide)
  have hdigits : FoldsInRoom Regexp.asciiUnicode (.charClass true false [.range '0' '9']) := by
    intro _ _ item hitem d hd
    obtain rfl := List.mem_singleton.mp hitem
    refine ⟨_, hitem, .inl (.inl ?_)⟩
    obtain ⟨c, ⟨-, hhi⟩, hsame⟩ := hd.mp rfl
    have hc : c.toNat < 0x80 := Nat.lt_of_le_of_lt hhi (by decide)
    rcases hsame with rfl | ⟨-, ⟨-, hd, -⟩ | ⟨hs, -⟩ | ⟨hk, -⟩⟩
    · exact Nat.le_of_eq (encode_length_ascii hc)
    · exact Nat.le_of_eq (encode_length_ascii hd)
    · rcases hs with rfl | rfl <;> exact absurd hhi (by decide)
    · rcases hk with rfl | rfl <;> exact absurd hhi (by decide)
  have hordinary : Ordinary (FoldsInRoom Regexp.asciiUnicode) kelvinTree :=
    ⟨hliteral, ⟨rfl, fun _ _ _ hposix => absurd hposix (by simp), hdigits⟩, trivial⟩
  exact ⟨by decide +kernel, regexMaxLen_bounds Regexp.asciiUnicode_folds hre (.inl hordinary)⟩

/-- The Kelvin sign stands in the folded range, and its three bytes in none of the letters written. -/
theorem regexMaxLen_range :
    ¬ ∀ U : Regexp.Unicode, Regexp.FoldsAscii U → ∀ (pattern : Bytes) (t : Regexp.Tree), Regexp.Reads pattern t →
      regexMaxLen pattern = sizeMax ∨
        ∀ before w after, Regexp.Matches U t before w after → w.length ≤ regexMaxLen pattern := by
  intro h
  have hlen : regexMaxLen (ascii "(?i)[a-z]") = 1 := by decide +kernel
  have hitem : Regexp.ItemText (ascii "a-z]") (.range 'a' 'z') (ascii "]") :=
    itemText_range (a := ch 'a') (b := ch 'z') (by decide) (by decide) (by decide)
  have hclass : Regexp.ClassText (ascii "a-z]") false [.range 'a' 'z'] [] :=
    .plain (by decide) (.item (.inl rfl) hitem .close)
  have hflags : Regexp.FlagText {} (ascii "i") { fold := true } := .on (by decide)
  have hpieces : Regexp.Pieces { fold := true } (ch '[' :: ascii "a-z]")
      (.cat (.charClass true false [.range 'a' 'z']) .empty) { fold := true } [] :=
    .piece (.charClass rfl hclass) .done (.done (.inl rfl))
  have hre : Regexp.Reads (ascii "(?i)[a-z]") (.cat (.charClass true false [.range 'a' 'z']) .empty) :=
    ⟨_, .one (.flags (.flags rfl hflags) rfl hpieces) (by decide)⟩
  have hkelvin : Regexp.ClassItem.Holds Regexp.asciiUnicode true (.range 'a' 'z') '\u212A' :=
    ⟨fun _ => ⟨'k', ⟨by decide, by decide⟩, .inr ⟨rfl, .inr (.inr ⟨.inl rfl, rfl⟩)⟩⟩, fun _ => rfl⟩
  have hmatches : Regexp.Matches Regexp.asciiUnicode (.cat (.charClass true false [.range 'a' 'z']) .empty) []
      (encode '\u212A' ++ []) [] :=
    .cat (.charClass ⟨fun _ => ⟨_, List.mem_singleton_self _, hkelvin⟩, fun _ => rfl⟩) .empty
  rcases h _ Regexp.asciiUnicode_folds _ _ hre with hsat | hsound
  · rw [hlen] at hsat
    exact absurd hsat (by decide)
  · have hle := hsound _ _ _ hmatches
    rw [hlen] at hle
    exact absurd hle (by decide)

end LlmGuard
