import LlmGuard.Lib.CheckDigits
import LlmGuard.Validators.Checksums
import Mathlib.Data.ZMod.Basic
import Mathlib.Algebra.Field.ZMod
import Mathlib.Tactic.NormNum.Prime

/-!
# The check digits of the registers

INN, OGRN, OGRNIP and SNILS: a weighted sum to a prime, whose remainder is cut down to one digit or two. A wrong digit
or two exchanged neighbours pass exactly where the cut takes two remainders for the same.
-/

namespace LlmGuard

open CheckDigits

instance fact_prime_eleven : Fact (Nat.Prime 11) := ⟨by norm_num⟩

instance fact_prime_thirteen : Fact (Nat.Prime 13) := ⟨by norm_num⟩

instance fact_prime_hundredOne : Fact (Nat.Prime 101) := ⟨by norm_num⟩

/-! ## Sums to a prime -/

def digitValue (p : Nat) (b : Byte) : ZMod p := ((b.toNat - 48 : Nat) : ZMod p)

theorem digit_eq {b c : Byte} (hb : isDigit b) (hc : isDigit c) (h : b.toNat - 48 = c.toNat - 48) : b = c := by
  rw [isDigit_iff] at hb hc
  exact UInt8.toNat_inj.mp (by omega)

theorem digitValue_injective {p : Nat} (hp : 9 < p) {b c : Byte} (hb : isDigit b) (hc : isDigit c)
    (h : digitValue p b = digitValue p c) : b = c := by
  have hmod := (ZMod.natCast_eq_natCast_iff' _ _ _).mp h
  have hlt (b : Byte) (hb : isDigit b) : b.toNat - 48 < p := by
    rw [isDigit_iff] at hb
    omega
  rw [Nat.mod_eq_of_lt (hlt b hb), Nat.mod_eq_of_lt (hlt c hc)] at hmod
  exact digit_eq hb hc hmod

/-- Digits with weights that are not zero to the prime, and no two neighbours with the same. -/
def register (p : Nat) [Fact p.Prime] (size : Nat) (weight : Nat → Nat) (check : Nat → Bytes) (hp : 9 < p)
    (hweight : ∀ i < size, weight i % p ≠ 0) (hneighbours : ∀ i < size - 1, weight i % p ≠ weight (i + 1) % p) :
    Scheme Byte (ZMod p) where
  size := size
  legal b := isDigit b
  value := digitValue p
  weight i := (weight i : ZMod p)
  check r := check r.val
  value_injective := digitValue_injective hp
  weight_unit i hi := by
    rw [isUnit_iff_ne_zero, ne_eq, ZMod.natCast_eq_zero_iff, Nat.dvd_iff_mod_eq_zero]
    exact hweight i hi
  neighbours_unit i hi := by
    rw [isUnit_iff_ne_zero, sub_ne_zero, ne_eq, ZMod.natCast_eq_natCast_iff']
    exact hneighbours i (by omega)

theorem weightedSum_cons (s : Bytes) (w : Nat) (ws : List Nat) :
    weightedSum s (w :: ws) = digitAt s 0 * w + weightedSum s.tail ws := by
  have htail (i : Nat) : digitAt s (i + 1) = digitAt s.tail i := by simp [digitAt, List.getD, List.getElem?_tail]
  simp only [weightedSum, List.length_cons, List.range_succ_eq_map, List.map_cons, List.map_map, List.sum_cons,
    Function.comp_def, htail]
  rfl

theorem weightedSum_nil (ws : List Nat) : weightedSum [] ws = 0 := by
  have hzero (i : Nat) : digitAt [] i = 0 := rfl
  simp [weightedSum, hzero]

theorem cast_weightedSum (p : Nat) (ws : List Nat) (s : Bytes) : ((weightedSum s ws : Nat) : ZMod p) =
    total (fun i => ((ws.getD i 0 : Nat) : ZMod p)) (digitValue p) 0 (s.take ws.length) := by
  induction ws generalizing s with
  | nil => simp [weightedSum, total]
  | cons w ws ih =>
    cases s with
    | nil => simp [weightedSum_nil, total]
    | cons b s =>
      rw [weightedSum_cons, List.length_cons, List.take_succ_cons, total, total_succ]
      simp only [List.getD_cons_zero, List.getD_cons_succ, List.tail_cons, Nat.cast_add, Nat.cast_mul, ih s]
      rw [mul_comm]
      rfl

theorem cast_foldl_digits (p n : Nat) (s : Bytes) (v i : Nat) (hn : i + s.length = n) :
    ((s.foldl (fun v b => 10 * v + (b.toNat - 48)) v : Nat) : ZMod p) =
      v * 10 ^ s.length + total (fun j => ((10 ^ (n - 1 - j) : Nat) : ZMod p)) (digitValue p) i s := by
  induction s generalizing v i with
  | nil => simp [total]
  | cons b s ih =>
    simp only [List.length_cons] at hn
    rw [List.foldl_cons, ih _ (i + 1) (by omega), total, show n - 1 - i = s.length by omega]
    push_cast [digitValue, List.length_cons]
    ring

theorem cast_digitsVal (p : Nat) (s : Bytes) : ((digitsVal s : Nat) : ZMod p) =
    total (fun j => ((10 ^ (s.length - 1 - j) : Nat) : ZMod p)) (digitValue p) 0 s := by
  simpa [digitsVal] using cast_foldl_digits p s.length s 0 0 (by simp)

/-! ## The registers -/

def oneDigit (r : Nat) : Bytes := [digitChar (r % 10)]

def twoDigits (r : Nat) : Bytes :=
  let checksum := if 99 < r then 0 else r
  [digitChar (checksum / 10), digitChar (checksum % 10)]

def innOrg : Scheme Byte (ZMod 11) :=
  register 11 9 ([2, 4, 10, 3, 5, 9, 4, 6, 8].getD · 0) oneDigit (by decide) (by decide) (by decide)

def innPersonFirst : Scheme Byte (ZMod 11) :=
  register 11 10 ([7, 2, 4, 10, 3, 5, 9, 4, 6, 8].getD · 0) oneDigit (by decide) (by decide) (by decide)

def innPersonSecond : Scheme Byte (ZMod 11) :=
  register 11 11 ([3, 7, 2, 4, 10, 3, 5, 9, 4, 6, 8].getD · 0) oneDigit (by decide) (by decide) (by decide)

def ogrn : Scheme Byte (ZMod 11) :=
  register 11 12 (fun i => 10 ^ (12 - 1 - i)) oneDigit (by decide) (by decide) (by decide)

def ogrnip : Scheme Byte (ZMod 13) :=
  register 13 14 (fun i => 10 ^ (14 - 1 - i)) oneDigit (by decide) (by decide) (by decide)

def snils : Scheme Byte (ZMod 101) :=
  register 101 9 ([9, 8, 7, 6, 5, 4, 3, 2, 1].getD · 0) twoDigits (by decide) (by decide) (by decide)

/-- Remainders at a distance, of which the larger is written like the smaller. -/
def Apart (k r r' : Nat) : Prop := r + k = r' ∨ r' + k = r

theorem oneDigit_eq_iff {r r' : Nat} : oneDigit r = oneDigit r' ↔ r % 10 = r' % 10 := by
  refine ⟨fun h => ?_, fun h => by rw [oneDigit, oneDigit, h]⟩
  have hdigit := congrArg UInt8.toNat (List.cons.inj h).1
  rw [digitChar_toNat (by omega), digitChar_toNat (by omega)] at hdigit
  omega

theorem twoDigits_eq_iff {r r' : Nat} (hr : r < 101) (hr' : r' < 101) :
    twoDigits r = twoDigits r' ↔ (if 99 < r then 0 else r) = if 99 < r' then 0 else r' := by
  refine ⟨fun h => ?_, fun h => by rw [twoDigits, twoDigits, h]⟩
  simp only [twoDigits, List.cons.injEq, and_true] at h
  have hlt (r : Nat) (hr : r < 101) : (if 99 < r then 0 else r) < 100 := by split <;> omega
  have htens := congrArg UInt8.toNat h.1
  have hunits := congrArg UInt8.toNat h.2
  have hfirst := hlt r hr
  have hsecond := hlt r' hr'
  rw [digitChar_toNat (by omega), digitChar_toNat (by omega)] at htens hunits
  omega

theorem oneDigit_blurred {p : Nat} [NeZero p] (hp : p ≤ 20) {x y : ZMod p} :
    (x ≠ y ∧ oneDigit x.val = oneDigit y.val) ↔ Apart 10 x.val y.val := by
  have hx := x.val_lt
  have hy := y.val_lt
  rw [oneDigit_eq_iff, ← (ZMod.val_injective p).ne_iff, Apart]
  omega

theorem twoDigits_blurred {x y : ZMod 101} :
    (x ≠ y ∧ twoDigits x.val = twoDigits y.val) ↔ Apart 100 x.val y.val := by
  have hx := x.val_lt
  have hy := y.val_lt
  rw [twoDigits_eq_iff hx hy, ← (ZMod.val_injective 101).ne_iff, Apart]
  split <;> split <;> omega

theorem length_of_drop {s t : Bytes} {n : Nat} (ht : t ≠ []) (h : s.drop n = t) : s.length = n + t.length := by
  have hlen : 0 < t.length := List.length_pos_iff.mpr ht
  have hdrop := congrArg List.length h
  rw [List.length_drop] at hdrop
  omega

theorem scheme_valid_iff {G : Type} [CommRing G] {S : Scheme Byte G} (hlegal : ∀ b, S.legal b ↔ isDigit b)
    {digits t : Bytes} (ht : t ≠ []) (hcheck : S.size ≤ digits.length → S.check (S.sum digits) = t) : S.Valid digits ↔
      digits.length = S.size + t.length ∧ (∀ b ∈ digits, isDigit b) ∧ digits.drop S.size = t := by
  constructor
  · intro h
    have hdrop := h.check.trans (hcheck h.length)
    exact ⟨length_of_drop ht hdrop, fun b hb => (hlegal b).mp (h.legal b hb), hdrop⟩
  · rintro ⟨hlen, hdigits, hdrop⟩
    have hsize : S.size ≤ digits.length := by omega
    exact ⟨hsize, fun b hb => (hlegal b).mpr (hdigits b hb), hdrop.trans (hcheck hsize).symm⟩

def innOrgRemainder (digits : Bytes) : Nat := weightedSum (digits.take 9) [2, 4, 10, 3, 5, 9, 4, 6, 8] % 11

def innPersonFirstRemainder (digits : Bytes) : Nat :=
  weightedSum (digits.take 10) [7, 2, 4, 10, 3, 5, 9, 4, 6, 8] % 11

def innPersonSecondRemainder (digits : Bytes) : Nat :=
  weightedSum (digits.take 11) [3, 7, 2, 4, 10, 3, 5, 9, 4, 6, 8] % 11

def ogrnRemainder (digits : Bytes) : Nat := digitsVal (digits.take 12) % 11

def ogrnipRemainder (digits : Bytes) : Nat := digitsVal (digits.take 14) % 13

def snilsRemainder (digits : Bytes) : Nat := weightedSum (digits.take 9) [9, 8, 7, 6, 5, 4, 3, 2, 1] % 101

theorem register_sum (p : Nat) [Fact p.Prime] (ws : List Nat) {check : Nat → Bytes} {hp hweight hneighbours}
    (digits : Bytes) : ((register p ws.length (ws.getD · 0) check hp hweight hneighbours).sum digits).val =
      weightedSum (digits.take ws.length) ws % p := by
  rw [← ZMod.val_natCast, cast_weightedSum, List.take_take, min_self]
  rfl

theorem register_digitsVal (p size : Nat) [Fact p.Prime] {check : Nat → Bytes} {hp hweight hneighbours} {digits : Bytes}
    (hlen : size ≤ digits.length) :
    ((register p size (fun i => 10 ^ (size - 1 - i)) check hp hweight hneighbours).sum digits).val =
      digitsVal (digits.take size) % p := by
  rw [← ZMod.val_natCast, cast_digitsVal, List.length_take_of_le hlen]
  rfl

theorem innOrg_sum (digits : Bytes) : (innOrg.sum digits).val = innOrgRemainder digits :=
  register_sum 11 [2, 4, 10, 3, 5, 9, 4, 6, 8] digits

theorem innPersonFirst_sum (digits : Bytes) : (innPersonFirst.sum digits).val = innPersonFirstRemainder digits :=
  register_sum 11 [7, 2, 4, 10, 3, 5, 9, 4, 6, 8] digits

theorem innPersonSecond_sum (digits : Bytes) : (innPersonSecond.sum digits).val = innPersonSecondRemainder digits :=
  register_sum 11 [3, 7, 2, 4, 10, 3, 5, 9, 4, 6, 8] digits

theorem snils_sum (digits : Bytes) : (snils.sum digits).val = snilsRemainder digits :=
  register_sum 101 [9, 8, 7, 6, 5, 4, 3, 2, 1] digits

theorem ogrn_sum {digits : Bytes} (hlen : 12 ≤ digits.length) : (ogrn.sum digits).val = ogrnRemainder digits :=
  register_digitsVal 11 12 hlen

theorem ogrnip_sum {digits : Bytes} (hlen : 14 ≤ digits.length) : (ogrnip.sum digits).val = ogrnipRemainder digits :=
  register_digitsVal 13 14 hlen

theorem foldl_mod_digits (m : Nat) (s : Bytes) (v : Nat) :
    s.foldl (fun r b => (r * 10 + (b.toNat - 48)) % m) (v % m) =
      s.foldl (fun v b => 10 * v + (b.toNat - 48)) v % m := by
  induction s generalizing v with
  | nil => rfl
  | cons b s ih =>
    rw [List.foldl_cons, List.foldl_cons, ← ih]
    congr 1
    rw [Nat.add_mod, Nat.mul_mod, Nat.mod_mod, ← Nat.mul_mod, ← Nat.add_mod, mul_comm]

theorem oneDigit_ne_nil (r : Nat) : oneDigit r ≠ [] := List.cons_ne_nil _ _

theorem innOrgValid_iff (digits : Bytes) : innOrgValid digits = true ↔ innOrg.Valid digits := by
  have hcheck : innOrg.check (innOrg.sum digits) = oneDigit (innOrgRemainder digits) :=
    congrArg oneDigit (innOrg_sum digits)
  rw [scheme_valid_iff (fun _ => Iff.rfl) (oneDigit_ne_nil _) fun _ => hcheck]
  simp [innOrgValid, innOrg, register, and_assoc, oneDigit, innOrgChecksum, innOrgRemainder]

theorem ogrnValid_iff (digits : Bytes) : ogrnValid digits = true ↔ ogrn.Valid digits := by
  have hcheck (hlen : 12 ≤ digits.length) : ogrn.check (ogrn.sum digits) = oneDigit (ogrnRemainder digits) :=
    congrArg oneDigit (ogrn_sum hlen)
  rw [scheme_valid_iff (fun _ => Iff.rfl) (oneDigit_ne_nil _) hcheck]
  simp [ogrnValid, ogrn, register, and_assoc, oneDigit, ogrnCheckDigit, ogrnRemainder]

theorem ogrnipValid_iff (digits : Bytes) : ogrnipValid digits = true ↔ ogrnip.Valid digits := by
  have hcheck (hlen : 14 ≤ digits.length) : ogrnip.check (ogrnip.sum digits) = oneDigit (ogrnipRemainder digits) :=
    congrArg oneDigit (ogrnip_sum hlen)
  have hfold := foldl_mod_digits 13 (digits.take 14) 0
  rw [scheme_valid_iff (fun _ => Iff.rfl) (oneDigit_ne_nil _) hcheck]
  simp only [Nat.zero_mod] at hfold
  simp [ogrnipValid, ogrnip, register, and_assoc, oneDigit, ogrnipCheckDigit, ogrnipRemainder, hfold, digitsVal]

theorem snilsValid_iff (digits : Bytes) : snilsValid digits = true ↔ snils.Valid digits := by
  have hcheck : snils.check (snils.sum digits) = twoDigits (snilsRemainder digits) :=
    congrArg twoDigits (snils_sum digits)
  rw [scheme_valid_iff (fun _ => Iff.rfl) (List.cons_ne_nil _ _) fun _ => hcheck]
  have hlen (h : digits.length = 11) : (digits.take 9).length = 9 := by
    rw [List.length_take, h]
    rfl
  simp only [snilsValid, snils, register, Bool.and_eq_true, beq_iff_eq, List.all_eq_true, and_assoc, twoDigits]
  refine and_congr_right fun h => and_congr_right fun _ => ?_
  rw [snilsChecksum, if_neg (not_not_intro (hlen h))]
  rfl

theorem innPersonFirst_valid_iff (digits : Bytes) : innPersonFirst.Valid digits ↔
    digits.length = 11 ∧ (∀ b ∈ digits, isDigit b) ∧ digits.drop 10 = oneDigit (innPersonFirstRemainder digits) :=
  scheme_valid_iff (fun _ => Iff.rfl) (oneDigit_ne_nil _) fun _ => congrArg oneDigit (innPersonFirst_sum digits)

theorem innPersonSecond_valid_iff (digits : Bytes) : innPersonSecond.Valid digits ↔
    digits.length = 12 ∧ (∀ b ∈ digits, isDigit b) ∧ digits.drop 11 = oneDigit (innPersonSecondRemainder digits) :=
  scheme_valid_iff (fun _ => Iff.rfl) (oneDigit_ne_nil _) fun _ => congrArg oneDigit (innPersonSecond_sum digits)

theorem innPersonChecksums_fst {ten : Bytes} (hten : ten.length = 10) (a : Byte) :
    [a] = oneDigit (innPersonFirstRemainder (ten ++ [a])) ↔ a = (innPersonChecksums ten).1 := by
  simp [oneDigit, innPersonFirstRemainder, innPersonChecksums, hten]

theorem innPersonChecksums_snd {ten : Bytes} (hten : ten.length = 10) {a : Byte} (ha : a = (innPersonChecksums ten).1)
    (b : Byte) : [b] = oneDigit (innPersonSecondRemainder (ten ++ [a, b])) ↔ b = (innPersonChecksums ten).2 := by
  subst ha
  simp [oneDigit, innPersonSecondRemainder, innPersonChecksums, List.take_append, hten, List.take_of_length_le]

theorem innPersonValid_iff (digits : Bytes) : innPersonValid digits = true ↔
    innPersonFirst.Valid (digits.take 11) ∧ innPersonSecond.Valid digits := by
  rw [innPersonFirst_valid_iff, innPersonSecond_valid_iff]
  by_cases hlen : digits.length = 12
  · obtain ⟨ten, rest, rfl, hten⟩ : ∃ ten rest, digits = ten ++ rest ∧ ten.length = 10 :=
      ⟨_, _, (List.take_append_drop 10 digits).symm, by simp [hlen]⟩
    obtain ⟨a, b, rfl⟩ : ∃ a b, rest = [a, b] := by
      rw [List.length_append, hten] at hlen
      exact List.length_eq_two.mp (by omega)
    have htake : (ten ++ [a, b]).take 11 = ten ++ [a] := by simp [List.take_append, hten, List.take_of_length_le]
    have hcode : innPersonValid (ten ++ [a, b]) = true ↔ (∀ c ∈ ten ++ [a, b], isDigit c) ∧
        a = (innPersonChecksums ten).1 ∧ b = (innPersonChecksums ten).2 := by
      simp [innPersonValid, hten, or_imp, forall_and]
    have hfirst : (ten ++ [a]).drop 10 = [a] := by simp [hten]
    have hsecond : (ten ++ [a, b]).drop 11 = [b] := by simp [List.drop_append, hten, List.drop_of_length_le]
    rw [hcode, htake, hfirst, hsecond, innPersonChecksums_fst hten]
    constructor
    · rintro ⟨hdigits, ha, hb⟩
      exact ⟨⟨by simp [hten], fun c hc => hdigits c (by simp at hc ⊢; tauto), ha⟩, hlen, hdigits,
        (innPersonChecksums_snd hten ha b).mpr hb⟩
    · rintro ⟨⟨-, -, ha⟩, -, hdigits, hb⟩
      exact ⟨hdigits, ha, (innPersonChecksums_snd hten ha b).mp hb⟩
  · simp [innPersonValid, hlen]

/-! ## What they miss -/

/-- A wrong digit is seen unless it stands before the check digits and the two numbers are `alike`, and so are two
neighbours that have changed places. -/
def Misses (valid : Bytes → Bool) (size : Nat) (alike : Bytes → Bytes → Prop) : Prop :=
  (∀ u v a b, valid (u ++ a :: v) = true → isDigit b → a ≠ b →
    (valid (u ++ b :: v) = true ↔ u.length < size ∧ alike (u ++ a :: v) (u ++ b :: v))) ∧
  ∀ u v a b, valid (u ++ a :: b :: v) = true → a ≠ b → u.length + 1 < size →
    (valid (u ++ b :: a :: v) = true ↔ alike (u ++ a :: b :: v) (u ++ b :: a :: v))

theorem misses_of_scheme {G : Type} [CommRing G] {S : Scheme Byte G} (hlegal : ∀ b, isDigit b → S.legal b)
    {valid : Bytes → Bool} (hvalid : ∀ digits, valid digits = true ↔ S.Valid digits) {alike : Bytes → Bytes → Prop}
    (halike : ∀ s t, S.Valid s → s.length = t.length → (S.Blurred s t ↔ alike s t)) : Misses valid S.size alike := by
  constructor
  · intro u v a b h hb hne
    rw [hvalid] at h ⊢
    by_cases hu : u.length < S.size
    · rw [Scheme.valid_change_iff h hu (hlegal b hb) hne, halike _ _ h (by simp)]
      exact (and_iff_right hu).symm
    · exact iff_of_false (Scheme.not_valid_change_check h (by omega) hne) fun hpassed => hu hpassed.1
  · intro u v a b h hne hu
    rw [hvalid] at h ⊢
    rw [Scheme.valid_exchange_iff h hu hne, halike _ _ h (by simp)]

theorem innPersonFirstRemainder_take (digits : Bytes) :
    innPersonFirstRemainder (digits.take 11) = innPersonFirstRemainder digits := by
  simp [innPersonFirstRemainder, List.take_take]

theorem innPersonFirst_blurred {s t : Bytes} : innPersonFirst.Blurred (s.take 11) (t.take 11) ↔
    Apart 10 (innPersonFirstRemainder s) (innPersonFirstRemainder t) := by
  rw [← innPersonFirstRemainder_take s, ← innPersonFirstRemainder_take t, ← innPersonFirst_sum, ← innPersonFirst_sum]
  exact oneDigit_blurred (by decide)

theorem innPersonSecond_blurred {s t : Bytes} : innPersonSecond.Blurred s t ↔
    Apart 10 (innPersonSecondRemainder s) (innPersonSecondRemainder t) := by
  rw [← innPersonSecond_sum, ← innPersonSecond_sum]
  exact oneDigit_blurred (by decide)

theorem take_eleven_append {u v : Bytes} (hu : u.length ≤ 11) : (u ++ v).take 11 = u ++ v.take (11 - u.length) := by
  rw [List.take_append, List.take_of_length_le hu]

/-- A change before both checks has to get past both. -/
theorem innPerson_misses : Misses innPersonValid 10 fun s t =>
    Apart 10 (innPersonFirstRemainder s) (innPersonFirstRemainder t) ∧
    Apart 10 (innPersonSecondRemainder s) (innPersonSecondRemainder t) := by
  constructor
  · intro u v a b h hb hne
    obtain ⟨hfirst, hsecond⟩ := (innPersonValid_iff _).mp h
    simp only [innPersonValid_iff, ← innPersonFirst_blurred, ← innPersonSecond_blurred]
    by_cases hu : 11 ≤ u.length
    · exact iff_of_false (fun hvalid => Scheme.not_valid_change_check hsecond hu hne hvalid.2) fun hpassed => by omega
    obtain ⟨n, hn⟩ : ∃ n, 11 - u.length = n + 1 := ⟨10 - u.length, by omega⟩
    have htake (c : Byte) : (u ++ c :: v).take 11 = u ++ c :: v.take n := by
      rw [take_eleven_append (by omega), hn, List.take_succ_cons]
    rw [htake] at hfirst
    rw [htake, htake, Scheme.valid_change_iff hsecond (show u.length < 11 by omega) hb hne]
    by_cases hten : u.length < 10
    · rw [Scheme.valid_change_iff hfirst hten hb hne]
      exact (and_iff_right hten).symm
    · exact iff_of_false (fun hvalid => Scheme.not_valid_change_check hfirst (show 10 ≤ u.length by omega) hne hvalid.1)
        fun hpassed => hten hpassed.1
  · intro u v a b h hne hu
    obtain ⟨hfirst, hsecond⟩ := (innPersonValid_iff _).mp h
    simp only [innPersonValid_iff, ← innPersonFirst_blurred, ← innPersonSecond_blurred]
    obtain ⟨n, hn⟩ : ∃ n, 11 - u.length = n + 2 := ⟨9 - u.length, by omega⟩
    have htake (c d : Byte) : (u ++ c :: d :: v).take 11 = u ++ c :: d :: v.take n := by
      rw [take_eleven_append (by omega), hn, List.take_succ_cons, List.take_succ_cons]
    rw [htake] at hfirst
    rw [htake, htake, Scheme.valid_exchange_iff hsecond (show u.length + 1 < 11 by omega) hne,
      Scheme.valid_exchange_iff hfirst hu hne]

/-- A wrong digit or two exchanged neighbours pass exactly where they move the remainder by as much as its cut hides:
by 10, or from 0 to 100 and back. -/
theorem registers_miss :
    Misses innOrgValid 9 (fun s t => Apart 10 (innOrgRemainder s) (innOrgRemainder t)) ∧
    Misses ogrnValid 12 (fun s t => Apart 10 (ogrnRemainder s) (ogrnRemainder t)) ∧
    Misses ogrnipValid 14 (fun s t => Apart 10 (ogrnipRemainder s) (ogrnipRemainder t)) ∧
    Misses snilsValid 9 (fun s t => Apart 100 (snilsRemainder s) (snilsRemainder t)) ∧
    Misses innPersonValid 10 (fun s t => Apart 10 (innPersonFirstRemainder s) (innPersonFirstRemainder t) ∧
      Apart 10 (innPersonSecondRemainder s) (innPersonSecondRemainder t)) := by
  refine ⟨misses_of_scheme (S := innOrg) (fun _ h => h) innOrgValid_iff fun s t _ _ => ?_,
    misses_of_scheme (S := ogrn) (fun _ h => h) ogrnValid_iff fun s t h hlen => ?_,
    misses_of_scheme (S := ogrnip) (fun _ h => h) ogrnipValid_iff fun s t h hlen => ?_,
    misses_of_scheme (S := snils) (fun _ h => h) snilsValid_iff fun s t _ _ => ?_, innPerson_misses⟩
  · rw [← innOrg_sum, ← innOrg_sum]
    exact oneDigit_blurred (by decide)
  · rw [← ogrn_sum h.length, ← ogrn_sum (hlen ▸ h.length)]
    exact oneDigit_blurred (by decide)
  · rw [← ogrnip_sum h.length, ← ogrnip_sum (hlen ▸ h.length)]
    exact oneDigit_blurred (by decide)
  · rw [← snils_sum, ← snils_sum]
    exact twoDigits_blurred

end LlmGuard
