import LlmGuard.Code.Validators
import LlmGuard.Lib.Decimal

/-!
# Check digits

The Luhn digit: at every place the weight maps the ten digits to ten values that differ modulo 10, so the check digit is
the only one that fits, and a changed digit never fits.

The IBAN: the remainder is taken digit by digit. It is the remainder of one number, the one that the rearranged string
spells when its letters are written as 10 to 35.
-/

namespace LlmGuard

theorem digitChar_toNat {d : Nat} (h : d < 10) : (digitChar d).toNat = 48 + d :=
  Nat.mod_eq_of_lt (by omega)

theorem isDigit_digitChar {d : Nat} (h : d < 10) : isDigit (digitChar d) := by
  rw [isDigit_iff, digitChar_toNat h]
  omega

/-! ## Luhn: the sum, place by place -/

/-- What the digit at place `i` adds. -/
def luhnWeight (parity i : Nat) (b : Byte) : Nat :=
  if i % 2 = parity then luhnDouble (b.toNat - 48) else b.toNat - 48

theorem luhnWeighted_eq (parity : Nat) (digits : Bytes) :
    luhnWeighted parity digits = (digits.mapIdx (luhnWeight parity)).sum := by
  unfold luhnWeighted
  congr 1
  refine List.ext_getElem (by simp) fun i hi _ => ?_
  have hdigit : i < digits.length := by simpa using hi
  simp [luhnWeight, digitAt, hdigit]

theorem luhnWeighted_append (parity : Nat) (a b : Bytes) : luhnWeighted parity (a ++ b) =
    luhnWeighted parity a + (b.mapIdx fun i => luhnWeight parity (i + a.length)).sum := by
  rw [luhnWeighted_eq, luhnWeighted_eq, List.mapIdx_append, List.sum_append]

/-- Different digits add different values modulo 10, doubled or not. -/
theorem luhnWeight_injective {parity i : Nat} {b c : Byte} (hb : isDigit b) (hc : isDigit c)
    (h : luhnWeight parity i b % 10 = luhnWeight parity i c % 10) : b = c := by
  rw [isDigit_iff] at hb hc
  have hdouble : ∀ m < 10, ∀ n < 10, luhnDouble m % 10 = luhnDouble n % 10 → m = n := by decide
  have hval : b.toNat - 48 = c.toNat - 48 := by
    unfold luhnWeight at h
    split at h
    · exact hdouble _ (by omega) _ (by omega) h
    · omega
  exact UInt8.toNat_inj.mp (by omega)

/-! ## Luhn: the check digit -/

theorem luhnSum_concat (p : Bytes) (d : Byte) :
    luhnSum (p ++ [d]) = luhnWeighted ((p.length + 1) % 2) p + (d.toNat - 48) := by
  have hplain : ¬ p.length % 2 = (p.length + 1) % 2 := by omega
  rw [luhnSum, List.length_append, List.length_singleton, luhnWeighted_append]
  simp [luhnWeight, hplain]

theorem luhnCheckDigit_toNat (p : Bytes) :
    (luhnCheckDigit p).toNat = 48 + (10 - luhnWeighted ((p.length + 1) % 2) p % 10) % 10 :=
  digitChar_toNat (by omega)

theorem isDigit_luhnCheckDigit (p : Bytes) : isDigit (luhnCheckDigit p) :=
  isDigit_digitChar (by omega)

theorem luhnValid_iff (digits : Bytes) :
    luhnValid digits = true ↔ digits ≠ [] ∧ (∀ b ∈ digits, isDigit b) ∧ luhnSum digits % 10 = 0 := by
  unfold luhnValid allDigits
  simp [and_assoc]

theorem luhnValid_concat {p : Bytes} (hp : ∀ b ∈ p, isDigit b) (d : Byte) :
    luhnValid (p ++ [d]) = true ↔ d = luhnCheckDigit p := by
  rw [luhnValid_iff, luhnSum_concat]
  have hcheck := luhnCheckDigit_toNat p
  constructor
  · rintro ⟨-, hdigits, hsum⟩
    obtain ⟨hlow, hhigh⟩ := (isDigit_iff d).mp (hdigits d (by simp))
    exact UInt8.toNat_inj.mp (by omega)
  · rintro rfl
    refine ⟨by simp, fun b hb => ?_, by omega⟩
    rcases List.mem_append.mp hb with hb | hb
    · exact hp b hb
    · rw [List.mem_singleton.mp hb]
      exact isDigit_luhnCheckDigit p

/-! ## Luhn: one wrong digit -/

theorem sum_set {l : List Nat} {i : Nat} (hi : i < l.length) (a : Nat) : (l.set i a).sum + l[i] = l.sum + a := by
  induction l generalizing i with
  | nil => cases hi
  | cons x l ih =>
    cases i with
    | zero =>
      simp only [List.set_cons_zero, List.sum_cons, List.getElem_cons_zero]
      omega
    | succ i =>
      have := ih (Nat.lt_of_succ_lt_succ hi)
      simp only [List.set_cons_succ, List.sum_cons, List.getElem_cons_succ]
      omega

theorem luhnSum_set {digits : Bytes} {i : Nat} (hi : i < digits.length) (d : Byte) :
    luhnSum (digits.set i d) + luhnWeight (digits.length % 2) i digits[i] =
      luhnSum digits + luhnWeight (digits.length % 2) i d := by
  have hsum := sum_set (l := digits.mapIdx (luhnWeight (digits.length % 2))) (i := i) (by simpa using hi)
    (luhnWeight (digits.length % 2) i d)
  rw [List.getElem_mapIdx] at hsum
  rw [luhnSum, luhnSum, List.length_set, luhnWeighted_eq, luhnWeighted_eq, List.mapIdx_set]
  exact hsum

theorem luhnValid_set {digits : Bytes} (h : luhnValid digits = true) {i : Nat} (hi : i < digits.length) {d : Byte}
    (hne : d ≠ digits[i]) : luhnValid (digits.set i d) = false := by
  rw [Bool.eq_false_iff]
  intro hset
  obtain ⟨-, hdigits, hsum⟩ := (luhnValid_iff _).mp h
  obtain ⟨-, hdigits', hsum'⟩ := (luhnValid_iff _).mp hset
  have hd : isDigit d := hdigits' d (List.mem_set hi d)
  have hold : isDigit digits[i] := hdigits _ (List.getElem_mem hi)
  have heq := luhnSum_set hi d
  have hmod : luhnWeight (digits.length % 2) i d % 10 = luhnWeight (digits.length % 2) i digits[i] % 10 := by omega
  exact hne (luhnWeight_injective hd hold hmod)

/-- The check digit is the one digit that fits, and one wrong digit is always seen. -/
theorem luhn_detects :
    (∀ p : Bytes, (∀ b ∈ p, isDigit b) → isDigit (luhnCheckDigit p) ∧
      ∀ d, luhnValid (p ++ [d]) = true ↔ d = luhnCheckDigit p) ∧
    ∀ digits, luhnValid digits = true → ∀ (i : Nat) (hi : i < digits.length) (d : Byte), d ≠ digits[i] →
      luhnValid (digits.set i d) = false :=
  ⟨fun p hp => ⟨isDigit_luhnCheckDigit p, luhnValid_concat hp⟩, fun _ h _ hi _ hne => luhnValid_set h hi hne⟩

theorem luhn_detects_sample : luhnCheckDigit (ascii "7992739871") = ch '3' ∧
    luhnValid ((ascii "79927398713").set 2 (ch '8')) = false :=
  ⟨((luhn_detects.1 (ascii "7992739871") (by decide)).2 (ch '3')).mp (by decide) |>.symm,
    luhn_detects.2 (ascii "79927398713") (by decide) 2 (by decide) (ch '8') (by decide)⟩

/-! ## IBAN: the number -/

def isLetter (b : Byte) : Bool := isUpper b || isLower b

def isAlnum (b : Byte) : Bool := isLetter b || isDigit b

/-- 10 to 35, in either case. -/
def letterValue (b : Byte) : Nat := (asciiUpperChar b).toNat - 65 + 10

/-- A letter adds two decimal places, a digit one. -/
def readIbanChar (n : Nat) (b : Byte) : Nat :=
  if isLetter b then n * 100 + letterValue b else n * 10 + (b.toNat - 48)

def ibanInteger (s : Bytes) : Nat := s.foldl readIbanChar 0

/-- The first four characters go to the end. -/
def rearranged (s : Bytes) : Bytes := s.drop 4 ++ s.take 4

/-! ## IBAN: the remainder, digit by digit -/

def mod97Step (r : Int) (b : Byte) : Int := (r * 10 + charDigit b).tmod 97

theorem charDigit_of_digit {b : Byte} (h : isDigit b) : charDigit b = ((b.toNat - 48 : Nat) : Int) := by
  obtain ⟨hlow, hhigh⟩ := (isDigit_iff b).mp h
  unfold charDigit
  rw [if_pos (UInt8.lt_iff_toNat_lt.mpr (by have : (0x80 : Byte).toNat = 128 := rfl; omega))]
  omega

theorem mod97Step_digit (n : Nat) {b : Byte} (h : isDigit b) :
    mod97Step ((n % 97 : Nat) : Int) b = (((n * 10 + (b.toNat - 48)) % 97 : Nat) : Int) := by
  unfold mod97Step
  rw [charDigit_of_digit h, Int.tmod_eq_emod_of_nonneg (by omega)]
  omega

set_option maxRecDepth 8192 in
theorem letterValue_lt {b : Byte} (h : isLetter b) : 10 ≤ letterValue b ∧ letterValue b ≤ 35 := by
  have hall : ∀ b : Byte, isLetter b → 10 ≤ letterValue b ∧ letterValue b ≤ 35 := by decide
  exact hall b h

set_option maxRecDepth 8192 in
theorem ibanNumber_letter {b : Byte} (h : isLetter b) :
    ibanNumber [asciiUpperChar b] = [digitChar (letterValue b / 10), digitChar (letterValue b % 10)] := by
  have hupper : ∀ b : Byte, isLetter b → isUpper (asciiUpperChar b) := by decide
  obtain ⟨hlow, hhigh⟩ := letterValue_lt h
  have hdecimal : decimal (letterValue b) = [digitChar (letterValue b / 10), digitChar (letterValue b % 10)] := by
    rw [decimal_large hlow, decimal_small (by omega), decimal_small (by omega)]
    rfl
  unfold ibanNumber
  rw [List.flatMap_singleton, if_pos (hupper b h)]
  exact hdecimal

set_option maxRecDepth 8192 in
theorem ibanNumber_digit {b : Byte} (h : isDigit b) : ibanNumber [asciiUpperChar b] = [b] := by
  have hall : ∀ b : Byte, isDigit b → asciiUpperChar b = b ∧ isUpper b = false := by decide
  obtain ⟨hsame, hplain⟩ := hall b h
  unfold ibanNumber
  rw [List.flatMap_singleton, hsame, if_neg (by simp [hplain])]

theorem mod97_char (n : Nat) {b : Byte} (h : isAlnum b) :
    (ibanNumber [asciiUpperChar b]).foldl mod97Step ((n % 97 : Nat) : Int) = ((readIbanChar n b % 97 : Nat) : Int) := by
  unfold readIbanChar
  split
  · rename_i hletter
    obtain ⟨hlow, hhigh⟩ := letterValue_lt hletter
    rw [ibanNumber_letter hletter, List.foldl_cons, List.foldl_cons, List.foldl_nil,
      mod97Step_digit n (isDigit_digitChar (by omega)), mod97Step_digit _ (isDigit_digitChar (by omega)),
      digitChar_toNat (by omega), digitChar_toNat (by omega)]
    congr 2
    omega
  · rename_i hletter
    have hdigit : isDigit b := by simpa [isAlnum, hletter] using h
    rw [ibanNumber_digit hdigit, List.foldl_cons, List.foldl_nil, mod97Step_digit n hdigit]

theorem ibanNumber_cons (b : Byte) (s : Bytes) : ibanNumber (b :: s) = ibanNumber [b] ++ ibanNumber s := by
  simp [ibanNumber]

theorem mod97_foldl {s : Bytes} (h : ∀ b ∈ s, isAlnum b) (n : Nat) :
    (ibanNumber (s.map asciiUpperChar)).foldl mod97Step ((n % 97 : Nat) : Int) =
      ((s.foldl readIbanChar n % 97 : Nat) : Int) := by
  induction s generalizing n with
  | nil => rfl
  | cons b s ih =>
    rw [List.map_cons, ibanNumber_cons, List.foldl_append, mod97_char n (h b (by simp)), List.foldl_cons]
    exact ih (fun c hc => h c (by simp [hc])) _

theorem mod97_ibanInteger {s : Bytes} (h : ∀ b ∈ s, isAlnum b) :
    mod97DecimalString (ibanNumber (s.map asciiUpperChar)) = ((ibanInteger s % 97 : Nat) : Int) :=
  mod97_foldl h 0

/-! ## IBAN: the validator -/

theorem ibanValid_iff {s : Bytes} (h : ∀ b ∈ s, isAlnum b ∨ b = ch ' ') :
    ibanValid s = true ↔ 4 ≤ (s.filter (· ≠ ch ' ')).length ∧
      ibanInteger (rearranged (s.filter (· ≠ ch ' '))) % 97 = 1 := by
  have halnum : ∀ b ∈ rearranged (s.filter (· ≠ ch ' ')), isAlnum b := by
    intro b hb
    have hb' : b ∈ s.filter (· ≠ ch ' ') := by
      rcases List.mem_append.mp hb with hb | hb
      · exact List.mem_of_mem_drop hb
      · exact List.mem_of_mem_take hb
    obtain ⟨hmem, hne⟩ := List.mem_filter.mp hb'
    exact (h b hmem).resolve_right (by simpa using hne)
  unfold ibanValid
  dsimp only
  rw [← List.map_drop, ← List.map_take, ← List.map_append, Bool.and_eq_true, decide_eq_true_eq, List.length_map, beq_iff_eq]
  have hmod := mod97_ibanInteger halnum
  unfold rearranged at hmod ⊢
  rw [hmod]
  refine and_congr_right fun _ => ?_
  omega

/-! ## IBAN: the generator -/

set_option maxRecDepth 8192 in
theorem foldl_readIbanChar_digit (n : Nat) {b : Byte} (h : isDigit b) : readIbanChar n b = n * 10 + (b.toNat - 48) := by
  have hall : ∀ b : Byte, isDigit b → isLetter b = false := by decide
  unfold readIbanChar
  rw [if_neg (by simp [hall b h])]

/-- What the two check digits say. -/
def ibanCheck (countryCode bban : Bytes) : Nat := 98 - ibanInteger (bban ++ countryCode) * 100 % 97

theorem ibanCheck_bounds (countryCode bban : Bytes) :
    2 ≤ ibanCheck countryCode bban ∧ ibanCheck countryCode bban ≤ 98 := by
  unfold ibanCheck
  omega

theorem ibanMod97_eq {countryCode bban : Bytes} (hcountry : ∀ b ∈ countryCode, isAlnum b) (hbban : ∀ b ∈ bban, isAlnum b) :
    ibanMod97 countryCode bban =
      [digitChar (ibanCheck countryCode bban / 10), digitChar (ibanCheck countryCode bban % 10)] := by
  have halnum : ∀ b ∈ bban ++ countryCode ++ ascii "00", isAlnum b := by
    intro b hb
    have hzero : ∀ b ∈ ascii "00", isAlnum b := by decide
    simp only [List.mem_append] at hb
    rcases hb with (hb | hb) | hb
    · exact hbban b hb
    · exact hcountry b hb
    · exact hzero b hb
  have hzeros : ibanInteger (bban ++ countryCode ++ ascii "00") = ibanInteger (bban ++ countryCode) * 100 := by
    have h00 : ascii "00" = [ch '0', ch '0'] := rfl
    unfold ibanInteger
    rw [h00, List.foldl_append, List.foldl_cons, List.foldl_cons, List.foldl_nil,
      foldl_readIbanChar_digit _ (by decide), foldl_readIbanChar_digit _ (by decide)]
    have : (ch '0').toNat = 48 := rfl
    omega
  unfold ibanMod97
  dsimp only
  rw [mod97_ibanInteger halnum, hzeros]
  have hcheck : (98 - ((ibanInteger (bban ++ countryCode) * 100 % 97 : Nat) : Int)).toNat = ibanCheck countryCode bban := by
    unfold ibanCheck
    omega
  rw [hcheck]

theorem ibanInteger_append_check (s : Bytes) {check : Nat} (h : check < 100) :
    ibanInteger (s ++ [digitChar (check / 10), digitChar (check % 10)]) = ibanInteger s * 100 + check := by
  unfold ibanInteger
  rw [List.foldl_append, List.foldl_cons, List.foldl_cons, List.foldl_nil,
    foldl_readIbanChar_digit _ (isDigit_digitChar (by omega)), foldl_readIbanChar_digit _ (isDigit_digitChar (by omega)),
    digitChar_toNat (by omega), digitChar_toNat (by omega)]
  omega

theorem ibanValid_generated {c₁ c₂ : Byte} {bban s : Bytes} (h₁ : isLetter c₁) (h₂ : isLetter c₂)
    (hbban : ∀ b ∈ bban, isAlnum b) (hs : s.filter (· ≠ ch ' ') = [c₁, c₂] ++ ibanMod97 [c₁, c₂] bban ++ bban) :
    ibanValid s = true := by
  have hcountry : ∀ b ∈ [c₁, c₂], isAlnum b := by simp [isAlnum, h₁, h₂]
  obtain ⟨hlow, hhigh⟩ := ibanCheck_bounds [c₁, c₂] bban
  rw [ibanMod97_eq hcountry hbban] at hs
  have hchars : ∀ b ∈ s, isAlnum b ∨ b = ch ' ' := by
    intro b hb
    by_cases hspace : b = ch ' '
    · exact .inr hspace
    · have hmem : b ∈ s.filter (· ≠ ch ' ') := List.mem_filter.mpr ⟨hb, by simpa using hspace⟩
      have hdigit : ∀ d < 10, isAlnum (digitChar d) := fun d hd => by simp [isAlnum, isDigit_digitChar hd]
      simp only [hs, List.mem_append, List.mem_cons, List.not_mem_nil, or_false] at hmem
      rcases hmem with ((rfl | rfl) | (rfl | rfl)) | hmem
      · exact .inl (hcountry b (by simp))
      · exact .inl (hcountry b (by simp))
      · exact .inl (hdigit _ (by omega))
      · exact .inl (hdigit _ (by omega))
      · exact .inl (hbban b hmem)
  rw [ibanValid_iff hchars, hs]
  refine ⟨by simp, ?_⟩
  have hrearranged : rearranged ([c₁, c₂] ++ [digitChar (ibanCheck [c₁, c₂] bban / 10),
      digitChar (ibanCheck [c₁, c₂] bban % 10)] ++ bban) = (bban ++ [c₁, c₂]) ++
        [digitChar (ibanCheck [c₁, c₂] bban / 10), digitChar (ibanCheck [c₁, c₂] bban % 10)] := by
    simp [rearranged]
  rw [hrearranged, ibanInteger_append_check _ (by omega)]
  unfold ibanCheck
  omega

/-- Generator and validator agree, and the validator computes the remainder of one integer. -/
theorem iban_agrees :
    (∀ (c₁ c₂ : Byte) (bban s : Bytes), isLetter c₁ → isLetter c₂ → (∀ b ∈ bban, isAlnum b) →
      s.filter (· ≠ ch ' ') = [c₁, c₂] ++ ibanMod97 [c₁, c₂] bban ++ bban → ibanValid s = true) ∧
    (∀ (c₁ c₂ : Byte) (bban : Bytes), isLetter c₁ → isLetter c₂ → (∀ b ∈ bban, isAlnum b) →
      ∃ a b, ibanMod97 [c₁, c₂] bban = [a, b] ∧ isDigit a ∧ isDigit b ∧ 2 ≤ digitsVal [a, b] ∧ digitsVal [a, b] ≤ 98) ∧
    ∀ s : Bytes, (∀ b ∈ s, isAlnum b ∨ b = ch ' ') →
      (ibanValid s = true ↔ 4 ≤ (s.filter (· ≠ ch ' ')).length ∧
        ibanInteger (rearranged (s.filter (· ≠ ch ' '))) % 97 = 1) := by
  refine ⟨fun c₁ c₂ bban s h₁ h₂ hbban hs => ibanValid_generated h₁ h₂ hbban hs, ?_, fun s h => ibanValid_iff h⟩
  intro c₁ c₂ bban h₁ h₂ hbban
  obtain ⟨hlow, hhigh⟩ := ibanCheck_bounds [c₁, c₂] bban
  have hval : digitsVal [digitChar (ibanCheck [c₁, c₂] bban / 10), digitChar (ibanCheck [c₁, c₂] bban % 10)] =
      ibanCheck [c₁, c₂] bban := by
    simp only [digitsVal, List.foldl_cons, List.foldl_nil]
    rw [digitChar_toNat (by omega), digitChar_toNat (by omega)]
    omega
  refine ⟨_, _, ibanMod97_eq (by simp [isAlnum, h₁, h₂]) hbban, isDigit_digitChar (by omega),
    isDigit_digitChar (by omega), ?_, ?_⟩ <;> omega

theorem iban_agrees_sample : ibanValid (ascii "gB82 WEST 1234 5698 7654 32") = true :=
  iban_agrees.1 (ch 'g') (ch 'B') (ascii "WEST12345698765432") _ (by decide) (by decide) (by decide) (by decide +kernel)

end LlmGuard
