import LlmGuard.Code.Json
import LlmGuard.Lib.JsonSyntax

/-!
# The tokens of a document

Each scanner accepts the tokens of its kind, up to where they end.
-/

namespace LlmGuard.Json

open Rfc8259 (IsBody IsDigits IsInteger IsFraction IsExponent IsNumber IsScalar Ws Body quoted blank Stops literals)

/-! ## White space -/

theorem skipWs_ws (w : Ws) (s : Bytes) : skipWs (w.1 ++ s) = skipWs s := List.dropWhile_append_of_pos w.2

theorem skipWs_of_head {s : Bytes} (h : ∀ c ∈ s.head?, isWs c = false) : skipWs s = s := by
  cases s with
  | nil => rfl
  | cons c s => exact List.dropWhile_cons_of_neg (by simpa using h c rfl)

theorem exists_ws (s : Bytes) : ∃ w : Ws, s = w.1 ++ skipWs s :=
  ⟨⟨s.takeWhile isWs, List.all_eq_true.mp List.all_takeWhile⟩, List.takeWhile_append_dropWhile.symm⟩

theorem head_skipWs (s : Bytes) : ∀ c ∈ (skipWs s).head?, isWs c = false := by
  intro c hc
  have := List.head?_dropWhile_not isWs s
  rw [skipWs, Option.mem_def] at hc
  simpa [hc] using this

theorem skipWs_skipWs (s : Bytes) : skipWs (skipWs s) = skipWs s := skipWs_of_head (head_skipWs s)

/-! ## Strings -/

theorem skipBody_body {b : Bytes} (hb : IsBody b) (r : Bytes) : skipBody (b ++ ch '"' :: r) = some r := by
  induction hb with
  | nil =>
    rw [List.nil_append, skipBody.eq_def]
    exact if_pos rfl
  | @plain c s hlow hquote hback _ ih =>
    rw [List.cons_append, skipBody.eq_def]
    simp only
    rw [if_neg hquote, if_neg hback, if_neg (by simpa using hlow)]
    exact ih
  | @escape e s he _ ih =>
    have he : isSimpleEscape e = true := he
    rw [List.cons_append, List.cons_append, skipBody.eq_def]
    simp only
    rw [if_neg (by decide), if_pos trivial, if_pos he]
    exact ih
  | @unicode h₁ h₂ h₃ h₄ s hex₁ hex₂ hex₃ hex₄ _ ih =>
    have hhex : (isHexDigit h₁ && isHexDigit h₂ && isHexDigit h₃ && isHexDigit h₄) = true := by
      simp only [Bool.and_eq_true]
      exact ⟨⟨⟨hex₁, hex₂⟩, hex₃⟩, hex₄⟩
    rw [List.cons_append, skipBody.eq_def]
    simp only [List.cons_append]
    rw [if_neg (by decide), if_pos trivial, if_neg (by decide), if_pos trivial, if_pos hhex]
    exact ih

theorem body_of_skipBody {s r : Bytes} (h : skipBody s = some r) : ∃ b, IsBody b ∧ s = b ++ ch '"' :: r := by
  fun_induction skipBody s with
  | case1 => cases h
  | case2 s => exact ⟨[], .nil, by rw [Option.some.inj h, List.nil_append]⟩
  | case3 => cases h
  | case4 e s he hne ih =>
    obtain ⟨b, hbody, rfl⟩ := ih h
    exact ⟨ch '\\' :: e :: b, .escape he hbody, rfl⟩
  | case5 h₁ h₂ h₃ h₄ s hhex hne hne' ih =>
    obtain ⟨b, hbody, rfl⟩ := ih h
    simp only [Bool.and_eq_true] at hhex
    obtain ⟨⟨⟨hex₁, hex₂⟩, hex₃⟩, hex₄⟩ := hhex
    exact ⟨_, .unicode hex₁ hex₂ hex₃ hex₄ hbody, rfl⟩
  | case6 => cases h
  | case7 => cases h
  | case8 => cases h
  | case9 => cases h
  | case10 c s hc hb hlow ih =>
    obtain ⟨b, hbody, rfl⟩ := ih h
    exact ⟨c :: b, .plain (by simpa using hlow) hc hb hbody, rfl⟩

theorem skipString_quoted (b : Body) (r : Bytes) : skipString (quoted b.1 ++ r) = some r := by
  change skipString (ch '"' :: (b.1 ++ [ch '"']) ++ r) = some r
  rw [List.cons_append, skipString, if_pos rfl, List.append_assoc]
  exact skipBody_body b.2 r

theorem quoted_of_skipString {s r : Bytes} (h : skipString s = some r) : ∃ b : Body, s = quoted b.1 ++ r := by
  cases s with
  | nil => cases h
  | cons c s =>
    rw [skipString] at h
    split at h
    · rename_i hc
      obtain ⟨b, hb, rfl⟩ := body_of_skipBody h
      refine ⟨⟨b, hb⟩, ?_⟩
      change c :: (b ++ ch '"' :: r) = ch '"' :: (b ++ [ch '"']) ++ r
      simp [hc]
    · cases h

/-! ## Numbers -/

theorem skipDigits_digits {ds r : Bytes} (hds : IsDigits ds) (hr : ∀ c ∈ r.head?, isDigit c = false) :
    skipDigits (ds ++ r) = some r := by
  obtain ⟨d, ds, rfl⟩ := List.exists_cons_of_ne_nil hds.1
  rw [List.cons_append, skipDigits, if_pos (hds.2 d (by simp)),
    List.dropWhile_append_of_pos fun c hc => hds.2 c (List.mem_cons_of_mem _ hc)]
  cases r with
  | nil => rfl
  | cons c r => rw [List.dropWhile_cons_of_neg (by simpa using hr c rfl)]

theorem digits_of_skipDigits {s r : Bytes} (h : skipDigits s = some r) : ∃ ds, IsDigits ds ∧ s = ds ++ r := by
  cases s with
  | nil => cases h
  | cons c s =>
    rw [skipDigits] at h
    split at h
    · rename_i hc
      obtain rfl := Option.some.inj h
      refine ⟨c :: s.takeWhile isDigit, ⟨by simp, ?_⟩, by simp⟩
      rintro d hd
      rcases List.mem_cons.mp hd with rfl | hd
      · exact hc
      · exact List.all_eq_true.mp List.all_takeWhile d hd
    · cases h

theorem skipMinus_cases (s : Bytes) : ∃ minus, (minus = [] ∨ minus = [ch '-']) ∧ s = minus ++ skipMinus s := by
  cases s with
  | nil => exact ⟨[], .inl rfl, rfl⟩
  | cons c s =>
    rw [skipMinus]
    split
    · rename_i hc
      exact ⟨[ch '-'], .inr rfl, by rw [hc]; rfl⟩
    · exact ⟨[], .inl rfl, rfl⟩

theorem skipSign_cases (s : Bytes) :
    ∃ sign, (sign = [] ∨ sign = [ch '+'] ∨ sign = [ch '-']) ∧ s = sign ++ skipSign s := by
  cases s with
  | nil => exact ⟨[], .inl rfl, rfl⟩
  | cons c s =>
    rw [skipSign]
    split
    · rename_i hc
      simp only [Bool.or_eq_true, decide_eq_true_eq] at hc
      rcases hc with rfl | rfl
      · exact ⟨[ch '+'], .inr (.inl rfl), rfl⟩
      · exact ⟨[ch '-'], .inr (.inr rfl), rfl⟩
    · exact ⟨[], .inl rfl, rfl⟩

theorem integer_of_skipInteger {s r : Bytes} (h : skipInteger s = some r) : ∃ int, IsInteger int ∧ s = int ++ r := by
  cases s with
  | nil => cases h
  | cons c s =>
    rw [skipInteger] at h
    split at h
    · rename_i hc
      exact ⟨[ch '0'], .inl rfl, by rw [hc, Option.some.inj h]; rfl⟩
    · rename_i hc
      obtain ⟨ds, hds, hs⟩ := digits_of_skipDigits h
      obtain ⟨d, ds, rfl⟩ := List.exists_cons_of_ne_nil hds.1
      refine ⟨d :: ds, .inr ⟨hds, ?_⟩, hs⟩
      rw [(List.cons.inj hs).1] at hc
      simpa using hc

theorem fraction_of_skipFraction {s r : Bytes} (h : skipFraction s = some r) : ∃ f, IsFraction f ∧ s = f ++ r := by
  cases s with
  | nil => exact ⟨[], .inl rfl, Option.some.inj h⟩
  | cons c s =>
    rw [skipFraction] at h
    split at h
    · rename_i hc
      obtain ⟨ds, hds, rfl⟩ := digits_of_skipDigits h
      exact ⟨ch '.' :: ds, .inr ⟨ds, hds, rfl⟩, by rw [hc]; rfl⟩
    · exact ⟨[], .inl rfl, Option.some.inj h⟩

theorem exponent_of_skipExponent {s r : Bytes} (h : skipExponent s = some r) : ∃ e, IsExponent e ∧ s = e ++ r := by
  cases s with
  | nil => exact ⟨[], .inl rfl, Option.some.inj h⟩
  | cons c s =>
    rw [skipExponent] at h
    split at h
    · rename_i hc
      simp only [Bool.or_eq_true, decide_eq_true_eq] at hc
      obtain ⟨ds, hds, hs⟩ := digits_of_skipDigits h
      obtain ⟨sign, hsign, hs'⟩ := skipSign_cases s
      refine ⟨c :: sign ++ ds, .inr ⟨c, sign, ds, hc, hsign, hds, rfl⟩, ?_⟩
      rw [hs', hs]
      simp
    · exact ⟨[], .inl rfl, Option.some.inj h⟩

theorem number_of_skipNumber {s r : Bytes} (h : skipNumber s = some r) : ∃ t, IsNumber t ∧ s = t ++ r := by
  unfold skipNumber at h
  obtain ⟨s₁, h₁, h⟩ := Option.bind_eq_some_iff.mp h
  obtain ⟨s₂, h₂, h₃⟩ := Option.bind_eq_some_iff.mp h
  obtain ⟨minus, hminus, hs⟩ := skipMinus_cases s
  obtain ⟨int, hint, hs₀⟩ := integer_of_skipInteger h₁
  obtain ⟨frac, hfrac, rfl⟩ := fraction_of_skipFraction h₂
  obtain ⟨exp, hexp, rfl⟩ := exponent_of_skipExponent h₃
  refine ⟨_, ⟨minus, int, frac, exp, hminus, hint, hfrac, hexp, rfl⟩, ?_⟩
  rw [hs, hs₀]
  simp

/-- What may follow a number. -/
def EndsNumber (r : Bytes) : Prop :=
  ∀ c ∈ r.head?, isDigit c = false ∧ c ≠ ch '.' ∧ c ≠ ch 'e' ∧ c ≠ ch 'E'

theorem Stops.endsNumber {r : Bytes} (h : Stops r) : EndsNumber r := by
  intro c hc
  rcases h c hc with hws | rfl | rfl | rfl
  · simp only [blank, Bool.or_eq_true, decide_eq_true_eq] at hws
    rcases hws with ((rfl | rfl) | rfl) | rfl <;> decide
  all_goals decide

theorem skipExponent_exponent {e r : Bytes} (he : IsExponent e) (hr : EndsNumber r) :
    skipExponent (e ++ r) = some r := by
  rcases he with rfl | ⟨m, sign, ds, hm, hsign, hds, rfl⟩
  · cases r with
    | nil => rfl
    | cons c r =>
      obtain ⟨-, -, he, hE⟩ := hr c rfl
      rw [List.nil_append, skipExponent, if_neg (by simp [he, hE])]
  · obtain ⟨d, ds', rfl⟩ := List.exists_cons_of_ne_nil hds.1
    have hd : d ≠ ch '+' ∧ d ≠ ch '-' := by
      have := hds.2 d (by simp)
      constructor <;> rintro rfl <;> exact absurd this (by decide)
    have hskip : skipSign (sign ++ (d :: ds' ++ r)) = d :: ds' ++ r := by
      rcases hsign with rfl | rfl | rfl
      · rw [List.nil_append, List.cons_append, skipSign, if_neg (by simp [hd])]
      · rfl
      · rfl
    rw [List.append_assoc, List.cons_append, skipExponent, if_pos (by simpa using hm), hskip]
    exact skipDigits_digits hds fun c hc => (hr c hc).1

theorem skipFraction_fraction {f r : Bytes} (hf : IsFraction f)
    (hr : ∀ c ∈ r.head?, isDigit c = false ∧ c ≠ ch '.') : skipFraction (f ++ r) = some r := by
  rcases hf with rfl | ⟨ds, hds, rfl⟩
  · cases r with
    | nil => rfl
    | cons c r => rw [List.nil_append, skipFraction, if_neg (hr c rfl).2]
  · rw [List.cons_append, skipFraction, if_pos rfl]
    exact skipDigits_digits hds fun c hc => (hr c hc).1

theorem skipInteger_integer {int r : Bytes} (hint : IsInteger int) (hr : ∀ c ∈ r.head?, isDigit c = false) :
    skipInteger (int ++ r) = some r := by
  rcases hint with rfl | ⟨hds, hzero⟩
  · rfl
  · obtain ⟨d, ds, rfl⟩ := List.exists_cons_of_ne_nil hds.1
    rw [List.cons_append, skipInteger, if_neg (by simpa using hzero), ← List.cons_append]
    exact skipDigits_digits hds hr

theorem head_integer {int : Bytes} (hint : IsInteger int) : ∃ d ds, int = d :: ds ∧ isDigit d := by
  rcases hint with rfl | ⟨⟨hne, hds⟩, -⟩
  · exact ⟨_, _, rfl, by decide⟩
  · obtain ⟨d, ds, rfl⟩ := List.exists_cons_of_ne_nil hne
    exact ⟨d, ds, rfl, hds d (by simp)⟩

theorem skipMinus_integer {minus int r : Bytes} (hminus : minus = [] ∨ minus = [ch '-']) (hint : IsInteger int) :
    skipMinus (minus ++ int ++ r) = int ++ r := by
  obtain ⟨d, ds, rfl, hd⟩ := head_integer hint
  rcases hminus with rfl | rfl
  · rw [List.nil_append, List.cons_append, skipMinus, if_neg]
    rintro rfl
    exact absurd hd (by decide)
  · rfl

theorem skipNumber_number {t r : Bytes} (ht : IsNumber t) (hr : EndsNumber r) : skipNumber (t ++ r) = some r := by
  obtain ⟨minus, int, frac, exp, hminus, hint, hfrac, hexp, rfl⟩ := ht
  have hexpr : ∀ c ∈ (exp ++ r).head?, isDigit c = false ∧ c ≠ ch '.' := by
    rcases hexp with rfl | ⟨m, sign, ds, hm, -, -, rfl⟩
    · exact fun c hc => ⟨(hr c hc).1, (hr c hc).2.1⟩
    · rintro c hc
      obtain rfl : m = c := by simpa using hc
      rcases hm with rfl | rfl <;> decide
  have hfracr : ∀ c ∈ (frac ++ (exp ++ r)).head?, isDigit c = false := by
    rcases hfrac with rfl | ⟨ds, -, rfl⟩
    · exact fun c hc => (hexpr c hc).1
    · rintro c hc
      obtain rfl : ch '.' = c := by simpa using hc
      decide
  unfold skipNumber
  simp only [List.append_assoc]
  rw [← List.append_assoc minus, skipMinus_integer hminus hint, skipInteger_integer hint hfracr]
  simp only [Option.bind_eq_bind, Option.bind_some]
  rw [skipFraction_fraction hfrac hexpr]
  exact skipExponent_exponent hexp hr

end LlmGuard.Json
