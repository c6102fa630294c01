import LlmGuard.Code.Validators
import LlmGuard.Lib.Decimal

/-!
# `try_parse_v4` accepts the canonical dotted quads

An octet is accepted when it is the decimal form of its value. The loop cuts the text at its dots.
-/

namespace LlmGuard

/-! ## The index loop -/

/-- `s.find('.', start)` -/
def findDot (s : Bytes) (start : Nat) : Option Nat := ((s.drop start).findIdx? (· = ch '.')).map (start + ·)

/-- Where the octet from `start` on ends. The last one runs to the end of the text and holds no dot. -/
def octetEnd (s : Bytes) (last : Bool) (start : Nat) : Option Nat :=
  if last then (if (findDot s start).isSome then none else some s.length) else findDot s start

/-- The octets still to read, from `start` on. -/
def octetLoop (s : Bytes) : Nat → Nat → Option Bytes
  | 0, _ => some []
  | left + 1, start => do
    let stop ← octetEnd s (left = 0) start
    let b ← parseOctet (slice s start stop)
    let rest ← octetLoop s left (stop + 1)
    some (b :: rest)

/-- `try_parse_v4` as a loop over indices. -/
def tryParseV4Loop (s : Bytes) : Option Bytes := octetLoop s 4 0

/-! ## One octet -/

set_option maxRecDepth 8192 in
theorem parseOctet_eq_some {o : Bytes} {b : Byte} : parseOctet o = some b ↔ o = decimal b.toNat := by
  constructor
  · intro h
    unfold parseOctet at h
    split at h
    · cases h
    · rename_i hlen
      split at h
      · cases h
      · rename_i hzero
        split at h
        · cases h
        · rename_i hdigits
          split at h
          · cases h
          · rename_i hrange
            simp only [Bool.or_eq_true, List.isEmpty_iff, decide_eq_true_eq, not_or] at hlen
            simp only [Bool.and_eq_true, decide_eq_true_eq, not_and] at hzero
            simp only [Bool.not_eq_true', Bool.not_eq_false, List.all_eq_true] at hdigits
            have hval : b.toNat = digitsVal o := by
              rw [← Option.some.inj h]
              exact Nat.mod_eq_of_lt (by omega)
            rw [hval, (Canonical.mk hlen.1 hdigits hzero).decimal_eq]
  · rintro rfl
    have hcanonical := canonical_decimal b.toNat
    have hlen : ∀ n < 256, (decimal n).length ≤ 3 := by decide
    have hshort := hlen b.toNat b.toNat_lt
    unfold parseOctet
    rw [if_neg ?_, if_neg ?_, if_neg ?_, if_neg ?_, digitsVal_decimal]
    · exact congrArg some UInt8.ofNat_toNat
    · rw [digitsVal_decimal]
      have := b.toNat_lt
      omega
    · simpa using hcanonical.digits
    · simpa using hcanonical.head
    · simp only [Bool.or_eq_true, List.isEmpty_iff, decide_eq_true_eq, not_or]
      exact ⟨hcanonical.nonempty, by omega⟩

/-! ## All octets -/

/-- The decimal octets with dots between them. -/
def dotted (octets : Bytes) : Bytes := [ch '.'].intercalate (octets.map fun b => decimal b.toNat)

theorem dot_not_mem_decimal (n : Nat) : ch '.' ∉ decimal n := not_mem_decimal n _ (by decide)

theorem dotted_cons (b : Byte) {octets : Bytes} (h : octets ≠ []) :
    dotted (b :: octets) = decimal b.toNat ++ ch '.' :: dotted octets := by
  obtain ⟨c, octets, rfl⟩ := List.exists_cons_of_ne_nil h
  simp [dotted, List.intercalate]

theorem findDot_none {s : Bytes} {start : Nat} : findDot s start = none ↔ ch '.' ∉ s.drop start := by
  simp only [findDot, Option.map_eq_none_iff, List.findIdx?_eq_none_iff, decide_eq_false_iff_not]
  constructor
  · exact fun h hmem => h _ hmem rfl
  · rintro h b hb rfl
    exact h hb

theorem findDot_some {s : Bytes} {start dot : Nat} (h : findDot s start = some dot) :
    s.drop start = slice s start dot ++ ch '.' :: s.drop (dot + 1) := by
  obtain ⟨i, hi, rfl⟩ := Option.map_eq_some_iff.mp h
  obtain ⟨hlt, hdot, -⟩ := List.findIdx?_eq_some_iff_getElem.mp hi
  simp only [decide_eq_true_eq] at hdot
  rw [slice, Nat.add_sub_cancel_left, ← hdot, Nat.add_assoc, ← List.drop_drop, List.getElem_cons_drop,
    List.take_append_drop]

theorem findDot_append {s u v : Bytes} {start : Nat} (hs : s.drop start = u ++ ch '.' :: v) (hu : ch '.' ∉ u) :
    findDot s start = some (start + u.length) ∧ slice s start (start + u.length) = u ∧
      s.drop (start + u.length + 1) = v := by
  have hnone : u.findIdx? (· = ch '.') = none := by
    rw [List.findIdx?_eq_none_iff]
    rintro b hb
    simp only [decide_eq_false_iff_not]
    rintro rfl
    exact hu hb
  refine ⟨?_, ?_, ?_⟩
  · rw [findDot, hs, List.findIdx?_append, hnone, List.findIdx?_cons]
    simp
  · rw [slice, hs, Nat.add_sub_cancel_left, List.take_left]
  · rw [Nat.add_assoc, ← List.drop_drop, hs, ← List.drop_drop, List.drop_left]
    rfl

theorem octetLoop_succ {s : Bytes} {left start : Nat} {octets : Bytes} :
    octetLoop s (left + 1) start = some octets ↔ ∃ stop b rest, octetEnd s (left = 0) start = some stop ∧
      slice s start stop = decimal b.toNat ∧ octetLoop s left (stop + 1) = some rest ∧ octets = b :: rest := by
  rw [octetLoop]
  constructor
  · intro h
    obtain ⟨stop, hstop, h⟩ := Option.bind_eq_some_iff.mp h
    obtain ⟨b, hb, h⟩ := Option.bind_eq_some_iff.mp h
    obtain ⟨rest, hrest, h⟩ := Option.bind_eq_some_iff.mp h
    exact ⟨stop, b, rest, hstop, parseOctet_eq_some.mp hb, hrest, (Option.some.inj h).symm⟩
  · rintro ⟨stop, b, rest, hstop, hb, hrest, rfl⟩
    simp [hstop, parseOctet_eq_some.mpr hb, hrest]

theorem octetLoop_eq_some {s : Bytes} {left start : Nat} {octets : Bytes} :
    octetLoop s (left + 1) start = some octets ↔ octets.length = left + 1 ∧ s.drop start = dotted octets := by
  induction left generalizing start octets with
  | zero =>
    have hrest : slice s start s.length = s.drop start := List.take_of_length_le (by simp)
    rw [octetLoop_succ]
    constructor
    · rintro ⟨stop, b, rest, hstop, hb, hnil, rfl⟩
      obtain rfl := Option.some.inj hnil
      obtain rfl : s.length = stop := by
        unfold octetEnd at hstop
        simp only [decide_true, if_true] at hstop
        split at hstop
        · cases hstop
        · exact Option.some.inj hstop
      exact ⟨rfl, by simpa [dotted] using hrest.symm.trans hb⟩
    · rintro ⟨hlen, hs⟩
      obtain ⟨b, rfl⟩ := List.length_eq_one_iff.mp hlen
      have hb : s.drop start = decimal b.toNat := by simpa [dotted] using hs
      have hnone : findDot s start = none := findDot_none.mpr (hb ▸ dot_not_mem_decimal b.toNat)
      exact ⟨s.length, b, [], by simp [octetEnd, hnone], hrest.trans hb, rfl, rfl⟩
  | succ left ih =>
    have hend : octetEnd s (left + 1 = 0) start = findDot s start := by simp [octetEnd]
    rw [octetLoop_succ, hend]
    constructor
    · rintro ⟨dot, b, rest, hdot, hb, hrest, rfl⟩
      obtain ⟨hlen, hdrop⟩ := ih.mp hrest
      refine ⟨by rw [List.length_cons, hlen], ?_⟩
      rw [dotted_cons b (by rintro rfl; cases hlen), ← hdrop, ← hb]
      exact findDot_some hdot
    · rintro ⟨hlen, hs⟩
      obtain ⟨b, rest, rfl⟩ := List.exists_cons_of_length_eq_add_one hlen
      have hlen' : rest.length = left + 1 := by simpa using hlen
      rw [dotted_cons b (by rintro rfl; cases hlen')] at hs
      obtain ⟨hdot, hslice, hdrop⟩ := findDot_append hs (dot_not_mem_decimal _)
      exact ⟨_, b, rest, hdot, hslice, ih.mpr ⟨hlen', hdrop⟩, rfl⟩

/-! ## The two models of `try_parse_v4` -/

theorem tryParseV4_eq_some {s octets : Bytes} : tryParseV4 s = some octets ↔ octets.length = 4 ∧ s = dotted octets := by
  constructor
  · intro h
    unfold tryParseV4 at h
    split at h
    · rename_i a b c d hsplit
      obtain ⟨b0, h0, h⟩ := Option.bind_eq_some_iff.mp h
      obtain ⟨b1, h1, h⟩ := Option.bind_eq_some_iff.mp h
      obtain ⟨b2, h2, h⟩ := Option.bind_eq_some_iff.mp h
      obtain ⟨b3, h3, h⟩ := Option.bind_eq_some_iff.mp h
      obtain rfl := Option.some.inj h
      refine ⟨rfl, ?_⟩
      have hjoin : s = [ch '.'].intercalate (s.splitOn (ch '.')) := (List.intercalate_splitOn (ch '.')).symm
      rw [hjoin]
      unfold splitDot at hsplit
      rw [hsplit, parseOctet_eq_some.mp h0, parseOctet_eq_some.mp h1, parseOctet_eq_some.mp h2,
        parseOctet_eq_some.mp h3]
      rfl
    · cases h
  · rintro ⟨hlen, rfl⟩
    obtain ⟨b0, b1, b2, b3, rfl⟩ : ∃ b0 b1 b2 b3, octets = [b0, b1, b2, b3] := by
      match octets, hlen with
      | [b0, b1, b2, b3], _ => exact ⟨b0, b1, b2, b3, rfl⟩
    have hsplit : splitDot (dotted [b0, b1, b2, b3]) =
        [decimal b0.toNat, decimal b1.toNat, decimal b2.toNat, decimal b3.toNat] := by
      refine List.splitOn_intercalate (ch '.') ?_ (by simp)
      intro part hpart
      obtain ⟨b, -, rfl⟩ := List.mem_map.mp hpart
      exact dot_not_mem_decimal b.toNat
    unfold tryParseV4
    rw [hsplit]
    have hone : ∀ b : Byte, parseOctet (decimal b.toNat) = some b := fun b => parseOctet_eq_some.mpr rfl
    simp only [hone]
    rfl

theorem tryParseV4Loop_eq (s : Bytes) : tryParseV4Loop s = tryParseV4 s := by
  refine Option.ext fun octets => ?_
  rw [tryParseV4_eq_some]
  exact octetLoop_eq_some

/-- The address `b0.b1.b2.b3` has one spelling, and no other text is an address. -/
theorem tryParseV4_canonical (s : Bytes) (b0 b1 b2 b3 : Byte) :
    (tryParseV4Loop s = some [b0, b1, b2, b3] ↔ s = decimal b0.toNat ++ [ch '.'] ++ decimal b1.toNat ++ [ch '.'] ++
        decimal b2.toNat ++ [ch '.'] ++ decimal b3.toNat) ∧
      ∀ s' octets, tryParseV4Loop s = some octets → tryParseV4Loop s' = some octets → s = s' := by
  constructor
  · rw [tryParseV4Loop, octetLoop_eq_some]
    simp [dotted, List.intercalate]
  · intro s' octets h h'
    exact (octetLoop_eq_some.mp h).2.trans (octetLoop_eq_some.mp h').2.symm

end LlmGuard
