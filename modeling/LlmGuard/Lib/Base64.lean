import Mathlib.Data.List.Basic

/-!
# Sextets and octets

The grouping of RFC 4648: three octets are four sextets. Two or three sextets at the end stand for one or two octets, and
the bits that are left over are zero.
-/

namespace Base64

def sextets : List UInt8 → List Nat
  | a :: b :: c :: s =>
    a.toNat / 4 :: (a.toNat % 4 * 16 + b.toNat / 16) :: (b.toNat % 16 * 4 + c.toNat / 64) :: c.toNat % 64 :: sextets s
  | [a, b] => [a.toNat / 4, a.toNat % 4 * 16 + b.toNat / 16, b.toNat % 16 * 4]
  | [a] => [a.toNat / 4, a.toNat % 4 * 16]
  | [] => []

def first (u v : Nat) : UInt8 := (u * 4 + v / 16).toUInt8

def second (v w : Nat) : UInt8 := (v % 16 * 16 + w / 4).toUInt8

def third (w x : Nat) : UInt8 := (w % 4 * 64 + x).toUInt8

/-- One sextet alone is nothing, and what is left over must be zero. -/
def octets : List Nat → Option (List UInt8)
  | u :: v :: w :: x :: ds => (octets ds).map fun s => first u v :: second v w :: third w x :: s
  | [u, v, w] => if w % 4 = 0 then some [first u v, second v w] else none
  | [u, v] => if v % 16 = 0 then some [first u v] else none
  | [_] => none
  | [] => some []

theorem sextets_lt (s : List UInt8) : ∀ d ∈ sextets s, d < 64 := by
  induction s using sextets.induct with
  | case1 a b c s ih =>
    have := a.toNat_lt
    have := b.toNat_lt
    have := c.toNat_lt
    simp only [sextets, List.forall_mem_cons]
    exact ⟨by omega, by omega, by omega, by omega, ih⟩
  | case2 a b =>
    have := a.toNat_lt
    have := b.toNat_lt
    simp only [sextets, List.forall_mem_cons]
    exact ⟨by omega, by omega, by omega, by simp⟩
  | case3 a =>
    have := a.toNat_lt
    simp only [sextets, List.forall_mem_cons]
    exact ⟨by omega, by omega, by simp⟩
  | case4 => simp [sextets]

theorem toNat_first {u v : Nat} (hu : u < 64) (hv : v < 64) : (first u v).toNat = u * 4 + v / 16 :=
  Nat.mod_eq_of_lt (by omega)

theorem toNat_second {v w : Nat} (hw : w < 64) : (second v w).toNat = v % 16 * 16 + w / 4 :=
  Nat.mod_eq_of_lt (by omega)

theorem toNat_third {w x : Nat} (hx : x < 64) : (third w x).toNat = w % 4 * 64 + x :=
  Nat.mod_eq_of_lt (by omega)

theorem sextets_of_octets {ds : List Nat} (hds : ∀ d ∈ ds, d < 64) {s : List UInt8} (h : octets ds = some s) :
    sextets s = ds := by
  induction ds using octets.induct generalizing s with
  | case1 u v w x ds ih =>
    simp only [List.forall_mem_cons] at hds
    obtain ⟨hu, hv, hw, hx, hds⟩ := hds
    obtain ⟨t, ht, rfl⟩ := Option.map_eq_some_iff.mp h
    rw [sextets, ih hds ht, toNat_first hu hv, toNat_second hw, toNat_third hx]
    simp only [List.cons.injEq]
    exact ⟨by omega, by omega, by omega, by omega, trivial⟩
  | case2 u v w hzero =>
    simp only [List.forall_mem_cons] at hds
    obtain ⟨hu, hv, hw, -⟩ := hds
    rw [octets, if_pos hzero] at h
    rw [← Option.some.inj h, sextets, toNat_first hu hv, toNat_second hw]
    simp only [List.cons.injEq]
    exact ⟨by omega, by omega, by omega, trivial⟩
  | case3 u v w hzero =>
    rw [octets, if_neg hzero] at h
    cases h
  | case4 u v hzero =>
    simp only [List.forall_mem_cons] at hds
    obtain ⟨hu, hv, -⟩ := hds
    rw [octets, if_pos hzero] at h
    rw [← Option.some.inj h, sextets, toNat_first hu hv]
    simp only [List.cons.injEq]
    exact ⟨by omega, by omega, trivial⟩
  | case5 u v hzero =>
    rw [octets, if_neg hzero] at h
    cases h
  | case6 => cases h
  | case7 => rw [← Option.some.inj h, sextets]

theorem first_sextets (a b : UInt8) : first (a.toNat / 4) (a.toNat % 4 * 16 + b.toNat / 16) = a := by
  have ha := a.toNat_lt
  have hb := b.toNat_lt
  apply UInt8.toNat_inj.mp
  rw [toNat_first (by omega) (by omega)]
  omega

theorem second_sextets (a b c : UInt8) :
    second (a.toNat % 4 * 16 + b.toNat / 16) (b.toNat % 16 * 4 + c.toNat / 64) = b := by
  have hb := b.toNat_lt
  have hc := c.toNat_lt
  apply UInt8.toNat_inj.mp
  rw [toNat_second (by omega)]
  omega

theorem third_sextets (b c : UInt8) : third (b.toNat % 16 * 4 + c.toNat / 64) (c.toNat % 64) = c := by
  have hc := c.toNat_lt
  apply UInt8.toNat_inj.mp
  rw [toNat_third (by omega)]
  omega

theorem octets_sextets (s : List UInt8) : octets (sextets s) = some s := by
  induction s using sextets.induct with
  | case1 a b c s ih =>
    rw [sextets, octets, ih, Option.map_some, first_sextets, second_sextets, third_sextets]
  | case2 a b =>
    have hfirst := first_sextets a b
    have hsecond := second_sextets a b 0
    simp only [UInt8.toNat_zero, Nat.zero_div, Nat.add_zero] at hsecond
    rw [sextets, octets, if_pos (by omega), hfirst, hsecond]
  | case3 a =>
    have hfirst := first_sextets a 0
    simp only [UInt8.toNat_zero, Nat.zero_div, Nat.add_zero] at hfirst
    rw [sextets, octets, if_pos (by omega), hfirst]
  | case4 => rfl

end Base64
