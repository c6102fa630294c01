import LlmGuard.Code.Base64
import LlmGuard.Lib.Base64

/-!
# base64url

The 32-bit word of either loop is shifted and never masked: what stands above the pending bits is what was read before. It
does not reach the output, since every character and every byte is cut out of the low bits. So the encoder writes the
sextets of its text, and the decoder accepts the sextets of some text and nothing else, in the characters that it reads.
-/

namespace LlmGuard.Base64

/-! ## The word -/

theorem toNat_toUInt32 {n : Nat} (hn : n < 32) : n.toUInt32.toNat % 32 = n := by
  simp only [Nat.toUInt32]
  simp
  omega

theorem toNat_push (buf v : UInt32) {n : Nat} (hn : n < 32) (hv : v.toNat < 2 ^ n) :
    (buf <<< n.toUInt32 ||| v).toNat = (buf.toNat * 2 ^ n + v.toNat) % 2 ^ 32 := by
  rw [UInt32.toNat_or, UInt32.toNat_shiftLeft, toNat_toUInt32 hn, ← Nat.mod_eq_of_lt v.toNat_lt, ← Nat.or_mod_two_pow,
    ← Nat.shiftLeft_add_eq_or_of_lt hv, Nat.shiftLeft_eq, Nat.mod_eq_of_lt v.toNat_lt]

theorem toNat_pushByte (buf : UInt32) (c : Byte) :
    (buf <<< 8 ||| c.toUInt32).toNat = (buf.toNat * 256 + c.toNat) % 2 ^ 32 := by
  have hpush := toNat_push buf c.toUInt32 (n := 8) (by omega) (by simpa using c.toNat_lt)
  simpa using hpush

theorem toNat_pushDigit (buf : UInt32) {d : Nat} (hd : d < 64) :
    (buf <<< 6 ||| d.toUInt32).toNat = (buf.toNat * 64 + d) % 2 ^ 32 := by
  have hval : d.toUInt32.toNat = d := Nat.mod_eq_of_lt (by omega)
  have hpush := toNat_push buf d.toUInt32 (n := 6) (by omega) (by omega)
  rw [hval] at hpush
  simpa using hpush

theorem toNat_sextet (buf : UInt32) {n : Nat} (hn : n < 32) :
    (buf >>> n.toUInt32 &&& 0x3F).toNat = buf.toNat / 2 ^ n % 64 := by
  rw [UInt32.toNat_and, UInt32.toNat_shiftRight, toNat_toUInt32 hn, Nat.shiftRight_eq_div_pow]
  exact Nat.and_two_pow_sub_one_eq_mod _ 6

theorem toNat_lastSextet (buf : UInt32) {n : Nat} (hn : n < 32) :
    (buf <<< n.toUInt32 &&& 0x3F).toNat = buf.toNat * 2 ^ n % 64 := by
  rw [UInt32.toNat_and, UInt32.toNat_shiftLeft, toNat_toUInt32 hn, Nat.shiftLeft_eq]
  apply (Nat.and_two_pow_sub_one_eq_mod _ 6).trans
  exact Nat.mod_mod_of_dvd _ (by decide)

theorem toNat_octet (buf : UInt32) {n : Nat} (hn : n < 32) :
    (buf >>> n.toUInt32 &&& 0xFF).toUInt8.toNat = buf.toNat / 2 ^ n % 256 := by
  rw [UInt32.toNat_toUInt8, UInt32.toNat_and, UInt32.toNat_shiftRight, toNat_toUInt32 hn, Nat.shiftRight_eq_div_pow]
  refine (congrArg (· % 256) (Nat.and_two_pow_sub_one_eq_mod _ 8)).trans ?_
  exact Nat.mod_mod _ _

theorem leftover_iff (buf : UInt32) {n : Nat} (hn : n < 32) :
    buf &&& ((1 <<< n.toUInt32) - 1) ≠ 0 ↔ buf.toNat % 2 ^ n ≠ 0 := by
  have hpow : 2 ^ n < 2 ^ 32 := Nat.pow_lt_pow_right (by omega) hn
  have hone : 1 ≤ 2 ^ n := Nat.one_le_two_pow
  have hshift : ((1 : UInt32) <<< n.toUInt32).toNat = 2 ^ n := by
    rw [UInt32.toNat_shiftLeft, toNat_toUInt32 hn, UInt32.toNat_one, Nat.one_shiftLeft, Nat.mod_eq_of_lt hpow]
  have hmask : (((1 : UInt32) <<< n.toUInt32) - 1).toNat = 2 ^ n - 1 := by
    rw [UInt32.toNat_sub_of_le _ _ (by rw [UInt32.le_iff_toNat_le, hshift]; exact hone), hshift, UInt32.toNat_one]
  rw [Ne, ← UInt32.toNat_inj, UInt32.toNat_and, hmask, Nat.and_two_pow_sub_one_eq_mod]
  rfl

/-! ## The alphabet -/

/-- The character of a sextet. -/
def digit (d : Nat) : Byte := alpha.getD d 0

theorem alphaAt_eq (i : UInt32) : alphaAt i = digit i.toNat := rfl

theorem table_digit {d : Nat} (hd : d < 64) : table (digit d) = d := by
  have hall : ∀ d < 64, table (digit d) = (d : Int) := by decide +kernel
  exact hall d hd

set_option maxRecDepth 8192 in
theorem not_ignored_digit {d : Nat} (hd : d < 64) : ignored (digit d) = false := by
  have hall : ∀ d < 64, ignored (digit d) = false := by decide
  exact hall d hd

theorem foldl_written {c : Byte} (l : List Nat) (v : Int) :
    l.foldl (fun v i => if digit i = c then (i : Int) else v) v = v ∨
      ∃ i ∈ l, digit i = c ∧ l.foldl (fun v i => if digit i = c then (i : Int) else v) v = i := by
  induction l generalizing v with
  | nil => exact .inl rfl
  | cons i l ih =>
    rw [List.foldl_cons]
    by_cases hi : digit i = c
    · rw [if_pos hi]
      rcases ih i with h | ⟨k, hk, hdigit, h⟩
      · exact .inr ⟨i, List.mem_cons_self, hi, h⟩
      · exact .inr ⟨k, List.mem_cons_of_mem i hk, hdigit, h⟩
    · rw [if_neg hi]
      rcases ih v with h | ⟨k, hk, hdigit, h⟩
      · exact .inl h
      · exact .inr ⟨k, List.mem_cons_of_mem i hk, hdigit, h⟩

theorem digit_table {c : Byte} (h : 0 ≤ table c) : (table c).toNat < 64 ∧ digit (table c).toNat = c := by
  rcases foldl_written (List.range 64) (-1) (c := c) with hnone | ⟨i, hi, hdigit, hvalue⟩
  · exact absurd (h.trans_eq hnone) (by decide)
  · have htable : table c = i := hvalue
    rw [htable]
    exact ⟨List.mem_range.mp hi, hdigit⟩

/-! ## `url_encode` -/

theorem drain_eight (buf : UInt32) : drain buf 8 = ([digit (buf.toNat / 4 % 64)], 2) := by
  have hcut := toNat_sextet buf (n := 2) (by omega)
  show ([alphaAt (buf >>> 2 &&& 0x3F)], 2) = _
  rw [alphaAt_eq]
  exact congrArg (fun d => ([digit d], 2)) hcut

theorem drain_ten (buf : UInt32) : drain buf 10 = ([digit (buf.toNat / 16 % 64)], 4) := by
  have hcut := toNat_sextet buf (n := 4) (by omega)
  show ([alphaAt (buf >>> 4 &&& 0x3F)], 4) = _
  rw [alphaAt_eq]
  exact congrArg (fun d => ([digit d], 4)) hcut

theorem drain_twelve (buf : UInt32) :
    drain buf 12 = ([digit (buf.toNat / 64 % 64), digit (buf.toNat % 64)], 0) := by
  have hupper := toNat_sextet buf (n := 6) (by omega)
  have hlower := toNat_sextet buf (n := 0) (by omega)
  rw [Nat.pow_zero, Nat.div_one] at hlower
  show ([alphaAt (buf >>> 6 &&& 0x3F), alphaAt (buf >>> 0 &&& 0x3F)], 0) = _
  rw [alphaAt_eq, alphaAt_eq]
  exact congrArg₂ (fun d e => ([digit d, digit e], 0)) hupper hlower

theorem encodeLoop_cons (buf : UInt32) (bits : Nat) (c : Byte) (s : Bytes) : encodeLoop buf bits (c :: s) =
    (drain (buf <<< 8 ||| c.toUInt32) (bits + 8)).1 ++
      encodeLoop (buf <<< 8 ||| c.toUInt32) (drain (buf <<< 8 ||| c.toUInt32) (bits + 8)).2 s := rfl

theorem encodeLoop_nil_two (buf : UInt32) : encodeLoop buf 2 [] = [digit (buf.toNat * 16 % 64)] := by
  have hcut := toNat_lastSextet buf (n := 4) (by omega)
  show [alphaAt (buf <<< 4 &&& 0x3F)] = _
  rw [alphaAt_eq]
  exact congrArg (fun d => [digit d]) hcut

theorem encodeLoop_nil_four (buf : UInt32) : encodeLoop buf 4 [] = [digit (buf.toNat * 4 % 64)] := by
  have hcut := toNat_lastSextet buf (n := 2) (by omega)
  show [alphaAt (buf <<< 2 &&& 0x3F)] = _
  rw [alphaAt_eq]
  exact congrArg (fun d => [digit d]) hcut

theorem encodeLoop_one (buf : UInt32) (a : Byte) :
    encodeLoop buf 0 [a] = [digit (a.toNat / 4), digit (a.toNat % 4 * 16)] := by
  have ha := a.toNat_lt
  have hbuf := toNat_pushByte buf a
  have hfirst : (buf <<< 8 ||| a.toUInt32).toNat / 4 % 64 = a.toNat / 4 := by omega
  have hlast : (buf <<< 8 ||| a.toUInt32).toNat * 16 % 64 = a.toNat % 4 * 16 := by omega
  rw [encodeLoop_cons, Nat.zero_add, drain_eight, encodeLoop_nil_two, hfirst, hlast]
  rfl

theorem encodeLoop_two (buf : UInt32) (a b : Byte) : encodeLoop buf 0 [a, b] =
    [digit (a.toNat / 4), digit (a.toNat % 4 * 16 + b.toNat / 16), digit (b.toNat % 16 * 4)] := by
  have ha := a.toNat_lt
  have hb := b.toNat_lt
  have hbuf := toNat_pushByte buf a
  rw [encodeLoop_cons, Nat.zero_add, drain_eight]
  generalize buf <<< 8 ||| a.toUInt32 = x at hbuf ⊢
  have hx := toNat_pushByte x b
  have hfirst : x.toNat / 4 % 64 = a.toNat / 4 := by omega
  have hsecond : (x <<< 8 ||| b.toUInt32).toNat / 16 % 64 = a.toNat % 4 * 16 + b.toNat / 16 := by omega
  have hlast : (x <<< 8 ||| b.toUInt32).toNat * 4 % 64 = b.toNat % 16 * 4 := by omega
  rw [encodeLoop_cons, drain_ten, encodeLoop_nil_four, hfirst, hsecond, hlast]
  rfl

theorem encodeLoop_three (buf : UInt32) (a b c : Byte) (s : Bytes) : ∃ buf', encodeLoop buf 0 (a :: b :: c :: s) =
    digit (a.toNat / 4) :: digit (a.toNat % 4 * 16 + b.toNat / 16) :: digit (b.toNat % 16 * 4 + c.toNat / 64) ::
      digit (c.toNat % 64) :: encodeLoop buf' 0 s := by
  have ha := a.toNat_lt
  have hb := b.toNat_lt
  have hc := c.toNat_lt
  have hbuf := toNat_pushByte buf a
  rw [encodeLoop_cons, Nat.zero_add, drain_eight]
  generalize buf <<< 8 ||| a.toUInt32 = x at hbuf ⊢
  have hx := toNat_pushByte x b
  have hfirst : x.toNat / 4 % 64 = a.toNat / 4 := by omega
  rw [encodeLoop_cons, drain_ten, hfirst]
  generalize x <<< 8 ||| b.toUInt32 = y at hx ⊢
  have hy := toNat_pushByte y c
  have hsecond : y.toNat / 16 % 64 = a.toNat % 4 * 16 + b.toNat / 16 := by omega
  have hthird : (y <<< 8 ||| c.toUInt32).toNat / 64 % 64 = b.toNat % 16 * 4 + c.toNat / 64 := by omega
  have hfourth : (y <<< 8 ||| c.toUInt32).toNat % 64 = c.toNat % 64 := by omega
  rw [encodeLoop_cons, drain_twelve, hsecond, hthird, hfourth]
  exact ⟨y <<< 8 ||| c.toUInt32, rfl⟩

/-- The characters are the sextets, whatever was in the word before. -/
theorem encodeLoop_eq (buf : UInt32) (s : Bytes) : encodeLoop buf 0 s = (Base64.sextets s).map digit := by
  induction s using Base64.sextets.induct generalizing buf with
  | case1 a b c s ih =>
    obtain ⟨buf', hstep⟩ := encodeLoop_three buf a b c s
    rw [hstep, ih, Base64.sextets]
    rfl
  | case2 a b => rw [encodeLoop_two, Base64.sextets]; rfl
  | case3 a => rw [encodeLoop_one, Base64.sextets]; rfl
  | case4 => rfl

theorem urlEncode_eq (s : Bytes) : urlEncode s = (Base64.sextets s).map digit := encodeLoop_eq 0 s

/-! ## `url_decode` -/

theorem map_eq_ok {e : Except String Bytes} {f : Bytes → Bytes} {bs : Bytes} :
    e.map f = .ok bs ↔ ∃ t, e = .ok t ∧ f t = bs := by
  cases e <;> simp [Except.map]

theorem decodeLoop_nil {buf : UInt32} {bits : Nat} (hbits : bits < 8) {n : Nat} {bs : Bytes} :
    decodeLoop buf bits n [] = .ok bs ↔ n % 4 ≠ 1 ∧ buf.toNat % 2 ^ bits = 0 ∧ bs = [] := by
  have hleft := leftover_iff buf (n := bits) (by omega)
  unfold decodeLoop
  by_cases hlen : n % 4 = 1
  · simp [hlen]
  · rw [if_neg hlen]
    simp only [hleft]
    by_cases hzero : buf.toNat % 2 ^ bits = 0
    · simp [hzero, hlen, eq_comm]
    · have hpos : 0 < bits := by
        refine Nat.pos_of_ne_zero fun h => hzero ?_
        rw [h, Nat.pow_zero, Nat.mod_one]
      simp [hzero, hpos]

theorem decodeLoop_hold (buf : UInt32) (n : Nat) {d : Nat} (hd : d < 64) (s : Bytes) :
    decodeLoop buf 0 n (digit d :: s) = decodeLoop (buf <<< 6 ||| d.toUInt32) 6 (n + 1) s := by
  have htable := table_digit hd
  rw [decodeLoop, if_neg (by simp [not_ignored_digit hd]), if_neg (by omega), htable]
  rfl

theorem decodeLoop_emit (buf : UInt32) {bits : Nat} (hlo : 2 ≤ bits) (hhi : bits < 8) (n : Nat) {d : Nat} (hd : d < 64)
    (s : Bytes) : decodeLoop buf bits n (digit d :: s) =
      (decodeLoop (buf <<< 6 ||| d.toUInt32) (bits - 2) (n + 1) s).map
        (((buf <<< 6 ||| d.toUInt32).toNat / 2 ^ (bits - 2)).toUInt8 :: ·) := by
  have htable := table_digit hd
  have hoctet := toNat_octet (buf <<< 6 ||| d.toUInt32) (n := bits - 2) (by omega)
  have hbits : bits + 6 - 8 = bits - 2 := by omega
  rw [decodeLoop, if_neg (by simp [not_ignored_digit hd]), if_neg (by omega), htable]
  simp only [hbits, Int.toNat_natCast]
  rw [if_pos (by omega)]
  refine congrArg (fun b => Except.map (fun out => b :: out) _) (UInt8.toNat_inj.mp ?_)
  rw [hoctet]
  rfl

theorem decodeLoop_first (buf : UInt32) (n : Nat) {u v : Nat} (hu : u < 64) (hv : v < 64) (s : Bytes) :
    ∃ buf', buf'.toNat % 64 = v ∧ decodeLoop buf 0 n (digit u :: digit v :: s) =
      (decodeLoop buf' 4 (n + 2) s).map (Base64.first u v :: ·) := by
  have hp := toNat_pushDigit buf hu
  rw [decodeLoop_hold buf n hu]
  generalize buf <<< 6 ||| u.toUInt32 = p at hp ⊢
  have hq := toNat_pushDigit p hv
  rw [decodeLoop_emit p (by omega) (by omega) _ hv]
  generalize p <<< 6 ||| v.toUInt32 = q at hq ⊢
  have hbyte : (q.toNat / 2 ^ (6 - 2)).toUInt8 = Base64.first u v := by
    apply UInt8.toNat_inj.mp
    rw [Base64.toNat_first hu hv]
    show q.toNat / 2 ^ 4 % 256 = _
    omega
  rw [hbyte]
  exact ⟨q, by omega, rfl⟩

theorem decodeLoop_second {buf : UInt32} {v : Nat} (hbuf : buf.toNat % 64 = v) (n : Nat) {w : Nat} (hw : w < 64)
    (s : Bytes) : ∃ buf', buf'.toNat % 64 = w ∧ decodeLoop buf 4 n (digit w :: s) =
      (decodeLoop buf' 2 (n + 1) s).map (Base64.second v w :: ·) := by
  have hr := toNat_pushDigit buf hw
  rw [decodeLoop_emit buf (by omega) (by omega) _ hw]
  generalize buf <<< 6 ||| w.toUInt32 = r at hr ⊢
  have hbyte : (r.toNat / 2 ^ (4 - 2)).toUInt8 = Base64.second v w := by
    apply UInt8.toNat_inj.mp
    rw [Base64.toNat_second hw]
    show r.toNat / 2 ^ 2 % 256 = _
    omega
  rw [hbyte]
  exact ⟨r, by omega, rfl⟩

theorem decodeLoop_third {buf : UInt32} {w : Nat} (hbuf : buf.toNat % 64 = w) (n : Nat) {x : Nat} (hx : x < 64)
    (s : Bytes) : ∃ buf', decodeLoop buf 2 n (digit x :: s) =
      (decodeLoop buf' 0 (n + 1) s).map (Base64.third w x :: ·) := by
  have ht := toNat_pushDigit buf hx
  rw [decodeLoop_emit buf (by omega) (by omega) _ hx]
  generalize buf <<< 6 ||| x.toUInt32 = t at ht ⊢
  have hbyte : (t.toNat / 2 ^ (2 - 2)).toUInt8 = Base64.third w x := by
    apply UInt8.toNat_inj.mp
    rw [Base64.toNat_third hx]
    show t.toNat / 2 ^ 0 % 256 = _
    omega
  rw [hbyte]
  exact ⟨t, rfl⟩

theorem decodeLoop_three (buf : UInt32) {n : Nat} (hn : n % 4 = 0) {u v w : Nat} (hu : u < 64) (hv : v < 64) (hw : w < 64)
    {bs : Bytes} : decodeLoop buf 0 n [digit u, digit v, digit w] = .ok bs ↔
      w % 4 = 0 ∧ bs = [Base64.first u v, Base64.second v w] := by
  obtain ⟨p, hp, hfirst⟩ := decodeLoop_first buf n hu hv [digit w]
  obtain ⟨q, hq, hsecond⟩ := decodeLoop_second hp (n + 2) hw []
  have hleft : q.toNat % 2 ^ 2 = 0 ↔ w % 4 = 0 := by omega
  have hlen : (n + 2 + 1) % 4 ≠ 1 := by omega
  simp only [hfirst, hsecond, map_eq_ok, decodeLoop_nil (show 2 < 8 by omega), hleft]
  constructor
  · rintro ⟨_, ⟨_, ⟨-, hzero, rfl⟩, rfl⟩, rfl⟩
    exact ⟨hzero, rfl⟩
  · rintro ⟨hzero, rfl⟩
    exact ⟨_, ⟨_, ⟨hlen, hzero, rfl⟩, rfl⟩, rfl⟩

theorem decodeLoop_two (buf : UInt32) {n : Nat} (hn : n % 4 = 0) {u v : Nat} (hu : u < 64) (hv : v < 64) {bs : Bytes} :
    decodeLoop buf 0 n [digit u, digit v] = .ok bs ↔ v % 16 = 0 ∧ bs = [Base64.first u v] := by
  obtain ⟨p, hp, hfirst⟩ := decodeLoop_first buf n hu hv []
  have hleft : p.toNat % 2 ^ 4 = 0 ↔ v % 16 = 0 := by omega
  have hlen : (n + 2) % 4 ≠ 1 := by omega
  simp only [hfirst, map_eq_ok, decodeLoop_nil (show 4 < 8 by omega), hleft]
  constructor
  · rintro ⟨_, ⟨-, hzero, rfl⟩, rfl⟩
    exact ⟨hzero, rfl⟩
  · rintro ⟨hzero, rfl⟩
    exact ⟨_, ⟨hlen, hzero, rfl⟩, rfl⟩

theorem decodeLoop_digits {ds : List Nat} (hds : ∀ d ∈ ds, d < 64) (buf : UInt32) {n : Nat} (hn : n % 4 = 0) {bs : Bytes} :
    decodeLoop buf 0 n (ds.map digit) = .ok bs ↔ Base64.octets ds = some bs := by
  induction ds using Base64.octets.induct generalizing buf n bs with
  | case1 u v w x ds ih =>
    simp only [List.forall_mem_cons] at hds
    obtain ⟨hu, hv, hw, hx, hds⟩ := hds
    obtain ⟨p, hp, hfirst⟩ := decodeLoop_first buf n hu hv (digit w :: digit x :: ds.map digit)
    obtain ⟨q, hq, hsecond⟩ := decodeLoop_second hp (n + 2) hw (digit x :: ds.map digit)
    obtain ⟨r, hthird⟩ := decodeLoop_third hq (n + 2 + 1) hx (ds.map digit)
    have hrest {t : Bytes} : decodeLoop r 0 (n + 2 + 1 + 1) (ds.map digit) = .ok t ↔ Base64.octets ds = some t :=
      ih hds r (by omega)
    simp only [List.map_cons, hfirst, hsecond, hthird, map_eq_ok, hrest, Base64.octets, Option.map_eq_some_iff]
    constructor
    · rintro ⟨_, ⟨_, ⟨t, ht, rfl⟩, rfl⟩, rfl⟩
      exact ⟨t, ht, rfl⟩
    · rintro ⟨t, ht, rfl⟩
      exact ⟨_, ⟨_, ⟨t, ht, rfl⟩, rfl⟩, rfl⟩
  | case2 u v w hzero =>
    simp only [List.forall_mem_cons] at hds
    obtain ⟨hu, hv, hw, -⟩ := hds
    rw [List.map_cons, List.map_cons, List.map_singleton, decodeLoop_three buf hn hu hv hw, Base64.octets, if_pos hzero,
      Option.some.injEq, eq_comm (a := bs)]
    exact and_iff_right hzero
  | case3 u v w hzero =>
    simp only [List.forall_mem_cons] at hds
    obtain ⟨hu, hv, hw, -⟩ := hds
    rw [List.map_cons, List.map_cons, List.map_singleton, decodeLoop_three buf hn hu hv hw, Base64.octets, if_neg hzero]
    exact iff_of_false (fun h => hzero h.1) (by simp)
  | case4 u v hzero =>
    simp only [List.forall_mem_cons] at hds
    obtain ⟨hu, hv, -⟩ := hds
    rw [List.map_cons, List.map_singleton, decodeLoop_two buf hn hu hv, Base64.octets, if_pos hzero, Option.some.injEq,
      eq_comm (a := bs)]
    exact and_iff_right hzero
  | case5 u v hzero =>
    simp only [List.forall_mem_cons] at hds
    obtain ⟨hu, hv, -⟩ := hds
    rw [List.map_cons, List.map_singleton, decodeLoop_two buf hn hu hv, Base64.octets, if_neg hzero]
    exact iff_of_false (fun h => hzero h.1) (by simp)
  | case6 u =>
    have hu : u < 64 := hds u (by simp)
    simp only [List.map_cons, List.map_nil, decodeLoop_hold buf n hu, decodeLoop_nil (show 6 < 8 by omega), Base64.octets]
    exact iff_of_false (fun h => h.1 (by omega)) (by simp)
  | case7 =>
    simp only [List.map_nil, decodeLoop_nil (show 0 < 8 by omega), Base64.octets, Option.some.injEq]
    constructor
    · rintro ⟨-, -, rfl⟩
      rfl
    · rintro rfl
      exact ⟨by omega, Nat.mod_one _, rfl⟩

/-! ## Canonicity -/

/-- The characters that the decoder reads. -/
def significant (t : Bytes) : Bytes := t.filter (! ignored ·)

theorem decodeLoop_significant (buf : UInt32) (bits n : Nat) (t : Bytes) :
    decodeLoop buf bits n t = decodeLoop buf bits n (significant t) := by
  induction t generalizing buf bits n with
  | nil => rfl
  | cons c t ih =>
    by_cases hc : ignored c
    · rw [decodeLoop, if_pos hc, ih, significant, significant, List.filter_cons_of_neg (by simp [hc])]
    · rw [significant, List.filter_cons_of_pos (by simp [hc]), ← significant]
      unfold decodeLoop
      simp only [ih]

theorem digits_of_decodeLoop {buf : UInt32} {bits n : Nat} {t bs : Bytes} (h : decodeLoop buf bits n t = .ok bs)
    (hread : ∀ c ∈ t, ignored c = false) : ∃ ds : List Nat, (∀ d ∈ ds, d < 64) ∧ t = ds.map digit := by
  induction t generalizing buf bits n bs with
  | nil => exact ⟨[], by simp, rfl⟩
  | cons c t ih =>
    obtain ⟨hc, hread⟩ := List.forall_mem_cons.mp hread
    rw [decodeLoop, if_neg (by simp [hc])] at h
    by_cases htable : table c < 0
    · rw [if_pos htable] at h
      cases h
    · rw [if_neg htable] at h
      obtain ⟨hlt, hdigit⟩ := digit_table (c := c) (by omega)
      have htail : ∃ buf bits n bs, decodeLoop buf bits n t = .ok bs := by
        simp only at h
        split at h
        · obtain ⟨bs', hrest, -⟩ := map_eq_ok.mp h
          exact ⟨_, _, _, _, hrest⟩
        · exact ⟨_, _, _, _, h⟩
      obtain ⟨_, _, _, _, hrest⟩ := htail
      obtain ⟨ds, hds, heq⟩ := ih hrest hread
      refine ⟨(table c).toNat :: ds, List.forall_mem_cons.mpr ⟨hlt, hds⟩, ?_⟩
      rw [List.map_cons, hdigit, ← heq]

/-- The decoder accepts the encoding of what it returns, with padding and line breaks anywhere, and nothing else. -/
theorem urlDecode_ok_iff {t bs : Bytes} : urlDecode t = .ok bs ↔ significant t = urlEncode bs := by
  have hread : ∀ c ∈ significant t, ignored c = false := by
    intro c hc
    simpa using List.of_mem_filter hc
  rw [urlDecode, decodeLoop_significant, urlEncode_eq]
  constructor
  · intro h
    obtain ⟨ds, hds, heq⟩ := digits_of_decodeLoop h hread
    rw [heq, decodeLoop_digits hds 0 rfl] at h
    rw [heq, Base64.sextets_of_octets hds h]
  · intro h
    rw [h, decodeLoop_digits (Base64.sextets_lt bs) 0 rfl, Base64.octets_sextets]

theorem significant_eq_self {t : Bytes} : significant t = t ↔ ∀ c ∈ t, ignored c = false := by
  rw [significant, List.filter_eq_self]
  simp

theorem significant_urlEncode (s : Bytes) : significant (urlEncode s) = urlEncode s := by
  rw [significant_eq_self, urlEncode_eq]
  intro c hc
  obtain ⟨d, hd, rfl⟩ := List.mem_map.mp hc
  exact not_ignored_digit (Base64.sextets_lt s d hd)

/-- Whatever is left in the high bits of the two words, the text comes back. -/
theorem urlDecode_urlEncode (s : Bytes) : urlDecode (urlEncode s) = .ok s :=
  urlDecode_ok_iff.mpr (significant_urlEncode s)

/-- An accepted text is the encoding of what it says exactly when it has neither padding nor line breaks, and it says the
same as another text exactly when they agree without these. -/
theorem urlDecode_canonical {t bs : Bytes} (h : urlDecode t = .ok bs) :
    (urlEncode bs = t ↔ ∀ c ∈ t, ignored c = false) ∧ ∀ t', urlDecode t' = .ok bs ↔ significant t' = significant t := by
  rw [urlDecode_ok_iff] at h
  constructor
  · rw [← h]
    exact significant_eq_self
  · intro t'
    rw [urlDecode_ok_iff, h]

theorem urlDecode_canonical_sample :
    urlEncode (ascii "A") = ascii "QQ" ∧ ∀ t', urlDecode t' = .ok (ascii "A") ↔ significant t' = ascii "QQ" := by
  have hok : urlDecode (ascii "QQ") = .ok (ascii "A") := rfl
  obtain ⟨hsame, hother⟩ := urlDecode_canonical hok
  exact ⟨hsame.mpr (by decide), hother⟩

/-- Padding is skipped, so there is a second text for the same byte. -/
theorem urlDecode_padded :
    ¬ ((∀ t bs, urlDecode t = .ok bs → t = urlEncode bs) ∨
      ∀ t t' bs, urlDecode t = .ok bs → urlDecode t' = .ok bs → t = t') := by
  have hpadded : urlDecode (ascii "QQ==") = .ok (ascii "A") := rfl
  have hplain : urlDecode (ascii "QQ") = .ok (ascii "A") := rfl
  rintro (hcanonical | hinjective)
  · exact absurd (hcanonical _ _ hpadded) (by decide)
  · exact absurd (hinjective _ _ _ hpadded hplain) (by decide)

end LlmGuard.Base64
