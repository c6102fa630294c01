import LlmGuard.Code.Trace
import LlmGuard.Lib.Decimal

/-!
# The `traceparent` header

`parse_traceparent` reads what `format_traceparent` writes and nothing else, up to the case of the letters.
-/

namespace LlmGuard.Trace

/-! ## Hex digits -/

set_option maxRecDepth 8192 in
theorem hexLower_facts : ∀ b : Byte, isHexLower b = true →
    asciiToLower b = b ∧ b ≠ ch '-' ∧ 0x20 ≤ b ∧ b ≠ ch '"' ∧ b ≠ ch '\\' ∧
      ∃ n < 16, nibble b = some n ∧ Json.hexDigit n = b := by
  decide

theorem isHexString_iff {s : Bytes} {n : Nat} : isHexString s n = true ↔ s.length = n ∧ ∀ b ∈ s, isHexLower b = true := by
  simp [isHexString, List.all_eq_true]

theorem dash_not_mem {s : Bytes} {n : Nat} (h : isHexString s n = true) : ch '-' ∉ s := fun hmem =>
  (hexLower_facts _ ((isHexString_iff.mp h).2 _ hmem)).2.1 rfl

theorem map_lower {s : Bytes} {n : Nat} (h : isHexString s n = true) : s.map asciiToLower = s :=
  (List.map_congr_left (g := id) fun b hb => (hexLower_facts b ((isHexString_iff.mp h).2 b hb)).1).trans (List.map_id s)

/-! ## The header -/

/-- The contexts that the header can carry. -/
structure TraceContext.Valid (ctx : TraceContext) : Prop where
  traceId : isHexString ctx.traceId 32 = true
  parentId : isHexString ctx.parentId 16 = true
  flags : isHexString ctx.flags 2 = true
  trace : isAllZeroHex ctx.traceId = false
  parent : isAllZeroHex ctx.parentId = false

theorem formatTraceparent_eq (ctx : TraceContext) :
    formatTraceparent ctx = [ch '-'].intercalate [ascii "00", ctx.traceId, ctx.parentId, ctx.flags] := by
  simp [formatTraceparent, List.intercalate, ascii]

theorem splitOn_format {ctx : TraceContext} (h : ctx.Valid) :
    (formatTraceparent ctx).splitOn (ch '-') = [ascii "00", ctx.traceId, ctx.parentId, ctx.flags] := by
  rw [formatTraceparent_eq]
  refine List.splitOn_intercalate (ch '-') ?_ (by simp)
  simp only [List.mem_cons, List.not_mem_nil, or_false, forall_eq_or_imp, forall_eq]
  exact ⟨by decide, dash_not_mem h.traceId, dash_not_mem h.parentId, dash_not_mem h.flags⟩

theorem map_lower_format {ctx : TraceContext} (h : ctx.Valid) :
    (formatTraceparent ctx).map asciiToLower = formatTraceparent ctx := by
  unfold formatTraceparent
  simp only [List.map_append, map_lower h.traceId, map_lower h.parentId, map_lower h.flags]
  rfl

theorem parseTraceparent_lower (header : Bytes) (ctx : TraceContext) :
    parseTraceparent header = some ctx ↔ header.map asciiToLower = formatTraceparent ctx ∧ ctx.Valid := by
  unfold parseTraceparent
  constructor
  · intro h
    split at h
    · rename_i version traceId parentId flags hsplit
      split at h
      · cases h
      · rename_i hversion
        split at h
        · cases h
        · rename_i htrace
          split at h
          · cases h
          · rename_i hparent
            split at h
            · cases h
            · rename_i hflags
              split at h
              · cases h
              · rename_i hzero
                obtain rfl := Option.some.inj h
                simp only [Bool.not_eq_true', Bool.not_eq_false, Bool.or_eq_true, not_or, Bool.not_eq_true] at *
                refine ⟨?_, htrace, hparent, hflags, hzero.1, hzero.2⟩
                have hjoin : header.map asciiToLower =
                    [ch '-'].intercalate ((header.map asciiToLower).splitOn (ch '-')) :=
                  (List.intercalate_splitOn (ch '-')).symm
                rw [hjoin, hsplit, formatTraceparent_eq, not_not.mp hversion]
    · cases h
  · rintro ⟨hlower, hvalid⟩
    rw [hlower, splitOn_format hvalid]
    simp [hvalid.traceId, hvalid.parentId, hvalid.flags, hvalid.trace, hvalid.parent]

/-- The reader accepts exactly the headers of the valid contexts, in any case, and gives back the context. -/
theorem parseTraceparent_iff (header : Bytes) (ctx : TraceContext) :
    (parseTraceparent header = some ctx ↔ header.map asciiToLower = formatTraceparent ctx ∧ ctx.Valid) ∧
      (parseTraceparent (formatTraceparent ctx) = some ctx ↔ ctx.Valid) := by
  refine ⟨parseTraceparent_lower header ctx, ?_⟩
  rw [parseTraceparent_lower]
  exact ⟨fun h => h.2, fun h => ⟨map_lower_format h, h⟩⟩

theorem parse_format {ctx : TraceContext} (h : ctx.Valid) : parseTraceparent (formatTraceparent ctx) = some ctx :=
  (parseTraceparent_lower _ _).mpr ⟨map_lower_format h, h⟩

theorem valid_of_parse {header : Bytes} {ctx : TraceContext} (h : parseTraceparent header = some ctx) : ctx.Valid :=
  ((parseTraceparent_lower header ctx).mp h).2

theorem traceIdFlag_format {ctx : TraceContext} (h : ctx.Valid) : traceIdFlag (formatTraceparent ctx) = ctx.traceId := by
  have hform : formatTraceparent ctx =
      ch '0' :: ch '0' :: ch '-' :: (ctx.traceId ++ ch '-' :: (ctx.parentId ++ ch '-' :: ctx.flags)) := by
    simp [formatTraceparent, ascii]
  have hpos : ∀ b ∈ ctx.traceId, decide (b ≠ ch '-') = true := fun b hb =>
    decide_eq_true fun heq => dash_not_mem h.traceId (heq ▸ hb)
  unfold traceIdFlag
  rw [hform, List.dropWhile_cons_of_pos (by decide), List.dropWhile_cons_of_pos (by decide),
    List.dropWhile_cons_of_neg (by decide)]
  simp only [List.contains_iff_mem, List.mem_append, List.mem_cons, true_or, or_true, if_true]
  rw [List.takeWhile_append_of_pos hpos, List.takeWhile_cons_of_neg (by decide), List.append_nil]

/-! ## Bytes and their digits -/

theorem hexDigit_lower : ∀ n < 16, isHexLower (Json.hexDigit n) = true ∧ (Json.hexDigit n = ch '0' → n = 0) := by decide

theorem toHex_spec (bytes : Bytes) : isHexString (toHex bytes) (2 * bytes.length) = true := by
  rw [isHexString_iff]
  induction bytes with
  | nil => exact ⟨rfl, List.forall_mem_nil _⟩
  | cons b bytes ih =>
    have hb := b.toNat_lt
    have hcons : toHex (b :: bytes) = Json.hexDigit (b.toNat / 16) :: Json.hexDigit (b.toNat % 16) :: toHex bytes := rfl
    rw [hcons, List.forall_mem_cons, List.forall_mem_cons]
    refine ⟨?_, (hexDigit_lower _ (by omega)).1, (hexDigit_lower _ (by omega)).1, ih.2⟩
    simp only [List.length_cons, ih.1]
    omega

theorem toHex_zero {bytes : Bytes} (h : ∀ c ∈ toHex bytes, c = ch '0') : ∀ b ∈ bytes, b = 0 := by
  intro b hb
  have hlt := b.toNat_lt
  have hdigits : ∀ c ∈ [Json.hexDigit (b.toNat / 16), Json.hexDigit (b.toNat % 16)], c = ch '0' := fun c hc =>
    h c (List.mem_flatMap.mpr ⟨b, hb, hc⟩)
  have hhigh := (hexDigit_lower (b.toNat / 16) (by omega)).2 (hdigits _ (by simp))
  have hlow := (hexDigit_lower (b.toNat % 16) (by omega)).2 (hdigits _ (by simp))
  have hzero : b.toNat = 0 := by omega
  exact UInt8.toNat_inj.mp hzero

theorem isAllZeroHex_toHex {bytes : Bytes} (h : ∃ b ∈ bytes, b ≠ 0) : isAllZeroHex (toHex bytes) = false := by
  obtain ⟨b, hb, hne⟩ := h
  by_contra hzero
  rw [Bool.not_eq_false] at hzero
  have hall : ∀ c ∈ toHex bytes, c = ch '0' := by
    rw [isAllZeroHex, Bool.and_eq_true, List.all_eq_true] at hzero
    exact fun c hc => of_decide_eq_true (hzero.1 c hc)
  exact hne (toHex_zero hall b hb)

set_option maxRecDepth 8192 in
theorem byteOf_hex : ∀ m < 16, ∀ n < 16, (Json.byteOf (m * 16 + n)).toNat / 16 = m ∧
    (Json.byteOf (m * 16 + n)).toNat % 16 = n := by
  decide

theorem hexPairs_toHex {n : Nat} {s : Bytes} (h : isHexString s (2 * n) = true) :
    ∃ bytes, hexPairs s = some bytes ∧ toHex bytes = s ∧ bytes.length = n := by
  induction n generalizing s with
  | zero =>
    obtain rfl := List.length_eq_zero_iff.mp (isHexString_iff.mp h).1
    exact ⟨[], rfl, rfl, rfl⟩
  | succ n ih =>
    obtain ⟨hlen, hall⟩ := isHexString_iff.mp h
    match s, hlen, hall with
    | hi :: lo :: s, hlen, hall =>
      simp only [List.forall_mem_cons] at hall
      obtain ⟨hhi, hlo, hrest⟩ := hall
      simp only [List.length_cons] at hlen
      obtain ⟨bytes, hbytes, rfl, hcount⟩ := ih (isHexString_iff.mpr ⟨by omega, hrest⟩)
      obtain ⟨-, -, -, -, -, m, hm, hmval, rfl⟩ := hexLower_facts hi hhi
      obtain ⟨-, -, -, -, -, k, hk, hkval, rfl⟩ := hexLower_facts lo hlo
      obtain ⟨hdiv, hmod⟩ := byteOf_hex m hm k hk
      refine ⟨Json.byteOf (m * 16 + k) :: bytes, ?_, ?_, by simp [hcount]⟩
      · simp [hexPairs, hmval, hkval, hbytes]
      · simp [toHex, hdiv, hmod]

/-! ## Contexts with bytes behind them -/

/-- The ids of a span that is valid: of the right lengths, and not zero. -/
structure SpanContext.Valid (s : SpanContext) : Prop where
  traceId : s.traceId.length = 16
  spanId : s.spanId.length = 8
  trace : ∃ b ∈ s.traceId, b ≠ 0
  span : ∃ b ∈ s.spanId, b ≠ 0

theorem valid_of_bytes {traceId spanId flags : Bytes} (h : SpanContext.Valid ⟨traceId, spanId⟩)
    (hflags : isHexString flags 2 = true) : TraceContext.Valid ⟨toHex traceId, toHex spanId, flags⟩ where
  traceId := by
    have := toHex_spec traceId
    rwa [h.traceId] at this
  parentId := by
    have := toHex_spec spanId
    rwa [h.spanId] at this
  flags := hflags
  trace := isAllZeroHex_toHex h.trace
  parent := isAllZeroHex_toHex h.span

/-- The remote context holds the ids of the header, as bytes. -/
theorem toRemoteSpanContext_spec {ctx : TraceContext} (h : ctx.Valid) :
    ∃ s, toRemoteSpanContext ctx = some s ∧ toHex s.traceId = ctx.traceId ∧ toHex s.spanId = ctx.parentId := by
  obtain ⟨tid, htid, htrace, -⟩ := hexPairs_toHex (n := 16) h.traceId
  obtain ⟨sid, hsid, hspan, -⟩ := hexPairs_toHex (n := 8) h.parentId
  obtain ⟨f, hf, -, -⟩ := hexPairs_toHex (n := 1) h.flags
  refine ⟨⟨tid, sid⟩, ?_, htrace, hspan⟩
  simp [toRemoteSpanContext, hexToBytes, (isHexString_iff.mp h.traceId).1, (isHexString_iff.mp h.parentId).1,
    (isHexString_iff.mp h.flags).1, htid, hsid, hf]

/-! ## Fresh contexts -/

theorem mod_pow_zero {n : Nat} (k : Nat) (h : ∀ j < k, n / 256 ^ j % 256 = 0) : n % 256 ^ k = 0 := by
  induction k with
  | zero => exact Nat.mod_one n
  | succ k ih => rw [Nat.mod_pow_succ, ih fun j hj => h j (Nat.lt_succ_of_lt hj), h k (Nat.lt_succ_self k), Nat.mul_zero]

theorem wordBytes_ne_zero {v : UInt64} (h : v ≠ 0) : ∃ b ∈ wordBytes v, b ≠ 0 := by
  by_contra hno
  push Not at hno
  have hbyte : ∀ j < 8, v.toNat / 256 ^ j % 256 = 0 := by
    intro j hj
    have hzero := hno _ (List.mem_map.mpr ⟨j, List.mem_range.mpr hj, rfl⟩)
    have hnat : (v.toNat / 256 ^ j).toUInt8.toNat = (0 : UInt8).toNat := congrArg UInt8.toNat hzero
    rwa [Nat.toUInt8_eq, UInt8.toNat_ofNat'] at hnat
  have hmod := mod_pow_zero 8 hbyte
  rw [Nat.mod_eq_of_lt (lt_of_lt_of_eq v.toNat_lt (by decide))] at hmod
  exact h (UInt64.toNat_inj.mp hmod)

theorem wordBytes_length (v : UInt64) : (wordBytes v).length = 8 := by simp [wordBytes]

theorem generateContext_valid {rng : Rng} (hrng : ∀ n, rng n ≠ 0) (drawn : Nat) :
    (generateContext rng drawn).1.Valid := by
  have htrace : ((List.range 2).flatMap fun i => wordBytes (rng (drawn + i))).take 16 =
      wordBytes (rng drawn) ++ wordBytes (rng (drawn + 1)) := by
    rw [List.take_of_length_le (by simp [wordBytes_length])]
    simp [List.range_succ]
  have hspan : ((List.range 1).flatMap fun i => wordBytes (rng (drawn + 2 + i))).take 8 =
      wordBytes (rng (drawn + 2)) := by
    rw [List.take_of_length_le (by simp [wordBytes_length])]
    simp
  have hvalid : SpanContext.Valid ⟨wordBytes (rng drawn) ++ wordBytes (rng (drawn + 1)), wordBytes (rng (drawn + 2))⟩ := by
    refine ⟨by simp [wordBytes_length], by simp [wordBytes_length], ?_, wordBytes_ne_zero (hrng _)⟩
    obtain ⟨b, hb, hne⟩ := wordBytes_ne_zero (hrng drawn)
    exact ⟨b, List.mem_append_left _ hb, hne⟩
  have hctx : (generateContext rng drawn).1 =
      ⟨toHex (wordBytes (rng drawn) ++ wordBytes (rng (drawn + 1))), toHex (wordBytes (rng (drawn + 2))), ascii "01"⟩ := by
    rw [← htrace, ← hspan]
    rfl
  rw [hctx]
  exact valid_of_bytes hvalid (by decide)

end LlmGuard.Trace
