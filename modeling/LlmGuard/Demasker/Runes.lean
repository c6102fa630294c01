import LlmGuard.Demasker.LookAlikes
import LlmGuard.Json.Strings
import LlmGuard.Lib.Utf8Text
import LlmGuard.Scanner.Decode

/-!
# A rune is never split across emissions

The exact pass replaces text between two brackets, so it leaves the places between the runes where they are. The
hold-back is longer than a rune, so the rune at the cut is in the buffer as a whole, and the cut moves behind it or
before it.
-/

namespace LlmGuard

open Utf8

/-! ## Where a buffer is cut -/

theorem isRuneStart_iff (b : Byte) : isRuneStart b = true ↔ ¬ IsTail b := by
  rw [isRuneStart, decide_eq_true_iff, ne_eq, and_C0]

theorem runeWant_encode (c : Char) : ∃ b w, encode c = b :: w ∧ runeWant b = (encode c).length := by
  unfold runeWant
  simp only [and_E0, and_F0, and_F8, UInt8.lt_iff_toNat_lt, UInt8.toNat_ofNat]
  rcases encode_cases c with ⟨hlow, a, h, h₀⟩ | ⟨hlo, hhi, a, b, h, h₀, -⟩ | ⟨hlo, hhi, a, b, d, h, h₀, -⟩ |
    ⟨hlo, hhi, a, b, d, e, h, h₀, -⟩
  · refine ⟨a, [], h, ?_⟩
    rw [if_pos (by omega), h]
    rfl
  · refine ⟨a, [b], h, ?_⟩
    rw [if_neg (by omega), if_pos (by omega), h]
    rfl
  · refine ⟨a, [b, d], h, ?_⟩
    rw [if_neg (by omega), if_neg (by omega), if_pos (by omega), h]
    rfl
  · refine ⟨a, [b, d, e], h, ?_⟩
    rw [if_neg (by omega), if_neg (by omega), if_neg (by omega), if_pos (by omega), h]
    rfl

theorem runeStartBefore_spec {s : Bytes} {i j : Nat} (h : runeStartBefore s i = some j) :
    j ≤ i ∧ isRuneStart (s.getD j 0) = true ∧ ∀ k, j < k → k ≤ i → isRuneStart (s.getD k 0) = false := by
  induction i with
  | zero =>
    unfold runeStartBefore at h
    split at h
    · rename_i hstart
      obtain rfl := Option.some.inj h
      exact ⟨Nat.le_refl 0, hstart, by omega⟩
    · cases h
  | succ i ih =>
    unfold runeStartBefore at h
    split at h
    · rename_i hstart
      obtain rfl := Option.some.inj h
      exact ⟨Nat.le_refl _, hstart, by omega⟩
    · rename_i htail
      obtain ⟨hle, hstart, hbetween⟩ := ih h
      refine ⟨by omega, hstart, fun k hjk hki => ?_⟩
      rcases Nat.lt_or_eq_of_le hki with hki | rfl
      · exact hbetween k hjk (by omega)
      · simpa using htail

section Cut

variable {s rest : Bytes} {i stop : Nat}

theorem runeLenAt_char {c : Char} {t : Bytes} (h : s.drop i = encode c ++ t) : runeLenAt s i = (encode c).length := by
  obtain ⟨b, w, hc, hwant⟩ := runeWant_encode c
  have htails : ∀ d ∈ w, IsTail d := by
    obtain ⟨b', w', hc', -, htails⟩ := encode_tails c
    obtain ⟨-, rfl⟩ := List.cons.inj (hc.symm.trans hc')
    exact htails
  have hlen : s.length - i = (encode c).length + t.length := by
    rw [← List.length_append, ← h, List.length_drop]
  have hpos := encode_pos c
  have hget : s[i]? = some b := by
    have := congrArg (·[0]?) h
    simpa [hc] using this
  have hbehind : (s.drop (i + 1)).take ((encode c).length - 1) = w := by
    rw [← List.tail_drop, h, hc, List.cons_append, List.tail_cons, List.length_cons, Nat.add_sub_cancel, List.take_left]
  unfold runeLenAt
  rw [hget]
  simp only [hwant, hbehind]
  rw [if_neg (by omega), if_pos]
  rw [List.all_eq_true]
  intro d hd
  have := mt (isRuneStart_iff d).mp (not_not.mpr (htails d hd))
  simpa using this

theorem exists_whole_char (h : Text (s ++ rest)) (hi : Boundary (s ++ rest) i) (hroom : i + 4 ≤ s.length) :
    ∃ c t, s.drop i = encode c ++ t ∧ Boundary (s ++ rest) (i + (encode c).length) := by
  obtain ⟨-, hdrop⟩ := h.split hi
  obtain ⟨c, t, heq, -⟩ := hdrop.exists_char (by rw [Ne, List.drop_eq_nil_iff, List.length_append]; omega)
  have hend : Boundary (s ++ rest) (i + (encode c).length) := by
    apply hi.add
    rw [heq]
    exact .char c (.zero t)
  rw [List.drop_append_of_le_length (by omega)] at heq
  have hwhole : encode c <+: s.drop i := by
    have ht : encode c <+: s.drop i ++ rest := ⟨t, heq.symm⟩
    apply List.prefix_of_prefix_length_le ht (List.prefix_append _ _)
    have := encode_length_le c
    rw [List.length_drop]
    omega
  exact ⟨c, _, List.prefix_append_drop hwhole, hend⟩

/-- The cut lies between two runes, when a rune more than the cut is in the buffer. -/
theorem utf8SafePrefixEnd_boundary (h : Text (s ++ rest)) (hroom : stop + 3 ≤ s.length) :
    Boundary (s ++ rest) (utf8SafePrefixEnd s stop) := by
  unfold utf8SafePrefixEnd
  split
  · exact .zero _
  rename_i hstop
  rw [if_neg (by omega)]
  split
  · exact .zero _
  rename_i i hi
  obtain ⟨hle, hstart, hbetween⟩ := runeStartBefore_spec hi
  have hget : ∀ k, k < s.length → (s ++ rest)[k]? = some (s.getD k 0) := by
    intro k hk
    rw [List.getElem?_append_left hk, List.getD_eq_getElem?_getD, List.getElem?_eq_getElem hk]
    rfl
  have hat : Boundary (s ++ rest) i :=
    h.boundary_of_not_tail (hget i (by omega)) ((isRuneStart_iff _).mp hstart)
  split
  swap
  · exact hat
  rename_i hfits
  obtain ⟨c, t, hwhole, hend⟩ := exists_whole_char h hat (by omega)
  rw [runeLenAt_char hwhole] at hfits
  have hpos := encode_pos c
  -- only tails stand between `i` and the cut, and the rune ends before none
  obtain rfl : i + (encode c).length = stop := by
    by_contra hne
    have htail := hbetween (i + (encode c).length) (by omega) (by omega)
    have hnot := h.not_tail_of_boundary hend (hget _ (by omega))
    rw [← isRuneStart_iff, htail] at hnot
    cases hnot
  exact hend

end Cut

/-! ## What is restored -/

theorem char_of_lineSeparator {c : Byte} {s out : Bytes} (h : Json.lineSeparator (c :: s) = some out) :
    c = 0xE2 ∧ (∃ d : Char, c :: s = encode d ++ s.drop 2) ∧ ∀ b ∈ out, b.toNat < 0x80 := by
  rcases Json.lineSeparator_eq_some h with ⟨t, hs, rfl⟩ | ⟨t, hs, rfl⟩
  · obtain ⟨rfl, rfl⟩ := List.cons.inj hs
    obtain ⟨d, hd, -⟩ := exists_three 0xE2 0x80 0xA8 0x2028 (by decide) (by decide) (by decide) (by decide) (by decide)
    exact ⟨rfl, ⟨d, by rw [hd]; rfl⟩, by decide⟩
  · obtain ⟨rfl, rfl⟩ := List.cons.inj hs
    obtain ⟨d, hd, -⟩ := exists_three 0xE2 0x80 0xA9 0x2029 (by decide) (by decide) (by decide) (by decide) (by decide)
    exact ⟨rfl, ⟨d, by rw [hd]; rfl⟩, by decide⟩

theorem text_encodeFront {u s : Bytes} {c : Byte} (h : Text (u ++ c :: s)) :
    Text (u ++ (Json.encodeFront c s).1 ++ s.drop ((Json.encodeFront c s).2 - 1)) := by
  rcases Json.encodeFront_cases c s with ⟨hc, out, hfront, -, hout⟩ | ⟨out, hsep, hfront⟩ | ⟨hfront, -⟩
  · rw [hfront]
    exact ((h.before_ascii hc).append (.of_ascii hout)).append (h.behind_ascii hc)
  · obtain ⟨rfl, ⟨d, hd⟩, hout⟩ := char_of_lineSeparator hsep
    -- no tail stands at the front of the separator
    have hbound : Boundary (u ++ 0xE2 :: s) u.length :=
      h.boundary_of_not_tail (b := 0xE2) (by simp) (by decide)
    obtain ⟨hu, hrest⟩ := h.split hbound
    rw [List.take_left] at hu
    rw [List.drop_left, hd] at hrest
    rw [hfront]
    exact (hu.append (.of_ascii hout)).append hrest.of_char
  · rw [hfront]
    simpa using h

theorem text_encodeBody {s : Bytes} (hs : Text s) : Text (Json.encodeBody 0 s) := by
  have hrun : ∀ (s u : Bytes) skip, Text (u ++ s.drop skip) → Text (u ++ Json.encodeBody skip s) := by
    intro s
    induction s with
    | nil =>
      intro u skip h
      cases skip <;> simpa [Json.encodeBody] using h
    | cons c s ih =>
      intro u skip h
      cases skip with
      | succ skip => exact ih u skip h
      | zero =>
        unfold Json.encodeBody
        rw [← List.append_assoc]
        exact ih _ _ (text_encodeFront h)
  exact hrun s [] 0 hs

/-! ## The exact pass -/

theorem probeLengths_found {cfg : DemaskConfig} {s : Bytes} {lens : List Nat} {best : Option (Nat × Nat)} {i len : Nat}
    (h : probeLengths cfg s lens best = some (i, len)) :
    best = some (i, len) ∨ len ≤ s.length ∧ cfg.indexByPlaceholder (s.take len) = some i := by
  induction lens generalizing best with
  | nil => exact .inl h
  | cons l lens ih =>
    unfold probeLengths at h
    split at h
    · exact .inl h
    · rename_i hle
      split at h
      · exact ih h
      · rename_i j hj
        have hnow : ∀ {k : Nat}, some (j, l) = some (k, len) →
            len ≤ s.length ∧ cfg.indexByPlaceholder (s.take len) = some k := by
          rintro k ⟨⟩
          exact ⟨by omega, hj⟩
        split at h
        · rcases ih h with h | h
          · exact .inr (hnow h)
          · exact .inr h
        · split at h
          · rcases ih h with h | h
            · exact .inr (hnow h)
            · exact .inr h
          · exact ih h

/-- Every placeholder of the table was rendered, and each original is a text. -/
structure Rendered (reps : List Replacement) : Prop where
  placeholder : ∀ r ∈ reps, ∃ type n, r.placeholder = renderPlaceholder type n
  original : ∀ r ∈ reps, Text r.original

theorem renderPlaceholder_brackets (type : Bytes) (n : Nat) :
    ∃ inner, renderPlaceholder type n = ch '<' :: (inner ++ [ch '>']) ∧ 2 ≤ inner.length := by
  have hne := List.length_pos_iff.mpr (decimal_ne_nil n)
  refine ⟨type ++ ascii "_" ++ decimal n, by simp [renderPlaceholder, ascii], ?_⟩
  rw [List.length_append, List.length_append, show (ascii "_").length = 1 from rfl]
  omega

theorem text_restored {o : Bytes} (ho : Text o) (jsonEscape : Bool) : Text (restored jsonEscape o) := by
  cases jsonEscape with
  | true => exact text_encodeBody ho
  | false => exact ho

theorem exactOriginal_eq_some {reps : List Replacement} {jsonEscape : Bool} {w o : Bytes}
    (h : exactOriginal reps jsonEscape w = some o) : ∃ r ∈ reps, r.placeholder = w ∧ restored jsonEscape r.original = o := by
  unfold exactOriginal at h
  split at h
  · cases h
  · obtain ⟨r, hr, ho⟩ := Option.map_eq_some_iff.mp h
    exact ⟨r, List.mem_of_find?_eq_some hr, by simpa using List.find?_some hr, ho⟩

theorem hit_spec {cfg : DemaskConfig} {reps : List Replacement} (htables : Tables reps cfg) (hreps : Rendered reps)
    (jsonEscape : Bool) {s : Bytes} {i len : Nat} (h : probeLengths cfg s cfg.placeholderLengths none = some (i, len)) :
    ∃ inner e, s = ch '<' :: (inner ++ ch '>' :: s.drop len) ∧ cfg.entries[i]? = some e ∧
      len = inner.length + 2 ∧ Text (if jsonEscape then e.jsonOriginal else e.original) := by
  rcases probeLengths_found h with h | ⟨hlen, hi⟩
  · cases h
  obtain ⟨e, he, -⟩ := htables.index _ _ hi
  have hlookup : exactOriginal reps jsonEscape (s.take len) =
      some (if jsonEscape then e.jsonOriginal else e.original) := by
    rw [← htables.lookup, DemaskConfig.lookup, hi]
    simp [he]
  obtain ⟨r, hr, hname, ho⟩ := exactOriginal_eq_some hlookup
  obtain ⟨type, n, hrender⟩ := hreps.placeholder r hr
  obtain ⟨inner, hinner, -⟩ := renderPlaceholder_brackets type n
  rw [hrender, hinner] at hname
  refine ⟨inner, e, ?_, he, ?_, ho ▸ text_restored (hreps.original r hr) jsonEscape⟩
  · have hsplit := (List.take_append_drop len s).symm
    rw [← hname] at hsplit
    simpa using hsplit
  · have := congrArg List.length hname
    rw [List.length_take, Nat.min_eq_left hlen] at this
    simpa using this.symm

/-- The exact pass keeps a text a text, also where the last rune ends in a later chunk. -/
theorem applyExact_text {cfg : DemaskConfig} {reps : List Replacement} (htables : Tables reps cfg)
    (hreps : Rendered reps) (jsonEscape : Bool) {s t : Bytes} (h : Text (s ++ t)) :
    Text (applyExact cfg jsonEscape s ++ t) := by
  have hrun : ∀ (s u : Bytes) skip, Text (u ++ (s.drop skip ++ t)) → Text (u ++ (exactLoop cfg jsonEscape skip s ++ t)) := by
    intro s
    induction s with
    | nil =>
      intro u skip h
      cases skip <;> simpa [exactLoop] using h
    | cons b s ih =>
      intro u skip h
      cases skip with
      | succ skip => exact ih u skip h
      | zero =>
        have hcopy : Text (u ++ (b :: exactLoop cfg jsonEscape 0 s ++ t)) := by
          have := ih (u ++ [b]) 0 (by simpa using h)
          simpa using this
        unfold exactLoop
        split
        · exact hcopy
        · split
          · exact hcopy
          · rename_i i len hprobe
            obtain ⟨inner, e, hs, he, rfl, ho⟩ := hit_spec htables hreps jsonEscape hprobe
            obtain ⟨rfl, -⟩ := List.cons.inj hs
            rw [List.drop_zero, hs, List.drop_succ_cons] at h
            have hu : Text u := h.before_ascii (by decide)
            have hrest : Text (s.drop (inner.length + 1) ++ t) := by
              have hclose : Text ((u ++ ch '<' :: inner) ++ ch '>' :: (s.drop (inner.length + 1) ++ t)) := by
                simpa using h
              exact hclose.behind_ascii (by decide)
            have hnext := ih _ _ ((hu.append ho).append hrest)
            simpa [he] using hnext
  unfold applyExact
  split
  · exact h
  · exact hrun s [] 0 h

/-! ## The placeholders of a request -/

def RenderedNames (st : MaskerState) : Prop := ∀ r ∈ st.replacements, ∃ type n, r.placeholder = renderPlaceholder type n

theorem RenderedNames.maskOriginal {st st' : MaskerState} {rule : Rule} {original p : Bytes} (hst : RenderedNames st)
    (h : st.maskOriginal rule original = .ok (p, st')) : RenderedNames st' := by
  obtain ⟨p', st'', hok, hserves⟩ := maskOriginal_spec st ⟨rule, original⟩
  obtain ⟨rfl, rfl⟩ := Prod.mk.inj (Except.ok.inj (h.symm.trans hok))
  cases hserves with
  | known => exact hst
  | minted n =>
    intro r hr
    rcases List.mem_append.mp hr with hr | hr
    · exact hst r hr
    · exact ⟨_, n, by rw [List.mem_singleton.mp hr]⟩

theorem RenderedNames.maskLoop {text out : Bytes} {ms : List ScanMatch} {pos : Nat} {st st' : MaskerState}
    {result : Bytes} (hst : RenderedNames st) (h : MaskerState.maskLoop text ms pos out st = .ok (result, st')) :
    RenderedNames st' := by
  induction ms generalizing pos out st with
  | nil =>
    obtain ⟨tail, -, htail⟩ := bind_eq_ok.mp h
    obtain ⟨-, rfl⟩ := Prod.mk.inj (Except.ok.inj htail)
    exact hst
  | cons m ms ih =>
    unfold MaskerState.maskLoop at h
    split at h
    · cases h
    · split at h
      · exact ih hst h
      · obtain ⟨original, -, h⟩ := bind_eq_ok.mp h
        split at h
        · exact ih hst h
        · obtain ⟨⟨p, st₁⟩, hmask, h⟩ := bind_eq_ok.mp h
          obtain ⟨gap, -, h⟩ := bind_eq_ok.mp h
          exact ih (hst.maskOriginal hmask) h

theorem RenderedNames.maskAll {st st' : MaskerState} {scanned : List (Bytes × List ScanMatch)} {outs : List Bytes}
    (hst : RenderedNames st) (h : st.maskAll scanned = .ok (outs, st')) : RenderedNames st' := by
  induction scanned generalizing st outs with
  | nil =>
    obtain ⟨-, rfl⟩ := Prod.mk.inj (Except.ok.inj h)
    exact hst
  | cons c scanned ih =>
    obtain ⟨⟨out, st₁⟩, htext, h⟩ := bind_eq_ok.mp h
    obtain ⟨⟨outs', st₂⟩, hrest, h⟩ := bind_eq_ok.mp h
    obtain ⟨-, rfl⟩ := Prod.mk.inj (Except.ok.inj h)
    refine ih ?_ hrest
    unfold MaskerState.maskText at htext
    split at htext
    · obtain ⟨-, rfl⟩ := Prod.mk.inj (Except.ok.inj htext)
      exact hst
    · exact hst.maskLoop htext

theorem rendered_of_masked {env : Env} {texts : List Bytes} {rules : List (Option CompiledRule)} {opts : MaskOptions}
    {result : MaskResult} (h : maskTexts env texts rules opts = .ok result)
    (horiginals : ∀ r ∈ result.state.replacements, Text r.original) : Rendered result.state.replacements := by
  obtain ⟨found, -, h⟩ := bind_eq_ok.mp h
  obtain ⟨⟨outs, st⟩, hall, h⟩ := bind_eq_ok.mp h
  obtain rfl := Except.ok.inj h
  have hinit : RenderedNames (MaskerState.init (reservedPlaceholders ((texts.zip found).map (·.1)))) :=
    fun r hr => nomatch hr
  exact ⟨hinit.maskAll hall, horiginals⟩

/-! ## One call -/

section Call

variable {cfg : DemaskConfig} {reps : List Replacement} {pending chunk rest : Bytes}

theorem maxPending_room (htables : Tables reps cfg) (hreps : Rendered reps) (hne : reps ≠ []) : 4 ≤ cfg.maxPending := by
  obtain ⟨r, more, rfl⟩ := List.exists_cons_of_ne_nil hne
  obtain ⟨type, n, hr⟩ := hreps.placeholder r List.mem_cons_self
  obtain ⟨inner, hinner, hlen⟩ := renderPlaceholder_brackets type n
  have hknown : (cfg.indexByPlaceholder r.placeholder).isSome := by
    have hne' : r.placeholder ≠ [] := by simp [hr, hinner]
    rw [← lookup_isSome cfg htables.toLookupIndex r.placeholder false, htables.lookup, exactOriginal, if_neg hne']
    simp
  have hle := htables.pending _ hknown
  rw [hr, hinner, List.length_cons, List.length_append, List.length_singleton] at hle
  omega

theorem safeEnd_boundary (hroom : 3 ≤ cfg.maxPending) {text : Bytes} (h : Text (text ++ rest)) :
    Boundary (text ++ rest) (cfg.safeEnd text) := by
  unfold DemaskConfig.safeEnd
  split
  · exact .zero _
  · exact utf8SafePrefixEnd_boundary h (by omega)

theorem demaskChunk_text (htables : Tables reps cfg) (hreps : Rendered reps) (hscan : cfg.scan = none)
    (hroom : 3 ≤ cfg.maxPending) (jsonEscape : Bool) (h : Text (pending ++ chunk ++ rest)) :
    ∃ out kept, Demasker.demaskChunk ⟨cfg, jsonEscape, pending⟩ chunk false = (.ok out, ⟨cfg, jsonEscape, kept⟩) ∧
      Text out ∧ Text (kept ++ rest) := by
  have htext := applyExact_text htables hreps jsonEscape h
  obtain ⟨hout, hkept⟩ := htext.split (safeEnd_boundary hroom htext)
  have hle : cfg.safeEnd (applyExact cfg jsonEscape (pending ++ chunk)) ≤
      (applyExact cfg jsonEscape (pending ++ chunk)).length := by
    rcases safeEnd_room cfg (applyExact cfg jsonEscape (pending ++ chunk)) with h | h <;> omega
  rw [List.take_append_of_le_length hle] at hout
  rw [List.drop_append_of_le_length hle] at hkept
  refine ⟨_, _, ?_, hout, hkept⟩
  have hpass : (cfg.rewriter jsonEscape).rewrite (pending ++ chunk) = applyExact cfg jsonEscape (pending ++ chunk) := by
    change tolerantPass cfg jsonEscape (applyExact cfg jsonEscape (pending ++ chunk)) = _
    simp [tolerantPass, applyPlaceholderRegex, hscan]
  rw [demaskChunk_step (neverFails_of_no_scan jsonEscape hscan), ← hpass]
  rfl

end Call

/-! ## A stream -/

/-- The demasker after calls that do not flush. -/
def Demasker.afterChunks (d : Demasker) (chunks : List Bytes) : Demasker :=
  chunks.foldl (fun d chunk => (d.demaskChunk chunk false).2) d

theorem afterChunks_text {cfg : DemaskConfig} {reps : List Replacement} (htables : Tables reps cfg)
    (hreps : Rendered reps) (hscan : cfg.scan = none) (hroom : 3 ≤ cfg.maxPending) (jsonEscape : Bool)
    {pending rest : Bytes} {chunks : List Bytes} (h : Text (pending ++ chunks.flatten ++ rest)) :
    ∃ kept, Demasker.afterChunks ⟨cfg, jsonEscape, pending⟩ chunks = ⟨cfg, jsonEscape, kept⟩ ∧ Text (kept ++ rest) := by
  induction chunks generalizing pending with
  | nil =>
    rw [List.flatten_nil, List.append_nil] at h
    exact ⟨pending, rfl, h⟩
  | cons chunk chunks ih =>
    rw [List.flatten_cons, ← List.append_assoc, List.append_assoc _ _ rest] at h
    obtain ⟨out, kept, hcall, -, hkept⟩ := demaskChunk_text htables hreps hscan hroom jsonEscape h
    rw [← List.append_assoc] at hkept
    obtain ⟨last, hrun, hlast⟩ := ih hkept
    refine ⟨last, ?_, hlast⟩
    unfold Demasker.afterChunks at hrun ⊢
    rw [List.foldl_cons, hcall, hrun]

/-- **A rune is never split.** What a call emits before the last one is valid UTF-8, and so is what it keeps,
with the rest of the stream behind it. -/
theorem emissions_are_text (env : Env) {texts : List Bytes} {rules : List (Option CompiledRule)} {opts : MaskOptions}
    {result : MaskResult} (hmask : maskTexts env texts rules opts = .ok result) (hne : result.state.replacements ≠ [])
    (horiginals : ∀ r ∈ result.state.replacements, Text r.original) (jsonEscape : Bool) {before after : List Bytes}
    {chunk : Bytes} (hstream : Text (before ++ chunk :: after).flatten) :
    ∃ out kept, (Demasker.afterChunks ⟨makeConfig env result.state none, jsonEscape, []⟩ before).demaskChunk chunk false =
        (.ok out, ⟨makeConfig env result.state none, jsonEscape, kept⟩) ∧
      Text out ∧ Text (kept ++ after.flatten) ∧ ∀ b ∈ kept.head?, isRuneStart b = true := by
  have htables := makeConfig_tables env result.state none
  have hreps := rendered_of_masked hmask horiginals
  have hscan := makeConfig_none_scan env result.state
  have hroom : 3 ≤ (makeConfig env result.state none).maxPending := by
    have := maxPending_room htables hreps hne
    omega
  have hstart : Text ([] ++ before.flatten ++ (chunk ++ after.flatten)) := by simpa using hstream
  obtain ⟨pending, hrun, hpending⟩ := afterChunks_text htables hreps hscan hroom jsonEscape hstart
  rw [← List.append_assoc] at hpending
  obtain ⟨out, kept, hcall, hout, hkept⟩ := demaskChunk_text htables hreps hscan hroom jsonEscape hpending
  refine ⟨out, kept, by rw [hrun, hcall], hout, hkept, ?_⟩
  intro b hb
  cases kept with
  | nil => cases hb
  | cons a kept =>
    obtain rfl := Option.some.inj hb
    exact (isRuneStart_iff a).mpr (hkept.not_tail_of_boundary (.zero _) rfl)

/-- A chunk that ends inside a rune. The rune leaves with the call behind it. -/
theorem emissions_are_text_sample :
    ∃ out kept, (Demasker.afterChunks ⟨makeConfig (sampleEnv annSpelling) lookAlikeResult.state none, true, []⟩
        [ascii "<EMAIL_1> drinks caf" ++ [0xC3]]).demaskChunk (0xA9 :: ascii " au lait") false =
          (.ok out, ⟨makeConfig (sampleEnv annSpelling) lookAlikeResult.state none, true, kept⟩) ∧
      Text out ∧ Text (kept ++ []) ∧ ∀ b ∈ kept.head?, isRuneStart b = true := by
  have hmask : maskTexts (sampleEnv annSpelling) [ascii "<email_1> is ann"] (annRegistry.rules.map some)
      ⟨⟨true, 1⟩, 0⟩ = .ok lookAlikeResult := by decide +kernel
  have hascii : (∀ b ∈ ascii "ann", b.toNat < 0x80) ∧ (∀ b ∈ ascii "<EMAIL_1> drinks caf", b.toNat < 0x80) ∧
      ∀ b ∈ ascii " au lait", b.toNat < 0x80 := by decide
  have hstream : Text ([ascii "<EMAIL_1> drinks caf" ++ [0xC3]] ++ (0xA9 :: ascii " au lait") :: []).flatten := by
    obtain ⟨e, he, -⟩ := exists_two 0xC3 0xA9 0xE9 (by decide) (by decide) (by decide)
    have htext := (Text.of_ascii hascii.2.1).append (.char e (.of_ascii hascii.2.2))
    rw [he] at htext
    simpa using htext
  refine emissions_are_text (sampleEnv annSpelling) hmask (by decide) ?_ true hstream
  rintro r hr
  rw [List.mem_singleton.mp hr]
  exact .of_ascii hascii.1

end LlmGuard
