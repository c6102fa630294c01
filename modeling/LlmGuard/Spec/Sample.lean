import LlmGuard.Demasker.Spec
import LlmGuard.Scanner.Decode
import LlmGuard.Scanner.Lower
import LlmGuard.Scanner.Proofs
import Mathlib.Data.List.Sort

/-!
# A concrete environment

A decoder, a sort and an engine that tries every place, and what they were asked for. The engine finds the
leftmost of the words that it knows.
-/

namespace LlmGuard

open Utf8

/-! ## utf8proc -/

/-- Decodes like `decode_utf8`, and lowers ASCII. -/
def sampleUtf8proc : Utf8proc where
  iterate
    | [] => none
    | b :: s =>
      if b < 0x80 || 1 < (decodeUtf8 (b :: s) 0).2 then some (decodeUtf8 (b :: s) 0) else none
  tolower cp := if 65 ≤ cp ∧ cp ≤ 90 then cp + 32 else cp
  encodeChar cp := if cp < 128 then [cp.toUInt8] else []

theorem sampleUtf8proc_spec : Utf8procSpec sampleUtf8proc where
  iterate s codepoint consumed := by
    cases s with
    | nil =>
      simp only [sampleUtf8proc, reduceCtorEq, false_iff, not_exists, not_and]
      intro c hc
      exact absurd (List.prefix_nil.mp hc) (encode_ne_nil c)
    | cons b s =>
      simp only [sampleUtf8proc]
      rcases decodeUtf8_reads b s with ⟨c, hc, hread⟩ | ⟨hbroken, hread⟩
      · have hlong : b < 0x80 ∨ 1 < (encode c).length := by
          obtain ⟨t, ht⟩ := hc
          rcases encode_cases c with ⟨h, a, he, ha⟩ | ⟨-, -, a, b, he, -⟩ | ⟨-, -, a, b, d, he, -⟩ |
            ⟨-, -, a, b, d, e, he, -⟩
          · rw [he, List.singleton_append, List.cons.injEq] at ht
            exact .inl (show b.toNat < 128 by rw [← ht.1]; omega)
          all_goals simp [he]
        rw [hread, if_pos (by simpa using hlong)]
        constructor
        · intro h
          obtain ⟨rfl, rfl⟩ := Prod.mk.inj (Option.some.inj h)
          exact ⟨c, hc, rfl, rfl⟩
        · rintro ⟨d, hd, rfl, rfl⟩
          rw [encode_unique hc hd]
      · have hb : ¬ b < 0x80 := by
          intro hb
          obtain ⟨c, hc, -⟩ := exists_one b hb
          exact hbroken c ⟨s, by rw [hc, List.singleton_append]⟩
        rw [hread, if_neg (by simpa using hb)]
        simp only [reduceCtorEq, false_iff, not_exists, not_and]
        exact fun c hc => absurd hc (hbroken c)
  ascii b hb := by
    have h : ∀ n < 128, (if (if 65 ≤ n ∧ n ≤ 90 then n + 32 else n) < 128 then
        [(if 65 ≤ n ∧ n ≤ 90 then n + 32 else n).toUInt8] else []) = [asciiToLower n.toUInt8] := by decide
    have := h b.toNat hb
    simpa [sampleUtf8proc] using this

/-! ## `std::sort` -/

def sampleSort (ms : List ScanMatch) : List ScanMatch := ms.insertionSort fun a b => scanMatchLess b a = false

theorem sampleSort_spec : SortSpec sampleSort where
  perm ms := List.perm_insertionSort _ ms
  sorted ms :=
    have : Std.Total fun a b => scanMatchLess b a = false := ⟨scanMatchLess_total⟩
    have : IsTrans ScanMatch fun a b => scanMatchLess b a = false := ⟨fun _ _ _ => scanMatchLess_trans⟩
    List.pairwise_insertionSort _ ms

/-! ## RE2 -/

/-- Where `captured` stands in a word that begins at `i`. -/
def captureAt (i : Nat) (w captured : Bytes) : Span :=
  match (List.range (w.length + 1)).find? fun k => captured.isPrefixOf (w.drop k) with
  | none => (i, i)
  | some k => (i + k, i + k + captured.length)

/-- The leftmost word at or after `pos`, and the shortest one there. -/
def sampleSearch (spell : Spelling) (re : Regex) (text : Bytes) (pos : Nat) : Option Submatches :=
  (List.range' pos (text.length + 1 - pos)).findSome? fun i =>
    (List.range' i (text.length + 1 - i)).findSome? fun j =>
      (spell re (slice text i j)).map fun captured =>
        ⟨(i, j), [some (captureAt i (slice text i j) captured)]⟩

def sampleRe2 (spell : Spelling) : Re2 where
  ok _ := true
  error _ := []
  numberOfCapturingGroups re := re.count (ch '(') - re.count (ch '?')
  quoteMeta := id
  search := sampleSearch spell

theorem captureAt_spec {w captured : Bytes} (h : captured <:+: w) (i : Nat) :
    ∃ k ≤ w.length, captureAt i w captured = (i + k, i + k + captured.length) ∧ captured <+: w.drop k := by
  unfold captureAt
  cases hf : (List.range (w.length + 1)).find? fun k => captured.isPrefixOf (w.drop k) with
  | none =>
    obtain ⟨a, b, hab⟩ := h
    have := List.find?_eq_none.mp hf a.length (by rw [List.mem_range, ← hab]; simp only [List.length_append]; omega)
    rw [← hab] at this
    simp at this
  | some k =>
    have hk := List.mem_range.mp (List.mem_of_find?_eq_some hf)
    exact ⟨k, by omega, rfl, by simpa using List.find?_some hf⟩

theorem captureAt_text {text captured : Bytes} {i j : Nat} (hj : j ≤ text.length) (hij : i ≤ j)
    (h : captured <:+: slice text i j) :
    (captureAt i (slice text i j) captured).2 ≤ text.length ∧
      slice text (captureAt i (slice text i j) captured).1 (captureAt i (slice text i j) captured).2 = captured := by
  obtain ⟨k, hk, heq, hpre⟩ := captureAt_spec h i
  have hlen := hpre.length_le
  rw [List.length_drop, Splice.slice_length text i j hj] at hlen
  rw [Splice.slice_length text i j hj] at hk
  have hdrop : captured <+: text.drop (i + k) := by
    rw [slice, List.drop_take, List.drop_drop] at hpre
    exact hpre.trans (List.take_prefix _ _)
  rw [heq]
  refine ⟨by dsimp only; omega, ?_⟩
  rw [slice, Nat.add_sub_cancel_left]
  exact (List.prefix_iff_eq_take.mp hdrop).symm

theorem sampleSearch_some {spell : Spelling} {re : Regex} {text : Bytes} {pos : Nat} {g : Submatches}
    (h : sampleSearch spell re text pos = some g) :
    pos ≤ g.whole.1 ∧ g.whole.1 ≤ g.whole.2 ∧ g.whole.2 ≤ text.length ∧
      (∀ i j, pos ≤ i → i < g.whole.1 → i ≤ j → j ≤ text.length → spell re (slice text i j) = none) ∧
      ∃ captured, spell re (slice text g.whole.1 g.whole.2) = some captured ∧
        g.groups = [some (captureAt g.whole.1 (slice text g.whole.1 g.whole.2) captured)] := by
  obtain ⟨l₁, i, l₂, hsplit, hinner, hbefore⟩ := List.findSome?_eq_some_iff.mp h
  obtain ⟨k₁, j, k₂, hsplit', hmap, -⟩ := List.findSome?_eq_some_iff.mp hinner
  obtain ⟨captured, hspell, rfl⟩ := Option.map_eq_some_iff.mp hmap
  have hi : i ∈ List.range' pos (text.length + 1 - pos) := by rw [hsplit]; simp
  have hj : j ∈ List.range' i (text.length + 1 - i) := by rw [hsplit']; simp
  rw [List.mem_range'_1] at hi hj
  refine ⟨hi.1, hj.1, by dsimp only; omega, ?_, captured, hspell, rfl⟩
  intro i' j' hpos hlt hij hlen
  have hmem : i' ∈ l₁ := by
    have hi' : i' ∈ List.range' pos (text.length + 1 - pos) := List.mem_range'_1.mpr (by omega)
    have hsorted : (List.range' pos (text.length + 1 - pos)).Pairwise (· < ·) := List.pairwise_lt_range'
    rw [hsplit] at hi' hsorted
    rcases List.mem_append.mp hi' with hi' | hi'
    · exact hi'
    · exfalso
      have hle := (List.pairwise_append.mp hsorted).2.1
      rcases List.mem_cons.mp hi' with rfl | hi'
      · exact Nat.lt_irrefl _ hlt
      · have := (List.pairwise_cons.mp hle).1 i' hi'
        dsimp only at hlt
        omega
  have hnone := List.findSome?_eq_none_iff.mp (hbefore i' hmem) j' (List.mem_range'_1.mpr (by omega))
  exact Option.map_eq_none_iff.mp hnone

theorem sampleSearch_none {spell : Spelling} {re : Regex} {text : Bytes} {pos : Nat}
    (h : sampleSearch spell re text pos = none) (i j : Nat) (hpos : pos ≤ i) (hij : i ≤ j) (hlen : j ≤ text.length) :
    spell re (slice text i j) = none := by
  have hi := List.findSome?_eq_none_iff.mp h i (List.mem_range'_1.mpr (by omega))
  exact Option.map_eq_none_iff.mp (List.findSome?_eq_none_iff.mp hi j (List.mem_range'_1.mpr (by omega)))

/-- The words of an engine capture a part of themselves. -/
def Captures (spell : Spelling) : Prop := ∀ re w captured, spell re w = some captured → captured <:+: w

theorem sampleRe2_inText {spell : Spelling} (hspell : Captures spell) : InText (sampleRe2 spell) where
  whole re text pos g h :=
    let ⟨hpos, hle, hlen, _⟩ := sampleSearch_some h
    ⟨hpos, hle, hlen⟩
  groups re text pos g span h hspan := by
    obtain ⟨hpos, hle, hlen, -, captured, hsome, hgroups⟩ := sampleSearch_some h
    rw [hgroups, List.mem_singleton, Option.some_inj] at hspan
    rw [hspan]
    exact (captureAt_text hlen hle (hspell re _ _ hsome)).1

theorem sampleRe2_finds {spell : Spelling} (hspell : Captures spell) {re : Regex} (hne : spell re [] = none) :
    Finds (sampleRe2 spell) re (spell re) where
  found text pos g h := by
    obtain ⟨hpos, hle, hlen, -, captured, hsome, hgroups⟩ := sampleSearch_some h
    have hlt : g.whole.1 < g.whole.2 := by
      rcases Nat.lt_or_eq_of_le hle with h | h
      · exact h
      · rw [h, Splice.slice_self, hne] at hsome
        cases hsome
    refine ⟨hpos, hlt, hlen, captureAt g.whole.1 (slice text g.whole.1 g.whole.2) captured, ?_, ?_⟩
    · simp [Submatches.get, hgroups]
    · rw [(captureAt_text hlen hle (hspell re _ _ hsome)).2, hsome]
  leftmost text pos g h := (sampleSearch_some h).2.2.2.1
  nothing text pos h := sampleSearch_none h

/-- An engine that knows the words of `spell`, next to the simplest surroundings. -/
def sampleEnv (spell : Spelling) : Env where
  re2 := sampleRe2 spell
  utf8proc := sampleUtf8proc
  inetPton6 := fun _ => none
  entropyBelow := fun _ _ => false
  sortMatches := sampleSort
  hardwareConcurrency := 1

/-- A rule without anything but its id, its regex and its placeholder. -/
def sampleRule (id regex placeholder : String) : Rule :=
  { id := ascii id, dataType := .personalData, regex := ascii regex, keywords := [], validators := [],
    minLength := 0, entropy := 0, banlist := [], masking := ⟨[], ascii placeholder⟩ }

/-- What the rule is compiled to when it recognises no placeholder. -/
def sampleCompiled (id regex placeholder : String) : CompiledRule where
  rule := sampleRule id regex placeholder
  re := some (ascii regex)
  placeholderRe := none
  placeholderLen := 0
  prefilterEligible := false
  prefilterKeywords := []

end LlmGuard
