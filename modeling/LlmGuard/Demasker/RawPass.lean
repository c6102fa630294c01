import LlmGuard.Demasker.Replacer
import LlmGuard.Demasker.RoundTrip
import LlmGuard.Json.Tree
import LlmGuard.Json.Unique

/-!
# The raw pass over a document

The pass replaces bytes and knows nothing of JSON. It keeps what a document says where all placeholders stand in
strings, and the originals need no escape there.
-/

namespace LlmGuard

open Splice Tokens
open Rfc8259 (Value Items Body IsBody Reading quoted)
open Json (treeOf treesOf mapItems decodeString decodeBody)

/-! ## Strings of a document -/

mutual

/-- The bodies of the string values. Keys are not among them. -/
def bodies : Value → List Body
  | .scalar _ => []
  | .string b => [b]
  | .empty _ _ => []
  | .group _ items => itemBodies items

def itemBodies : {k : Rfc8259.Kind} → Items k → List Body
  | _, .last _ _ v _ => bodies v
  | _, .more _ _ v _ rest => bodies v ++ itemBodies rest

end

mutual

/-- The value with every string rewritten. -/
def mapBodies (g : Body → Body) : Value → Value
  | .scalar t => .scalar t
  | .string b => .string (g b)
  | .empty k w => .empty k w
  | .group k items => .group k (mapItemBodies g items)

def mapItemBodies (g : Body → Body) : {k : Rfc8259.Kind} → Items k → Items k
  | _, .last label before v after => .last label before (mapBodies g v) after
  | _, .more label before v after rest => .more label before (mapBodies g v) after (mapItemBodies g rest)

end

mutual

/-- The text of the value, with the marks of `f` in its strings and none elsewhere. -/
def markBodies (f : Bytes → List (Item Byte)) : Value → List (Item Byte)
  | .scalar t => plain t.1
  | .string b => plain (ascii "\"") ++ f b.1 ++ plain (ascii "\"")
  | .empty k w => plain (k.opening :: w.1 ++ [k.closing])
  | .group k items => plain [k.opening] ++ markItemBodies f items ++ plain [k.closing]

def markItemBodies (f : Bytes → List (Item Byte)) : {k : Rfc8259.Kind} → Items k → List (Item Byte)
  | _, .last label before v after => plain (label.text ++ before.1) ++ markBodies f v ++ plain after.1
  | _, .more label before v after rest =>
    plain (label.text ++ before.1) ++ markBodies f v ++ plain (after.1 ++ [ch ',']) ++ markItemBodies f rest

end

section Bodies

variable {g : Body → Body}

mutual

theorem treeOf_mapBodies {h : Bytes → Bytes} : ∀ v : Value,
    (∀ b ∈ bodies v, decodeString (quoted (g b).1) = h (decodeString (quoted b.1))) →
      treeOf (mapBodies g v) = (treeOf v).mapStrings h
  | .scalar _, _ => rfl
  | .string b, hbodies => congrArg Json.Tree.string (hbodies b (List.mem_singleton_self b))
  | .empty _ _, _ => rfl
  | .group k items, hbodies => congrArg (Json.Tree.group k) (treesOf_mapItemBodies items hbodies)

theorem treesOf_mapItemBodies {h : Bytes → Bytes} : ∀ {k : Rfc8259.Kind} (items : Items k),
    (∀ b ∈ itemBodies items, decodeString (quoted (g b).1) = h (decodeString (quoted b.1))) →
      treesOf (mapItemBodies g items) = mapItems h (treesOf items)
  | _, .last label _ v _, hbodies => congrArg (fun t => [(Json.nameOf label, t)]) (treeOf_mapBodies v hbodies)
  | _, .more label _ v _ rest, hbodies =>
    congrArg₂ (fun t ts => (Json.nameOf label, t) :: ts)
      (treeOf_mapBodies v fun b hb => hbodies b (List.mem_append_left _ hb))
      (treesOf_mapItemBodies rest fun b hb => hbodies b (List.mem_append_right _ hb))

end

mutual

theorem render_markBodies {f : Bytes → List (Item Byte)} {r : Bytes → Option Bytes} : ∀ v : Value,
    (∀ b ∈ bodies v, render (subst r (f b.1)) = (g b).1) → render (subst r (markBodies f v)) = (mapBodies g v).text
  | .scalar t, _ => by simp [markBodies, mapBodies, Value.text]
  | .string b, hbodies => by
    have hb := hbodies b (List.mem_singleton_self b)
    simp [markBodies, mapBodies, Value.text, quoted, hb, ascii]
  | .empty k w, _ => by simp [markBodies, mapBodies, Value.text]
  | .group k items, hbodies => by
    have hitems := render_markItemBodies items hbodies
    simp [markBodies, mapBodies, Value.text, hitems]

theorem render_markItemBodies {f : Bytes → List (Item Byte)} {r : Bytes → Option Bytes} :
    ∀ {k : Rfc8259.Kind} (items : Items k), (∀ b ∈ itemBodies items, render (subst r (f b.1)) = (g b).1) →
      render (subst r (markItemBodies f items)) = (mapItemBodies g items).text
  | _, .last label before v after, hbodies => by
    have hv := render_markBodies v hbodies
    simp [markItemBodies, mapItemBodies, Items.text, hv]
  | _, .more label before v after rest, hbodies => by
    have hv := render_markBodies v fun b hb => hbodies b (List.mem_append_left _ hb)
    have hrest := render_markItemBodies rest fun b hb => hbodies b (List.mem_append_right _ hb)
    simp [markItemBodies, mapItemBodies, Items.text, hv, hrest]

end

end Bodies

/-! ## The cut of a text -/

/-- The placeholders that a scan from the left finds are marked, except those that stand for themselves. The first
argument counts the bytes of a find still to step over. -/
def cut (reps : List Replacement) : Nat → Bytes → List (Item Byte)
  | _, [] => []
  | skip + 1, _ :: s => cut reps skip s
  | 0, b :: s =>
    match firstAt reps (b :: s) with
    | none => .raw b :: cut reps 0 s
    | some r =>
      (if r.original = r.placeholder then plain r.placeholder else [.tok r.placeholder]) ++
        cut reps (r.placeholder.length - 1) s

section Cut

variable {reps : List Replacement}

theorem cut_skip (n : Nat) (s : Bytes) : cut reps n s = cut reps 0 (s.drop n) := by
  induction n generalizing s with
  | zero => rfl
  | succ n ih =>
    cases s with
    | nil => rfl
    | cons c s => exact ih s

theorem cut_hit {b : Byte} {s : Bytes} {r : Replacement} (h : firstAt reps (b :: s) = some r) :
    cut reps 0 (b :: s) = (if r.original = r.placeholder then plain r.placeholder else [.tok r.placeholder]) ++
      cut reps 0 ((b :: s).drop r.placeholder.length) := by
  obtain ⟨k, hk⟩ := Nat.exists_eq_add_of_lt (firstAt_length h).1
  rw [Nat.zero_add] at hk
  rw [cut, h]
  simp only
  rw [cut_skip, hk, List.drop_succ_cons, Nat.add_sub_cancel]

theorem exactOriginal_of_firstAt {s : Bytes} {r : Replacement} (h : firstAt reps s = some r) :
    exactOriginal reps false r.placeholder = some r.original := by
  obtain ⟨hpos, hpre⟩ := firstAt_length h
  obtain ⟨-, i, hi, rfl, hbefore⟩ := List.find?_eq_some_iff_getElem.mp h
  have hne := List.length_pos_iff.mp hpos
  have hfind : reps.find? (fun r' => r'.placeholder = reps[i].placeholder) = some reps[i] := by
    rw [List.find?_eq_some_iff_getElem]
    refine ⟨by simp, i, hi, rfl, fun j hj => ?_⟩
    have hearlier := hbefore j hj
    rw [Bool.not_eq_true', decide_eq_false_iff_not]
    intro heq
    rw [heq, List.isPrefixOf_iff_prefix.mpr hpre] at hearlier
    simp [hne] at hearlier
  rw [exactOriginal, if_neg hne, hfind]
  simp [restored]

theorem replacer_cut (s : Bytes) : replacer reps false s = render (subst (exactOriginal reps false) (cut reps 0 s)) := by
  induction hn : s.length using Nat.strong_induction_on generalizing s with
  | _ n ih =>
    cases s with
    | nil => rw [replacer]; rfl
    | cons b s =>
      cases hfirst : firstAt reps (b :: s) with
      | none =>
        have hcut : cut reps 0 (b :: s) = .raw b :: cut reps 0 s := by rw [cut, hfirst]
        rw [replacer_copy hfirst, ih s.length (by simp [← hn]) s rfl, hcut, subst_raw, render_raw]
      | some r =>
        have hpos := (firstAt_length hfirst).1
        have hrest := ih ((b :: s).drop r.placeholder.length).length (by
          simp only [List.length_drop, List.length_cons] at hn ⊢
          omega) _ rfl
        rw [replacer_hit hfirst, hrest, cut_hit hfirst, subst_append, render_append, restored, if_neg (by simp)]
        congr 1
        split
        · rename_i hown
          rw [subst_plain, render_plain, hown]
        · rw [subst_tok_some (exactOriginal_of_firstAt hfirst), subst_nil, List.append_nil, render_plain]

end Cut

/-! ## Bodies that are put together -/

/-- Bytes that stand for themselves in a string. -/
def Unescaped (o : Bytes) : Prop := ∀ c ∈ o, 0x20 ≤ c ∧ c ≠ ch '"' ∧ c ≠ ch '\\'

theorem Unescaped.writes {o : Bytes} (h : Unescaped o) : Json.Writes o o := by
  induction o with
  | nil => exact ⟨fun s hs => hs, fun s => rfl⟩
  | cons c o ih =>
    obtain ⟨hlow, hquote, hback⟩ := h c (by simp)
    have hrest := ih fun d hd => h d (List.mem_cons_of_mem _ hd)
    exact ⟨fun s hs => .plain hlow hquote hback (hrest.body s hs), fun s => by
      rw [List.cons_append, Json.decodeBody_plain hback, hrest.decoded, List.cons_append]⟩

set_option maxRecDepth 8192 in
theorem hexValue_of_hexDigit : ∀ h : Byte, Rfc8259.hexDigit h → (Json.hexValue h).isSome := by
  decide

theorem readHex4_of_hexDigits {h₁ h₂ h₃ h₄ : Byte} (hex₁ : Rfc8259.hexDigit h₁) (hex₂ : Rfc8259.hexDigit h₂)
    (hex₃ : Rfc8259.hexDigit h₃) (hex₄ : Rfc8259.hexDigit h₄) :
    ∃ r, ∀ s, Json.readHex4 (h₁ :: h₂ :: h₃ :: h₄ :: s) = some r := by
  obtain ⟨a, ha⟩ := Option.isSome_iff_exists.mp (hexValue_of_hexDigit h₁ hex₁)
  obtain ⟨b, hb⟩ := Option.isSome_iff_exists.mp (hexValue_of_hexDigit h₂ hex₂)
  obtain ⟨c, hc⟩ := Option.isSome_iff_exists.mp (hexValue_of_hexDigit h₃ hex₃)
  obtain ⟨d, hd⟩ := Option.isSome_iff_exists.mp (hexValue_of_hexDigit h₄ hex₄)
  exact ⟨((a * 16 + b) * 16 + c) * 16 + d, fun s => by simp [Json.readHex4, ha, hb, hc, hd]⟩

/-- What a `\u` escape in a body consumes: itself, and the other half of its pair. -/
theorem decodeUnicode_body {h₁ h₂ h₃ h₄ : Byte} {s : Bytes} (hs : IsBody s) {r : Nat}
    (hr : ∀ s, Json.readHex4 (h₁ :: h₂ :: h₃ :: h₄ :: s) = some r) :
    ∃ out n, (∀ t : Bytes, (∀ c ∈ t.head?, c ≠ ch '\\') →
        Json.decodeUnicode (h₁ :: h₂ :: h₃ :: h₄ :: (s ++ t)) = (out, n)) ∧
      (n = 4 ∨ n = 10 ∧ ∃ k₁ k₂ k₃ k₄ s', s = ch '\\' :: ch 'u' :: k₁ :: k₂ :: k₃ :: k₄ :: s' ∧ IsBody s') := by
  by_cases hhigh : 0xD800 ≤ r ∧ r ≤ 0xDBFF
  · have hlone : ∀ u : Bytes, (∀ c ∈ u.head?, c ≠ ch '\\') →
        Json.decodeUnicode (h₁ :: h₂ :: h₃ :: h₄ :: u) = (Json.appendUtf8 Json.replacementChar, 4) := by
      intro u hu
      unfold Json.decodeUnicode
      rw [hr]
      rcases u with _ | ⟨b, _ | ⟨e, u⟩⟩
      · simp [hhigh]
      · simp [hhigh]
      · have hb : b ≠ ch '\\' := hu b rfl
        simp [hhigh, hb]
    cases hs with
    | nil => exact ⟨_, 4, fun t ht => hlone t ht, .inl rfl⟩
    | plain hlow hquote hback hs =>
      exact ⟨_, 4, fun t _ => hlone _ fun d hd => Option.some.inj hd ▸ hback, .inl rfl⟩
    | @escape e s he hs =>
      refine ⟨Json.appendUtf8 Json.replacementChar, 4, fun t _ => ?_, .inl rfl⟩
      have hne : e ≠ ch 'u' := by
        rintro rfl
        exact absurd he (by decide)
      unfold Json.decodeUnicode
      rw [hr]
      simp [hhigh, hne]
    | @unicode k₁ k₂ k₃ k₄ s' hk₁ hk₂ hk₃ hk₄ hs =>
      obtain ⟨r', hr'⟩ := readHex4_of_hexDigits hk₁ hk₂ hk₃ hk₄
      by_cases hpair : 0xDC00 ≤ r' ∧ r' ≤ 0xDFFF
      · refine ⟨Json.appendUtf8 (0x10000 + (r - 0xD800) * 1024 + (r' - 0xDC00)), 10, fun t _ => ?_,
          .inr ⟨rfl, k₁, k₂, k₃, k₄, s', rfl, hs⟩⟩
        unfold Json.decodeUnicode
        rw [hr]
        simp [hhigh, hr', hpair]
      · refine ⟨Json.appendUtf8 Json.replacementChar, 4, fun t _ => ?_, .inl rfl⟩
        unfold Json.decodeUnicode
        rw [hr]
        simp [hhigh, hr', hpair]
  · refine ⟨Json.appendUtf8 (if 0xDC00 ≤ r ∧ r ≤ 0xDFFF then Json.replacementChar else r), 4, fun t _ => ?_, .inl rfl⟩
    unfold Json.decodeUnicode
    rw [hr]
    by_cases hlow : 0xDC00 ≤ r ∧ r ≤ 0xDFFF <;> simp [hhigh, hlow]

theorem decodeBody_append {g t : Bytes} (hg : IsBody g) (ht : ∀ c ∈ t.head?, c ≠ ch '\\') :
    decodeBody 0 (g ++ t) = decodeBody 0 g ++ decodeBody 0 t := by
  induction hn : g.length using Nat.strong_induction_on generalizing g with
  | _ n ih =>
    cases hg with
    | nil => rfl
    | @plain c s hlow hquote hback hs =>
      have hrest := ih s.length (by simp [← hn]) hs rfl
      rw [List.cons_append, Json.decodeBody_plain hback, Json.decodeBody_plain hback, hrest, List.cons_append]
    | @escape e s he hs =>
      have hrest := ih s.length (by simp only [← hn, List.length_cons]; omega) hs rfl
      obtain ⟨c, hc⟩ : ∃ c, ∀ u, Json.decodeEscape (e :: u) = ([c], 1) := by
        simp only [Rfc8259.simpleEscape, Bool.or_eq_true, decide_eq_true_eq] at he
        rcases he with ((((((rfl | rfl) | rfl) | rfl) | rfl) | rfl) | rfl) | rfl <;> exact ⟨_, fun u => rfl⟩
      rw [List.cons_append, List.cons_append, Json.decodeBody_escape, Json.decodeBody_escape, hc, hc]
      simp [hrest]
    | @unicode h₁ h₂ h₃ h₄ s hh₁ hh₂ hh₃ hh₄ hs =>
      obtain ⟨r, hr⟩ := readHex4_of_hexDigits hh₁ hh₂ hh₃ hh₄
      obtain ⟨out, k, hout, hk⟩ := decodeUnicode_body hs hr
      have hescape : ∀ t : Bytes, (∀ c ∈ t.head?, c ≠ ch '\\') →
          decodeBody 0 (ch '\\' :: ch 'u' :: h₁ :: h₂ :: h₃ :: h₄ :: (s ++ t)) =
            out ++ decodeBody 0 ((h₁ :: h₂ :: h₃ :: h₄ :: (s ++ t)).drop k) := by
        intro t ht
        rw [Json.decodeBody_escape]
        simp only [Json.decodeEscape, hout t ht]
        rfl
      have hend := hescape [] (by simp)
      rw [List.append_nil] at hend
      simp only [List.cons_append]
      rw [hescape t ht, hend]
      rcases hk with rfl | ⟨rfl, k₁, k₂, k₃, k₄, s', rfl, hs'⟩
      · have hrest := ih s.length (by simp only [← hn, List.length_cons]; omega) hs rfl
        simp [hrest]
      · have hrest := ih s'.length (by simp only [← hn, List.length_cons]; omega) hs' rfl
        simp [hrest]

theorem isBody_append {g t : Bytes} (hg : IsBody g) (ht : IsBody t) : IsBody (g ++ t) := by
  induction hg with
  | nil => exact ht
  | plain hlow hquote hback _ ih => exact .plain hlow hquote hback ih
  | escape he _ ih => exact .escape he ih
  | unicode h₁ h₂ h₃ h₄ _ ih => exact .unicode h₁ h₂ h₃ h₄ ih

/-- Originals that need no escape may be written between the bodies. An empty one lets the escapes meet. -/
theorem weave_body {gaps originals : List Bytes} (hlen : gaps.length = originals.length + 1)
    (hgaps : ∀ g ∈ gaps, IsBody g)
    (horiginals : ∀ o ∈ originals, Unescaped o ∧ (o = [] → ∀ g ∈ gaps, Json.Writes g (decodeBody 0 g))) :
    IsBody (weave gaps originals) ∧
      decodeBody 0 (weave gaps originals) = weave (gaps.map (decodeBody 0)) originals := by
  induction originals generalizing gaps with
  | nil =>
    obtain ⟨g, rfl⟩ := List.length_eq_one_iff.mp hlen
    exact ⟨by simpa using hgaps, by simp⟩
  | cons o os ih =>
    cases gaps with
    | nil => cases hlen
    | cons g gs =>
      obtain ⟨hbody, hdecoded⟩ := ih (by simpa using hlen) (fun g' hg' => hgaps g' (by simp [hg'])) fun o' ho' =>
        have h := horiginals o' (by simp [ho'])
        ⟨h.1, fun hnil g' hg' => h.2 hnil g' (by simp [hg'])⟩
      obtain ⟨ho, hempty⟩ := horiginals o (by simp)
      have hg := hgaps g (by simp)
      have hjoin : decodeBody 0 (g ++ (o ++ weave gs os)) = decodeBody 0 g ++ decodeBody 0 (o ++ weave gs os) := by
        cases o with
        | nil => exact (hempty rfl g (by simp)).decoded _
        | cons c o =>
          refine decodeBody_append hg fun d hd => ?_
          obtain rfl := Option.some.inj hd
          exact (ho c (by simp)).2.2
      rw [weave_cons, List.map_cons, weave_cons, List.append_assoc, List.append_assoc]
      exact ⟨isBody_append hg (ho.writes.body _ hbody), by rw [hjoin, ho.writes.decoded, hdecoded]⟩

/-! ## The pass over a document -/

/-- The placeholders stand in the decoded string where they stand in its bytes, between whole escapes, and their
originals need no escape. -/
def StringFits (reps : List Replacement) (b : Bytes) : Prop :=
  ∃ gaps placeholders originals : List Bytes, gaps.length = originals.length + 1 ∧ (∀ g ∈ gaps, IsBody g) ∧
    List.Forall₂ (fun o p => exactOriginal reps false p = some o) originals placeholders ∧
    cut reps 0 b = weaveItems (gaps.map plain) placeholders ∧
    cut reps 0 (decodeString (quoted b)) = weaveItems ((gaps.map (decodeBody 0)).map plain) placeholders ∧
    ∀ o ∈ originals, Unescaped o ∧ (o = [] → ∀ g ∈ gaps, Json.Writes g (decodeBody 0 g))

/-- Every placeholder that is found in the document stands in one of its strings, and the strings fit. -/
structure DocumentFits (reps : List Replacement) {doc : Bytes} (t : Reading doc) : Prop where
  found : cut reps 0 doc = plain t.before.1 ++ markBodies (cut reps 0) t.value ++ plain t.after.1
  strings : ∀ b ∈ bodies t.value, StringFits reps b.1

section Document

variable {reps : List Replacement}

theorem StringFits.written {b : Bytes} (h : StringFits reps b) :
    IsBody (replacer reps false b) ∧
      decodeString (quoted (replacer reps false b)) = replacer reps false (decodeString (quoted b)) := by
  obtain ⟨gaps, placeholders, originals, hlen, hgaps, hos, hcut, hdecoded, hplain⟩ := h
  obtain ⟨hbody, hdecode⟩ := weave_body hlen hgaps hplain
  have hraw : replacer reps false b = weave gaps originals := by
    rw [replacer_cut, hcut, subst_weaveItems hos]
    simp [Function.comp_def]
  have hstring : replacer reps false (decodeString (quoted b)) = weave (gaps.map (decodeBody 0)) originals := by
    rw [replacer_cut, hdecoded, subst_weaveItems hos]
    simp [Function.comp_def]
  rw [hraw, hstring, Json.decodeString_quoted]
  exact ⟨hbody, hdecode⟩

/-- The raw pass over a document that fits rewrites its strings and nothing else. -/
theorem replacer_document {doc : Bytes} {t : Reading doc} (h : DocumentFits reps t) :
    ∃ t' : Reading (replacer reps false doc), treeOf t'.value = (treeOf t.value).mapStrings (replacer reps false) := by
  classical
  let write : Body → Body := fun b => if hb : IsBody (replacer reps false b.1) then ⟨_, hb⟩ else b
  have hwrite : ∀ b ∈ bodies t.value, (write b).1 = replacer reps false b.1 := by
    intro b hb
    simp only [write, dif_pos (h.strings b hb).written.1]
  have htext : replacer reps false doc = t.before.1 ++ (mapBodies write t.value).text ++ t.after.1 := by
    have hvalue : render (subst (exactOriginal reps false) (markBodies (cut reps 0) t.value)) =
        (mapBodies write t.value).text := render_markBodies t.value fun b hb => by
      rw [hwrite b hb, replacer_cut]
    rw [replacer_cut, h.found]
    simp [hvalue]
  refine ⟨⟨t.before, mapBodies write t.value, t.after, htext⟩, treeOf_mapBodies t.value fun b hb => ?_⟩
  rw [hwrite b hb, (h.strings b hb).written.2]

end Document

end LlmGuard
