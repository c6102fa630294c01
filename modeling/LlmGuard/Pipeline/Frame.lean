import LlmGuard.Code.WantsStream
import LlmGuard.Pipeline.RoundTrip

/-!
# What masking leaves alone

Masking goes into a few members of the root. Whoever looks up another one, as for the model or for whether the client
wants a stream, reads the same before and behind it.
-/

namespace LlmGuard.Pipeline

open Rfc8259 (Kind Value Items Place)
open Json (PathSeg ValueSpan Root findValue lookupPlace placeSpan segIndex nameOf)
open Extract (Side ContentField Focus Walk keySeg extract walkOf fieldOf member under fields truthy wantsStream)

variable {v : Value} {side : Side} {format : ApiFormat}

/-! ## Other members -/

theorem segIndex_ne {key key' : Bytes} (hne : key ≠ key') {j : Nat} (hj : segIndex (.key key) v = some j) :
    segIndex (.key key') v ≠ some j := by
  intro hj'
  cases v with
  | scalar | string | empty => cases hj
  | group k items =>
    cases k with
    | array => cases hj
    | object =>
      change items.labels.findIdx? _ = some j at hj hj'
      obtain ⟨_, hname, -⟩ := List.findIdx?_eq_some_iff_getElem.mp hj
      obtain ⟨_, hname', -⟩ := List.findIdx?_eq_some_iff_getElem.mp hj'
      simp only [decide_eq_true_eq] at hname hname'
      exact hne (Option.some.inj (hname.symm.trans hname'))

theorem member_setAll {key : Bytes} {edits : List (List Nat × Value)}
    (h : ∀ e ∈ edits, ∃ i a, e.1 = i :: a ∧ segIndex (.key key) v ≠ some i) :
    segIndex (.key key) (v.setAll edits) = segIndex (.key key) v ∧ member key (v.setAll edits) = member key v := by
  induction edits with
  | nil => exact ⟨rfl, rfl⟩
  | cons e edits ih =>
    obtain ⟨hseg, hmember⟩ := ih fun e' he' => h e' (List.mem_cons_of_mem _ he')
    obtain ⟨i, a, ha, hne⟩ := h e List.mem_cons_self
    rw [Value.setAll, ha, Value.set]
    cases (v.setAll edits).child i with
    | none => exact ⟨hseg, hmember⟩
    | some p =>
      simp only
      rw [Extract.segIndex_setChild, Extract.member_setChild_ne (hseg ▸ hne)]
      exact ⟨hseg, hmember⟩

theorem focus_member {l : List (Bytes × Walk)} {f : Focus} (hf : f ∈ fields l v) :
    ∃ key ∈ l.map Prod.fst, f.path.head? = some (.key key) ∧
      ∃ j a, f.address = j :: a ∧ segIndex (.key key) v = some j := by
  obtain ⟨e, he, hunder⟩ := Extract.mem_fields.mp hf
  obtain ⟨j, u, g, hmember, -, rfl⟩ := Extract.mem_under.mp hunder
  exact ⟨e.1, List.mem_map_of_mem he, rfl, j, g.address, rfl, (Extract.member_eq_some.mp hmember).1⟩

/-! ## Lookups -/

/-- What `find_value` gives for a member of the root: its bytes, and whether they are a string. -/
def readAt (doc key : Bytes) : Option (Bytes × Bool) :=
  (findValue doc [.key key]).map fun c => (slice doc c.start c.stop, c.isString)

theorem readAt_root {doc : Bytes} (r : Root doc) (key : Bytes) :
    readAt doc key = ((member key r.value).map Prod.snd).map fun u => (u.text, decide (u.text.head? = some (ch '"'))) := by
  rw [Extract.member_lookupPlace]
  unfold readAt
  rw [r.findValue_eq]
  cases hp : lookupPlace r.value [.key key] with
  | none => rfl
  | some p =>
    rw [Json.lookupPlace_seg] at hp
    obtain ⟨j, -, hchild⟩ := Option.bind_eq_some_iff.mp hp
    have hplace : r.value.place [j] = some p := by
      rw [Value.place, hchild]
      simp [Value.place, Place.inside]
    rw [Option.map_some, Option.map_some, Option.map_some, Option.map_some, r.slice_place (List.cons_ne_nil j []) hplace]
    rfl

/-- New texts for the fields of a body leave every other member as it is. -/
theorem readAt_patch {body out : Bytes} {found : List ContentField} (hfound : extract side body format = .fields found)
    {texts : List Bytes} (htexts : List.Forall₂ MayGet found texts)
    (hout : Json.spliceAll body (fieldEdits found texts) = .ok out) {key : Bytes}
    (hkey : ∀ f ∈ found, f.path.head? ≠ some (.key key)) : readAt out key = readAt body key := by
  rcases extract_cases hfound with rfl | ⟨r, -, hfields⟩
  · cases htexts
    obtain rfl : body = out := Except.ok.inj hout
    rfl
  · obtain ⟨writes, out', r', hwritable, -, -, hout', -, -, hvalue, -⟩ :=
      @root_patch body r side format found hfound texts htexts
    obtain rfl := Except.ok.inj (hout'.symm.trans hout)
    have hedits : ∀ e ∈ writes.map Write.edit, ∃ i a, e.1 = i :: a ∧ segIndex (.key key) r.value ≠ some i := by
      refine List.forall_mem_map.mpr fun w hw => ?_
      obtain ⟨l, hl⟩ := Extract.walkOf_fields side format
      have hmem := hwritable.mem hw
      obtain ⟨key', -, hpath, j, a, haddress, hseg⟩ := focus_member (hl ▸ hmem)
      have hfield := hkey (fieldOf r.before.1.length r.value w.1) (hfields ▸ List.mem_map_of_mem hmem)
      have hne : key' ≠ key := by
        rintro rfl
        exact hfield hpath
      exact ⟨j, a, haddress, segIndex_ne hne hseg⟩
    rw [readAt_root r', readAt_root r, hvalue, (member_setAll hedits).2]

/-! ## Masking and demasking -/

theorem head_ne_stream {body : Bytes} {found : List ContentField} (hfound : extract side body format = .fields found) :
    ∀ f ∈ found, f.path.head? ≠ some (.key (ascii "stream")) := by
  rcases extract_cases hfound with rfl | ⟨r, -, rfl⟩
  · exact List.forall_mem_nil _
  · refine List.forall_mem_map.mpr fun f hf => ?_
    have hkeys : ∃ l, walkOf side format = fields l ∧ ascii "stream" ∉ l.map Prod.fst := by
      cases side <;> cases format <;> exact ⟨_, rfl, by decide⟩
    obtain ⟨l, hl, hstream⟩ := hkeys
    obtain ⟨key, hkey, hpath, -⟩ := focus_member (hl ▸ hf)
    intro hhead
    obtain rfl := PathSeg.key.inj (Option.some.inj (hpath.symm.trans hhead))
    exact hstream hkey

theorem wantsStream_readAt (body : Bytes) :
    wantsStream body = (readAt body (ascii "stream")).any fun read => truthy read.1 := by
  unfold wantsStream readAt
  cases findValue body [.key (ascii "stream")] <;> rfl

/-- Masking does not change what is read at the members of the root that no field is taken from. The client that wanted
a stream still wants it, and the one that did not still does not. -/
theorem maskBody_frame (env : Env) (hre : InText env.re2) (hsort : SortSpec env.sortMatches) (crs : List CompiledRule)
    (hcompiled : ∀ cr ∈ crs, cr.re.isSome) (opts : MaskOptions) (body : Bytes) (format : ApiFormat) (isResponse : Bool)
    (found : List ContentField) (hfound : extractFields body format isResponse = .ok found)
    (hobjects : isResponse = true → format = .messages → KeepsObjects env crs opts found) :
    ∃ (result : MaskResult) (masked : Bytes),
      maskBody env body format isResponse (crs.map some) opts = .ok ⟨masked, result.state⟩ ∧
      (∀ key, (∀ f ∈ found, f.path.head? ≠ some (.key key)) → readAt masked key = readAt body key) ∧
      wantsStream masked = wantsStream body := by
  obtain ⟨calls, result, hmask, h⟩ := exists_masked hre hsort hcompiled (found.map ContentField.text) opts
  have hextract := extractFields_ok.mp hfound
  have hmay := mayGet_masked hextract hmask h hobjects
  obtain ⟨masked, found', back, hpatched⟩ := exists_patched hextract hmay
  have hsame : ∀ key, (∀ f ∈ found, f.path.head? ≠ some (.key key)) → readAt masked key = readAt body key :=
    fun key => readAt_patch hextract hmay hpatched.splice
  refine ⟨result, masked, ?_, hsame, ?_⟩
  · rw [maskBody_eq hfound hmask h, hpatched.splice]
    rfl
  · rw [wantsStream_readAt, wantsStream_readAt, hsame _ (head_ne_stream hextract)]

/-! ## A request for a stream -/

def streamBody : Bytes := ascii "\x7b\"stream\":\"T\",\"messages\":[\x7b\"content\":\"dear ann\"\x7d]\x7d"

theorem extractFields_stream : extractFields streamBody .chatCompletions false =
    .ok [⟨[keySeg "messages", .index 0, keySeg "content"], ⟨37, 47, true⟩, ascii "dear ann", false⟩] := by
  decide +kernel

theorem maskBody_frame_sample : ∃ (result : MaskResult) (masked : Bytes),
    maskBody (sampleEnv annSpelling) streamBody .chatCompletions false (annRegistry.rules.map some) ⟨⟨true, 1⟩, 0⟩ =
      .ok ⟨masked, result.state⟩ ∧ readAt masked (ascii "stream") = some (ascii "\"T\"", true) ∧
    wantsStream masked = true := by
  obtain ⟨result, masked, hmask, hread, hstream⟩ :=
    maskBody_frame (sampleEnv annSpelling) (sampleRe2_inText annSpelling_captures) sampleSort_spec annRegistry.rules
      ann_compiled ⟨⟨true, 1⟩, 0⟩ streamBody .chatCompletions false _ extractFields_stream (fun h => by cases h)
  refine ⟨result, masked, hmask, (hread _ (by decide)).trans ?_, hstream.trans ?_⟩
  · decide +kernel
  · decide +kernel

end LlmGuard.Pipeline
