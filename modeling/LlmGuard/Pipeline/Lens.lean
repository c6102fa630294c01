import LlmGuard.Code.Pipeline
import LlmGuard.Extract.Patch
import LlmGuard.Lib.JsonWrites

/-!
# Patching the fields that change

The pipeline leaves a field alone when its text stays. So only some of the extracted places are written.
-/

namespace LlmGuard.Pipeline

open Rfc8259 (Value Place Apart)
open Extract
open Json (ValueSpan Root editAt placeSpan)

/-- The entries whose text changes. -/
def changed {α : Type} : List α → List Bytes → List Bytes → List α
  | a :: as, old :: olds, new :: news => if new = old then changed as olds news else a :: changed as olds news
  | _, _, _ => []

theorem changed_swap {α : Type} (as : List α) (olds news : List Bytes) : changed as olds news = changed as news olds := by
  induction as generalizing olds news with
  | nil => rfl
  | cons a as ih =>
    cases olds with
    | nil => cases news <;> rfl
    | cons old olds =>
      cases news with
      | nil => rfl
      | cons new news => simp only [changed, ih olds news, eq_comm (a := new)]

theorem changed_sublist {α : Type} (as : List α) (olds news : List Bytes) : (changed as olds news).Sublist as := by
  induction as generalizing olds news with
  | nil => exact List.Sublist.refl _
  | cons a as ih =>
    cases olds with
    | nil => exact List.nil_sublist _
    | cons old olds =>
      cases news with
      | nil => exact List.nil_sublist _
      | cons new news =>
        unfold changed
        split
        · exact (ih olds news).cons _
        · exact (ih olds news).cons_cons _

/-- A text that a field may get: the one it has, or one that it can have. -/
def MayGet (f : ContentField) (text : Bytes) : Prop := text = f.text ∨ f.Takes text

abbrev Write := Focus × Value

def Write.edit (e : Write) : List Nat × Value := (e.1.address, e.2)

/-! ## Writes into the tree -/

section

variable {base : Nat} {v : Value} {foci : List Focus} {texts : List Bytes} {writes : List Write}

/-- A focus is written with a value of its text, or lies apart from all that is written. -/
def Gets (base : Nat) (v : Value) (writes : List Write) (f : Focus) (text : Bytes) : Prop :=
  (∃ x, (f, x) ∈ writes ∧ Becomes f text x) ∨
    text = (fieldOf base v f).text ∧ ∀ e ∈ writes, Apart f.address e.1.address

theorem Gets.cons {f g : Focus} {text : Bytes} {x : Value} (hapart : Apart f.address g.address)
    (h : Gets base v writes g text) : Gets base v ((f, x) :: writes) g text := by
  rcases h with ⟨y, hy, hbecomes⟩ | ⟨htext, hothers⟩
  · exact .inl ⟨y, List.mem_cons_of_mem _ hy, hbecomes⟩
  · exact .inr ⟨htext, List.forall_mem_cons.mpr ⟨Or.symm hapart, hothers⟩⟩

theorem exists_writes (hapart : foci.Pairwise fun f g => Apart f.address g.address)
    (h : List.Forall₂ (fun f text => MayGet (fieldOf base v f) text) foci texts) :
    ∃ writes : List Write,
      writes.map Prod.fst = changed foci (foci.map fun f => (fieldOf base v f).text) texts ∧
      (∀ e ∈ writes, ∃ text, (e.1, text) ∈ foci.zip texts ∧ Becomes e.1 text e.2) ∧
      fieldEdits (foci.map (fieldOf base v)) texts = (writes.map Write.edit).map (editAt base v) ∧
      List.Forall₂ (Gets base v writes) foci texts := by
  induction h with
  | nil => exact ⟨[], rfl, by simp, rfl, .nil⟩
  | @cons f text foci texts hmay hrest ih =>
    obtain ⟨hfirst, hothers⟩ := List.pairwise_cons.mp hapart
    obtain ⟨writes, hfoci, hbecomes, hedits, hgets⟩ := ih hothers
    have hmem : ∀ e ∈ writes, e.1 ∈ foci := fun e he =>
      (changed_sublist _ _ _).subset (hfoci ▸ List.mem_map_of_mem he)
    have hlater : ∀ e ∈ writes, ∃ t, (e.1, t) ∈ (f :: foci).zip (text :: texts) ∧ Becomes e.1 t e.2 := fun e he =>
      (hbecomes e he).imp fun t ht => ⟨List.mem_cons_of_mem _ ht.1, ht.2⟩
    by_cases hsame : text = (fieldOf base v f).text
    · refine ⟨writes, ?_, hlater, ?_, .cons (.inr ⟨hsame, fun e he => hfirst _ (hmem e he)⟩) hgets⟩
      · rw [hfoci, List.map_cons, changed, if_pos hsame]
      · rw [List.map_cons, fieldEdits, if_pos hsame, hedits]
    · obtain ⟨x, hx⟩ := exists_becomes (hmay.resolve_left hsame)
      refine ⟨(f, x) :: writes, ?_, List.forall_mem_cons.mpr ⟨⟨text, List.mem_cons_self, hx⟩, hlater⟩, ?_,
        .cons (.inl ⟨x, List.mem_cons_self, hx⟩) ?_⟩
      · rw [List.map_cons, hfoci, List.map_cons, changed, if_neg hsame]
      · rw [List.map_cons, fieldEdits, if_neg hsame, hedits, List.map_cons, List.map_cons]
        congr 1
        unfold fieldReplacement editAt Write.edit
        rw [hx.2.2]
        rfl
      · have hmemApart : List.Forall₂ (fun g text => g ∈ foci ∧ Gets base v writes g text) foci texts :=
          (List.forall₂_and_left _ _).mpr ⟨fun g hg => hg, hgets⟩
        exact hmemApart.imp fun g text hg => hg.2.cons (hfirst g hg.1)

theorem texts_of_gets (base' : Nat) (hplaces : ∀ f ∈ foci, ∃ p, v.place f.address = some p)
    (hapart : (writes.map Write.edit).Pairwise fun e e' => Apart e.1 e'.1)
    (hinside : ∀ e ∈ writes, (v.place e.1.address).isSome)
    (h : List.Forall₂ (Gets base v writes) foci texts) :
    (foci.map (fieldOf base' (v.setAll (writes.map Write.edit)))).map ContentField.text = texts := by
  have hisSome : ∀ e ∈ writes.map Write.edit, (v.place e.1).isSome := List.forall_mem_map.mpr hinside
  induction h with
  | nil => rfl
  | @cons f text foci texts hgets _ ih =>
    rw [List.map_cons, List.map_cons, ih fun g hg => hplaces g (List.mem_cons_of_mem _ hg)]
    congr 1
    rcases hgets with ⟨x, hx, -, htext, -⟩ | ⟨rfl, hothers⟩
    · obtain ⟨q, hq, hvalue⟩ := Value.place_setAll hapart hisSome (List.mem_map_of_mem (f := Write.edit) hx)
      have hq' : (v.setAll (writes.map Write.edit)).place f.address = some q := hq
      rw [fieldOf_place hq']
      simp only [hvalue, Write.edit, htext]
    · obtain ⟨p, hp⟩ := hplaces f List.mem_cons_self
      have hedits : ∀ e ∈ writes.map Write.edit, Apart f.address e.1 := List.forall_mem_map.mpr hothers
      obtain ⟨q, hq, hvalue⟩ := Value.place_setAll_apart hedits hp
      rw [fieldOf_place hq, fieldOf_place hp]
      simp only [hvalue]

end

/-! ## Writes into a document -/

section

variable {doc : Bytes} (r : Root doc) (side : Side) (format : ApiFormat) {writes : List Write}

/-- Writes to some of the places that a walk picks. -/
structure Writable (writes : List Write) : Prop where
  picked : (writes.map Prod.fst).Sublist (walkOf side format r.value)
  becomes : ∀ e ∈ writes, ∃ text, Becomes e.1 text e.2

variable {r side format}

theorem Writable.mem (h : Writable r side format writes) {e : Write} (he : e ∈ writes) :
    e.1 ∈ walkOf side format r.value := h.picked.subset (List.mem_map_of_mem he)

theorem Writable.fits (h : Writable r side format writes) {e : Write} (he : e ∈ writes) : Fits e.1.raw e.2 := by
  obtain ⟨text, hx⟩ := h.becomes e he
  exact hx.1

theorem Writable.apart (h : Writable r side format writes) :
    (writes.map Write.edit).Pairwise fun e e' => Apart e.1 e'.1 := by
  have hpicked := ((lawful_walkOf side format).apart r.value).sublist h.picked
  rw [List.pairwise_map] at hpicked
  exact List.pairwise_map.mpr hpicked

theorem Writable.place (h : Writable r side format writes) {e : Write} (he : e ∈ writes) :
    (r.value.place e.1.address).isSome := by
  obtain ⟨p, hp, -⟩ := (lawful_walkOf side format).fits _ _ (h.mem he)
  rw [hp, Option.isSome_some]

theorem Writable.splice (h : Writable r side format writes) (hcovers : Covers side format r.value) :
    ∃ (out : Bytes) (r' : Root out),
      Json.spliceAll doc ((writes.map Write.edit).map (editAt r.before.1.length r.value)) = .ok out ∧
      r'.before = r.before ∧ r'.post = r.post ∧ r'.value = r.value.setAll (writes.map Write.edit) ∧
      Covers side format r'.value ∧ walkOf side format r'.value = walkOf side format r.value := by
  have hlawful := lawful_walkOf side format
  have hwrites : ∀ e ∈ writes.map Write.edit, Extract.Writes (walkOf side format) r.value e :=
    List.forall_mem_map.mpr fun e he => ⟨e.1, h.mem he, rfl, h.fits he⟩
  obtain ⟨order, out, r', hperm, hout, hbefore, hpost, hvalue⟩ := r.spliceAll_setAll h.apart
    (List.forall_mem_map.mpr fun e he => h.place he)
    (List.forall_mem_map.mpr fun e he => ⟨address_walkOf (h.mem he), closed_of_fits (h.fits he)⟩)
  obtain ⟨hsame, hcovers'⟩ := hlawful.setAll (P := Covers side format) hcovers
    (fun v hv e he => by
      obtain ⟨f, hf, hfe, -⟩ := he
      rw [← hfe]
      exact covers_set hv hf e.2) hwrites
  have hnormal : r'.value = r.value.setAll (writes.map Write.edit) :=
    hvalue.trans (Value.setAll_perm hperm.symm h.apart).symm
  rw [← hnormal] at hsame hcovers'
  exact ⟨out, r', hout, hbefore, hpost, hnormal, hcovers', hsame⟩

theorem root_unique {out out' : Bytes} (r : Root out) (r' : Root out') (hbefore : r.before = r'.before)
    (hpost : r.post = r'.post) (hvalue : r.value = r'.value) : out = out' := by
  have hitems : r.items = r'.items := by
    unfold Root.value at hvalue
    exact eq_of_heq (Value.group.inj hvalue).2
  rw [r.eq, r'.eq, hbefore, hpost, hitems]

/-- The fields of a document with a root get new texts. -/
theorem root_patch {found : List ContentField} (hfound : extract side doc format = .fields found) {texts : List Bytes}
    (htexts : List.Forall₂ MayGet found texts) :
    ∃ (writes : List Write) (out : Bytes) (r' : Root out), Writable r side format writes ∧
      writes.map Prod.fst = changed (walkOf side format r.value) (found.map ContentField.text) texts ∧
      (∀ e ∈ writes, ∃ text, (e.1, text) ∈ (walkOf side format r.value).zip texts ∧ Becomes e.1 text e.2) ∧
      Json.spliceAll doc (fieldEdits found texts) = .ok out ∧
      r'.before = r.before ∧ r'.post = r.post ∧ r'.value = r.value.setAll (writes.map Write.edit) ∧
      Covers side format r'.value ∧ walkOf side format r'.value = walkOf side format r.value ∧
      ((walkOf side format r'.value).map (fieldOf r'.before.1.length r'.value)).map ContentField.text = texts := by
  obtain ⟨hcovers, rfl⟩ := (Root.extract_iff r side format).mp hfound
  have hlawful := lawful_walkOf side format
  obtain ⟨writes, hfoci, hbecomes, hedits, hgets⟩ :=
    exists_writes (hlawful.apart r.value) (List.forall₂_map_left_iff.mp htexts)
  have hwritable : Writable r side format writes :=
    ⟨hfoci ▸ changed_sublist _ _ _, fun e he => (hbecomes e he).imp fun _ ht => ht.2⟩
  obtain ⟨out, r', hout, hbefore, hpost, hvalue, hcovers', hsame⟩ := hwritable.splice hcovers
  refine ⟨writes, out, r', hwritable, by rw [hfoci, List.map_map]; rfl, hbecomes, hedits ▸ hout, hbefore, hpost, hvalue,
    hcovers', hsame, ?_⟩
  rw [hsame, hvalue]
  refine texts_of_gets _ (fun f hf => ?_) hwritable.apart (fun e he => hwritable.place he) hgets
  obtain ⟨p, hp, -⟩ := hlawful.fits _ f hf
  exact ⟨p, hp⟩

end

end LlmGuard.Pipeline
