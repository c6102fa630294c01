import Mathlib.Data.List.Basic
import Mathlib.Data.List.Infix

/-!
# Frames of a stream

A frame is over as soon as it ends in a separator. The frames of a stream are cut off its front one by one,
and what is left has no separator yet. More bytes add frames and change none.
-/

namespace Frames

variable {α : Type}

/-- No front of the text ends in a separator. -/
def Open (Ends : List α → Prop) (s : List α) : Prop := ∀ p, p <+: s → ¬ Ends p

/-- The text ends in a separator, and no shorter front of it does. -/
structure Frame (Ends : List α → Prop) (f : List α) : Prop where
  ends : Ends f
  first : ∀ p, p <+: f → p.length < f.length → ¬ Ends p

/-- The text is these frames and this tail. -/
inductive Framed (Ends : List α → Prop) : List α → List (List α) → List α → Prop
  | tail {s : List α} (h : Open Ends s) : Framed Ends s [] s
  | frame {f s t : List α} {fs : List (List α)} (hf : Frame Ends f) (h : Framed Ends s fs t) :
      Framed Ends (f ++ s) (f :: fs) t

variable {Ends : List α → Prop} {f s t u v : List α} {fs gs : List (List α)}

/-! ## The parts of a framed text -/

theorem Framed.flatten (h : Framed Ends s fs t) : fs.flatten ++ t = s := by
  induction h with
  | tail => rw [List.flatten_nil, List.nil_append]
  | frame _ _ ih => rw [List.flatten_cons, List.append_assoc, ih]

theorem Framed.tail_open (h : Framed Ends s fs t) : Open Ends t := by
  induction h with
  | tail h => exact h
  | frame _ _ ih => exact ih

theorem Framed.frames (h : Framed Ends s fs t) : ∀ f ∈ fs, Frame Ends f := by
  induction h with
  | tail => simp
  | frame hf _ ih =>
    intro g hg
    rcases List.mem_cons.mp hg with rfl | hg
    · exact hf
    · exact ih g hg

theorem framed_of_frames (hnil : ¬ Ends []) (h : ∀ f ∈ fs, Frame Ends f) : Framed Ends fs.flatten fs [] := by
  induction fs with
  | nil =>
    refine .tail fun p hp => ?_
    rwa [List.prefix_nil.mp hp]
  | cons f fs ih =>
    rw [List.flatten_cons]
    exact .frame (h f List.mem_cons_self) (ih fun g hg => h g (List.mem_cons_of_mem f hg))

/-! ## One framing only -/

theorem Frame.unique {g : List α} (hf : Frame Ends f) (hg : Frame Ends g) (h : f ++ s = g ++ t) : f = g := by
  have hfront : f <+: f ++ s := List.prefix_append f s
  have hgfront : g <+: f ++ s := h ▸ List.prefix_append g t
  rcases Nat.lt_trichotomy f.length g.length with hlt | heq | hgt
  · exact absurd hf.ends (hg.first f (List.prefix_of_prefix_length_le hfront hgfront hlt.le) hlt)
  · exact (List.prefix_of_prefix_length_le hfront hgfront heq.le).eq_of_length heq
  · exact absurd hg.ends (hf.first g (List.prefix_of_prefix_length_le hgfront hfront hgt.le) hgt)

theorem Framed.unique (h : Framed Ends s fs t) (h' : Framed Ends s gs u) : fs = gs ∧ t = u := by
  induction h generalizing gs u with
  | tail hopen =>
    cases h' with
    | tail => exact ⟨rfl, rfl⟩
    | frame hf => exact absurd hf.ends (hopen _ (List.prefix_append _ _))
  | @frame f s fs t hf h ih =>
    generalize hwhole : f ++ s = whole at h'
    cases h' with
    | tail hopen => exact absurd hf.ends (hopen f ⟨s, hwhole⟩)
    | @frame g s' gs u hg h' =>
      obtain rfl := hf.unique hg hwhole
      obtain rfl := List.append_cancel_left hwhole
      obtain ⟨rfl, rfl⟩ := ih h'
      exact ⟨rfl, rfl⟩

/-! ## More bytes -/

/-- What arrives later is cut together with the tail, and leaves the frames as they are. -/
theorem Framed.append (h : Framed Ends s fs t) (h' : Framed Ends (t ++ u) gs v) :
    Framed Ends (s ++ u) (fs ++ gs) v := by
  induction h with
  | tail => exact h'
  | frame hf _ ih =>
    rw [List.append_assoc, List.cons_append]
    exact .frame hf (ih h')

/-- Cutting chunk by chunk, with the tail carried on. -/
def feed (split : List α → List (List α) × List α) : List α → List (List α) → List (List α) × List α
  | tail, [] => ([], tail)
  | tail, chunk :: chunks =>
    let now := split (tail ++ chunk)
    let later := feed split now.2 chunks
    (now.1 ++ later.1, later.2)

/-- The chunks of a stream may be cut anywhere. -/
theorem framed_feed {split : List α → List (List α) × List α}
    (hsplit : ∀ s, Framed Ends s (split s).1 (split s).2) (tail : List α) (hopen : Open Ends tail)
    (chunks : List (List α)) :
    Framed Ends (tail ++ chunks.flatten) (feed split tail chunks).1 (feed split tail chunks).2 := by
  induction chunks generalizing tail with
  | nil =>
    rw [List.flatten_nil, List.append_nil]
    exact .tail hopen
  | cons chunk chunks ih =>
    have hnow := hsplit (tail ++ chunk)
    rw [List.flatten_cons, ← List.append_assoc]
    exact hnow.append (ih _ hnow.tail_open)

end Frames
