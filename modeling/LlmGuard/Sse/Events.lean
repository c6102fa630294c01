import LlmGuard.Sse.Frames

/-!
# Reading back what is emitted

`classify_frame` and `split_frames` are the inverse of `build_event_frame`, on payloads that one `data:`
line can hold.
-/

namespace LlmGuard.Sse

open Frames (Frame framed_of_frames)

variable {p line : Bytes}

/-- A payload of one line that reading leaves as it is. -/
structure Payload (p : Bytes) : Prop where
  nonempty : p ≠ []
  line : ch '\n' ∉ p
  trimmed : p.getLast? ≠ some (ch '\r')

instance (p : Bytes) : Decidable (Payload p) :=
  decidable_of_iff (p ≠ [] ∧ ch '\n' ∉ p ∧ p.getLast? ≠ some (ch '\r'))
    ⟨fun ⟨h₁, h₂, h₃⟩ => ⟨h₁, h₂, h₃⟩, fun ⟨h₁, h₂, h₃⟩ => ⟨h₁, h₂, h₃⟩⟩

theorem payload_done : Payload kDoneSentinel := by decide

/-! ## The emitted frame is one frame -/

theorem not_mem_dataPrefix : ch '\n' ∉ kDataPrefix := by decide

theorem not_sep_of_count {s : Bytes} (h : s.count (ch '\n') ≤ 1) : ∀ sep ∈ separators, ¬ sep <:+: s := by
  intro sep hsep hinf
  have hle := hinf.sublist.count_le (ch '\n')
  have htwo : sep.count (ch '\n') = 2 := by
    simp only [separators, List.mem_cons, List.not_mem_nil, or_false] at hsep
    rcases hsep with rfl | rfl <;> rfl
  omega

theorem buildEventFrame_dropLast (p : Bytes) :
    (buildEventFrame p).dropLast = kDataPrefix ++ p ++ [ch '\n'] := by
  unfold buildEventFrame
  rw [List.dropLast_append_of_ne_nil (by simp)]
  rfl

theorem frame_buildEventFrame (h : ch '\n' ∉ p) : Frame EndsInSeparator (buildEventFrame p) := by
  rw [frame_iff]
  refine ⟨⟨kFrameSepLF, by decide, kDataPrefix ++ p, rfl⟩, not_sep_of_count ?_⟩
  rw [buildEventFrame_dropLast, List.count_append, List.count_append,
    List.count_eq_zero.mpr not_mem_dataPrefix, List.count_eq_zero.mpr h]
  decide

/-! ## Reading it -/

theorem nextLine_append (h : ch '\n' ∉ line) (rest : Bytes) :
    nextLine (line ++ ch '\n' :: rest) = (line, rest) := by
  have hidx : (line ++ ch '\n' :: rest).findIdx? (· = ch '\n') = some line.length := by
    rw [List.findIdx?_append, List.findIdx?_eq_none_iff.mpr]
    · simp [List.findIdx?_cons]
    · intro b hb
      simpa using ne_of_mem_of_not_mem hb h
  unfold nextLine
  rw [hidx]
  simp

theorem trimTrailingCr_eq (h : line.getLast? ≠ some (ch '\r')) : trimTrailingCr line = line := by
  unfold trimTrailingCr
  rw [if_neg h]

theorem linePayload_dataPrefix (p : Bytes) : linePayload (kDataPrefix ++ p) = p := by
  simp [linePayload, kDataPrefix, kDataLinePrefix, ascii, ch]

theorem take_dataPrefix (p : Bytes) : (kDataPrefix ++ p).take kDataLinePrefix.length = kDataLinePrefix := by
  simp [kDataPrefix, kDataLinePrefix, ascii, ch]

theorem classifyLines_nil (raw data : Bytes) (haveData : Bool) :
    classifyLines raw haveData data [] = ⟨if data = [] then .passthrough else .event, data, raw⟩ := by
  rw [classifyLines, dif_pos rfl]

theorem classifyLines_lf (raw data : Bytes) (haveData : Bool) :
    classifyLines raw haveData data [ch '\n'] = classifyLines raw haveData data [] := by
  have hline : nextLine [ch '\n'] = ([], []) := nextLine_append List.not_mem_nil []
  rw [classifyLines, dif_neg (by simp)]
  simp only [hline]
  rw [if_pos (by decide)]

theorem classifyLines_data (h : Payload p) (raw : Bytes) :
    classifyLines raw false [] (kDataPrefix ++ p ++ [ch '\n', ch '\n']) =
      if p = kDoneSentinel then ⟨.done, [], raw⟩ else classifyLines raw true p [ch '\n'] := by
  have hmem : ch '\n' ∉ kDataPrefix ++ p := by
    rw [List.mem_append, not_or]
    exact ⟨not_mem_dataPrefix, h.line⟩
  have hlast : (kDataPrefix ++ p).getLast? ≠ some (ch '\r') := by
    rw [List.getLast?_append_of_ne_nil _ h.nonempty]
    exact h.trimmed
  rw [classifyLines, dif_neg (by simp)]
  simp only [nextLine_append hmem, trimTrailingCr_eq hlast, linePayload_dataPrefix, take_dataPrefix]
  rw [if_neg (by simp [kDataPrefix, ascii]), if_neg (by simp)]
  simp

/-- What a caller reads of an emitted frame. -/
theorem classifyFrame_buildEventFrame (h : Payload p) :
    classifyFrame (buildEventFrame p) =
      if p = kDoneSentinel then ⟨.done, [], buildEventFrame p⟩ else ⟨.event, p, buildEventFrame p⟩ := by
  unfold classifyFrame
  rw [show buildEventFrame p = kDataPrefix ++ p ++ [ch '\n', ch '\n'] from rfl, classifyLines_data h]
  split
  · rfl
  · rw [classifyLines_lf, classifyLines_nil, if_neg h.nonempty]

/-! ## A whole stream -/

/-- The frame of an event, and `none` for the sentinel. -/
def buildFrame : Option Bytes → Bytes
  | some p => buildEventFrame p
  | none => buildEventFrame kDoneSentinel

/-- How that frame is to be read. -/
def readBack : Option Bytes → ClassifiedFrame
  | some p => ⟨.event, p, buildEventFrame p⟩
  | none => ⟨.done, [], buildEventFrame kDoneSentinel⟩

theorem classify_buildFrame {item : Option Bytes} (h : ∀ p, item = some p → Payload p ∧ p ≠ kDoneSentinel) :
    classifyFrame (buildFrame item) = readBack item := by
  cases item with
  | none =>
    unfold buildFrame readBack
    rw [classifyFrame_buildEventFrame payload_done, if_pos rfl]
  | some p =>
    obtain ⟨hp, hdone⟩ := h p rfl
    unfold buildFrame readBack
    rw [classifyFrame_buildEventFrame hp, if_neg hdone]

/-- **Emitting and reading are inverse.** A stream of payloads with sentinels anywhere between them is split
into its own frames; each payload comes back as it was, and each sentinel as one `Done`. -/
theorem events_round_trip (items : List (Option Bytes))
    (hpayloads : ∀ p, some p ∈ items → Payload p ∧ p ≠ kDoneSentinel) :
    splitFrames (items.map buildFrame).flatten = ⟨items.map buildFrame, []⟩ ∧
      (items.map buildFrame).map classifyFrame = items.map readBack := by
  have hitem : ∀ item ∈ items, ∀ p, item = some p → Payload p ∧ p ≠ kDoneSentinel := by
    rintro item hmem p rfl
    exact hpayloads p hmem
  have hframes : ∀ f ∈ items.map buildFrame, Frame EndsInSeparator f := by
    intro f hf
    obtain ⟨item, hmem, rfl⟩ := List.mem_map.mp hf
    cases item with
    | none => exact frame_buildEventFrame payload_done.line
    | some p => exact frame_buildEventFrame (hitem _ hmem p rfl).1.line
  constructor
  · obtain ⟨hsame, htail⟩ := (splitFrames_framed _).unique (framed_of_frames not_endsInSeparator_nil hframes)
    exact FrameSplit.ext hsame htail
  · rw [List.map_map]
    exact List.map_congr_left fun item hmem => classify_buildFrame (hitem item hmem)

/-- Payloads that look like framing themselves. -/
def lookAlikeItems : List (Option Bytes) := [some (ascii "  data: \r x"), none, some (ascii "data:[DONE]")]

theorem events_round_trip_sample :
    (∀ p, some p ∈ lookAlikeItems → Payload p ∧ p ≠ kDoneSentinel) ∧
      splitFrames (lookAlikeItems.map buildFrame).flatten = ⟨lookAlikeItems.map buildFrame, []⟩ := by
  have h : ∀ p, some p ∈ lookAlikeItems → Payload p ∧ p ≠ kDoneSentinel := by
    simp only [lookAlikeItems, List.mem_cons, Option.some.injEq, reduceCtorEq, List.not_mem_nil, or_false, false_or]
    rintro p (rfl | rfl) <;> decide
  exact ⟨h, (events_round_trip lookAlikeItems h).1⟩

end LlmGuard.Sse
