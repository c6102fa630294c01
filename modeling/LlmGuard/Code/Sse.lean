import LlmGuard.Spec.Bytes

/-!
# SSE frames

`sse/Common.hpp`: cutting a stream into frames, reading and writing one frame, and watching for the end of a JSON
object.
-/

namespace LlmGuard.Sse

def kFrameSepLF : Bytes := [ch '\n', ch '\n']

def kFrameSepCRLF : Bytes := [ch '\r', ch '\n', ch '\r', ch '\n']

def kDataLinePrefix : Bytes := ascii "data:"

def kDoneSentinel : Bytes := ascii "[DONE]"

def kDataPrefix : Bytes := ascii "data: "

/-- `s.find(needle)`, where `none` is `npos`. -/
def find (needle : Bytes) : Bytes → Option Nat
  | [] => if needle = [] then some 0 else none
  | b :: s => if needle.isPrefixOf (b :: s) then some 0 else (find needle s).map (· + 1)

/-! ## `split_frames` -/

structure FoundSeparator where
  sep : Bytes
  idx : Option Nat

/-- `crlf_idx != npos && (lf_idx == npos || crlf_idx < lf_idx)`. -/
def crlfFirst (crlfIdx lfIdx : Option Nat) : Bool :=
  match crlfIdx, lfIdx with
  | none, _ => false
  | some _, none => true
  | some crlf, some lf => crlf < lf

def findFrameSeparator (data : Bytes) : FoundSeparator :=
  let lfIdx := find kFrameSepLF data
  let crlfIdx := find kFrameSepCRLF data
  if crlfFirst crlfIdx lfIdx then ⟨kFrameSepCRLF, crlfIdx⟩ else ⟨kFrameSepLF, lfIdx⟩

@[ext] structure FrameSplit where
  frames : List Bytes
  tail : Bytes
deriving DecidableEq

theorem findFrameSeparator_sep (data : Bytes) :
    (findFrameSeparator data).sep = kFrameSepLF ∨ (findFrameSeparator data).sep = kFrameSepCRLF := by
  unfold findFrameSeparator
  dsimp only
  split
  · exact .inr rfl
  · exact .inl rfl

theorem findFrameSeparator_pos (data : Bytes) : 0 < (findFrameSeparator data).sep.length := by
  rcases findFrameSeparator_sep data with h | h <;> rw [h] <;> decide

def splitFrames (buf : Bytes) : FrameSplit :=
  if _h : buf = [] then ⟨[], buf⟩
  else
    let found := findFrameSeparator buf
    match found.idx with
    | none => ⟨[], buf⟩
    | some idx =>
      let stop := idx + found.sep.length
      let rest := splitFrames (buf.drop stop)
      ⟨buf.take stop :: rest.frames, rest.tail⟩
termination_by buf.length
decreasing_by
  have hbuf := List.length_pos_iff.mpr ‹_›
  have hsep := findFrameSeparator_pos buf
  simp only [List.length_drop]
  omega

/-! ## `classify_frame` -/

/-- The next line without its `'\n'`, and what is behind it. -/
def nextLine (buf : Bytes) : Bytes × Bytes :=
  match buf.findIdx? (· = ch '\n') with
  | none => (buf, [])
  | some idx => (buf.take idx, buf.drop (idx + 1))

theorem nextLine_length (buf : Bytes) (h : buf ≠ []) : (nextLine buf).2.length < buf.length := by
  have hbuf := List.length_pos_iff.mpr h
  unfold nextLine
  split
  · exact hbuf
  · simp only [List.length_drop]
    omega

def trimTrailingCr (line : Bytes) : Bytes :=
  if line.getLast? = some (ch '\r') then line.dropLast else line

inductive FrameKind
  | event
  | done
  | passthrough
deriving DecidableEq

structure ClassifiedFrame where
  kind : FrameKind
  data : Bytes
  raw : Bytes
deriving DecidableEq

/-- The payload of a line that begins with `data:`, less one leading space. -/
def linePayload (trimmed : Bytes) : Bytes :=
  let payload := trimmed.drop kDataLinePrefix.length
  if payload.head? = some (ch ' ') then payload.drop 1 else payload

/-- The lines still to read, with `have_data` and the `data` joined so far. -/
def classifyLines (raw : Bytes) (haveData : Bool) (data rest : Bytes) : ClassifiedFrame :=
  if h : rest = [] then ⟨if data = [] then .passthrough else .event, data, raw⟩
  else
    have := nextLine_length rest h
    let trimmed := trimTrailingCr (nextLine rest).1
    if trimmed = [] then classifyLines raw haveData data (nextLine rest).2
    else if trimmed.take kDataLinePrefix.length ≠ kDataLinePrefix then
      classifyLines raw haveData data (nextLine rest).2
    else
      let payload := linePayload trimmed
      -- What was joined before the sentinel stays in `data`, and the caller does not look at it.
      if payload = kDoneSentinel then ⟨.done, data, raw⟩
      else if !haveData then classifyLines raw true payload (nextLine rest).2
      else classifyLines raw true (data ++ [ch '\n'] ++ payload) (nextLine rest).2
termination_by rest.length

def classifyFrame (frame : Bytes) : ClassifiedFrame := classifyLines frame false [] frame

def buildEventFrame (data : Bytes) : Bytes := kDataPrefix ++ data ++ [ch '\n', ch '\n']

/-! ## `JsonCloseTracker` -/

/-- An `int` has 32 bits. -/
def int32 (n : Int) : Int := n.bmod (2 ^ 32)

structure JsonCloseTracker where
  depth : Int := 0
  inString : Bool := false
  escaped : Bool := false
  opened : Bool := false
  closed : Bool := false
deriving DecidableEq

/-- One round of the loop in `feed`. -/
def JsonCloseTracker.feedByte (t : JsonCloseTracker) (c : Byte) : JsonCloseTracker :=
  if t.escaped then { t with escaped := false }
  else if c = ch '\\' then { t with escaped := true }
  else if c = ch '"' then { t with inString := !t.inString }
  else if t.inString then t
  else if c = ch '\x7b' then { t with depth := int32 (t.depth + 1), opened := true }
  else if c = ch '\x7d' then
    let depth := int32 (t.depth - 1)
    { t with depth := depth, closed := t.closed || (t.opened && depth = 0) }
  else t

def JsonCloseTracker.feed (t : JsonCloseTracker) (fragment : Bytes) : JsonCloseTracker :=
  fragment.foldl JsonCloseTracker.feedByte t

def JsonCloseTracker.reset (_ : JsonCloseTracker) : JsonCloseTracker := {}

end LlmGuard.Sse
