import LlmGuard.Spec.Bytes

/-!
# Paths for metrics and logs

`RequestUtils.hpp`: `normalize_path_for_metrics` and the tests of one segment that it uses.
-/

namespace LlmGuard.Api

def isXdigit (b : Byte) : Bool :=
  isDigit b || (ch 'a' ≤ b && b ≤ ch 'f') || (ch 'A' ≤ b && b ≤ ch 'F')

/-- Where a UUID has its hyphens. -/
def hyphenAt (i : Nat) : Bool := i == 8 || i == 13 || i == 18 || i == 23

def isUuidSegment (s : Bytes) : Bool :=
  s.length == 36 && s.zipIdx.all fun e => if hyphenAt e.2 then e.1 = ch '-' else isXdigit e.1

/-- The loop that skips slashes and cuts a segment up to the next one. -/
def segments (path : Bytes) : List Bytes :=
  match path with
  | [] => []
  | c :: rest =>
    if c = ch '/' then segments rest
    else (c :: rest.takeWhile (· ≠ ch '/')) :: segments (rest.dropWhile (· ≠ ch '/'))
termination_by path.length
decreasing_by
  · simp
  · have := (List.dropWhile_sublist (· ≠ ch '/') (l := rest)).length_le
    simp only [List.length_cons]
    omega

def isVersionSeg (s : Bytes) : Bool := !decide (s.length < 2) && s.head? = some (ch 'v') && (s.drop 1).all isDigit

/-- The index of `<resource>` after `/api[/vN]`. -/
def base (segs : List Bytes) : Nat := if segs[1]?.any isVersionSeg then 2 else 1

/-- The endpoints that a token is put behind. -/
def tokenVerbs : List Bytes := [ascii "confirm", ascii "reset-password", ascii "change-email", ascii "join-from-invite"]

def accountTokenRoute (segs : List Bytes) : Bool :=
  segs.length == base segs + 3 && segs[0]?.any (· == ascii "api") && segs[base segs]?.any (· == ascii "account") &&
    segs[base segs + 1]?.any tokenVerbs.contains

def isIdSegment (s : Bytes) : Bool := (!s.isEmpty && s.all isDigit) || isUuidSegment s

def rewriteSegment (segs : List Bytes) (k : Nat) (s : Bytes) : Bytes :=
  if accountTokenRoute segs && k == base segs + 2 then ascii ":token"
  else if isIdSegment s then ascii ":id"
  else s

/-- Each segment behind a slash. -/
def joinSegments (segs : List Bytes) : Bytes := segs.flatMap (ch '/' :: ·)

def normalizePathForMetrics (path : Bytes) : Bytes :=
  let segs := segments path
  let out := joinSegments (segs.mapIdx (rewriteSegment segs))
  if out = [] then ascii "/" else out

end LlmGuard.Api
