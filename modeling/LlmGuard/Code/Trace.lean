import LlmGuard.Code.JsonString
import LlmGuard.Code.Unicode

/-!
# `observability/Trace.hpp`

The trace context of a request, from the header that comes in to the log lines and the headers that go out: with the
flags of the log pattern of `Observability.hpp` and the tracing advices of `Middleware.hpp`.
-/

namespace LlmGuard.Trace

structure TraceContext where
  traceId : Bytes
  parentId : Bytes
  flags : Bytes
deriving DecidableEq, Repr

def isHexLower (c : Byte) : Bool := (ch '0' ≤ c && c ≤ ch '9') || (ch 'a' ≤ c && c ≤ ch 'f')

def isHexString (s : Bytes) (expectedLen : Nat) : Bool := s.length = expectedLen && s.all isHexLower

def isAllZeroHex (s : Bytes) : Bool := s.all (· = ch '0') && !s.isEmpty

def toHex (bytes : Bytes) : Bytes :=
  bytes.flatMap fun b => [Json.hexDigit (b.toNat / 16), Json.hexDigit (b.toNat % 16)]

/-- The loop over the dashes gives up at a fifth part. -/
def parseTraceparent (header : Bytes) : Option TraceContext :=
  match (header.map asciiToLower).splitOn (ch '-') with
  | [version, traceId, parentId, flags] =>
    if version ≠ ascii "00" then none
    else if !isHexString traceId 32 then none
    else if !isHexString parentId 16 then none
    else if !isHexString flags 2 then none
    else if isAllZeroHex traceId || isAllZeroHex parentId then none
    else some ⟨traceId, parentId, flags⟩
  | _ => none

def formatTraceparent (ctx : TraceContext) : Bytes :=
  ascii "00-" ++ ctx.traceId ++ ascii "-" ++ ctx.parentId ++ ascii "-" ++ ctx.flags

/-! ## Fresh ids -/

/-- The words that the generator of a thread gives, one after the other. -/
abbrev Rng := Nat → UInt64

/-- The bytes of a word, the low one first. -/
def wordBytes (v : UInt64) : Bytes := (List.range 8).map fun j => Json.byteOf (v.toNat / 256 ^ j)

/-- The hex digits, and how many words are drawn then. -/
def randomHex (rng : Rng) (drawn byteCount : Nat) : Bytes × Nat :=
  let words := (byteCount + 7) / 8
  (toHex (((List.range words).flatMap fun i => wordBytes (rng (drawn + i))).take byteCount), drawn + words)

def generateContext (rng : Rng) (drawn : Nat) : TraceContext × Nat :=
  let (traceId, drawn) := randomHex rng drawn 16
  let (parentId, drawn) := randomHex rng drawn 8
  (⟨traceId, parentId, ascii "01"⟩, drawn)

/-! ## The flags of the log pattern -/

/-- `JsonEscapedMessageFlag`, for one byte. -/
def escapeByte (c : Byte) : Bytes :=
  if c = ch '"' then ascii "\\\""
  else if c = ch '\\' then ascii "\\\\"
  else if c = 10 then ascii "\\n"
  else if c = 13 then ascii "\\r"
  else if c = 9 then ascii "\\t"
  else if c = 8 then ascii "\\b"
  else if c = 12 then ascii "\\f"
  else if c < 0x20 then ascii "\\u00" ++ [Json.hexDigit (c.toNat / 16), Json.hexDigit (c.toNat % 16)]
  else [c]

def escapedMessage (payload : Bytes) : Bytes := payload.flatMap escapeByte

/-- `TraceIdFlag`: what stands between the first two dashes. -/
def traceIdFlag (traceparent : Bytes) : Bytes :=
  match traceparent.dropWhile (· ≠ ch '-') with
  | [] => []
  | _ :: rest => if rest.contains (ch '-') then rest.takeWhile (· ≠ ch '-') else []

/-- What spdlog writes into a line for each flag of its own: the time, the level, the name of the logger, the thread. -/
structure LineMeta where
  flag : Byte → Bytes

/-- The flags of a line, with the two that `Logger::initialize` adds. -/
def LineMeta.write (m : LineMeta) (traceId payload : Bytes) (f : Byte) : Bytes :=
  if f = ch '*' then escapedMessage payload else if f = ch '@' then traceId else m.flag f

/-- `spdlog::pattern_formatter`: what it makes of a pattern, up to the end of the line, with these texts for the
flags. -/
abbrev PatternFormatter := (Byte → Bytes) → Bytes → Bytes

/-- The pattern of `Logger::initialize` with `format` set to `json`. -/
def jsonPattern (serviceName : Bytes) : Bytes :=
  ascii "\x7b\"ts\":\"%Y-%m-%dT%H:%M:%S.%e%z\",\"level\":\"%l\",\"logger\":\"%n\"" ++
    (if serviceName.isEmpty then [] else ascii ",\"service\":\"" ++ serviceName ++ ascii "\"") ++
    ascii ",\"thread\":%t,\"trace_id\":\"%@\",\"msg\":\"%*\"\x7d"

structure Logger where
  formatter : PatternFormatter
  serviceName : Bytes

def Logger.jsonLine (l : Logger) (m : LineMeta) (traceId payload : Bytes) : Bytes :=
  l.formatter (m.write traceId payload) (jsonPattern l.serviceName)

/-! ## The tracing advices -/

def nibble (c : Byte) : Option Nat :=
  if ch '0' ≤ c && c ≤ ch '9' then some (c.toNat - 48)
  else if ch 'a' ≤ c && c ≤ ch 'f' then some (c.toNat - 97 + 10)
  else if ch 'A' ≤ c && c ≤ ch 'F' then some (c.toNat - 65 + 10)
  else none

/-- The loop over the pairs of digits. -/
def hexPairs : Bytes → Option Bytes
  | hi :: lo :: hex => do
    let hi ← nibble hi
    let lo ← nibble lo
    let out ← hexPairs hex
    some (Json.byteOf (hi * 16 + lo) :: out)
  | _ => some []

def hexToBytes (hex : Bytes) (n : Nat) : Option Bytes := if hex.length ≠ n * 2 then none else hexPairs hex

/-- The ids of an OpenTelemetry span, as bytes. -/
structure SpanContext where
  traceId : Bytes
  spanId : Bytes
deriving DecidableEq

def toRemoteSpanContext (t : TraceContext) : Option SpanContext := do
  let traceId ← hexToBytes t.traceId 16
  let spanId ← hexToBytes t.parentId 8
  let _ ← hexToBytes t.flags 1
  some ⟨traceId, spanId⟩

/-- What the pre-handling advice leaves in the request. -/
structure Attributes where
  traceId : Bytes
  spanId : Bytes
  flags : Bytes
deriving DecidableEq

/-- An IO thread of the server, which handles one request at a time. -/
structure IoThread where
  /-- `current_traceparent_ref()`. -/
  ambient : Bytes
  /-- How many words the generator has given. -/
  drawn : Nat
  request : Option Attributes

def IoThread.init : IoThread := ⟨[], 0, none⟩

inductive Event
  /-- A request with this `traceparent` header comes in. `span` is the valid context of the server span, where tracing
  is up. -/
  | pre (traceparent : Bytes) (span : Option SpanContext)
  | log (m : LineMeta) (payload : Bytes)
  /-- The response leaves. A request that an earlier advice has rejected has no attributes. -/
  | post (m : LineMeta) (summary : Bytes)
  /-- The request ends without its post-handling advice. -/
  | abandon

inductive Observed
  | line (text : Bytes)
  | headers (requestId traceparent : Bytes)

/-- `register_tracing_pre`. -/
def IoThread.pre (rng : Rng) (t : IoThread) (traceparent : Bytes) (span : Option SpanContext) : IoThread :=
  let (tctx, drawn) := match parseTraceparent traceparent with
    | some ctx => (ctx, t.drawn)
    | none => generateContext rng t.drawn
  let attrs : Attributes := match span with
    | none => ⟨tctx.traceId, tctx.parentId, tctx.flags⟩
    | some s => ⟨toHex s.traceId, toHex s.spanId, tctx.flags⟩
  ⟨formatTraceparent ⟨attrs.traceId, attrs.spanId, attrs.flags⟩, drawn, some attrs⟩

/-- `emit_trace_headers`: the headers, and the id for the access log. -/
def emitTraceHeaders : Option Attributes → List Observed × Bytes
  | none => ([], [])
  | some a =>
    if a.traceId.isEmpty then ([], [])
    else ([.headers a.traceId (formatTraceparent ⟨a.traceId, a.spanId, a.flags⟩)], a.traceId)

/-- `summary` is the line up to the id: method, route, status and duration. -/
def accessLine (summary traceId : Bytes) : Bytes := summary ++ ascii " tid=" ++ traceId

def IoThread.step (logger : Logger) (rng : Rng) (t : IoThread) : Event → IoThread × List Observed
  | .pre traceparent span => (t.pre rng traceparent span, [])
  | .log m payload => (t, [.line (logger.jsonLine m (traceIdFlag t.ambient) payload)])
  | .post m summary =>
    let (sent, traceId) := emitTraceHeaders t.request
    (⟨[], t.drawn, none⟩,
      sent ++ [.line (logger.jsonLine m (traceIdFlag t.ambient) (accessLine summary traceId))])
  | .abandon => ({ t with request := none }, [])

def IoThread.run (logger : Logger) (rng : Rng) (t : IoThread) : List Event → List Observed
  | [] => []
  | e :: events => (t.step logger rng e).2 ++ (t.step logger rng e).1.run logger rng events

end LlmGuard.Trace
