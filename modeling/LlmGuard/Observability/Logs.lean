import LlmGuard.Json.Tree
import LlmGuard.Observability.Trace

/-!
# Log lines and the request they belong to

A line is one JSON object on one line, whatever its message. Between the tracing advices of a request every line has
the id that the client gets.
-/

namespace LlmGuard.Trace

open Rfc8259 (IsBody Body Value Items quoted noWs IsScalar)

/-! ## One line -/

/-- Text that needs no escape. -/
def Plain (s : Bytes) : Prop := ∀ b ∈ s, 0x20 ≤ b ∧ b ≠ ch '"' ∧ b ≠ ch '\\'

instance (s : Bytes) : Decidable (Plain s) := inferInstanceAs (Decidable (∀ b ∈ s, _))

theorem Plain.spec {s : Bytes} (h : Plain s) : IsBody s ∧ Json.decodeBody 0 s = s := by
  induction s with
  | nil => exact ⟨.nil, rfl⟩
  | cons b s ih =>
    obtain ⟨hlow, hquote, hback⟩ := h b List.mem_cons_self
    obtain ⟨hbody, hdecoded⟩ := ih fun c hc => h c (List.mem_cons_of_mem b hc)
    exact ⟨.plain hlow hquote hback hbody, by rw [Json.decodeBody_plain hback, hdecoded]⟩

theorem hexLower_plain {s : Bytes} (h : ∀ b ∈ s, isHexLower b = true) : Plain s := by
  intro b hb
  obtain ⟨-, -, hlow, hquote, hback, -⟩ := hexLower_facts b (h b hb)
  exact ⟨hlow, hquote, hback⟩

theorem escapeByte_writes (c : Byte) : Json.Writes (escapeByte c) [c] := by
  unfold escapeByte
  split_ifs with hquote hback hn hr ht hb hf hlow
  · subst hquote
    exact Json.writes_escape (by decide) fun _ => rfl
  · subst hback
    exact Json.writes_escape (by decide) fun _ => rfl
  · subst hn
    exact Json.writes_escape (by decide) fun _ => rfl
  · subst hr
    exact Json.writes_escape (by decide) fun _ => rfl
  · subst ht
    exact Json.writes_escape (by decide) fun _ => rfl
  · subst hb
    exact Json.writes_escape (by decide) fun _ => rfl
  · subst hf
    exact Json.writes_escape (by decide) fun _ => rfl
  · exact Json.writes_control hlow
  · exact Json.writes_plain (UInt8.not_lt.mp hlow) hquote hback

theorem escapedMessage_spec (payload : Bytes) :
    IsBody (escapedMessage payload) ∧ Json.decodeBody 0 (escapedMessage payload) = payload := by
  induction payload with
  | nil => exact ⟨.nil, rfl⟩
  | cons c payload ih =>
    have hwrites := escapeByte_writes c
    exact ⟨hwrites.body _ ih.1, by rw [escapedMessage, List.flatMap_cons, hwrites.decoded, ← escapedMessage, ih.2]; rfl⟩

theorem body_printable {s : Bytes} (h : IsBody s) : ∀ b ∈ s, 0x20 ≤ b := by
  have hhex : ∀ {d : Byte}, Rfc8259.hexDigit d = true → 0x20 ≤ d := by
    intro d hd
    simp only [Rfc8259.hexDigit, Bool.or_eq_true, Bool.and_eq_true, decide_eq_true_eq] at hd
    rcases hd with (⟨hd, -⟩ | ⟨hd, -⟩) | ⟨hd, -⟩
    · exact UInt8.le_trans (by decide : 0x20 ≤ ch '0') hd
    · exact UInt8.le_trans (by decide : 0x20 ≤ ch 'a') hd
    · exact UInt8.le_trans (by decide : 0x20 ≤ ch 'A') hd
  have hback : (0x20 : Byte) ≤ ch '\\' := by decide
  induction h with
  | nil => exact List.forall_mem_nil _
  | plain hlow _ _ _ ih => exact List.forall_mem_cons.mpr ⟨hlow, ih⟩
  | @escape e _ he _ ih =>
    have hlow : 0x20 ≤ e := by
      simp only [Rfc8259.simpleEscape, Bool.or_eq_true, decide_eq_true_eq] at he
      rcases he with ((((((rfl | rfl) | rfl) | rfl) | rfl) | rfl) | rfl) | rfl <;> decide
    simp only [List.forall_mem_cons]
    exact ⟨hback, hlow, ih⟩
  | unicode h₁ h₂ h₃ h₄ _ ih =>
    simp only [List.forall_mem_cons]
    exact ⟨hback, by decide, hhex h₁, hhex h₂, hhex h₃, hhex h₄, ih⟩

theorem isScalar_decimal (n : Nat) : IsScalar (decimal n) := by
  obtain ⟨hne, hdigits, hhead⟩ := canonical_decimal n
  refine .inr ⟨[], decimal n, [], [], .inl rfl, ?_, .inl rfl, .inl rfl, by simp⟩
  rcases Nat.eq_zero_or_pos n with rfl | hpos
  · exact .inl (by decide)
  · exact .inr ⟨⟨hne, hdigits⟩, decimal_head_ne hpos⟩

/-- The members of an object, with no white space between them. -/
def members : Body × Value → List (Body × Value) → Items .object
  | (name, v), [] => .last (.key noWs name noWs) noWs v noWs
  | (name, v), m :: ms => .more (.key noWs name noWs) noWs v noWs (members m ms)

theorem treesOf_members (m : Body × Value) (ms : List (Body × Value)) :
    Json.treesOf (members m ms) =
      (m :: ms).map fun p => (some (Json.decodeBody 0 p.1.1), Json.treeOf p.2) := by
  induction ms generalizing m with
  | nil => simp [members, Json.treesOf, Json.nameOf, Json.decodeString_quoted]
  | cons m' ms ih => simp [members, Json.treesOf, Json.nameOf, Json.decodeString_quoted, ih m']

def memberText (p : Body × Value) : Bytes := quoted p.1.1 ++ ch ':' :: p.2.text

theorem members_text (m : Body × Value) (ms : List (Body × Value)) :
    (members m ms).text = memberText m ++ ms.flatMap fun p => ch ',' :: memberText p := by
  induction ms generalizing m with
  | nil => simp [members, memberText, Rfc8259.Items.text, Rfc8259.Label.text]
  | cons m' ms ih => simp [members, memberText, Rfc8259.Items.text, Rfc8259.Label.text, ih m']

/-- `%Y-%m-%dT%H:%M:%S.%e%z` -/
def LineMeta.ts (m : LineMeta) : Bytes :=
  m.flag (ch 'Y') ++ ascii "-" ++ m.flag (ch 'm') ++ ascii "-" ++ m.flag (ch 'd') ++ ascii "T" ++ m.flag (ch 'H') ++
    ascii ":" ++ m.flag (ch 'M') ++ ascii ":" ++ m.flag (ch 'S') ++ ascii "." ++ m.flag (ch 'e') ++ m.flag (ch 'z')

/-- What `jsonLine` says: its members, in the order of the line. -/
def fields (service : Bytes) (m : LineMeta) (thread : Nat) (traceId payload : Bytes) : List (Option Bytes × Json.Tree) :=
  [(some (ascii "ts"), .string m.ts), (some (ascii "level"), .string (m.flag (ch 'l'))),
      (some (ascii "logger"), .string (m.flag (ch 'n')))] ++
    (if service.isEmpty then [] else [(some (ascii "service"), .string service)]) ++
    [(some (ascii "thread"), .scalar ⟨decimal thread, isScalar_decimal thread⟩),
      (some (ascii "trace_id"), .string traceId), (some (ascii "msg"), .string payload)]

/-- A JSON object with these members, on one line. -/
structure Says (service : Bytes) (m : LineMeta) (traceId payload line : Bytes) : Prop where
  single : ∀ b ∈ line, 0x20 ≤ b
  json : ∃ thread, m.flag (ch 't') = decimal thread ∧ ∃ t : Rfc8259.Reading line,
    Json.treeOf t.value = .group .object (fields service m thread traceId payload)

/-- What spdlog writes into a line needs no escape, and the thread is a number. -/
structure LineMeta.Plain (m : LineMeta) : Prop where
  flag : ∀ f, Trace.Plain (m.flag f)
  thread : ∃ n, m.flag (ch 't') = decimal n

theorem plain_append {s u : Bytes} (hs : Plain s) (hu : Plain u) : Plain (s ++ u) := List.forall_mem_append.mpr ⟨hs, hu⟩

theorem LineMeta.Plain.ts {m : LineMeta} (h : m.Plain) : Trace.Plain m.ts := by
  unfold LineMeta.ts
  repeat' apply plain_append
  all_goals first | exact h.flag _ | decide

/-- A member whose value is a string. -/
def stringMember (name : Bytes) (hname : Plain name) (s : Bytes) (hs : IsBody s) : Body × Value :=
  (⟨name, hname.spec.1⟩, .string ⟨s, hs⟩)

theorem Plain.printable {s : Bytes} (h : Plain s) : ∀ b ∈ s, 0x20 ≤ b := fun b hb => (h b hb).1

/-- What spdlog documents of a pattern: text stands for itself, and a `%` with a letter behind it for the text of the
flag. The flags are those of `jsonPattern`. -/
structure PatternFormatter.Documented (formatter : PatternFormatter) : Prop where
  nil : ∀ flag, formatter flag [] = []
  text : ∀ flag c pattern, c ≠ ch '%' → formatter flag (c :: pattern) = c :: formatter flag pattern
  flag : ∀ flag, ∀ f ∈ ascii "YmdHMSezlnt@*", ∀ pattern,
    formatter flag (ch '%' :: f :: pattern) = flag f ++ formatter flag pattern

theorem PatternFormatter.Documented.append {formatter : PatternFormatter} (h : formatter.Documented)
    (flag : Byte → Bytes) {s : Bytes} (hs : ch '%' ∉ s) (pattern : Bytes) :
    formatter flag (s ++ pattern) = s ++ formatter flag pattern := by
  induction s with
  | nil => rfl
  | cons c s ih =>
    rw [List.mem_cons, not_or] at hs
    rw [List.cons_append, h.text flag c _ (Ne.symm hs.1), ih hs.2, List.cons_append]

/-- The name of the service goes into the pattern, so it may have no flags either. -/
structure Logger.Sound (l : Logger) : Prop where
  formatter : l.formatter.Documented
  plain : Plain l.serviceName
  noFlag : ch '%' ∉ l.serviceName

/-- The member of the service. -/
def serviceText (service : Bytes) : Bytes :=
  if service.isEmpty then [] else ascii ",\"service\":\"" ++ service ++ ascii "\""

/-- The line, with the texts of its flags. -/
def lineText (service : Bytes) (m : LineMeta) (traceId payload : Bytes) : Bytes :=
  ascii "\x7b\"ts\":\"" ++ m.ts ++ ascii "\",\"level\":\"" ++ m.flag (ch 'l') ++ ascii "\",\"logger\":\"" ++
    m.flag (ch 'n') ++ ascii "\"" ++ serviceText service ++ ascii ",\"thread\":" ++ m.flag (ch 't') ++
    ascii ",\"trace_id\":\"" ++ traceId ++ ascii "\",\"msg\":\"" ++ escapedMessage payload ++ ascii "\"\x7d"

theorem jsonLine_eq {l : Logger} (h : l.Sound) (m : LineMeta) (traceId payload : Bytes) :
    l.jsonLine m traceId payload = lineText l.serviceName m traceId payload := by
  have hservice : ch '%' ∉ serviceText l.serviceName := by
    unfold serviceText
    split
    · exact List.not_mem_nil
    · simp only [List.mem_append, not_or]
      exact ⟨⟨by decide, h.noFlag⟩, by decide⟩
  -- The pattern, cut at its flags.
  have hpattern : jsonPattern l.serviceName = ascii "\x7b\"ts\":\"" ++ (ch '%' :: ch 'Y' :: (ascii "-" ++
      (ch '%' :: ch 'm' :: (ascii "-" ++ (ch '%' :: ch 'd' :: (ascii "T" ++ (ch '%' :: ch 'H' :: (ascii ":" ++
      (ch '%' :: ch 'M' :: (ascii ":" ++ (ch '%' :: ch 'S' :: (ascii "." ++ (ch '%' :: ch 'e' :: ch '%' :: ch 'z' ::
      (ascii "\",\"level\":\"" ++ (ch '%' :: ch 'l' :: (ascii "\",\"logger\":\"" ++ (ch '%' :: ch 'n' ::
      (ascii "\"" ++ (serviceText l.serviceName ++ (ascii ",\"thread\":" ++ (ch '%' :: ch 't' ::
      (ascii ",\"trace_id\":\"" ++ (ch '%' :: ch '@' :: (ascii "\",\"msg\":\"" ++ (ch '%' :: ch '*' ::
      (ascii "\"\x7d" ++ [])))))))))))))))))))))))))) := by
    unfold jsonPattern serviceText
    simp only [List.append_assoc]
    rfl
  have hwrite : ∀ f ∈ ascii "YmdHMSezlnt", m.write traceId payload f = m.flag f := by
    intro f hf
    have hne : ∀ f ∈ ascii "YmdHMSezlnt", f ≠ ch '*' ∧ f ≠ ch '@' := by decide
    rw [LineMeta.write, if_neg (hne f hf).1, if_neg (hne f hf).2]
  have hid : m.write traceId payload (ch '@') = traceId := rfl
  have hmsg : m.write traceId payload (ch '*') = escapedMessage payload := rfl
  rw [Logger.jsonLine, hpattern]
  simp (disch := first | exact hservice | decide) only [h.formatter.append, h.formatter.flag, h.formatter.nil, hwrite,
    hid, hmsg]
  simp only [lineText, LineMeta.ts, List.append_assoc, List.append_nil]

theorem lineText_printable {service traceId : Bytes} {m : LineMeta} (hservice : Plain service) (hm : m.Plain)
    (htrace : Plain traceId) (payload : Bytes) : ∀ b ∈ lineText service m traceId payload, 0x20 ≤ b := by
  have hmember : ∀ b ∈ serviceText service, 0x20 ≤ b := by
    unfold serviceText
    split
    · exact List.forall_mem_nil _
    · simp only [List.forall_mem_append]
      exact ⟨⟨by decide, hservice.printable⟩, by decide⟩
  simp only [lineText, List.append_assoc, List.forall_mem_append]
  exact ⟨by decide, hm.ts.printable, by decide, (hm.flag _).printable, by decide, (hm.flag _).printable, by decide,
    hmember, by decide, (hm.flag _).printable, by decide, htrace.printable, by decide,
    body_printable (escapedMessage_spec payload).1, by decide⟩

/-- A message cannot break out of its line, nor out of its member. -/
theorem jsonLine_says {l : Logger} {traceId : Bytes} {m : LineMeta} (hl : l.Sound) (hm : m.Plain)
    (htrace : Plain traceId) (payload : Bytes) :
    Says l.serviceName m traceId payload (l.jsonLine m traceId payload) := by
  obtain ⟨hmsg, hdecoded⟩ := escapedMessage_spec payload
  obtain ⟨thread, hthread⟩ := hm.thread
  have hservice := hl.plain
  rw [jsonLine_eq hl]
  generalize l.serviceName = service at hservice
  let first := stringMember (ascii "ts") (by decide) m.ts hm.ts.spec.1
  let rest := [stringMember (ascii "level") (by decide) _ (hm.flag (ch 'l')).spec.1,
      stringMember (ascii "logger") (by decide) _ (hm.flag (ch 'n')).spec.1] ++
    (if service.isEmpty then [] else [stringMember (ascii "service") (by decide) service hservice.spec.1]) ++
    [(⟨ascii "thread", (by decide : Plain (ascii "thread")).spec.1⟩, .scalar ⟨decimal thread, isScalar_decimal thread⟩),
      stringMember (ascii "trace_id") (by decide) traceId htrace.spec.1,
      stringMember (ascii "msg") (by decide) (escapedMessage payload) hmsg]
  have htext : lineText service m traceId payload = (Value.group .object (members first rest)).text := by
    rw [Value.text, members_text]
    unfold lineText serviceText
    rw [hthread]
    cases hempty : service.isEmpty <;>
      simp only [first, rest, hempty, stringMember, memberText, Value.text, quoted, if_true, if_false,
        Bool.false_eq_true, List.nil_append, List.append_nil, List.append_assoc, List.cons_append, List.flatMap_cons,
        List.flatMap_nil] <;>
      rfl
  have htree : Json.treesOf (members first rest) = fields service m thread traceId payload := by
    rw [treesOf_members]
    unfold fields
    cases hempty : service.isEmpty <;>
      simp only [first, rest, hempty, stringMember, Json.treeOf, Json.decodeString_quoted, hdecoded, hservice.spec.2,
        hm.ts.spec.2, (hm.flag _).spec.2, htrace.spec.2, if_true, if_false, Bool.false_eq_true,
        List.map_append, List.map_cons, List.map_nil] <;>
      rfl
  exact ⟨lineText_printable hservice hm htrace payload, thread, hthread,
    ⟨noWs, .group .object (members first rest), noWs, by simpa using htext⟩, congrArg _ htree⟩

/-! ## A run of a thread -/

/-- An id that is no sign of a missing trace. -/
def IsTraceId (id : Bytes) : Prop := isHexString id 32 = true ∧ isAllZeroHex id = false

/-- What the events of a thread put out, where `ambient` is the id that its lines have and `request` the id of the
request that it handles. -/
inductive Correlated (service : Bytes) : Option Bytes → Option Bytes → List Event → List Observed → Prop
  | done {ambient request : Option Bytes} : Correlated service ambient request [] []
  /-- The request joins the trace of its header, or starts one. -/
  | pre {ambient request : Option Bytes} {traceparent id : Bytes} {span : Option SpanContext} {events : List Event}
      {observed : List Observed} : IsTraceId id → (∀ ctx ∈ parseTraceparent traceparent, ctx.traceId = id) →
      Correlated service (some id) (some id) events observed →
      Correlated service ambient request (.pre traceparent span :: events) observed
  | log {ambient request : Option Bytes} {m : LineMeta} {payload text : Bytes} {events : List Event}
      {observed : List Observed} : Says service m (ambient.getD []) payload text →
      Correlated service ambient request events observed →
      Correlated service ambient request (.log m payload :: events) (.line text :: observed)
  /-- The client gets the id of the lines, and a context that its next service can read. -/
  | post {id traceparent : Bytes} {ctx : TraceContext} {m : LineMeta} {summary text : Bytes} {events : List Event}
      {observed : List Observed} : parseTraceparent traceparent = some ctx → ctx.traceId = id →
      Says service m id (accessLine summary id) text → Correlated service none none events observed →
      Correlated service (some id) (some id) (.post m summary :: events)
        (.headers id traceparent :: .line text :: observed)
  /-- An earlier advice has rejected the request. -/
  | rejected {ambient : Option Bytes} {m : LineMeta} {summary text : Bytes} {events : List Event}
      {observed : List Observed} : Says service m (ambient.getD []) (accessLine summary []) text →
      Correlated service none none events observed →
      Correlated service ambient none (.post m summary :: events) (.line text :: observed)
  | abandon {ambient request : Option Bytes} {events : List Event} {observed : List Observed} :
      Correlated service ambient none events observed →
      Correlated service ambient request (.abandon :: events) observed

/-- What spdlog and OpenTelemetry promise: a span is valid, and it joins the trace of its parent. -/
def Event.Sound : Event → Prop
  | .pre traceparent span => ∀ s ∈ span, s.Valid ∧
      ∀ ctx ∈ parseTraceparent traceparent, ∀ parent ∈ toRemoteSpanContext ctx, s.traceId = parent.traceId
  | .log m _ => m.Plain
  | .post m _ => m.Plain
  | .abandon => True

/-- The ids of a thread between two events. -/
inductive IoThread.Holds : Option Bytes → Option Bytes → IoThread → Prop
  | idle {drawn : Nat} : Holds none none ⟨[], drawn, none⟩
  | busy {ctx : TraceContext} {drawn : Nat} : ctx.Valid →
      Holds (some ctx.traceId) (some ctx.traceId)
        ⟨formatTraceparent ctx, drawn, some ⟨ctx.traceId, ctx.parentId, ctx.flags⟩⟩
  /-- The ids of a request that has ended without its post-handling advice. -/
  | stale {ctx : TraceContext} {drawn : Nat} : ctx.Valid →
      Holds (some ctx.traceId) none ⟨formatTraceparent ctx, drawn, none⟩

theorem valid_isTraceId {ctx : TraceContext} (h : ctx.Valid) : IsTraceId ctx.traceId := ⟨h.traceId, h.trace⟩

theorem plain_traceId {ctx : TraceContext} (h : ctx.Valid) : Plain ctx.traceId :=
  hexLower_plain (isHexString_iff.mp h.traceId).2

theorem IoThread.Holds.line {logger : Logger} {ambient request : Option Bytes} {t : IoThread} {m : LineMeta}
    (h : t.Holds ambient request) (hlogger : logger.Sound) (hm : m.Plain) (payload : Bytes) :
    Says logger.serviceName m (ambient.getD []) payload (logger.jsonLine m (traceIdFlag t.ambient) payload) := by
  have hflag : traceIdFlag t.ambient = ambient.getD [] ∧ Plain (ambient.getD []) := by
    cases h with
    | idle => exact ⟨rfl, List.forall_mem_nil _⟩
    | busy hvalid => exact ⟨traceIdFlag_format hvalid, plain_traceId hvalid⟩
    | stale hvalid => exact ⟨traceIdFlag_format hvalid, plain_traceId hvalid⟩
  rw [hflag.1]
  exact jsonLine_says hlogger hm hflag.2 payload

theorem pre_spec {rng : Rng} (hrng : ∀ n, rng n ≠ 0) (t : IoThread) {traceparent : Bytes} {span : Option SpanContext}
    (h : (Event.pre traceparent span).Sound) :
    ∃ ctx : TraceContext, ctx.Valid ∧ (∀ c ∈ parseTraceparent traceparent, c.traceId = ctx.traceId) ∧
      (t.pre rng traceparent span).Holds (some ctx.traceId) (some ctx.traceId) := by
  -- The context of the header, or a fresh one.
  obtain ⟨base, drawn, hbase, hjoin, hpre⟩ : ∃ (base : TraceContext) (drawn : Nat), base.Valid ∧
      (∀ c ∈ parseTraceparent traceparent, c = base) ∧ t.pre rng traceparent span =
        let attrs : Attributes := span.elim ⟨base.traceId, base.parentId, base.flags⟩
          fun s => ⟨toHex s.traceId, toHex s.spanId, base.flags⟩
        ⟨formatTraceparent ⟨attrs.traceId, attrs.spanId, attrs.flags⟩, drawn, some attrs⟩ := by
    unfold IoThread.pre
    cases hparse : parseTraceparent traceparent with
    | some ctx =>
      refine ⟨ctx, t.drawn, valid_of_parse hparse, by simp, ?_⟩
      cases span <;> rfl
    | none =>
      refine ⟨(generateContext rng t.drawn).1, (generateContext rng t.drawn).2, generateContext_valid hrng _, by simp, ?_⟩
      cases span <;> rfl
  rw [hpre]
  cases span with
  | none => exact ⟨base, hbase, fun c hc => by rw [hjoin c hc], .busy hbase⟩
  | some s =>
    obtain ⟨hs, hparent⟩ := h s rfl
    have hvalid : TraceContext.Valid ⟨toHex s.traceId, toHex s.spanId, base.flags⟩ := valid_of_bytes hs hbase.flags
    refine ⟨_, hvalid, fun c hc => ?_, .busy hvalid⟩
    obtain ⟨parent, hremote, hid, -⟩ := toRemoteSpanContext_spec (valid_of_parse hc)
    rw [← hid, ← hparent c hc parent hremote]

theorem emitTraceHeaders_valid {ctx : TraceContext} (h : ctx.Valid) :
    emitTraceHeaders (some ⟨ctx.traceId, ctx.parentId, ctx.flags⟩) =
      ([.headers ctx.traceId (formatTraceparent ctx)], ctx.traceId) := by
  have hne : ctx.traceId ≠ [] := List.ne_nil_of_length_pos (by rw [(isHexString_iff.mp h.traceId).1]; decide)
  simp [emitTraceHeaders, hne]

section Run

variable {logger : Logger} {rng : Rng}

/-- By induction on the events, for every state that holds the two ids. -/
theorem run_correlated (hlogger : logger.Sound) (hrng : ∀ n, rng n ≠ 0) {events : List Event}
    (hevents : ∀ e ∈ events, e.Sound) {ambient request : Option Bytes} {t : IoThread} (ht : t.Holds ambient request) :
    Correlated logger.serviceName ambient request events (t.run logger rng events) := by
  induction events generalizing ambient request t with
  | nil => exact .done
  | cons e events ih =>
    obtain ⟨he, hrest⟩ := List.forall_mem_cons.mp hevents
    rw [IoThread.run]
    cases e with
    | pre traceparent span =>
      obtain ⟨ctx, hvalid, hjoin, hholds⟩ := pre_spec hrng t he
      exact .pre (valid_isTraceId hvalid) hjoin (ih hrest hholds)
    | log m payload => exact .log (ht.line hlogger he payload) (ih hrest ht)
    | abandon =>
      cases ht with
      | idle => exact .abandon (ih hrest .idle)
      | busy hvalid => exact .abandon (ih hrest (.stale hvalid))
      | stale hvalid => exact .abandon (ih hrest (.stale hvalid))
    | post m summary =>
      have hline := fun id => ht.line hlogger he (accessLine summary id)
      cases ht with
      | idle => exact .rejected (hline []) (ih hrest .idle)
      | stale hvalid => exact .rejected (hline []) (ih hrest .idle)
      | @busy ctx drawn hvalid =>
        simp only [IoThread.step, emitTraceHeaders_valid hvalid]
        exact .post (parse_format hvalid) rfl (hline ctx.traceId) (ih hrest .idle)

/-- On a thread of the server every line is one JSON object, with its message unchanged and with the id of the request
that the thread handles. The client gets this id, and the access line names it. -/
theorem correlated_run (hlogger : logger.Sound) (hrng : ∀ n, rng n ≠ 0) (events : List Event)
    (hevents : ∀ e ∈ events, e.Sound) :
    Correlated logger.serviceName none none events (IoThread.init.run logger rng events) :=
  run_correlated hlogger hrng hevents .idle

end Run

/-- A formatter for patterns without padding. -/
def expandFlags (flag : Byte → Bytes) : Bytes → Bytes
  | [] => []
  | [c] => if c = ch '%' then [] else [c]
  | c :: f :: pattern => if c = ch '%' then flag f ++ expandFlags flag pattern else c :: expandFlags flag (f :: pattern)

theorem expandFlags_documented : PatternFormatter.Documented expandFlags where
  nil _ := rfl
  text flag c pattern hc := by
    cases pattern with
    | nil => simp [expandFlags, hc]
    | cons f pattern => rw [expandFlags, if_neg hc]
  flag _ _ _ _ := if_pos rfl

/-- Two requests: the first with a header and a message that tries to close its line, the second rejected. -/
theorem correlated_run_sample :
    let logger : Logger := ⟨expandFlags, ascii "guard"⟩
    let m : LineMeta := ⟨fun f => if f = ch 't' then decimal 7 else if f = ch 'l' then ascii "info" else ascii "00"⟩
    let events : List Event :=
      [.pre (ascii "00-4BF92F3577B34DA6A3CE929D0E0E4736-00F067AA0BA902B7-01") none, .log m (ascii "a\",\n\x7d"),
        .post m (ascii "GET /api/v1/health 200 0.100ms"), .post m (ascii "POST / 415 0.000ms")]
    Correlated (ascii "guard") none none events (IoThread.init.run logger (fun _ => 1) events) := by
  intro logger m events
  have hlogger : logger.Sound := ⟨expandFlags_documented, by decide, by decide⟩
  apply correlated_run hlogger (fun _ => by decide) events
  have hm : m.Plain := by
    refine ⟨fun f => ?_, 7, rfl⟩
    simp only [m]
    split_ifs <;> decide
  simp only [events, List.forall_mem_cons]
  exact ⟨by simp [Event.Sound], hm, hm, hm, List.forall_mem_nil _⟩

end LlmGuard.Trace
