import LlmGuard.Extract.Spans

/-!
# The walks of the three formats

What each extractor picks, as one walk of the body. No walk goes into the `type` that it depends on, and no two walks
go into members with the same key, so all of them are lawful.
-/

namespace LlmGuard.Extract

open Rfc8259 (Value)
open Json (PathSeg ValueSpan findValue findValueIn arrayElements)

/-! ## The walks -/

/-- The `text` of a part whose type is allowed. -/
def part (allowed : Bytes → Bool) : Walk := fieldsByType fun type => if allowed type then [(ascii "text", text)] else []

def partOf (type : String) : Walk := part fun t => t = ascii type

/-- The call of a tool: its arguments are a string. -/
def call (key : String) : Bytes × Walk := (ascii key, fields [(ascii "arguments", text)])

def calls : List (Bytes × Walk) := [call "function_call", (ascii "tool_calls", each (fields [call "function"]))]

def chatRequest : Walk :=
  fields [(ascii "messages", each (fields ((ascii "content", textOrEach (partOf "text")) :: calls)))]

def chatResponse : Walk :=
  fields [(ascii "choices", each (fields [(ascii "message",
    fields (ChatCompletions.plainResponseFields.map (fun name => (ascii name, text)) ++ calls))]))]

def messagesBlock : Walk := fieldsByType fun type =>
  if type = ascii "text" then [(ascii "text", text)]
  else if type = ascii "tool_use" then [(ascii "input", strings)]
  else if type = ascii "tool_result" then [(ascii "content", textOrEach (partOf "text"))]
  else []

def messagesRequest : Walk :=
  fields [(ascii "system", textOrEach (partOf "text")),
    (ascii "messages", each (fields [(ascii "content", textOrEach messagesBlock)]))]

def messagesResponseBlock : Walk := fieldsByType fun type =>
  if type = ascii "text" then [(ascii "text", text)]
  else if type = ascii "thinking" then [(ascii "thinking", text)]
  else if type = ascii "tool_use" then [(ascii "input", rawObject)]
  else []

def messagesResponse : Walk := fields [(ascii "content", each messagesResponseBlock)]

def responsesPart : Walk :=
  part fun type => type = ascii "output_text" || type = ascii "input_text" || type = ascii "text"

def responsesInputItem : Walk := fieldsByType fun type =>
  if type = ascii "function_call_output" then [(ascii "output", textOrEach responsesPart)]
  else if type = ascii "function_call" then [(ascii "arguments", text)]
  else [(ascii "content", textOrEach responsesPart)]

def responsesRequest : Walk :=
  fields [(ascii "instructions", text), (ascii "input", textOrEach responsesInputItem)]

def responsesItem : Walk := fieldsByType fun type =>
  if type = ascii "message" then [(ascii "content", each (partOf "output_text"))]
  else if type = ascii "function_call" then [(ascii "arguments", text)]
  else if type = ascii "reasoning" then
    [(ascii "summary", each (partOf "summary_text")), (ascii "content", each (partOf "reasoning_text"))]
  else []

def responsesResponse : Walk := fields [(ascii "output", each responsesItem)]

def walkRequest : ApiFormat → Walk
  | .chatCompletions => chatRequest
  | .messages => messagesRequest
  | .responses => responsesRequest

def walkResponse : ApiFormat → Walk
  | .chatCompletions => chatResponse
  | .messages => messagesResponse
  | .responses => responsesResponse

/-! ## All of them are lawful -/

theorem lawful_single {key : Bytes} {w : Walk} (h : Lawful w) : Lawful (fields [(key, w)]) :=
  lawful_fields (List.nodup_singleton _) fun _ he => List.mem_singleton.mp he ▸ h

theorem lawful_part (allowed : Bytes → Bool) : Lawful (part allowed) := by
  apply lawful_fieldsByType
  · intro type
    split <;> simp
  · intro type e he
    split at he
    · rw [List.mem_singleton.mp he]
      decide
    · cases he
  · intro type e he
    split at he
    · rw [List.mem_singleton.mp he]
      exact lawful_text
    · cases he

theorem lawful_call (key : String) : Lawful (call key).2 := lawful_single lawful_text

theorem lawful_calls : ∀ e ∈ calls, Lawful e.2 := by
  intro e he
  simp only [calls, List.mem_cons, List.not_mem_nil, or_false] at he
  rcases he with rfl | rfl
  · exact lawful_call "function_call"
  · exact (lawful_single (lawful_call "function")).each

theorem lawful_chatRequest : Lawful chatRequest := by
  apply lawful_single
  apply Lawful.each
  apply lawful_fields
  · decide
  · rw [List.forall_mem_cons]
    exact ⟨(lawful_part _).textOrEach, lawful_calls⟩

theorem lawful_chatResponse : Lawful chatResponse := by
  apply lawful_single
  apply Lawful.each
  apply lawful_single
  apply lawful_fields
  · decide
  · rw [List.forall_mem_append, List.forall_mem_map]
    exact ⟨fun _ _ => lawful_text, lawful_calls⟩

/-- Which members a type leads to, one type after the other. -/
theorem lawful_messagesBlock : Lawful messagesBlock := by
  apply lawful_fieldsByType
  · intro type
    split_ifs <;> simp
  · intro type e he
    split_ifs at he <;> simp at he <;> rw [he] <;> decide
  · intro type e he
    split_ifs at he <;> simp at he <;> rw [he]
    · exact lawful_text
    · exact lawful_strings
    · exact (lawful_part _).textOrEach

theorem lawful_messagesRequest : Lawful messagesRequest := by
  apply lawful_fields
  · decide
  · simp only [List.forall_mem_cons, List.not_mem_nil, false_imp_iff, implies_true, and_true]
    exact ⟨(lawful_part _).textOrEach, (lawful_single lawful_messagesBlock.textOrEach).each⟩

theorem lawful_messagesResponse : Lawful messagesResponse := by
  apply lawful_single
  apply Lawful.each
  apply lawful_fieldsByType
  · intro type
    split_ifs <;> simp
  · intro type e he
    split_ifs at he <;> simp at he <;> rw [he] <;> decide
  · intro type e he
    split_ifs at he <;> simp at he <;> rw [he]
    · exact lawful_text
    · exact lawful_text
    · exact lawful_rawObject

theorem lawful_responsesRequest : Lawful responsesRequest := by
  apply lawful_fields
  · decide
  · simp only [List.forall_mem_cons, List.not_mem_nil, false_imp_iff, implies_true, and_true]
    refine ⟨lawful_text, Lawful.textOrEach ?_⟩
    apply lawful_fieldsByType
    · intro type
      split_ifs <;> simp
    · intro type e he
      split_ifs at he <;> simp at he <;> rw [he] <;> decide
    · intro type e he
      split_ifs at he <;> simp at he <;> rw [he]
      · exact (lawful_part _).textOrEach
      · exact lawful_text
      · exact (lawful_part _).textOrEach

theorem lawful_responsesResponse : Lawful responsesResponse := by
  apply lawful_single
  apply Lawful.each
  apply lawful_fieldsByType
  · intro type
    split_ifs
    · simp
    · simp
    · decide
    · simp
  · intro type e he
    split_ifs at he <;> simp at he
    · rw [he]; decide
    · rw [he]; decide
    · rcases he with rfl | rfl <;> decide
  · intro type e he
    split_ifs at he <;> simp at he
    · rw [he]
      exact (lawful_part _).each
    · rw [he]
      exact lawful_text
    · rcases he with rfl | rfl
      · exact (lawful_part _).each
      · exact (lawful_part _).each

theorem lawful_walkRequest (format : ApiFormat) : Lawful (walkRequest format) := by
  cases format with
  | chatCompletions => exact lawful_chatRequest
  | messages => exact lawful_messagesRequest
  | responses => exact lawful_responsesRequest

theorem lawful_walkResponse (format : ApiFormat) : Lawful (walkResponse format) := by
  cases format with
  | chatCompletions => exact lawful_chatResponse
  | messages => exact lawful_messagesResponse
  | responses => exact lawful_responsesResponse

end LlmGuard.Extract
