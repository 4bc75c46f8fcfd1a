import EchoAi.Agent.Message
import EchoAi.Bytes
import EchoAi.Json.Wire

/-!
# The OpenAI-compatible provider

The answer of a server that speaks the chat-completions protocol, read at once or while it arrives.

* `openaiCompatibleParseResponse`: an answer that is read at once.
* `parseStreamEvent`, `streamParserFeed`, `streamParserFinish`: the events of a streamed answer, its
  bytes and its end; `streamRun` is the whole of it.
* `Delta`, `readDelta`: what an event says; `parseStreamEvent_eq` reduces an event to it.

Memory does not run out, and there is an `on_chunk`.
-/

namespace EchoAi.Compatible

/-! ## An answer that is read at once -/

/-- The reasoning of a message or a delta. -/
def reasoningItem (j : JsonValue) : Option JsonValue :=
  (j.member "reasoning_content").or (j.member "reasoning")

/-- The text of an item, absent when there is no item or it is no string. -/
def itemText (item : Option JsonValue) : Option String := item.bind JsonValue.stringValue

section Model

variable (json : WireJson)

/-- One entry of `tool_calls` in a message; one without a function is left empty. -/
def parseCall (tc : JsonValue) : ToolCall :=
  match tc.member "function" with
  | none => {}
  | some fn =>
    { id := some ((itemText (tc.member "id")).getD "")
      name := some ((itemText (fn.member "name")).getD "")
      arguments := some (match fn.member "arguments" with
        | none => ""
        | some (.string text) => text
        | some arguments => (json.print arguments).getD "") }

/-- The content of a message, with the reasoning in a block before it. -/
def parseContent (message : JsonValue) : LLMResponse :=
  match (itemText (reasoningItem message)).filter (· ≠ "") with
  | some reasoning =>
    { thinking := some reasoning
      content := some ("<think>\n" ++ reasoning ++ "\n</think>\n\n" ++
        (itemText (message.member "content")).getD "") }
  | none => { content := itemText (message.member "content") }

/-- The entries of an array, or none. -/
def arrayItems (j : Option JsonValue) : List JsonValue := (j.map JsonValue.items).getD []

/-- `openai_compatible_parse_response` -/
def openaiCompatibleParseResponse (raw : List UInt8) : Option LLMResponse := do
  let root ← json.parse (cString raw)
  let choice ← (arrayItems ((root.member "choices").filter JsonValue.isArray)).head?
  let message ← (choice.member "message").or (choice.member "delta")
  return { parseContent message with
    toolCalls := (arrayItems ((message.member "tool_calls").filter JsonValue.isArray)).map
      (parseCall json) }

/-! ## A streamed answer -/

/-- The answer so far, with the texts that `on_chunk` got. -/
structure StreamAnswer where
  content : Option String := none
  toolCalls : List ToolCall := []
  thinkingOpen : Bool := false
  chunks : List String := []
  deriving DecidableEq, Repr

/-- `str_append` -/
def strAppend (target : Option String) (value : String) : Option String :=
  some (target.getD "" ++ value)

/-- `str_append` of a text that may be absent. -/
def strAppendItem (target value : Option String) : Option String :=
  match value with
  | some value => strAppend target value
  | none => target

/-- A text that goes to the content and to `on_chunk`. -/
def StreamAnswer.say (a : StreamAnswer) (text : String) : StreamAnswer :=
  { a with content := strAppend a.content text, chunks := a.chunks ++ [text] }

/-- `forward_reasoning_delta` -/
def forwardReasoningDelta (a : StreamAnswer) (text : String) : StreamAnswer :=
  if text = "" then a
  else
    let a := if a.thinkingOpen then a else { a.say "<think>\n" with thinkingOpen := true }
    a.say text

/-- The closing of the block, when it is open. -/
def closeThinking (a : StreamAnswer) : StreamAnswer :=
  if a.thinkingOpen then { a.say "\n</think>\n\n" with thinkingOpen := false } else a

/-- The part of an event about the content. -/
def forwardContent (a : StreamAnswer) (text : String) : StreamAnswer :=
  if text = "" then a else (closeThinking a).say text

/-- `ensure_tool_call` -/
def ensureToolCall (calls : List ToolCall) (index : Int) : Option (List ToolCall) :=
  if index < 0 then none
  else some (calls ++ List.replicate (index.toNat + 1 - calls.length) ({ } : ToolCall))

/-- The fragments of a call that an event carries. -/
structure CallDelta where
  index : Int
  id : Option String := none
  name : Option String := none
  arguments : Option String := none
  deriving DecidableEq, Repr

/-- The call with the fragments added. -/
def CallDelta.addTo (f : CallDelta) (call : ToolCall) : ToolCall :=
  { call with
    id := strAppendItem call.id f.id
    name := strAppendItem call.name f.name
    arguments := strAppendItem call.arguments f.arguments }

/-- One entry of `tool_calls` in a delta. -/
def readCallDelta (item : JsonValue) : CallDelta where
  index := (((item.member "index").bind JsonValue.numberValue).map Decimal.valueInt).getD 0
  id := itemText (item.member "id")
  name := (item.member "function").bind fun fn => itemText (fn.member "name")
  arguments := (item.member "function").bind fun fn => itemText (fn.member "arguments")

/-- The calls with the fragments of one entry. -/
def addCallDelta (calls : List ToolCall) (f : CallDelta) : Option (List ToolCall) := do
  let calls ← ensureToolCall calls f.index
  return calls.modify f.index.toNat f.addTo

/-- The `delta` of an event. -/
def eventDelta (event : JsonValue) : Option JsonValue := do
  let choice ← (arrayItems ((event.member "choices").filter JsonValue.isArray)).head?
  choice.member "delta"

/-- `parse_stream_event` -/
def parseStreamEvent (a : StreamAnswer) (text : List UInt8) : Option StreamAnswer := do
  let event ← json.parse text
  match eventDelta event with
  | none => return a
  | some delta =>
    let a := match itemText (reasoningItem delta) with
      | some reasoning => forwardReasoningDelta a reasoning
      | none => a
    let a := match itemText (delta.member "content") with
      | some content => forwardContent a content
      | none => a
    let items := arrayItems ((delta.member "tool_calls").filter JsonValue.isArray)
    let toolCalls ← (items.map readCallDelta).foldlM addCallDelta a.toolCalls
    return { a with toolCalls }

/-- The state of the reader: the answer so far and the line that has begun. -/
structure StreamParser where
  answer : StreamAnswer := {}
  line : List UInt8 := []
  deriving DecidableEq, Repr

/-- The line without a carriage return at its end. -/
def stripCr (line : List UInt8) : List UInt8 :=
  if line.getLast? = some 13 then line.dropLast else line

/-- The text of the event in a line: behind `data: `, unless it is `[DONE]`. -/
def lineEvent (line : List UInt8) : Option (List UInt8) :=
  let data := ascii "data: "
  if data.isPrefixOf line then
    (some (line.drop data.length)).filter (· ≠ ascii "[DONE]")
  else none

/-- A line that is over. -/
def takeLine (a : StreamAnswer) (line : List UInt8) : Option StreamAnswer :=
  match lineEvent (cString (stripCr line)) with
  | some text => parseStreamEvent json a text
  | none => some a

/-- One byte of `stream_parser_feed`. -/
def feedByte (p : StreamParser) (b : UInt8) : Option StreamParser :=
  if b = 10 then (takeLine json p.answer p.line).map fun a => { answer := a, line := [] }
  else some { p with line := p.line ++ [b] }

/-- `stream_parser_feed` -/
def streamParserFeed (p : StreamParser) (bytes : List UInt8) : Option StreamParser :=
  bytes.foldlM (feedByte json) p

/-- `stream_parser_finish` -/
def streamParserFinish (p : StreamParser) : Option StreamAnswer :=
  (if p.line = [] then some p.answer else takeLine json p.answer p.line).map closeThinking

/-- A streamed answer from its pieces. -/
def streamRun (pieces : List (List UInt8)) : Option StreamAnswer := do
  let p ← pieces.foldlM (streamParserFeed json) {}
  streamParserFinish json p

end Model

/-! ## What an event says -/

/-- What an event says. -/
structure Delta where
  reasoning : Option String := none
  content : Option String := none
  calls : List CallDelta := []
  deriving DecidableEq, Repr

/-- The delta that an event carries; an event without one says nothing. -/
def readDelta (event : JsonValue) : Delta :=
  match eventDelta event with
  | none => {}
  | some delta =>
    { reasoning := itemText (reasoningItem delta)
      content := itemText (delta.member "content")
      calls := (arrayItems ((delta.member "tool_calls").filter JsonValue.isArray)).map
        readCallDelta }

/-- The texts of a delta. -/
def Delta.speak (d : Delta) (a : StreamAnswer) : StreamAnswer :=
  forwardContent (forwardReasoningDelta a (d.reasoning.getD "")) (d.content.getD "")

/-- The answer after a delta. -/
def Delta.apply (d : Delta) (a : StreamAnswer) : Option StreamAnswer := do
  let toolCalls ← d.calls.foldlM addCallDelta a.toolCalls
  return { d.speak a with toolCalls }

theorem toolCalls_forwardReasoningDelta (a : StreamAnswer) (text : String) :
    (forwardReasoningDelta a text).toolCalls = a.toolCalls := by
  rw [forwardReasoningDelta]
  split
  · rfl
  · dsimp only
    split <;> rfl

theorem toolCalls_closeThinking (a : StreamAnswer) :
    (closeThinking a).toolCalls = a.toolCalls := by
  rw [closeThinking]
  split <;> rfl

theorem toolCalls_forwardContent (a : StreamAnswer) (text : String) :
    (forwardContent a text).toolCalls = a.toolCalls := by
  rw [forwardContent]
  split
  · rfl
  · exact toolCalls_closeThinking a

/-- An event that parses does what its delta says. -/
theorem parseStreamEvent_eq {json : WireJson} {text : List UInt8} {event : JsonValue}
    (h : json.parse text = some event) (a : StreamAnswer) :
    parseStreamEvent json a text = (readDelta event).apply a := by
  rw [parseStreamEvent, h, Option.bind_eq_bind, Option.bind_some, readDelta]
  cases eventDelta event with
  | none => rfl
  | some delta =>
    have hreasoning : (match itemText (reasoningItem delta) with
        | some reasoning => forwardReasoningDelta a reasoning
        | none => a) = forwardReasoningDelta a ((itemText (reasoningItem delta)).getD "") := by
      cases itemText (reasoningItem delta) with
      | none => exact (if_pos rfl).symm
      | some reasoning => rfl
    have hcontent : ∀ b, (match itemText (delta.member "content") with
        | some content => forwardContent b content
        | none => b) = forwardContent b ((itemText (delta.member "content")).getD "") := by
      intro b
      cases itemText (delta.member "content") with
      | none => exact (if_pos rfl).symm
      | some content => rfl
    dsimp only
    rw [hreasoning, hcontent, toolCalls_forwardContent, toolCalls_forwardReasoningDelta]
    rfl

end EchoAi.Compatible
