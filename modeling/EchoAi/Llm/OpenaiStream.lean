import EchoAi.Agent.Message
import EchoAi.Json.Wire
import EchoAi.Splitting

/-!
# The stream of the OpenAI provider

An answer comes as bytes, the bytes make lines, the lines make events, and an event is a JSON text.

* `EventParser`, `parseStreamEvent`: what the events say, and one event.
* `upsertFunctionItem`, `parseArgumentDelta`, `mergeCompletedOutput`, `appendReasoningItem`: calls
  that come in parts, and the state for the provider.
* `emitThinkingText`, `emitSummaryText`, `closeThinkingBlock`: the thinking in the text.
* `SseParser`, `streamProcessLine`, `feedByte`: lines and bytes.
* `StreamParser`, `streamFeed`, `streamFinish`, `streamRun`: the pieces of an answer and its end.

Nothing is kept of an answer that fails.  Memory does not run out, and `event_data` has the limit of
an event.
-/

namespace EchoAi

/-! ## Limits and readings -/

/-- `OPENAI_MAX_REQUEST_BYTES`. -/
def openaiMaxRequestBytes : Nat := 16 * 1024 * 1024

/-- `OPENAI_MAX_RESPONSE_BYTES`. -/
def openaiMaxResponseBytes : Nat := 32 * 1024 * 1024

/-- `OPENAI_MAX_SSE_EVENT_BYTES`. -/
def openaiMaxSseEventBytes : Nat := 4 * 1024 * 1024

/-- The bytes of a text. -/
def textBytes (s : String) : List UInt8 := s.toUTF8.toList

/-- The text of a member, absent when the member is no string. -/
def exactText (j : JsonValue) (name : String) : Option String :=
  (j.exactMember name).bind JsonValue.stringValue

/-- `valid_nonempty_string`, with the text. -/
def validNonemptyString (item : Option JsonValue) : Option String :=
  (item.bind JsonValue.stringValue).filter (· ≠ "")

/-- `parse_bounded_json`. -/
def parseBoundedJson (json : WireJson) (text : List UInt8) (limit : Nat) : Option JsonValue :=
  if text = [] ∨ limit < text.length then none else json.parse text

/-- `json_integer`: a whole number between zero and `INT_MAX`. -/
def jsonInteger (item : JsonValue) : Option Int := do
  let x ← item.numberValue
  if x.mantissa < 0 ∨ ¬x.isWhole ∨ 2 ^ 31 ≤ x.truncate then none else some x.truncate

/-- `response_status_ok`. -/
def responseStatusOk (root : JsonValue) : Bool :=
  if ((root.exactMember "error").map fun e => !e.isNull) = some true then false
  else
    match root.exactMember "status" with
    | none => true
    | some status => status.stringValue == some "completed"

/-! ## What the events say -/

/-- A call of the response with the two keys that events name it by. -/
structure FunctionCallMap where
  outputIndex : Int
  responseIndex : Nat
  itemId : Option String
  deriving DecidableEq, Repr

/-- The part of the parser that events change, with the texts that `on_chunk` got. -/
structure EventParser where
  response : LLMResponse := {}
  calls : List FunctionCallMap := []
  chunks : List String := []
  terminalSeen : Bool := false
  completed : Bool := false
  failed : Bool := false
  thinkingOpen : Bool := false
  summaryDeltasSeen : Bool := false
  deriving DecidableEq, Repr

/-- A text for the content and for `on_chunk`. -/
def EventParser.say (p : EventParser) (text : String) : EventParser :=
  { p with
    response := { p.response with content := some (p.response.content.getD "" ++ text) }
    chunks := p.chunks ++ [text] }

/-- A call of the response, changed. -/
def EventParser.setCall (p : EventParser) (i : Nat) (call : ToolCall) : EventParser :=
  { p with response := { p.response with toolCalls := p.response.toolCalls.set i call } }

/-! ## Calls in parts -/

/-- `map_matches`. -/
def mapMatches (p : EventParser) (outputIndex : Int) (itemId callId : Option String)
    (map : FunctionCallMap) : Bool :=
  let call := p.response.toolCalls.getD map.responseIndex {}
  (decide (0 ≤ outputIndex) && map.outputIndex == outputIndex) ||
    (itemId.isSome && map.itemId == itemId) ||
    (callId.isSome && call.id != some "" && call.id == callId)

/-- `find_stream_call`. -/
def findStreamCall (p : EventParser) (outputIndex : Int) (itemId callId : Option String) :
    Option Nat :=
  p.calls.findIdx? (mapMatches p outputIndex itemId callId)

/-- `add_stream_call`: the new entry stands behind the others. -/
def addStreamCall (p : EventParser) (outputIndex : Int)
    (itemId callId name arguments : Option String) : EventParser :=
  let call : ToolCall :=
    { id := some (callId.getD ""), name := some (name.getD ""),
      arguments := some (arguments.getD "") }
  { p with
    response := { p.response with toolCalls := p.response.toolCalls ++ [call] }
    calls := p.calls ++ [{ outputIndex, responseIndex := p.response.toolCalls.length, itemId }] }

/-- `replace_call_field`: the field behind it. -/
def replaceCallField (field value : Option String) (requireEmpty : Bool) :
    Option (Option String) :=
  if value = none then some field
  else if requireEmpty ∧ field ≠ none ∧ field ≠ some "" ∧ field ≠ value then none
  else some value

/-- `upsert_function_item`. -/
def upsertFunctionItem (p : EventParser) (outputIndex : Int) (item : JsonValue) :
    Option EventParser :=
  let itemId := exactText item "id"
  let callId := exactText item "call_id"
  let name := exactText item "name"
  let arguments := exactText item "arguments"
  match findStreamCall p outputIndex itemId callId with
  | none => some (addStreamCall p outputIndex itemId callId name arguments)
  | some i => do
    let map ← p.calls[i]?
    let call ← p.response.toolCalls[map.responseIndex]?
    if 0 ≤ outputIndex ∧ 0 ≤ map.outputIndex ∧ map.outputIndex ≠ outputIndex then none
    else
      let mapItemId ← replaceCallField map.itemId itemId true
      let id ← replaceCallField call.id callId true
      let name ← replaceCallField call.name name true
      let arguments ← replaceCallField call.arguments arguments false
      let newMap : FunctionCallMap :=
        { map with
          outputIndex := if map.outputIndex < 0 then outputIndex else map.outputIndex
          itemId := mapItemId }
      let p := p.setCall map.responseIndex { call with id, name, arguments }
      return { p with calls := p.calls.set i newMap }

/-- `event_output_index`. -/
def eventOutputIndex (event : JsonValue) : Int :=
  ((event.exactMember "output_index").bind jsonInteger).getD (-1)

/-- `capture_message_phase`. -/
def captureMessagePhase (p : EventParser) (item : JsonValue) : Option EventParser :=
  match item.exactMember "phase" with
  | none => some p
  | some phase => do
    let phase ← validNonemptyString phase
    return { p with response := { p.response with phase := some phase } }

/-- The arguments of a call behind an event about them. -/
def argumentsBehind (done : Bool) (arguments : Option String) (value : String) : String :=
  if done then value else arguments.getD "" ++ value

/-- `parse_argument_delta`. -/
def parseArgumentDelta (p : EventParser) (event : JsonValue) (done : Bool) :
    Option EventParser := do
  let itemId := exactText event "item_id"
  let callId := exactText event "call_id"
  let value ← exactText event (if done then "arguments" else "delta")
  let outputIndex := eventOutputIndex event
  let (p, i) :=
    match findStreamCall p outputIndex itemId callId with
    | some i => (p, i)
    | none => (addStreamCall p outputIndex itemId callId none none, p.calls.length)
  let map ← p.calls[i]?
  let call ← p.response.toolCalls[map.responseIndex]?
  return p.setCall map.responseIndex
    { call with arguments := some (argumentsBehind done call.arguments value) }

/-! ## The state for the provider -/

/-- The loop of `merge_completed_output` over the items from a place on, with the reasoning found
among them. -/
def mergeItems (p : EventParser) : (index : Nat) → (items : List JsonValue) →
    Option (EventParser × List JsonValue)
  | _, [] => some (p, [])
  | index, item :: items => do
    let type ← validNonemptyString (item.exactMember "type")
    if type = "reasoning" then
      let (p, reasoning) ← mergeItems p (index + 1) items
      return (p, item :: reasoning)
    else if type = "function_call" then
      let p ← upsertFunctionItem p index item
      mergeItems p (index + 1) items
    else if type = "message" then
      let p ← captureMessagePhase p item
      mergeItems p (index + 1) items
    else mergeItems p (index + 1) items

/-- The state for the provider, written anew. -/
def setProviderState (json : WireJson) (p : EventParser) (reasoning : List JsonValue) :
    Option EventParser := do
  let serialized ← json.print (.array reasoning)
  return { p with response := { p.response with providerState := some serialized } }

/-- `merge_completed_output`. -/
def mergeCompletedOutput (json : WireJson) (p : EventParser) (response : JsonValue) :
    Option EventParser :=
  match response.exactMember "output" with
  | none => some p
  | some (.array items) => do
    let (p, reasoning) ← mergeItems p 0 items
    if reasoning = [] then some p else setProviderState json p reasoning
  | some _ => none

/-- The reasoning kept so far. -/
def keptReasoning (json : WireJson) (p : EventParser) : Option (List JsonValue) :=
  match p.response.providerState with
  | none => some []
  | some state =>
    match parseBoundedJson json (textBytes state) openaiMaxRequestBytes with
    | some (.array items) => some items
    | _ => none

/-- `append_reasoning_item`. -/
def appendReasoningItem (json : WireJson) (p : EventParser) (item : JsonValue) :
    Option EventParser := do
  let reasoning ← keptReasoning json p
  setProviderState json p (reasoning ++ [item])

/-! ## Thinking -/

/-- `emit_thinking_text`. -/
def emitThinkingText (p : EventParser) (text : String) : EventParser :=
  if text = "" then p
  else
    let p := if p.thinkingOpen then p else { p.say "<think>\n" with thinkingOpen := true }
    p.say text

/-- `close_thinking_block`. -/
def closeThinkingBlock (p : EventParser) : EventParser :=
  if p.thinkingOpen then { p.say "\n</think>\n\n" with thinkingOpen := false } else p

/-- The summary of the thinking, from the entries that have a text. -/
def summaryTexts (item : JsonValue) : List String :=
  match item.exactMember "summary" with
  | some (.array entries) => entries.filterMap fun entry => (exactText entry "text").filter (· ≠ "")
  | _ => []

/-- `reasoning_summary_join`. -/
def reasoningSummaryJoin (item : JsonValue) : Option String :=
  match summaryTexts item with
  | [] => none
  | text :: texts => some (texts.foldl (fun joined part => joined ++ "\n" ++ part) text)

/-- A text without the marks of comments. -/
def dropMarks : List Char → List Char
  | '<' :: '!' :: '-' :: '-' :: cs => dropMarks cs
  | '-' :: '-' :: '>' :: cs => dropMarks cs
  | c :: cs => c :: dropMarks cs
  | [] => []

/-- `isspace` in the C locale. -/
def isSpaceChar (c : Char) : Bool := c = ' ' ∨ ('\t' ≤ c ∧ c ≤ '\r')

/-- `emit_summary_text`. -/
def emitSummaryText (p : EventParser) (text : String) : EventParser :=
  if firstInfix "<!--".toList text.toList = none ∧ firstInfix "-->".toList text.toList = none then
    emitThinkingText p text
  else
    let clean := dropMarks text.toList
    if clean.all isSpaceChar then p else emitThinkingText p (String.ofList clean)

/-! ## One event -/

/-- A part of the text, outside of any thinking. -/
def parseTextDelta (p : EventParser) (event : JsonValue) : Option EventParser := do
  let delta ← exactText event "delta"
  return (closeThinkingBlock p).say delta

/-- A part of the summary of the thinking. -/
def parseSummaryDelta (p : EventParser) (event : JsonValue) : Option EventParser := do
  let delta ← exactText event "delta"
  return { emitSummaryText p delta with summaryDeltasSeen := true }

/-- The whole summary, when its parts did not come. -/
def parseSummaryDone (p : EventParser) (event : JsonValue) : EventParser :=
  match exactText event "text" with
  | some text => if p.summaryDeltasSeen then p else emitSummaryText p text
  | none => p

/-- A finished item of reasoning. -/
def parseReasoningDone (json : WireJson) (p : EventParser) (item : JsonValue) :
    Option EventParser := do
  let p ← appendReasoningItem json p item
  let p :=
    if p.thinkingOpen then p
    else
      match reasoningSummaryJoin item with
      | some summary => emitSummaryText p summary
      | none => p
  return { closeThinkingBlock p with summaryDeltasSeen := false }

/-- An item that was added or is done. -/
def parseOutputItem (json : WireJson) (p : EventParser) (event : JsonValue) (done : Bool) :
    Option EventParser := do
  let item ← event.exactMember "item"
  let itemType ← validNonemptyString (item.exactMember "type")
  if itemType = "function_call" then upsertFunctionItem p (eventOutputIndex event) item
  else if done ∧ itemType = "reasoning" then parseReasoningDone json p item
  else if done ∧ itemType = "message" then captureMessagePhase p item
  else some p

/-- The end of the answer. -/
def parseCompleted (json : WireJson) (p : EventParser) (event : JsonValue) :
    Option EventParser := do
  let response ← event.exactMember "response"
  if response.isObject ∧ responseStatusOk response then
    mergeCompletedOutput json { p with terminalSeen := true, completed := true } response
  else none

/-- `parse_stream_event`. -/
def parseStreamEvent (json : WireJson) (p : EventParser) (text : List UInt8) :
    Option EventParser := do
  let event ← parseBoundedJson json text openaiMaxSseEventBytes
  let type ← validNonemptyString (event.exactMember "type")
  if type = "response.output_text.delta" then parseTextDelta p event
  else if type = "response.reasoning_summary_text.delta" then parseSummaryDelta p event
  else if type = "response.reasoning_summary_text.done" then some (parseSummaryDone p event)
  else if type = "response.output_item.added" then parseOutputItem json p event false
  else if type = "response.output_item.done" then parseOutputItem json p event true
  else if type = "response.function_call_arguments.delta" then parseArgumentDelta p event false
  else if type = "response.function_call_arguments.done" then parseArgumentDelta p event true
  else if type = "response.completed" then parseCompleted json p event
  else if type = "response.refusal.delta" then parseTextDelta p event
  else if type = "response.refusal.done" then
    if ((event.exactMember "refusal").map fun r => r.stringValue.isNone) = some true then none
    else some p
  else if type = "response.failed" ∨ type = "response.incomplete" ∨ type = "error" then
    some { p with terminalSeen := true, failed := true }
  else some p

/-! ## Lines and bytes -/

/-- The part of the parser that bytes change. -/
structure SseParser extends EventParser where
  line : List UInt8 := []
  eventData : List UInt8 := []
  deriving DecidableEq, Repr

/-- `http_buffer_append` on the data of an event. -/
def appendEventData (data more : List UInt8) : Option (List UInt8) :=
  if openaiMaxSseEventBytes < data.length + more.length then none else some (data ++ more)

/-- `stream_process_event`. -/
def streamProcessEvent (json : WireJson) (p : SseParser) : Option SseParser :=
  if p.eventData = [] then some p
  else if p.eventData = ascii "[DONE]" then some { p with terminalSeen := true, eventData := [] }
  else do
    let q ← parseStreamEvent json p.toEventParser p.eventData
    return { p with toEventParser := q, eventData := [] }

/-- The data of a line that has some. -/
def lineData (line : List UInt8) : Option (List UInt8) :=
  if ascii "data:" <+: line then
    match line.drop 5 with
    | 32 :: data => some data
    | data => some data
  else none

/-- `stream_process_line`, with the line empty behind it. -/
def streamProcessLine (json : WireJson) (p : SseParser) : Option SseParser :=
  let line := p.line.rdropWhile fun b => b = 10 ∨ b = 13
  let p := { p with line := [] }
  if line = [] then streamProcessEvent json p
  else if line.head? = some ':'.toUInt8 then some p
  else
    match lineData line with
    | none => some p
    | some data => do
      let eventData ← if p.eventData = [] then some [] else appendEventData p.eventData [10]
      let eventData ← appendEventData eventData data
      return { p with eventData }

/-- The loop of `stream_feed` for one byte. -/
def feedByte (json : WireJson) (p : SseParser) (b : UInt8) : Option SseParser :=
  if b = 0 ∨ openaiMaxSseEventBytes ≤ p.line.length then none
  else
    let p := { p with line := p.line ++ [b] }
    if b = 10 then streamProcessLine json p else some p

/-! ## The pieces of an answer and its end -/

/-- The parser, with the number of bytes that came. -/
structure StreamParser extends SseParser where
  receivedBytes : Nat := 0
  deriving DecidableEq, Repr

/-- `stream_feed`. -/
def streamFeed (json : WireJson) (p : StreamParser) (bytes : List UInt8) : Option StreamParser :=
  if openaiMaxResponseBytes < bytes.length ∨
      openaiMaxResponseBytes - bytes.length < p.receivedBytes then none
  else do
    let q ← bytes.foldlM (feedByte json) p.toSseParser
    return { toSseParser := q, receivedBytes := p.receivedBytes + bytes.length }

/-- `stream_calls_complete`. -/
def streamCallsComplete (response : LLMResponse) : Bool :=
  response.toolCalls.all fun call =>
    !(call.id.getD "" == "") && !(call.name.getD "" == "") && call.arguments.isSome

/-- The content is there even when nothing was said. -/
def withContent (p : EventParser) : EventParser :=
  { p with response := { p.response with content := some (p.response.content.getD "") } }

/-- `stream_finish`. -/
def streamFinish (json : WireJson) (p : StreamParser) : Option EventParser := do
  let p ← if p.line = [] then some p.toSseParser else streamProcessLine json p.toSseParser
  let p ← streamProcessEvent json p
  if p.terminalSeen ∧ p.completed ∧ ¬p.failed ∧ streamCallsComplete p.response then
    return withContent (closeThinkingBlock p.toEventParser)
  else none

/-- An answer in pieces, from a new parser to the end: the response and the texts that `on_chunk`
got. -/
def streamRun (json : WireJson) (pieces : List (List UInt8)) :
    Option (LLMResponse × List String) := do
  let p ← pieces.foldlM (streamFeed json) {}
  let q ← streamFinish json p
  return (q.response, q.chunks)

end EchoAi
