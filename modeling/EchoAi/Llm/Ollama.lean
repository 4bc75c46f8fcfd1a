import EchoAi.Agent.Message
import EchoAi.Json.Wire
import EchoAi.Splitting

/-!
# The Ollama provider

The answers of an Ollama server, read at once or while they arrive.

* `WriteBuf`, `parseStreamToolCalls`, `forwardChunk`, `writeCb`: the reader of a streamed answer.
* `ollamaChatRequest`, `ollamaChatStreaming`: a streamed answer from its pieces.
* `mintId`, `parseCalls`, `ollamaParseResponse`: an answer that is read at once, with ids from the
  counter of the process.
* `streamAll`, `delivered_iff`: what all lines of a streamed answer carry, and when it is delivered.

Memory does not run out and the transfer succeeds.
-/

namespace EchoAi

/-! ## A streamed answer -/

/-- The state of the reader of a streamed answer, with the texts that `on_chunk` got. -/
structure WriteBuf where
  data : List UInt8 := []
  thinkingOpen : Bool := false
  onChunk : Bool := true
  chunks : List String := []
  toolCalls : List ToolCall := []
  deriving DecidableEq, Repr

section Stream

variable (json : WireJson)

/-- The text of a member, empty when there is none. -/
def memberText (j : JsonValue) (name : String) : String :=
  ((j.member name).bind JsonValue.stringValue).getD ""

/-- The arguments of a call, printed. -/
def callArguments (fn : JsonValue) : String := ((fn.member "arguments").bind json.print).getD ""

/-- An entry of `tool_calls` as the reader of a streamed answer keeps it. -/
def streamCall (tc : JsonValue) : Option ToolCall := do
  let fn ← tc.member "function"
  let name := memberText fn "name"
  if name = "" then none
  else some { id := some "", name := some name, arguments := some (callArguments json fn) }

/-- The entries of `tool_calls`. -/
def toolCallItems (msg : JsonValue) : List JsonValue :=
  ((msg.member "tool_calls").map JsonValue.items).getD []

/-- `parse_stream_tool_calls`. -/
def parseStreamToolCalls (buf : WriteBuf) (msg : JsonValue) : WriteBuf :=
  { buf with toolCalls := buf.toolCalls ++ (toolCallItems msg).filterMap (streamCall json) }

/-- The part of `forward_chunk` about the thinking. -/
def forwardThinking (buf : WriteBuf) (thinking : String) : WriteBuf :=
  if thinking = "" then buf
  else
    { buf with
      chunks := buf.chunks ++ (if buf.thinkingOpen then [] else ["<think>\n"]) ++ [thinking]
      thinkingOpen := true }

/-- The part of `forward_chunk` about the content. -/
def forwardContent (buf : WriteBuf) (content : String) : WriteBuf :=
  if content = "" then buf
  else
    { buf with
      chunks := buf.chunks ++ (if buf.thinkingOpen then ["\n</think>\n\n"] else []) ++ [content]
      thinkingOpen := false }

/-- `forward_chunk`. -/
def forwardChunk (buf : WriteBuf) (msg : JsonValue) : WriteBuf :=
  forwardContent (forwardThinking buf (memberText msg "thinking")) (memberText msg "content")

/-- The message of a line; a line that is empty or no JSON has none. -/
def lineMessage (line : List UInt8) : Option JsonValue :=
  if cString line = [] then none else (json.parse (cString line)).bind (·.member "message")

/-- A complete line. -/
def takeLine (buf : WriteBuf) (line : List UInt8) : WriteBuf :=
  match lineMessage json line with
  | some msg => parseStreamToolCalls json (forwardChunk buf msg) msg
  | none => buf

/-- The loop of `write_cb` over the buffer, behind the beginning of a line. -/
def writeLoop (buf : WriteBuf) (line : List UInt8) : (bs : List UInt8) → WriteBuf
  | [] => { buf with data := line }
  | b :: bs =>
    if b = '\n'.toUInt8 then writeLoop (takeLine json buf line) [] bs
    else writeLoop buf (line ++ [b]) bs

/-- `write_cb`. -/
def writeCb (buf : WriteBuf) (ptr : List UInt8) : WriteBuf :=
  if buf.onChunk then writeLoop json buf [] (buf.data ++ ptr)
  else { buf with data := buf.data ++ ptr }

/-- What is left in the buffer when the transfer ends. -/
def takeRest (buf : WriteBuf) : WriteBuf :=
  match lineMessage json buf.data with
  | some msg => forwardChunk buf msg
  | none => buf

/-- `ollama_chat_request` for a streamed answer that comes in pieces. -/
def ollamaChatRequest (pieces : List (List UInt8)) : WriteBuf :=
  takeRest json (pieces.foldl (writeCb json) {})

/-- `ollama_chat_streaming`: the content is what `on_chunk` got. -/
def ollamaChatStreaming (pieces : List (List UInt8)) : LLMResponse :=
  let buf := ollamaChatRequest json pieces
  { content := if buf.chunks = [] then none else some (String.join buf.chunks)
    toolCalls := buf.toolCalls }

/-! ## An answer read at once -/

/-- The id for the next value of the counter `call_seq`. -/
def mintId (callSeq : UInt32) : String :=
  "call_" ++ String.ofList (JsonText.printNat callSeq.toNat)

/-- The calls of an answer read at once: each entry has its place, and one without a function stays
empty. -/
def parseCalls (callSeq : UInt32) : List JsonValue → UInt32 × List ToolCall
  | [] => (callSeq, [])
  | tc :: tcs =>
    match tc.member "function" with
    | none =>
      let (callSeq, calls) := parseCalls callSeq tcs
      (callSeq, {} :: calls)
    | some fn =>
      let call : ToolCall :=
        { id := some (mintId callSeq)
          name := some (memberText fn "name")
          arguments := some (callArguments json fn) }
      let (callSeq, calls) := parseCalls (callSeq + 1) tcs
      (callSeq, call :: calls)

/-- The content and the thinking of an answer read at once. -/
def parseContent (msg : JsonValue) : LLMResponse :=
  let thinking := memberText msg "thinking"
  if thinking = "" then { content := (msg.member "content").bind JsonValue.stringValue }
  else
    { thinking := some thinking
      content := some ("<think>\n" ++ thinking ++ "\n</think>\n\n" ++ memberText msg "content") }

/-- `ollama_parse_response`, with the counter before and after. -/
def ollamaParseResponse (callSeq : UInt32) (raw : List UInt8) : UInt32 × Option LLMResponse :=
  match (json.parse (cString raw)).bind (·.member "message") with
  | none => (callSeq, none)
  | some msg =>
    let (callSeq, calls) := parseCalls json callSeq (toolCallItems msg)
    (callSeq, some { parseContent msg with toolCalls := calls })

end Stream

/-! ## Pieces and lines -/

section Lines

variable (json : WireJson)

/-- The reader on a single byte. -/
def writeByte (buf : WriteBuf) (b : UInt8) : WriteBuf :=
  if b = '\n'.toUInt8 then { takeLine json buf buf.data with data := [] }
  else { buf with data := buf.data ++ [b] }

/-- The lines of an answer; the last one is what stands behind the last newline. -/
def answerLines (bs : List UInt8) : List (List UInt8) := bs.splitOn '\n'.toUInt8

/-- All lines of an answer, read one after the other. -/
def streamAll (bs : List UInt8) : WriteBuf := (answerLines bs).foldl (takeLine json) {}

variable {json}

theorem takeLine_data (buf : WriteBuf) (d line : List UInt8) :
    takeLine json { buf with data := d } line = { takeLine json buf line with data := d } := by
  have hforward : ∀ msg, forwardChunk { buf with data := d } msg =
      { forwardChunk buf msg with data := d } := by
    intro msg
    simp only [forwardChunk, forwardThinking, forwardContent]
    split_ifs
    all_goals rfl
  rw [takeLine, takeLine]
  split
  · rw [hforward, parseStreamToolCalls, parseStreamToolCalls]
  · rfl

theorem takeLine_onChunk (buf : WriteBuf) (line : List UInt8) :
    (takeLine json buf line).onChunk = buf.onChunk := by
  have hforward : ∀ msg, (forwardChunk buf msg).onChunk = buf.onChunk := by
    intro msg
    simp only [forwardChunk, forwardThinking, forwardContent]
    split_ifs
    all_goals rfl
  rw [takeLine]
  split
  · exact hforward _
  · rfl

/-- The loop over a buffer is the reader byte by byte. -/
theorem writeLoop_eq_foldl (buf : WriteBuf) (line bs : List UInt8) :
    writeLoop json buf line bs = bs.foldl (writeByte json) { buf with data := line } := by
  induction bs generalizing buf line with
  | nil => rfl
  | cons b bs ih =>
    rw [writeLoop, List.foldl_cons, writeByte]
    split
    · rw [ih]
      congr 1
      show _ = { takeLine json { buf with data := line } line with data := [] }
      rw [takeLine_data buf line line]
    · rw [ih]

/-- Bytes without a newline are kept for later. -/
theorem foldl_writeByte_of_notMem (buf : WriteBuf) {bs : List UInt8} (hbs : '\n'.toUInt8 ∉ bs) :
    bs.foldl (writeByte json) buf = { buf with data := buf.data ++ bs } := by
  induction bs generalizing buf with
  | nil => rw [List.foldl_nil, List.append_nil]
  | cons b bs ih =>
    rw [List.mem_cons, not_or] at hbs
    rw [List.foldl_cons, ih _ hbs.2, writeByte, if_neg (Ne.symm hbs.1), List.append_assoc]
    rfl

/-- Between the pieces a streaming reader keeps no newline. -/
structure Between (buf : WriteBuf) : Prop where
  onChunk : buf.onChunk = true
  data : '\n'.toUInt8 ∉ buf.data

theorem Between.writeByte {buf : WriteBuf} (h : Between buf) (b : UInt8) :
    Between (writeByte json buf b) := by
  rw [EchoAi.writeByte]
  split
  · exact ⟨(takeLine_onChunk buf buf.data).trans h.onChunk, List.not_mem_nil⟩
  · rename_i hb
    refine ⟨h.onChunk, fun hmem => ?_⟩
    rcases List.mem_append.1 hmem with hmem | hmem
    · exact h.data hmem
    · exact hb (List.mem_singleton.1 hmem).symm

theorem Between.foldl {buf : WriteBuf} (h : Between buf) (bs : List UInt8) :
    Between (bs.foldl (EchoAi.writeByte json) buf) := by
  induction bs generalizing buf with
  | nil => exact h
  | cons b bs ih => exact ih (h.writeByte b)

/-- A piece is read byte by byte behind what was kept. -/
theorem writeCb_eq_foldl {buf : WriteBuf} (h : Between buf) (ptr : List UInt8) :
    writeCb json buf ptr = ptr.foldl (writeByte json) buf := by
  rw [writeCb, if_pos h.onChunk, writeLoop_eq_foldl, List.foldl_append,
    foldl_writeByte_of_notMem _ h.data]
  rfl

/-- How an answer is cut into pieces makes no difference. -/
theorem foldl_writeCb (pieces : List (List UInt8)) {buf : WriteBuf} (h : Between buf) :
    pieces.foldl (writeCb json) buf = pieces.flatten.foldl (writeByte json) buf := by
  induction pieces generalizing buf with
  | nil => rfl
  | cons ptr pieces ih =>
    rw [List.foldl_cons, List.flatten_cons, List.foldl_append, writeCb_eq_foldl h,
      ih (h.foldl ptr)]

/-- The reader byte by byte takes the complete lines and keeps the last one. -/
theorem foldl_writeByte_eq (bs : List UInt8) (buf : WriteBuf) :
    ∃ complete last, answerLines bs = complete ++ [last] ∧
      bs.foldl (writeByte json) { buf with data := [] } =
        { complete.foldl (takeLine json) buf with data := last } := by
  induction bs using splitOn_induction '\n'.toUInt8 generalizing buf with
  | last bs hbs =>
    refine ⟨[], bs, ?_, ?_⟩
    · rw [answerLines, List.splitOn_eq_singleton hbs, List.nil_append]
    · rw [foldl_writeByte_of_notMem _ hbs]
      rfl
  | cut line rest hline ih =>
    obtain ⟨complete, last, hsplit, hfold⟩ := ih (takeLine json buf line)
    refine ⟨line :: complete, last, ?_, ?_⟩
    · rw [answerLines, List.splitOn_append_cons_self_of_not_mem hline, List.cons_append, ← hsplit,
        answerLines]
    · rw [List.foldl_append, foldl_writeByte_of_notMem _ hline, List.foldl_cons,
        EchoAi.writeByte, if_pos rfl, List.foldl_cons, ← hfold]
      congr 1
      show { takeLine json { buf with data := line } line with data := [] } = _
      rw [takeLine_data]

/-! ## What is lost -/

/-- An entry of `tool_calls` that the reader keeps: a function with a name. -/
def Kept (tc : JsonValue) : Prop := ∃ fn, tc.member "function" = some fn ∧ memberText fn "name" ≠ ""

/-- A line carries a call that the reader keeps. -/
def CarriesCall (json : WireJson) (line : List UInt8) : Prop :=
  ∃ msg, lineMessage json line = some msg ∧ ∃ tc ∈ toolCallItems msg, Kept tc

theorem streamCall_eq_none_iff (tc : JsonValue) : streamCall json tc = none ↔ ¬Kept tc := by
  rw [Kept, streamCall]
  cases tc.member "function" with
  | none => simp
  | some fn => simp

theorem filterMap_streamCall_eq_nil_iff (msg : JsonValue) :
    (toolCallItems msg).filterMap (streamCall json) = [] ↔ ∀ tc ∈ toolCallItems msg, ¬Kept tc := by
  rw [List.filterMap_eq_nil_iff]
  exact forall₂_congr fun tc _ => streamCall_eq_none_iff tc

/-- What the user and the agent get of an answer: the texts and the calls. -/
def WriteBuf.delivers (buf : WriteBuf) : List String × List ToolCall := (buf.chunks, buf.toolCalls)

/-- The end of the transfer does to the last line what a newline would do, but for its calls. -/
theorem takeRest_eq_takeLine_iff (buf : WriteBuf) (line : List UInt8) :
    (takeRest json { buf with data := line }).delivers = (takeLine json buf line).delivers ↔
      ¬CarriesCall json line := by
  have hdata : (takeLine json { buf with data := line } line).delivers =
      (takeLine json buf line).delivers := by
    rw [takeLine_data]
    rfl
  rw [← hdata, takeRest, takeLine, CarriesCall]
  cases hmsg : lineMessage json line with
  | none => simp
  | some msg =>
    have hcalls : ∀ calls : List ToolCall, calls = calls ++
        (toolCallItems msg).filterMap (streamCall json) ↔ ∀ tc ∈ toolCallItems msg, ¬Kept tc := by
      intro calls
      rw [← filterMap_streamCall_eq_nil_iff, List.self_eq_append_right]
    simp only [WriteBuf.delivers, parseStreamToolCalls, Prod.mk.injEq, true_and, hcalls,
      Option.some.injEq, exists_eq_left', not_exists, not_and]

/-- A streamed answer brings the texts and the calls of all its lines just when its last line ends
in a newline or carries no call. -/
theorem delivered_iff (json : WireJson) (pieces : List (List UInt8)) :
    (ollamaChatRequest json pieces).delivers = (streamAll json pieces.flatten).delivers ↔
      ∀ line ∈ (answerLines pieces.flatten).getLast?, ¬CarriesCall json line := by
  have hstart : Between ({} : WriteBuf) := ⟨rfl, List.not_mem_nil⟩
  obtain ⟨complete, last, hsplit, hfold⟩ :=
    @foldl_writeByte_eq json pieces.flatten {}
  rw [ollamaChatRequest, foldl_writeCb pieces hstart, streamAll, hsplit, List.foldl_append,
    List.getLast?_concat]
  show (takeRest json (pieces.flatten.foldl (writeByte json) { data := [] })).delivers =
    (takeLine json (complete.foldl (takeLine json) {}) last).delivers ↔ _
  rw [hfold, takeRest_eq_takeLine_iff]
  simp only [Option.mem_def, Option.some.injEq, forall_eq']

end Lines

/-- A line with a call and no newline behind it. -/
def callLine : List UInt8 :=
  ascii ("\x7b\"message\":\x7b\"tool_calls\":[\x7b\"function\":\x7b\"name\":\"ls\"" ++
    "\x7d\x7d]\x7d\x7d")

/-- The call of an unterminated line is lost. -/
theorem not_delivered_callLine :
    (ollamaChatRequest byteJson [callLine]).delivers = ([], []) ∧
      (streamAll byteJson callLine).delivers =
        ([], [{ id := some "", name := some "ls", arguments := some "" }]) := by
  rw [byteJson_eq]
  decide +kernel

end EchoAi
