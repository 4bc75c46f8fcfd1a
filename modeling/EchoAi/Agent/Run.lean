import EchoAi.Agent.Context
import EchoAi.Agent.SaveSession
import EchoAi.Budget

/-!
# The run loops

A run appends the user's message and then alternates between a call of the language model and the tool
calls that it asks for, until an answer comes without tool calls.  The conversation is saved after
every step.  There are two loops: the buffered one, which cuts the conversation to the context window
before every call, and the streaming one, which sends it as it is.

* `World`: what a run meets outside, as functions of a state of the outer world.
* `RunState`: the state of a run, with a log of what it has sent, appended, received and executed.
* `executeToolCalls`: the tool calls of an answer, with their four outcomes.
* `consume`: what both loops do with an answer.
* `agentRunNew`, `agentRunStreamingNew`, `agentRunStreamingContextNew`: the runs.  A buffered run is
  absent when the window reads past the selected messages.

Allocations succeed here.  Work on texts that cuts them inside of a character is left open, as
functions of the world.
-/

namespace EchoAi

/-! ## The world of a run -/

/-- What the execution of a tool yields. -/
structure ToolResult where
  content : Option String := none
  error : Option String := none
  errorCategory : Option String := none
  deriving DecidableEq, Repr

/-- A request to the language model: the messages, and whether the schemas of the tools go along. -/
structure ChatRequest where
  messages : List Message
  tools : Bool
  deriving DecidableEq, Repr

/-- What a run meets outside.  A missing approval callback is one that always denies. -/
structure World (ω : Type) where
  cancelRequested : ω → Bool
  clearCancel : ω → ω
  cbIsAvailable : ω → Bool × ω
  /-- `cb_record_success` and `cb_record_failure` -/
  cbRecord : Bool → ω → ω
  clock : ω → Decimal × ω
  newSession : ω → NewSession × ω
  /-- the system prompt up to the summary: its text, the system context and the memory -/
  systemPrompt : ω → String × ω
  chat : ChatRequest → ω → Option LLMResponse × ω
  chatStreaming : ChatRequest → ω → Option LLMResponse × ω
  /-- whether `registry_get` finds the tool -/
  registered : String → Bool
  needsApproval : String → Bool
  approve : String → String → ω → Bool × ω
  execute : String → String → ω → Option ToolResult × ω
  strTrim : String → String
  /-- a text cut after a number of bytes -/
  cutBytes : Nat → String → String
  /-- the title, from the first question and the model's proposal -/
  titleText : String → Option String → String

/-- The state of a run, with its logs. -/
structure RunState (ω : Type) where
  world : ω
  agent : Agent
  rows : List SessionRow
  /-- the agent at each call of the language model, before any cut -/
  calls : List Agent := []
  sent : List ChatRequest := []
  appended : List Message := []
  responses : List LLMResponse := []
  executed : List ToolCall := []

/-- `str_truncate_ellipsis_dup`: whole characters up to the bound, with a marker where it fits. -/
def strTruncateEllipsis (text : String) (maxChars : Nat) : String :=
  let marker := "[... truncated, " ++ toString (text.utf8ByteSize - maxChars) ++
    " chars omitted ...]"
  let cut (keep : Nat) : String := String.ofList (Budget.fitting Char.utf8Size keep text.toList)
  if text.utf8ByteSize ≤ maxChars then text
  else if marker.utf8ByteSize + 1 < maxChars then cut (maxChars - marker.utf8ByteSize) ++ marker
  else cut maxChars

section Run

variable {ω : Type} (codec : JsonCodec) (key : EncryptionKey) (q : Qsort) (world : World ω)

/-! ## Messages -/

/-- `message_create` with the current time. -/
def messageCreate (role content : String) (st : RunState ω) : Message × RunState ω :=
  let (timestamp, outer) := world.clock st.world
  ({ role := some role, content := some content, timestamp }, { st with world := outer })

/-- `agent_append_message`. -/
def agentAppendMessage (m : Message) (st : RunState ω) : RunState ω :=
  { st with
    agent := { st.agent with messages := st.agent.messages ++ [m] }
    appended := st.appended ++ [m] }

/-- `agent_save_session` in a run.  An id is drawn when a session must be created. -/
def runSaveSession (st : RunState ω) : RunState ω :=
  let created := st.agent.hasManager &&
    (st.agent.sessionId.bind (loadSessionNolock codec Faults.none key st.rows)).isNone
  let (new, outer) := world.newSession st.world
  let (agent, rows) := agentSaveSession codec Faults.none new key st.rows st.agent
  { st with agent, rows, world := if created then outer else st.world }

/-! ## Tool calls -/

/-- Append the message of a tool. -/
def appendToolMessage (content : String) (call : ToolCall) (toolName : String)
    (errorCategory : Option String) (st : RunState ω) : RunState ω :=
  let (m, st) := messageCreate world "tool" content st
  agentAppendMessage
    { m with toolCallId := some (call.id.getD ""), toolName := some toolName, errorCategory } st

/-- The result of a tool that was run, and the call with its result. -/
def runTool (call : ToolCall) (name args : String) (st : RunState ω) : ToolCall × RunState ω :=
  let (executed, outer) := world.execute name args st.world
  let result := executed.getD
    { error := some "tool returned no result", errorCategory := some "execution_error" }
  let raw := result.content.getD ""
  let display :=
    if 0 < st.agent.maxToolResultChars then strTruncateEllipsis raw st.agent.maxToolResultChars
    else raw
  let content := match result.error with
    | some error => "Error: " ++ error
    | none => display
  ({ call with resultContent := some display, resultError := some (result.error.getD "") },
    appendToolMessage world content call name
      (result.error.map fun _ => result.errorCategory.getD "execution_error")
      { st with world := outer, executed := st.executed ++ [call] })

/-- One round of `execute_tool_calls`: unknown tool, denied, failed or done. -/
def executeToolCall (call : ToolCall) (st : RunState ω) : ToolCall × RunState ω :=
  let args := call.arguments.getD "{}"
  match call.name.filter world.registered with
  | none =>
    (call, appendToolMessage world "tool not found" call (call.name.getD "unknown")
      (some "tool_not_found") st)
  | some name =>
    if world.needsApproval name then
      let (approved, outer) := world.approve name args st.world
      if approved then runTool world call name args { st with world := outer }
      else
        (call, appendToolMessage world "tool call denied" call name (some "denied")
          { st with world := outer })
    else runTool world call name args st

/-- `execute_tool_calls`: the calls with their results. -/
def executeToolCalls : List ToolCall → RunState ω → List ToolCall × RunState ω
  | [], st => ([], st)
  | call :: calls, st =>
    let (call', st) := executeToolCall world call st
    let (calls', st) := executeToolCalls calls st
    (call' :: calls', st)

/-! ## Calls of the language model -/

/-- The conversation with the first system message renewed, absent without one. -/
def renewSystem (prompt : String) : List Message → Option (List Message)
  | [] => none
  | m :: ms =>
    if m.hasSystemRole then some ({ m with content := some prompt } :: ms)
    else (renewSystem prompt ms).map (m :: ·)

/-- The conversation led by the system prompt. -/
def injectSystem (prompt : String) (msgs : List Message) : List Message :=
  (renewSystem prompt msgs).getD ({ role := some "system", content := some prompt } :: msgs)

/-- The system prompt with the summary of what was cut off. -/
def promptWithSummary (prompt : String) : Option String → String
  | none => prompt
  | some summary => prompt ++ "\n\nPrevious conversation summary: " ++ summary

/-- `inject_system_with_summary`. -/
def injectSystemWithSummary (st : RunState ω) : RunState ω :=
  let (prompt, outer) := world.systemPrompt st.world
  { st with
    world := outer
    agent := { st.agent with
      messages := injectSystem (promptWithSummary prompt st.agent.contextSummary)
        st.agent.messages } }

/-- The transcript of a conversation. -/
def transcript (msgs : List Message) : String := String.join (msgs.filterMap Message.content)

/-- The request of a summary. -/
def summaryRequest (text : String) : ChatRequest where
  messages :=
    [{ role := some "system",
       content := some "Summarize this conversation concisely in 2-3 sentences." },
     { role := some "user",
       content := some (if 4000 < text.utf8ByteSize then world.cutBytes 4000 text else text) }]
  tools := false

/-- `agent_perform_summarization`: nothing happens for a transcript of more than twice the budget. -/
def agentPerformSummarization (st : RunState ω) : RunState ω :=
  let cap := (st.agent.maxContextChars % sizeMax).toNat * 2 % sizeMax
  if charsFit cap 0 st.agent.messages then
    let request := summaryRequest world (transcript st.agent.messages)
    let (response, outer) := world.chat request st.world
    { st with
      world := outer
      sent := st.sent ++ [request]
      agent := { st.agent with
        contextSummary :=
          ((response.bind LLMResponse.content).map world.strTrim).or st.agent.contextSummary } }
  else st

/-- Send the conversation and record how it went. -/
def sendMessages (chat : ChatRequest → ω → Option LLMResponse × ω) (st : RunState ω) :
    Option LLMResponse × RunState ω :=
  let request := { messages := st.agent.messages, tools := true }
  let (response, outer) := chat request st.world
  (response,
    { st with
      world := world.cbRecord response.isSome outer
      sent := st.sent ++ [request]
      responses := st.responses ++ response.toList })

/-- Note the agent before a call. -/
def noteCall (st : RunState ω) : RunState ω := { st with calls := st.calls ++ [st.agent] }

/-- Go on with a cut conversation; what was cut off is summarized before. -/
def adoptWindow (window : List Message) (st : RunState ω) : RunState ω :=
  let st := if window.length < st.agent.messages.length then agentPerformSummarization world st
    else st
  { st with agent := { st.agent with messages := window } }

/-- The window of the agent's conversation. -/
def cutConversation (agent : Agent) : Option (List Message) :=
  applyContextWindow q agent.messages agent.maxContextMessages agent.maxContextChars

/-- The agent at a call of the language model. -/
def agentAtCall (st : RunState ω) : Agent :=
  (injectSystemWithSummary world { st with world := (world.cbIsAvailable st.world).2 }).agent

/-- `agent_llm_call`. -/
def agentLlmCall (st : RunState ω) : Option (Option LLMResponse × RunState ω) :=
  let (available, outer) := world.cbIsAvailable st.world
  if available then
    let st := noteCall (injectSystemWithSummary world { st with world := outer })
    match cutConversation q st.agent with
    | none => none
    | some window => some (sendMessages world world.chat (adoptWindow world window st))
  else some (none, { st with world := outer })

/-- A call of the language model in the streaming loop. -/
def streamingLlmCall (st : RunState ω) : Option LLMResponse × RunState ω :=
  let (available, outer) := world.cbIsAvailable st.world
  if available then
    sendMessages world world.chatStreaming
      (noteCall (injectSystemWithSummary world { st with world := outer }))
  else (none, { st with world := outer })

/-! ## Titles -/

/-- The request of a title. -/
def titleRequest (question : String) : ChatRequest where
  messages :=
    [{ role := some "user",
       content := some ("Summarize the following user request into a very short, descriptive title " ++
         "(max 5 words). Do not use quotes or a period.\n\nUser request: " ++ question) }]
  tools := false

/-- The first question of a conversation. -/
def firstQuestion (msgs : List Message) : Option String :=
  (msgs.find? fun m => m.role == some "user" && m.content.any (· ≠ "")).bind Message.content

/-- Load a session and save it changed. -/
def updateSession (rows : List SessionRow) (id : String) (change : Session → Session) :
    Option (List SessionRow) := do
  let s ← loadSessionNolock codec Faults.none key rows id
  saveWithMessages codec Faults.none key rows (change s) (change s).messages

/-- Whether the session still waits for a title. -/
def awaitsTitle (rows : List SessionRow) (id : String) : Bool :=
  (loadSessionNolock codec Faults.none key rows id).any fun s => s.titleGenerationAttempted == 0

/-- `agent_generate_title`. -/
def agentGenerateTitle (st : RunState ω) : RunState ω :=
  match st.agent.sessionId with
  | none => st
  | some id =>
    if st.agent.hasManager && !st.agent.messages.isEmpty && awaitsTitle codec key st.rows id then
      match updateSession codec key st.rows id fun s => { s with titleGenerationAttempted := 1 } with
      | none => st
      | some rows =>
        match firstQuestion st.agent.messages with
        | none => { st with rows }
        | some question =>
          let request := titleRequest question
          let (response, outer) := world.chat request st.world
          let title := world.titleText question (response.bind LLMResponse.content)
          { st with
            world := outer
            sent := st.sent ++ [request]
            rows := (updateSession codec key rows id fun s => { s with title }).getD rows }
    else st

/-! ## Answers -/

/-- `tool_calls_remaining`: whether some call has a name. -/
def toolCallsRemaining (calls : List ToolCall) : Bool := calls.any fun c => c.name.any (· ≠ "")

/-- The calls of the last assistant message with calls since the last question. -/
def lastCalls : List Message → List ToolCall
  | [] => []
  | m :: ms =>
    if m.role = some "user" then []
    else if m.role.all (· == "assistant") ∧ m.toolCalls ≠ [] then m.toolCalls
    else lastCalls ms

/-- `attach_tool_calls_to_resp`. -/
def attachToolCallsToResp (response : LLMResponse) (msgs : List Message) : LLMResponse :=
  if response.toolCalls = [] then { response with toolCalls := lastCalls msgs.reverse }
  else response

/-- The assistant message of an answer with content, with the calls when some of them is named. -/
def appendAssistant (response : LLMResponse) (content : String) (st : RunState ω) : RunState ω :=
  let (m, st) := messageCreate world "assistant" content st
  agentAppendMessage
    { m with
      thinking := response.thinking
      phase := response.phase
      providerState := response.providerState
      toolCalls := if toolCallsRemaining response.toolCalls then response.toolCalls else [] } st

/-- Put the calls with their results into the message that holds them. -/
def recordResults (i : Nat) (calls : List ToolCall) (st : RunState ω) : RunState ω :=
  { st with
    agent := { st.agent with
      messages := st.agent.messages.modify i fun m => { m with toolCalls := calls } } }

/-- The assistant message of an answer, when it has content, and a save. -/
def recordAnswer (response : LLMResponse) (st : RunState ω) : RunState ω :=
  match response.content with
  | none => st
  | some content => runSaveSession codec key world (appendAssistant world response content st)

/-- The tool calls of an answer.  The results go to the message that holds the calls, which there is
only for an answer with content. -/
def answerCalls (i : Nat) (response : LLMResponse) (st : RunState ω) : RunState ω :=
  let (calls, st) := executeToolCalls world response.toolCalls st
  if response.content.isSome then recordResults i calls st else st

/-- What both loops do with an answer: it ends the run, or its tool calls are executed. -/
def consume (response : LLMResponse) (st : RunState ω) : Option LLMResponse × RunState ω :=
  let recorded := recordAnswer codec key world response st
  if toolCallsRemaining response.toolCalls then
    (none, runSaveSession codec key world
      (answerCalls world st.agent.messages.length response recorded))
  else
    (some (attachToolCallsToResp response recorded.agent.messages),
      agentGenerateTitle codec key world (runSaveSession codec key world recorded))

/-! ## Runs -/

/-- What follows a call: a missing answer or a final one ends the run. -/
def continueRun (loop : RunState ω → Option (Option LLMResponse × RunState ω)) :
    Option LLMResponse × RunState ω → Option (Option LLMResponse × RunState ω)
  | (none, st) => some (none, st)
  | (some response, st) =>
    match consume codec key world response st with
    | (some answer, st) => some (some answer, st)
    | (none, st) => loop st

/-- The iterations of a run: no further call after a cancellation. -/
def runLoop (call : RunState ω → Option (Option LLMResponse × RunState ω)) :
    Nat → RunState ω → Option (Option LLMResponse × RunState ω)
  | 0, st => some (none, st)
  | n + 1, st =>
    if world.cancelRequested st.world then some (none, st)
    else (call st).bind (continueRun codec key world (runLoop call n))

/-- `agent_run_loop`. -/
def agentRunLoop (st : RunState ω) : Option (Option LLMResponse × RunState ω) :=
  runLoop codec key world (fun st => some (streamingLlmCall world st)) st.agent.maxIterations st

/-- The start of a run: the cancel flag is cleared and the question appended. -/
def startRun (input : String) (st : RunState ω) : RunState ω :=
  let (m, st) := messageCreate world "user" input { st with world := world.clearCancel st.world }
  runSaveSession codec key world (agentAppendMessage m st)

/-- `agent_run_new`. -/
def agentRunNew (input : String) (st : RunState ω) : Option (Option LLMResponse × RunState ω) :=
  let st := startRun codec key world input st
  runLoop codec key world (agentLlmCall q world) st.agent.maxIterations st

/-- `agent_run_streaming_new`. -/
def agentRunStreamingNew (input : String) (st : RunState ω) :
    Option (Option LLMResponse × RunState ω) :=
  agentRunLoop codec key world (startRun codec key world input st)

/-- `agent_run_streaming_context_new`. -/
def agentRunStreamingContextNew (st : RunState ω) : Option (Option LLMResponse × RunState ω) :=
  agentRunLoop codec key world { st with world := world.clearCancel st.world }

/-- The state in which a run begins. -/
def RunState.fresh (outer : ω) (agent : Agent) (rows : List SessionRow) : RunState ω :=
  { world := outer, agent, rows }

/-! ## What the steps leave alone -/

section Steps

theorem agentSaveSession_agent (fail : Faults AgentSaveSite) (new : NewSession)
    (rows : List SessionRow) (agent : Agent) :
    ∃ sessionId, (agentSaveSession codec fail new key rows agent).1 = { agent with sessionId } := by
  unfold agentSaveSession
  split
  · split
    · exact ⟨agent.sessionId, rfl⟩
    · next s sessionId _ => exact ⟨sessionId, rfl⟩
  · exact ⟨agent.sessionId, rfl⟩

/-- A save changes the outer world, the rows and the id of the session. -/
theorem runSaveSession_eq (st : RunState ω) :
    ∃ outer sessionId rows, runSaveSession codec key world st =
      { st with world := outer, agent := { st.agent with sessionId }, rows } := by
  obtain ⟨sessionId, hagent⟩ := agentSaveSession_agent codec key Faults.none
    (world.newSession st.world).1 st.rows st.agent
  refine ⟨(runSaveSession codec key world st).world, sessionId,
    (runSaveSession codec key world st).rows, ?_⟩
  rw [← hagent]
  rfl

/-- Generating a title changes the outer world and the rows, and sends at most one request. -/
theorem agentGenerateTitle_eq (st : RunState ω) :
    ∃ outer rows sent, agentGenerateTitle codec key world st =
      { st with world := outer, rows, sent := st.sent ++ sent } := by
  have hself : ∃ outer rows sent, st = { st with world := outer, rows, sent := st.sent ++ sent } :=
    ⟨st.world, st.rows, [], by rw [List.append_nil]⟩
  unfold agentGenerateTitle
  split
  · exact hself
  · split
    · split
      · exact hself
      · next rows _ =>
        split
        · exact ⟨st.world, rows, [], by rw [List.append_nil]⟩
        · exact ⟨_, _, _, rfl⟩
    · exact hself

/-- A summary changes the outer world and the summary, and sends at most one request. -/
theorem agentPerformSummarization_eq (st : RunState ω) :
    ∃ outer contextSummary sent, agentPerformSummarization world st =
      { st with world := outer, agent := { st.agent with contextSummary },
                sent := st.sent ++ sent } := by
  unfold agentPerformSummarization
  dsimp only
  split
  · exact ⟨_, _, _, rfl⟩
  · exact ⟨st.world, st.agent.contextSummary, [], by rw [List.append_nil]⟩

@[simp] theorem appended_runSaveSession (st : RunState ω) :
    (runSaveSession codec key world st).appended = st.appended := rfl

@[simp] theorem responses_runSaveSession (st : RunState ω) :
    (runSaveSession codec key world st).responses = st.responses := rfl

@[simp] theorem calls_runSaveSession (st : RunState ω) :
    (runSaveSession codec key world st).calls = st.calls := rfl

@[simp] theorem sent_runSaveSession (st : RunState ω) :
    (runSaveSession codec key world st).sent = st.sent := rfl

@[simp] theorem messages_runSaveSession (st : RunState ω) :
    (runSaveSession codec key world st).agent.messages = st.agent.messages := by
  obtain ⟨outer, sessionId, rows, heq⟩ := runSaveSession_eq codec key world st
  rw [heq]

@[simp] theorem appended_agentGenerateTitle (st : RunState ω) :
    (agentGenerateTitle codec key world st).appended = st.appended := by
  obtain ⟨outer, rows, sent, heq⟩ := agentGenerateTitle_eq codec key world st
  rw [heq]

@[simp] theorem responses_agentGenerateTitle (st : RunState ω) :
    (agentGenerateTitle codec key world st).responses = st.responses := by
  obtain ⟨outer, rows, sent, heq⟩ := agentGenerateTitle_eq codec key world st
  rw [heq]

/-- Messages that answer calls, one for each call in order. -/
def AnswersInOrder (calls : List ToolCall) (answers : List Message) : Prop :=
  answers.map (fun m => (m.role, m.toolCallId)) =
    calls.map fun c => (some "tool", some (c.id.getD ""))

theorem appendToolMessage_eq (content : String) (call : ToolCall) (toolName : String)
    (errorCategory : Option String) (st : RunState ω) : ∃ m outer, m.role = some "tool" ∧
      m.toolCallId = some (call.id.getD "") ∧
      appendToolMessage world content call toolName errorCategory st =
        agentAppendMessage m { st with world := outer } :=
  ⟨_, _, rfl, rfl, rfl⟩

/-- Every outcome of a call appends one message that answers it. -/
theorem executeToolCall_eq (call : ToolCall) (st : RunState ω) : ∃ m outer executed,
    m.role = some "tool" ∧ m.toolCallId = some (call.id.getD "") ∧
      (executeToolCall world call st).2 =
        agentAppendMessage m { st with world := outer, executed } := by
  have hrun : ∀ (name args : String) (st' : RunState ω), ∃ m outer executed,
      m.role = some "tool" ∧ m.toolCallId = some (call.id.getD "") ∧
        (runTool world call name args st').2 =
          agentAppendMessage m { st' with world := outer, executed } := by
    intro name args st'
    unfold runTool
    dsimp only
    obtain ⟨m, outer, hrole, hid, heq⟩ := appendToolMessage_eq world _ call name _ _
    exact ⟨m, outer, _, hrole, hid, heq⟩
  unfold executeToolCall
  dsimp only
  split
  · obtain ⟨m, outer, hrole, hid, heq⟩ := appendToolMessage_eq world "tool not found" call
      (call.name.getD "unknown") (some "tool_not_found") st
    exact ⟨m, outer, st.executed, hrole, hid, heq⟩
  · next name _ =>
    split
    · split
      · exact hrun name _ _
      · obtain ⟨m, outer, hrole, hid, heq⟩ := appendToolMessage_eq world
          "tool call denied" call name (some "denied") _
        exact ⟨m, outer, st.executed, hrole, hid, heq⟩
    · exact hrun name _ st

/-- Executing calls appends one message for each of them, in order. -/
theorem executeToolCalls_eq (calls : List ToolCall) (st : RunState ω) : ∃ answers outer executed,
    AnswersInOrder calls answers ∧ (executeToolCalls world calls st).2 =
      { st with
        world := outer
        executed
        agent := { st.agent with messages := st.agent.messages ++ answers }
        appended := st.appended ++ answers } := by
  induction calls generalizing st with
  | nil =>
    refine ⟨[], st.world, st.executed, rfl, ?_⟩
    rw [List.append_nil, List.append_nil]
    rfl
  | cons call calls ih =>
    obtain ⟨m, outer, executed, hrole, hid, hcall⟩ := executeToolCall_eq world call st
    obtain ⟨answers, outer', executed', hanswers, hcalls⟩ := ih (executeToolCall world call st).2
    refine ⟨m :: answers, outer', executed', ?_, ?_⟩
    · rw [AnswersInOrder, List.map_cons, List.map_cons, hrole, hid, hanswers]
    · rw [executeToolCalls]
      dsimp only
      rw [hcalls, hcall]
      simp only [agentAppendMessage, List.append_assoc, List.singleton_append]

/-- The assistant message of an answer with content. -/
theorem appendAssistant_eq (response : LLMResponse) (content : String) (st : RunState ω) :
    ∃ m outer, m.role = some "assistant" ∧
      m.toolCalls = (if toolCallsRemaining response.toolCalls then response.toolCalls else []) ∧
      appendAssistant world response content st =
        agentAppendMessage m { st with world := outer } :=
  ⟨_, _, rfl, rfl, rfl⟩

/-- The tool calls of an answer append one message for each of them, and the results go to the message
that holds the calls. -/
theorem answerCalls_eq (i : Nat) (response : LLMResponse) (st : RunState ω) :
    ∃ calls answers outer executed, AnswersInOrder response.toolCalls answers ∧
      answerCalls world i response st =
        { st with
          world := outer
          executed
          agent := { st.agent with
            messages := if response.content.isSome then
              (st.agent.messages ++ answers).modify i fun m => { m with toolCalls := calls }
            else st.agent.messages ++ answers }
          appended := st.appended ++ answers } := by
  obtain ⟨answers, outer, executed, hanswers, heq⟩ := executeToolCalls_eq world response.toolCalls st
  rcases hcalls : executeToolCalls world response.toolCalls st with ⟨calls, st'⟩
  rw [hcalls] at heq
  dsimp only at heq
  refine ⟨calls, answers, outer, executed, hanswers, ?_⟩
  unfold answerCalls
  rw [hcalls]
  dsimp only
  rw [heq]
  unfold recordResults
  split
  · rfl
  · rfl

/-- Consuming an answer logs no call and no answer. -/
theorem logs_consume (response : LLMResponse) (st : RunState ω) :
    (consume codec key world response st).2.calls = st.calls ∧
      (consume codec key world response st).2.responses = st.responses := by
  have hrecorded : (recordAnswer codec key world response st).calls = st.calls ∧
      (recordAnswer codec key world response st).responses = st.responses := by
    rw [recordAnswer]
    split
    · exact ⟨rfl, rfl⟩
    · exact ⟨rfl, rfl⟩
  rw [consume]
  split
  · obtain ⟨calls, answers, outer, executed, -, heq⟩ := answerCalls_eq world
      st.agent.messages.length response (recordAnswer codec key world response st)
    rw [calls_runSaveSession, responses_runSaveSession, heq]
    exact hrecorded
  · obtain ⟨outer, rows, sent, heq⟩ := agentGenerateTitle_eq codec key world
      (runSaveSession codec key world (recordAnswer codec key world response st))
    rw [heq]
    exact hrecorded

/-- A call of the language model yields an answer or none; it appends nothing. -/
def LogsAnswer (st : RunState ω) (out : Option LLMResponse × RunState ω) : Prop :=
  out.2.appended = st.appended ∧ out.2.responses = st.responses ++ out.1.toList

theorem logsAnswer_sendMessages (chat : ChatRequest → ω → Option LLMResponse × ω)
    (st : RunState ω) : LogsAnswer st (sendMessages world chat st) := ⟨rfl, rfl⟩

theorem logsAnswer_streamingLlmCall (st : RunState ω) :
    LogsAnswer st (streamingLlmCall world st) := by
  unfold streamingLlmCall
  dsimp only
  split
  · exact ⟨rfl, rfl⟩
  · exact ⟨rfl, (List.append_nil _).symm⟩

/-- Going on with a cut conversation changes the outer world, the messages and the summary, and sends
at most one request. -/
theorem adoptWindow_eq (window : List Message) (st : RunState ω) :
    ∃ outer contextSummary sent, adoptWindow world window st =
      { st with world := outer, agent := { st.agent with messages := window, contextSummary },
                sent := st.sent ++ sent } := by
  unfold adoptWindow
  dsimp only
  split
  · obtain ⟨outer, contextSummary, sent, heq⟩ := agentPerformSummarization_eq world st
    refine ⟨outer, contextSummary, sent, ?_⟩
    rw [heq]
  · refine ⟨st.world, st.agent.contextSummary, [], ?_⟩
    rw [List.append_nil]

/-- An unchanged conversation changes nothing. -/
theorem adoptWindow_self (st : RunState ω) : adoptWindow world st.agent.messages st = st := by
  unfold adoptWindow
  rw [if_neg (Nat.lt_irrefl _)]

/-- The only request sent with a cut is that of a summary. -/
theorem sent_adoptWindow (window : List Message) (st : RunState ω) :
    (adoptWindow world window st).sent = st.sent ∨
      ∃ text, (adoptWindow world window st).sent = st.sent ++ [summaryRequest world text] := by
  unfold adoptWindow
  dsimp only
  split
  · unfold agentPerformSummarization
    dsimp only
    split
    · exact Or.inr ⟨_, rfl⟩
    · exact Or.inl rfl
  · exact Or.inl rfl

theorem logsAnswer_agentLlmCall {st : RunState ω} {out : Option LLMResponse × RunState ω}
    (h : agentLlmCall q world st = some out) : LogsAnswer st out := by
  unfold agentLlmCall at h
  dsimp only at h
  split at h
  · split at h
    · exact absurd h (by simp)
    · next window _ =>
      obtain ⟨outer, contextSummary, sent, heq⟩ := adoptWindow_eq world window
        (noteCall (injectSystemWithSummary world
          { st with world := (world.cbIsAvailable st.world).2 }))
      rw [heq] at h
      exact Option.some.inj h ▸ ⟨rfl, rfl⟩
  · exact Option.some.inj h ▸ ⟨rfl, (List.append_nil _).symm⟩

variable {codec key world} in
/-- What follows a call ends the run or goes on with the loop. -/
theorem continueRun_cases {loop : RunState ω → Option (Option LLMResponse × RunState ω)}
    {out : Option LLMResponse × RunState ω} {answer : Option LLMResponse} {st' : RunState ω}
    (h : continueRun codec key world loop out = some (answer, st')) :
    (out.1 = none ∧ answer = none ∧ st' = out.2) ∨
      ∃ response, out.1 = some response ∧
        ((consume codec key world response out.2).1 = answer ∧ answer.isSome = true ∧
          st' = (consume codec key world response out.2).2 ∨
        (consume codec key world response out.2).1 = none ∧
          loop (consume codec key world response out.2).2 = some (answer, st')) := by
  obtain ⟨response, st⟩ := out
  cases response with
  | none =>
    rw [continueRun, Option.some_inj, Prod.mk.injEq] at h
    exact Or.inl ⟨rfl, h.1.symm, h.2.symm⟩
  | some response =>
    refine Or.inr ⟨response, rfl, ?_⟩
    rw [continueRun] at h
    split at h
    · next final st₁ hconsume =>
      rw [Option.some_inj, Prod.mk.injEq] at h
      rw [hconsume]
      exact Or.inl ⟨h.1, h.1 ▸ rfl, h.2.symm⟩
    · next st₁ hconsume =>
      rw [hconsume]
      exact Or.inr ⟨rfl, h⟩

variable {codec key world} in
/-- The rule of runs: what holds at the start and is kept when an answer is consumed holds whenever the
loop goes on.  It makes the rest hold at the end, after a call without an answer in particular. -/
theorem runLoop_rule {call : RunState ω → Option (Option LLMResponse × RunState ω)}
    (P Q : RunState ω → Prop) (hend : ∀ st, P st → Q st)
    (hnone : ∀ st st', P st → call st = some (none, st') → Q st')
    (hsome : ∀ st response st', P st → call st = some (some response, st') →
      P (consume codec key world response st').2)
    {n : Nat} {st st' : RunState ω} {answer : Option LLMResponse} (h : P st)
    (hrun : runLoop codec key world call n st = some (answer, st')) : Q st' := by
  induction n generalizing st with
  | zero =>
    rw [runLoop, Option.some_inj, Prod.mk.injEq] at hrun
    exact hrun.2 ▸ hend st h
  | succ n ih =>
    rw [runLoop] at hrun
    split at hrun
    · rw [Option.some_inj, Prod.mk.injEq] at hrun
      exact hrun.2 ▸ hend st h
    · obtain ⟨out, hcall, hcontinue⟩ := Option.bind_eq_some_iff.mp hrun
      rcases continueRun_cases hcontinue with ⟨hnil, -, hst⟩ | ⟨response, hresponse, hrest⟩
      · have hout : out = (none, out.2) := Prod.ext hnil rfl
        exact hst ▸ hnone st out.2 h (hout ▸ hcall)
      · have hout : out = (some response, out.2) := Prod.ext hresponse rfl
        have hstep := hsome st response out.2 h (hout ▸ hcall)
        rcases hrest with ⟨-, -, hst⟩ | ⟨-, hloop⟩
        · exact hst ▸ hend _ hstep
        · exact ih hstep hloop

end Steps

end Run

/-! ## An example -/

/-- A world without tools whose model gives scripted answers, none after the last one. -/
def scriptWorld : World (List LLMResponse) where
  cancelRequested _ := false
  clearCancel script := script
  cbIsAvailable script := (true, script)
  cbRecord _ script := script
  clock script := (.zero, script)
  newSession script := (⟨"session_2", "2024-01-01"⟩, script)
  systemPrompt script := ("prompt", script)
  chat _ script := (script.head?, script.tail)
  chatStreaming _ script := (script.head?, script.tail)
  registered _ := false
  needsApproval _ := false
  approve _ _ script := (false, script)
  execute _ _ script := (none, script)
  strTrim text := text
  cutBytes _ text := text
  titleText question _ := question

end EchoAi
