import EchoAi.Agent.Run
import EchoAi.Safety.Config

/-!
# The delegation tool

A call of the delegation tool starts a second agent.  It has its own loop, in which it calls tools
of the same registry, the delegation tool among them.

* `ToolWorld`: what the tools meet outside.  The policy and a log of what happened to tool calls are
  kept next to it, in a `ToolState`.
* `delegateExecute`: the tool, over the execution of the tools that its agent calls.
* `executeTool`: the execution of a tool of the registry, with delegations inside of delegations.
* `agentToolCalls`: `executeToolCalls` over such tools, under a policy that the user's answers
  change.

Memory does not run out.  `depth` bounds how deep delegations lie inside of each other; behind it a
delegation yields nothing.
-/

namespace EchoAi

/-! ## Tools and their log -/

/-- A tool of the registry. -/
inductive ToolKind where
  | delegate
  | other
  deriving DecidableEq, Repr

/-- The user's answer to a request for approval. -/
inductive Approval where
  | deny
  | allow
  | always
  deriving DecidableEq, Repr

/-- Which loop executes a tool. -/
inductive ToolLoop where
  | agent
  | delegate
  deriving DecidableEq, Repr

/-- What happens to tool calls: one is put to the user, or a tool is executed under a policy. -/
inductive ToolEvent where
  | asked (name args : String) (answer : Approval)
  | executed (loop : ToolLoop) (name args : String) (policy : SafetyConfig)
  deriving DecidableEq, Repr

/-- What tools meet outside. -/
structure ToolWorld (ω : Type) where
  /-- `cJSON_Parse` -/
  parse : String → Option JsonValue
  /-- `registry_get` -/
  registry : String → Option ToolKind
  /-- the bound on iterations of `registry_get_delegate_config`, absent without a configuration -/
  delegateConfig : Option Int
  /-- whether `get_provider_with_auth` gives a provider -/
  openProvider : ω → Bool × ω
  /-- the answers of the second agent's provider -/
  subChat : List Message → ω → Option LLMResponse × ω
  approve : String → String → ω → Approval × ω
  /-- the tools other than the delegation tool -/
  execute : String → String → ω → Option ToolResult × ω

/-- The outer world with the policy and the log, the last event first. -/
structure ToolState (ω : Type) where
  outer : ω
  policy : SafetyConfig
  events : List ToolEvent := []

section Delegate

variable {ω : Type}

/-- Note an event. -/
def ToolState.note (e : ToolEvent) (st : ToolState ω) : ToolState ω :=
  { st with events := e :: st.events }

/-- `tool_result_error`. -/
def toolResultError (error category : String) : ToolResult :=
  { error := some error, errorCategory := some category }

variable (tools : ToolWorld ω) (execute : String → String → ToolState ω →
  Option ToolResult × ToolState ω)

/-! ## The second agent -/

/-- The message for the result of a call. -/
def delegateToolMessage (call : ToolCall) (result : ToolResult) : Message where
  role := some "tool"
  content := some (match result.error with
    | some error => "Error: " ++ error
    | none => result.content.getD "")
  toolCallId := some (call.id.getD "")
  toolName := some (call.name.getD "unknown")
  errorCategory := result.error.map fun _ => result.errorCategory.getD "execution_error"

/-- The message for a call of a tool that is not there. -/
def delegateNotFoundMessage (call : ToolCall) : Message where
  role := some "tool"
  content := some "tool not found"
  toolCallId := some (call.id.getD "")
  toolName := some (call.name.getD "unknown")
  errorCategory := some "tool_not_found"

/-- A call of the second agent. -/
def delegateCall (call : ToolCall) (msgs : List Message) (st : ToolState ω) :
    List Message × ToolState ω :=
  let name := call.name.getD "unknown"
  let args := call.arguments.getD "{}"
  match tools.registry name with
  | none => (msgs ++ [delegateNotFoundMessage call], st)
  | some _ =>
    let (result, st) := execute name args (st.note (.executed .delegate name args st.policy))
    (msgs ++ [delegateToolMessage call
      (result.getD (toolResultError "tool returned no result" "execution_error"))], st)

/-- The calls of an answer of the second agent. -/
def delegateCalls : List ToolCall → List Message → ToolState ω → List Message × ToolState ω
  | [], msgs, st => (msgs, st)
  | call :: calls, msgs, st =>
    let (msgs, st) := delegateCall tools execute call msgs st
    delegateCalls calls msgs st

/-- The message for an answer of the second agent. -/
def delegateAssistant (response : LLMResponse) : Message where
  role := some "assistant"
  content := some (response.content.getD "")
  phase := response.phase
  providerState := response.providerState
  toolCalls := response.toolCalls

/-- The loop of `delegate_execute`, with the last content. -/
def delegateLoop :
    (iterations : Nat) → List Message → Option String → ToolState ω → Option String × ToolState ω
  | 0, _, final, st => (final, st)
  | iterations + 1, msgs, final, st =>
    match tools.subChat msgs st.outer with
    | (none, outer) => (final, { st with outer })
    | (some response, outer) =>
      let final := response.content.or final
      let more := toolCallsRemaining response.toolCalls
      let msgs := if response.content.isSome || more then msgs ++ [delegateAssistant response]
        else msgs
      if more then
        let (msgs, st) := delegateCalls tools execute response.toolCalls msgs { st with outer }
        delegateLoop iterations msgs final st
      else (final, { st with outer })

/-- The first messages of the second agent. -/
def delegateMessages (task : String) : List Message :=
  [{ role := some "system",
     content := some ("You are a helpful sub-agent. Complete the task given by the user. " ++
       "Use tools when needed. Keep responses concise.") },
   { role := some "user", content := some task }]

/-- The number of iterations: the asked one or the configured one, from 1 to 50. -/
def delegateIterations (maxIterations : Int) (args : JsonValue) : Nat :=
  let iterations := match (args.member "iterations").bind JsonValue.numberValue with
    | some x => x.truncate
    | none => maxIterations
  (min 50 (max 1 iterations)).toNat

/-- `delegate_execute`. -/
def delegateExecute (args : String) (st : ToolState ω) : ToolResult × ToolState ω :=
  match tools.delegateConfig with
  | none =>
    (toolResultError "delegate not configured (set agent config first)" "execution_error", st)
  | some maxIterations =>
    match tools.parse args with
    | none => (toolResultError "invalid arguments JSON" "validation_error", st)
    | some json =>
      match (json.member "task").bind JsonValue.stringValue with
      | none => (toolResultError "missing 'task' argument" "validation_error", st)
      | some task =>
        let (opened, outer) := tools.openProvider st.outer
        if opened then
          let (final, st) := delegateLoop tools execute (delegateIterations maxIterations json)
            (delegateMessages task) none { st with outer }
          ({ content := some (final.getD "(sub-agent produced no output)") }, st)
        else
          (toolResultError "failed to create sub-agent provider" "execution_error",
            { st with outer })

end Delegate

section Agent

variable {ω : Type} (tools : ToolWorld ω) (base : World ω)

/-- `tool->execute` of a tool of the registry. -/
def executeTool : (depth : Nat) → String → String → ToolState ω → Option ToolResult × ToolState ω
  | depth, name, args, st =>
    match tools.registry name with
    | some .delegate =>
      match depth with
      | 0 => (none, st)
      | depth + 1 =>
        let (result, st) := delegateExecute tools (executeTool depth) args st
        (some result, st)
    | _ =>
      let (result, outer) := tools.execute name args st.outer
      (result, { st with outer })

/-! ## The agent -/

/-- A change of the outer world. -/
def onOuter {α : Type} (f : ω → α × ω) (st : ToolState ω) : α × ToolState ω :=
  let (a, outer) := f st.outer
  (a, { st with outer })

/-- Put a call to the user. -/
def askUser (name args : String) (st : ToolState ω) : Bool × ToolState ω :=
  let (answer, outer) := tools.approve name args st.outer
  let policy := if answer = .always then safetyAllowToolAlways st.policy name else st.policy
  (answer ≠ .deny, { st with outer, policy }.note (.asked name args answer))

/-- The world of an agent with these tools, under a policy. -/
def toolWorld (depth : Nat) (policy : SafetyConfig) : World (ToolState ω) where
  cancelRequested st := base.cancelRequested st.outer
  clearCancel st := { st with outer := base.clearCancel st.outer }
  cbIsAvailable := onOuter base.cbIsAvailable
  cbRecord ok st := { st with outer := base.cbRecord ok st.outer }
  clock := onOuter base.clock
  newSession := onOuter base.newSession
  systemPrompt := onOuter base.systemPrompt
  chat request := onOuter (base.chat request)
  chatStreaming request := onOuter (base.chatStreaming request)
  registered name := (tools.registry name).isSome
  needsApproval name := safetyNeedsApproval (some policy) (some name)
  approve := askUser tools
  execute name args st :=
    executeTool tools depth name args (st.note (.executed .agent name args st.policy))
  strTrim := base.strTrim
  cutBytes := base.cutBytes
  titleText := base.titleText

/-- `execute_tool_calls` on any calls, each under the policy of its time. -/
def agentToolCalls (depth : Nat) :
    List ToolCall → RunState (ToolState ω) → List ToolCall × RunState (ToolState ω)
  | [], st => ([], st)
  | call :: calls, st =>
    let (call', st) := executeToolCall (toolWorld tools base depth st.world.policy) call st
    let (calls', st) := agentToolCalls depth calls st
    (call' :: calls', st)

/-- The log of a run of tool calls, the last event first. -/
def toolEvents (depth : Nat) (policy : SafetyConfig) (outer : ω) (agent : Agent)
    (rows : List SessionRow) (calls : List ToolCall) : List ToolEvent :=
  (agentToolCalls tools base depth calls
    (RunState.fresh { outer, policy } agent rows)).2.world.events

end Agent

end EchoAi
