import EchoAi.Agent.Run
import EchoAi.Chronicle

/-!
# Frames handled inside a wait

A tool that needs an approval, and a tool that asks the user, wait for the answer in a loop that pumps
the event loop of the server.  A frame that arrives there is handled at once, and it may start a run of
its own with waits of its own.  What is under way is a stack of activations, the innermost one first.

* `WsLoop`: the connection with its agent, the stack, and a log of what happened.
* `wsHandleSessionId`, `wsRunFork`, `wsHandleRegenerate`, `wsHandleBranchSwitch`, `wsChatOnMessage`,
  `wsChatOnClose`, `routesWsInvalidateAuth`: the handlers, up to the start of a run.
* `callModel`, `runTool`, `wakeApproval`, `wakeAskUser`, `flushNext`: how the activation on top goes on.
* `step`: what can happen next.
* `startsRun`, `dropped`: whether a frame starts a run, and the messages that it frees.

What the store, the model and the clock answer is part of the events.  Of a message there is whether it
is a system message, its id, and the tool calls that it owns; of a run of another agent, as a delegated
task starts it, there is nothing.  Allocations succeed.
-/

namespace EchoAi

/-- A message of the agent, with the number of the tool calls that it owns. -/
structure HeldMessage where
  system : Bool := false
  id : Option String := none
  calls : Option Nat := none
  deriving DecidableEq, Repr

/-- What `execute_tool_calls` asks about a call. -/
structure ToolTable where
  /-- whether `registry_get` finds the tool -/
  registered : String → Bool
  /-- `safety_needs_approval` -/
  needsApproval : String → Bool
  /-- whether the tool calls `ws_ask_user_cb` -/
  asksUser : ToolCall → Bool

/-- What is under way. -/
inductive Activation where
  /-- a run before its next call of the model, with the iterations that are left; it is counted in
  `active_runs` unless the queue started it -/
  | run (run : Nat) (counted : Bool) (left : Nat)
  /-- a run in `execute_tool_calls`, with the number of the calls and those that are left -/
  | tools (run : Nat) (counted : Bool) (left calls : Nat) (rest : List ToolCall)
  /-- `ws_approval_cb` waits -/
  | approval (request : String) (call : ToolCall)
  /-- `ws_ask_user_cb` waits -/
  | askUser
  /-- `ws_chat_flush_queue`, with the queued messages that are left -/
  | flush (left : Nat)
  deriving DecidableEq, Repr

/-- What happens. -/
inductive WsNote where
  /-- an approval was asked for -/
  | requested (request : String)
  /-- the client sent an `approval_response` -/
  | answered (request : String) (approved : Bool)
  /-- `ws_approval_cb` returned -/
  | returned (request : String) (approved : Bool)
  | started (run : Nat)
  | ended (run : Nat)
  /-- a run called the model -/
  | called (run : Nat)
  /-- `agent_cancel` -/
  | cancelled
  /-- `execute_tool_calls` began -/
  | executing (calls : Nat)
  /-- `execute_tool_calls` returned -/
  | executed (calls : Nat)
  /-- the message that owns the calls was freed -/
  | freed (calls : Nat)
  | closed
  /-- `ws_chat_ctx_destroy` -/
  | destroyed
  deriving DecidableEq, Repr

/-- What the runs and the waits of a connection share. -/
structure LoopCore where
  /-- whether the context has a socket -/
  connected : Bool := true
  pendingRequestId : Option String := none
  approvalResult : Bool := false
  activeRuns : Nat := 0
  closing : Bool := false
  destroyed : Bool := false
  /-- the cancel flag of the agent -/
  cancelRequested : Bool := false
  /-- the numbers of runs and of lists of tool calls so far -/
  runs : Nat := 0
  batches : Nat := 0
  stack : List Activation := []
  log : List WsNote := []
  deriving DecidableEq, Repr

/-- A connection and its agent. -/
structure WsLoop extends LoopCore where
  ready : Bool := true
  /-- the number of queued messages -/
  queue : Nat := 0
  activeSessionId : Option String := none
  /-- whether the connection and its agent have a session manager -/
  hasManager : Bool := true
  /-- whether the server is unlocked and `auth_generation` is that of the connection -/
  authenticated : Bool := true
  approvalDone : Bool := false
  askUserDone : Bool := false
  approvalCounter : Nat := 0
  /-- the session of the agent -/
  sessionId : Option String := none
  messages : List HeldMessage := []
  deriving DecidableEq, Repr

namespace LoopCore

def note (entry : WsNote) (st : LoopCore) : LoopCore := { st with log := st.log ++ [entry] }

/-- Messages that own the given calls are freed. -/
def free (calls : List Nat) (st : LoopCore) : LoopCore :=
  { st with log := st.log ++ calls.map WsNote.freed }

/-- `agent_cancel`. -/
def agentCancel (st : LoopCore) : LoopCore := { st with cancelRequested := true }.note .cancelled

/-- `ws_chat_ctx_destroy`. -/
def wsChatCtxDestroy (st : LoopCore) : LoopCore := { st with destroyed := true }.note .destroyed

/-- The start of a run clears the cancel flag. -/
def startRun (maxIterations : Nat) (counted : Bool) (st : LoopCore) : LoopCore :=
  { st with
    cancelRequested := false
    runs := st.runs + 1
    stack := .run st.runs counted maxIterations :: st.stack }.note (.started st.runs)

/-- A run returns to the frame, or the queue, that has started it. -/
def endRun (run : Nat) (counted : Bool) (below : List Activation) (st : LoopCore) : LoopCore :=
  let st := { st with stack := below }.note (.ended run)
  if counted then
    let st := { st with activeRuns := st.activeRuns - 1 }
    if st.closing then st.wsChatCtxDestroy else st
  else st

/-- An `approval_response` counts when it names the pending request. -/
def approvalResponse (request : String) (approved : Bool) (st : LoopCore) : LoopCore :=
  let st := st.note (.answered request approved)
  if st.pendingRequestId = some request then { st with approvalResult := approved } else st

end LoopCore

/-- What a frame asks for.  What is not a well-formed request of another kind is `other`. -/
inductive LoopRequest where
  /-- a message with content -/
  | message
  /-- an edit at a whole number from 0 on; the id of the fork's message, unless the store refuses -/
  | edit (index : Nat) (forked : Option String)
  | regenerate (messageId : Option String) (index : Int) (forked : Option String)
  /-- the messages that are loaded after the switch, unless the store refuses -/
  | branchSwitch (loaded : Option (List HeldMessage))
  | approvalResponse (request : String) (approved : Bool)
  | askUserResponse
  | stop
  | other
  deriving DecidableEq, Repr

/-- A frame, with what the store has under the session that it names, and the id of the session that
its run creates. -/
structure LoopFrame where
  sessionId : Option String := none
  stored : Option (List HeldMessage) := none
  minted : Option String := none
  request : LoopRequest
  deriving DecidableEq, Repr

namespace WsLoop

/-! ## The agent and its context -/

/-- `agent_append_message`. -/
def agentAppendMessage (m : HeldMessage) (st : WsLoop) : WsLoop :=
  { st with messages := st.messages ++ [m] }

/-- `inject_system_with_summary`. -/
def injectSystemWithSummary (st : WsLoop) : WsLoop :=
  if st.messages.any HeldMessage.system then st
  else { st with messages := { system := true } :: st.messages }

/-- `agent_save_session`, which may create a session. -/
def agentSaveSession (minted : Option String) (st : WsLoop) : WsLoop :=
  if st.hasManager then { st with sessionId := minted.or st.sessionId } else st

/-- Messages of the agent are freed. -/
def freeMessages (msgs : List HeldMessage) (st : WsLoop) : WsLoop :=
  { st with toLoopCore := st.toLoopCore.free (msgs.filterMap HeldMessage.calls) }

/-- Copies of loaded messages in place of the agent's. -/
def replaceMessages (msgs : List HeldMessage) (st : WsLoop) : WsLoop :=
  { st.freeMessages st.messages with messages := msgs.map fun m => { m with calls := none } }

/-! ## Runs -/

/-- `agent_run_streaming_new` up to its loop. -/
def agentRunStreaming (maxIterations : Nat) (counted : Bool) (minted : Option String)
    (st : WsLoop) : WsLoop :=
  let st := { st with toLoopCore := st.toLoopCore.startRun maxIterations counted }
  (st.agentAppendMessage {}).agentSaveSession minted

/-- A run returns, and the connection takes the session of the agent when it has none. -/
def endRun (run : Nat) (counted : Bool) (below : List Activation) (st : WsLoop) : WsLoop :=
  { st with
    toLoopCore := st.toLoopCore.endRun run counted below
    activeSessionId :=
      if counted && st.closing then st.activeSessionId else st.activeSessionId.or st.sessionId }

/-- The message of an answer, which owns the tool calls. -/
def recordAnswer (response : LLMResponse) (minted : Option String) (st : WsLoop) : WsLoop :=
  if response.content.isSome then
    (st.agentAppendMessage
      { calls := if toolCallsRemaining response.toolCalls then some st.batches else none
        }).agentSaveSession minted
  else st

/-- One iteration of `agent_run_loop`.  The title of a new session is generated after the last answer,
by another call of the model. -/
def callModel (run : Nat) (counted : Bool) (left : Nat) (below : List Activation) (available : Bool)
    (response : Option LLMResponse) (titled : Bool) (minted : Option String) (st : WsLoop) : WsLoop :=
  match left with
  | 0 => st.endRun run counted below
  | left + 1 =>
    if st.cancelRequested || !available then st.endRun run counted below
    else
      let injected := st.injectSystemWithSummary
      let called := { injected with toLoopCore := injected.toLoopCore.note (.called run) }
      match response with
      | none => called.endRun run counted below
      | some response =>
        let recorded := called.recordAnswer response minted
        if toolCallsRemaining response.toolCalls then
          { recorded with
            batches := recorded.batches + 1
            stack := .tools run counted left recorded.batches response.toolCalls :: below
            log := recorded.log ++ [WsNote.executing recorded.batches] }
        else
          let saved := recorded.agentSaveSession minted
          if titled && saved.hasManager then
            { saved with toLoopCore := saved.toLoopCore.note (.called run) }.endRun run counted below
          else saved.endRun run counted below

/-- The execution of a tool, up to the answer of the user when it asks for one. -/
def execute (tools : ToolTable) (call : ToolCall) (st : WsLoop) : WsLoop :=
  if tools.asksUser call && st.connected then
    { st with askUserDone := false, stack := .askUser :: st.stack }
  else st.agentAppendMessage {}

/-- `ws_approval_cb` up to its wait. -/
def wsApprovalCb (call : ToolCall) (st : WsLoop) : WsLoop :=
  let request := "apr_" ++ toString (st.approvalCounter + 1)
  { st with
    approvalCounter := st.approvalCounter + 1
    pendingRequestId := some request
    approvalDone := false
    approvalResult := false
    stack := .approval request call :: st.stack
    log := st.log ++ [WsNote.requested request] }

/-- One round of `execute_tool_calls`, or its end. -/
def runTool (tools : ToolTable) (run : Nat) (counted : Bool) (left calls : Nat)
    (rest : List ToolCall) (below : List Activation) (minted : Option String) (st : WsLoop) :
    WsLoop :=
  match rest with
  | [] =>
    { st with
      stack := .run run counted left :: below
      log := st.log ++ [WsNote.executed calls] }.agentSaveSession minted
  | call :: rest =>
    let st := { st with stack := .tools run counted left calls rest :: below }
    match call.name.filter tools.registered with
    | none => st.agentAppendMessage {}
    | some name =>
      if tools.needsApproval name then
        if st.connected then st.wsApprovalCb call else st.agentAppendMessage {}
      else st.execute tools call

/-- The return of `ws_approval_cb`: the tool is executed or denied. -/
def wakeApproval (tools : ToolTable) (request : String) (call : ToolCall) (below : List Activation)
    (st : WsLoop) : WsLoop :=
  let woken :=
    { st with stack := below, log := st.log ++ [WsNote.returned request st.approvalResult] }
  if st.approvalResult then woken.execute tools call else woken.agentAppendMessage {}

/-- The return of `ws_ask_user_cb`. -/
def wakeAskUser (below : List Activation) (st : WsLoop) : WsLoop :=
  { st with stack := below }.agentAppendMessage {}

/-- One round of `ws_chat_flush_queue`, or its end. -/
def flushNext (maxIterations : Nat) (left : Nat) (below : List Activation) (minted : Option String)
    (st : WsLoop) : WsLoop :=
  match left with
  | 0 => { st with queue := 0, stack := below }
  | left + 1 =>
    { st with stack := .flush left :: below }.agentRunStreaming maxIterations false minted

/-! ## Frames -/

/-- `ws_handle_session_id`: whether the frame is turned away. -/
def wsHandleSessionId (sessionId : Option String) (stored : Option (List HeldMessage))
    (st : WsLoop) : Bool × WsLoop :=
  match sessionId with
  | none => (false, st)
  | some id =>
    match st.activeSessionId with
    | some active => (id != active, st)
    | none =>
      if st.hasManager then
        match stored with
        | none => (true, st)
        | some msgs =>
          (false, { st with activeSessionId := some id, sessionId := some id }.replaceMessages msgs)
      else (false, st)

/-- The number of system messages at the start of the conversation. -/
def systemPrefix (st : WsLoop) : Nat := (st.messages.takeWhile HeldMessage.system).length

/-- How many messages a fork keeps. -/
def keepCount (idx : Int) (st : WsLoop) : Nat :=
  if idx < 0 then 0 else idx.toNat + st.systemPrefix

/-- The conversation is cut. -/
def cutMessages (keep : Nat) (st : WsLoop) : WsLoop :=
  { st.freeMessages (st.messages.drop keep) with messages := st.messages.take keep }

/-- `ws_run_fork` up to the loop of its run. -/
def wsRunFork (maxIterations : Nat) (idx : Int) (forked : Option String) (regenMode : Bool)
    (st : WsLoop) : WsLoop :=
  match forked with
  | none => st
  | some id =>
    let cut := st.cutMessages (st.keepCount idx)
    let st := if regenMode then cut else cut.agentAppendMessage { id := some id }
    { st with
      toLoopCore :=
        { st.toLoopCore with activeRuns := st.activeRuns + 1 }.startRun maxIterations true }

/-- The fork point of a regeneration: the message with the id, else the index. -/
def regeneratePoint (messageId : Option String) (index : Int) (st : WsLoop) : Int :=
  match messageId.bind fun id => st.messages.findIdx? fun m => m.id == some id with
  | some i => if (i : Int) - st.systemPrefix < 0 then index else (i : Int) - st.systemPrefix
  | none => index

/-- Whether the fork point of a regeneration is there. -/
def canRegenerate (messageId : Option String) (index : Int) (st : WsLoop) : Bool :=
  st.hasManager && decide (0 ≤ st.regeneratePoint messageId index) &&
    decide (st.regeneratePoint messageId index + st.systemPrefix < st.messages.length)

/-- `ws_handle_regenerate`. -/
def wsHandleRegenerate (maxIterations : Nat) (messageId : Option String) (index : Int)
    (forked : Option String) (st : WsLoop) : WsLoop :=
  if st.canRegenerate messageId index then
    st.wsRunFork maxIterations (st.regeneratePoint messageId index) forked true
  else st

/-- Whether the connection has a session to switch branches in, and the frame names no other one. -/
def canSwitch (sessionId : Option String) (st : WsLoop) : Bool :=
  st.hasManager && st.activeSessionId.isSome &&
    (sessionId.isNone || sessionId == st.activeSessionId)

/-- `ws_handle_branch_switch`. -/
def wsHandleBranchSwitch (sessionId : Option String) (loaded : Option (List HeldMessage))
    (st : WsLoop) : WsLoop :=
  if st.canSwitch sessionId then
    match loaded with
    | none => st
    | some msgs => st.replaceMessages msgs
  else st

/-- `ws_handle_message_frame`. -/
def wsHandleMessageFrame (maxIterations : Nat) (minted : Option String) (st : WsLoop) : WsLoop :=
  if st.ready then
    { st with activeRuns := st.activeRuns + 1 }.agentRunStreaming maxIterations true minted
  else { st with queue := st.queue + 1 }

/-- The request of a frame. -/
def handle (maxIterations : Nat) (frame : LoopFrame) (st : WsLoop) : WsLoop :=
  match frame.request with
  | .message => st.wsHandleMessageFrame maxIterations frame.minted
  | .edit index forked =>
    if st.hasManager then st.wsRunFork maxIterations index forked false else st
  | .regenerate messageId index forked =>
    st.wsHandleRegenerate maxIterations messageId index forked
  | .branchSwitch loaded => st.wsHandleBranchSwitch frame.sessionId loaded
  | .approvalResponse request approved =>
    { st with
      toLoopCore := st.toLoopCore.approvalResponse request approved
      approvalDone := st.approvalDone || decide (st.pendingRequestId = some request) }
  | .askUserResponse => { st with askUserDone := true }
  | .stop =>
    { st with
      toLoopCore := st.toLoopCore.agentCancel
      approvalDone := true
      askUserDone := true }
  | .other => st

/-- `ws_chat_on_message`. -/
def wsChatOnMessage (maxIterations : Nat) (frame : LoopFrame) (st : WsLoop) : WsLoop :=
  if st.authenticated then
    let (rejected, st) := st.wsHandleSessionId frame.sessionId frame.stored
    if rejected then st else st.handle maxIterations frame
  else st

/-- `ws_chat_on_close`. -/
def wsChatOnClose (st : WsLoop) : WsLoop :=
  let cancelled :=
    { st.toLoopCore with
      closing := true
      connected := false
      approvalResult := false
      log := st.log ++ [WsNote.closed] }.agentCancel
  { st with
    toLoopCore := if st.activeRuns = 0 then cancelled.wsChatCtxDestroy else cancelled
    approvalDone := true
    askUserDone := true }

/-- `routes_ws_invalidate_auth`, for this connection, in a logout. -/
def routesWsInvalidateAuth (st : WsLoop) : WsLoop :=
  { st with
    toLoopCore := { st.toLoopCore with approvalResult := false }.agentCancel
    hasManager := false
    approvalDone := true
    askUserDone := true
    authenticated := false }

/-! ## Steps -/

/-- What can happen next. -/
inductive LoopEvent where
  | frame (frame : LoopFrame)
  | close
  | logout
  /-- `agent_cancel` from elsewhere -/
  | cancel
  /-- another connection asks for an approval -/
  | elsewhere
  /-- `ws_chat_flush_queue` -/
  | flush
  /-- the run on top goes on with a call of the model -/
  | call (available : Bool) (response : Option LLMResponse) (titled : Bool)
      (minted : Option String)
  /-- the run on top goes on with a tool call -/
  | tool (minted : Option String)
  /-- the flush on top goes on -/
  | drain (minted : Option String)
  /-- the wait on top looks at its flags; `late` when the time for the user's answer is over -/
  | wake (late : Bool)
  deriving DecidableEq, Repr

/-- Whether the event loop is running: nothing is under way, or the innermost activation waits. -/
def pumping (st : WsLoop) : Bool :=
  match st.stack with
  | [] => true
  | .approval _ _ :: _ => true
  | .askUser :: _ => true
  | _ => false

variable (tools : ToolTable) (maxIterations : Nat)

/-- The next step. -/
def step (st : WsLoop) : LoopEvent → Option WsLoop
  | .frame frame =>
    if st.pumping && st.connected then some (st.wsChatOnMessage maxIterations frame) else none
  | .close => if st.pumping && st.connected then some st.wsChatOnClose else none
  | .logout => if st.pumping && !st.destroyed then some st.routesWsInvalidateAuth else none
  | .cancel => some { st with toLoopCore := st.toLoopCore.agentCancel }
  | .elsewhere => some { st with approvalCounter := st.approvalCounter + 1 }
  | .flush =>
    if st.stack = [] ∧ st.connected ∧ !st.ready then
      some { st with ready := true, stack := [.flush st.queue] }
    else none
  | .call available response titled minted =>
    match st.stack with
    | .run run counted left :: below =>
      some (st.callModel run counted left below available response titled minted)
    | _ => none
  | .tool minted =>
    match st.stack with
    | .tools run counted left calls rest :: below =>
      some (st.runTool tools run counted left calls rest below minted)
    | _ => none
  | .drain minted =>
    match st.stack with
    | .flush left :: below => some (st.flushNext maxIterations left below minted)
    | _ => none
  | .wake late =>
    match st.stack with
    | .approval request call :: below =>
      if st.approvalDone || !st.connected then
        some (st.wakeApproval tools request call below)
      else none
    | .askUser :: below =>
      if st.askUserDone || !st.connected || late then some (st.wakeAskUser below) else none
    | _ => none

/-- A connection on which nothing is under way and nothing has happened. -/
structure Fresh (st : WsLoop) : Prop where
  stack : st.stack = []
  log : st.log = []
  connected : st.connected = true
  closing : st.closing = false
  destroyed : st.destroyed = false
  activeRuns : st.activeRuns = 0
  pending : st.pendingRequestId = none
  approvalResult : st.approvalResult = false

/-! ## What a frame starts and frees -/

/-- Whether a request starts a run. -/
def requestStarts (frame : LoopFrame) (st : WsLoop) : Bool :=
  match frame.request with
  | .message => st.ready
  | .edit _ forked => st.hasManager && forked.isSome
  | .regenerate messageId index forked => st.canRegenerate messageId index && forked.isSome
  | _ => false

/-- Whether a frame starts a run. -/
def startsRun (frame : LoopFrame) (st : WsLoop) : Bool :=
  let (rejected, bound) := st.wsHandleSessionId frame.sessionId frame.stored
  st.authenticated && !rejected && bound.requestStarts frame

/-- The messages that a request frees. -/
def droppedByRequest (frame : LoopFrame) (st : WsLoop) : List HeldMessage :=
  match frame.request with
  | .edit index (some _) => if st.hasManager then st.messages.drop (st.keepCount index) else []
  | .regenerate messageId index (some _) =>
    if st.canRegenerate messageId index then
      st.messages.drop (st.keepCount (st.regeneratePoint messageId index))
    else []
  | .branchSwitch (some _) => if st.canSwitch frame.sessionId then st.messages else []
  | _ => []

/-- Whether a frame has its session loaded. -/
def loadsSession (frame : LoopFrame) (st : WsLoop) : Bool :=
  frame.sessionId.isSome && st.activeSessionId.isNone && st.hasManager && frame.stored.isSome

/-- The messages that a frame frees. -/
def dropped (frame : LoopFrame) (st : WsLoop) : List HeldMessage :=
  let (rejected, bound) := st.wsHandleSessionId frame.sessionId frame.stored
  if st.authenticated then
    (if st.loadsSession frame then st.messages else []) ++
      if rejected then [] else bound.droppedByRequest frame
  else []

end WsLoop

end EchoAi
