import EchoAi.Agent.Run
import EchoAi.Session.Branch

/-!
# The chat connection

A WebSocket connection has an agent of its own and the id of the session that the client works on.
Each frame is handled to its end here, with the runs that it starts.

* `WsChatCtx`, `WsState`: a connection, and with it the outer world and the stored sessions.
* `wsApplyQuerySession`, `wsHandleSessionId`, `wsHandleBranchSwitch`: the three places that load a
  session into the agent, under failing operations named by `BindSite`.
* `wsRunFork`, `wsHandleRegenerate`, `wsHandleMessageFrame`: the frames that start a run.
* `wsChatOnMessage`: the dispatch of a frame.

The connection and its agent have a session manager or none, together.  What is sent to the client is
left out.
-/

namespace EchoAi

/-- The part of a connection that belongs to the conversation. -/
structure WsChatCtx where
  activeSessionId : Option String := none
  agent : Agent
  deriving DecidableEq, Repr

/-- The operations of loading a session into the agent that may fail. -/
inductive BindSite where
  /-- switching to another branch in the store -/
  | switch (s : BranchSite)
  | load (s : LoadSite)
  /-- copying the id for the connection -/
  | activeId
  /-- copying the id for the agent -/
  | agentId
  /-- allocating the agent's messages -/
  | messages
  /-- copying a message -/
  | copy (i : Nat)
  deriving DecidableEq, Repr

/-! ## Loading a session into the agent -/

/-- What stands behind the first occurrence of a pattern. -/
def behindFirst (pat : List Char) : List Char → Option (List Char)
  | [] => none
  | c :: cs =>
    if pat.isPrefixOf (c :: cs) then some ((c :: cs).drop pat.length) else behindFirst pat cs

/-- The session that a query names. -/
def querySessionId (query : String) : Option String := do
  let rest ← behindFirst "session_id=".toList query.toList
  let id := String.ofList (rest.takeWhile (· ≠ '&'))
  attempt (id == "" || decide (256 ≤ id.utf8ByteSize))
  return id

/-- `str_dup` of an id. -/
def dupId (failed : Bool) (id : String) : Option String := if failed then none else some id

section Bind

variable (codec : JsonCodec) (fail : Faults BindSite) (key : EncryptionKey) (rows : List SessionRow)

/-- `session_manager_load_session_alloc`. -/
def loadSessionAlloc (fail : Faults LoadSite) (id : String) : Option Session :=
  if id = "" then none else loadSessionLocked codec fail key rows id

/-- The messages that the agent gets: none when their array or one of them cannot be copied. -/
def copiedMessages (msgs : List Message) : List Message :=
  if fail .messages then []
  else (traverseFrom (fun i m => messageCopy (fail (.copy i)) m) 0 msgs).getD []

/-- `ws_apply_query_session`. -/
def wsApplyQuerySession (query : String) (c : WsChatCtx) : WsChatCtx :=
  match querySessionId query with
  | none => c
  | some id =>
    if c.agent.hasManager then
      let c := { c with activeSessionId := dupId (fail .activeId) id }
      match loadSessionAlloc codec key rows (fail.within .load) id with
      | none => c
      | some s =>
        { c with
          agent := { c.agent with
            sessionId := dupId (fail .agentId) id
            messages := copiedMessages fail s.messages } }
    else c

/-- `ws_handle_session_id`: whether the frame is turned away, and the connection. -/
def wsHandleSessionId (sessionId : Option String) (c : WsChatCtx) : Bool × WsChatCtx :=
  match sessionId with
  | none => (false, c)
  | some id =>
    match c.activeSessionId with
    | some active => (id != active, c)
    | none =>
      if c.agent.hasManager then
        match loadSessionAlloc codec key rows (fail.within .load) id with
        | none => (true, c)
        | some s =>
          (false,
            { activeSessionId := dupId (fail .activeId) id
              agent := { c.agent with
                sessionId := dupId (fail .agentId) id
                messages := copiedMessages fail s.messages } })
      else (false, c)

/-- `ws_swap_agent_messages`. -/
def wsSwapAgentMessages (s : Session) (c : WsChatCtx) : WsChatCtx :=
  { c with agent := { c.agent with messages := copiedMessages fail s.messages } }

/-- The session in which a frame may switch branches: the connection's, unless the frame names
another one. -/
def switchTarget (sessionId : Option String) (c : WsChatCtx) : Option String :=
  c.activeSessionId.filter fun active => c.agent.hasManager && sessionId.all (· == active)

/-- `ws_handle_branch_switch`. -/
def wsHandleBranchSwitch (minted : Minted) (sessionId : Option String) (branchId : String)
    (c : WsChatCtx) : WsChatCtx × List SessionRow :=
  match switchTarget sessionId c with
  | none => (c, rows)
  | some id =>
    match switchBranch codec (fail.within .switch) minted key rows id branchId with
    | (false, rows) => (c, rows)
    | (true, rows) =>
      match loadSessionAlloc codec key rows (fail.within .load) id with
      | none => (c, rows)
      | some s => (wsSwapAgentMessages fail s c, rows)

end Bind

/-! ## Frames that start a run -/

/-- A connection with the outer world and the stored sessions. -/
structure WsState (ω : Type) where
  world : ω
  ctx : WsChatCtx
  rows : List SessionRow

section Frames

variable {ω : Type} (codec : JsonCodec) (key : EncryptionKey) (world : World ω)

/-- What is left of a run: the connection takes the session of the agent when it has none. -/
def WsState.afterRun (c : WsChatCtx) (st : RunState ω) : WsState ω where
  world := st.world
  ctx := { activeSessionId := c.activeSessionId.or st.agent.sessionId, agent := st.agent }
  rows := st.rows

/-- The state in which the run of a frame begins. -/
def WsState.startRun (st : WsState ω) : RunState ω := RunState.fresh st.world st.ctx.agent st.rows

/-- `ws_handle_message_frame`. -/
def wsHandleMessageFrame (content : String) (st : WsState ω) : WsState ω :=
  match agentRunStreamingNew codec key world content st.startRun with
  | none => st
  | some (_, run) => WsState.afterRun st.ctx run

/-- The ids and times that a fork and the tag after it draw. -/
structure ForkDraws where
  fork : Minted
  tag : Minted

/-- The number of system messages at the start of a conversation. -/
def systemPrefix (msgs : List Message) : Nat := (msgs.takeWhile Message.hasSystemRole).length

/-- The conversation before a fork point. -/
def keptBefore (idx : Int) (msgs : List Message) : List Message :=
  msgs.take (if idx < 0 then 0 else idx.toNat + systemPrefix msgs)

/-- `session_manager_tag_message_new` for the answer of a regeneration. -/
def tagAnswer (draws : ForkDraws) (idx : Int) (group : String) (st : WsState ω) : WsState ω :=
  match st.ctx.activeSessionId with
  | none => st
  | some id =>
    { st with
      rows := (tagMessageNew codec Faults.none draws.tag key st.rows id idx group).2 }

/-- `ws_run_fork`. -/
def wsRunFork (draws : ForkDraws) (messageId : Option String) (idx : Int) (content : Option String)
    (regenMode : Bool) (st : WsState ω) : WsState ω :=
  match st.ctx.agent.sessionId with
  | none => st
  | some id =>
    match forkBranch codec Faults.none draws.fork key st.rows id messageId idx content with
    | (none, rows) => { st with rows }
    | (some fork, rows) =>
      let kept := keptBefore idx st.ctx.agent.messages
      let messages := if regenMode then kept else kept ++ [fork.forkMessage]
      let ctx := { st.ctx with agent := { st.ctx.agent with messages } }
      match agentRunStreamingContextNew codec key world (RunState.fresh st.world ctx.agent rows) with
      | none => { st with ctx, rows }
      | some (answer, run) =>
        let st := WsState.afterRun ctx run
        if regenMode && answer.isSome then tagAnswer codec key draws idx fork.forkGroupId st else st

/-- The fork point of a regeneration: the message with the id, else the index. -/
def regeneratePoint (messageId : Option String) (index : Int) (msgs : List Message) : Int :=
  match messageId.bind fun id => msgs.findIdx? fun m => m.id == some id with
  | some i => if (i : Int) - systemPrefix msgs < 0 then index else (i : Int) - systemPrefix msgs
  | none => index

/-- `ws_handle_regenerate`. -/
def wsHandleRegenerate (draws : ForkDraws) (messageId : Option String) (index : Int)
    (st : WsState ω) : WsState ω :=
  let msgs := st.ctx.agent.messages
  let fi := regeneratePoint messageId index msgs
  if st.ctx.agent.hasManager ∧ 0 ≤ fi ∧ fi + systemPrefix msgs < msgs.length then
    wsRunFork codec key world draws none fi none true st
  else st

/-- What a frame asks for.  The index of an edit is absent when it is no whole number from 0 on. -/
inductive WsRequest where
  | message (content : String)
  | edit (draws : ForkDraws) (messageId : Option String) (index : Option Nat) (content : String)
  | regenerate (draws : ForkDraws) (messageId : Option String) (index : Int)
  | branchSwitch (minted : Minted) (branchId : String)
  /-- a request that leaves the conversation alone -/
  | other

/-- A frame. -/
structure WsFrame where
  sessionId : Option String := none
  request : WsRequest

/-- The request of a frame. -/
def WsRequest.handle (sessionId : Option String) (st : WsState ω) : WsRequest → WsState ω
  | .message content => wsHandleMessageFrame codec key world content st
  | .edit draws messageId index content =>
    match index with
    | none => st
    | some idx =>
      if st.ctx.agent.hasManager then
        wsRunFork codec key world draws messageId idx (some content) false st
      else st
  | .regenerate draws messageId index =>
    wsHandleRegenerate codec key world draws messageId index st
  | .branchSwitch minted branchId =>
    let (ctx, rows) :=
      wsHandleBranchSwitch codec Faults.none key st.rows minted sessionId branchId st.ctx
    { st with ctx, rows }
  | .other => st

/-- `ws_chat_on_message`. -/
def wsChatOnMessage (frame : WsFrame) (st : WsState ω) : WsState ω :=
  let (rejected, ctx) := wsHandleSessionId codec Faults.none key st.rows frame.sessionId st.ctx
  if rejected then { st with ctx }
  else frame.request.handle codec key world frame.sessionId { st with ctx }

end Frames

end EchoAi
