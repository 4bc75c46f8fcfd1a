import EchoAi.Server.WsLoop

/-!
# What a step does to the runs and the waits

The stack of activations, the flags that all waits share and the log are the core of a connection.

* `goesOn_wsChatOnMessage`: a frame frees messages, and then it starts a run, answers an approval or
  cancels, or does none of these.
* `Moves`: what a step can do to the core.
* `moves_of_step`: a step does nothing else.
-/

namespace EchoAi

namespace LoopCore

variable (c : LoopCore) (run n : Nat) (counted : Bool) (below : List Activation)

/-- The log behind the return of a run. -/
theorem log_endRun : (c.endRun run counted below).log =
    c.log ++ .ended run :: if counted && c.closing then [.destroyed] else [] := by
  unfold endRun
  cases counted with
  | false => rfl
  | true =>
    cases hclosing : c.closing with
    | false => simp [note]
    | true => simp [note, wsChatCtxDestroy]

@[simp] theorem stack_endRun : (c.endRun run counted below).stack = below := by
  unfold endRun
  dsimp only
  split
  · split <;> rfl
  · rfl

@[simp] theorem pendingRequestId_endRun :
    (c.endRun run counted below).pendingRequestId = c.pendingRequestId := by
  unfold endRun
  dsimp only
  split
  · split <;> rfl
  · rfl

@[simp] theorem approvalResult_endRun :
    (c.endRun run counted below).approvalResult = c.approvalResult := by
  unfold endRun
  dsimp only
  split
  · split <;> rfl
  · rfl

@[simp] theorem cancelRequested_endRun :
    (c.endRun run counted below).cancelRequested = c.cancelRequested := by
  unfold endRun
  dsimp only
  split
  · split <;> rfl
  · rfl

@[simp] theorem runs_endRun : (c.endRun run counted below).runs = c.runs := by
  unfold endRun
  dsimp only
  split
  · split <;> rfl
  · rfl

@[simp] theorem closing_endRun : (c.endRun run counted below).closing = c.closing := by
  unfold endRun
  dsimp only
  split
  · split <;> rfl
  · rfl

@[simp] theorem connected_endRun : (c.endRun run counted below).connected = c.connected := by
  unfold endRun
  dsimp only
  split
  · split <;> rfl
  · rfl

theorem activeRuns_endRun : (c.endRun run counted below).activeRuns =
    c.activeRuns - if counted then 1 else 0 := by
  unfold endRun
  cases counted with
  | false => rfl
  | true =>
    dsimp only
    rw [if_pos rfl]
    split <;> rfl

end LoopCore

namespace WsLoop

section Frames

variable (st : WsLoop)

@[simp] theorem core_agentAppendMessage (m : HeldMessage) :
    (st.agentAppendMessage m).toLoopCore = st.toLoopCore := rfl

@[simp] theorem core_injectSystemWithSummary :
    st.injectSystemWithSummary.toLoopCore = st.toLoopCore := by
  unfold injectSystemWithSummary
  split <;> rfl

@[simp] theorem core_agentSaveSession (minted : Option String) :
    (st.agentSaveSession minted).toLoopCore = st.toLoopCore := by
  unfold agentSaveSession
  split <;> rfl

@[simp] theorem core_recordAnswer (response : LLMResponse) (minted : Option String) :
    (st.recordAnswer response minted).toLoopCore = st.toLoopCore := by
  unfold recordAnswer
  split
  · rw [core_agentSaveSession, core_agentAppendMessage]
  · rfl

@[simp] theorem core_replaceMessages (msgs : List HeldMessage) :
    (st.replaceMessages msgs).toLoopCore =
      st.toLoopCore.free (st.messages.filterMap HeldMessage.calls) := rfl

@[simp] theorem core_agentRunStreaming (n : Nat) (counted : Bool) (minted : Option String) :
    (st.agentRunStreaming n counted minted).toLoopCore = st.toLoopCore.startRun n counted := by
  rw [agentRunStreaming, core_agentSaveSession, core_agentAppendMessage]

@[simp] theorem core_endRun (run : Nat) (counted : Bool) (below : List Activation) :
    (st.endRun run counted below).toLoopCore = st.toLoopCore.endRun run counted below := rfl

theorem free_nil (c : LoopCore) : c.free [] = c := by
  rw [LoopCore.free, List.map_nil, List.append_nil]

theorem free_append (c : LoopCore) (calls calls' : List Nat) :
    c.free (calls ++ calls') = (c.free calls).free calls' := by
  rw [LoopCore.free, List.map_append, ← List.append_assoc]
  rfl

theorem core_wsHandleSessionId (frame : LoopFrame) :
    (st.wsHandleSessionId frame.sessionId frame.stored).2.toLoopCore =
      st.toLoopCore.free
        ((if st.loadsSession frame then st.messages else []).filterMap HeldMessage.calls) := by
  unfold wsHandleSessionId loadsSession
  cases frame.sessionId with
  | none => exact (free_nil st.toLoopCore).symm
  | some id =>
    cases st.activeSessionId with
    | some active => exact (free_nil st.toLoopCore).symm
    | none =>
      cases st.hasManager with
      | false => exact (free_nil st.toLoopCore).symm
      | true =>
        cases frame.stored with
        | none => exact (free_nil st.toLoopCore).symm
        | some msgs => rfl

theorem core_wsRunFork (n : Nat) (idx : Int) (id : String) (regenMode : Bool) :
    (st.wsRunFork n idx (some id) regenMode).toLoopCore =
      { st.toLoopCore.free ((st.messages.drop (st.keepCount idx)).filterMap HeldMessage.calls) with
        activeRuns := st.activeRuns + 1 }.startRun n true := by
  cases regenMode with
  | true => rfl
  | false => rfl

/-- What follows the freeing of messages: nothing more, a run, an answer or a cancellation. -/
def GoesOn (n : Nat) (starts : Bool) (freed after : LoopCore) : Prop :=
  (starts = false ∧ after = freed) ∨
    (starts = true ∧ after = { freed with activeRuns := freed.activeRuns + 1 }.startRun n true) ∨
    (starts = false ∧ ∃ request approved, after = freed.approvalResponse request approved) ∨
    (starts = false ∧ after = freed.agentCancel)

theorem goesOn_handle (n : Nat) (frame : LoopFrame) :
    GoesOn n (st.requestStarts frame)
      (st.toLoopCore.free ((st.droppedByRequest frame).filterMap HeldMessage.calls))
      (st.handle n frame).toLoopCore := by
  have hquiet : ∀ {after : WsLoop}, after.toLoopCore = st.toLoopCore →
      GoesOn n false (st.toLoopCore.free ([].filterMap HeldMessage.calls)) after.toLoopCore :=
    fun hafter => Or.inl ⟨rfl, hafter.trans (free_nil _).symm⟩
  have hfork : ∀ idx id regenMode, GoesOn n true
      (st.toLoopCore.free ((st.messages.drop (st.keepCount idx)).filterMap HeldMessage.calls))
      (st.wsRunFork n idx (some id) regenMode).toLoopCore :=
    fun idx id regenMode => Or.inr (Or.inl ⟨rfl, core_wsRunFork st n idx id regenMode⟩)
  unfold handle requestStarts droppedByRequest
  cases frame.request with
  | message =>
    unfold wsHandleMessageFrame
    cases hready : st.ready with
    | false => exact hquiet rfl
    | true =>
      refine Or.inr (Or.inl ⟨rfl, ?_⟩)
      dsimp only [List.filterMap_nil]
      rw [if_pos rfl, core_agentRunStreaming, free_nil]
  | edit index forked =>
    cases hmanager : st.hasManager with
    | false =>
      cases forked with
      | none => exact hquiet rfl
      | some id => exact hquiet rfl
    | true =>
      cases forked with
      | none => exact hquiet rfl
      | some id => exact hfork index id false
  | regenerate messageId index forked =>
    unfold wsHandleRegenerate
    cases forked with
    | none =>
      dsimp only
      rw [Option.isSome_none, Bool.and_false]
      cases st.canRegenerate messageId index with
      | false => exact hquiet rfl
      | true => exact hquiet rfl
    | some id =>
      dsimp only
      cases st.canRegenerate messageId index with
      | false => exact hquiet rfl
      | true => exact hfork _ id true
  | branchSwitch loaded =>
    unfold wsHandleBranchSwitch
    cases hswitch : st.canSwitch frame.sessionId with
    | false =>
      cases loaded with
      | none => exact hquiet rfl
      | some msgs => exact hquiet rfl
    | true =>
      cases loaded with
      | none => exact hquiet rfl
      | some msgs => exact Or.inl ⟨rfl, rfl⟩
  | approvalResponse request approved =>
    exact Or.inr (Or.inr (Or.inl ⟨rfl, request, approved, by rw [List.filterMap_nil, free_nil]⟩))
  | askUserResponse => exact hquiet rfl
  | stop => exact Or.inr (Or.inr (Or.inr ⟨rfl, by rw [List.filterMap_nil, free_nil]⟩))
  | other => exact hquiet rfl

/-- **What a frame does to the core.** -/
theorem goesOn_wsChatOnMessage (n : Nat) (frame : LoopFrame) :
    GoesOn n (st.startsRun frame)
      (st.toLoopCore.free ((st.dropped frame).filterMap HeldMessage.calls))
      (st.wsChatOnMessage n frame).toLoopCore := by
  have hbound := core_wsHandleSessionId st frame
  unfold wsChatOnMessage startsRun dropped
  generalize st.wsHandleSessionId frame.sessionId frame.stored = bound at hbound ⊢
  obtain ⟨rejected, bound⟩ := bound
  dsimp only at hbound ⊢
  cases st.authenticated with
  | false => exact Or.inl ⟨rfl, (free_nil _).symm⟩
  | true =>
    simp only [if_true, Bool.true_and, List.filterMap_append, free_append, ← hbound]
    cases rejected with
    | true => exact Or.inl ⟨rfl, (free_nil _).symm⟩
    | false => exact goesOn_handle bound n frame

end Frames

/-! ## All steps -/

/-- The core behind `agent_cancel` in `ws_chat_on_close`. -/
def closedCore (c : LoopCore) : LoopCore :=
  { c with
    closing := true
    connected := false
    approvalResult := false
    log := c.log ++ [WsNote.closed] }.agentCancel

/-- What a step can do to the core. -/
inductive Moves (n : Nat) (st : WsLoop) : LoopEvent → LoopCore → Prop
  | elsewhere : Moves n st .elsewhere st.toLoopCore
  | frame {frame : LoopFrame} {after : LoopCore} (hpump : st.pumping = true)
      (hopen : st.connected = true)
      (hafter : GoesOn n (st.startsRun frame)
        (st.toLoopCore.free ((st.dropped frame).filterMap HeldMessage.calls)) after) :
      Moves n st (.frame frame) after
  | close (hpump : st.pumping = true) (hopen : st.connected = true) :
      Moves n st .close (if st.activeRuns = 0 then (closedCore st.toLoopCore).wsChatCtxDestroy
        else closedCore st.toLoopCore)
  | logout : Moves n st .logout { st.toLoopCore with approvalResult := false }.agentCancel
  | cancel : Moves n st .cancel st.toLoopCore.agentCancel
  | flush (hstack : st.stack = []) (hopen : st.connected = true) :
      Moves n st .flush { st.toLoopCore with stack := [.flush st.queue] }
  /-- a run returns, perhaps behind its last calls of the model -/
  | ends {run left : Nat} {counted : Bool} {below : List Activation} (calls : Nat)
      {available : Bool} {response : Option LLMResponse} {titled : Bool} {minted : Option String}
      (hstack : st.stack = .run run counted left :: below)
      (hcalls : calls = 0 ∨ st.cancelRequested = false) :
      Moves n st (.call available response titled minted)
        ({ st.toLoopCore with
          log := st.log ++ List.replicate calls (WsNote.called run) }.endRun run counted below)
  | calls {run left : Nat} {counted : Bool} {below : List Activation}
      {available : Bool} {response : LLMResponse} {titled : Bool} {minted : Option String}
      (hstack : st.stack = .run run counted (left + 1) :: below)
      (hrequested : st.cancelRequested = false) :
      Moves n st (.call available (some response) titled minted)
        { st.toLoopCore with
          batches := st.batches + 1
          stack := .tools run counted left st.batches response.toolCalls :: below
          log := st.log ++ [WsNote.called run] ++ [WsNote.executing st.batches] }
  | executed {run left calls : Nat} {counted : Bool} {below : List Activation}
      {minted : Option String} (hstack : st.stack = .tools run counted left calls [] :: below) :
      Moves n st (.tool minted)
        { st.toLoopCore with
          stack := .run run counted left :: below
          log := st.log ++ [WsNote.executed calls] }
  | tool {run left calls : Nat} {counted : Bool} {call : ToolCall} {rest : List ToolCall}
      {below : List Activation} {minted : Option String}
      (hstack : st.stack = .tools run counted left calls (call :: rest) :: below) :
      Moves n st (.tool minted)
        { st.toLoopCore with stack := .tools run counted left calls rest :: below }
  | asks {run left calls : Nat} {counted : Bool} {call : ToolCall} {rest : List ToolCall}
      {below : List Activation} {minted : Option String}
      (hstack : st.stack = .tools run counted left calls (call :: rest) :: below) :
      Moves n st (.tool minted)
        { st.toLoopCore with stack := .askUser :: .tools run counted left calls rest :: below }
  | requests {run left calls : Nat} {counted : Bool} {call : ToolCall} {rest : List ToolCall}
      {below : List Activation} {minted : Option String} (request : String)
      (hstack : st.stack = .tools run counted left calls (call :: rest) :: below) :
      Moves n st (.tool minted)
        { st.toLoopCore with
          pendingRequestId := some request
          approvalResult := false
          stack := .approval request call :: .tools run counted left calls rest :: below
          log := st.log ++ [WsNote.requested request] }
  | flushed {below : List Activation} {minted : Option String}
      (hstack : st.stack = .flush 0 :: below) :
      Moves n st (.drain minted) { st.toLoopCore with stack := below }
  | drain {left : Nat} {below : List Activation} {minted : Option String}
      (hstack : st.stack = .flush (left + 1) :: below) :
      Moves n st (.drain minted)
        ({ st.toLoopCore with stack := .flush left :: below }.startRun n false)
  | returns {request : String} {call : ToolCall} {below : List Activation} {late : Bool}
      (hstack : st.stack = .approval request call :: below) :
      Moves n st (.wake late)
        { st.toLoopCore with
          stack := below
          log := st.log ++ [WsNote.returned request st.approvalResult] }
  | returnsAsking {request : String} {call : ToolCall} {below : List Activation} {late : Bool}
      (hstack : st.stack = .approval request call :: below) :
      Moves n st (.wake late)
        { st.toLoopCore with
          stack := .askUser :: below
          log := st.log ++ [WsNote.returned request st.approvalResult] }
  | answered {below : List Activation} {late : Bool} (hstack : st.stack = .askUser :: below) :
      Moves n st (.wake late) { st.toLoopCore with stack := below }

variable {n : Nat} {tools : ToolTable} {st after : WsLoop} {event : LoopEvent}

theorem moves_of_callModel {run left : Nat} {counted : Bool} {below : List Activation}
    {available titled : Bool} {response : Option LLMResponse} {minted : Option String}
    (hstack : st.stack = .run run counted left :: below) :
    Moves n st (.call available response titled minted)
      (st.callModel run counted left below available response titled minted).toLoopCore := by
  have hends : ∀ calls, (calls = 0 ∨ st.cancelRequested = false) → ∀ c : LoopCore,
      c = { st.toLoopCore with
        log := st.log ++ List.replicate calls (WsNote.called run) }.endRun run counted below →
      Moves n st (.call available response titled minted) c := by
    rintro calls hcalls c rfl
    exact Moves.ends calls hstack hcalls
  have hstop : Moves n st (.call available response titled minted)
      (st.toLoopCore.endRun run counted below) := by
    refine hends 0 (Or.inl rfl) _ ?_
    rw [List.replicate_zero, List.append_nil]
  unfold callModel
  cases left with
  | zero => exact hstop
  | succ left =>
    dsimp only
    split
    · exact hstop
    · next hgo =>
      have hrequested : st.cancelRequested = false := by
        cases hcancel : st.cancelRequested with
        | false => rfl
        | true => exact absurd (by rw [hcancel, Bool.true_or]) hgo
      cases response with
      | none =>
        refine hends 1 (Or.inr hrequested) _ ?_
        rw [core_endRun, core_injectSystemWithSummary]
        rfl
      | some response =>
        dsimp only
        generalize hcalled : ({ st.injectSystemWithSummary with
          toLoopCore := st.injectSystemWithSummary.toLoopCore.note (.called run) } :
            WsLoop) = called
        have hrecorded : (called.recordAnswer response minted).toLoopCore =
            st.toLoopCore.note (.called run) := by
          rw [core_recordAnswer, ← hcalled, core_injectSystemWithSummary]
        generalize called.recordAnswer response minted = recorded at hrecorded
        split
        · rw [hrecorded]
          exact Moves.calls hstack hrequested
        · split
          · refine hends 2 (Or.inr hrequested) _ ?_
            rw [core_endRun, core_agentSaveSession, hrecorded]
            show LoopCore.endRun run counted below
              { st.toLoopCore with
                log := st.log ++ [WsNote.called run] ++ [WsNote.called run] } = _
            rw [List.append_assoc]
            rfl
          · refine hends 1 (Or.inr hrequested) _ ?_
            rw [core_endRun, core_agentSaveSession, hrecorded]
            rfl

theorem moves_of_runTool {run left calls : Nat} {counted : Bool} {rest : List ToolCall}
    {below : List Activation} {minted : Option String}
    (hstack : st.stack = .tools run counted left calls rest :: below) :
    Moves n st (.tool minted)
      (st.runTool tools run counted left calls rest below minted).toLoopCore := by
  unfold runTool
  cases rest with
  | nil =>
    dsimp only
    rw [core_agentSaveSession]
    exact Moves.executed hstack
  | cons call rest =>
    dsimp only
    split
    · exact Moves.tool hstack
    · split
      · split
        · exact Moves.requests _ hstack
        · exact Moves.tool hstack
      · unfold execute
        split
        · exact Moves.asks hstack
        · exact Moves.tool hstack

/-- **A step does nothing else to the core.** -/
theorem moves_of_step (h : step tools n st event = some after) :
    Moves n st event after.toLoopCore := by
  cases event with
  | frame frame =>
    simp only [step, Option.ite_none_right_eq_some, Option.some.injEq, Bool.and_eq_true] at h
    obtain ⟨⟨hpump, hopen⟩, rfl⟩ := h
    exact Moves.frame hpump hopen (goesOn_wsChatOnMessage st n frame)
  | close =>
    simp only [step, Option.ite_none_right_eq_some, Option.some.injEq, Bool.and_eq_true] at h
    obtain ⟨⟨hpump, hopen⟩, rfl⟩ := h
    exact Moves.close hpump hopen
  | logout =>
    simp only [step, Option.ite_none_right_eq_some, Option.some.injEq] at h
    obtain ⟨-, rfl⟩ := h
    exact Moves.logout
  | cancel =>
    obtain rfl := Option.some.inj h
    exact Moves.cancel
  | elsewhere =>
    obtain rfl := Option.some.inj h
    exact Moves.elsewhere
  | flush =>
    simp only [step, Option.ite_none_right_eq_some, Option.some.injEq] at h
    obtain ⟨⟨hstack, hopen, -⟩, rfl⟩ := h
    exact Moves.flush hstack hopen
  | call available response titled minted =>
    simp only [step] at h
    split at h
    · next hstack =>
      obtain rfl := Option.some.inj h
      exact moves_of_callModel hstack
    · exact absurd h (by simp)
  | tool minted =>
    simp only [step] at h
    split at h
    · next hstack =>
      obtain rfl := Option.some.inj h
      exact moves_of_runTool hstack
    · exact absurd h (by simp)
  | drain minted =>
    simp only [step] at h
    split at h
    · next left below hstack =>
      obtain rfl := Option.some.inj h
      unfold flushNext
      cases left with
      | zero => exact Moves.flushed hstack
      | succ left =>
        dsimp only
        rw [core_agentRunStreaming]
        exact Moves.drain hstack
    · exact absurd h (by simp)
  | wake late =>
    simp only [step] at h
    split at h
    · next hstack =>
      simp only [Option.ite_none_right_eq_some, Option.some.injEq] at h
      obtain ⟨-, rfl⟩ := h
      unfold wakeApproval
      dsimp only
      split
      · unfold execute
        split
        · exact Moves.returnsAsking hstack
        · exact Moves.returns hstack
      · exact Moves.returns hstack
    · next hstack =>
      simp only [Option.ite_none_right_eq_some, Option.some.injEq] at h
      obtain ⟨-, rfl⟩ := h
      exact Moves.answered hstack
    · exact absurd h (by simp)

/-! ## A connection with a shell -/

/-- Every tool is registered, and `shell` needs an approval. -/
def shellTools : ToolTable where
  registered _ := true
  needsApproval name := name == "shell"
  asksUser _ := false

/-- An answer that calls a tool. -/
def answerCalling (tool : String) : LLMResponse :=
  { content := some "", toolCalls := [{ id := some "c1", name := some tool }] }

/-- The last answer of a run. -/
def lastAnswer : LLMResponse := { content := some "done" }

/-- A frame with a message. -/
def messageEvent : LoopEvent := .frame { request := .message }

/-- A call of the model that is answered. -/
def callEvent (response : LLMResponse) : LoopEvent := .call true (some response) false none

theorem fresh_default : Fresh {} := ⟨rfl, rfl, rfl, rfl, rfl, rfl, rfl, rfl⟩

end WsLoop

end EchoAi
