import EchoAi.Server.WsBind

/-!
# The connection and the store agree

The frames of a connection change the stored session and the agent's conversation separately: a fork or
a switch of branches edits the stored row, a run edits the conversation and writes it over the row.

* `HoldsStored`: the agent's conversation is the live chain of its session.
* `InStep`: what a run keeps: the two agree whenever the conversation fits in a row.
* `Harmless`: a frame that locates its fork point alike on both sides and does not regenerate.
* `agrees_wsRun`: after frames that are harmless, the connection and the store agree, and no save has
  undone what a fork or a switch did.

A save that does not fit in a row is refused, and the run goes on.
-/

namespace EchoAi

/-! ## What a run leaves -/

section InStep

variable {ω : Type} {codec : JsonCodec} {key : EncryptionKey} {world : World ω}

/-- The agent's conversation is the live chain of its session. -/
def HoldsStored (codec : JsonCodec) (key : EncryptionKey) (rows : List SessionRow) (agent : Agent) :
    Prop :=
  ∃ id s, agent.sessionId = some id ∧ loadSessionAlloc codec key rows Faults.none id = some s ∧
    savedForm codec agent.messages = savedForm codec s.messages

/-- The agent's session is stored, and the conversation fits in its row. -/
def Fits (codec : JsonCodec) (key : EncryptionKey) (rows : List SessionRow) (agent : Agent) : Prop :=
  ∃ id s, agent.sessionId = some id ∧ loadSessionAlloc codec key rows Faults.none id = some s ∧
    ({ s with messages := storedMessages agent.messages } : Session).storable codec = true

/-- The agent saves its sessions, and it holds the stored one unless that does not fit. -/
structure InStep (codec : JsonCodec) (key : EncryptionKey) (st : RunState ω) : Prop where
  manager : st.agent.hasManager = true
  holds : Fits codec key st.rows st.agent → HoldsStored codec key st.rows st.agent

/-- The empty object and the empty array are printed without blanks. -/
def PrintsCompact (codec : JsonCodec) : Prop :=
  codec.print (.object []) = "\x7b\x7d" ∧ codec.print (.array []) = "[]"

/-- Whether a session fits in a row is a matter of three texts. -/
theorem storable_iff {s : Session} : s.storable codec = true ↔
    columnFits (codec.print (messagesJson codec s.messages)) = true ∧
      columnFits (sessionSerializeMetadataNew codec s.metadata) = true ∧
        columnFits (sessionSerializeEventsNew codec s.events) = true := by
  rw [Session.storable, Bool.and_eq_true, Bool.and_eq_true, and_assoc]

/-- A new session fits when its messages do. -/
theorem storable_sessionCreate (hprint : PrintsCompact codec) (new : NewSession) (title : String)
    {messages : List Message} (h : columnFits (codec.print (messagesJson codec messages)) = true) :
    ({ sessionCreate new title with messages } : Session).storable codec = true := by
  refine storable_iff.mpr ⟨h, ?_, ?_⟩
  · show columnFits (sessionSerializeMetadataNew codec (.object [])) = true
    rw [sessionSerializeMetadataNew, hprint.1]
    decide
  · show columnFits (sessionSerializeEventsNew codec []) = true
    rw [sessionSerializeEventsNew, hprint.2]
    decide

/-- A save is refused when it does not fit. -/
theorem saveWithMessages_none_iff {rows : List SessionRow} {s : Session} {messages : List Message}
    (hid : s.id ≠ "") : saveWithMessages codec Faults.none key rows s messages = none ↔
      ¬ ({ s with messages } : Session).storable codec = true := by
  have hne : (s.id == "") = false := beq_eq_false_iff_ne.mpr hid
  rw [saveWithMessages, hne, Faults.within_none]
  show saveSessionCoreLocked codec Faults.none key rows { s with messages } = none ↔ _
  rw [saveSessionCoreLocked_none]
  split
  · next hfits => exact iff_of_false (by simp) fun h => h hfits
  · next hfits => exact iff_of_true rfl hfits

theorem ne_empty_of_load {rows : List SessionRow} {fail : Faults LoadSite} {id : String} {s : Session}
    (h : loadSessionAlloc codec key rows fail id = some s) : id ≠ "" := by
  rintro rfl
  rw [loadSessionAlloc, if_pos rfl] at h
  exact absurd h (by simp)

theorem id_of_loadSessionAlloc {rows : List SessionRow} {id : String} {s : Session}
    (h : loadSessionAlloc codec key rows Faults.none id = some s) : s.id = id := by
  have hne := ne_empty_of_load h
  rw [loadSessionAlloc, if_neg hne] at h
  exact id_of_loadSessionLocked h

/-- **A save brings both in step**: the row holds the conversation, or the conversation does not fit. -/
theorem inStep_runSaveSession (hprint : PrintsCompact codec) {st : RunState ω}
    (hmanager : st.agent.hasManager = true) :
    InStep codec key (runSaveSession codec key world st) := by
  obtain ⟨sessionId, hagent⟩ := agentSaveSession_agent codec key Faults.none
    (world.newSession st.world).1 st.rows st.agent
  refine ⟨(congrArg Agent.hasManager hagent).trans hmanager, ?_⟩
  have hcopies : savedCopies Faults.none st.agent.messages = storedMessages st.agent.messages := by
    have hwhole : SavesWhole codec Faults.none st.agent.messages :=
      ⟨fun _ => rfl, fun _ _ => rfl, intact_none _⟩
    exact hwhole.savedCopies_eq
  show Fits codec key
      (agentSaveSession codec Faults.none (world.newSession st.world).1 key st.rows st.agent).2
      (agentSaveSession codec Faults.none (world.newSession st.world).1 key st.rows st.agent).1 →
    HoldsStored codec key
      (agentSaveSession codec Faults.none (world.newSession st.world).1 key st.rows st.agent).2
      (agentSaveSession codec Faults.none (world.newSession st.world).1 key st.rows st.agent).1
  have hfound : ∃ s, sessionToSave codec Faults.none (world.newSession st.world).1 key st.rows
      st.agent.sessionId = some (s, some s.id) ∧
        (∀ t, loadSessionAlloc codec key st.rows Faults.none s.id = some t → s = t ∨
          s = sessionCreate (world.newSession st.world).1 "Echo AI Session") := by
    rw [sessionToSave]
    split
    · next s hload =>
      obtain ⟨id, hid, hload'⟩ := Option.bind_eq_some_iff.mp hload
      have hs : s.id = id := id_of_loadSessionAlloc hload'
      rw [hid]
      refine ⟨s, by rw [hs], fun t ht => Or.inl ?_⟩
      rw [hs] at ht
      exact Option.some.inj (hload'.symm.trans ht)
    · exact ⟨_, rfl, fun t _ => Or.inr rfl⟩
  obtain ⟨s, hfound, hloaded⟩ := hfound
  rw [agentSaveSession_of_some hmanager hfound, hcopies]
  rintro ⟨id, t, hid, hload, hfits⟩
  obtain rfl : s.id = id := Option.some.inj hid
  have hne : s.id ≠ "" := ne_empty_of_load hload
  cases hsave : saveWithMessages codec Faults.none key st.rows s (storedMessages st.agent.messages) with
  | none =>
    rw [hsave] at hload
    refine absurd ?_ ((saveWithMessages_none_iff hne).mp hsave)
    rcases hloaded t hload with rfl | rfl
    · exact hfits
    · exact storable_sessionCreate hprint _ _ (storable_iff.mp hfits).1
  | some rows' =>
    obtain ⟨-, t', ht', hmessages⟩ := exists_row_of_saveWithMessages hsave
    refine ⟨s.id, t', rfl, ?_, ?_⟩
    · rw [loadSessionAlloc, if_neg hne]
      exact ht'
    · have hform : t'.messages = savedForm codec st.agent.messages :=
        hmessages.trans (received_eq_normalize_iff.mpr (intact_none _))
      rw [hform, savedForm_savedForm]

/-- The part of a state that a save is about. -/
theorem InStep.congr {st st' : RunState ω} (h : InStep codec key st)
    (hmanager : st'.agent.hasManager = st.agent.hasManager)
    (hsession : st'.agent.sessionId = st.agent.sessionId)
    (hmessages : storedMessages st'.agent.messages = storedMessages st.agent.messages)
    (hrows : st'.rows = st.rows) : InStep codec key st' := by
  refine ⟨hmanager.trans h.manager, ?_⟩
  have hform : savedForm codec st'.agent.messages = savedForm codec st.agent.messages :=
    congrArg (List.map (Message.normalize codec)) hmessages
  unfold Fits HoldsStored
  rw [hsession, hmessages, hform, hrows]
  exact h.holds

/-- An update of the session that leaves its contents alone. -/
theorem holdsStored_updateSession {rows rows' : List SessionRow} {agent : Agent} {id : String}
    (h : Fits codec key rows agent → HoldsStored codec key rows agent)
    (hsession : agent.sessionId = some id) {change : Session → Session}
    (hupdate : updateSession codec key rows id change = some rows')
    (hid : ∀ s, (change s).id = s.id) (hmessages : ∀ s, (change s).messages = s.messages)
    (hmetadata : ∀ s, (change s).metadata = s.metadata) (hevents : ∀ s, (change s).events = s.events) :
    Fits codec key rows' agent → HoldsStored codec key rows' agent := by
  obtain ⟨s, hload, hsave⟩ := Option.bind_eq_some_iff.mp hupdate
  have hs : s.id = id := id_of_loadSessionAlloc hload
  have hne : (change s).id ≠ "" := by
    rw [hid, hs]
    exact ne_empty_of_load hload
  obtain ⟨t, ht, hstored⟩ := load_of_saveWithMessages hload (hid s) hsave
  rintro ⟨id', t', hid', ht', hfits⟩
  obtain rfl : id = id' := Option.some.inj (hsession.symm.trans hid')
  have hchanged : ({ change s with messages := (change s).messages } : Session).storable codec =
      true := by
    by_contra hrefused
    rw [(saveWithMessages_none_iff hne).mpr hrefused] at hsave
    exact absurd hsave (by simp)
  have hbefore : Fits codec key rows agent := by
    refine ⟨id, s, hsession, hload, storable_iff.mpr ⟨(storable_iff.mp hfits).1, ?_, ?_⟩⟩
    · exact hmetadata s ▸ (storable_iff.mp hchanged).2.1
    · exact hevents s ▸ (storable_iff.mp hchanged).2.2
  obtain ⟨id'', s', hid'', hload', hholds⟩ := h hbefore
  obtain rfl : id = id'' := Option.some.inj (hsession.symm.trans hid'')
  obtain rfl : s = s' := Option.some.inj (hload.symm.trans hload')
  refine ⟨id, t, hsession, ht, ?_⟩
  rw [hholds, hstored, hmessages, savedForm_map_normalize]

theorem InStep.agentGenerateTitle {st : RunState ω} (h : InStep codec key st) :
    InStep codec key (agentGenerateTitle codec key world st) := by
  unfold EchoAi.agentGenerateTitle
  split
  · exact h
  · next id hsession =>
    split
    · split
      · exact h
      · next rows hattempted =>
        have hrows : Fits codec key rows st.agent → HoldsStored codec key rows st.agent :=
          holdsStored_updateSession h.holds hsession hattempted (fun _ => rfl) (fun _ => rfl)
            (fun _ => rfl) fun _ => rfl
        split
        · exact ⟨h.manager, hrows⟩
        · refine ⟨h.manager, ?_⟩
          dsimp only
          cases htitle : EchoAi.updateSession codec key rows id _ with
          | none => exact hrows
          | some rows' =>
            exact holdsStored_updateSession hrows hsession htitle (fun _ => rfl) (fun _ => rfl)
              (fun _ => rfl) fun _ => rfl
    · exact h

/-- **Consuming an answer brings both in step**, whatever was before. -/
theorem inStep_consume (hprint : PrintsCompact codec) {st : RunState ω}
    (hmanager : st.agent.hasManager = true) (response : LLMResponse) :
    InStep codec key (consume codec key world response st).2 := by
  have hrecorded : (recordAnswer codec key world response st).agent.hasManager = true := by
    unfold recordAnswer
    split
    · exact hmanager
    · obtain ⟨outer, sessionId, rows, heq⟩ := runSaveSession_eq codec key world
        (appendAssistant world response _ st)
      rw [heq]
      exact hmanager
  unfold consume
  dsimp only
  split
  · obtain ⟨calls, answers, outer, executed, -, heq⟩ := answerCalls_eq world
      st.agent.messages.length response (recordAnswer codec key world response st)
    rw [heq]
    exact inStep_runSaveSession hprint hrecorded
  · exact (inStep_runSaveSession hprint hrecorded).agentGenerateTitle

theorem InStep.streamingLlmCall {st : RunState ω} (h : InStep codec key st) :
    InStep codec key (streamingLlmCall world st).2 := by
  unfold EchoAi.streamingLlmCall
  dsimp only
  split
  · exact h.congr rfl rfl (storedMessages_injectSystem _ _) rfl
  · exact h.congr rfl rfl rfl rfl

/-- **A streaming loop** keeps the agent and the store in step. -/
theorem InStep.streamingLoop (hprint : PrintsCompact codec) {n : Nat} {st st' : RunState ω}
    {answer : Option LLMResponse} (h : InStep codec key st)
    (hrun : runLoop codec key world (fun st => some (EchoAi.streamingLlmCall world st)) n st =
      some (answer, st')) : InStep codec key st' := by
  refine runLoop_rule (InStep codec key) (InStep codec key) (fun _ h => h)
    (fun st st₁ h hnone => ?_) (fun st response st₁ h hsome => ?_) h hrun
  · have hst : (EchoAi.streamingLlmCall world st).2 = st₁ :=
      congrArg Prod.snd (Option.some.inj hnone)
    exact hst ▸ h.streamingLlmCall
  · have hst : (EchoAi.streamingLlmCall world st).2 = st₁ :=
      congrArg Prod.snd (Option.some.inj hsome)
    exact inStep_consume hprint (hst ▸ h.streamingLlmCall.manager) response

end InStep

/-! ## Frames -/

section Frames

variable {ω : Type} (codec : JsonCodec) (key : EncryptionKey) (world : World ω)

/-- The connection and its agent work on the same session, and the agent's conversation is the live
chain of it. -/
structure Agrees (st : WsState ω) : Prop where
  manager : st.ctx.agent.hasManager = true
  session : st.ctx.activeSessionId = st.ctx.agent.sessionId
  holds : ∀ id, st.ctx.agent.sessionId = some id → HoldsStored codec key st.rows st.ctx.agent

/-- A fork of the agent's session. -/
def WsState.fork (st : WsState ω) (minted : Minted) (messageId : Option String) (idx : Int)
    (content : Option String) : Option ForkResult × List SessionRow :=
  match st.ctx.agent.sessionId with
  | none => (none, st.rows)
  | some id => forkBranch codec Faults.none minted key st.rows id messageId idx content

/-- The fork of a regeneration, if its fork point is there. -/
def WsState.regenerateFork (st : WsState ω) (minted : Minted) (messageId : Option String)
    (index : Int) : Option ForkResult × List SessionRow :=
  let msgs := st.ctx.agent.messages
  let fi := regeneratePoint messageId index msgs
  if st.ctx.agent.hasManager ∧ 0 ≤ fi ∧ fi + systemPrefix msgs < msgs.length then
    st.fork codec key minted none fi none
  else (none, st.rows)

/-- The fork point lies at the same place of the stored chain and of the agent's conversation. -/
def CutsAlike (st : WsState ω) (messageId : Option String) (idx : Int) : Prop :=
  ∀ id s fi, st.ctx.agent.sessionId = some id →
    loadSessionAlloc codec key st.rows Faults.none id = some s →
    branchFindForkIndex s messageId idx = some fi →
      savedForm codec (keptBefore idx st.ctx.agent.messages) = savedForm codec (s.messages.take fi)

/-- A request that locates its fork point alike on both sides, leaves a conversation that fits in a row,
and does not regenerate. -/
def WsRequest.Harmless (sessionId : Option String) (st : WsState ω) (request : WsRequest) : Prop :=
  match request with
  | .message _ =>
    Fits codec key (request.handle codec key world sessionId st).rows
      (request.handle codec key world sessionId st).ctx.agent
  | .edit draws messageId index content =>
    ∀ idx : Nat, index = some idx →
      (st.fork codec key draws.fork messageId idx (some content)).1.isSome = true →
        CutsAlike codec key st messageId idx ∧
          Fits codec key (request.handle codec key world sessionId st).rows
            (request.handle codec key world sessionId st).ctx.agent
  | .regenerate draws messageId index =>
    (st.regenerateFork codec key draws.fork messageId index).1 = none
  | .branchSwitch _ _ => True
  | .other => True

/-- The stored sessions as a request leaves them before its run: forked, or switched to another
branch. -/
def WsRequest.branched (sessionId : Option String) (st : WsState ω) :
    WsRequest → List SessionRow
  | .message _ => st.rows
  | .edit draws messageId index content =>
    match index with
    | none => st.rows
    | some idx => (st.fork codec key draws.fork messageId idx (some content)).2
  | .regenerate draws messageId index =>
    (st.regenerateFork codec key draws.fork messageId index).2
  | .branchSwitch minted branchId =>
    (wsHandleBranchSwitch codec Faults.none key st.rows minted sessionId branchId st.ctx).2
  | .other => st.rows

/-- The state in which the request of a frame is handled. -/
def WsFrame.bound (frame : WsFrame) (st : WsState ω) : WsState ω :=
  { st with ctx := (wsHandleSessionId codec Faults.none key st.rows frame.sessionId st.ctx).2 }

/-- Whether a frame is turned away for the session that it names. -/
def WsFrame.rejected (frame : WsFrame) (st : WsState ω) : Bool :=
  (wsHandleSessionId codec Faults.none key st.rows frame.sessionId st.ctx).1

/-- A frame with a harmless request. -/
def WsFrame.Harmless (frame : WsFrame) (st : WsState ω) : Prop :=
  frame.rejected codec key st = false →
    frame.request.Harmless codec key world frame.sessionId (frame.bound codec key st)

/-- **What a frame leaves**: when the connection has a session, it is the agent's, and the agent's
conversation is its live chain.  The run of the frame has kept all messages of the chain as the fork or
the switch before it left them. -/
structure FrameAgrees (frame : WsFrame) (st : WsState ω) : Prop where
  agrees : ∀ id, (wsChatOnMessage codec key world frame st).ctx.activeSessionId = some id →
    (wsChatOnMessage codec key world frame st).ctx.agent.sessionId = some id ∧ ∃ s,
      loadSessionAlloc codec key (wsChatOnMessage codec key world frame st).rows Faults.none id =
        some s ∧
      savedForm codec (wsChatOnMessage codec key world frame st).ctx.agent.messages =
        savedForm codec s.messages
  keeps : frame.rejected codec key st = false → ∀ id s,
    (frame.bound codec key st).ctx.agent.sessionId = some id →
    loadSessionAlloc codec key
      (frame.request.branched codec key frame.sessionId (frame.bound codec key st)) Faults.none id =
        some s →
      ∃ t, loadSessionAlloc codec key (wsChatOnMessage codec key world frame st).rows Faults.none id =
        some t ∧ KeepsMessages codec s.messages t.messages

variable {codec key world}

/-! ### Naming a session -/

theorem copiedMessages_none (msgs : List Message) : copiedMessages Faults.none msgs = msgs := by
  rw [copiedMessages_eq, if_pos ⟨rfl, fun _ _ => rfl⟩]

theorem Agrees.bound {st : WsState ω} (h : Agrees codec key st) (frame : WsFrame) :
    Agrees codec key (frame.bound codec key st) := by
  unfold WsFrame.bound wsHandleSessionId
  split
  · exact h
  · next id _ =>
    split
    · exact h
    · next hactive =>
      split
      · split
        · exact h
        · next s hload =>
          refine ⟨h.manager, rfl, fun id' _ => ⟨id, s, rfl, hload, ?_⟩⟩
          rw [copiedMessages_none]
      · exact h

/-! ### Runs -/

/-- The conversation and the chain after a run that began with the two in agreement. -/
theorem agrees_afterRun (hprint : PrintsCompact codec) (c : WsChatCtx) (base : List Message)
    {start run : RunState ω} {n : Nat} {answer : Option LLMResponse} (hinStep : InStep codec key start)
    (hextends : ∀ id, c.activeSessionId = some id → Extends codec key id base start)
    (hrun : runLoop codec key world (fun st => some (streamingLlmCall world st)) n start =
      some (answer, run))
    (hfits : Fits codec key run.rows run.agent) : Agrees codec key (WsState.afterRun c run) ∧
      ∀ id, c.activeSessionId = some id → StoresMore codec key id base run.rows := by
  have hend : InStep codec key run := hinStep.streamingLoop hprint hrun
  refine ⟨⟨hend.manager, ?_, fun _ _ => hend.holds hfits⟩, fun id hid =>
    ((hextends id hid).streamingLoop hrun).stored⟩
  show c.activeSessionId.or run.agent.sessionId = run.agent.sessionId
  cases hactive : c.activeSessionId with
  | none => rfl
  | some id => exact ((hextends id hactive).streamingLoop hrun).sessionId.symm

/-- A message frame. -/
theorem Agrees.message (hprint : PrintsCompact codec) {st : WsState ω} (h : Agrees codec key st)
    (content : String)
    (hfits : Fits codec key (wsHandleMessageFrame codec key world content st).rows
      (wsHandleMessageFrame codec key world content st).ctx.agent) :
    Agrees codec key (wsHandleMessageFrame codec key world content st) ∧ ∀ id s,
      st.ctx.agent.sessionId = some id →
      loadSessionAlloc codec key st.rows Faults.none id = some s → ∃ t,
        loadSessionAlloc codec key (wsHandleMessageFrame codec key world content st).rows Faults.none
          id = some t ∧ KeepsMessages codec s.messages t.messages := by
  unfold wsHandleMessageFrame at hfits ⊢
  cases hrun : agentRunStreamingNew codec key world content st.startRun with
  | none => exact ⟨h, fun id s _ hload => ⟨s, hload, KeepsMessages.refl _⟩⟩
  | some out =>
    obtain ⟨answer, run⟩ := out
    rw [hrun] at hfits
    have hstart : InStep codec key (startRun codec key world content st.startRun) :=
      inStep_runSaveSession hprint h.manager
    cases hsession : st.ctx.agent.sessionId with
    | none =>
      have hnone : ∀ id, st.ctx.activeSessionId ≠ some id := by
        intro id hid
        rw [h.session, hsession] at hid
        exact absurd hid (by simp)
      exact ⟨(agrees_afterRun hprint st.ctx [] hstart (fun id hid => absurd hid (hnone id)) hrun
        hfits).1, fun id s hid => absurd hid (by simp)⟩
    | some id =>
      obtain ⟨id', s, hid, hload, hmessages⟩ := h.holds id hsession
      obtain rfl : id = id' := Option.some.inj (hsession.symm.trans hid)
      have hextends : Extends codec key id s.messages
          (startRun codec key world content st.startRun) :=
        (extends_fresh hsession hload hmessages st.world).startRun content
      have hactive : ∀ id', st.ctx.activeSessionId = some id' → id' = id := fun id' hid' =>
        Option.some.inj (hid'.symm.trans (h.session.trans hsession))
      obtain ⟨hagrees, hstores⟩ := agrees_afterRun hprint st.ctx s.messages hstart
        (fun id' hid' => hactive id' hid' ▸ hextends) hrun hfits
      refine ⟨hagrees, fun id' t hid' ht => ?_⟩
      obtain rfl : id = id' := Option.some.inj hid'
      obtain rfl : s = t := Option.some.inj (hload.symm.trans ht)
      exact (hstores id (h.session.trans hsession)).keeps

/-- A fork that is refused leaves everything as it is. -/
theorem rows_of_fork_none {st : WsState ω} {minted : Minted} {messageId content : Option String}
    {idx : Int} (h : (st.fork codec key minted messageId idx content).1 = none) :
    (st.fork codec key minted messageId idx content).2 = st.rows := by
  unfold WsState.fork at h ⊢
  cases hsession : st.ctx.agent.sessionId with
  | none => rfl
  | some id =>
    rw [hsession] at h
    exact rows_of_fork_failed (fun m => by simp [forkAnswer]) (Prod.ext h rfl)

theorem wsRunFork_of_none {st : WsState ω} {draws : ForkDraws} {messageId content : Option String}
    {idx : Int} {regenMode : Bool}
    (h : (st.fork codec key draws.fork messageId idx content).1 = none) :
    wsRunFork codec key world draws messageId idx content regenMode st = st := by
  have hrows := rows_of_fork_none h
  unfold wsRunFork
  unfold WsState.fork at h hrows
  cases hsession : st.ctx.agent.sessionId with
  | none => rfl
  | some id =>
    rw [hsession] at h hrows
    dsimp only at h hrows ⊢
    rcases hfork : forkBranch codec Faults.none draws.fork key st.rows id messageId idx content with
      ⟨answer, rows⟩
    rw [hfork] at h hrows
    obtain rfl : answer = none := h
    obtain rfl : rows = st.rows := hrows
    rfl

/-- The connection after a run on the agent's conversation as it is. -/
def wsContextRun (codec : JsonCodec) (key : EncryptionKey) (world : World ω) (st : WsState ω) :
    WsState ω :=
  match agentRunStreamingContextNew codec key world st.startRun with
  | none => st
  | some (_, run) => WsState.afterRun st.ctx run

/-- The conversation of an edit: what is before the fork point, and the message of the fork. -/
def WsState.edited (st : WsState ω) (idx : Int) (forkMessage : Message) (rows : List SessionRow) :
    WsState ω :=
  { st with
    ctx := { st.ctx with agent := { st.ctx.agent with
      messages := keptBefore idx st.ctx.agent.messages ++ [forkMessage] } }
    rows }

theorem wsRunFork_of_some {st : WsState ω} {draws : ForkDraws} {messageId content : Option String}
    {idx : Int} {answer : ForkResult} {rows : List SessionRow}
    (h : st.fork codec key draws.fork messageId idx content = (some answer, rows)) :
    wsRunFork codec key world draws messageId idx content false st =
      wsContextRun codec key world (st.edited idx answer.forkMessage rows) := by
  unfold WsState.fork at h
  unfold wsRunFork wsContextRun
  cases hsession : st.ctx.agent.sessionId with
  | none =>
    rw [hsession] at h
    exact absurd (Prod.mk.inj h).1 (by simp)
  | some id =>
    rw [hsession] at h
    dsimp only at h ⊢
    rw [h]
    rfl

/-- A run on a conversation that is the live chain. -/
theorem agrees_contextRun (hprint : PrintsCompact codec) (st : WsState ω) {id : String} {s : Session}
    (hmanager : st.ctx.agent.hasManager = true) (hactive : st.ctx.activeSessionId = some id)
    (hsession : st.ctx.agent.sessionId = some id)
    (hload : loadSessionAlloc codec key st.rows Faults.none id = some s)
    (hmessages : savedForm codec st.ctx.agent.messages = savedForm codec s.messages)
    (hfits : Fits codec key (wsContextRun codec key world st).rows
      (wsContextRun codec key world st).ctx.agent) :
    Agrees codec key (wsContextRun codec key world st) ∧ ∃ t,
      loadSessionAlloc codec key (wsContextRun codec key world st).rows Faults.none id = some t ∧
        KeepsMessages codec s.messages t.messages := by
  have hholds : HoldsStored codec key st.rows st.ctx.agent := ⟨id, s, hsession, hload, hmessages⟩
  unfold wsContextRun at hfits ⊢
  cases hrun : agentRunStreamingContextNew codec key world st.startRun with
  | none =>
    exact ⟨⟨hmanager, hactive.trans hsession.symm, fun _ _ => hholds⟩, s, hload,
      KeepsMessages.refl _⟩
  | some out =>
    obtain ⟨answer, run⟩ := out
    rw [hrun] at hfits
    have hextends : Extends codec key id s.messages
        { st.startRun with world := world.clearCancel st.world } :=
      extends_fresh hsession hload hmessages (world.clearCancel st.world)
    obtain ⟨hagrees, hstores⟩ := agrees_afterRun hprint st.ctx s.messages
      ⟨hmanager, fun _ => hholds⟩
      (fun id' hid' => Option.some.inj (hactive.symm.trans hid') ▸ hextends) hrun hfits
    exact ⟨hagrees, (hstores id hactive).keeps⟩

theorem savedForm_append (l l' : List Message) :
    savedForm codec (l ++ l') = savedForm codec l ++ savedForm codec l' := by
  rw [savedForm, storedMessages, List.filter_append, List.map_append]
  rfl

/-- An edit that cuts the chain and the conversation alike. -/
theorem Agrees.edit (hprint : PrintsCompact codec) {st : WsState ω} (h : Agrees codec key st)
    {draws : ForkDraws} {messageId content : Option String} {idx : Int}
    (hcut : CutsAlike codec key st messageId idx)
    (hsome : (st.fork codec key draws.fork messageId idx content).1.isSome = true)
    (hfits : Fits codec key (wsRunFork codec key world draws messageId idx content false st).rows
      (wsRunFork codec key world draws messageId idx content false st).ctx.agent) :
    Agrees codec key (wsRunFork codec key world draws messageId idx content false st) ∧
      ∀ id s, st.ctx.agent.sessionId = some id →
        loadSessionAlloc codec key (st.fork codec key draws.fork messageId idx content).2 Faults.none
          id = some s → ∃ t,
            loadSessionAlloc codec key
              (wsRunFork codec key world draws messageId idx content false st).rows Faults.none id =
                some t ∧ KeepsMessages codec s.messages t.messages := by
  rcases hfork : st.fork codec key draws.fork messageId idx content with ⟨answer, rows⟩
  rw [hfork] at hsome
  obtain ⟨fork, rfl⟩ := Option.isSome_iff_exists.mp hsome
  rw [wsRunFork_of_some hfork] at hfits ⊢
  cases hsession : st.ctx.agent.sessionId with
  | none =>
    rw [WsState.fork, hsession] at hfork
    exact absurd (Prod.mk.inj hfork).1 (by simp)
  | some id =>
    rw [WsState.fork, hsession] at hfork
    obtain ⟨id', s, hid, hload, -⟩ := h.holds id hsession
    obtain rfl : id = id' := Option.some.inj (hsession.symm.trans hid)
    have hne : id ≠ "" := ne_empty_of_load hload
    have hload' : loadSessionLocked codec Faults.none key st.rows id = some s := by
      rwa [loadSessionAlloc, if_neg hne] at hload
    obtain ⟨fi, m, hfi, hm, hforked, hmessage⟩ := forkBranch_forked hload' hfork
    have hstored : loadSessionAlloc codec key rows Faults.none id =
        some ((s.forked codec draws.fork fi m content).normalize codec) := by
      rw [loadSessionAlloc, if_neg hne]
      exact hforked
    -- The conversation and the chain are cut alike and get the same message.
    have hsame : savedForm codec (keptBefore idx st.ctx.agent.messages ++ [fork.forkMessage]) =
        savedForm codec ((s.forked codec draws.fork fi m content).normalize codec).messages := by
      have hchain : ((s.forked codec draws.fork fi m content).normalize codec).messages =
          (s.messages.take fi ++ [m.forkCopy draws.fork content]).map (Message.normalize codec) :=
        rfl
      rw [hchain, savedForm_map_normalize, savedForm_append, savedForm_append,
        hcut id s fi hsession hload hfi, hmessage]
    obtain ⟨hagrees, hkeeps⟩ := agrees_contextRun hprint
      (st.edited idx fork.forkMessage rows) h.manager (h.session.trans hsession) hsession hstored hsame hfits
    refine ⟨hagrees, fun id' t hid' ht => ?_⟩
    obtain rfl : id = id' := Option.some.inj hid'
    obtain rfl := Option.some.inj (hstored.symm.trans ht)
    exact hkeeps

/-- A switch to another branch gives the agent the new live chain. -/
theorem Agrees.switch {st : WsState ω} (h : Agrees codec key st) (minted : Minted)
    (sessionId : Option String) (branchId : String) :
    Agrees codec key { st with
      ctx := (wsHandleBranchSwitch codec Faults.none key st.rows minted sessionId branchId st.ctx).1
      rows :=
        (wsHandleBranchSwitch codec Faults.none key st.rows minted sessionId branchId st.ctx).2 } := by
  unfold wsHandleBranchSwitch
  cases htarget : switchTarget sessionId st.ctx with
  | none => exact h
  | some id =>
    have hactive : st.ctx.activeSessionId = some id :=
      (Option.filter_eq_some_iff.mp htarget).1
    have hsession : st.ctx.agent.sessionId = some id := h.session.symm.trans hactive
    obtain ⟨id', s, hid, hload, hmessages⟩ := h.holds id hsession
    obtain rfl : id = id' := Option.some.inj (hsession.symm.trans hid)
    have hne : id ≠ "" := ne_empty_of_load hload
    have hload' : loadSessionLocked codec Faults.none key st.rows id = some s := by
      rwa [loadSessionAlloc, if_neg hne] at hload
    dsimp only
    rw [Faults.within_none, Faults.within_none]
    rcases hswitch : switchBranch codec Faults.none minted key st.rows id branchId with ⟨done, rows⟩
    cases done with
    | false =>
      obtain rfl : rows = st.rows := rows_of_switch_failed hswitch
      exact h
    | true =>
      have hstored : ∃ t, loadSessionAlloc codec key rows Faults.none id = some t := by
        obtain ⟨i, rec, items, -, -, -, ⟨-, rfl⟩ | hload''⟩ := switchBranch_spec hload' hswitch
        · exact ⟨s, hload⟩
        · refine ⟨(s.switched codec minted i rec items).normalize codec, ?_⟩
          rw [loadSessionAlloc, if_neg hne]
          exact hload''
      obtain ⟨t, ht⟩ := hstored
      dsimp only
      rw [ht]
      refine ⟨h.manager, hactive.trans hsession.symm, fun _ _ => ⟨id, t, hsession, ht, ?_⟩⟩
      exact congrArg (savedForm codec) (copiedMessages_none t.messages)

/-- **A harmless request** keeps the agreement, and its run keeps what the fork or the switch before it
has left. -/
theorem Agrees.handle (hprint : PrintsCompact codec) {st : WsState ω} (h : Agrees codec key st)
    {sessionId : Option String} {request : WsRequest}
    (hharmless : request.Harmless codec key world sessionId st) :
    Agrees codec key (request.handle codec key world sessionId st) ∧ ∀ id s,
      st.ctx.agent.sessionId = some id →
      loadSessionAlloc codec key (request.branched codec key sessionId st) Faults.none id = some s →
        ∃ t, loadSessionAlloc codec key (request.handle codec key world sessionId st).rows Faults.none
          id = some t ∧ KeepsMessages codec s.messages t.messages := by
  have hsame : ∀ {st' : WsState ω} {rows : List SessionRow}, st' = st → rows = st.rows →
      Agrees codec key st' ∧ ∀ id s, st.ctx.agent.sessionId = some id →
        loadSessionAlloc codec key rows Faults.none id = some s → ∃ t,
          loadSessionAlloc codec key st'.rows Faults.none id = some t ∧
            KeepsMessages codec s.messages t.messages := by
    rintro st' rows rfl rfl
    exact ⟨h, fun id s _ hload => ⟨s, hload, KeepsMessages.refl _⟩⟩
  cases request with
  | message content => exact h.message hprint content hharmless
  | edit draws messageId index content =>
    cases index with
    | none => exact hsame rfl rfl
    | some idx =>
      have hhandle : (WsRequest.edit draws messageId (some idx) content).handle codec key world
          sessionId st = wsRunFork codec key world draws messageId idx (some content) false st := by
        show (if st.ctx.agent.hasManager then _ else st) = _
        rw [if_pos h.manager]
      have hforked := hharmless idx rfl
      rw [hhandle] at hforked ⊢
      by_cases hsome : (st.fork codec key draws.fork messageId idx (some content)).1.isSome = true
      · exact h.edit hprint (hforked hsome).1 hsome (hforked hsome).2
      · have hnone := Option.not_isSome_iff_eq_none.mp hsome
        exact hsame (wsRunFork_of_none hnone) (rows_of_fork_none hnone)
  | regenerate draws messageId index =>
    have hnone : (st.regenerateFork codec key draws.fork messageId index).1 = none := hharmless
    have hrows : (st.regenerateFork codec key draws.fork messageId index).2 = st.rows := by
      unfold WsState.regenerateFork at hnone ⊢
      dsimp only at hnone ⊢
      split at hnone
      · next hpoint =>
        rw [if_pos hpoint]
        exact rows_of_fork_none hnone
      · next hpoint => rw [if_neg hpoint]
    have hstate : wsHandleRegenerate codec key world draws messageId index st = st := by
      unfold WsState.regenerateFork at hnone
      unfold wsHandleRegenerate
      dsimp only at hnone ⊢
      split at hnone
      · next hpoint =>
        rw [if_pos hpoint]
        exact wsRunFork_of_none hnone
      · next hpoint => rw [if_neg hpoint]
    exact hsame hstate hrows
  | branchSwitch minted branchId =>
    exact ⟨h.switch minted sessionId branchId, fun id s _ hload => ⟨s, hload, KeepsMessages.refl _⟩⟩
  | other => exact hsame rfl rfl

/-- The step of a run of frames. -/
theorem Agrees.frame (hprint : PrintsCompact codec) {st : WsState ω} (h : Agrees codec key st)
    {frame : WsFrame} (hharmless : frame.Harmless codec key world st) :
    Agrees codec key (wsChatOnMessage codec key world frame st) ∧
      FrameAgrees codec key world frame st := by
  have hbound : Agrees codec key (frame.bound codec key st) := h.bound frame
  have hstate : wsChatOnMessage codec key world frame st =
      if frame.rejected codec key st then frame.bound codec key st
      else frame.request.handle codec key world frame.sessionId (frame.bound codec key st) := rfl
  have hstep : Agrees codec key (wsChatOnMessage codec key world frame st) := by
    rw [hstate]
    split
    · exact hbound
    · next hrejected =>
      exact (hbound.handle hprint (hharmless (Bool.not_eq_true _ ▸ hrejected))).1
  refine ⟨hstep, fun id hactive => ?_, fun hrejected => ?_⟩
  · have hsession := hstep.session.symm.trans hactive
    obtain ⟨id', s, hid, hload, hmessages⟩ := hstep.holds id hsession
    obtain rfl : id = id' := Option.some.inj (hsession.symm.trans hid)
    exact ⟨hsession, s, hload, hmessages⟩
  · rw [hstate, hrejected, if_neg Bool.false_ne_true]
    exact (hbound.handle hprint (hharmless hrejected)).2

variable (codec key world)

end Frames

/-! ## An example -/

end EchoAi
