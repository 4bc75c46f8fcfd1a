import EchoAi.Agent.RunAgreement

/-!
# Runs and the stored history

Every save of a run replaces the stored messages by the agent's.  So the stored history grows as long
as the agent's conversation does.  A streaming run only adds to it.  A buffered run goes on with the
context window, and what the window leaves out is gone after the next save.

* `Attached`: an agent that holds the conversation of a stored session.
* `Extends`: what a run keeps, for the agent and for the stored session.
* `KeepsStored`: a window with all messages that are stored.
* `addsOnly_of_keepsStored`: when a run only adds to the stored history.
-/

namespace EchoAi

/-! ## Extended conversations -/

/-- A message as runs append it. -/
def Message.FromRun (m : Message) : Prop :=
  m.role = some "user" ∨ m.role = some "assistant" ∨ m.role = some "tool"

theorem Message.FromRun.normalize {m : Message} (h : m.FromRun) (codec : JsonCodec) :
    (m.normalize codec).FromRun := by
  have hrole : (m.normalize codec).role = m.role := by
    show some (m.role.getD "") = m.role
    rcases h with h | h | h
    · rw [h, Option.getD_some]
    · rw [h, Option.getD_some]
    · rw [h, Option.getD_some]
  unfold FromRun
  rw [hrole]
  exact h

/-- What a save leaves of a conversation. -/
def savedForm (codec : JsonCodec) (msgs : List Message) : List Message :=
  (storedMessages msgs).map (Message.normalize codec)

/-- The conversation is that of a stored history and messages of runs. -/
def HoldsMore (codec : JsonCodec) (base msgs : List Message) : Prop :=
  ∃ before more, msgs = before ++ more ∧ savedForm codec before = savedForm codec base ∧
    ∀ m ∈ storedMessages more, m.FromRun

section Holds

variable {codec : JsonCodec} {base msgs : List Message}

theorem hasSystemRole_normalize (m : Message) :
    (m.normalize codec).hasSystemRole = m.hasSystemRole := by
  show (some (m.role.getD "") == some "system") = (m.role == some "system")
  cases m.role with
  | none => decide
  | some role => rfl

theorem storedMessages_map_normalize (msgs : List Message) :
    storedMessages (msgs.map (Message.normalize codec)) = savedForm codec msgs := by
  rw [storedMessages, List.filter_map]
  refine congrArg (List.map _) (List.filter_congr fun m _ => ?_)
  exact congrArg (!·) (hasSystemRole_normalize m)

/-- The messages of a loaded and saved session keep their saved form. -/
@[simp] theorem savedForm_map_normalize (msgs : List Message) :
    savedForm codec (msgs.map (Message.normalize codec)) = savedForm codec msgs := by
  rw [savedForm, storedMessages_map_normalize]
  exact map_normalize_map_normalize _

/-- A saved conversation is in its saved form. -/
@[simp] theorem savedForm_savedForm (msgs : List Message) :
    savedForm codec (savedForm codec msgs) = savedForm codec msgs := by
  have hstored : storedMessages (storedMessages msgs) = storedMessages msgs := by
    rw [storedMessages, storedMessages, List.filter_filter]
    exact List.filter_congr fun m _ => Bool.and_self _
  calc savedForm codec (savedForm codec msgs) = savedForm codec (storedMessages msgs) :=
        savedForm_map_normalize _
    _ = savedForm codec msgs := congrArg (List.map (Message.normalize codec)) hstored

theorem HoldsMore.append (h : HoldsMore codec base msgs) {added : List Message}
    (hadded : ∀ m ∈ added, m.FromRun) : HoldsMore codec base (msgs ++ added) := by
  obtain ⟨before, more, rfl, hbefore, hmore⟩ := h
  refine ⟨before, more ++ added, List.append_assoc _ _ _, hbefore, fun m hm => ?_⟩
  rw [storedMessages, List.filter_append, List.mem_append] at hm
  rcases hm with hm | hm
  · exact hmore m hm
  · exact hadded m (List.mem_of_mem_filter hm)

theorem modify_length_append {α : Type} (f : α → α) (l l' : List α) :
    (l ++ l').modify l.length f = l ++ l'.modifyHead f :=
  List.modifyTailIdx_add (List.modifyHead f) 0 l l'

/-- Changing the tool calls of an appended message. -/
theorem HoldsMore.append_modify (h : HoldsMore codec base msgs) {added : List Message}
    (hadded : ∀ m ∈ added, m.FromRun) (calls : List ToolCall) :
    HoldsMore codec base
      ((msgs ++ added).modify msgs.length fun m => { m with toolCalls := calls }) := by
  rw [modify_length_append]
  refine h.append fun m hm => ?_
  cases added with
  | nil => exact absurd hm List.not_mem_nil
  | cons a added =>
    rcases List.mem_cons.mp hm with rfl | hm
    · exact hadded a List.mem_cons_self
    · exact hadded m (List.mem_cons_of_mem _ hm)

/-- A conversation with the same stored messages. -/
theorem HoldsMore.of_stored_eq (h : HoldsMore codec base msgs) {msgs' : List Message}
    (heq : storedMessages msgs' = storedMessages msgs) : HoldsMore codec base msgs' := by
  obtain ⟨before, more, rfl, hbefore, hmore⟩ := h
  have hsplit : storedMessages msgs' = storedMessages before ++ storedMessages more :=
    heq.trans (List.filter_append _ _)
  obtain ⟨before', more', rfl, hbefore', hmore'⟩ := List.filter_eq_append_iff.mp hsplit
  refine ⟨before', more', rfl, ?_, ?_⟩
  · rw [savedForm, storedMessages, hbefore']
    exact hbefore
  · rw [storedMessages, hmore']
    exact hmore

/-- The stored messages of an extended conversation. -/
theorem HoldsMore.stored (h : HoldsMore codec base msgs) : ∃ new,
    savedForm codec msgs = savedForm codec base ++ new ∧ ∀ m ∈ new, m.FromRun := by
  obtain ⟨before, more, rfl, hbefore, hmore⟩ := h
  refine ⟨savedForm codec more, ?_, fun m hm => ?_⟩
  · rw [← hbefore, savedForm, storedMessages, List.filter_append, List.map_append]
    rfl
  · obtain ⟨a, ha, rfl⟩ := List.mem_map.mp hm
    exact (hmore a ha).normalize codec

end Holds

/-- Renewing the system message changes no stored message. -/
theorem storedMessages_renewSystem {prompt : String} {msgs msgs' : List Message}
    (h : renewSystem prompt msgs = some msgs') : storedMessages msgs' = storedMessages msgs := by
  induction msgs generalizing msgs' with
  | nil => exact absurd h (by simp [renewSystem])
  | cons m ms ih =>
    rw [renewSystem] at h
    split at h
    · next hsystem =>
      rw [← Option.some.inj h]
      have hsystem' : ({ m with content := some prompt } : Message).hasSystemRole = true := hsystem
      rw [storedMessages, storedMessages, List.filter_cons_of_neg, List.filter_cons_of_neg]
      · rw [hsystem]
        decide
      · rw [hsystem']
        decide
    · obtain ⟨ms', hms, rfl⟩ := Option.map_eq_some_iff.mp h
      have hrest : ms'.filter (fun m => !m.hasSystemRole) = ms.filter fun m => !m.hasSystemRole :=
        ih hms
      rw [storedMessages, storedMessages, List.filter_cons, List.filter_cons, hrest]

/-- The system prompt is not stored. -/
theorem storedMessages_injectSystem (prompt : String) (msgs : List Message) :
    storedMessages (injectSystem prompt msgs) = storedMessages msgs := by
  rw [injectSystem]
  cases hrenew : renewSystem prompt msgs with
  | none => rfl
  | some msgs' => exact storedMessages_renewSystem hrenew

/-! ## Attached sessions -/

section Run

variable {ω : Type} {codec : JsonCodec} {key : EncryptionKey} {q : Qsort} {world : World ω}
  {id : String} {base : List Message}

/-- The agent is attached to a stored session and holds its conversation. -/
structure Attached (codec : JsonCodec) (key : EncryptionKey) (rows : List SessionRow) (agent : Agent)
    (id : String) (s : Session) : Prop where
  sessionId : agent.sessionId = some id
  load : loadSessionNolock codec Faults.none key rows id = some s
  messages : savedForm codec agent.messages = s.messages

/-- The stored history is an earlier one with messages of runs; it is in its saved form when the
earlier one was. -/
def StoresMore (codec : JsonCodec) (key : EncryptionKey) (id : String) (base : List Message)
    (rows : List SessionRow) : Prop :=
  ∃ s new, loadSessionNolock codec Faults.none key rows id = some s ∧
    savedForm codec s.messages = savedForm codec base ++ new ∧ (∀ m ∈ new, m.FromRun) ∧
      (savedForm codec base = base → savedForm codec s.messages = s.messages)

/-- What a run keeps: the agent stays attached, and its conversation and the stored history extend the
history at the start. -/
structure Extends (codec : JsonCodec) (key : EncryptionKey) (id : String) (base : List Message)
    (st : RunState ω) : Prop where
  sessionId : st.agent.sessionId = some id
  held : HoldsMore codec base st.agent.messages
  stored : StoresMore codec key id base st.rows

/-- A run starts with an agent that holds the stored history. -/
theorem extends_fresh {rows : List SessionRow} {agent : Agent} {s : Session}
    (hsession : agent.sessionId = some id)
    (hload : loadSessionNolock codec Faults.none key rows id = some s)
    (hmessages : savedForm codec agent.messages = savedForm codec s.messages) (outer : ω) :
    Extends codec key id s.messages (RunState.fresh outer agent rows) where
  sessionId := hsession
  held := ⟨agent.messages, [], (List.append_nil _).symm, hmessages,
    fun _ hm => absurd hm List.not_mem_nil⟩
  stored := ⟨s, [], hload, (List.append_nil _).symm, fun _ hm => absurd hm List.not_mem_nil,
    fun h => h⟩

theorem Attached.savedForm_eq {rows : List SessionRow} {agent : Agent} {s : Session}
    (h : Attached codec key rows agent id s) : savedForm codec s.messages = s.messages := by
  rw [← h.messages, savedForm_savedForm]

/-- What a save of a loaded session leaves. -/
theorem load_of_saveWithMessages {rows rows' : List SessionRow} {s : Session}
    {messages : List Message} (hload : loadSessionNolock codec Faults.none key rows id = some s)
    {s' : Session} (hid : s'.id = s.id)
    (h : saveWithMessages codec Faults.none key rows s' messages = some rows') :
    ∃ t, loadSessionNolock codec Faults.none key rows' id = some t ∧
      t.messages = messages.map (Message.normalize codec) := by
  rw [loadSessionNolock] at hload
  split at hload
  · exact absurd hload (by simp)
  · next hne =>
    have hkey : s'.id = id := hid.trans (id_of_loadSessionLocked hload)
    obtain ⟨-, t, ht, hmessages⟩ := exists_row_of_saveWithMessages h
    refine ⟨t, ?_, ?_⟩
    · rw [loadSessionNolock, if_neg hne, ← hkey]
      exact ht
    · rw [hmessages]
      exact received_eq_normalize_iff.mpr (intact_none messages)

/-- A save of a conversation that fits in the row of the agent's session. -/
theorem exists_runSaveSession {st : RunState ω} {s : Session} (hmanager : st.agent.hasManager = true)
    (hsession : st.agent.sessionId = some id)
    (hload : loadSessionNolock codec Faults.none key st.rows id = some s)
    (hfits : ({ s with messages := storedMessages st.agent.messages } : Session).storable codec =
      true) :
    ∃ rows, runSaveSession codec key world st = { st with rows } ∧
      loadSessionNolock codec Faults.none key rows id =
        some (({ s with messages := storedMessages st.agent.messages } : Session).normalize codec) := by
  have hnamed : id ≠ "" := by
    rintro rfl
    rw [loadSessionNolock, if_pos rfl] at hload
    exact absurd hload (by simp)
  have hid : s.id = id := by
    rw [loadSessionNolock, if_neg hnamed] at hload
    exact id_of_loadSessionLocked hload
  have hfound : sessionToSave codec Faults.none (world.newSession st.world).1 key st.rows
      st.agent.sessionId = some (s, st.agent.sessionId) := by
    rw [sessionToSave, hsession, Option.bind_some, hload]
  have hwhole : SavesWhole codec Faults.none st.agent.messages :=
    ⟨fun _ => rfl, fun _ _ => rfl, intact_none _⟩
  obtain ⟨rows, hsaved⟩ : ∃ rows, saveSessionNolock codec Faults.none key st.rows
      { s with messages := storedMessages st.agent.messages } = some rows :=
    ⟨_, saveSessionNolock_none (hid ▸ hnamed) hfits⟩
  have hwrite : saveWithMessages codec Faults.none key st.rows s
      (savedCopies Faults.none st.agent.messages) = some rows := by
    rw [hwhole.savedCopies_eq]
    exact hsaved
  have hagent := agentSaveSession_of_some hmanager hfound
  rw [hwrite, Option.getD_some] at hagent
  have hcreated : (st.agent.sessionId.bind
      (loadSessionNolock codec Faults.none key st.rows)).isNone = false := by
    rw [hsession, Option.bind_some, hload]
    rfl
  refine ⟨rows, ?_, ?_⟩
  · show ({ st with
      agent := (agentSaveSession codec Faults.none (world.newSession st.world).1 key st.rows
        st.agent).1
      rows := (agentSaveSession codec Faults.none (world.newSession st.world).1 key st.rows
        st.agent).2
      world := if st.agent.hasManager &&
          (st.agent.sessionId.bind (loadSessionNolock codec Faults.none key st.rows)).isNone then
        (world.newSession st.world).2 else st.world } : RunState ω) = _
    rw [hagent, hcreated, Bool.and_false]
    rfl
  · rw [loadSessionNolock, if_neg hnamed]
    exact load_of_saveSessionNolock hsaved hid

/-- An answer without tool calls ends the run. -/
theorem runLoop_answered {call : RunState ω → Option (Option LLMResponse × RunState ω)} {n : Nat}
    {st st' : RunState ω} {response : LLMResponse} (hcancel : world.cancelRequested st.world = false)
    (hcall : call st = some (some response, st'))
    (hcalls : toolCallsRemaining response.toolCalls = false) :
    runLoop codec key world call (n + 1) st =
      some (some (attachToolCallsToResp response
          (recordAnswer codec key world response st').agent.messages),
        agentGenerateTitle codec key world
          (runSaveSession codec key world (recordAnswer codec key world response st'))) := by
  rw [runLoop, hcancel, if_neg Bool.false_ne_true, hcall, Option.bind_some, continueRun, consume,
    hcalls]
  rfl

/-- A save leaves the agent as it is and writes its conversation, or it changes nothing. -/
theorem Extends.runSaveSession {st : RunState ω} (h : Extends codec key id base st) :
    Extends codec key id base (runSaveSession codec key world st) := by
  obtain ⟨s, new, hload, hmessages, hnew, hplain⟩ := h.stored
  have hfound : sessionToSave codec Faults.none (world.newSession st.world).1 key st.rows
      st.agent.sessionId = some (s, st.agent.sessionId) := by
    rw [sessionToSave, h.sessionId, Option.bind_some, hload]
  have hsave : agentSaveSession codec Faults.none (world.newSession st.world).1 key st.rows st.agent =
      (st.agent, (EchoAi.runSaveSession codec key world st).rows) := by
    by_cases hmanager : st.agent.hasManager = true
    · refine Prod.ext ?_ rfl
      rw [agentSaveSession_of_some hmanager hfound]
    · refine Prod.ext ?_ rfl
      rw [agentSaveSession_of_none fun htrue => absurd htrue hmanager]
  have hagent : (EchoAi.runSaveSession codec key world st).agent = st.agent :=
    congrArg Prod.fst hsave
  refine ⟨hagent ▸ h.sessionId, hagent ▸ h.held, ?_⟩
  by_cases hmanager : st.agent.hasManager = true
  · rw [agentSaveSession_of_some hmanager hfound] at hsave
    rw [← (Prod.mk.inj hsave).2]
    cases hrows : saveWithMessages codec Faults.none key st.rows s
        (savedCopies Faults.none st.agent.messages) with
    | none => exact h.stored
    | some rows =>
      have hwhole : SavesWhole codec Faults.none st.agent.messages :=
        ⟨fun _ => rfl, fun _ _ => rfl, intact_none _⟩
      obtain ⟨t, ht, hstored⟩ := load_of_saveWithMessages hload rfl hrows
      obtain ⟨more, hmore, hfrom⟩ := h.held.stored
      rw [hwhole.savedCopies_eq] at hstored
      have hform : t.messages = savedForm codec st.agent.messages := hstored
      refine ⟨t, more, ht, ?_, hfrom, fun _ => ?_⟩
      · rw [hform, savedForm_savedForm]
        exact hmore
      · rw [hform, savedForm_savedForm]
  · rw [agentSaveSession_of_none fun htrue => absurd htrue hmanager] at hsave
    rw [← (Prod.mk.inj hsave).2]
    exact h.stored

/-- An update that leaves the id and the messages of a session alone. -/
theorem StoresMore.updateSession {rows rows' : List SessionRow}
    (h : StoresMore codec key id base rows) {change : Session → Session}
    (hupdate : updateSession codec key rows id change = some rows')
    (hid : ∀ s, (change s).id = s.id) (hmessages : ∀ s, (change s).messages = s.messages) :
    StoresMore codec key id base rows' := by
  obtain ⟨s, new, hload, hbase, hnew, hplain⟩ := h
  rw [EchoAi.updateSession, hload] at hupdate
  obtain ⟨t, ht, hstored⟩ := load_of_saveWithMessages hload (hid s) hupdate
  rw [hmessages] at hstored
  refine ⟨t, new, ht, ?_, hnew, fun hform => ?_⟩
  · rw [hstored, savedForm_map_normalize]
    exact hbase
  · calc savedForm codec t.messages = savedForm codec s.messages := by
          rw [hstored, savedForm_map_normalize]
      _ = (savedForm codec s.messages).map (Message.normalize codec) :=
          (map_normalize_map_normalize _).symm
      _ = t.messages := by rw [hplain hform, hstored]

theorem Extends.agentGenerateTitle {st : RunState ω} (h : Extends codec key id base st) :
    Extends codec key id base (agentGenerateTitle codec key world st) := by
  unfold EchoAi.agentGenerateTitle
  rw [h.sessionId]
  dsimp only
  split
  · split
    · exact h
    · next rows hattempted =>
      have hrows : StoresMore codec key id base rows :=
        h.stored.updateSession hattempted (fun _ => rfl) fun _ => rfl
      split
      · exact ⟨h.sessionId, h.held, hrows⟩
      · refine ⟨h.sessionId, h.held, ?_⟩
        dsimp only
        cases htitle : EchoAi.updateSession codec key rows id _ with
        | none => exact hrows
        | some rows' => exact hrows.updateSession htitle (fun _ => rfl) fun _ => rfl
  · exact h

/-! ## Steps -/

/-- The part of a state that the history is about. -/
theorem Extends.congr {st st' : RunState ω} (h : Extends codec key id base st)
    (hsession : st'.agent.sessionId = st.agent.sessionId)
    (hmessages : HoldsMore codec base st'.agent.messages) (hrows : st'.rows = st.rows) :
    Extends codec key id base st' :=
  ⟨hsession.trans h.sessionId, hmessages, hrows.symm ▸ h.stored⟩

theorem AnswersInOrder.fromRun {calls : List ToolCall} {answers : List Message}
    (h : AnswersInOrder calls answers) : ∀ m ∈ answers, m.FromRun := by
  intro m hm
  have hmem : (m.role, m.toolCallId) ∈ answers.map fun m => (m.role, m.toolCallId) :=
    List.mem_map_of_mem hm
  rw [h] at hmem
  obtain ⟨c, -, hc⟩ := List.mem_map.mp hmem
  exact Or.inr (Or.inr (Prod.mk.inj hc).1.symm)

/-- Recording an answer appends at most its message. -/
theorem Extends.recordAnswer {st : RunState ω} (h : Extends codec key id base st)
    (response : LLMResponse) : Extends codec key id base (recordAnswer codec key world response st) ∧
      ∃ added, (∀ m ∈ added, m.FromRun) ∧
        (EchoAi.recordAnswer codec key world response st).agent.messages =
          st.agent.messages ++ added := by
  unfold EchoAi.recordAnswer
  split
  · exact ⟨h, [], fun m hm => absurd hm List.not_mem_nil, (List.append_nil _).symm⟩
  · next content _ =>
    obtain ⟨m, outer, hrole, -, heq⟩ := appendAssistant_eq world response content st
    have hfrom : ∀ a ∈ [m], a.FromRun := fun a ha => Or.inr (Or.inl (List.mem_singleton.mp ha ▸ hrole))
    rw [heq]
    refine ⟨?_, [m], hfrom, messages_runSaveSession codec key world _⟩
    exact Extends.runSaveSession (h.congr rfl (h.held.append hfrom) rfl)

/-- **Consuming an answer** extends the history. -/
theorem Extends.consume {st : RunState ω} (h : Extends codec key id base st)
    (response : LLMResponse) : Extends codec key id base (consume codec key world response st).2 := by
  obtain ⟨hrecorded, added, hadded, hmessages⟩ :
      Extends codec key id base (EchoAi.recordAnswer codec key world response st) ∧ _ :=
    h.recordAnswer response
  unfold EchoAi.consume
  dsimp only
  split
  · obtain ⟨calls, answers, outer, executed, hanswers, heq⟩ := answerCalls_eq world
      st.agent.messages.length response (EchoAi.recordAnswer codec key world response st)
    rw [heq]
    refine Extends.runSaveSession (hrecorded.congr rfl ?_ rfl)
    have hall : ∀ m ∈ added ++ answers, m.FromRun := by
      intro m hm
      rcases List.mem_append.mp hm with hm | hm
      · exact hadded m hm
      · exact hanswers.fromRun m hm
    dsimp only
    rw [hmessages, List.append_assoc]
    split
    · exact h.held.append_modify hall calls
    · exact h.held.append hall
  · exact hrecorded.runSaveSession.agentGenerateTitle

theorem Extends.injectSystem {st : RunState ω} (h : Extends codec key id base st) :
    Extends codec key id base (injectSystemWithSummary world st) :=
  h.congr rfl (h.held.of_stored_eq (storedMessages_injectSystem _ _)) rfl

theorem Extends.startRun {st : RunState ω} (h : Extends codec key id base st) (input : String) :
    Extends codec key id base (startRun codec key world input st) :=
  Extends.runSaveSession (h.congr rfl
    (h.held.append fun _ hm => Or.inl (List.mem_singleton.mp hm ▸ rfl)) rfl)

/-- A call of the streaming loop sends the conversation as it is. -/
theorem Extends.streamingLlmCall {st : RunState ω} (h : Extends codec key id base st) :
    Extends codec key id base (streamingLlmCall world st).2 := by
  unfold EchoAi.streamingLlmCall
  dsimp only
  split
  · have hinjected : Extends codec key id base (injectSystemWithSummary world
        { st with world := (world.cbIsAvailable st.world).2 }) :=
      Extends.injectSystem (h.congr rfl h.held rfl)
    exact hinjected.congr rfl hinjected.held rfl
  · exact h.congr rfl h.held rfl

/-! ## Other sessions -/

/-- The agent is not attached to a session, and its row is what it was. -/
structure LeavesAlone (id : String) (row : Option SessionRow) (st : RunState ω) : Prop where
  session : st.agent.sessionId ≠ some id
  row : findRow SessionRow.id id st.rows = row

section Alone

variable {row : Option SessionRow} {st : RunState ω}

theorem LeavesAlone.congr {st' : RunState ω} (h : LeavesAlone id row st)
    (hsession : st'.agent.sessionId = st.agent.sessionId) (hrows : st'.rows = st.rows) :
    LeavesAlone id row st' :=
  ⟨hsession ▸ h.session, hrows ▸ h.row⟩

/-- A save writes the row of the agent's session, which may be a new one. -/
theorem LeavesAlone.runSaveSession (hfresh : ∀ outer, (world.newSession outer).1.id ≠ id)
    (h : LeavesAlone id row st) : LeavesAlone id row (runSaveSession codec key world st) := by
  have hagent : (EchoAi.runSaveSession codec key world st).agent =
      (agentSaveSession codec Faults.none (world.newSession st.world).1 key st.rows st.agent).1 := rfl
  have hrows : (EchoAi.runSaveSession codec key world st).rows =
      (agentSaveSession codec Faults.none (world.newSession st.world).1 key st.rows st.agent).2 := rfl
  by_cases hmanager : st.agent.hasManager = true
  · have hfound : ∃ s sessionId, sessionToSave codec Faults.none (world.newSession st.world).1 key
        st.rows st.agent.sessionId = some (s, sessionId) ∧ sessionId ≠ some id ∧ s.id ≠ id := by
      rw [sessionToSave]
      split
      · next s hload =>
        obtain ⟨id', hid', hload'⟩ := Option.bind_eq_some_iff.mp hload
        refine ⟨s, st.agent.sessionId, rfl, h.session, fun hid => h.session ?_⟩
        rw [loadSessionNolock] at hload'
        split at hload'
        · exact absurd hload' (by simp)
        · rw [hid', ← hid, id_of_loadSessionLocked hload']
      · exact ⟨_, _, rfl, fun heq => hfresh st.world (Option.some.inj heq), hfresh st.world⟩
    obtain ⟨s, sessionId, hfound, hsession, hid⟩ := hfound
    rw [agentSaveSession_of_some hmanager hfound] at hagent hrows
    refine ⟨hagent ▸ hsession, ?_⟩
    rw [hrows]
    dsimp only
    cases hsave : saveWithMessages codec Faults.none key st.rows s
        (savedCopies Faults.none st.agent.messages) with
    | none => exact h.row
    | some rows =>
      exact ((exists_row_of_saveWithMessages hsave).1 id fun heq => hid heq.symm).trans h.row
  · rw [agentSaveSession_of_none fun htrue => absurd htrue hmanager] at hagent hrows
    exact h.congr (congrArg Agent.sessionId hagent) hrows

theorem LeavesAlone.updateSession {rows rows' : List SessionRow} {id' : String} (hid : id' ≠ id)
    (h : findRow SessionRow.id id rows = row) {change : Session → Session}
    (hupdate : updateSession codec key rows id' change = some rows')
    (hchange : ∀ s, (change s).id = s.id) : findRow SessionRow.id id rows' = row := by
  obtain ⟨s, hload, hsave⟩ := Option.bind_eq_some_iff.mp hupdate
  rw [loadSessionNolock] at hload
  split at hload
  · exact absurd hload (by simp)
  · have hkey : (change s).id = id' := (hchange s).trans (id_of_loadSessionLocked hload)
    exact ((exists_row_of_saveWithMessages hsave).1 id (hkey ▸ hid.symm)).trans h

theorem LeavesAlone.agentGenerateTitle (h : LeavesAlone id row st) :
    LeavesAlone id row (agentGenerateTitle codec key world st) := by
  unfold EchoAi.agentGenerateTitle
  split
  · exact h
  · next id' hsession =>
    have hid : id' ≠ id := fun heq => h.session (hsession.trans (congrArg some heq))
    split
    · split
      · exact h
      · next rows hattempted =>
        have hrow : findRow SessionRow.id id rows = row :=
          LeavesAlone.updateSession hid h.row hattempted fun _ => rfl
        split
        · exact ⟨h.session, hrow⟩
        · refine ⟨h.session, ?_⟩
          dsimp only
          cases htitle : EchoAi.updateSession codec key rows id' _ with
          | none => exact hrow
          | some rows' => exact LeavesAlone.updateSession hid hrow htitle fun _ => rfl
    · exact h

theorem LeavesAlone.consume (hfresh : ∀ outer, (world.newSession outer).1.id ≠ id)
    (h : LeavesAlone id row st) (response : LLMResponse) :
    LeavesAlone id row (consume codec key world response st).2 := by
  have hrecorded : LeavesAlone id row (recordAnswer codec key world response st) := by
    unfold recordAnswer
    split
    · exact h
    · exact LeavesAlone.runSaveSession hfresh (h.congr rfl rfl)
  unfold EchoAi.consume
  dsimp only
  split
  · obtain ⟨calls, answers, outer, executed, -, heq⟩ := answerCalls_eq world
      st.agent.messages.length response (recordAnswer codec key world response st)
    rw [heq]
    exact LeavesAlone.runSaveSession hfresh (hrecorded.congr rfl rfl)
  · exact (hrecorded.runSaveSession hfresh).agentGenerateTitle

theorem LeavesAlone.startRun (hfresh : ∀ outer, (world.newSession outer).1.id ≠ id)
    (h : LeavesAlone id row st) (input : String) :
    LeavesAlone id row (startRun codec key world input st) :=
  LeavesAlone.runSaveSession hfresh (h.congr rfl rfl)

/-- A streaming loop leaves the other sessions alone. -/
theorem LeavesAlone.streamingLoop (hfresh : ∀ outer, (world.newSession outer).1.id ≠ id)
    (h : LeavesAlone id row st) {n : Nat} {st' : RunState ω} {answer : Option LLMResponse}
    (hrun : runLoop codec key world (fun st => some (streamingLlmCall world st)) n st =
      some (answer, st')) : LeavesAlone id row st' := by
  have hcall : ∀ st : RunState ω, LeavesAlone id row st →
      LeavesAlone id row (streamingLlmCall world st).2 := by
    intro st h
    unfold streamingLlmCall
    dsimp only
    split
    · exact h.congr rfl rfl
    · exact h.congr rfl rfl
  refine runLoop_rule (LeavesAlone id row) (LeavesAlone id row) (fun _ h => h)
    (fun st st₁ h hnone => ?_) (fun st response st₁ h hsome => ?_) h hrun
  · have hst : (streamingLlmCall world st).2 = st₁ := congrArg Prod.snd (Option.some.inj hnone)
    exact hst ▸ hcall st h
  · have hst : (streamingLlmCall world st).2 = st₁ := congrArg Prod.snd (Option.some.inj hsome)
    exact (hst ▸ hcall st h).consume hfresh response

end Alone

/-! ## Runs -/

/-- **A streaming loop** extends the history. -/
theorem Extends.streamingLoop {n : Nat} {st st' : RunState ω} {answer : Option LLMResponse}
    (h : Extends codec key id base st)
    (hrun : runLoop codec key world (fun st => some (EchoAi.streamingLlmCall world st)) n st =
      some (answer, st')) : Extends codec key id base st' := by
  refine runLoop_rule (Extends codec key id base) (Extends codec key id base) (fun _ h => h)
    (fun st st₁ h hnone => ?_) (fun st response st₁ h hsome => ?_) h hrun
  · have hcall : (EchoAi.streamingLlmCall world st).2 = st₁ := congrArg Prod.snd (Option.some.inj hnone)
    exact hcall ▸ h.streamingLlmCall
  · have hcall : (EchoAi.streamingLlmCall world st).2 = st₁ := congrArg Prod.snd (Option.some.inj hsome)
    exact (hcall ▸ h.streamingLlmCall).consume response

/-- The window of the agent's conversation holds all messages that are stored. -/
def KeepsStored (q : Qsort) (agent : Agent) : Prop := ∃ window,
  cutConversation q agent = some window ∧ storedMessages window = storedMessages agent.messages

/-- A buffered call does nothing, or it notes the agent and goes on with the window. -/
theorem agentLlmCall_cases {st st' : RunState ω} {response : Option LLMResponse}
    (h : agentLlmCall q world st = some (response, st')) : st'.rows = st.rows ∧
      (response = none ∧ st'.calls = st.calls ∨ ∃ window,
        cutConversation q (agentAtCall world st) = some window ∧
          st'.calls = st.calls ++ [agentAtCall world st] ∧ st'.agent.messages = window ∧
            st'.agent.sessionId = st.agent.sessionId) := by
  unfold agentLlmCall at h
  dsimp only at h
  split at h
  · split at h
    · exact absurd h (by simp)
    · next window hwindow =>
      obtain ⟨outer, contextSummary, sent, heq⟩ := adoptWindow_eq world window
        (noteCall (injectSystemWithSummary world
          { st with world := (world.cbIsAvailable st.world).2 }))
      rw [heq] at h
      obtain ⟨-, rfl⟩ := Prod.mk.inj (Option.some.inj h)
      exact ⟨rfl, Or.inr ⟨window, hwindow, rfl, rfl, rfl⟩⟩
  · obtain ⟨hnone, rfl⟩ := Prod.mk.inj (Option.some.inj h)
    exact ⟨rfl, Or.inl ⟨hnone.symm, rfl⟩⟩

/-- The calls that were answered keep what is stored. -/
def AnsweredCallsKeep (q : Qsort) (st : RunState ω) : Prop :=
  ∀ call ∈ st.calls.zip st.responses, KeepsStored q call.1

/-- **A buffered loop** extends the history when every call that is answered keeps what is stored. -/
theorem storesMore_bufferedLoop {n : Nat} {st st' : RunState ω} {answer : Option LLMResponse}
    (hlength : st.calls.length = st.responses.length) (h : Extends codec key id base st)
    (hrun : runLoop codec key world (agentLlmCall q world) n st = some (answer, st'))
    (hkeep : AnsweredCallsKeep q st') : StoresMore codec key id base st'.rows := by
  have hlogs : ∀ {st st₁ : RunState ω} {response : Option LLMResponse},
      agentLlmCall q world st = some (response, st₁) →
        st₁.responses = st.responses ++ response.toList := fun hcall =>
    (logsAnswer_agentLlmCall q world hcall).2
  refine runLoop_rule
    (fun st => st.calls.length = st.responses.length ∧
      (AnsweredCallsKeep q st → Extends codec key id base st))
    (fun st => AnsweredCallsKeep q st → StoresMore codec key id base st.rows)
    (fun _ h hkeep => (h.2 hkeep).stored) (fun st st₁ h hnone hkeep => ?_)
    (fun st response st₁ h hsome => ?_) ⟨hlength, fun _ => h⟩ hrun hkeep
  · obtain ⟨hrows, hcalls⟩ := agentLlmCall_cases hnone
    rw [hrows]
    refine (h.2 ?_).stored
    unfold AnsweredCallsKeep at hkeep
    rw [hlogs hnone, Option.toList_none] at hkeep
    rcases hcalls with ⟨-, hcalls⟩ | ⟨window, -, hcalls, -⟩
    · rw [hcalls, List.append_nil] at hkeep
      exact hkeep
    · rw [hcalls, List.zip_append h.1, List.zip_nil_right, List.append_nil] at hkeep
      exact hkeep
  · obtain ⟨hrows, ⟨hnone, -⟩ | ⟨window, hcut, hcalls, hmessages, hsession⟩⟩ :=
      agentLlmCall_cases hsome
    · exact absurd hnone (by simp)
    · obtain ⟨hcalls', hresponses'⟩ := logs_consume codec key world response st₁
      rw [hcalls] at hcalls'
      rw [hlogs hsome] at hresponses'
      refine ⟨?_, fun hkeep => ?_⟩
      · rw [hcalls', hresponses', List.length_append, List.length_append, h.1]
        rfl
      · unfold AnsweredCallsKeep at hkeep
        rw [hcalls', hresponses', List.zip_append h.1] at hkeep
        have hst : Extends codec key id base st :=
          h.2 fun call hcall => hkeep call (List.mem_append_left _ hcall)
        obtain ⟨window', hcut', hstored⟩ :=
          hkeep (agentAtCall world st, response)
            (List.mem_append_right _ (List.mem_singleton_self _))
        rw [hcut, Option.some_inj] at hcut'
        have hheld : HoldsMore codec base (agentAtCall world st).messages :=
          hst.held.of_stored_eq (storedMessages_injectSystem _ _)
        refine Extends.consume (hst.congr hsession ?_ hrows) response
        rw [hmessages, hcut']
        exact hheld.of_stored_eq hstored

/-- A run only adds to a stored history: afterwards the history is a prefix of the stored one, and the
rest are messages of the run. -/
def AddsOnly (codec : JsonCodec) (key : EncryptionKey) (id : String) (base : List Message)
    (out : Option (Option LLMResponse × RunState ω)) : Prop :=
  ∃ answer st s new, out = some (answer, st) ∧
    loadSessionNolock codec Faults.none key st.rows id = some s ∧ s.messages = base ++ new ∧
      ∀ m ∈ new, m.FromRun

/-- A run comes to an end, and at every call that is answered the window holds all messages that are
stored. -/
def WindowsKeepStored (q : Qsort) (out : Option (Option LLMResponse × RunState ω)) : Prop :=
  ∃ answer st, out = some (answer, st) ∧ AnsweredCallsKeep q st

/-- **A run only adds to the stored history**: a streaming run always, and a buffered one when the
windows hold all messages that are stored. -/
theorem addsOnly_of_keepsStored (codec : JsonCodec) (key : EncryptionKey) (q : Qsort)
    (world : World ω) (input : String) (outer : ω) (agent : Agent) (rows : List SessionRow)
    (id : String) (s : Session) (hattached : Attached codec key rows agent id s) :
    AddsOnly codec key id s.messages
        (agentRunStreamingNew codec key world input (RunState.fresh outer agent rows)) ∧
      (WindowsKeepStored q
          (agentRunNew codec key q world input (RunState.fresh outer agent rows)) →
        AddsOnly codec key id s.messages
          (agentRunNew codec key q world input (RunState.fresh outer agent rows))) := by
  have hstart : Extends codec key id s.messages
      (startRun codec key world input (RunState.fresh outer agent rows)) :=
    (extends_fresh hattached.sessionId hattached.load
      (hattached.messages.trans hattached.savedForm_eq.symm) outer).startRun input
  have hadds : ∀ {answer : Option LLMResponse} {st : RunState ω},
      StoresMore codec key id s.messages st.rows →
        AddsOnly codec key id s.messages (some (answer, st)) := by
    rintro answer st ⟨t, new, hload, hmessages, hnew, hplain⟩
    rw [hplain hattached.savedForm_eq, hattached.savedForm_eq] at hmessages
    exact ⟨answer, st, t, new, rfl, hload, hmessages, hnew⟩
  constructor
  · obtain ⟨⟨answer, st⟩, hrun⟩ := Option.isSome_iff_exists.mp
      (isSome_streamingLoop codec key world
        (startRun codec key world input (RunState.fresh outer agent rows)).agent.maxIterations
        (startRun codec key world input (RunState.fresh outer agent rows)))
    have hstreaming : agentRunStreamingNew codec key world input (RunState.fresh outer agent rows) =
        some (answer, st) := hrun
    rw [hstreaming]
    exact hadds (hstart.streamingLoop hrun).stored
  · rintro ⟨answer, st, hrun, hkeep⟩
    rw [hrun]
    exact hadds (storesMore_bufferedLoop rfl hstart hrun hkeep)

end Run

/-! ## An example -/

/-- An agent with a stored message and a window that is wide enough. -/
def historyAgent : Agent :=
  { attachedAgent [helloMessage] with maxContextMessages := 4, maxContextChars := 100 }

theorem attached_hello {agent : Agent} (hsession : agent.sessionId = some "session_1")
    (hmessages : agent.messages = [helloMessage]) :
    Attached textCodec helloKey (helloRows (.object [])) agent "session_1"
      ((helloSession (.object [])).normalize textCodec) where
  sessionId := hsession
  load := by
    rw [loadSessionNolock, if_neg (by decide)]
    exact load_helloRows (.object [])
  messages := by
    rw [hmessages]
    rfl

/-- The messages of the example: the system prompt, the question and its answer. -/
def promptMessage : Message := { role := some "system", content := some "prompt" }

def againMessage : Message := { role := some "user", content := some "again", timestamp := .zero }

def hiMessage : Message := { role := some "assistant", content := some "hi", timestamp := .zero }

/-- The state after the question. -/
def askedAgain (agent : Agent) (rows : List SessionRow) : RunState (List LLMResponse) :=
  agentAppendMessage againMessage (RunState.fresh [{ content := some "hi" }] agent rows)

/-- The agent at the call, with a window of `n` messages and `c` characters. -/
def promptedAgain (n : Nat) (c : Int) : Agent :=
  { attachedAgent [promptMessage, helloMessage, againMessage] with
    maxContextMessages := n
    maxContextChars := c }

/-- The state after the call, which goes on with the given messages. -/
def answeredAgain (n : Nat) (c : Int) (window : List Message) (rows : List SessionRow) :
    RunState (List LLMResponse) where
  world := []
  agent := { promptedAgain n c with messages := window }
  rows := rows
  calls := [promptedAgain n c]
  sent := [{ messages := window, tools := true }]
  appended := [againMessage]
  responses := [{ content := some "hi" }]

/-- The save after the question. -/
theorem exists_startAgain {agent : Agent} (hmanager : agent.hasManager = true)
    (hsession : agent.sessionId = some "session_1") (hmessages : agent.messages = [helloMessage]) :
    ∃ rows s, startRun textCodec helloKey scriptWorld "again"
        (RunState.fresh [{ content := some "hi" }] agent (helloRows (.object []))) =
          askedAgain agent rows ∧
      loadSessionNolock textCodec Faults.none helloKey rows "session_1" = some s ∧
        s.metadata = .object [] ∧ s.events = [] := by
  have hstored : (askedAgain agent (helloRows (.object []))).agent.messages =
      [helloMessage, againMessage] := by
    show agent.messages ++ [againMessage] = _
    rw [hmessages]
    rfl
  have hfits : ({ (helloSession (.object [])).normalize textCodec with
      messages := storedMessages (askedAgain agent (helloRows (.object []))).agent.messages } :
        Session).storable textCodec = true := by
    rw [hstored]
    exact storable_of_length (by decide +kernel) (by decide +kernel) (by decide +kernel)
  obtain ⟨rows, hrun, hload⟩ := @exists_runSaveSession _ textCodec helloKey scriptWorld _
    (askedAgain agent (helloRows (.object []))) _ hmanager hsession
    (attached_hello hsession hmessages).load hfits
  exact ⟨rows, _, hrun, hload, rfl, rfl⟩

/-- The call is answered, and the conversation goes on with the window. -/
theorem agentLlmCall_again {n : Nat} {c : Int} {rows : List SessionRow} {window : List Message}
    (hcut : cutConversation insertionQsort (promptedAgain n c) = some window)
    (hkeep : 3 ≤ window.length ∨
      charsFit ((c % sizeMax).toNat * 2 % sizeMax) 0 (promptedAgain n c).messages = false) :
    agentLlmCall insertionQsort scriptWorld (askedAgain { attachedAgent [helloMessage] with
        maxContextMessages := n, maxContextChars := c } rows) =
      some (some { content := some "hi" }, answeredAgain n c window rows) := by
  let st : RunState (List LLMResponse) :=
    { world := [{ content := some "hi" }], agent := promptedAgain n c, rows,
      calls := [promptedAgain n c], appended := [againMessage] }
  have hadopt : adoptWindow scriptWorld window st =
      { st with agent := { promptedAgain n c with messages := window } } := by
    have hsummary : (if window.length < st.agent.messages.length then
        agentPerformSummarization scriptWorld st else st) = st := by
      rcases hkeep with hlong | hcap
      · exact if_neg (Nat.not_lt.mpr hlong)
      · have hskip : agentPerformSummarization scriptWorld st = st := by
          have hfull : charsFit ((st.agent.maxContextChars % sizeMax).toNat * 2 % sizeMax) 0
              st.agent.messages = false := hcap
          unfold agentPerformSummarization
          dsimp only
          rw [hfull, if_neg Bool.false_ne_true]
        rw [hskip, ite_self]
    rw [adoptWindow, hsummary]
  have havailable (st : RunState (List LLMResponse)) :
      scriptWorld.cbIsAvailable st.world = (true, st.world) := rfl
  have hprompted : noteCall (injectSystemWithSummary scriptWorld
      (askedAgain { attachedAgent [helloMessage] with
        maxContextMessages := n, maxContextChars := c } rows)) = st := rfl
  have hstCut : cutConversation insertionQsort st.agent = some window := hcut
  rw [agentLlmCall, havailable]
  dsimp only
  rw [if_pos rfl, hprompted, hstCut]
  dsimp only
  rw [hadopt]
  rfl

/-- Another question and its answer. -/
theorem addsOnly_historyAgent :
    AddsOnly textCodec helloKey "session_1" ((helloSession (.object [])).normalize textCodec).messages
        (agentRunStreamingNew textCodec helloKey scriptWorld "again"
          (RunState.fresh [{ content := some "hi" }] historyAgent (helloRows (.object [])))) ∧
      AddsOnly textCodec helloKey "session_1"
        ((helloSession (.object [])).normalize textCodec).messages
        (agentRunNew textCodec helloKey insertionQsort scriptWorld "again"
          (RunState.fresh [{ content := some "hi" }] historyAgent (helloRows (.object [])))) := by
  have hadds := addsOnly_of_keepsStored textCodec helloKey insertionQsort scriptWorld "again"
    [{ content := some "hi" }] historyAgent (helloRows (.object [])) "session_1" _
    (attached_hello rfl rfl)
  refine ⟨hadds.1, hadds.2 ?_⟩
  have hcut : cutConversation insertionQsort (promptedAgain 4 100) =
      some (promptedAgain 4 100).messages := by
    decide +kernel
  obtain ⟨rows, -, hstart, -⟩ := @exists_startAgain historyAgent rfl rfl rfl
  rw [agentRunNew, hstart]
  refine ⟨_, _, runLoop_answered rfl (agentLlmCall_again hcut (Or.inl le_rfl)) rfl, ?_⟩
  obtain ⟨outer, rows', sent, htitle⟩ := agentGenerateTitle_eq textCodec helloKey scriptWorld
    (runSaveSession textCodec helloKey scriptWorld (recordAnswer textCodec helloKey scriptWorld
      { content := some "hi" } (answeredAgain 4 100 (promptedAgain 4 100).messages rows)))
  rw [htitle]
  intro call hcall
  obtain rfl : call = (promptedAgain 4 100, { content := some "hi" }) := List.mem_singleton.mp hcall
  exact ⟨_, hcut, rfl⟩

/-- With a window of one message, a buffered run leaves nothing of the stored history. -/
theorem not_addsOnly_narrowWindow :
    ¬ ∀ (codec : JsonCodec) (key : EncryptionKey) (q : Qsort) (world : World (List LLMResponse))
        (input : String) (outer : List LLMResponse) (agent : Agent) (rows : List SessionRow)
        (id : String) (s : Session), Attached codec key rows agent id s →
        AddsOnly codec key id s.messages
          (agentRunNew codec key q world input (RunState.fresh outer agent rows)) := by
  intro h
  have hadds := h textCodec helloKey insertionQsort scriptWorld "again" [{ content := some "hi" }]
    (attachedAgent [helloMessage]) (helloRows (.object [])) "session_1" _ (attached_hello rfl rfl)
  have hcut : cutConversation insertionQsort (promptedAgain 1 1) =
      some [promptMessage] := by
    decide +kernel
  obtain ⟨rows, s, hstart, hload, hmetadata, hevents⟩ :=
    @exists_startAgain (attachedAgent [helloMessage]) rfl rfl rfl
  rw [agentRunNew, hstart] at hadds
  have hanswered := @runLoop_answered _ textCodec helloKey scriptWorld _ 0 _ _ _ rfl
    (@agentLlmCall_again 1 1 rows _ hcut (Or.inr (by decide +kernel))) rfl
  -- The save after the answer stores the answer alone.
  obtain ⟨rows', hsaved, hload'⟩ : ∃ rows', recordAnswer textCodec helloKey scriptWorld
      { content := some "hi" }
      (answeredAgain 1 1 [promptMessage] rows) =
        { appendAssistant scriptWorld { content := some "hi" } "hi" (answeredAgain 1 1
            [promptMessage] rows) with rows := rows' } ∧
      loadSessionNolock textCodec Faults.none helloKey rows' "session_1" =
        some (({ s with messages := [hiMessage] } : Session).normalize textCodec) := by
    have hshort : (JsonText.printValue (messagesJson textCodec [hiMessage])).length ≤ 1000000 := by
      decide +kernel
    have hfits : ({ s with messages := [hiMessage] } : Session).storable textCodec = true := by
      refine storable_of_length hshort ?_ ?_
      · rw [hmetadata]
        decide +kernel
      · rw [hevents]
        decide +kernel
    exact @exists_runSaveSession _ textCodec helloKey scriptWorld "session_1"
      (appendAssistant scriptWorld { content := some "hi" } "hi" (answeredAgain 1 1
        [promptMessage] rows)) s rfl rfl hload hfits
  have hextends : Extends textCodec helloKey "session_1" [hiMessage]
      (recordAnswer textCodec helloKey scriptWorld { content := some "hi" } (answeredAgain 1 1
        [promptMessage] rows)) := by
    rw [hsaved]
    exact
      { sessionId := rfl
        held := ⟨_, [], (List.append_nil _).symm, rfl, fun _ hm => absurd hm List.not_mem_nil⟩
        stored := ⟨_, [], hload', rfl, fun _ hm => absurd hm List.not_mem_nil, fun _ => rfl⟩ }
  have hstored : StoresMore textCodec helloKey "session_1" [hiMessage]
      (agentGenerateTitle textCodec helloKey scriptWorld (runSaveSession textCodec helloKey scriptWorld
        (recordAnswer textCodec helloKey scriptWorld { content := some "hi" } (answeredAgain 1 1
          [promptMessage] rows)))).rows :=
    hextends.runSaveSession.agentGenerateTitle.stored
  obtain ⟨answer, st, t, new, hrun, hfinal, hmessages, -⟩ := hadds
  obtain ⟨-, rfl⟩ := Prod.mk.inj (Option.some.inj (hanswered.symm.trans hrun))
  obtain ⟨t', added, hfinal', hform, -⟩ := hstored
  obtain rfl : t' = t := Option.some.inj (hfinal'.symm.trans hfinal)
  rw [hmessages] at hform
  have hrole : some "user" = some "assistant" :=
    congrArg Message.role (List.cons.inj hform).1
  exact absurd hrole (by decide)

end EchoAi
