import EchoAi.Session.BranchChains

/-!
# Saving the agent's conversation

The agent keeps its conversation in memory and writes it to the session that it is attached to: the
stored session is loaded, its messages are replaced by the agent's, and it is saved.  System messages
are not stored.

* `Agent`: the agent with the settings of its runs.
* `agentSaveSession`: the save, under failing operations named by `AgentSaveSite`.
* `keepsHistory_iff`: when a save leaves no shortened history behind.

The message array and its copies are allocated after the loaded messages were dropped, and a failure
there does not stop the save.
-/

namespace EchoAi

/-- An agent: its conversation, the session it is attached to, and the settings of a run. -/
structure Agent where
  messages : List Message := []
  sessionId : Option String := none
  contextSummary : Option String := none
  /-- whether a session manager is set -/
  hasManager : Bool := true
  maxIterations : Nat
  maxContextMessages : Nat
  maxContextChars : Int
  maxToolResultChars : Nat
  deriving DecidableEq, Repr

/-- What creating a session draws from outside: its id and a reading of the clock. -/
structure NewSession where
  id : String
  createdAt : String

/-- The operations of saving the conversation that may fail. -/
inductive AgentSaveSite where
  /-- loading the stored session -/
  | load (s : LoadSite)
  /-- creating a session -/
  | create
  /-- copying the id of the created session -/
  | sessionId
  /-- allocating the messages -/
  | messages
  /-- copying a message -/
  | copy (i : Nat)
  | save (s : SaveSite)
  deriving DecidableEq, Repr

/-- Whether a message is a system message. -/
def Message.hasSystemRole (m : Message) : Bool := m.role == some "system"

/-- The messages of a conversation that are stored. -/
def storedMessages (msgs : List Message) : List Message := msgs.filter fun m => !m.hasSystemRole

/-- `session_create`. -/
def sessionCreate (new : NewSession) (title : String) : Session where
  id := new.id
  title := title
  titleGenerationAttempted := 0
  createdAt := new.createdAt
  messages := []
  metadata := .object []
  events := []

section Save

variable (codec : JsonCodec) (fail : Faults AgentSaveSite) (new : NewSession) (key : EncryptionKey)

/-- `session_manager_load_session_nolock_alloc`. -/
def loadSessionNolock (rows : List SessionRow) (id : String) : Option Session :=
  if id = "" then none else loadSessionLocked codec (fail.within .load) key rows id

/-- The session that is overwritten, and the id that the agent has from then on. -/
def sessionToSave (rows : List SessionRow) (sessionId : Option String) :
    Option (Session × Option String) :=
  match sessionId.bind (loadSessionNolock codec fail key rows) with
  | some s => some (s, sessionId)
  | none => do
    attempt (fail .create)
    return (sessionCreate new "Echo AI Session", if fail .sessionId then none else some new.id)

/-- The messages that are written: none when their array cannot be allocated, and those before the
first that cannot be copied. -/
def savedCopies (msgs : List Message) : List Message :=
  if fail .messages then []
  else stopFrom (fun i m => messageCopy (fail (.copy i)) m) 0 (storedMessages msgs)

/-- The rows after the save of a session with other messages; none are written when it fails. -/
def saveWithMessages (rows : List SessionRow) (s : Session) (messages : List Message) :
    Option (List SessionRow) := do
  attempt (s.id == "")
  saveSessionCoreLocked codec (fail.within .save) key rows { s with messages }

/-- `agent_save_session`: the agent and the rows afterwards. -/
def agentSaveSession (rows : List SessionRow) (agent : Agent) : Agent × List SessionRow :=
  if agent.hasManager then
    match sessionToSave codec fail new key rows agent.sessionId with
    | none => (agent, rows)
    | some (s, sessionId) =>
      ({ agent with sessionId },
        (saveWithMessages codec fail key rows s (savedCopies fail agent.messages)).getD rows)
  else (agent, rows)

end Save

/-! ## Histories -/

section History

variable {codec : JsonCodec} {fail : Faults AgentSaveSite} {new : NewSession} {key : EncryptionKey}

/-- Every row is what it was before, or it holds all of the messages in order. -/
def KeepsHistory (codec : JsonCodec) (key : EncryptionKey) (rows rows' : List SessionRow)
    (msgs : List Message) : Prop :=
  ∀ id, findRow SessionRow.id id rows' = findRow SessionRow.id id rows ∨
    ∃ s, loadSessionLocked codec Faults.none key rows' id = some s ∧
      s.messages = (storedMessages msgs).map (Message.normalize codec)

/-- No failure leaves a message or a part of it out. -/
structure SavesWhole (codec : JsonCodec) (fail : Faults AgentSaveSite) (msgs : List Message) :
    Prop where
  messages : storedMessages msgs ≠ [] → fail .messages = false
  copies : ∀ i < (storedMessages msgs).length, fail (.copy i) = false
  intact : Intact codec (fun site => fail (.save (.messages site))) (storedMessages msgs)

/-- Nothing is written, or the row that was there is written again. -/
def WritesNothingNew (codec : JsonCodec) (fail : Faults AgentSaveSite) (new : NewSession)
    (key : EncryptionKey) (rows : List SessionRow) (agent : Agent) : Prop :=
  agent.hasManager = true → ∀ s sessionId rows',
    sessionToSave codec fail new key rows agent.sessionId = some (s, sessionId) →
    saveWithMessages codec fail key rows s (savedCopies fail agent.messages) = some rows' →
    findRow SessionRow.id s.id rows' = findRow SessionRow.id s.id rows

theorem savedCopies_initial (fail : Faults AgentSaveSite) (msgs : List Message) :
    savedCopies fail msgs <+: storedMessages msgs := by
  rw [savedCopies]
  split
  · exact List.nil_prefix
  · refine stopFrom_prefix (fun i a b h => ?_) 0 _
    rw [messageCopy] at h
    cases hfail : fail (.copy i) with
    | true =>
      rw [hfail] at h
      exact absurd h (by simp)
    | false =>
      rw [hfail] at h
      exact (Option.some.inj h).symm

theorem isSome_messageCopy (failed : Bool) (m : Message) :
    (messageCopy failed m).isSome = true ↔ failed = false := by
  cases failed with
  | true => exact iff_of_false Bool.false_ne_true (by decide)
  | false => exact iff_of_true rfl rfl

/-- All messages are copied when no copy of theirs fails. -/
theorem length_savedCopies_eq_iff {msgs : List Message} :
    (savedCopies fail msgs).length = (storedMessages msgs).length ↔
      (storedMessages msgs ≠ [] → fail .messages = false) ∧
        ∀ i < (storedMessages msgs).length, fail (.copy i) = false := by
  rw [savedCopies]
  cases hmessages : fail .messages with
  | true =>
    rw [if_pos rfl, List.length_nil]
    constructor
    · intro h
      have hnil := List.eq_nil_of_length_eq_zero h.symm
      refine ⟨fun hne => absurd hnil hne, fun i hi => ?_⟩
      omega
    · rintro ⟨hnone, -⟩
      by_contra hne
      refine absurd (hnone fun hnil => hne ?_) (by decide)
      rw [hnil, List.length_nil]
  | false =>
    rw [if_neg Bool.false_ne_true, length_stopFrom_eq_iff, and_iff_right fun _ => rfl]
    constructor
    · intro h i hi
      have hcopy := h i _ (List.getElem?_eq_getElem hi)
      rwa [Nat.zero_add, isSome_messageCopy] at hcopy
    · intro h j m hm
      rw [Nat.zero_add, isSome_messageCopy]
      exact h j (List.getElem?_eq_some_iff.mp hm).1

theorem SavesWhole.savedCopies_eq {msgs : List Message} (h : SavesWhole codec fail msgs) :
    savedCopies fail msgs = storedMessages msgs :=
  (savedCopies_initial fail msgs).eq_of_length
    (length_savedCopies_eq_iff.mpr ⟨h.messages, h.copies⟩)

/-- What is read from the row that a save has written. -/
theorem exists_row_of_saveWithMessages {rows rows' : List SessionRow} {s : Session}
    {messages : List Message} (h : saveWithMessages codec fail key rows s messages = some rows') :
    (∀ id, id ≠ s.id → findRow SessionRow.id id rows' = findRow SessionRow.id id rows) ∧
      ∃ s', loadSessionLocked codec Faults.none key rows' s.id = some s' ∧
        s'.messages = messages.mapIdx
          (Message.received codec fun site => fail (.save (.messages site))) := by
  simp only [saveWithMessages, Option.bind_eq_bind, Option.bind_eq_some_iff] at h
  obtain ⟨-, -, hsave⟩ := h
  obtain ⟨row, rfl, hid, hread⟩ := exists_received_of_saveSessionCoreLocked hsave
  have hrow : findRow SessionRow.id s.id (putRow SessionRow.id row rows) = some row := by
    rw [← hid]
    exact findRow_putRow_self row rows
  refine ⟨fun id hne => findRow_putRow_ne (fun heq => hne ?_) rows,
    Session.received codec (fail.within .save) { s with messages }, ?_, rfl⟩
  · rw [← heq, hid]
  · rw [loadSessionLocked_none, hrow, Option.bind_some, hread]

/-- The received messages are all messages exactly when nothing was left out. -/
theorem savesWhole_iff {msgs : List Message} : SavesWhole codec fail msgs ↔
    (savedCopies fail msgs).mapIdx
        (Message.received codec fun site => fail (.save (.messages site))) =
      (storedMessages msgs).map (Message.normalize codec) := by
  constructor
  · intro h
    rw [h.savedCopies_eq]
    exact received_eq_normalize_iff.mpr h.intact
  · intro h
    have hlength := congrArg List.length h
    rw [List.length_mapIdx, List.length_map] at hlength
    obtain ⟨hmessages, hcopies⟩ := length_savedCopies_eq_iff.mp hlength
    rw [(savedCopies_initial fail msgs).eq_of_length hlength] at h
    exact ⟨hmessages, hcopies, received_eq_normalize_iff.mp h⟩

theorem agentSaveSession_of_some {rows : List SessionRow} {agent : Agent} {s : Session}
    {sessionId : Option String} (hmanager : agent.hasManager = true)
    (h : sessionToSave codec fail new key rows agent.sessionId = some (s, sessionId)) :
    agentSaveSession codec fail new key rows agent = ({ agent with sessionId },
      (saveWithMessages codec fail key rows s (savedCopies fail agent.messages)).getD rows) := by
  rw [agentSaveSession, if_pos hmanager, h]

theorem agentSaveSession_of_none {rows : List SessionRow} {agent : Agent}
    (h : agent.hasManager = true →
      sessionToSave codec fail new key rows agent.sessionId = none) :
    agentSaveSession codec fail new key rows agent = (agent, rows) := by
  rw [agentSaveSession]
  split
  · next hmanager => rw [h hmanager]
  · rfl

/-- **A save keeps the history** exactly when it leaves nothing out or writes nothing new. -/
theorem keepsHistory_iff (codec : JsonCodec) (fail : Faults AgentSaveSite) (new : NewSession)
    (key : EncryptionKey) (rows : List SessionRow) (agent : Agent) :
    KeepsHistory codec key rows (agentSaveSession codec fail new key rows agent).2 agent.messages ↔
      SavesWhole codec fail agent.messages ∨ WritesNothingNew codec fail new key rows agent := by
  by_cases hmanager : agent.hasManager = true
  · cases hsession : sessionToSave codec fail new key rows agent.sessionId with
    | none =>
      rw [agentSaveSession_of_none fun _ => hsession]
      refine iff_of_true (fun id => Or.inl rfl) (Or.inr fun _ s _ rows' hs => ?_)
      rw [hsession] at hs
      cases hs
    | some found =>
      obtain ⟨s, sessionId⟩ := found
      have hnothing : WritesNothingNew codec fail new key rows agent ↔ ∀ rows',
          saveWithMessages codec fail key rows s (savedCopies fail agent.messages) = some rows' →
          findRow SessionRow.id s.id rows' = findRow SessionRow.id s.id rows := by
        constructor
        · exact fun h rows' => h hmanager s sessionId rows' hsession
        · intro h _ t _ rows' ht
          rw [hsession] at ht
          obtain ⟨rfl, -⟩ := Prod.mk.inj (Option.some.inj ht)
          exact h rows'
      rw [hnothing, agentSaveSession_of_some hmanager hsession]
      cases hsave : saveWithMessages codec fail key rows s (savedCopies fail agent.messages) with
      | none => exact iff_of_true (fun id => Or.inl rfl) (Or.inr fun rows' h => by cases h)
      | some rows' =>
        rw [Option.getD_some]
        obtain ⟨hothers, s', hload, hmessages⟩ := exists_row_of_saveWithMessages hsave
        constructor
        · intro hkeeps
          rcases hkeeps s.id with hrow | ⟨t, ht, hall⟩
          · exact Or.inr fun rows'' hrows'' => Option.some.inj hrows'' ▸ hrow
          · refine Or.inl (savesWhole_iff.mpr ?_)
            rw [← hmessages, ← hall]
            exact congrArg Session.messages (Option.some.inj (hload.symm.trans ht))
        · intro h id
          by_cases hid : id = s.id
          · subst hid
            rcases h with hwhole | hsame
            · exact Or.inr ⟨s', hload, hmessages.trans (savesWhole_iff.mp hwhole)⟩
            · exact Or.inl (hsame rows' rfl)
          · exact Or.inl (hothers id hid)
  · rw [agentSaveSession_of_none fun h => absurd h hmanager]
    exact iff_of_true (fun id => Or.inl rfl) (Or.inr fun h => absurd h hmanager)

end History

/-! ## An example -/

/-- An agent that is attached to a session. -/
def attachedAgent (msgs : List Message) : Agent :=
  { messages := msgs, sessionId := some "session_1", maxIterations := 1, maxContextMessages := 1,
    maxContextChars := 1, maxToolResultChars := 1 }

def helloMessage : Message := { role := some "user", content := some "hello", id := some "message_1" }

/-- A save that copies nothing leaves an empty history. -/
theorem not_keepsHistory_failedCopy :
    ¬ ∀ (codec : JsonCodec) (fail : Faults AgentSaveSite) (new : NewSession) (key : EncryptionKey)
        (rows : List SessionRow) (agent : Agent),
        KeepsHistory codec key rows (agentSaveSession codec fail new key rows agent).2
          agent.messages := by
  intro h
  have hrow : findRow SessionRow.id "session_1" (agentSaveSession textCodec
      (fun site => site == .copy 0) ⟨"", ""⟩ helloKey (helloRows (.object []))
      (attachedAgent [helloMessage])).2 ≠ findRow SessionRow.id "session_1"
        (helloRows (.object [])) := by
    decide +kernel
  have hempty : (loadSessionLocked textCodec Faults.none helloKey (agentSaveSession textCodec
      (fun site => site == .copy 0) ⟨"", ""⟩ helloKey (helloRows (.object []))
      (attachedAgent [helloMessage])).2 "session_1").map (fun s => s.messages.length) = some 0 := by
    decide +kernel
  rcases h textCodec (fun site => site == .copy 0) ⟨"", ""⟩ helloKey (helloRows (.object []))
    (attachedAgent [helloMessage]) "session_1" with hsame | ⟨s, hload, hmessages⟩
  · exact hrow hsame
  · rw [hload, Option.map_some, hmessages] at hempty
    exact absurd hempty (by decide)

end EchoAi
