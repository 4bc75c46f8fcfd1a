import EchoAi.Agent.RunHistory
import EchoAi.Server.WsChat

/-!
# Binding a session to a connection

Three handlers load a session into the agent: at the start of the connection, for a frame that names a
session, and after a switch to another branch.  Each gives the agent the id of the session, and a copy of
its messages.

* `HoldsChain`: the agent has all that a save of its conversation needs.
* `CopiesWhole`: no failure loses a stored message.
* `BindsWhole`: binding is all or nothing, and later runs keep the stored history.
* `bindsWhole_iff`: when it is.

The id is there before the messages are, and a failure in between does not take it back.
-/

namespace EchoAi

/-! ## Copies -/

section Copies

variable {codec : JsonCodec} {fail : Faults BindSite}

/-- No failure loses a message that is stored, or its tool calls. -/
structure CopiesAll (fail : Faults BindSite) (msgs : List Message) : Prop where
  messages : fail .messages = false
  copies : ∀ i < msgs.length, fail (.copy i) = false
  calls : ∀ i m, msgs[i]? = some m → m.hasSystemRole = false → m.toolCalls ≠ [] →
    fail (.load (.messages (.toolCalls i))) = false

/-- Nothing that is stored is lost: there is nothing, or no failure loses it. -/
def CopiesWhole (fail : Faults BindSite) (msgs : List Message) : Prop :=
  storedMessages msgs = [] ∨ CopiesAll fail msgs

theorem traverseFrom_messageCopy {i : Nat} {msgs : List Message}
    (h : ∀ j < msgs.length, fail (.copy (i + j)) = false) :
    traverseFrom (fun i m => messageCopy (fail (.copy i)) m) i msgs = some msgs := by
  induction msgs generalizing i with
  | nil => rfl
  | cons m msgs ih =>
    have hrest : ∀ j < msgs.length, fail (.copy (i + 1 + j)) = false := by
      intro j hj
      rw [Nat.add_assoc, Nat.add_comm 1 j]
      exact h (j + 1) (Nat.succ_lt_succ hj)
    have hfirst : fail (.copy i) = false := h 0 (Nat.zero_lt_succ _)
    rw [traverseFrom, hfirst, ih hrest]
    rfl

theorem traverseFrom_messageCopy_failed {i j : Nat} {msgs : List Message} (hj : j < msgs.length)
    (hfail : fail (.copy (i + j)) = true) :
    traverseFrom (fun i m => messageCopy (fail (.copy i)) m) i msgs = none := by
  induction msgs generalizing i j with
  | nil => exact absurd hj (Nat.not_lt_zero j)
  | cons m msgs ih =>
    rw [traverseFrom]
    cases j with
    | zero =>
      have hfirst : fail (.copy i) = true := hfail
      rw [hfirst]
      rfl
    | succ j =>
      have hrest : fail (.copy (i + 1 + j)) = true := by
        rwa [Nat.add_assoc, Nat.add_comm 1 j]
      rw [ih (Nat.lt_of_succ_lt_succ hj) hrest]
      cases messageCopy (fail (.copy i)) m with
      | none => rfl
      | some m' => rfl

/-- The agent gets all messages or none. -/
theorem copiedMessages_eq (fail : Faults BindSite) (msgs : List Message) :
    copiedMessages fail msgs =
      if fail .messages = false ∧ ∀ i < msgs.length, fail (.copy i) = false then msgs else [] := by
  unfold copiedMessages
  cases fail .messages with
  | true => rw [if_pos rfl, if_neg fun h => Bool.noConfusion h.1]
  | false =>
    rw [if_neg Bool.false_ne_true]
    by_cases hall : ∀ i < msgs.length, fail (.copy i) = false
    · rw [if_pos ⟨rfl, hall⟩, traverseFrom_messageCopy fun j hj => ?_]
      · rfl
      · rw [Nat.zero_add]
        exact hall j hj
    · rw [if_neg fun h => hall h.2]
      simp only [not_forall, Bool.not_eq_false] at hall
      obtain ⟨i, hi, hfail⟩ := hall
      rw [← Nat.zero_add i] at hfail
      rw [traverseFrom_messageCopy_failed hi hfail]
      rfl

/-- Changing some of the items that a filter keeps shows in what is kept. -/
theorem map_filter_mapIdx_eq_iff {α β : Type} {p : α → Bool} {g : α → β} {f : Nat → α → α}
    {as : List α} (hp : ∀ i a, p (f i a) = p a) :
    ((as.mapIdx f).filter p).map g = (as.filter p).map g ↔
      ∀ i a, as[i]? = some a → p a = true → g (f i a) = g a := by
  induction as generalizing f with
  | nil => simp
  | cons a as ih =>
    have hrest := ih (f := fun i => f (i + 1)) fun i a => hp (i + 1) a
    rw [List.mapIdx_cons, List.filter_cons, List.filter_cons, hp 0 a]
    constructor
    · intro h i b hb hpb
      split at h
      · rw [List.map_cons, List.map_cons, List.cons.injEq, hrest] at h
        cases i with
        | zero =>
          rw [List.getElem?_cons_zero, Option.some_inj] at hb
          exact hb ▸ h.1
        | succ i => exact h.2 i b hb hpb
      · next hpa =>
        cases i with
        | zero =>
          rw [List.getElem?_cons_zero, Option.some_inj] at hb
          exact absurd (hb ▸ hpb) hpa
        | succ i => exact hrest.mp h i b hb hpb
    · intro h
      have htail := hrest.mpr fun i b hb hpb => h (i + 1) b hb hpb
      split
      · next hpa => rw [List.map_cons, List.map_cons, htail, h 0 a rfl hpa]
      · exact htail

theorem hasSystemRole_loaded (fail : Faults DecodeSite) (i : Nat) (m : Message) :
    (m.loaded fail i).hasSystemRole = m.hasSystemRole := by
  unfold Message.loaded
  split
  · rfl
  · rfl

theorem normalize_loaded_eq_iff {fail : Faults DecodeSite} {i : Nat} {m : Message} :
    (m.loaded fail i).normalize codec = m.normalize codec ↔
      (m.toolCalls ≠ [] → fail (.toolCalls i) = false) := by
  constructor
  · intro h hcalls
    by_contra hfail
    rw [Bool.not_eq_false] at hfail
    have hlost := congrArg Message.toolCalls h
    rw [Message.loaded, if_pos hfail] at hlost
    exact hcalls (List.map_eq_nil_iff.mp hlost.symm)
  · intro h
    rw [loaded_eq_self_iff.mpr h]

variable (codec) in
/-- **What the agent gets from a load is the stored chain** exactly when no failure loses it. -/
theorem savedForm_copied_iff {msgs : List Message} :
    savedForm codec (copiedMessages fail
        (msgs.mapIdx (Message.loaded ((fail.within .load).within .messages)))) =
      savedForm codec msgs ↔ CopiesWhole fail msgs := by
  have hloaded : savedForm codec (msgs.mapIdx
      (Message.loaded ((fail.within .load).within .messages))) = savedForm codec msgs ↔
        ∀ i m, msgs[i]? = some m → m.hasSystemRole = false → m.toolCalls ≠ [] →
          fail (.load (.messages (.toolCalls i))) = false := by
    unfold savedForm storedMessages
    rw [map_filter_mapIdx_eq_iff (p := fun m => !m.hasSystemRole)
      fun i m => congrArg (!·) (hasSystemRole_loaded _ i m)]
    refine forall₃_congr fun i m _ => ?_
    rw [Bool.not_eq_true']
    exact imp_congr_right fun _ => normalize_loaded_eq_iff
  have hnil : ∀ l : List Message, savedForm codec l = [] ↔ storedMessages l = [] := fun l =>
    List.map_eq_nil_iff
  rw [copiedMessages_eq, List.length_mapIdx]
  by_cases hcopied : fail .messages = false ∧ ∀ i < msgs.length, fail (.copy i) = false
  · rw [if_pos hcopied, hloaded]
    constructor
    · exact fun h => Or.inr ⟨hcopied.1, hcopied.2, h⟩
    · rintro (hnone | h)
      · intro i m hm hsystem
        have hmem : m ∈ storedMessages msgs :=
          List.mem_filter.mpr ⟨List.mem_of_getElem? hm, by rw [hsystem]; rfl⟩
        rw [hnone] at hmem
        exact absurd hmem List.not_mem_nil
      · exact h.calls
  · rw [if_neg hcopied]
    constructor
    · exact fun h => Or.inl ((hnil msgs).mp h.symm)
    · rintro (hnone | h)
      · exact ((hnil msgs).mpr hnone).symm
      · exact absurd ⟨h.messages, h.copies⟩ hcopied

end Copies

/-! ## Handlers -/

/-- What loads a session into the agent of a connection. -/
inductive BindFrame where
  | query (query : String)
  | sessionId (sessionId : String)
  | branchSwitch (minted : Minted) (sessionId : Option String) (branchId : String)

section Bind

variable {ω : Type} (codec : JsonCodec) (fail : Faults BindSite) (key : EncryptionKey)
  (world : World ω)

/-- The connection and the stored sessions afterwards. -/
def BindFrame.run (rows : List SessionRow) (c : WsChatCtx) :
    BindFrame → WsChatCtx × List SessionRow
  | .query text => (wsApplyQuerySession codec fail key rows text c, rows)
  | .sessionId id => ((wsHandleSessionId codec fail key rows (some id) c).2, rows)
  | .branchSwitch minted id branchId =>
    wsHandleBranchSwitch codec fail key rows minted id branchId c

/-- The session that is to be bound. -/
def BindFrame.target (c : WsChatCtx) : BindFrame → Option String
  | .query text => querySessionId text
  | .sessionId id => some id
  | .branchSwitch _ id _ => switchTarget id c

/-- The agent has the whole live chain of a stored session. -/
def HoldsChain (rows : List SessionRow) (id : String) (agent : Agent) : Prop :=
  ∀ s, loadSessionAlloc codec key rows Faults.none id = some s →
    savedForm codec agent.messages = savedForm codec s.messages

/-- The messages of a client, one after the other. -/
def messageFrames (st : WsState ω) (contents : List String) : WsState ω :=
  contents.foldl (fun st content => wsHandleMessageFrame codec key world content st) st

/-- A later history holds all messages of an earlier one. -/
def KeepsMessages (before after : List Message) : Prop :=
  savedForm codec before <+: savedForm codec after ∧
    (savedForm codec before = before → before <+: after)

/-- **Binding is all or nothing**: the agent is bound to the session and has its whole chain, or its
session is what it was.  No later run replaces the stored history by one that lacks messages. -/
structure BindsWhole (id : String) (c : WsChatCtx) (out : WsChatCtx × List SessionRow) : Prop where
  session : out.1.agent.sessionId = some id ∨ out.1.agent.sessionId = c.agent.sessionId
  chain : out.1.agent.sessionId = some id → HoldsChain codec key out.2 id out.1.agent
  keeps : ∀ outer contents s, loadSessionAlloc codec key out.2 Faults.none id = some s → ∃ t,
    loadSessionAlloc codec key
      (messageFrames codec key world ⟨outer, out.1, out.2⟩ contents).rows Faults.none id = some t ∧
      KeepsMessages codec s.messages t.messages

/-! ## Later runs -/

variable {codec key world}

/-- A message frame keeps the history of the agent's session. -/
theorem extends_messageFrame {id : String} {base : List Message} {st : WsState ω}
    (h : Extends codec key id base st.startRun) (content : String) :
    Extends codec key id base (wsHandleMessageFrame codec key world content st).startRun := by
  unfold wsHandleMessageFrame
  split
  · exact h
  · next answer run hrun =>
    have hend : Extends codec key id base run := (h.startRun content).streamingLoop hrun
    exact ⟨hend.sessionId, hend.held, hend.stored⟩

/-- A message frame leaves the other sessions alone. -/
theorem leavesAlone_messageFrame {id : String} {row : Option SessionRow} {st : WsState ω}
    (hfresh : ∀ outer, (world.newSession outer).1.id ≠ id) (h : LeavesAlone id row st.startRun)
    (content : String) :
    LeavesAlone id row (wsHandleMessageFrame codec key world content st).startRun := by
  unfold wsHandleMessageFrame
  split
  · exact h
  · next answer run hrun => exact ((h.startRun hfresh content).streamingLoop hfresh hrun).congr rfl rfl

variable (codec key world) in
theorem messageFrames_rule (P : WsState ω → Prop)
    (hstep : ∀ st content, P st → P (wsHandleMessageFrame codec key world content st))
    {st : WsState ω} (h : P st) (contents : List String) :
    P (messageFrames codec key world st contents) := by
  induction contents generalizing st with
  | nil => exact h
  | cons content contents ih => exact ih (hstep st content h)

theorem KeepsMessages.refl (msgs : List Message) : KeepsMessages codec msgs msgs :=
  ⟨List.prefix_refl _, fun _ => List.prefix_refl _⟩

theorem StoresMore.keeps {id : String} {s : Session} {rows : List SessionRow}
    (h : StoresMore codec key id s.messages rows) : ∃ t,
      loadSessionAlloc codec key rows Faults.none id = some t ∧
        KeepsMessages codec s.messages t.messages := by
  obtain ⟨t, new, ht, hmessages, -, hplain⟩ := h
  refine ⟨t, ht, ⟨new, hmessages.symm⟩, fun hform => ⟨new, ?_⟩⟩
  rw [← hplain hform, hmessages, hform]

/-- **An agent with the whole chain of its session** loses none of it in later runs. -/
theorem keeps_of_holdsChain {id : String} {rows : List SessionRow} {c : WsChatCtx}
    (hsession : c.agent.sessionId = some id) (hchain : HoldsChain codec key rows id c.agent)
    (outer : ω) (contents : List String) {s : Session}
    (hload : loadSessionAlloc codec key rows Faults.none id = some s) : ∃ t,
      loadSessionAlloc codec key (messageFrames codec key world ⟨outer, c, rows⟩ contents).rows
        Faults.none id = some t ∧ KeepsMessages codec s.messages t.messages := by
  have hstart : Extends codec key id s.messages (WsState.startRun ⟨outer, c, rows⟩) :=
    extends_fresh hsession hload (hchain s hload) outer
  have hend := messageFrames_rule codec key world
    (fun st => Extends codec key id s.messages st.startRun)
    (fun _ content h => extends_messageFrame h content) hstart contents
  exact hend.stored.keeps

/-- An agent of another session leaves the history alone. -/
theorem keeps_of_other {id : String} {rows : List SessionRow} {c : WsChatCtx}
    (hfresh : ∀ outer, (world.newSession outer).1.id ≠ id) (hsession : c.agent.sessionId ≠ some id)
    (outer : ω) (contents : List String) {s : Session}
    (hload : loadSessionAlloc codec key rows Faults.none id = some s) : ∃ t,
      loadSessionAlloc codec key (messageFrames codec key world ⟨outer, c, rows⟩ contents).rows
        Faults.none id = some t ∧ KeepsMessages codec s.messages t.messages := by
  have hstart : LeavesAlone id (findRow SessionRow.id id rows) (WsState.startRun ⟨outer, c, rows⟩) :=
    ⟨hsession, rfl⟩
  have hend := messageFrames_rule codec key world
    (fun st => LeavesAlone id (findRow SessionRow.id id rows) st.startRun)
    (fun _ content h => leavesAlone_messageFrame hfresh h content) hstart contents
  have hsame : loadSessionLocked codec Faults.none key
      (messageFrames codec key world ⟨outer, c, rows⟩ contents).rows id =
        loadSessionLocked codec Faults.none key rows id := loadSessionLocked_congr hend.row
  refine ⟨s, ?_, KeepsMessages.refl _⟩
  rw [loadSessionAlloc, hsame]
  exact hload

/-- The agent is bound and holds the chain, or its session is what it was. -/
def BoundOrUnchanged (codec : JsonCodec) (key : EncryptionKey) (rows : List SessionRow) (id : String)
    (before after : Agent) : Prop :=
  (after.sessionId = some id ∨ after.sessionId = before.sessionId) ∧
    (after.sessionId = some id → HoldsChain codec key rows id after)

/-- What later runs do follows from what the agent holds. -/
theorem bindsWhole_iff_holds {id : String} {c : WsChatCtx} {out : WsChatCtx × List SessionRow}
    (hfresh : ∀ outer, (world.newSession outer).1.id ≠ id) :
    BindsWhole codec key world id c out ↔
      BoundOrUnchanged codec key out.2 id c.agent out.1.agent := by
  constructor
  · exact fun h => ⟨h.session, h.chain⟩
  · rintro ⟨hsession, hchain⟩
    refine ⟨hsession, hchain, fun outer contents s hload => ?_⟩
    by_cases hbound : out.1.agent.sessionId = some id
    · exact keeps_of_holdsChain hbound (hchain hbound) outer contents hload
    · exact keeps_of_other hfresh hbound outer contents hload

/-! ## When binding is whole -/

/-- The load gives up, or the agent had no session and gets none, or it gets the id and the whole
chain. -/
def LoadIntact (codec : JsonCodec) (fail : Faults BindSite) (key : EncryptionKey)
    (rows : List SessionRow) (id : String) (before : Option String) : Prop :=
  ∀ s, loadSessionAlloc codec key rows Faults.none id = some s →
    loadSessionAlloc codec key rows (fail.within .load) id = none ∨
      fail .agentId = true ∧ before = none ∨ fail .agentId = false ∧ CopiesWhole fail s.messages

/-- A switch to another branch gives up before it is saved, or the agent then gets the whole chain.  When
the new chain cannot be loaded, the agent goes on with what it had. -/
def SwitchIntact (codec : JsonCodec) (fail : Faults BindSite) (key : EncryptionKey)
    (rows : List SessionRow) (minted : Minted) (id branchId : String) (agent : Agent) : Prop :=
  ∀ rows' s,
    switchSaved codec (fail.within .switch) minted key rows id branchId = some rows' →
    loadSessionAlloc codec key rows' Faults.none id = some s →
      if (loadSessionAlloc codec key rows' (fail.within .load) id).isSome then
        CopiesWhole fail s.messages
      else savedForm codec agent.messages = savedForm codec s.messages

/-- No failure comes between the id and the messages. -/
def BindFrame.Intact (codec : JsonCodec) (fail : Faults BindSite) (key : EncryptionKey)
    (rows : List SessionRow) (id : String) (c : WsChatCtx) : BindFrame → Prop
  | .query _ => c.agent.hasManager = true → LoadIntact codec fail key rows id c.agent.sessionId
  | .sessionId _ => c.agent.hasManager = true → c.activeSessionId = none →
    LoadIntact codec fail key rows id c.agent.sessionId
  | .branchSwitch minted _ branchId => c.agent.sessionId = some id →
    SwitchIntact codec fail key rows minted id branchId c.agent

/-- What a load under failures has to do with the stored session. -/
theorem loaded_of_loadSessionAlloc {fail : Faults LoadSite} {rows : List SessionRow} {id : String}
    {s' : Session} (h : loadSessionAlloc codec key rows fail id = some s') : ∃ s,
      loadSessionAlloc codec key rows Faults.none id = some s ∧ s' = s.loaded fail := by
  rw [loadSessionAlloc] at h
  split at h
  · exact absurd h (by simp)
  · next hne =>
    obtain ⟨row, hrow, hread⟩ := exists_row_of_loadSessionLocked h
    obtain ⟨s, hread', hs⟩ := exists_loaded_of_readSessionRow hread
    refine ⟨s, ?_, hs⟩
    rw [loadSessionAlloc, if_neg hne, loadSessionLocked_none, hrow, Option.bind_some, hread']

/-- An agent that was given a loaded session holds its chain when no failure lost it. -/
theorem holdsChain_copied_iff (agent : Agent) {fail : Faults BindSite} {rows : List SessionRow}
    {id : String} {s s' : Session} (hload : loadSessionAlloc codec key rows Faults.none id = some s)
    (hs : s' = s.loaded (fail.within .load))
    (hagent : agent.messages = copiedMessages fail s'.messages) :
    HoldsChain codec key rows id agent ↔ CopiesWhole fail s.messages := by
  have hcopied : _ ↔ CopiesWhole fail s.messages := savedForm_copied_iff codec
  have hmessages : agent.messages = copiedMessages fail
      (s.messages.mapIdx (Message.loaded ((fail.within .load).within .messages))) := by
    rw [hagent, hs]
    rfl
  rw [← hcopied, ← hmessages]
  constructor
  · exact fun h => h s hload
  · intro h t ht
    rw [Option.some.inj (ht.symm.trans hload)]
    exact h

/-- What a load makes of the agent. -/
def boundAgent (codec : JsonCodec) (fail : Faults BindSite) (key : EncryptionKey)
    (rows : List SessionRow) (id : String) (agent : Agent) : Agent :=
  match loadSessionAlloc codec key rows (fail.within .load) id with
  | none => agent
  | some s =>
    { agent with
      sessionId := dupId (fail .agentId) id
      messages := copiedMessages fail s.messages }

theorem agent_wsApplyQuerySession {fail : Faults BindSite} {rows : List SessionRow} {text id : String}
    {c : WsChatCtx} (hquery : querySessionId text = some id) :
    (wsApplyQuerySession codec fail key rows text c).agent =
      if c.agent.hasManager then boundAgent codec fail key rows id c.agent else c.agent := by
  unfold wsApplyQuerySession boundAgent
  rw [hquery]
  dsimp only
  split
  · cases loadSessionAlloc codec key rows (fail.within .load) id with
    | none => rfl
    | some s => rfl
  · rfl

theorem agent_wsHandleSessionId {fail : Faults BindSite} {rows : List SessionRow} {id : String}
    {c : WsChatCtx} :
    (wsHandleSessionId codec fail key rows (some id) c).2.agent =
      if c.agent.hasManager ∧ c.activeSessionId = none then boundAgent codec fail key rows id c.agent
      else c.agent := by
  unfold wsHandleSessionId boundAgent
  cases hactive : c.activeSessionId with
  | some active => rw [if_neg fun h => absurd h.2 (by simp)]
  | none =>
    dsimp only
    by_cases hmanager : c.agent.hasManager = true
    · rw [if_pos hmanager, if_pos ⟨hmanager, rfl⟩]
      cases loadSessionAlloc codec key rows (fail.within .load) id with
      | none => rfl
      | some s => rfl
    · rw [if_neg hmanager, if_neg fun h => hmanager h.1]

section Exact

variable {fail : Faults BindSite} {rows : List SessionRow} {id : String}

/-- A load of a session binds it whole exactly when no failure comes between. -/
theorem boundOrUnchanged_boundAgent_iff {agent : Agent}
    (hbefore : agent.sessionId = some id → HoldsChain codec key rows id agent) :
    BoundOrUnchanged codec key rows id agent (boundAgent codec fail key rows id agent) ↔
      LoadIntact codec fail key rows id agent.sessionId := by
  unfold boundAgent
  cases hload : loadSessionAlloc codec key rows (fail.within .load) id with
  | none => exact iff_of_true ⟨Or.inr rfl, hbefore⟩ fun s _ => Or.inl hload
  | some s' =>
    obtain ⟨s, hs, hloaded⟩ := loaded_of_loadSessionAlloc hload
    have hchain := holdsChain_copied_iff { agent with
      sessionId := dupId (fail .agentId) id
      messages := copiedMessages fail s'.messages } hs hloaded rfl
    have hintact : LoadIntact codec fail key rows id agent.sessionId ↔
        fail .agentId = true ∧ agent.sessionId = none ∨
          fail .agentId = false ∧ CopiesWhole fail s.messages := by
      constructor
      · intro h
        exact (h s hs).resolve_left (by rw [hload]; simp)
      · intro h t ht
        rw [Option.some.inj (ht.symm.trans hs)]
        exact Or.inr h
    rw [hintact, ← hchain, BoundOrUnchanged]
    dsimp only
    cases hid : fail .agentId with
    | true =>
      rw [dupId, if_pos rfl]
      constructor
      · exact fun h => Or.inl ⟨rfl, (h.1.resolve_left (by simp)).symm⟩
      · rintro (⟨-, hnone⟩ | ⟨hfalse, -⟩)
        · exact ⟨Or.inr hnone.symm, fun h => absurd h (by simp)⟩
        · exact absurd hfalse (by decide)
    | false =>
      rw [dupId, if_neg Bool.false_ne_true]
      constructor
      · exact fun h => Or.inr ⟨rfl, h.2 rfl⟩
      · rintro (⟨htrue, -⟩ | ⟨-, hwhole⟩)
        · exact absurd htrue (by decide)
        · exact ⟨Or.inl rfl, fun _ => hwhole⟩

/-- A switch to another branch keeps the agent on the live chain exactly when it gives up or no failure
comes after its save. -/
theorem boundOrUnchanged_switch_iff {minted : Minted} {sessionId : Option String} {branchId : String}
    {c : WsChatCtx} (htarget : switchTarget sessionId c = some id)
    (hbefore : c.agent.sessionId = some id → HoldsChain codec key rows id c.agent) :
    BoundOrUnchanged codec key
        (wsHandleBranchSwitch codec fail key rows minted sessionId branchId c).2 id c.agent
        (wsHandleBranchSwitch codec fail key rows minted sessionId branchId c).1.agent ↔
      (c.agent.sessionId = some id →
        SwitchIntact codec fail key rows minted id branchId c.agent) := by
  unfold wsHandleBranchSwitch switchBranch
  rw [htarget]
  dsimp only
  cases hsaved : switchSaved codec (fail.within .switch) minted key rows id branchId with
  | none =>
    refine iff_of_true ⟨Or.inr rfl, hbefore⟩ fun _ rows' s h => ?_
    rw [hsaved] at h
    exact absurd h (by simp)
  | some rows' =>
    dsimp only
    have hintact : SwitchIntact codec fail key rows minted id branchId c.agent ↔
        ∀ s, loadSessionAlloc codec key rows' Faults.none id = some s →
          if (loadSessionAlloc codec key rows' (fail.within .load) id).isSome then
            CopiesWhole fail s.messages
          else savedForm codec c.agent.messages = savedForm codec s.messages := by
      constructor
      · exact fun h s => h rows' s hsaved
      · intro h rows'' s hsaved'
        rw [← Option.some.inj (hsaved.symm.trans hsaved')]
        exact h s
    rw [hintact]
    cases hload : loadSessionAlloc codec key rows' (fail.within .load) id with
    | none =>
      dsimp only
      constructor
      · exact fun h hsession s hs => h.2 hsession s hs
      · exact fun h => ⟨Or.inr rfl, fun hsession s hs => h hsession s hs⟩
    | some s' =>
      obtain ⟨s, hs, hloaded⟩ := loaded_of_loadSessionAlloc hload
      have hchain := holdsChain_copied_iff (wsSwapAgentMessages fail s' c).agent hs hloaded rfl
      dsimp only
      constructor
      · intro h hsession t ht
        rw [Option.some.inj (ht.symm.trans hs)]
        exact hchain.mp (h.2 hsession)
      · exact fun h => ⟨Or.inr rfl, fun hsession => hchain.mpr (h hsession s hs)⟩

end Exact

end Bind

/-- **Binding a session is all or nothing** exactly when no failure comes between its id and its
messages. -/
theorem bindsWhole_iff {ω : Type} (codec : JsonCodec) (fail : Faults BindSite) (key : EncryptionKey)
    (world : World ω) (frame : BindFrame) (rows : List SessionRow) (c : WsChatCtx) (id : String)
    (htarget : frame.target c = some id) (hfresh : ∀ outer, (world.newSession outer).1.id ≠ id)
    (hbefore : c.agent.sessionId = some id → HoldsChain codec key rows id c.agent) :
    BindsWhole codec key world id c (frame.run codec fail key rows c) ↔
      frame.Intact codec fail key rows id c := by
  have hunchanged : BoundOrUnchanged codec key rows id c.agent c.agent := ⟨Or.inr rfl, hbefore⟩
  rw [bindsWhole_iff_holds hfresh]
  cases frame with
  | query text =>
    rw [BindFrame.run, agent_wsApplyQuerySession htarget, BindFrame.Intact]
    by_cases hmanager : c.agent.hasManager = true
    · rw [if_pos hmanager, boundOrUnchanged_boundAgent_iff hbefore]
      exact ⟨fun h _ => h, fun h => h hmanager⟩
    · rw [if_neg hmanager]
      exact iff_of_true hunchanged fun h => absurd h hmanager
  | sessionId id' =>
    obtain rfl : id' = id := Option.some.inj htarget
    rw [BindFrame.run, agent_wsHandleSessionId, BindFrame.Intact]
    by_cases hbinds : c.agent.hasManager = true ∧ c.activeSessionId = none
    · rw [if_pos hbinds, boundOrUnchanged_boundAgent_iff hbefore]
      exact ⟨fun h _ _ => h, fun h => h hbinds.1 hbinds.2⟩
    · rw [if_neg hbinds]
      exact iff_of_true hunchanged fun hmanager hactive => absurd ⟨hmanager, hactive⟩ hbinds
  | branchSwitch minted sessionId branchId => exact boundOrUnchanged_switch_iff htarget hbefore

/-! ## An example -/

/-- A connection without a session. -/
def newConnection : WsChatCtx := { agent := { attachedAgent [] with sessionId := none } }

theorem scriptWorld_newSession (script : List LLMResponse) :
    (scriptWorld.newSession script).1.id ≠ "session_1" := by
  show "session_2" ≠ "session_1"
  decide

/-- Without failures a session is bound whole. -/
theorem bindsWhole_hello :
    BindsWhole textCodec helloKey scriptWorld "session_1" newConnection
      ((BindFrame.sessionId "session_1").run textCodec Faults.none helloKey (helloRows (.object []))
        newConnection) :=
  (bindsWhole_iff textCodec Faults.none helloKey scriptWorld (.sessionId "session_1")
    (helloRows (.object [])) newConnection "session_1" rfl scriptWorld_newSession
    (fun h => absurd h (by decide))).mpr fun _ _ _ _ =>
      Or.inr (Or.inr ⟨rfl, Or.inr ⟨rfl, fun _ _ => rfl, fun _ _ _ _ _ => rfl⟩⟩)

/-- When the messages cannot be allocated, the agent is bound to the session without any of them. -/
theorem not_bindsWhole_noMessages :
    ¬ ∀ (codec : JsonCodec) (fail : Faults BindSite) (key : EncryptionKey)
        (world : World (List LLMResponse)) (frame : BindFrame) (rows : List SessionRow)
        (c : WsChatCtx) (id : String), frame.target c = some id →
        (∀ outer, (world.newSession outer).1.id ≠ id) →
        (c.agent.sessionId = some id → HoldsChain codec key rows id c.agent) →
        BindsWhole codec key world id c (frame.run codec fail key rows c) := by
  intro h
  have hchain := (h textCodec (fun site => site == .messages) helloKey scriptWorld
    (.sessionId "session_1") (helloRows (.object [])) newConnection "session_1" rfl
    scriptWorld_newSession (fun h => absurd h (by decide))).chain
  have hload : loadSessionAlloc textCodec helloKey (helloRows (.object [])) Faults.none "session_1" =
      some ((helloSession (.object [])).normalize textCodec) := by
    rw [loadSessionAlloc, if_neg (by decide)]
    exact load_helloRows (.object [])
  have hbound : ((BindFrame.sessionId "session_1").run textCodec (fun site => site == .messages)
      helloKey (helloRows (.object [])) newConnection).1.agent.sessionId = some "session_1" := by
    decide +kernel
  have hempty : ((BindFrame.sessionId "session_1").run textCodec (fun site => site == .messages)
      helloKey (helloRows (.object [])) newConnection).1.agent.messages = [] := by
    decide +kernel
  have hsame := hchain hbound _ hload
  rw [hempty] at hsame
  exact absurd (congrArg List.length hsame) (by decide +kernel)

end EchoAi
