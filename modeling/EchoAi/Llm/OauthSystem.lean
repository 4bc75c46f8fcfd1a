import EchoAi.Chronicle
import EchoAi.Llm.Oauth

/-!
# The operations of the OAuth manager

Every login, refresh and lifecycle operation goes from one section under the lock to the next, and all
of them at once.

* `Op`: how far an operation has come.
* `System`: the manager, the vaults of the sessions, the operations, and a log of what happened.
* `startMove`, `callbackMove`, `deviceStartMove`, `pollMove`, `refreshMove`, `stopMove`, `attachMove`:
  one section of each operation.
* `step`: an operation begins, or it goes on to the end of its next section.

What the network, the clock, the random numbers and the session manager answer is part of the events.
The checks by which a callback thread stops earlier are not there.  Locks, waits, joins and allocations
succeed, and the manager is not destroyed.
-/

namespace EchoAi.Oauth

/-! ## The operations -/

/-- `callback_thread_main` -/
inductive CallbackPhase where
  | starting
  /-- the failure is not published yet -/
  | refused
  | serving
  /-- the code is exchanged -/
  | exchanging
  /-- the answer is parsed -/
  | exchanged (staged : Option Credentials)
  /-- the failed exchange is not recorded yet -/
  | failing
  | ending (timedOut : Bool)
  deriving DecidableEq, Repr

/-- `openai_oauth_device_start` -/
inductive DevicePhase where
  | asking
  | asked (registration : Registration) (now : Nat)
  | failing (cancelled : Bool)
  | finishing
  deriving DecidableEq, Repr

/-- `openai_oauth_device_poll` -/
inductive PollPhase where
  /-- the login has expired -/
  | expired
  | asking
  | slowing
  | releasing
  /-- the authorization is exchanged -/
  | exchanging
  /-- the answer is parsed -/
  | exchanged (staged : Option Credentials)
  | finishing (result : DeviceResult)
  | leaving
  deriving DecidableEq, Repr

/-- `refresh_credentials` -/
inductive RefreshPhase where
  | exchanging
  | exchanged (result : TokenResult) (staged : Option Credentials)
  deriving DecidableEq, Repr

/-- The operations that stop the others. -/
inductive Lifecycle where
  | cancelLogin (loginId : String)
  | logout
  | attachSession (session : Option Nat)
  deriving DecidableEq, Repr

/-- How far an operation has come.  A login and a refresh have a number, that of their first entry in
the log. -/
inductive Op where
  /-- `openai_oauth_start` joins the thread of the login before -/
  | starting (thread : Option Nat)
  /-- it waits for the listener -/
  | waiting
  /-- it joins the thread of the listener that failed -/
  | cleaning (thread : Nat)
  | callback (login : Nat) (generation : UInt64) (phase : CallbackPhase)
  /-- `openai_oauth_device_start` joins the thread of the login before -/
  | deviceStarting (thread : Option Nat)
  | deviceStart (login : Nat) (generation : UInt64) (phase : DevicePhase)
  | poll (login : Nat) (generation : UInt64) (phase : PollPhase)
  | refresh (number : Nat) (generation : UInt64) (phase : RefreshPhase)
  /-- a lifecycle operation waits for the thread and for what is under way -/
  | stopping (kind : Lifecycle) (thread : Option Nat)
  /-- `openai_oauth_attach_session` loads -/
  | attaching (session : Option Nat)
  | ended
  deriving DecidableEq, Repr

/-- What happens. -/
inductive Note where
  /-- a login or a refresh begins -/
  | began (number : Nat)
  /-- its credentials go to the vault -/
  | persisted (number : Nat)
  /-- its credentials go to the manager -/
  | installed (number : Nat)
  /-- a lifecycle operation begins -/
  | stopped
  /-- it is completed -/
  | completed
  /-- a poll begins, with the interval of its login -/
  | polled (poll : Nat) (now interval : Nat)
  /-- the interval after a `slow_down` -/
  | slowed (poll : Nat) (now interval : Nat)
  /-- a poll ends -/
  | released (poll : Nat)
  deriving DecidableEq, Repr

/-- The manager with everything around it.  `login` is the number of the login that began last. -/
structure System where
  manager : Manager := {}
  vault : Vault := []
  ops : List Op := []
  login : Nat := 0
  log : List Note := []
  deriving DecidableEq, Repr

/-- What an operation does in one section: the manager and the vault behind it, how far it has come,
and the thread that it has created. -/
structure Move where
  manager : Manager
  vault : Vault
  login : Nat
  op : Op
  spawned : Option Op := none
  notes : List Note := []

/-- What an operation is told. -/
inductive Input where
  | go
  | beginCallback (loginId : String) (callback : PendingCallback) (created : Bool)
  | beginDevice (loginId : String)
  | listened (ok : Bool)
  | leave (timedOut : Bool)
  /-- a request that could not be read -/
  | unread
  | request (query : Option CallbackQuery)
  | exchange (transfer : Transfer) (staged : Option Credentials)
  | registered (transfer : Transfer) (registration : Option Registration) (now : Nat)
  | polled (transfer : Transfer) (answer : PollAnswer)
  | clock (now : Nat)
  /-- whether the session manager succeeds -/
  | storage (ok : Bool)
  deriving DecidableEq, Repr

/-- Which token is asked for. -/
inductive TokenRequest where
  | ifDue
  | force
  | after401 (rejected : String)
  deriving DecidableEq, Repr

/-- What can happen next. -/
inductive Event where
  | start
  | deviceStart
  | poll (loginId : String) (now : Nat)
  | refresh (request : TokenRequest) (now : Nat)
  | stop (kind : Lifecycle)
  /-- an operation goes on -/
  | advance (op : Nat) (input : Input)
  deriving DecidableEq, Repr

namespace System

/-- Whether a thread can be joined. -/
def joined (st : System) : Option Nat → Bool
  | none => true
  | some thread => st.ops[thread]? = some .ended

/-- A section with this manager behind it. -/
def move (st : System) (m : Manager) (op : Op) (notes : List Note) : Move :=
  { manager := m, vault := st.vault, login := st.login, op, notes }

/-- A section that saves credentials, unless there is no session or the session manager refuses, and
puts them into the manager. -/
def keep (st : System) (number : Nat) (staged : Credentials) (ok : Bool) : Option Move :=
  match st.manager.session with
  | none => none
  | some session =>
    if ok then some
      { manager := { st.manager.commitCredentialsLocked staged with lastError := none }
        vault := st.vault.save session staged
        login := st.login
        op := .ended
        notes := [.persisted number, .installed number] }
    else none

/-- `complete_callback_tokens` under the lock; the operation goes on at one of two places. -/
def completeCallbackTokens (st : System) (number : Nat) (generation : UInt64)
    (staged : Credentials) (ok : Bool) (complete failed : Op) : Move :=
  let m := st.manager
  if m.generation = generation ∧ ¬m.stopRequested then
    match st.keep number staged ok with
    | some kept => { kept with op := complete }
    | none => st.move (m.setErrorLocked "Could not save OpenAI credentials") failed []
  else st.move m failed []

/-! ## One section of each operation -/

/-- `openai_oauth_start` behind its first section. -/
def startMove (st : System) : Op → Input → Option Move
  | .starting thread, .beginCallback loginId callback created =>
    if st.joined thread then
      let m := st.manager
      if m.canBegin then
        if created then
          let number := st.log.length
          some
            { manager := m.beginCallback loginId callback st.ops.length
              vault := st.vault
              login := number
              op := .waiting
              spawned := some (.callback number (nextGeneration m.generation) .starting)
              notes := [.began number] }
        else some (st.move (m.beginCallbackFailed loginId) .ended [])
      else some (st.move m .ended [])
    else none
  | .waiting, .go =>
    let m := st.manager
    if m.callbackReady then
      if m.callbackRc = 0 then some (st.move m .ended [])
      else some (st.move m.startFailed (.cleaning m.callbackThread) [])
    else none
  | .cleaning thread, .go =>
    if st.joined (some thread) then some (st.move st.manager.startCleanup .ended []) else none
  | _, _ => none

/-- `process_callback` on a request. -/
def processCallback (st : System) (login : Nat) (generation : UInt64) (query : CallbackQuery) :
    Move :=
  let m := st.manager
  if m.generation = generation ∧ ¬m.stopRequested ∧
      m.callback.map PendingCallback.state = some query.state then
    let cleared := m.clearPendingSensitiveLocked
    if query.denial then
      st.move (cleared.setErrorLocked "OpenAI login was denied")
        (.callback login generation (.ending false)) []
    else st.move cleared (.callback login generation .exchanging) []
  else st.move (m.setErrorLocked "Invalid OpenAI OAuth state")
    (.callback login generation .serving) []

/-- `callback_thread_main` -/
def callbackMove (st : System) (login : Nat) (generation : UInt64) :
    CallbackPhase → Input → Option Move
  | .starting, .listened ok =>
    let m := st.manager
    if ok ∧ ¬m.cancelled generation then
      some (st.move m.callbackPublishListener (.callback login generation .serving) [])
    else some (st.move m (.callback login generation .refused) [])
  | .refused, .go =>
    some (st.move (st.manager.callbackPublishFailure generation)
      (.callback login generation (.ending false)) [])
  | .serving, .leave timedOut =>
    some (st.move st.manager (.callback login generation (.ending timedOut)) [])
  | .serving, .unread =>
    let m := st.manager
    some (st.move
      (if m.stopRequested then m
        else m.setErrorOf generation "Invalid or oversized OpenAI OAuth callback")
      (.callback login generation .serving) [])
  | .serving, .request none =>
    some (st.move (st.manager.setErrorOf generation "Invalid OpenAI OAuth callback")
      (.callback login generation .serving) [])
  | .serving, .request (some query) => some (st.processCallback login generation query)
  | .exchanging, .exchange transfer staged =>
    some (st.move st.manager (.callback login generation
      (match classifyExchange transfer (st.manager.cancelled generation) with
      | .ok => .exchanged staged
      | .cancelled => .ending false
      | _ => .failing)) [])
  | .exchanged none, .go => some (st.move st.manager (.callback login generation (.ending false)) [])
  | .exchanged (some staged), .storage ok =>
    let ending := Op.callback login generation (.ending false)
    some (st.completeCallbackTokens login generation staged ok ending ending)
  | .failing, .go =>
    some (st.move (st.manager.setErrorOf generation "OpenAI token exchange failed")
      (.callback login generation (.ending false)) [])
  | .ending timedOut, .go =>
    some (st.move (st.manager.callbackFinish generation timedOut) .ended [])
  | _, _ => none

/-- The beginning of `openai_oauth_device_start` behind its first section. -/
def deviceStartingMove (st : System) (thread : Option Nat) : Input → Option Move
  | .beginDevice loginId =>
    if st.joined thread then
      let m := st.manager
      if m.canBegin then
        let number := st.log.length
        some
          { manager := { m.beginLogin loginId with activeOperations := m.activeOperations + 1 }
            vault := st.vault
            login := number
            op := .deviceStart number (nextGeneration m.generation) .asking
            notes := [.began number] }
      else some (st.move m .ended [])
    else none
  | _ => none

/-- `openai_oauth_device_start` -/
def deviceStartMove (st : System) (login : Nat) (generation : UInt64) :
    DevicePhase → Input → Option Move
  | .asking, .registered transfer registration now =>
    let result := devicePost transfer (st.manager.cancelled generation)
    let status := transfer.status
    some (st.move st.manager (.deviceStart login generation
      (match registration.filter Registration.valid with
      | some r =>
        if result = .ok ∧ 200 ≤ status ∧ status < 300 then .asked r now
        else .failing (result = .cancelled)
      | none => .failing (result = .cancelled))) [])
  | .asked r now, .go =>
    let m := st.manager
    if m.generation = generation ∧ ¬m.stopRequested ∧ m.loginId.isSome then
      some (st.move { m with device := some (r.device now) }
        (.deviceStart login generation .finishing) [])
    else some (st.move m (.deviceStart login generation (.failing false)) [])
  | .failing cancelled, .go =>
    some (st.move (st.manager.deviceStartFailed generation
      (if cancelled then "OpenAI device login was cancelled"
        else "Could not start OpenAI device login"))
      (.deviceStart login generation .finishing) [])
  | .finishing, .go => some (st.move st.manager.activeOperationFinish .ended [])
  | _, _ => none

/-- `openai_oauth_device_poll` behind its first section. -/
def pollMove (st : System) (number login : Nat) (generation : UInt64) :
    PollPhase → Input → Option Move
  | .expired, .go =>
    some (st.move (st.manager.devicePollFinished generation .terminal) .ended [])
  | .asking, .polled transfer answer =>
    some (st.move st.manager (.poll login generation
      (match devicePost transfer (st.manager.cancelled generation) with
      | .ok =>
        match pollResult answer transfer.status with
        | (.pending, true) => .slowing
        | (.pending, false) => .releasing
        | (.complete, _) => .exchanging
        | (result, _) => .finishing result
      | _ => .releasing)) [])
  | .slowing, .clock now =>
    let m := st.manager.deviceSlowDown generation now
    some (st.move m (.poll login generation .releasing)
      (if st.manager.generation = generation then
        (m.device.map fun d => Note.slowed number now d.interval).toList else []))
  | .releasing, .go =>
    some (st.move (st.manager.devicePollReleased generation) .ended [.released number])
  | .exchanging, .exchange transfer staged =>
    some (st.move st.manager (.poll login generation
      (match classifyExchange transfer (st.manager.cancelled generation) with
      | .ok => .exchanged staged
      | .cancelled => .leaving
      | _ => .finishing .transient)) [])
  | .exchanged none, .go =>
    some (st.move st.manager (.poll login generation (.finishing .transient)) [])
  | .exchanged (some staged), .storage ok =>
    some (st.completeCallbackTokens login generation staged ok
      (.poll login generation (.finishing .complete))
      (.poll login generation (.finishing .transient)))
  | .finishing result, .go =>
    some (st.move (st.manager.devicePollFinished generation result)
      (.poll login generation .leaving) [])
  | .leaving, .go => some (st.move st.manager.activeOperationFinish .ended [.released number])
  | _, _ => none

/-- `refresh_credentials` behind its first section. -/
def refreshMove (st : System) (number : Nat) (generation : UInt64) :
    RefreshPhase → Input → Option Move
  | .exchanging, .exchange transfer staged =>
    some (st.move st.manager (.refresh number generation
      (match classifyExchange transfer (st.manager.cancelled generation) with
      | .ok => .exchanged (if staged.isSome then .ok else .transient) staged
      | result => .exchanged result none)) [])
  | .exchanged result staged, .storage ok =>
    let m := st.manager
    if m.cancelled generation then some (st.move (m.refreshFinished .cancelled) .ended [])
    else match result, staged with
      | .ok, some staged =>
        some (match st.keep number staged ok with
        | some kept => { kept with manager := kept.manager.refreshFinished .ok }
        | none => st.move
          ((m.setErrorLocked "Could not save refreshed OpenAI credentials").refreshFinished
            .transient) .ended [])
      | .permanent, _ =>
        some (match m.session with
        | none => st.move ((m.clearCredentialsLocked.setErrorLocked
            "OpenAI credentials are no longer valid").refreshFinished .permanent) .ended []
        | some session =>
          if ok then
            { st.move ((m.clearCredentialsLocked.setErrorLocked
                "OpenAI credentials are no longer valid").refreshFinished .permanent) .ended [] with
              vault := st.vault.delete session }
          else st.move ((m.setErrorLocked
            "Could not remove invalid OpenAI credentials").refreshFinished .transient) .ended [])
      | result, _ => some (st.move (m.refreshFinished result) .ended [])
  | _, _ => none

/-- A lifecycle operation behind its first section. -/
def stopMove (st : System) (kind : Lifecycle) (thread : Option Nat) : Input → Option Move
  | .storage ok =>
    let m := st.manager
    if st.joined thread ∧ ¬m.refreshInProgress ∧ m.activeOperations = 0 then
      match kind with
      | .cancelLogin _ => some (st.move m.stopFinished .ended [.completed])
      | .logout =>
        let m' := { m.clearPendingSensitiveLocked.stopFinished with lastRefreshResult := .signedOut }
        match m.session with
        | some session =>
          if ok then some
            { st.move m'.clearCredentialsLocked .ended [.completed] with
              vault := st.vault.delete session }
          else some (st.move m' .ended [.completed])
        | none => some (st.move m' .ended [.completed])
      | .attachSession session => some (st.move m.detach (.attaching session) [])
    else none
  | _ => none

/-- `openai_oauth_attach_session` when it has loaded. -/
def attachMove (st : System) (session : Option Nat) : Input → Option Move
  | .storage ok =>
    let loaded := match session with
      | none => some none
      | some s => if ok then some (st.vault.load s) else none
    some (st.move (st.manager.attachFinished session loaded) .ended [.completed])
  | _ => none

/-- How an operation goes on. -/
def advance (st : System) (number : Nat) : Op → Input → Option Move
  | .callback login generation phase, input => st.callbackMove login generation phase input
  | .deviceStarting thread, input => st.deviceStartingMove thread input
  | .deviceStart login generation phase, input => st.deviceStartMove login generation phase input
  | .poll login generation phase, input => st.pollMove number login generation phase input
  | .refresh own generation phase, input => st.refreshMove own generation phase input
  | .stopping kind thread, input => st.stopMove kind thread input
  | .attaching session, input => st.attachMove session input
  | op, input => st.startMove op input

/-! ## The first sections -/

/-- `openai_oauth_start` and `openai_oauth_device_start` reap the thread before. -/
def reap (st : System) (op : Option Nat → Op) : Option Move :=
  st.manager.reapPreviousCallback.map fun reaped => st.move reaped.2 (op reaped.1) []

/-- `openai_oauth_device_poll` -/
def openaiOauthDevicePoll (st : System) (loginId : String) (now : Nat) : Option Move :=
  let m := st.manager
  match m.device with
  | none => none
  | some d =>
    if ¬m.callbackActive ∨ m.loginId ≠ some loginId then none
    else if d.expiresAt ≤ now then
      some (st.move m (.poll st.login m.generation .expired) [])
    else if d.pollInProgress ∨ now < d.nextPoll then none
    else some (st.move
      { m with device := some (Manager.beginPoll d now), activeOperations := m.activeOperations + 1 }
      (.poll st.login m.generation .asking) [.polled st.ops.length now d.interval])

/-- `needs_refresh` -/
def needsRefresh (expiresAt : Int) (now : Nat) : Bool :=
  expiresAt ≤ now || expiresAt - now ≤ 300

/-- Whether `refresh_credentials` asks the server. -/
def refreshes (request : TokenRequest) (c : Credentials) (now : Nat) : Bool :=
  match request with
  | .ifDue => needsRefresh c.expiresAt now
  | .force => true
  | .after401 rejected => c.accessToken = rejected

/-- `get_access_token_internal` and `openai_oauth_refresh_after_401`, up to the exchange.  A caller
that finds a refresh under way waits for it and changes nothing. -/
def getAccessToken (st : System) (request : TokenRequest) (now : Nat) : Option Move :=
  let m := st.manager
  match m.session, m.credentials with
  | some _, some c =>
    if m.destroying ∨ m.stopRequested ∨ m.refreshInProgress ∨ ¬refreshes request c now then none
    else some (st.move { m with refreshInProgress := true }
      (.refresh st.log.length m.generation .exchanging) [.began st.log.length])
  | _, _ => none

/-- Whether a lifecycle operation can begin. -/
def canStop (m : Manager) : Lifecycle → Bool
  | .cancelLogin loginId =>
    m.callbackActive && m.loginId = some loginId && !m.destroying && !m.lifecycleBusy
  | _ => !m.destroying && !m.lifecycleBusy

/-- `openai_oauth_cancel_login`, `openai_oauth_logout` and `openai_oauth_attach_session`, before the
join. -/
def stop (st : System) (kind : Lifecycle) : Option Move :=
  if canStop st.manager kind then
    let taken := { st.manager with lifecycleBusy := true }.cancelCallbackLocked.takeCallbackThreadLocked
    some (st.move taken.2 (.stopping kind taken.1) [.stopped])
  else none

/-- An operation begins; one that is refused changes nothing, and there is no step. -/
def call (st : System) : Event → Option Move
  | .start => st.reap .starting
  | .deviceStart => st.reap .deviceStarting
  | .poll loginId now => st.openaiOauthDevicePoll loginId now
  | .refresh request now => st.getAccessToken request now
  | .stop kind => st.stop kind
  | .advance _ _ => none

/-- The state behind a section of an operation. -/
def behind (st : System) (ops : List Op) (move : Move) : System where
  manager := move.manager
  vault := move.vault
  ops := ops ++ move.spawned.toList
  login := move.login
  log := st.log ++ move.notes

/-- One step. -/
def step (st : System) : Event → Option System
  | .advance number input => do
    let op ← st.ops[number]?
    let move ← st.advance number op input
    return st.behind (st.ops.set number move.op) move
  | event => (st.call event).map fun move => st.behind (st.ops ++ [move.op]) move

end System

theorem System.behind_of_spawned {st : System} {ops : List Op} {mv : Move} (h : mv.spawned = none) :
    st.behind ops mv =
      { manager := mv.manager, vault := mv.vault, ops, login := mv.login, log := st.log ++ mv.notes } := by
  rw [System.behind, h, Option.toList_none, List.append_nil]

end EchoAi.Oauth
