import Mathlib.Data.List.Basic

/-!
# The OAuth manager

Logins, refreshes and the operations that stop them share one manager.  Each of them takes its lock
for a moment, works without it, and takes it again.

* `Manager`: what the lock protects; `cancelCallbackLocked`, `beginLogin`, `devicePollFinished`,
  `refreshFinished` and the others: what is done to it under the lock.
* `classifyExchange`, `devicePost`, `pollResult`: what is made of an answer of the server.

The sockets of a callback thread are not there.
-/

namespace EchoAi.Oauth

/-- `OAuthCredentials` -/
structure Credentials where
  accessToken : String
  refreshToken : String
  accountId : Option String := none
  planType : Option String := none
  expiresAt : Int := 0
  deriving DecidableEq, Repr

/-- `OpenAIOAuthTokenResult` -/
inductive TokenResult where
  | ok
  | signedOut
  | transient
  | permanent
  | cancelled
  deriving DecidableEq, Repr

/-- `OpenAIOAuthDeviceResult`, behind an answer of the server. -/
inductive DeviceResult where
  | complete
  | pending
  | transient
  | terminal
  deriving DecidableEq, Repr

/-- The secrets of a browser login. -/
structure PendingCallback where
  state : String
  verifier : String
  challenge : String
  deriving DecidableEq, Repr

/-- The transaction of a device login. -/
structure PendingDevice where
  deviceAuthId : String
  userCode : String
  expiresAt : Nat
  nextPoll : Nat
  interval : Nat
  pollInProgress : Bool := false
  deriving DecidableEq, Repr

/-- `OpenAIOAuth`.  A thread is the number of its operation, a session is a number. -/
structure Manager where
  callbackThread : Nat := 0
  threadJoinable : Bool := false
  callbackActive : Bool := false
  callbackReady : Bool := false
  callbackRc : Int := 0
  stopRequested : Bool := false
  destroying : Bool := false
  lifecycleBusy : Bool := false
  activeOperations : Nat := 0
  refreshInProgress : Bool := false
  lastRefreshResult : TokenResult := .signedOut
  generation : UInt64 := 0
  tokenVersion : UInt64 := 0
  callback : Option PendingCallback := none
  loginId : Option String := none
  device : Option PendingDevice := none
  credentials : Option Credentials := none
  lastError : Option String := none
  session : Option Nat := none
  deriving DecidableEq, Repr

/-- `next_generation` -/
def nextGeneration (value : UInt64) : UInt64 :=
  if value = 0xFFFFFFFFFFFFFFFF then 1 else value + 1

/-- The credentials of a session's vault. -/
abbrev Vault := List (Nat × Credentials)

/-- `session_manager_save_provider_oauth` -/
def Vault.save (v : Vault) (session : Nat) (c : Credentials) : Vault :=
  (session, c) :: v.filter fun row => row.1 ≠ session

/-- `session_manager_delete_provider_oauth` -/
def Vault.delete (v : Vault) (session : Nat) : Vault := v.filter fun row => row.1 ≠ session

/-- `session_manager_load_provider_oauth_ex` -/
def Vault.load (v : Vault) (session : Nat) : Option Credentials :=
  (v.find? fun row => row.1 = session).map Prod.snd

namespace Manager

/-! ## Under the lock -/

/-- `set_error_locked` -/
def setErrorLocked (m : Manager) (message : String) : Manager := { m with lastError := some message }

/-- `clear_credentials_locked` -/
def clearCredentialsLocked (m : Manager) : Manager := { m with credentials := none }

/-- `clear_pending_sensitive_locked` -/
def clearPendingSensitiveLocked (m : Manager) : Manager := { m with callback := none, device := none }

/-- `commit_credentials_locked` -/
def commitCredentialsLocked (m : Manager) (staged : Credentials) : Manager :=
  { m with credentials := some staged, tokenVersion := nextGeneration m.tokenVersion }

/-- Whether an operation of a generation is stopped or superseded. -/
def cancelled (m : Manager) (generation : UInt64) : Bool :=
  m.generation ≠ generation || m.stopRequested || m.destroying

/-- `cancel_callback_locked` -/
def cancelCallbackLocked (m : Manager) : Manager :=
  { m.clearPendingSensitiveLocked with
    generation := nextGeneration m.generation
    stopRequested := true
    callbackActive := false }

/-- `take_callback_thread_locked` -/
def takeCallbackThreadLocked (m : Manager) : Option Nat × Manager :=
  if m.threadJoinable then (some m.callbackThread, { m with threadJoinable := false })
  else (none, m)

/-- `reap_previous_callback`, before the join. -/
def reapPreviousCallback (m : Manager) : Option (Option Nat × Manager) :=
  if m.callbackActive || m.destroying || m.lifecycleBusy then none
  else some m.takeCallbackThreadLocked

/-- Whether a login can begin. -/
def canBegin (m : Manager) : Bool := m.session.isSome && !m.callbackActive && !m.destroying

/-- What the beginnings of both kinds of login share. -/
def beginLogin (m : Manager) (loginId : String) : Manager :=
  { m.clearPendingSensitiveLocked with
    loginId := some loginId
    lastError := none
    generation := nextGeneration m.generation
    stopRequested := false
    callbackActive := true }

/-- The beginning of a browser login with its thread. -/
def beginCallback (m : Manager) (loginId : String) (callback : PendingCallback) (thread : Nat) :
    Manager :=
  { m.beginLogin loginId with
    callback := some callback
    callbackReady := false
    callbackRc := -1
    callbackThread := thread
    threadJoinable := true }

/-- The same when the thread is not created. -/
def beginCallbackFailed (m : Manager) (loginId : String) : Manager :=
  { m.beginLogin loginId with
    callbackReady := false
    callbackRc := -1
    callbackActive := false
    loginId := none }

/-- `openai_oauth_start` behind a listener that failed, before the join. -/
def startFailed (m : Manager) : Manager := { m with threadJoinable := false, stopRequested := true }

/-- The same behind the join. -/
def startCleanup (m : Manager) : Manager :=
  { m.clearPendingSensitiveLocked with loginId := none, stopRequested := false }

/-- `callback_publish_failure` -/
def callbackPublishFailure (m : Manager) (generation : UInt64) : Manager :=
  if m.generation = generation then { m with callbackReady := true, callbackRc := -1 } else m

/-- `callback_publish_listener` of a listener that is still wanted. -/
def callbackPublishListener (m : Manager) : Manager :=
  { m with callbackReady := true, callbackRc := 0 }

/-- `callback_finish` -/
def callbackFinish (m : Manager) (generation : UInt64) (timedOut : Bool) : Manager :=
  if m.generation = generation then
    let m := if timedOut && !m.stopRequested then m.setErrorLocked "OpenAI login timed out" else m
    { m.clearPendingSensitiveLocked with callbackActive := false }
  else m

/-- An error of an operation whose generation is the current one. -/
def setErrorOf (m : Manager) (generation : UInt64) (message : String) : Manager :=
  if m.generation = generation then m.setErrorLocked message else m

/-- `device_start_failed` -/
def deviceStartFailed (m : Manager) (generation : UInt64) (message : String) : Manager :=
  if m.generation = generation then
    { m.clearPendingSensitiveLocked with loginId := none, callbackActive := false }.setErrorLocked
      message
  else m

/-- `active_operation_finish` -/
def activeOperationFinish (m : Manager) : Manager :=
  { m with activeOperations := m.activeOperations - 1 }

/-- `device_poll_finished` -/
def devicePollFinished (m : Manager) (generation : UInt64) (result : DeviceResult) : Manager :=
  if m.generation = generation then
    let m := { m.clearPendingSensitiveLocked with callbackActive := false }
    if result = .terminal then m.setErrorLocked "OpenAI device login was rejected or expired"
    else if result ≠ .complete then m.setErrorLocked "OpenAI device login failed"
    else m
  else m

/-- `device_poll_released` -/
def devicePollReleased (m : Manager) (generation : UInt64) : Manager :=
  { m with
    device := if m.generation = generation then
        m.device.map fun d => { d with pollInProgress := false }
      else m.device
    activeOperations := m.activeOperations - 1 }

/-- The transaction behind a `slow_down`. -/
def slowDown (d : PendingDevice) (now : Nat) : PendingDevice :=
  if d.interval ≤ 0xFFFFFFFF - 5 then
    { d with interval := d.interval + 5, nextPoll := now + (d.interval + 5) }
  else d

/-- A `slow_down` of the server. -/
def deviceSlowDown (m : Manager) (generation : UInt64) (now : Nat) : Manager :=
  if m.generation = generation then { m with device := m.device.map (slowDown · now) } else m

/-- The transaction when a poll begins. -/
def beginPoll (d : PendingDevice) (now : Nat) : PendingDevice :=
  { d with nextPoll := now + d.interval, pollInProgress := true }

/-- The end of a refresh, with its result. -/
def refreshFinished (m : Manager) (result : TokenResult) : Manager :=
  { m with lastRefreshResult := result, refreshInProgress := false }

/-- `openai_oauth_cancel_login` and `openai_oauth_logout` at their end. -/
def stopFinished (m : Manager) : Manager :=
  { m with loginId := none, lastError := none, stopRequested := false, lifecycleBusy := false }

/-- `openai_oauth_attach_session` before it loads. -/
def detach (m : Manager) : Manager :=
  { m.clearCredentialsLocked with session := none, loginId := none }

/-- `openai_oauth_attach_session` at its end; what was loaded is absent when it is not valid. -/
def attachFinished (m : Manager) (session : Option Nat) (loaded : Option (Option Credentials)) :
    Manager :=
  if m.destroying then { m with lifecycleBusy := false }
  else
    let m := { m with session, stopRequested := false, lifecycleBusy := false }
    match loaded with
    | none => m.setErrorLocked "Stored OpenAI credentials are invalid"
    | some none => { m with lastError := none }
    | some (some staged) => { m.commitCredentialsLocked staged with lastError := none }

end Manager

/-! ## The network -/

/-- A request to the server: it is aborted by its progress callback, it fails, or there is an answer
with a status, with a body or without one. -/
inductive Transfer where
  | aborted
  | failed
  | answered (status : Int) (body : Bool)
  deriving DecidableEq, Repr

/-- A status that may be different the next time. -/
def retryable (status : Int) : Bool :=
  status = 408 || status = 425 || status = 429 || 500 ≤ status

/-- `classify_exchange`, and `exchange_token` on an answer without a body. -/
def classifyExchange (transfer : Transfer) (cancelled : Bool) : TokenResult :=
  if cancelled then .cancelled
  else match transfer with
    | .aborted => .cancelled
    | .failed => .transient
    | .answered status body =>
      if 200 ≤ status ∧ status < 300 then (if body then .ok else .transient)
      else if retryable status then .transient
      else .permanent

/-- The result of `device_post`. -/
def devicePost (transfer : Transfer) (cancelled : Bool) : TokenResult :=
  if cancelled then .cancelled
  else match transfer with
    | .aborted => .cancelled
    | .failed => .transient
    | .answered _ _ => .ok

/-- The status of an answer. -/
def Transfer.status : Transfer → Int
  | .answered status _ => status
  | _ => 0

/-- What a registration says. -/
structure Registration where
  deviceAuthId : String
  userCode : String
  interval : Nat
  expiresIn : Nat
  deriving DecidableEq, Repr

/-- The bounds of `parse_device_start`. -/
def Registration.valid (r : Registration) : Bool :=
  1 ≤ r.interval && r.interval ≤ 300 && 1 ≤ r.expiresIn && r.expiresIn ≤ 3600

/-- The transaction of a registration. -/
def Registration.device (r : Registration) (now : Nat) : PendingDevice :=
  { deviceAuthId := r.deviceAuthId
    userCode := r.userCode
    interval := r.interval
    nextPoll := now + r.interval
    expiresAt := now + r.expiresIn }

/-- What an answer to a poll says: its error, and whether `parse_device_authorization` succeeds. -/
structure PollAnswer where
  error : Option String := none
  authorized : Bool := false
  deriving DecidableEq, Repr

/-- `device_error_result` and whether it is a `slow_down`. -/
def deviceErrorResult (answer : PollAnswer) (status : Int) : DeviceResult × Bool :=
  if answer.error = some "authorization_pending" then (.pending, false)
  else if answer.error = some "slow_down" then (.pending, true)
  else if retryable status then (.transient, false)
  else (.terminal, false)

/-- What `openai_oauth_device_poll` makes of an answer, and whether it is a `slow_down`. -/
def pollResult (answer : PollAnswer) (status : Int) : DeviceResult × Bool :=
  if 200 ≤ status ∧ status < 300 then
    (if answer.authorized then .complete else .transient, false)
  else deviceErrorResult answer status

/-- What a request to the callback server carries, when it is well formed. -/
structure CallbackQuery where
  state : String
  denial : Bool := false
  deriving DecidableEq, Repr

end EchoAi.Oauth
