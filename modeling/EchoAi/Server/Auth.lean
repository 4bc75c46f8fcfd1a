import EchoAi.Chronicle
import EchoAi.Json.Wire
import EchoAi.Server.Middleware
import EchoAi.Session.InitEncryption
import EchoAi.Utils.RateLimiter

/-!
# Unlocking the server

A password opens the server and draws a token, with which further requests come.

* `handleSetup`, `handleUnlock`, `handleLogout`, `handleChangePassword`, `handleStatus`: what is asked
  without a session.
* `routes`, `handleRequest`: which requests need the token, and how they are sent on.
* `wsChatOnMessage`: what a socket is still good for.
* `Site`, `step`: requests and frames one after the other, with a log of what became of them.

What lies behind the gates is not followed, and neither is what the storage does: a request comes with
what it finds there.
-/

namespace EchoAi.Auth

open Middleware RateLimits

/-! ## Requests and what they find -/

/-- `HTTPRequest`, with the bytes of its texts; a missing body is an empty one. -/
structure HttpRequest where
  method : List UInt8
  path : List UInt8
  query : List UInt8
  headers : List UInt8
  body : List UInt8
  ip : List UInt8
  deriving DecidableEq

/-- What a request finds: the clock when it is let in and when it is done, where the database of the
rate limiter fails, and the outcomes of copying a password and a second one, of building a path, of
opening the storage with the password, of drawing random bytes, of detaching the login, of changing
the password and of shaking hands. -/
structure Surroundings where
  now : Int
  later : Int
  sql : List SqlSite
  copied : Bool
  nextCopied : Bool
  home : Bool
  path : Bool
  created : SessionManagerCreateResult
  random : Option (Vector UInt8 32)
  detached : Bool
  changed : Int
  upgraded : Bool
  deriving DecidableEq

/-- Where the database of the rate limiter fails. -/
def Surroundings.faults (env : Surroundings) : Faults SqlSite := fun site => decide (site ∈ env.sql)

/-- The server: the gates' part, `auth_generation`, whether there is a session manager, the rate
limiter, and the generation of each socket. -/
structure Server extends ServerContext where
  generation : Nat
  manager : Bool
  limiter : Option (RateLimiter (List UInt8))
  sockets : List Nat
  deriving DecidableEq

/-- The functions of the route table. -/
inductive Handler where
  | status
  | health
  | healthDetailed
  | config
  | setup
  | unlock
  | logout
  | models
  | providers
  | sessions
  | createSession
  | sessionsRename
  | sessionGet
  | sessionDelete
  | sessionUpdate
  | sessionImport
  | changePassword
  | openaiOauthStatus
  | openaiOauthStart
  | openaiOauthLogout
  | chat
  | sseStream
  | metrics
  | undo
  | redo
  deriving DecidableEq, Repr

/-- What is answered: an error, a token, one of the other answers of this module, or what a handler
makes of it. -/
inductive Reply where
  | error (status : Nat) (text : String)
  | granted (token : Option (List UInt8))
  | status (locked needsSetup sessionEnabled : Bool)
  | loggedOut
  | changed
  | noContent
  | upgraded
  | handled (handler : Handler)
  | file
  deriving DecidableEq

/-! ## Handlers -/

/-- The digits of a byte. -/
def hexPair (b : UInt8) : List UInt8 :=
  [b / 16, b % 16].map fun d => if d < 10 then 48 + d else 87 + d

/-- `generate_unlock_token` -/
def generateUnlockToken (random : Option (Vector UInt8 32)) : Option (List UInt8) :=
  random.map fun bytes => ascii "tok_" ++ bytes.toList.flatMap hexPair

/-- `middleware_check_unlock` -/
def middlewareCheckUnlock (ctx : ServerContext) (headers : List UInt8) : Bool :=
  match ctx.unlockToken with
  | none => false
  | some token =>
    if ctx.state ≠ .unlocked then false
    else if token = ascii "noop" then true
    else middlewareHasValidToken headers token

/-- The next value of a counter of 64 bits. -/
def nextGeneration (generation : Nat) : Nat := (generation + 1) % 2 ^ 64

/-- The storage is open, and a new token is good for it. -/
def Server.install (s : Server) (token : List UInt8) : Server :=
  { s with
    unlockToken := some token
    state := .unlocked
    generation := nextGeneration s.generation
    manager := true }

/-- The attempts at a password that an address and all together have, `5` and `20`. -/
def Server.unlockAllowed (s : Server) (env : Surroundings) (ip : List UInt8) : Bool :=
  match s.limiter with
  | none => true
  | some rl => rateLimiterUnlockAllowed env.faults env.now (some ip) 5 20 rl

/-- A password was wrong. -/
def Server.recordFailure (s : Server) (env : Surroundings) (ip : List UInt8) : Server :=
  { s with limiter := s.limiter.map (rateLimiterRecordUnlockFailure env.faults env.later (some ip)) }

section Handlers

variable (J : WireJson) (env : Surroundings) (req : HttpRequest) (s : Server)

/-- A text of the body. -/
def bodyText (json : JsonValue) (name : String) : Option String :=
  (json.member name).bind JsonValue.stringValue

/-- `handle_setup` -/
def handleSetup : Reply × Server :=
  if s.state ≠ .setup then (.error 400 "already configured", s)
  else if req.body = [] then (.error 400 "missing password", s)
  else
    match J.parse (cString req.body) with
    | none => (.error 400 "invalid json", s)
    | some json =>
      match bodyText json "password" with
      | none => (.error 400 "password must be at least 8 characters", s)
      | some password =>
        if password.utf8ByteSize < 8 then
          (.error 400 "password must be at least 8 characters", s)
        else if !env.copied then (.error 500 "oom", s)
        else if !env.home then (.error 500 "HOME not set", s)
        else if !env.path then (.error 500 "out of memory", s)
        else if env.created ≠ .ok then (.error 500 "failed to initialize session manager", s)
        else
          match generateUnlockToken env.random with
          | none => (.error 500 "failed to generate unlock token", s)
          | some token => (.granted (some token), s.install token)

/-- `handle_unlock` -/
def handleUnlock : Reply × Server :=
  if s.state = .unlocked ∧ (s.unlockToken.map (middlewareHasValidToken req.headers)).getD false then
    (.granted s.unlockToken, s)
  else if s.state ≠ .locked ∧ s.state ≠ .unlocked then (.error 400 "not locked", s)
  else if !s.unlockAllowed env req.ip then
    (.error 429 "too many unlock attempts, try again later", s)
  else if req.body = [] then (.error 400 "missing password", s)
  else
    match J.parse (cString req.body) with
    | none => (.error 400 "invalid json", s)
    | some json =>
      match bodyText json "password" with
      | none => (.error 400 "missing password", s)
      | some _ =>
        if !env.copied then (.error 500 "oom", s)
        else if !env.home then (.error 500 "HOME not set", s)
        else if !env.path then (.error 500 "oom", s)
        else
          match env.created with
          | .authFailed => (.error 401 "wrong password", s.recordFailure env req.ip)
          | .storageFailed => (.error 500 "session storage unavailable", s)
          | .ok =>
            match generateUnlockToken env.random with
            | none => (.error 500 "failed to generate unlock token", s)
            | some token =>
              -- The server was opened before: its token stays.
              if s.state = .unlocked then (.granted s.unlockToken, s)
              else (.granted (some token), s.install token)

/-- `handle_logout` -/
def handleLogout : Reply × Server :=
  if !middlewareCheckUnlock s.toServerContext req.headers then (.error 401 "unauthorized", s)
  else if !env.detached then (.error 500 "failed to lock credential storage", s)
  else
    (.loggedOut, { s with
      unlockToken := none
      state := .locked
      generation := nextGeneration s.generation
      manager := false })

/-- `handle_change_password` -/
def handleChangePassword : Reply × Server :=
  if !s.manager then (.error 400 "session manager not available", s)
  else if req.body = [] then (.error 400 "missing body", s)
  else if !s.unlockAllowed env req.ip then (.error 429 "too many attempts, try again later", s)
  else
    match J.parse (cString req.body) with
    | none => (.error 400 "invalid json", s)
    | some json =>
      match bodyText json "current_password" with
      | none => (.error 400 "current password is required", s)
      | some _ =>
        if !env.copied then (.error 500 "oom", s)
        else
          match bodyText json "new_password" with
          | none => (.error 400 "new password must be at least 8 characters", s)
          | some next =>
            if next.utf8ByteSize < 8 then
              (.error 400 "new password must be at least 8 characters", s)
            else if !env.nextCopied then (.error 500 "oom", s)
            else if (bodyText json "confirm").any (· ≠ next) then
              (.error 400 "new passwords do not match", s)
            else if !env.home then (.error 500 "HOME not set", s)
            else if !env.path then (.error 500 "oom", s)
            else
              match env.created with
              | .authFailed =>
                (.error 401 "current password is incorrect", s.recordFailure env req.ip)
              | .storageFailed => (.error 500 "session storage unavailable", s)
              | .ok =>
                if env.changed = -2 then
                  (.error 500 "password changed but activation is incomplete; restart and unlock with the new password", s)
                else if env.changed ≠ 0 then (.error 500 "password change failed", s)
                else (.changed, s)

/-- `handle_status` -/
def handleStatus : Reply :=
  let shut := s.state = .unlocked ∧
    s.unlockToken.any fun token => token ≠ ascii "noop" && !middlewareHasValidToken req.headers token
  .status (s.state = .locked ∨ shut) (s.state = .setup) s.manager

/-- The handler of a route. -/
def Handler.run (h : Handler) : Reply × Server :=
  match h with
  | .setup => handleSetup J env req s
  | .unlock => handleUnlock J env req s
  | .logout => handleLogout env req s
  | .changePassword => handleChangePassword J env req s
  | .status => (handleStatus req s, s)
  | h => (.handled h, s)

end Handlers

/-! ## Routes -/

/-- `Route` -/
structure Route where
  method : List UInt8
  path : List UInt8
  isPrefix : Bool
  needsUnlock : Bool
  unlockViaQuery : Bool
  handler : Handler

/-- A row of the table. -/
def route (method path : String) (isPrefix needsUnlock unlockViaQuery : Bool) (handler : Handler) :
    Route :=
  { method := ascii method, path := ascii path, isPrefix, needsUnlock, unlockViaQuery, handler }

/-- `routes` -/
def routes : List Route := [
  route "GET" "/api/status" false false false .status,
  route "GET" "/api/health" false false false .health,
  route "GET" "/api/health/detailed" false true false .healthDetailed,
  route "GET" "/api/config" false false false .config,
  route "POST" "/api/setup" false false false .setup,
  route "POST" "/api/unlock" false false false .unlock,
  route "POST" "/api/logout" false true false .logout,
  route "GET" "/api/models" false false false .models,
  route "GET" "/api/providers" false false false .providers,
  route "GET" "/api/sessions" false true false .sessions,
  route "POST" "/api/sessions" false true false .createSession,
  route "POST" "/api/sessions/rename" false true false .sessionsRename,
  route "GET" "/api/sessions/" true true false .sessionGet,
  route "DELETE" "/api/sessions/" true true false .sessionDelete,
  route "PUT" "/api/sessions/" true true false .sessionUpdate,
  route "POST" "/api/sessions/import" false true false .sessionImport,
  route "POST" "/api/change-password" false true false .changePassword,
  route "GET" "/api/auth/openai/status" false true false .openaiOauthStatus,
  route "POST" "/api/auth/openai/start" false true false .openaiOauthStart,
  route "POST" "/api/auth/openai/logout" false true false .openaiOauthLogout,
  route "POST" "/api/chat" false true false .chat,
  route "GET" "/api/stream" false true true .sseStream,
  route "GET" "/api/metrics" false false false .metrics,
  route "POST" "/api/undo" false true false .undo,
  route "POST" "/api/redo" false true false .redo]

/-- `route_match` -/
def routeMatch (method path : List UInt8) (r : Route) : Bool :=
  method == r.method && if r.isPrefix then r.path.isPrefixOf path else path == r.path

/-- The gate of a route. -/
def authorized (s : Server) (req : HttpRequest) (r : Route) : Bool :=
  if r.unlockViaQuery then middlewareCheckUnlockQuery s.toServerContext req.query
  else middlewareCheckUnlock s.toServerContext req.headers

/-- The gate of the socket. -/
def wsAuthorized (s : Server) (req : HttpRequest) : Bool :=
  match s.unlockToken with
  | none => false
  | some token =>
    if s.state ≠ .unlocked then false
    else if token = ascii "noop" then true
    else middlewareHasValidWsToken req.headers token

/-- `rate_limiter_allow` at the head of `handle_request`. -/
def Server.allow (s : Server) (env : Surroundings) (ip : List UInt8) : Bool × Server :=
  match s.limiter with
  | none => (true, s)
  | some rl =>
    let answer := rateLimiterAllow env.faults env.now (some ip) rl
    (answer.1, { s with limiter := some answer.2 })

variable (J : WireJson)

/-- `handle_request` of a request that is within the limit. -/
def dispatch (env : Surroundings) (req : HttpRequest) (s : Server) : Reply × Server :=
  if req.method = ascii "OPTIONS" then (.noContent, s)
  else if req.path = ascii "/ws/chat" ∧ req.method = ascii "GET" then
    if !wsAuthorized s req then (.error 401 "unauthorized", s)
    else if env.upgraded then (.upgraded, { s with sockets := s.sockets ++ [s.generation] })
    else (.error 400 "websocket upgrade failed", s)
  else
    match routes.find? (routeMatch req.method req.path) with
    | some r =>
      if r.needsUnlock && !authorized s req r then (.error 401 "unauthorized", s)
      else r.handler.run J env req s
    | none =>
      if req.method = ascii "GET" then (.file, s) else (.error 404 "not found", s)

/-- `handle_request` -/
def handleRequest (env : Surroundings) (req : HttpRequest) (s : Server) : Reply × Server :=
  let answer := s.allow env req.ip
  if answer.1 then dispatch J env req answer.2
  else (.error 429 "too many requests", answer.2)

/-- Whether `ws_chat_on_message` goes on with a frame. -/
def wsChatOnMessage (s : Server) (generation : Nat) : Bool :=
  decide (s.state = .unlocked ∧ s.generation = generation)

/-! ## Runs -/

/-- What happened: a request with what it found and what was answered, and a frame of a socket that
was taken or not. -/
inductive Note where
  | answered (env : Surroundings) (req : HttpRequest) (reply : Reply)
  | frame (i : Nat) (taken : Bool)
  deriving DecidableEq

/-- What comes in. -/
inductive Event where
  | request (env : Surroundings) (req : HttpRequest)
  | message (i : Nat)

/-- The server and what happened so far. -/
structure Site where
  server : Server
  log : List Note
  deriving DecidableEq

/-- The next request or frame. -/
def step (t : Site) : Event → Option Site
  | .request env req =>
    let answer := handleRequest J env req t.server
    some { server := answer.2, log := t.log ++ [.answered env req answer.1] }
  | .message i =>
    (t.server.sockets[i]?).map fun generation =>
      { t with log := t.log ++ [.frame i (wsChatOnMessage t.server generation)] }

/-- A server with sessions: it waits for its first password or is locked. -/
def start (setup : Bool) (limiter : Option (RateLimiter (List UInt8))) : Site where
  server := {
    state := if setup then .setup else .locked
    unlockToken := none
    generation := 0
    manager := false
    limiter
    sockets := [] }
  log := []

end EchoAi.Auth
