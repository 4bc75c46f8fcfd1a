import EchoAi.Server.Auth

/-!
# Who gets behind the gates

* `Change`, `change_handleRequest`: what a request can do to the server.
* `Gate`, `gateOf`, `passes_of_handleRequest`: where a request has to bring its token.
* `Minted`: a token that was drawn for a password since the last logout.
* `opened_by_password`: nobody gets behind a gate without such a token.
* `status_iff_checkUnlock`: what a client is told of it.
* `closed_by_logout`: neither a token nor a socket outlives a logout.
-/

namespace EchoAi.Auth

open Middleware RateLimits

variable {J : WireJson} {env : Surroundings} {req : HttpRequest} {s : Server}

/-! ## What a request does -/

/-- The storage was opened with the password of the request. -/
def Proved (J : WireJson) (env : Surroundings) (req : HttpRequest) : Prop :=
  env.created = .ok ∧ ∃ json password, J.parse (cString req.body) = some json ∧
    bodyText json "password" = some password

/-- An answer that says nothing about tokens and sockets. -/
def Reply.isPlain : Reply → Bool
  | .granted _ | .loggedOut | .upgraded => false
  | _ => true

/-- What a request can do to the server, with what it is answered. -/
inductive Change (J : WireJson) (env : Surroundings) (req : HttpRequest) (s : Server) :
    Reply × Server → Prop
  | plain (limiter : Option (RateLimiter (List UInt8))) (reply : Reply) (h : reply.isPlain = true) :
    Change J env req s (reply, { s with limiter })
  | again (limiter : Option (RateLimiter (List UInt8))) (hopen : s.state = .unlocked) :
    Change J env req s (.granted s.unlockToken, { s with limiter })
  | opens (limiter : Option (RateLimiter (List UInt8))) (token : List UInt8)
    (hshut : s.state ≠ .unlocked) (hdrawn : generateUnlockToken env.random = some token)
    (hproved : Proved J env req) :
    Change J env req s (.granted (some token), { s.install token with limiter })
  | leaves (limiter : Option (RateLimiter (List UInt8))) :
    Change J env req s (.loggedOut, { s with
      limiter, unlockToken := none, state := .locked
      generation := nextGeneration s.generation, manager := false })
  | upgrades (limiter : Option (RateLimiter (List UInt8))) :
    Change J env req s (.upgraded, { s with limiter, sockets := s.sockets ++ [s.generation] })

theorem change_plain {reply : Reply} (h : reply.isPlain = true) : Change J env req s (reply, s) :=
  .plain s.limiter reply h

/-- A condition that does not matter for what follows. -/
theorem change_ite {p : Prop} [Decidable p] {a b : Reply × Server} (ha : p → Change J env req s a)
    (hb : ¬p → Change J env req s b) : Change J env req s (if p then a else b) :=
  iteInduction (motive := Change J env req s) ha hb

/-- A request that is answered with an error. -/
theorem change_error {p : Prop} [Decidable p] {status : Nat} {text : String} {b : Reply × Server}
    (hb : ¬p → Change J env req s b) :
    Change J env req s (if p then (.error status text, s) else b) :=
  change_ite (fun _ => change_plain rfl) hb

theorem change_handleSetup : Change J env req s (handleSetup J env req s) := by
  unfold handleSetup
  refine change_error fun hsetup => change_error fun _ => ?_
  rw [not_not] at hsetup
  cases hjson : J.parse (cString req.body) with
  | none => exact change_plain rfl
  | some json =>
    dsimp only
    cases hpassword : bodyText json "password" with
    | none => exact change_plain rfl
    | some password =>
      dsimp only
      refine change_error fun _ => change_error fun _ => change_error fun _ => change_error fun _ =>
        change_error fun hcreated => ?_
      rw [not_not] at hcreated
      cases hdrawn : generateUnlockToken env.random with
      | none => exact change_plain rfl
      | some token =>
        exact .opens s.limiter token (by simp [hsetup]) hdrawn
          ⟨hcreated, json, password, hjson, hpassword⟩

theorem change_handleUnlock : Change J env req s (handleUnlock J env req s) := by
  unfold handleUnlock
  refine change_ite (fun hopen => .again s.limiter hopen.1) fun _ => change_error fun _ =>
    change_error fun _ => change_error fun _ => ?_
  cases hjson : J.parse (cString req.body) with
  | none => exact change_plain rfl
  | some json =>
    dsimp only
    cases hpassword : bodyText json "password" with
    | none => exact change_plain rfl
    | some password =>
      dsimp only
      refine change_error fun _ => change_error fun _ => change_error fun _ => ?_
      cases hcreated : env.created with
      | authFailed => exact .plain _ _ rfl
      | storageFailed => exact change_plain rfl
      | ok =>
        dsimp only
        cases hdrawn : generateUnlockToken env.random with
        | none => exact change_plain rfl
        | some token =>
          exact change_ite (fun hopen => .again s.limiter hopen) fun hshut =>
            .opens s.limiter token hshut hdrawn ⟨hcreated, json, password, hjson, hpassword⟩

theorem change_handleLogout : Change J env req s (handleLogout env req s) := by
  unfold handleLogout
  exact change_error fun _ => change_error fun _ => .leaves s.limiter

theorem change_handleChangePassword : Change J env req s (handleChangePassword J env req s) := by
  unfold handleChangePassword
  refine change_error fun _ => change_error fun _ => change_error fun _ => ?_
  cases J.parse (cString req.body) with
  | none => exact change_plain rfl
  | some json =>
    dsimp only
    cases bodyText json "current_password" with
    | none => exact change_plain rfl
    | some current =>
      dsimp only
      refine change_error fun _ => ?_
      cases bodyText json "new_password" with
      | none => exact change_plain rfl
      | some next =>
        dsimp only
        refine change_error fun _ => change_error fun _ => change_error fun _ =>
          change_error fun _ => change_error fun _ => ?_
        cases env.created with
        | authFailed => exact .plain _ _ rfl
        | storageFailed => exact change_plain rfl
        | ok => exact change_error fun _ => change_error fun _ => change_plain rfl

theorem change_run (h : Handler) : Change J env req s (h.run J env req s) := by
  cases h with
  | setup => exact change_handleSetup
  | unlock => exact change_handleUnlock
  | logout => exact change_handleLogout
  | changePassword => exact change_handleChangePassword
  | _ => exact change_plain rfl

theorem change_dispatch : Change J env req s (dispatch J env req s) := by
  unfold dispatch
  refine change_ite (fun _ => change_plain rfl) fun _ => change_ite (fun _ => ?_) fun _ => ?_
  · exact change_error fun _ => change_ite (fun _ => .upgrades s.limiter) fun _ => change_plain rfl
  · cases routes.find? (routeMatch req.method req.path) with
    | some r => exact change_error fun _ => change_run r.handler
    | none => exact change_ite (fun _ => change_plain rfl) fun _ => change_plain rfl

theorem allow_eq (ip : List UInt8) : ∃ limiter, (s.allow env ip).2 = { s with limiter } := by
  unfold Server.allow
  cases s.limiter with
  | none => exact ⟨s.limiter, rfl⟩
  | some rl => exact ⟨_, rfl⟩

/-- The counters of the rate limiter do not matter. -/
theorem Change.of_limiter {limiter : Option (RateLimiter (List UInt8))} {answer : Reply × Server}
    (h : Change J env req { s with limiter } answer) : Change J env req s answer := by
  cases h with
  | plain limiter' reply h => exact .plain limiter' reply h
  | again limiter' hopen => exact .again limiter' hopen
  | opens limiter' token hshut hdrawn hproved => exact .opens limiter' token hshut hdrawn hproved
  | leaves limiter' => exact .leaves limiter'
  | upgrades limiter' => exact .upgrades limiter'

/-- **What a request does is one of the changes.** -/
theorem change_handleRequest : Change J env req s (handleRequest J env req s) := by
  obtain ⟨limiter, hlimiter⟩ := @allow_eq env s req.ip
  rw [handleRequest]
  split
  · rw [hlimiter]
    exact change_dispatch.of_limiter
  · rw [hlimiter]
    exact .plain limiter _ rfl

/-! ## Gates -/

/-- Where a request has to bring the token. -/
inductive Gate where
  | none
  | header
  | query
  | protocol
  deriving DecidableEq

/-- The gate in front of a request. -/
def gateOf (req : HttpRequest) : Gate :=
  if req.method = ascii "OPTIONS" then .none
  else if req.path = ascii "/ws/chat" ∧ req.method = ascii "GET" then .protocol
  else
    match routes.find? (routeMatch req.method req.path) with
    | some r => if !r.needsUnlock then .none else if r.unlockViaQuery then .query else .header
    | none => .none

/-- The request brings the token to the gate. -/
def Carries (req : HttpRequest) : Gate → List UInt8 → Prop
  | .none, _ => True
  | .header, token => middlewareHasValidToken req.headers token = true
  | .query, token => StandsFirst (req.query.splitOn 38) token
  | .protocol, token => middlewareHasValidWsToken req.headers token = true

/-- The gate itself refuses the request. -/
def Reply.isRefusal (reply : Reply) : Bool :=
  reply = .error 401 "unauthorized" || reply = .error 429 "too many requests"

theorem isRefusal_unauthorized : (Reply.error 401 "unauthorized").isRefusal = true := by decide

theorem isRefusal_tooMany : (Reply.error 429 "too many requests").isRefusal = true := by decide

/-- The gate lets the request through. -/
def passes (s : Server) (req : HttpRequest) : Gate → Bool
  | .none => true
  | .header => middlewareCheckUnlock s.toServerContext req.headers
  | .query => middlewareCheckUnlockQuery s.toServerContext req.query
  | .protocol => wsAuthorized s req

theorem passes_of_dispatch (h : (dispatch J env req s).1.isRefusal = false) :
    passes s req (gateOf req) = true := by
  unfold dispatch at h
  rw [gateOf]
  split at h
  · next hoptions => rw [if_pos hoptions, passes]
  · next hoptions =>
    rw [if_neg hoptions]
    split at h
    · next hsocket =>
      rw [if_pos hsocket, passes]
      split at h
      · exact absurd (isRefusal_unauthorized.symm.trans h) Bool.noConfusion
      · next hgate => simpa using hgate
    · next hsocket =>
      rw [if_neg hsocket]
      revert h
      cases routes.find? (routeMatch req.method req.path) with
      | none => exact fun _ => rfl
      | some r =>
        intro h
        dsimp only at h ⊢
        split at h
        · exact absurd (isRefusal_unauthorized.symm.trans h) Bool.noConfusion
        · next hgate =>
          rw [Bool.and_eq_true, not_and] at hgate
          cases hneeds : r.needsUnlock with
          | false => rfl
          | true =>
            have hpass : authorized s req r = true := by simpa using hgate hneeds
            rw [authorized] at hpass
            cases hquery : r.unlockViaQuery with
            | false =>
              rw [hquery] at hpass
              exact hpass
            | true =>
              rw [hquery] at hpass
              exact hpass

theorem passes_limiter {limiter : Option (RateLimiter (List UInt8))} (gate : Gate) :
    passes { s with limiter } req gate = passes s req gate := by
  cases gate <;> rfl

/-- A request that is not refused passes its gate. -/
theorem passes_of_handleRequest (h : (handleRequest J env req s).1.isRefusal = false) :
    passes s req (gateOf req) = true := by
  obtain ⟨limiter, hlimiter⟩ := @allow_eq env s req.ip
  rw [handleRequest] at h
  split at h
  · have hpass := passes_of_dispatch h
    rwa [hlimiter, passes_limiter] at hpass
  · exact absurd (isRefusal_tooMany.symm.trans h) Bool.noConfusion

/-- Behind a gate is who brings the token of a server that is open, or everybody. -/
theorem carries_of_passes {gate : Gate} (hgate : gate ≠ .none) (h : passes s req gate = true)
    (hne : ∀ token, s.unlockToken = some token → token ≠ [] ∧ token ≠ ascii "noop") :
    ∃ token, s.unlockToken = some token ∧ Carries req gate token := by
  cases htoken : s.unlockToken with
  | none =>
    cases gate with
    | none => exact absurd rfl hgate
    | header => exact absurd h (by rw [passes, middlewareCheckUnlock, htoken]; exact Bool.false_ne_true)
    | query =>
      exact absurd h (by rw [passes, middlewareCheckUnlockQuery, htoken]; exact Bool.false_ne_true)
    | protocol => exact absurd h (by rw [passes, wsAuthorized, htoken]; exact Bool.false_ne_true)
  | some token =>
    obtain ⟨hnil, hnoop⟩ := hne token htoken
    refine ⟨token, rfl, ?_⟩
    cases gate with
    | none => exact absurd rfl hgate
    | header =>
      rw [passes, middlewareCheckUnlock, htoken] at h
      dsimp only at h
      rw [if_neg hnoop] at h
      split at h
      · exact absurd h Bool.false_ne_true
      · exact h
    | protocol =>
      rw [passes, wsAuthorized, htoken] at h
      dsimp only at h
      rw [if_neg hnoop] at h
      split at h
      · exact absurd h Bool.false_ne_true
      · exact h
    | query =>
      have hopen : s.state = .unlocked := by
        by_contra hshut
        rw [passes, middlewareCheckUnlockQuery, htoken] at h
        dsimp only at h
        rw [if_pos hshut] at h
        exact absurd h Bool.false_ne_true
      have hctx : s.toServerContext = { state := .unlocked, unlockToken := some token } := by
        rw [← hopen, ← htoken]
      rw [passes, hctx] at h
      exact ((checkUnlockQuery_iff req.query hnil).mp h).resolve_left hnoop

/-! ## The log -/

/-- The session has ended. -/
def Note.isLogout : Note → Bool
  | .answered _ _ .loggedOut => true
  | _ => false

/-- The token that was handed out. -/
def Note.token? : Note → Option (List UInt8)
  | .answered _ _ (.granted token) => token
  | _ => none

/-- A socket was opened. -/
def Note.isUpgrade : Note → Bool
  | .answered _ _ .upgraded => true
  | _ => false

/-- The token was drawn for a password and handed out, and nobody has left since. -/
def Minted (J : WireJson) (log : List Note) (token : List UInt8) : Prop :=
  ∃ before env req after, log = before ++ .answered env req (.granted (some token)) :: after ∧
    generateUnlockToken env.random = some token ∧ Proved J env req ∧ ∀ note ∈ after, note.isLogout = false

variable {t t' : Site} {log : List Note} {note : Note} {token : List UInt8} {i : Nat}

theorem isLogout_of_isPlain {reply : Reply} (h : reply.isPlain = true) :
    (Note.answered env req reply).isLogout = false := by
  cases reply <;> first | rfl | exact absurd h Bool.false_ne_true

theorem Minted.concat (h : Minted J log token) (hnote : note.isLogout = false) :
    Minted J (log ++ [note]) token := by
  obtain ⟨before, env, req, after, rfl, hdrawn, hproved, hafter⟩ := h
  refine ⟨before, env, req, after ++ [note], by simp, hdrawn, hproved, fun n hn => ?_⟩
  rcases List.mem_append.mp hn with hn | hn
  · exact hafter n hn
  · rwa [List.mem_singleton.mp hn]

/-! ## Only with a password -/

/-- The token of the server was drawn for a password, and there is one when the server is open. -/
structure Opened (J : WireJson) (t : Site) : Prop where
  minted : ∀ token, t.server.unlockToken = some token → Minted J t.log token
  token : t.server.state = .unlocked → t.server.unlockToken ≠ none

theorem opened_start (setup : Bool) (limiter : Option (RateLimiter (List UInt8))) :
    Opened J (start setup limiter) := by
  refine ⟨fun token h => absurd h (by simp [start]), fun h => ?_⟩
  cases setup <;> exact absurd h (by simp [start])

theorem Opened.step {event : Event} (h : Opened J t) (hstep : step J t event = some t') :
    Opened J t' := by
  obtain ⟨hminted, htoken⟩ := h
  cases event with
  | message i =>
    obtain ⟨generation, -, rfl⟩ := Option.map_eq_some_iff.mp hstep
    exact ⟨fun token hsome => (hminted token hsome).concat rfl, htoken⟩
  | request env req =>
    obtain rfl := Option.some.inj hstep
    have hchange := @change_handleRequest J env req t.server
    generalize handleRequest J env req t.server = answer at hchange
    cases hchange with
    | plain limiter reply hplain =>
      exact ⟨fun token hsome => (hminted token hsome).concat (isLogout_of_isPlain hplain), htoken⟩
    | again limiter hopen =>
      exact ⟨fun token hsome => (hminted token hsome).concat rfl, htoken⟩
    | opens limiter token hshut hdrawn hproved =>
      refine ⟨fun token' hsome => ?_, fun _ => by simp [Server.install]⟩
      obtain rfl : token = token' := Option.some.inj hsome
      exact ⟨t.log, env, req, [], rfl, hdrawn, hproved, by simp⟩
    | leaves limiter => exact ⟨fun token hsome => absurd hsome (by simp), fun h => absurd h (by simp)⟩
    | upgrades limiter =>
      exact ⟨fun token hsome => (hminted token hsome).concat rfl, htoken⟩

theorem ascii_tok : ascii "tok_" = [116, 111, 107, 95] := by decide

theorem ascii_noop : ascii "noop" = [110, 111, 111, 112] := by decide

/-- A token that was drawn is none of the special ones. -/
theorem ne_of_generateUnlockToken {random : Option (Vector UInt8 32)}
    (h : generateUnlockToken random = some token) : token ≠ [] ∧ token ≠ ascii "noop" := by
  obtain ⟨bytes, -, rfl⟩ := Option.map_eq_some_iff.mp h
  rw [ascii_tok, ascii_noop]
  simp

/-- Who is behind a gate has brought a token that was drawn for a password since the last logout. -/
def BehindGate (J : WireJson) (past : List Note) : Note → Prop
  | .answered _ req reply => reply.isRefusal = false → gateOf req ≠ .none →
      ∃ token, Carries req (gateOf req) token ∧ Minted J past token
  | .frame _ _ => True

theorem behindGate_step {event : Event} (h : Opened J t) (hlog : Lawful (BehindGate J) t.log)
    (hstep : step J t event = some t') : Lawful (BehindGate J) t'.log := by
  cases event with
  | message i =>
    obtain ⟨generation, -, rfl⟩ := Option.map_eq_some_iff.mp hstep
    exact lawful_concat.mpr ⟨hlog, trivial⟩
  | request env req =>
    obtain rfl := Option.some.inj hstep
    refine lawful_concat.mpr ⟨hlog, fun hreply hgate => ?_⟩
    have hne : ∀ token, t.server.unlockToken = some token → token ≠ [] ∧ token ≠ ascii "noop" := by
      intro token htoken
      obtain ⟨_, _, _, _, _, hdrawn, -⟩ := h.minted token htoken
      exact ne_of_generateUnlockToken hdrawn
    obtain ⟨token, htoken, hcarries⟩ :=
      carries_of_passes hgate (passes_of_handleRequest hreply) hne
    exact ⟨token, hcarries, h.minted token htoken⟩

/-- **Whatever is asked of the server, by whom and in whichever order: a request that gets behind a
gate has brought a token that the server drew and handed out, after the last logout, to a request
whose password opened the storage.** -/
theorem opened_by_password {setup : Bool} {limiter : Option (RateLimiter (List UInt8))}
    (h : Runs (step J) (fun _ _ => True) (start setup limiter) t) {past rest : List Note}
    {reply : Reply} (hlog : t.log = past ++ .answered env req reply :: rest)
    (hreply : reply.isRefusal = false) (hgate : gateOf req ≠ .none) :
    ∃ token, Carries req (gateOf req) token ∧ Minted J past token := by
  have hboth : Opened J t ∧ Lawful (BehindGate J) t.log := by
    refine Runs.invariant (I := fun t => Opened J t ∧ Lawful (BehindGate J) t.log) ?_ ?_ h
    · exact ⟨opened_start setup limiter, lawful_nil⟩
    · intro before event after _ hI hstep
      exact ⟨hI.1.step hstep, behindGate_step hI.1 hI.2 hstep⟩
  exact hboth.2 past _ rest hlog hreply hgate

/-! ## A short day -/

/-- What the body of the first request says. -/
def passwordBody : List UInt8 := ascii "\x7b\"password\":\"12345678\"\x7d"

/-- A library that knows this body. -/
def passwordJson : WireJson where
  parse bs :=
    if bs = passwordBody then some (.object [("password", .string "12345678")]) else none
  print _ := none

/-- Nothing goes wrong. -/
def calm : Surroundings where
  now := 0
  later := 0
  sql := []
  copied := true
  nextCopied := true
  home := true
  path := true
  created := .ok
  random := some (Vector.replicate 32 0)
  detached := true
  changed := 0
  upgraded := true

/-- The token that is drawn. -/
def zeroToken : List UInt8 := ascii "tok_" ++ List.replicate 64 48

/-- A request with the token. -/
def tokenRequest (method path : String) : HttpRequest where
  method := ascii method
  path := ascii path
  query := []
  headers := ascii "X-Unlock-Token: " ++ zeroToken ++ [13, 10] ++
    ascii "Sec-WebSocket-Protocol: echo-ai-token-" ++ zeroToken ++ [13, 10]
  body := []
  ip := []

/-- The request that sets the password. -/
def setupRequest : HttpRequest :=
  { tokenRequest "POST" "/api/setup" with headers := [], body := passwordBody }

theorem opened_setupRequest : ∃ t, Runs (step passwordJson) (fun _ _ => True) (start true none) t ∧
    t.log = [.answered calm setupRequest (.granted (some zeroToken))] ++
      .answered calm (tokenRequest "GET" "/api/sessions") (.handled .sessions) :: [] ∧
    ∃ token, Carries (tokenRequest "GET" "/api/sessions")
        (gateOf (tokenRequest "GET" "/api/sessions")) token ∧
      Minted passwordJson [.answered calm setupRequest (.granted (some zeroToken))] token := by
  obtain ⟨t, hrun, hlog⟩ := exists_runs_of_foldlM (step passwordJson) (fun _ _ => True) Site.log
    (start true none)
    [.request calm setupRequest, .request calm (tokenRequest "GET" "/api/sessions")]
    ([.answered calm setupRequest (.granted (some zeroToken))] ++
      .answered calm (tokenRequest "GET" "/api/sessions") (.handled .sessions) :: [])
    (by decide +kernel)
  exact ⟨t, hrun, hlog, opened_by_password hrun hlog rfl (by decide +kernel)⟩

/-- **In every state that is reached, the status says that nothing is locked and nothing to be set
up exactly to a request whose headers would open a gate.** -/
theorem status_iff_checkUnlock {setup : Bool} {limiter : Option (RateLimiter (List UInt8))}
    (h : Runs (step J) (fun _ _ => True) (start setup limiter) t) (req : HttpRequest) :
    (∃ enabled, handleStatus req t.server = .status false false enabled) ↔
      middlewareCheckUnlock t.server.toServerContext req.headers = true := by
  have hopened : Opened J t := by
    refine Runs.invariant (I := Opened J) (opened_start setup limiter) ?_ h
    exact fun _ _ _ _ hI hstep => hI.step hstep
  rw [handleStatus, middlewareCheckUnlock]
  cases hstate : t.server.state with
  | locked => cases t.server.unlockToken <;> simp
  | setup => cases t.server.unlockToken <;> simp
  | unlocked =>
    cases htoken : t.server.unlockToken with
    | none => exact absurd htoken (hopened.token hstate)
    | some token =>
      by_cases hnoop : token = ascii "noop"
      · simp [hnoop]
      · cases middlewareHasValidToken req.headers token <;> simp [hnoop]

theorem status_setupRequest : ∃ t, Runs (step passwordJson) (fun _ _ => True) (start true none) t ∧
    t.server.unlockToken = some zeroToken ∧
    ((∃ enabled, handleStatus setupRequest t.server = .status false false enabled) ↔
      middlewareCheckUnlock t.server.toServerContext setupRequest.headers = true) := by
  obtain ⟨t, hrun, htoken⟩ := exists_runs_of_foldlM (step passwordJson) (fun _ _ => True)
    (fun t => t.server.unlockToken) (start true none) [.request calm setupRequest] (some zeroToken)
    (by decide +kernel)
  exact ⟨t, hrun, htoken, status_iff_checkUnlock hrun setupRequest⟩

/-! ## Never again after a logout -/

/-- A token that is drawn has not been handed out before. -/
def Fresh (t : Site) : Event → Prop
  | .request env _ => ∀ token ∈ generateUnlockToken env.random,
      ∀ note ∈ t.log, note.token? ≠ some token
  | .message _ => True

instance (t : Site) : (event : Event) → Decidable (Fresh t event)
  | .request env _ => inferInstanceAs (Decidable (∀ token ∈ generateUnlockToken env.random,
      ∀ note ∈ t.log, note.token? ≠ some token))
  | .message _ => inferInstanceAs (Decidable True)

/-- The token was handed out for the first time after the last logout. -/
def Recent (log : List Note) (token : List UInt8) : Prop :=
  ∃ before note after, log = before ++ note :: after ∧ note.isLogout = false ∧
    (∀ n ∈ after, n.isLogout = false) ∧ ∀ n ∈ before, n.token? ≠ some token

/-- The socket was opened after the last logout. -/
def StillOpen (log : List Note) (i : Nat) : Prop :=
  ∃ before env req after, log = before ++ .answered env req .upgraded :: after ∧
    before.countP Note.isUpgrade = i ∧ ∀ n ∈ after, n.isLogout = false

theorem Recent.concat (h : Recent log token) (hnote : note.isLogout = false) :
    Recent (log ++ [note]) token := by
  obtain ⟨before, first, after, rfl, hfirst, hafter, hbefore⟩ := h
  refine ⟨before, first, after ++ [note], by simp, hfirst, fun n hn => ?_, hbefore⟩
  rcases List.mem_append.mp hn with hn | hn
  · exact hafter n hn
  · rwa [List.mem_singleton.mp hn]

theorem StillOpen.concat (h : StillOpen log i) (hnote : note.isLogout = false) :
    StillOpen (log ++ [note]) i := by
  obtain ⟨before, env, req, after, rfl, hcount, hafter⟩ := h
  refine ⟨before, env, req, after ++ [note], by simp, hcount, fun n hn => ?_⟩
  rcases List.mem_append.mp hn with hn | hn
  · exact hafter n hn
  · rwa [List.mem_singleton.mp hn]

/-- The last logout is in front of what no logout has followed. -/
theorem isPrefix_of_isLogout {before after old recent : List Note} {logout : Note}
    (heq : before ++ note :: after = old ++ logout :: recent) (hlogout : logout.isLogout = true)
    (hnote : note.isLogout = false) (hafter : ∀ n ∈ after, n.isLogout = false) : old <+: before := by
  rcases List.append_eq_append_iff.mp heq with ⟨middle, rfl, hmiddle⟩ | ⟨middle, rfl, -⟩
  · cases middle with
    | nil =>
      obtain ⟨rfl, -⟩ := List.cons.inj hmiddle
      exact absurd (hlogout.symm.trans hnote) Bool.noConfusion
    | cons n middle =>
      obtain ⟨-, rfl⟩ := List.cons.inj hmiddle
      exact absurd (hlogout.symm.trans (hafter logout (by simp))) Bool.noConfusion
  · exact List.prefix_append _ _

/-- The sockets beside the generation, which has counted `n` sessions and logouts. -/
structure Dated (t : Site) (n : Nat) : Prop where
  count : n ≤ t.log.length
  generation : t.server.generation = n % 2 ^ 64
  sockets : ∀ (i g : Nat), t.server.sockets[i]? = some g →
    ∃ m ≤ n, g = m % 2 ^ 64 ∧ (m = n → StillOpen t.log i)
  upgrades : t.server.sockets.length = t.log.countP Note.isUpgrade

variable {n : Nat}

/-- A note that is no logout, and no change of the generation. -/
theorem Dated.same (h : Dated t n) (hnote : note.isLogout = false) (hup : note.isUpgrade = false)
    (hgen : t'.server.generation = t.server.generation)
    (hsockets : t'.server.sockets = t.server.sockets) (hlog : t'.log = t.log ++ [note]) :
    Dated t' n := by
  obtain ⟨hcount, hgeneration, hopen, hup'⟩ := h
  refine ⟨?_, by rw [hgen, hgeneration], ?_, ?_⟩
  · rw [hlog, List.length_append]
    omega
  · rw [hsockets, hlog]
    intro i g hg
    obtain ⟨m, hm, hmod, hstill⟩ := hopen i g hg
    exact ⟨m, hm, hmod, fun heq => (hstill heq).concat hnote⟩
  · rw [hsockets, hlog, countP_concat, hup, hup']
    rfl

/-- The generation moves on, and no socket with it. -/
theorem Dated.next (h : Dated t n) (hup : note.isUpgrade = false)
    (hgen : t'.server.generation = nextGeneration t.server.generation)
    (hsockets : t'.server.sockets = t.server.sockets) (hlog : t'.log = t.log ++ [note]) :
    Dated t' (n + 1) := by
  obtain ⟨hcount, hgeneration, hopen, hup'⟩ := h
  refine ⟨?_, ?_, ?_, ?_⟩
  · rw [hlog, List.length_append, List.length_singleton]
    omega
  · rw [hgen, nextGeneration, hgeneration, Nat.mod_add_mod]
  · rw [hsockets]
    intro i g hg
    obtain ⟨m, hm, hmod, -⟩ := hopen i g hg
    exact ⟨m, by omega, hmod, fun heq => absurd heq (by omega)⟩
  · rw [hsockets, hlog, countP_concat, hup, hup']
    rfl

theorem isUpgrade_of_isPlain {reply : Reply} (h : reply.isPlain = true) :
    (Note.answered env req reply).isUpgrade = false := by
  cases reply <;> first | rfl | exact absurd h Bool.false_ne_true

theorem Dated.step {event : Event} (h : Dated t n) (hstep : step J t event = some t') :
    ∃ n', Dated t' n' := by
  cases event with
  | message i =>
    obtain ⟨generation, -, rfl⟩ := Option.map_eq_some_iff.mp hstep
    exact ⟨n, h.same rfl rfl rfl rfl rfl⟩
  | request env req =>
    obtain rfl := Option.some.inj hstep
    have hchange := @change_handleRequest J env req t.server
    generalize handleRequest J env req t.server = answer at hchange
    cases hchange with
    | plain limiter reply hplain =>
      exact ⟨n, h.same (isLogout_of_isPlain hplain)
        (isUpgrade_of_isPlain hplain) rfl rfl rfl⟩
    | again limiter hopen => exact ⟨n, h.same rfl rfl rfl rfl rfl⟩
    | opens limiter token hshut hdrawn hproved => exact ⟨n + 1, h.next rfl rfl rfl rfl⟩
    | leaves limiter => exact ⟨n + 1, h.next rfl rfl rfl rfl⟩
    | upgrades limiter =>
      obtain ⟨hcount, hgeneration, hopen, hup⟩ := h
      refine ⟨n, ?_, hgeneration, ?_, ?_⟩
      · rw [List.length_append]
        omega
      · refine forall_getElem?_concat (fun i g hg => ?_) ?_
        · obtain ⟨m, hm, hmod, hstill⟩ := hopen i g hg
          exact ⟨m, hm, hmod, fun heq => (hstill heq).concat rfl⟩
        · exact ⟨n, le_rfl, hgeneration, fun _ => ⟨t.log, env, req, [], rfl, hup.symm, by simp⟩⟩
      · rw [countP_concat, List.length_append, hup]
        rfl

/-- What a fresh run keeps of its token. -/
theorem recent_step {event : Event} (hfresh : Fresh t event)
    (h : ∀ token, t.server.unlockToken = some token → Recent t.log token)
    (hstep : step J t event = some t') :
    ∀ token, t'.server.unlockToken = some token → Recent t'.log token := by
  cases event with
  | message i =>
    obtain ⟨generation, -, rfl⟩ := Option.map_eq_some_iff.mp hstep
    exact fun token hsome => (h token hsome).concat rfl
  | request env req =>
    obtain rfl := Option.some.inj hstep
    have hchange := @change_handleRequest J env req t.server
    generalize handleRequest J env req t.server = answer at hchange
    cases hchange with
    | plain limiter reply hplain =>
      exact fun token hsome => (h token hsome).concat
        (isLogout_of_isPlain hplain)
    | again limiter hopen =>
      exact fun token hsome => (h token hsome).concat rfl
    | opens limiter token hshut hdrawn hproved =>
      intro token' hsome
      obtain rfl : token = token' := Option.some.inj hsome
      exact ⟨t.log, _, [], rfl, rfl, by simp, hfresh token hdrawn⟩
    | leaves limiter => exact fun token hsome => absurd hsome (by simp)
    | upgrades limiter =>
      exact fun token hsome => (h token hsome).concat rfl

/-- What is let through came after the last logout. -/
def AfterLogout (past : List Note) : Note → Prop
  | .answered _ req reply => reply.isRefusal = false → gateOf req ≠ .none →
      ∃ token, Carries req (gateOf req) token ∧ Recent past token
  | .frame i taken => taken = true → past.length < 2 ^ 64 → StillOpen past i

/-- What a fresh run keeps. -/
structure Current (J : WireJson) (t : Site) : Prop where
  opened : Opened J t
  recent : ∀ token, t.server.unlockToken = some token → Recent t.log token
  dated : ∃ n, Dated t n
  log : Lawful AfterLogout t.log

theorem Current.step {event : Event} (h : Current J t) (hfresh : Fresh t event)
    (hstep : step J t event = some t') : Current J t' := by
  obtain ⟨hopened, hrecent, ⟨n, hdated⟩, hlog⟩ := h
  refine ⟨hopened.step hstep, recent_step hfresh hrecent hstep, hdated.step hstep, ?_⟩
  cases event with
  | message i =>
    obtain ⟨g, hg, rfl⟩ := Option.map_eq_some_iff.mp hstep
    refine lawful_concat.mpr ⟨hlog, fun htaken hlen => ?_⟩
    obtain ⟨-, hsame⟩ := of_decide_eq_true htaken
    obtain ⟨m, hm, hmod, hstill⟩ := hdated.sockets i g hg
    have hcount := hdated.count
    rw [hdated.generation, hmod, Nat.mod_eq_of_lt (by omega), Nat.mod_eq_of_lt (by omega)] at hsame
    exact hstill hsame.symm
  | request env req =>
    obtain rfl := Option.some.inj hstep
    refine lawful_concat.mpr ⟨hlog, fun hreply hgate => ?_⟩
    have hne : ∀ token, t.server.unlockToken = some token → token ≠ [] ∧ token ≠ ascii "noop" := by
      intro token htoken
      obtain ⟨_, _, _, _, _, hdrawn, -⟩ := hopened.minted token htoken
      exact ne_of_generateUnlockToken hdrawn
    obtain ⟨token, htoken, hcarries⟩ :=
      carries_of_passes hgate (passes_of_handleRequest hreply) hne
    exact ⟨token, hcarries, hrecent token htoken⟩

/-- **After a logout neither a token that was handed out before it opens a gate, nor is a frame
taken from a socket that was opened before it, as long as no token is drawn twice.** -/
theorem closed_by_logout {setup : Bool} {limiter : Option (RateLimiter (List UInt8))}
    (h : Runs (step J) Fresh (start setup limiter) t) {old recent rest : List Note}
    {logout note : Note} (hlog : t.log = old ++ logout :: (recent ++ note :: rest))
    (hlogout : logout.isLogout = true) (hlen : t.log.length < 2 ^ 64) :
    (∀ env req reply, note = .answered env req reply → gateOf req ≠ .none →
      (∀ token, Carries req (gateOf req) token → ∃ n ∈ old, n.token? = some token) →
      reply.isRefusal = true) ∧
    ∀ i, note = .frame i true → old.countP Note.isUpgrade ≤ i := by
  have hcurrent : Current J t := by
    refine Runs.invariant (I := Current J) ?_ (fun _ _ _ hfresh hI hstep => hI.step hfresh hstep) h
    refine ⟨opened_start setup limiter, fun token h => absurd h (by simp [start]), ⟨0, ?_⟩, lawful_nil⟩
    exact ⟨le_rfl, rfl, by simp [start], rfl⟩
  have hpast : t.log = (old ++ logout :: recent) ++ note :: rest := by simp [hlog]
  have hlaw := hcurrent.log _ _ _ hpast
  constructor
  · rintro env req reply rfl hgate hold
    by_contra hreply
    obtain ⟨token, hcarries, before, first, after, heq, hfirst, hafter, hbefore⟩ :=
      hlaw (Bool.eq_false_iff.mpr hreply) hgate
    obtain ⟨n, hn, htoken⟩ := hold token hcarries
    have hinit := isPrefix_of_isLogout heq.symm hlogout hfirst hafter
    exact hbefore n (hinit.subset hn) htoken
  · rintro i rfl
    have hshort : (old ++ logout :: recent).length < 2 ^ 64 := by
      rw [hpast, List.length_append] at hlen
      omega
    obtain ⟨before, env, req, after, heq, rfl, hafter⟩ := hlaw rfl hshort
    exact (isPrefix_of_isLogout heq.symm hlogout rfl hafter).sublist.countP_le

/-- No random bytes are needed. -/
def quiet : Surroundings := { calm with random := none }

/-- The password is set, and a socket is opened. -/
def morning : List Note :=
  [.answered calm setupRequest (.granted (some zeroToken)),
    .answered quiet (tokenRequest "GET" "/ws/chat") .upgraded]

/-- The token is brought once more. -/
def belated : Note :=
  .answered quiet (tokenRequest "GET" "/api/sessions") (.error 401 "unauthorized")

theorem closed_belated : ∃ t, Runs (step passwordJson) Fresh (start true none) t ∧
    t.log = morning ++ .answered quiet (tokenRequest "POST" "/api/logout") .loggedOut ::
      ([.frame 0 false] ++ belated :: []) ∧
    (∀ env req reply, belated = .answered env req reply → gateOf req ≠ .none →
      (∀ token, Carries req (gateOf req) token → ∃ n ∈ morning, n.token? = some token) →
      reply.isRefusal = true) ∧
    ∀ i, belated = .frame i true → morning.countP Note.isUpgrade ≤ i := by
  obtain ⟨t, hrun, hlog⟩ := exists_runs_of_foldlM (step passwordJson) Fresh Site.log
    (start true none)
    [.request calm setupRequest, .request quiet (tokenRequest "GET" "/ws/chat"),
      .request quiet (tokenRequest "POST" "/api/logout"), .message 0,
      .request quiet (tokenRequest "GET" "/api/sessions")]
    (morning ++ .answered quiet (tokenRequest "POST" "/api/logout") .loggedOut ::
      ([.frame 0 false] ++ belated :: [])) (by decide +kernel)
  exact ⟨t, hrun, hlog, closed_by_logout hrun hlog rfl (by rw [hlog]; decide)⟩

end EchoAi.Auth
