import EchoAi.Safety.Network

/-!
# Fetching a page

`web_fetch` fetches a URL through libcurl, whose callback checks each address.  Where that fails, or
where the page looks like a challenge, it starts another client, which resolves the host itself.

* `Outside`: what the network and the other clients do in one call.
* `webFetchExecute`: the result, and the addresses to which a connection is opened.
* `connectsPublic_iff`: all of these are public exactly when the clients that are started open public
  connections only.
-/

namespace EchoAi

/-- How `curl_easy_perform` ends. -/
inductive CurlOutcome where
  | ok (contentType : Option (List UInt8)) (body : List UInt8)
  | couldntResolveHost (error : String)
  /-- the body is longer than the limit -/
  | tooLarge
  /-- another error, with its text -/
  | failed (error : String)
  deriving DecidableEq, Repr

/-- A run of another client: the addresses to which it connects, and the body when it succeeds. -/
structure ClientRun where
  opened : List SockAddr
  body : Option (List UInt8)
  deriving DecidableEq, Repr

/-- What is outside the program in one call. -/
structure Outside where
  /-- the addresses to which libcurl is about to connect, one after the other -/
  attempts : List SockAddr
  outcome : CurlOutcome
  /-- the run of a client by the name of its binary, if it is on the path -/
  client : String → Option ClientRun

/-- The result of the tool, before the text of a page is extracted. -/
inductive WebFetchResult where
  | error (message category : String)
  | page (contentType : Option (List UInt8)) (body : List UInt8)
  deriving DecidableEq, Repr

/-- The marks of a challenge page. -/
def challengeMarkers : List (List UInt8) :=
  [ascii "just a moment", ascii "client challenge", ascii "enable js", ascii "enable javascript",
    ascii "ad blocker", ascii "cf-browser-verification", ascii "challenge-platform",
    ascii "attention required", ascii "ddos protection", ascii "verify you",
    ascii "checking your browser"]

/-- `looks_like_challenge`. -/
def looksLikeChallenge (data : List UInt8) : Bool :=
  let lower := cString ((data.take 65536).map toLower)
  challengeMarkers.any fun marker => decide (marker <:+: lower)

/-- The binaries of the other clients, in the order in which they are tried. -/
def impersonatorCandidates : List String := ["curl-impersonate-chrome", "curl-impersonate", "curl_chrome136"]

/-- `retry_with_impersonator`, behind its check of the page: the clients are tried until one succeeds.
The first part is what they connect to. -/
def retryWithImpersonator (client : String → Option ClientRun) :
    List String → List SockAddr × Option (List UInt8)
  | [] => ([], none)
  | binary :: rest =>
    match client binary with
    | none => retryWithImpersonator client rest
    | some run =>
      match run.body with
      | some body => (run.opened, some body)
      | none =>
        let later := retryWithImpersonator client rest
        (run.opened ++ later.1, later.2)

variable (cfg : SafetyPolicy)

/-- Whether `open_socket_cb` has rejected an address. -/
def socketPolicyRejected (attempts : List SockAddr) : Bool :=
  attempts.any fun address => !safetyCheckSocketAddress cfg address

/-- The addresses that `open_socket_cb` lets libcurl connect to. -/
def openSockets (attempts : List SockAddr) : List SockAddr :=
  attempts.filter (safetyCheckSocketAddress cfg)

/-- Whether another client is tried. -/
def retries (outside : Outside) : Bool :=
  match outside.outcome with
  | .ok _ body => looksLikeChallenge body
  | .couldntResolveHost _ => false
  | _ => !socketPolicyRejected cfg outside.attempts

/-- `web_fetch_error_result`. -/
def webFetchErrorResult (outside : Outside) (error : String) : WebFetchResult :=
  if socketPolicyRejected cfg outside.attempts then
    .error "connection blocked by network policy" "policy_denied"
  else if outside.outcome = .tooLarge then .error "response too large" "policy_denied"
  else .error ("HTTP request failed: " ++ error) "execution_error"

/-- `web_fetch_execute` of a URL, with the addresses to which a connection is opened. -/
def webFetchExecute (url : List UInt8) (outside : Outside) : List SockAddr × WebFetchResult :=
  if safetyCheckUrl cfg url then
    let opened := openSockets cfg outside.attempts
    let retried :=
      if retries cfg outside then retryWithImpersonator outside.client impersonatorCandidates else ([], none)
    let result :=
      match retried.2, outside.outcome with
      | some body, _ => .page (some (ascii "text/html")) body
      | none, .ok contentType body => .page contentType body
      | none, .couldntResolveHost error => webFetchErrorResult cfg outside error
      | none, .tooLarge => webFetchErrorResult cfg outside ""
      | none, .failed error => webFetchErrorResult cfg outside error
    (opened ++ retried.1, result)
  else ([], .error "URL rejected by network policy" "policy_denied")

/-! ## Connections -/

/-- Every connection is opened to a public address. -/
def ConnectsPublic (url : List UInt8) (outside : Outside) : Prop :=
  ∀ address ∈ (webFetchExecute cfg url outside).1, address.isPublic = true

/-- The clients that are started open public connections only; one is started when those before it are
not there or have failed. -/
def ClientsPublic (client : String → Option ClientRun) (binaries : List String) : Prop :=
  ∀ before binary after, binaries = before ++ binary :: after →
    (∀ earlier ∈ before, ∀ run ∈ client earlier, run.body = none) →
      ∀ run ∈ client binary, ∀ address ∈ run.opened, address.isPublic = true

theorem clientsPublic_cons {client : String → Option ClientRun} {binary : String}
    {rest : List String} : ClientsPublic client (binary :: rest) ↔
      (∀ run ∈ client binary, ∀ address ∈ run.opened, address.isPublic = true) ∧
        ((∀ run ∈ client binary, run.body = none) → ClientsPublic client rest) := by
  constructor
  · intro h
    refine ⟨h [] binary rest rfl (by simp), fun hfailed before other after heq hearlier => ?_⟩
    refine h (binary :: before) other after (by rw [heq]; rfl) fun earlier hmem => ?_
    obtain rfl | hmem := List.mem_cons.mp hmem
    · exact hfailed
    · exact hearlier earlier hmem
  · rintro ⟨hfirst, hrest⟩ before other after heq hearlier
    cases before with
    | nil =>
      obtain ⟨rfl, -⟩ := List.cons.inj heq
      exact hfirst
    | cons earlier before =>
      obtain ⟨rfl, htail⟩ := List.cons.inj heq
      exact hrest (hearlier _ List.mem_cons_self) before other after htail
        fun e he => hearlier e (List.mem_cons_of_mem _ he)

/-- What the clients connect to. -/
theorem retryWithImpersonator_public (client : String → Option ClientRun) (binaries : List String) :
    (∀ address ∈ (retryWithImpersonator client binaries).1, address.isPublic = true) ↔
      ClientsPublic client binaries := by
  induction binaries with
  | nil => exact iff_of_true (by simp [retryWithImpersonator]) fun before _ _ heq => by simp at heq
  | cons binary rest ih =>
    rw [clientsPublic_cons, retryWithImpersonator]
    cases hclient : client binary with
    | none => simpa using ih
    | some run =>
      cases hbody : run.body with
      | some body => simp [hbody]
      | none => simp [hbody, ← ih, or_imp, forall_and]

/-- **Connections.**  All connections of a call are public exactly when the URL is rejected, or no
other client is tried, or those that are started connect to public addresses. -/
theorem connectsPublic_iff (hmode : cfg.mode ≠ .unrestricted) (url : List UInt8)
    (outside : Outside) :
    ConnectsPublic cfg url outside ↔
      (safetyCheckUrl cfg url = true → retries cfg outside = true →
        ClientsPublic outside.client impersonatorCandidates) := by
  have hsockets : ∀ address ∈ openSockets cfg outside.attempts, address.isPublic = true := by
    intro address hmem
    rw [← safetyCheckSocketAddress_eq hmode]
    exact List.of_mem_filter hmem
  unfold ConnectsPublic webFetchExecute
  cases safetyCheckUrl cfg url with
  | false => simp
  | true =>
    cases retries cfg outside with
    | false => simpa using hsockets
    | true =>
      rw [if_pos rfl, if_pos rfl, ← retryWithImpersonator_public]
      simp only [List.mem_append, or_imp, forall_and, true_imp_iff]
      exact and_iff_right hsockets

/-- A page that libcurl fetches from a public address. -/
def examplePage : Outside where
  attempts := [.inet 93 184 216 34]
  outcome := .ok (some (ascii "text/html")) (ascii "<p>hello</p>")
  client _ := none

theorem connectsPublic_examplePage : ConnectsPublic {} (ascii "https://example.com/") examplePage :=
  (connectsPublic_iff {} (by decide) _ _).mpr fun _ hretries => absurd hretries (by decide +kernel)

/-- A challenge page from a public address; the other client resolves the host once more and is led
to the local network. -/
def rebindingPage : Outside where
  attempts := [.inet 93 184 216 34]
  outcome := .ok (some (ascii "text/html")) (ascii "Just a moment")
  client binary :=
    if binary = "curl_chrome136" then
      some { opened := [.inet 192 168 0 1], body := some (ascii "router") }
    else none

theorem not_connectsPublic_rebinding : ¬ ∀ (cfg : SafetyPolicy) (url : List UInt8)
    (outside : Outside), cfg.mode ≠ .unrestricted → ConnectsPublic cfg url outside := by
  intro h
  have hpublic := h {} (ascii "https://example.com/") rebindingPage (by decide)
    (.inet 192 168 0 1) (by decide +kernel)
  exact absurd hpublic (by decide)

end EchoAi
