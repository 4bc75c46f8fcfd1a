import EchoAi.RollingWindow
import EchoAi.Server.AuthRuns

/-!
# Guessing the password

Wrong passwords are counted, whether they come to unlock the server or to change its password.

* `Attempt`, `attempt_handleRequest`: a wrong password is recorded, and was allowed before.
* `guessesOf`: the times of the wrong passwords in a log.
* `guesses_sparse`: within a minute there are at most 5 from an address and 20 in all.
-/

namespace EchoAi.Auth

open Middleware RateLimits

variable {J : WireJson} {env : Surroundings} {req : HttpRequest} {s : Server}

/-- The password was wrong. -/
def Reply.isWrong (reply : Reply) : Bool :=
  reply = .error 401 "wrong password" || reply = .error 401 "current password is incorrect"

/-- What a request does to the rows of the failures. -/
inductive Attempt (env : Surroundings) (req : HttpRequest) (s : Server) : Reply × Server → Prop
  | harmless (reply : Reply) (s' : Server) (hreply : reply.isWrong = false)
    (hsame : s'.limiter = s.limiter) : Attempt env req s (reply, s')
  | wrong (reply : Reply) (hreply : reply.isWrong = true)
    (hallowed : s.unlockAllowed env req.ip = true) :
    Attempt env req s (reply, s.recordFailure env req.ip)

theorem attempt_ite {p : Prop} [Decidable p] {a b : Reply × Server} (ha : p → Attempt env req s a)
    (hb : ¬p → Attempt env req s b) : Attempt env req s (if p then a else b) :=
  iteInduction (motive := Attempt env req s) ha hb

/-- A request that is answered with another error. -/
theorem attempt_error {p : Prop} [Decidable p] {status : Nat} {text : String} {b : Reply × Server}
    (hreply : (Reply.error status text).isWrong = false) (hb : ¬p → Attempt env req s b) :
    Attempt env req s (if p then (.error status text, s) else b) :=
  attempt_ite (fun _ => .harmless _ s hreply rfl) hb

theorem attempt_handleSetup : Attempt env req s (handleSetup J env req s) := by
  unfold handleSetup
  refine attempt_error (by decide) fun _ => attempt_error (by decide) fun _ => ?_
  cases J.parse (cString req.body) with
  | none => exact .harmless _ s (by decide) rfl
  | some json =>
    dsimp only
    cases bodyText json "password" with
    | none => exact .harmless _ s (by decide) rfl
    | some password =>
      dsimp only
      refine attempt_error (by decide) fun _ => attempt_error (by decide) fun _ =>
        attempt_error (by decide) fun _ => attempt_error (by decide) fun _ =>
          attempt_error (by decide) fun _ => ?_
      cases generateUnlockToken env.random with
      | none => exact .harmless _ s (by decide) rfl
      | some token => exact .harmless _ _ (by simp [Reply.isWrong]) rfl

theorem attempt_handleUnlock : Attempt env req s (handleUnlock J env req s) := by
  unfold handleUnlock
  refine attempt_ite (fun _ => .harmless _ s (by simp [Reply.isWrong]) rfl) fun _ =>
    attempt_error (by decide) fun _ => attempt_error (by decide) fun hallowed =>
      attempt_error (by decide) fun _ => ?_
  cases J.parse (cString req.body) with
  | none => exact .harmless _ s (by decide) rfl
  | some json =>
    dsimp only
    cases bodyText json "password" with
    | none => exact .harmless _ s (by decide) rfl
    | some password =>
      dsimp only
      refine attempt_error (by decide) fun _ => attempt_error (by decide) fun _ =>
        attempt_error (by decide) fun _ => ?_
      cases env.created with
      | authFailed => exact .wrong _ (by decide) (by simpa using hallowed)
      | storageFailed => exact .harmless _ s (by decide) rfl
      | ok =>
        dsimp only
        cases generateUnlockToken env.random with
        | none => exact .harmless _ s (by decide) rfl
        | some token =>
          exact attempt_ite (fun _ => .harmless _ s (by simp [Reply.isWrong]) rfl) fun _ =>
            .harmless _ _ (by simp [Reply.isWrong]) rfl

theorem attempt_handleLogout : Attempt env req s (handleLogout env req s) := by
  unfold handleLogout
  exact attempt_error (by decide) fun _ => attempt_error (by decide) fun _ =>
    .harmless _ _ (by decide) rfl

theorem attempt_handleChangePassword : Attempt env req s (handleChangePassword J env req s) := by
  unfold handleChangePassword
  refine attempt_error (by decide) fun _ => attempt_error (by decide) fun _ =>
    attempt_error (by decide) fun hallowed => ?_
  cases J.parse (cString req.body) with
  | none => exact .harmless _ s (by decide) rfl
  | some json =>
    dsimp only
    cases bodyText json "current_password" with
    | none => exact .harmless _ s (by decide) rfl
    | some current =>
      dsimp only
      refine attempt_error (by decide) fun _ => ?_
      cases bodyText json "new_password" with
      | none => exact .harmless _ s (by decide) rfl
      | some next =>
        dsimp only
        refine attempt_error (by decide) fun _ => attempt_error (by decide) fun _ =>
          attempt_error (by decide) fun _ => attempt_error (by decide) fun _ =>
            attempt_error (by decide) fun _ => ?_
        cases env.created with
        | authFailed => exact .wrong _ (by decide) (by simpa using hallowed)
        | storageFailed => exact .harmless _ s (by decide) rfl
        | ok =>
          exact attempt_error (by decide) fun _ => attempt_error (by decide) fun _ =>
            .harmless _ s (by decide) rfl

theorem attempt_run (h : Handler) : Attempt env req s (h.run J env req s) := by
  cases h with
  | setup => exact attempt_handleSetup
  | unlock => exact attempt_handleUnlock
  | logout => exact attempt_handleLogout
  | changePassword => exact attempt_handleChangePassword
  | status => exact .harmless _ s (by simp [Reply.isWrong, handleStatus]) rfl
  | _ => exact .harmless _ s (by simp [Reply.isWrong]) rfl

/-- **A password that was wrong is recorded, and was allowed before.** -/
theorem attempt_dispatch : Attempt env req s (dispatch J env req s) := by
  unfold dispatch
  refine attempt_ite (fun _ => .harmless _ s (by decide) rfl) fun _ =>
    attempt_ite (fun _ => ?_) fun _ => ?_
  · exact attempt_error (by decide) fun _ =>
      attempt_ite (fun _ => .harmless _ _ (by decide) rfl) fun _ => .harmless _ s (by decide) rfl
  · cases routes.find? (routeMatch req.method req.path) with
    | some r => exact attempt_error (by decide) fun _ => attempt_run r.handler
    | none =>
      exact attempt_ite (fun _ => .harmless _ s (by decide) rfl) fun _ =>
        .harmless _ s (by decide) rfl

/-! ## The log -/

/-- The address that a wrong password came from, and when. -/
def Note.guess? : Note → Option (List UInt8 × Int)
  | .answered env req reply => if reply.isWrong then some (req.ip, env.later) else none
  | .frame _ _ => none

/-- The wrong passwords so far. -/
def guessesOf (log : List Note) : List (List UInt8 × Int) := log.filterMap Note.guess?

/-- The times of the wrong passwords from an address. -/
def guessesFrom (ip : List UInt8) (log : List Note) : List Int :=
  ((guessesOf log).filter (·.1 = ip)).map Prod.snd

/-- The database works, and the clock never goes back. -/
def Steady (t : Site) : Event → Prop
  | .request env _ => env.sql = [] ∧ env.now ≤ env.later ∧
      ∀ guess ∈ guessesOf t.log, guess.2 ≤ env.now
  | .message _ => True

instance (t : Site) : (event : Event) → Decidable (Steady t event)
  | .request env _ => inferInstanceAs (Decidable (env.sql = [] ∧ env.now ≤ env.later ∧
      ∀ guess ∈ guessesOf t.log, guess.2 ≤ env.now))
  | .message _ => inferInstanceAs (Decidable True)

/-- The rows are the wrong passwords, and there are not too many of them. -/
structure Throttled (t : Site) : Prop where
  rows : ∃ rl, t.server.limiter = some rl ∧
    rl.unlockFailures = (guessesOf t.log).map fun guess => ⟨some guess.1, guess.2⟩
  from_ip : ∀ ip, Sparse 60 5 (guessesFrom ip t.log)
  total : Sparse 60 20 ((guessesOf t.log).map Prod.snd)

theorem faults_eq_none (h : env.sql = []) : env.faults = Faults.none := by
  funext site
  simp [Surroundings.faults, h, Faults.none]

theorem lt_of_columnInt {n cap : Nat} (hn : n ≤ cap) (h : ¬Int32.ofNat cap ≤ columnInt n) :
    n < cap := by
  by_contra hge
  obtain rfl : n = cap := by omega
  exact h (Int32.le_refl _)

variable {rl : RateLimiter (List UInt8)} {guesses : List (List UInt8 × Int)}

/-- The counts of an attempt that is allowed. -/
theorem room_of_unlockAllowed {now : Int} {ip : List UInt8}
    (hrows : rl.unlockFailures = guesses.map fun guess => ⟨some guess.1, guess.2⟩)
    (hip : ((guesses.filter (·.1 = ip)).map Prod.snd).countP (fun t => decide (now - 60 < t)) ≤ 5)
    (htotal : (guesses.map Prod.snd).countP (fun t => decide (now - 60 < t)) ≤ 20)
    (h : rateLimiterUnlockAllowed Faults.none now (some ip) 5 20 rl = true) :
    ((guesses.filter (·.1 = ip)).map Prod.snd).countP (fun t => decide (now - 60 < t)) < 5 ∧
      (guesses.map Prod.snd).countP (fun t => decide (now - 60 < t)) < 20 := by
  have hown : rl.unlockFailures.countP
      (fun row => row.ip = some ip && decide (now - 60 < row.timestamp)) =
      ((guesses.filter (·.1 = ip)).map Prod.snd).countP (fun t => decide (now - 60 < t)) := by
    rw [hrows, List.countP_map, List.countP_map, List.countP_filter]
    refine List.countP_congr fun guess _ => ?_
    simp [and_comm]
  have hall : rl.unlockFailures.countP (fun row => decide (now - 60 < row.timestamp)) =
      (guesses.map Prod.snd).countP (fun t => decide (now - 60 < t)) := by
    rw [hrows, List.countP_map, List.countP_map]
    rfl
  simp only [rateLimiterUnlockAllowed, Faults.none_apply, Bool.false_eq_true, if_false, countOf,
    hown, hall] at h
  constructor
  · refine lt_of_columnInt hip fun (hle : (5 : Int32) ≤ _) => ?_
    rw [if_pos hle] at h
    exact absurd h Bool.false_ne_true
  · refine lt_of_columnInt htotal fun (hle : (20 : Int32) ≤ _) => ?_
    rw [if_pos hle, ite_self] at h
    exact absurd h Bool.false_ne_true

theorem guessesOf_concat (log : List Note) (note : Note) :
    guessesOf (log ++ [note]) = guessesOf log ++ note.guess?.toList := by
  rw [guessesOf, List.filterMap_append]
  cases hguess : note.guess? <;> simp [guessesOf, hguess]

/-- A note that is no wrong password. -/
theorem Throttled.harmless {t t' : Site} {note : Note} (h : Throttled t)
    (hguess : note.guess? = none) (hlog : t'.log = t.log ++ [note])
    (hrows : ∃ rl, t'.server.limiter = some rl ∧
      rl.unlockFailures = (guessesOf t.log).map fun guess => ⟨some guess.1, guess.2⟩) :
    Throttled t' := by
  have hsame : guessesOf t'.log = guessesOf t.log := by
    rw [hlog, guessesOf_concat, hguess]
    exact List.append_nil _
  refine ⟨by rwa [hsame], fun ip => ?_, by rw [hsame]; exact h.total⟩
  rw [guessesFrom, hsame]
  exact h.from_ip ip

theorem Throttled.step {t t' : Site} {event : Event} (h : Throttled t) (hsteady : Steady t event)
    (hstep : step J t event = some t') : Throttled t' := by
  obtain ⟨rl, hlimiter, hrows⟩ := h.rows
  cases event with
  | message i =>
    obtain ⟨generation, -, rfl⟩ := Option.map_eq_some_iff.mp hstep
    exact h.harmless rfl rfl ⟨rl, hlimiter, hrows⟩
  | request env req =>
    obtain ⟨hsql, htimes, hpast⟩ := hsteady
    obtain rfl := Option.some.inj hstep
    -- The limit on requests leaves the rows of the failures alone.
    obtain ⟨buckets, hbuckets⟩ := snd_rateLimiterAllow env.faults env.now (some req.ip) rl
    have hallow : (t.server.allow env req.ip).2 =
        { t.server with limiter := some { rl with rateBuckets := buckets } } := by
      rw [Server.allow, hlimiter]
      dsimp only
      rw [hbuckets]
    have hattempt : Attempt env req
        { t.server with limiter := some { rl with rateBuckets := buckets } }
        (handleRequest J env req t.server) := by
      rw [handleRequest, hallow]
      exact attempt_ite (fun _ => attempt_dispatch) fun _ => .harmless _ _ (by decide) rfl
    generalize handleRequest J env req t.server = answer at hattempt
    cases hattempt with
    | harmless reply s' hreply hsame =>
      have hguess : (Note.answered env req reply).guess? = none := by
        rw [Note.guess?, hreply]
        rfl
      exact h.harmless hguess rfl ⟨_, hsame, hrows⟩
    | wrong reply hreply hallowed =>
      have hguesses : guessesOf (t.log ++ [.answered env req reply]) =
          guessesOf t.log ++ [(req.ip, env.later)] := by
        rw [guessesOf_concat, Note.guess?, hreply]
        rfl
      have hnow : ∀ time ∈ (guessesOf t.log).map Prod.snd, time ≤ env.now := by
        intro time htime
        obtain ⟨guess, hguess, rfl⟩ := List.mem_map.mp htime
        exact hpast guess hguess
      have hown : ∀ time ∈ guessesFrom req.ip t.log, time ≤ env.now := fun time htime =>
        hnow time (List.map_subset _ (List.filter_subset_self _) htime)
      rw [Server.unlockAllowed, faults_eq_none hsql] at hallowed
      obtain ⟨hroom, hroomTotal⟩ := room_of_unlockAllowed hrows
        ((h.from_ip req.ip).countP_le hown) (h.total.countP_le hnow) hallowed
      refine ⟨?_, fun ip => ?_, ?_⟩
      · refine ⟨_, rfl, ?_⟩
        rw [hguesses, faults_eq_none hsql, rateLimiterRecordUnlockFailure,
          if_pos (done_none Statement.record), List.map_append]
        exact congrArg (· ++ _) hrows
      · rw [guessesFrom, hguesses, List.filter_append, List.map_append]
        by_cases hip : req.ip = ip
        · subst hip
          have hnext := (h.from_ip req.ip).concat htimes hroom
          rw [guessesFrom] at hnext
          simpa using hnext
        · have hother := h.from_ip ip
          rw [guessesFrom] at hother
          simpa [hip] using hother
      · rw [hguesses, List.map_append]
        exact h.total.concat htimes hroomTotal

end EchoAi.Auth
