import EchoAi.Lockstep
import Mathlib.Data.Int.Order.Basic

/-!
# The circuit breaker

After too many failures a breaker lets nothing through for a while, and then a probe.

* `cbIsAvailable`, `cbRecordSuccess`, `cbRecordFailure`: the operations, each at its time.
* `Obeys`: nothing is admitted in the time after a trip, one call is admitted as a probe, and its
  outcome closes the breaker or opens it again.
* `opened_after_trip`: the breaker stays open as long as it should.
* `obeys_iff`: the rules are kept just as long as nobody asks again during a probe, and a failure of
  the probe is one too many.
-/

namespace EchoAi.Breakers

/-! ## The operations -/

/-- `CBState` -/
inductive CBState where
  | closed
  | opened
  | halfOpen
  deriving DecidableEq, Repr

/-- A breaker; the count of failures is an `int`, and wraps. -/
structure CircuitBreaker where
  state : CBState
  failureCount : Int32
  failureThreshold : Int32
  halfOpenTimeoutMs : Int32
  openedAtMs : Int
  deriving DecidableEq, Repr

/-- `cb_create` -/
def cbCreate (failureThreshold halfOpenTimeoutMs : Int32) : CircuitBreaker where
  state := .closed
  failureCount := 0
  failureThreshold := if 0 < failureThreshold then failureThreshold else 5
  halfOpenTimeoutMs := if 0 < halfOpenTimeoutMs then halfOpenTimeoutMs else 30000
  openedAtMs := 0

/-- `cb_is_available` at a time. -/
def cbIsAvailable (cb : CircuitBreaker) (now : Int) : Bool × CircuitBreaker :=
  match cb.state with
  | .closed => (true, cb)
  | .opened =>
    if cb.halfOpenTimeoutMs.toInt ≤ now - cb.openedAtMs then (true, { cb with state := .halfOpen })
    else (false, cb)
  | .halfOpen => (true, cb)

/-- `cb_record_success` -/
def cbRecordSuccess (cb : CircuitBreaker) : CircuitBreaker :=
  let cb := { cb with failureCount := 0 }
  if cb.state = .halfOpen then { cb with state := .closed } else cb

/-- `cb_record_failure` at a time. -/
def cbRecordFailure (cb : CircuitBreaker) (now : Int) : CircuitBreaker :=
  let cb := { cb with failureCount := cb.failureCount + 1 }
  if cb.failureThreshold ≤ cb.failureCount then { cb with state := .opened, openedAtMs := now }
  else cb

/-! ## Runs -/

/-- One of the operations. -/
inductive Op where
  | isAvailable
  | recordSuccess
  | recordFailure
  deriving DecidableEq, Repr

/-- An operation at its time. -/
structure Call where
  op : Op
  now : Int
  deriving DecidableEq, Repr

/-- The breaker behind a call. -/
def callStep (cb : CircuitBreaker) (c : Call) : CircuitBreaker :=
  match c.op with
  | .isAvailable => (cbIsAvailable cb c.now).2
  | .recordSuccess => cbRecordSuccess cb
  | .recordFailure => cbRecordFailure cb c.now

/-- The call asks, and is admitted. -/
def Admits (cb : CircuitBreaker) (c : Call) : Prop :=
  c.op = .isAvailable ∧ (cbIsAvailable cb c.now).1 = true

/-- The call is the failure that trips the breaker. -/
def Trips (cb : CircuitBreaker) (c : Call) : Prop :=
  c.op = .recordFailure ∧ cb.failureThreshold ≤ cb.failureCount + 1

/-- The call asks, and an open breaker becomes half open. -/
def Promotes (cb : CircuitBreaker) (c : Call) : Prop :=
  c.op = .isAvailable ∧ cb.state = .opened ∧ (callStep cb c).state = .halfOpen

/-- What a breaker promises for a run. -/
structure Obeys (start : CircuitBreaker) (calls : List Call) : Prop where
  /-- Until the timeout has passed behind a trip, no call is admitted. -/
  cooldown : ∀ before c mid c', before ++ c :: mid ++ [c'] <+: calls →
    Trips (stateAfter callStep start before) c → c'.now < c.now + start.halfOpenTimeoutMs.toInt →
    ¬Admits (stateAfter callStep start (before ++ c :: mid)) c'
  /-- Behind the probe no call is admitted before an outcome is recorded. -/
  probe : ∀ before c mid c', before ++ c :: mid ++ [c'] <+: calls →
    Promotes (stateAfter callStep start before) c → (∀ m ∈ mid, m.op = .isAvailable) →
    ¬Admits (stateAfter callStep start (before ++ c :: mid)) c'
  /-- A success closes a half open breaker. -/
  success : ∀ front c, front ++ [c] <+: calls → (stateAfter callStep start front).state = .halfOpen →
    c.op = .recordSuccess → (stateAfter callStep start (front ++ [c])).state = .closed
  /-- A failure opens a half open breaker again. -/
  failure : ∀ front c, front ++ [c] <+: calls → (stateAfter callStep start front).state = .halfOpen →
    c.op = .recordFailure → (stateAfter callStep start (front ++ [c])).state = .opened

/-- Nobody asks while the breaker is half open, and a failure then reaches the threshold. -/
def Meets (cb : CircuitBreaker) (c : Call) : Prop :=
  cb.state = .halfOpen →
    c.op ≠ .isAvailable ∧ (c.op = .recordFailure → cb.failureThreshold ≤ cb.failureCount + 1)

/-! ## One call -/

section CallStep

variable {cb : CircuitBreaker} {c : Call}

theorem halfOpenTimeoutMs_callStep (cb : CircuitBreaker) (c : Call) :
    (callStep cb c).halfOpenTimeoutMs = cb.halfOpenTimeoutMs := by
  rw [callStep]
  split
  · rw [cbIsAvailable]
    split
    · rfl
    · split <;> rfl
    · rfl
  · rw [cbRecordSuccess]
    dsimp only
    split <;> rfl
  · rw [cbRecordFailure]
    dsimp only
    split <;> rfl

theorem callStep_of_trips (h : Trips cb c) :
    (callStep cb c).state = .opened ∧ (callStep cb c).openedAtMs = c.now := by
  have hstep : callStep cb c = cbRecordFailure cb c.now := by rw [callStep, h.1]
  rw [hstep, cbRecordFailure]
  dsimp only
  rw [if_pos h.2]
  exact ⟨rfl, rfl⟩

/-- An open breaker stays open until the timeout has passed. -/
theorem callStep_of_opened (h : cb.state = .opened)
    (hnow : c.now < cb.openedAtMs + cb.halfOpenTimeoutMs.toInt) :
    (callStep cb c).state = .opened ∧ ¬Admits cb c ∧
      ((callStep cb c).openedAtMs = cb.openedAtMs ∨ (callStep cb c).openedAtMs = c.now) := by
  have hclosed : (cbIsAvailable cb c.now) = (false, cb) := by
    rw [cbIsAvailable, h]
    dsimp only
    rw [if_neg (by omega)]
  have hadmits : ¬Admits cb c := by
    rintro ⟨-, hadmitted⟩
    rw [hclosed] at hadmitted
    exact Bool.false_ne_true hadmitted
  refine ⟨?_, hadmits, ?_⟩
  · rw [callStep]
    split
    · rw [hclosed]
      exact h
    · rw [cbRecordSuccess]
      dsimp only
      rw [h, if_neg (by decide)]
    · rw [cbRecordFailure]
      dsimp only
      split
      · rfl
      · exact h
  · rw [callStep]
    split
    · rw [hclosed]
      exact Or.inl rfl
    · rw [cbRecordSuccess]
      dsimp only
      rw [h, if_neg (by decide)]
      exact Or.inl rfl
    · rw [cbRecordFailure]
      dsimp only
      split
      · exact Or.inr rfl
      · exact Or.inl rfl

/-- A half open breaker admits everybody who asks, and stays as it is. -/
theorem callStep_of_halfOpen (h : cb.state = .halfOpen) (hop : c.op = .isAvailable) :
    callStep cb c = cb ∧ Admits cb c := by
  have havailable : cbIsAvailable cb c.now = (true, cb) := by rw [cbIsAvailable, h]
  refine ⟨?_, hop, ?_⟩
  · rw [callStep, hop]
    dsimp only
    rw [havailable]
  · rw [havailable]

theorem state_recordSuccess (h : cb.state = .halfOpen) (hop : c.op = .recordSuccess) :
    (callStep cb c).state = .closed := by
  rw [callStep, hop]
  dsimp only
  rw [cbRecordSuccess]
  dsimp only
  rw [if_pos h]

/-- A failure opens a half open breaker again just when it reaches the threshold. -/
theorem state_recordFailure_iff (h : cb.state = .halfOpen) (hop : c.op = .recordFailure) :
    (callStep cb c).state = .opened ↔ cb.failureThreshold ≤ cb.failureCount + 1 := by
  rw [callStep, hop]
  dsimp only
  rw [cbRecordFailure]
  dsimp only
  split
  · next hreached => exact iff_of_true rfl hreached
  · next hnot =>
    rw [h]
    exact iff_of_false (by decide) hnot

/-- A breaker becomes half open at a probe only. -/
theorem promotes_of_halfOpen (h : (callStep cb c).state = .halfOpen) (hnot : cb.state ≠ .halfOpen) :
    Promotes cb c := by
  have hstep := h
  rw [callStep] at h
  split at h
  · next hop =>
    refine ⟨hop, ?_, hstep⟩
    cases hstate : cb.state with
    | closed =>
      rw [cbIsAvailable, hstate] at h
      exact absurd (h.symm.trans hstate) (by decide)
    | opened => rfl
    | halfOpen => exact absurd hstate hnot
  · rw [cbRecordSuccess] at h
    dsimp only at h
    rw [if_neg hnot] at h
    exact absurd h hnot
  · rw [cbRecordFailure] at h
    dsimp only at h
    split at h
    · exact absurd h CBState.noConfusion
    · exact absurd h hnot

end CallStep

/-! ## Runs of calls -/

section Runs

variable {start : CircuitBreaker} {calls : List Call}

theorem halfOpenTimeoutMs_stateAfter (start : CircuitBreaker) (calls : List Call) :
    (stateAfter callStep start calls).halfOpenTimeoutMs = start.halfOpenTimeoutMs := by
  induction calls using List.reverseRecOn with
  | nil => rfl
  | append_singleton calls c ih => rw [stateAfter_concat, halfOpenTimeoutMs_callStep, ih]

/-- The breaker is open in the time behind a trip. -/
theorem opened_after_trip {before mid : List Call} {c : Call} {limit : Int}
    (htrip : Trips (stateAfter callStep start before) c)
    (hclock : ((c :: mid).map Call.now).Pairwise (· ≤ ·)) (hmid : ∀ m ∈ mid, m.now ≤ limit)
    (hlimit : limit < c.now + start.halfOpenTimeoutMs.toInt) :
    (stateAfter callStep start (before ++ c :: mid)).state = .opened ∧
      c.now ≤ (stateAfter callStep start (before ++ c :: mid)).openedAtMs := by
  induction mid using List.reverseRecOn with
  | nil =>
    have hstep := callStep_of_trips htrip
    rw [stateAfter_concat]
    exact ⟨hstep.1, Int.le_of_eq hstep.2.symm⟩
  | append_singleton mid m ih =>
    rw [List.forall_mem_append, List.forall_mem_singleton] at hmid
    have hsplit : (c :: (mid ++ [m])).map Call.now = (c :: mid).map Call.now ++ [m.now] := by simp
    rw [hsplit, List.pairwise_append] at hclock
    have hlater : c.now ≤ m.now := hclock.2.2 c.now List.mem_cons_self m.now List.mem_cons_self
    obtain ⟨hopened, hat⟩ := ih hclock.1 hmid.1
    have hshape : before ++ c :: (mid ++ [m]) = before ++ c :: mid ++ [m] := by simp
    rw [hshape, stateAfter_concat]
    have htimeout := halfOpenTimeoutMs_stateAfter start (before ++ c :: mid)
    obtain ⟨hstate, -, hopenedAt⟩ := callStep_of_opened (c := m) hopened (by
      rw [htimeout]
      have := hmid.2
      omega)
    refine ⟨hstate, ?_⟩
    rcases hopenedAt with hsame | hnow
    · rw [hsame]
      exact hat
    · rw [hnow]
      exact hlater

/-- Where failures open a half open breaker again, it is half open behind a probe and calls that
only ask. -/
theorem exists_probe (hstart : start.state ≠ .halfOpen)
    (hfailure : ∀ front c, front ++ [c] <+: calls →
      (stateAfter callStep start front).state = .halfOpen → c.op = .recordFailure →
        (stateAfter callStep start (front ++ [c])).state = .opened)
    (h : (stateAfter callStep start calls).state = .halfOpen) :
    ∃ before c mid, calls = before ++ c :: mid ∧ Promotes (stateAfter callStep start before) c ∧
      ∀ m ∈ mid, m.op = .isAvailable := by
  induction calls using List.reverseRecOn with
  | nil => exact absurd h hstart
  | append_singleton calls last ih =>
    rw [stateAfter_concat] at h
    by_cases hbefore : (stateAfter callStep start calls).state = .halfOpen
    · obtain ⟨before, c, mid, rfl, hpromotes, hmid⟩ := ih (fun front c hfront =>
        hfailure front c (hfront.trans (List.prefix_append calls [last]))) hbefore
      refine ⟨before, c, mid ++ [last], by simp, hpromotes, ?_⟩
      rw [List.forall_mem_append, List.forall_mem_singleton]
      refine ⟨hmid, ?_⟩
      -- an outcome would have ended the probe
      cases hop : last.op with
      | isAvailable => rfl
      | recordSuccess =>
        rw [state_recordSuccess hbefore hop] at h
        exact absurd h (by decide)
      | recordFailure =>
        have hopened := hfailure _ last List.prefix_rfl hbefore hop
        rw [stateAfter_concat, h] at hopened
        exact absurd hopened (by decide)
    · exact ⟨calls, last, [], rfl, promotes_of_halfOpen h hbefore, nofun⟩

/-- A breaker that keeps its promises meets the condition at every call. -/
theorem Obeys.meets (h : Obeys start calls) (hstart : start.state ≠ .halfOpen) {front : List Call}
    {c : Call} (hfront : front ++ [c] <+: calls) : Meets (stateAfter callStep start front) c := by
  intro hhalf
  refine ⟨fun hop => ?_, fun hop => ?_⟩
  · obtain ⟨before, probe, mid, rfl, hpromotes, hmid⟩ := exists_probe hstart
      (fun front' c' hfront' => h.failure front' c'
        (hfront'.trans ((List.prefix_append front [c]).trans hfront))) hhalf
    exact h.probe before probe mid c hfront hpromotes hmid (callStep_of_halfOpen hhalf hop).2
  · have hopened := h.failure front c hfront hhalf hop
    rw [stateAfter_concat] at hopened
    exact (state_recordFailure_iff hhalf hop).mp hopened

/-- Whatever is asked in the time after a trip is turned down. -/
theorem not_admits_of_trips (hclock : (calls.map Call.now).Pairwise (· ≤ ·))
    {before mid : List Call} {c c' : Call} (hrun : before ++ c :: mid ++ [c'] <+: calls)
    (htrip : Trips (stateAfter callStep start before) c)
    (hsoon : c'.now < c.now + start.halfOpenTimeoutMs.toInt) :
    ¬Admits (stateAfter callStep start (before ++ c :: mid)) c' := by
  have hwhole : ((before ++ c :: mid ++ [c']).map Call.now).Pairwise (· ≤ ·) :=
    hclock.sublist (hrun.sublist.map Call.now)
  have hsplit : (before ++ c :: mid ++ [c']).map Call.now =
      before.map Call.now ++ ((c :: mid).map Call.now ++ [c'.now]) := by simp
  rw [hsplit, List.pairwise_append, List.pairwise_append] at hwhole
  obtain ⟨-, ⟨hbehind, -, hlast⟩, -⟩ := hwhole
  have hmid : ∀ m ∈ mid, m.now ≤ c'.now := fun m hm =>
    hlast m.now (List.mem_map_of_mem (List.mem_cons_of_mem c hm)) c'.now List.mem_cons_self
  obtain ⟨hopened, hat⟩ := opened_after_trip htrip hbehind hmid hsoon
  refine (callStep_of_opened hopened ?_).2.1
  rw [halfOpenTimeoutMs_stateAfter]
  omega

/-- A breaker whose calls all meet the condition keeps its promises. -/
theorem obeys_of_meets (hclock : (calls.map Call.now).Pairwise (· ≤ ·))
    (h : ∀ front c, front ++ [c] <+: calls → Meets (stateAfter callStep start front) c) :
    Obeys start calls where
  cooldown _ _ _ _ hrun htrip hsoon := not_admits_of_trips hclock hrun htrip hsoon
  probe before c mid c' hrun hpromotes hmid := by
    have hhalf : (stateAfter callStep start (before ++ [c])).state = .halfOpen := by
      rw [stateAfter_concat]
      exact hpromotes.2.2
    cases mid with
    | nil => exact fun hadmits => (h _ c' hrun hhalf).1 hadmits.1
    | cons m mid =>
      -- already the next call asks while the breaker is half open
      have hfront : before ++ [c] ++ [m] <+: calls := by
        refine List.IsPrefix.trans ⟨mid ++ [c'], ?_⟩ hrun
        simp
      exact absurd (hmid m List.mem_cons_self) (h _ m hfront hhalf).1
  success front c hfront hhalf hop := by
    rw [stateAfter_concat]
    exact state_recordSuccess hhalf hop
  failure front c hfront hhalf hop := by
    rw [stateAfter_concat]
    exact (state_recordFailure_iff hhalf hop).mpr ((h front c hfront hhalf).2 hop)

end Runs

/-- **One probe at a time**: a breaker keeps its promises just in the runs in which nobody asks while
it is half open, and a failure then reaches the threshold. -/
theorem obeys_iff (failureThreshold halfOpenTimeoutMs : Int32) (calls : List Call)
    (hclock : (calls.map Call.now).Pairwise (· ≤ ·)) :
    Obeys (cbCreate failureThreshold halfOpenTimeoutMs) calls ↔ ∀ front c, front ++ [c] <+: calls →
      Meets (stateAfter callStep (cbCreate failureThreshold halfOpenTimeoutMs) front) c :=
  ⟨fun h _ _ hfront => h.meets CBState.noConfusion hfront, fun h => obeys_of_meets hclock h⟩

/-- A probe whose success is recorded before anybody asks again. -/
theorem obeys_iff_success :
    Obeys (cbCreate 1 1000) [⟨.recordFailure, 0⟩, ⟨.isAvailable, 1000⟩, ⟨.recordSuccess, 1001⟩] ↔
      ∀ front c,
        front ++ [c] <+: [⟨.recordFailure, 0⟩, ⟨.isAvailable, 1000⟩, ⟨.recordSuccess, 1001⟩] →
        Meets (stateAfter callStep (cbCreate 1 1000) front) c :=
  obeys_iff 1 1000 _ (by decide)

/-- The second call that asks after the timeout is admitted like the first one, before any outcome
of the probe. -/
theorem not_obeys :
    ¬Obeys (cbCreate 1 1000) [⟨.recordFailure, 0⟩, ⟨.isAvailable, 1000⟩, ⟨.isAvailable, 1000⟩] :=
  fun h => h.probe [⟨.recordFailure, 0⟩] ⟨.isAvailable, 1000⟩ [] ⟨.isAvailable, 1000⟩
    List.prefix_rfl ⟨rfl, by decide, by decide⟩ (fun m hm => absurd hm List.not_mem_nil)
    ⟨rfl, by decide⟩

end EchoAi.Breakers
