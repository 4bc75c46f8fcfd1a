import Mathlib.Algebra.Group.Int.Defs
import Mathlib.Algebra.Group.Nat.Defs
import Mathlib.Data.Int.Order.Basic
import EchoAi.Faults
import EchoAi.FixedWindow
import EchoAi.Lockstep
import EchoAi.Table

/-!
# The rate limiter

Requests are counted per address in fixed windows, failed unlock attempts in a rolling minute, both
in tables of a database.  Where a statement fails the request is allowed.

* `rateLimiterAllow`, `rateLimiterRecordUnlockFailure`, `rateLimiterUnlockAllowed`: the three calls.
* `answers`: a sequence of calls, each with what it returned.
* `rateLimiterAllow_eq`: for one address a call is one of a fixed window; `verdictsOf_answers`: so
  are the calls of a sequence.
* `Bounded`: what the limiter does to a sequence of calls.
* `bounded_iff`: it does unless the number of failures in a minute is too large for an `int`.
-/

namespace EchoAi.RateLimits

variable {α : Type} [DecidableEq α]

/-! ## The tables and the calls -/

/-- A row of `rate_buckets`. -/
structure RateBucket (α : Type) where
  ip : α
  windowStart : Int
  count : Nat
  deriving DecidableEq

/-- `SET window_start = ?, count = 1` -/
def RateBucket.reset (now : Int) (row : RateBucket α) : RateBucket α :=
  { row with windowStart := now, count := 1 }

/-- `SET count = count + 1` -/
def RateBucket.increment (row : RateBucket α) : RateBucket α := { row with count := row.count + 1 }

/-- A row of `unlock_failures`; a missing address is recorded as `NULL`. -/
structure UnlockFailure (α : Type) where
  ip : Option α
  timestamp : Int
  deriving DecidableEq

structure RateLimiter (α : Type) where
  maxRequests : Int32
  windowSecs : Int32
  rateBuckets : List (RateBucket α) := []
  unlockFailures : List (UnlockFailure α) := []
  deriving DecidableEq

/-- A limiter over a database without tables yet. -/
def rateLimiterCreate (maxRequests windowSecs : Int32) : RateLimiter α :=
  { maxRequests, windowSecs }

/-- The statements of a call, each prepared and then stepped. -/
inductive Statement
  | select
  | reset
  | increment
  | insert
  | record
  | perIp
  | global
  deriving DecidableEq

/-- Where a call of the database can fail. -/
inductive SqlSite
  | prepare (stmt : Statement)
  | step (stmt : Statement)
  deriving DecidableEq

/-- `sqlite3_column_int`: an integer column, cut to an `int`. -/
def columnInt (n : Nat) : Int32 := Int32.ofNat n

/-- A statement that writes took effect. -/
def done (fail : Faults SqlSite) (stmt : Statement) : Bool :=
  !fail (.prepare stmt) && !fail (.step stmt)

def rateLimiterAllow (fail : Faults SqlSite) (now : Int) (ip : Option α) (rl : RateLimiter α) :
    Bool × RateLimiter α :=
  match ip with
  | none => (true, rl)
  | some ip =>
    if fail (.prepare .select) then (true, rl)
    else
      match if fail (.step .select) then none else findRow RateBucket.ip ip rl.rateBuckets with
      | some row =>
        if rl.windowSecs.toInt ≤ now - row.windowStart then
          let reset := updateRows RateBucket.ip ip (RateBucket.reset now) rl.rateBuckets
          (true, if done fail .reset then { rl with rateBuckets := reset } else rl)
        else if rl.maxRequests ≤ columnInt row.count then (false, rl)
        else
          let incremented := updateRows RateBucket.ip ip RateBucket.increment rl.rateBuckets
          (true, if done fail .increment then { rl with rateBuckets := incremented } else rl)
      | none =>
        let inserted := (insertRow RateBucket.ip ⟨ip, now, 1⟩ rl.rateBuckets).1
        (true, if done fail .insert then { rl with rateBuckets := inserted } else rl)

def rateLimiterRecordUnlockFailure (fail : Faults SqlSite) (now : Int) (ip : Option α)
    (rl : RateLimiter α) : RateLimiter α :=
  if done fail .record then { rl with unlockFailures := rl.unlockFailures ++ [⟨ip, now⟩] } else rl

/-- `SELECT COUNT(*)` into an `int` that is zero before. -/
def countOf (fail : Faults SqlSite) (stmt : Statement) (p : UnlockFailure α → Bool)
    (rl : RateLimiter α) : Int32 :=
  if fail (.step stmt) then 0 else columnInt (rl.unlockFailures.countP p)

def rateLimiterUnlockAllowed (fail : Faults SqlSite) (now : Int) (ip : Option α)
    (maxPerIp maxGlobal : Int32) (rl : RateLimiter α) : Bool :=
  match ip with
  | none => true
  | some ip =>
    let cutoff := now - 60
    if fail (.prepare .perIp) then true
    else if maxPerIp ≤ countOf fail .perIp
        (fun row => row.ip = some ip && decide (cutoff < row.timestamp)) rl then false
    else if fail (.prepare .global) then true
    else if maxGlobal ≤ countOf fail .global (fun row => decide (cutoff < row.timestamp)) rl then
      false
    else true

/-! ## One address -/

/-- The window of an address, as its row has it. -/
def windowOf (ip : α) (rl : RateLimiter α) : Option (Window Int) :=
  (findRow RateBucket.ip ip rl.rateBuckets).map fun row => ⟨row.windowStart, row.count⟩

/-- How many requests a window admits. -/
def capacity (rl : RateLimiter α) : Nat := rl.maxRequests.toInt.toNat

/-- No window has counted more requests than it admits. -/
def Fits (rl : RateLimiter α) : Prop := ∀ ip w, windowOf ip rl = some w → w.used ≤ capacity rl

theorem windowOf_updateRows {change : RateBucket α → RateBucket α}
    (hkey : ∀ row, (change row).ip = row.ip) (rl : RateLimiter α) (ip ip' : α) :
    windowOf ip' { rl with rateBuckets := updateRows RateBucket.ip ip change rl.rateBuckets } =
      if ip' = ip then
        (findRow RateBucket.ip ip rl.rateBuckets).map fun row =>
          ⟨(change row).windowStart, (change row).count⟩
      else windowOf ip' rl := by
  rw [windowOf, findRow_updateRows hkey]
  split
  · next heq => rw [heq, Option.map_map, Function.comp_def]
  · rfl

theorem windowOf_insertRow {rl : RateLimiter α} {ip : α} (hnone : windowOf ip rl = none) (now : Int)
    (ip' : α) :
    windowOf ip'
        { rl with rateBuckets := (insertRow RateBucket.ip ⟨ip, now, 1⟩ rl.rateBuckets).1 } =
      if ip' = ip then some ⟨now, 1⟩ else windowOf ip' rl := by
  have hrow : findRow RateBucket.ip ip rl.rateBuckets = none := Option.map_eq_none_iff.mp hnone
  have hinsert : insertRow RateBucket.ip ⟨ip, now, 1⟩ rl.rateBuckets =
      (rl.rateBuckets ++ [⟨ip, now, 1⟩], true) := insertRow_of_none hrow
  rw [windowOf, hinsert, findRow_append]
  by_cases heq : ip' = ip
  · rw [if_pos heq, heq, hrow, Option.none_or, findRow, if_pos rfl]
    rfl
  · rw [if_neg heq, findRow_cons_of_ne (Ne.symm heq), findRow, Option.or_none, windowOf]

omit [DecidableEq α] in
/-- A count that fits is compared as it is. -/
theorem le_columnInt_iff {rl : RateLimiter α} (hmax : 1 ≤ rl.maxRequests.toInt) {n : Nat}
    (hn : n ≤ capacity rl) : rl.maxRequests ≤ columnInt n ↔ capacity rl ≤ n := by
  have hlt := rl.maxRequests.toInt_lt
  rw [capacity] at hn ⊢
  rw [Int32.le_iff_toInt_le, columnInt, Int32.toInt_ofNat_of_lt (by omega)]
  omega

theorem done_none (stmt : Statement) : done Faults.none stmt = true := rfl

/-- **For one address a call is one of a fixed window**, and the other addresses do not see it. -/
theorem rateLimiterAllow_eq {rl : RateLimiter α} (hmax : 1 ≤ rl.maxRequests.toInt) (hfits : Fits rl)
    (now : Int) (ip : α) :
    ∃ buckets, rateLimiterAllow Faults.none now (some ip) rl =
        ((knock rl.windowSecs.toInt (capacity rl) now (windowOf ip rl)).1,
          { rl with rateBuckets := buckets }) ∧
      ∀ ip', windowOf ip' { rl with rateBuckets := buckets } =
        if ip' = ip then
          some (knock rl.windowSecs.toInt (capacity rl) now (windowOf ip rl)).2
        else windowOf ip' rl := by
  cases hrow : findRow RateBucket.ip ip rl.rateBuckets with
  | none =>
    have hnone : windowOf ip rl = none := by rw [windowOf, hrow, Option.map_none]
    refine ⟨(insertRow RateBucket.ip ⟨ip, now, 1⟩ rl.rateBuckets).1, ?_, fun ip' => ?_⟩
    · simp only [rateLimiterAllow, Faults.none_apply, done_none, Bool.false_eq_true, if_false,
        if_true, hrow]
      rw [hnone, knock]
    · rw [windowOf_insertRow hnone now, hnone, knock]
  | some row =>
    have hsome : windowOf ip rl = some ⟨row.windowStart, row.count⟩ := by
      rw [windowOf, hrow, Option.map_some]
    have hlate : rl.windowSecs.toInt ≤ now - row.windowStart ↔
        row.windowStart + rl.windowSecs.toInt ≤ now := by omega
    have hfull := le_columnInt_iff hmax (hfits ip _ hsome)
    have hself : ∀ ip', windowOf ip' rl = if ip' = ip then windowOf ip rl else windowOf ip' rl := by
      intro ip'
      split
      · next heq => rw [heq]
      · rfl
    simp only [rateLimiterAllow, Faults.none_apply, done_none, Bool.false_eq_true, if_false,
      if_true, hrow, hlate, hfull]
    rw [hsome, knock]
    by_cases hreset : row.windowStart + rl.windowSecs.toInt ≤ now
    · rw [if_pos hreset, if_pos hreset]
      refine ⟨_, rfl, fun ip' => ?_⟩
      refine (windowOf_updateRows (fun row => (rfl : (row.reset now).ip = row.ip)) rl ip ip').trans ?_
      rw [hrow, Option.map_some]
      rfl
    · rw [if_neg hreset, if_neg hreset]
      by_cases hrefused : capacity rl ≤ row.count
      · rw [if_pos hrefused, if_pos hrefused]
        refine ⟨rl.rateBuckets, rfl, fun ip' => ?_⟩
        rw [← hsome]
        exact hself ip'
      · rw [if_neg hrefused, if_neg hrefused]
        refine ⟨_, rfl, fun ip' => ?_⟩
        refine (windowOf_updateRows (fun row => (rfl : row.increment.ip = row.ip)) rl ip ip').trans ?_
        rw [hrow, Option.map_some]
        rfl

/-! ## Sequences of calls -/

inductive Request
  | allow
  | recordUnlockFailure
  deriving DecidableEq

/-- A call at a time; the address may be missing. -/
structure Call (α : Type) where
  now : Int
  ip : Option α
  request : Request
  deriving DecidableEq

/-- One call where no statement fails, with the verdict on a request. -/
def handle (rl : RateLimiter α) (c : Call α) : Option Bool × RateLimiter α :=
  match c.request with
  | .allow =>
    let (allowed, rl) := rateLimiterAllow Faults.none c.now c.ip rl
    (some allowed, rl)
  | .recordUnlockFailure => (none, rateLimiterRecordUnlockFailure Faults.none c.now c.ip rl)

/-- The calls of a sequence with what they returned. -/
def answers : RateLimiter α → List (Call α) → List (Call α × Option Bool)
  | _, [] => []
  | rl, c :: calls => (c, (handle rl c).1) :: answers (handle rl c).2 calls

/-- The limiter behind some calls. -/
def limiterAfter (rl : RateLimiter α) (calls : List (Call α)) : RateLimiter α :=
  stateAfter (fun rl c => (handle rl c).2) rl calls

/-- A request of an address. -/
def AskedBy (ip : α) (c : Call α) : Prop := c.request = .allow ∧ c.ip = some ip

instance (ip : α) : DecidablePred (AskedBy ip) := fun c =>
  inferInstanceAs (Decidable (c.request = .allow ∧ c.ip = some ip))

/-- When an address made requests. -/
def timesOf (ip : α) (calls : List (Call α)) : List Int :=
  (calls.filter fun c => AskedBy ip c).map Call.now

/-- The verdicts on the requests of an address. -/
def verdictsOf (ip : α) (log : List (Call α × Option Bool)) : List (Int × Bool) :=
  log.filterMap fun e => if AskedBy ip e.1 then e.2.map fun allowed => (e.1.now, allowed) else none

/-- The unlock failures of the last 60 seconds among some calls. -/
def recentFailures (now : Int) (calls : List (Call α)) : List (Call α) :=
  calls.filter fun c => c.request = .recordUnlockFailure ∧ now - c.now < 60

/-- Those of an address. -/
def recentFailuresOf (ip : α) (now : Int) (calls : List (Call α)) : List (Call α) :=
  (recentFailures now calls).filter fun c => c.ip = some ip

/-- What one call does to the windows, and what it returns to an address that asks. -/
theorem handle_spec {rl : RateLimiter α} (hmax : 1 ≤ rl.maxRequests.toInt) (hfits : Fits rl)
    (c : Call α) (ip : α) :
    if AskedBy ip c then
      (handle rl c).1 =
          some (knock rl.windowSecs.toInt (capacity rl) c.now (windowOf ip rl)).1 ∧
        windowOf ip (handle rl c).2 =
          some (knock rl.windowSecs.toInt (capacity rl) c.now (windowOf ip rl)).2
    else windowOf ip (handle rl c).2 = windowOf ip rl := by
  obtain ⟨now, asking, request⟩ := c
  cases request with
  | recordUnlockFailure =>
    rw [if_neg (fun h => nomatch h.1)]
    rfl
  | allow =>
    cases asking with
    | none =>
      rw [if_neg (fun h => nomatch h.2)]
      rfl
    | some ip' =>
      obtain ⟨buckets, heq, hwindows⟩ := rateLimiterAllow_eq hmax hfits now ip'
      rw [handle, heq]
      split
      · next hasked =>
        obtain rfl : ip' = ip := Option.some.inj hasked.2
        exact ⟨rfl, (hwindows ip').trans (if_pos rfl)⟩
      · next hasked =>
        exact (hwindows ip).trans (if_neg fun heq => hasked ⟨rfl, congrArg some heq.symm⟩)

/-- A request changes nothing but the windows. -/
theorem snd_rateLimiterAllow (fail : Faults SqlSite) (now : Int) (ip : Option α)
    (rl : RateLimiter α) :
    ∃ buckets, (rateLimiterAllow fail now ip rl).2 = { rl with rateBuckets := buckets } := by
  have hwritten : ∀ (written : Bool) (buckets : List (RateBucket α)), ∃ buckets',
      (if written = true then { rl with rateBuckets := buckets } else rl) =
        { rl with rateBuckets := buckets' } := by
    intro written buckets
    cases written with
    | true => exact ⟨buckets, rfl⟩
    | false => exact ⟨rl.rateBuckets, rfl⟩
  cases ip with
  | none => exact ⟨rl.rateBuckets, rfl⟩
  | some ip =>
    rw [rateLimiterAllow]
    split
    · exact ⟨rl.rateBuckets, rfl⟩
    · split
      · split
        · exact hwritten _ _
        · split
          · exact ⟨rl.rateBuckets, rfl⟩
          · exact hwritten _ _
      · exact hwritten _ _

theorem limits_handle (rl : RateLimiter α) (c : Call α) :
    (handle rl c).2.maxRequests = rl.maxRequests ∧ (handle rl c).2.windowSecs = rl.windowSecs := by
  rw [handle]
  split
  · obtain ⟨buckets, heq⟩ := snd_rateLimiterAllow Faults.none c.now c.ip rl
    have hmax := congrArg RateLimiter.maxRequests heq
    have hsecs := congrArg RateLimiter.windowSecs heq
    exact ⟨hmax, hsecs⟩
  · exact ⟨rfl, rfl⟩

theorem capacity_handle (rl : RateLimiter α) (c : Call α) :
    capacity (handle rl c).2 = capacity rl := by
  rw [capacity, capacity, (limits_handle rl c).1]

theorem fits_handle {rl : RateLimiter α} (hmax : 1 ≤ rl.maxRequests.toInt) (hfits : Fits rl)
    (c : Call α) : Fits (handle rl c).2 := by
  intro ip w hw
  have hcap : 1 ≤ capacity rl := by
    rw [capacity]
    omega
  have hstep := handle_spec hmax hfits c ip
  rw [capacity_handle]
  split at hstep
  · obtain rfl := Option.some.inj (hw.symm.trans hstep.2)
    exact used_knock_le hcap c.now fun w' hw' => hfits ip w' hw'
  · exact hfits ip w (hstep ▸ hw)

theorem timesOf_cons (ip : α) (c : Call α) (calls : List (Call α)) :
    timesOf ip (c :: calls) =
      if AskedBy ip c then c.now :: timesOf ip calls else timesOf ip calls := by
  rw [timesOf, List.filter_cons]
  split
  · next h =>
    rw [if_pos (of_decide_eq_true h)]
    rfl
  · next h =>
    rw [if_neg fun hasked => h (decide_eq_true hasked)]
    rfl

/-- **Every address has its own fixed windows.** -/
theorem verdictsOf_answers {rl : RateLimiter α} (hmax : 1 ≤ rl.maxRequests.toInt)
    (hfits : Fits rl) (calls : List (Call α)) (ip : α) :
    verdictsOf ip (answers rl calls) =
      knocks rl.windowSecs.toInt (capacity rl) (windowOf ip rl) (timesOf ip calls) := by
  induction calls generalizing rl with
  | nil => rfl
  | cons c calls ih =>
    have hmax' : 1 ≤ (handle rl c).2.maxRequests.toInt := by
      rw [(limits_handle rl c).1]
      exact hmax
    have hrest := ih hmax' (fits_handle hmax hfits c)
    rw [(limits_handle rl c).2, capacity_handle] at hrest
    have hstep := handle_spec hmax hfits c ip
    rw [answers, verdictsOf, List.filterMap_cons, timesOf_cons]
    by_cases hasked : AskedBy ip c
    · rw [if_pos hasked] at hstep
      rw [if_pos hasked, if_pos hasked, knocks, hstep.1, Option.map_some]
      rw [hstep.2] at hrest
      exact congrArg (List.cons _) hrest
    · rw [if_neg hasked] at hstep
      rw [if_neg hasked, if_neg hasked]
      rw [hstep] at hrest
      exact hrest

/-! ## The unlock failures -/

/-- The rows of the failures are those of the calls. -/
theorem unlockFailures_limiterAfter (rl : RateLimiter α) (calls : List (Call α)) :
    (limiterAfter rl calls).unlockFailures =
      rl.unlockFailures ++
        (calls.filter fun c => c.request = .recordUnlockFailure).map fun c => ⟨c.ip, c.now⟩ := by
  induction calls using List.reverseRecOn with
  | nil => rw [limiterAfter, stateAfter_nil, List.filter_nil, List.map_nil, List.append_nil]
  | append_singleton calls c ih =>
    obtain ⟨now, ip, request⟩ := c
    rw [limiterAfter, stateAfter_concat, ← limiterAfter, List.filter_append, List.map_append,
      ← List.append_assoc, ← ih]
    cases request with
    | allow =>
      obtain ⟨buckets, heq⟩ := snd_rateLimiterAllow Faults.none now ip (limiterAfter rl calls)
      have hrows := congrArg RateLimiter.unlockFailures heq
      exact hrows.trans (List.append_nil _).symm
    | recordUnlockFailure => rfl

/-- The rows that a query counts are the failures of the last 60 seconds. -/
theorem countP_unlockFailures {rl : RateLimiter α} (hempty : rl.unlockFailures = [])
    (calls : List (Call α)) (now : Int) (p : Option α → Bool) :
    (limiterAfter rl calls).unlockFailures.countP
        (fun row => p row.ip && decide (now - 60 < row.timestamp)) =
      ((recentFailures now calls).filter fun c => p c.ip).length := by
  rw [unlockFailures_limiterAfter, hempty, List.nil_append, List.countP_map, recentFailures,
    List.filter_filter, ← List.countP_eq_length_filter, List.countP_filter]
  refine List.countP_congr fun c _ => ?_
  have hrecent : now - 60 < c.now ↔ now - c.now < 60 := by omega
  simp only [Function.comp_apply, hrecent, Bool.and_eq_true, decide_eq_true_eq]
  tauto

theorem rateLimiterUnlockAllowed_eq_false_iff {rl : RateLimiter α} (hempty : rl.unlockFailures = [])
    (calls : List (Call α)) (now : Int) (ip : α) (maxPerIp maxGlobal : Int32) :
    rateLimiterUnlockAllowed Faults.none now (some ip) maxPerIp maxGlobal (limiterAfter rl calls) =
        false ↔
      maxPerIp ≤ columnInt (recentFailuresOf ip now calls).length ∨
        maxGlobal ≤ columnInt (recentFailures now calls).length := by
  have hown := countP_unlockFailures hempty calls now fun ip' => decide (ip' = some ip)
  have hall := countP_unlockFailures hempty calls now fun _ => true
  simp only [Bool.true_and, List.filter_true] at hall
  simp only [rateLimiterUnlockAllowed, Faults.none_apply, Bool.false_eq_true, if_false, countOf,
    hown, hall]
  rw [← recentFailuresOf]
  split
  · next h => exact iff_of_true rfl (Or.inl h)
  · next h =>
    split
    · next h' => exact iff_of_true rfl (Or.inr h')
    · next h' => exact iff_of_false Bool.noConfusion (not_or.mpr ⟨h, h'⟩)

/-! ## What the limiter is for -/

/-- The numbers of failures, of an address and overall, that compare with every limit as they are:
those below `2 ^ 31`, and those that are cut to the largest `int`. -/
def Comparable (own all : Nat) : Prop :=
  all < 2 ^ 31 ∨ all % 2 ^ 32 = 2 ^ 31 - 1 ∨ own % 2 ^ 32 = 2 ^ 31 - 1

theorem toInt_columnInt (n : Nat) :
    (columnInt n).toInt = if n % 2 ^ 32 < 2 ^ 31 then (n % 2 ^ 32 : Int) else n % 2 ^ 32 - 2 ^ 32 := by
  rw [columnInt, Int32.toInt_ofNat', Int.bmod_def]
  have hsize : ((Int32.size : Nat) : Int) = 2 ^ 32 := rfl
  rw [hsize]
  omega

/-- The cut numbers reach the same limits just when they are comparable. -/
theorem comparable_iff {own all : Nat} (hle : own ≤ all) :
    (∀ maxPerIp maxGlobal : Int32, maxPerIp ≤ columnInt own ∨ maxGlobal ≤ columnInt all ↔
      maxPerIp.toInt ≤ own ∨ maxGlobal.toInt ≤ all) ↔ Comparable own all := by
  simp only [Int32.le_iff_toInt_le, toInt_columnInt, Comparable]
  constructor
  · intro h
    have hmax := h Int32.maxValue Int32.maxValue
    have hvalue : Int32.maxValue.toInt = 2 ^ 31 - 1 := rfl
    rw [hvalue] at hmax
    by_contra hnot
    split at hmax <;> split at hmax <;> omega
  · intro h maxPerIp maxGlobal
    have hown := maxPerIp.toInt_lt
    have hall := maxGlobal.toInt_lt
    split <;> split <;> omega

/-- What the limiter does to a sequence of calls. -/
structure Bounded (maxRequests windowSecs : Int32) (calls : List (Call α)) : Prop where
  /-- In every window of an address the first `maxRequests` calls are admitted and no others. -/
  windows : ∀ ip, ∃ ws, Windowed windowSecs.toInt (timesOf ip calls) ws ∧
    (verdictsOf ip (answers (rateLimiterCreate maxRequests windowSecs) calls)).map Prod.snd =
      ws.flatMap (verdictsFor maxRequests.toInt.toNat)
  /-- A refused call stands behind `maxRequests` admitted calls of its address in its window. -/
  refused : ∀ ip, Lawful (Refusal windowSecs.toInt maxRequests.toInt.toNat)
    (verdictsOf ip (answers (rateLimiterCreate maxRequests windowSecs) calls))
  /-- An address gets the verdicts that it gets alone. -/
  apart : ∀ ip, verdictsOf ip (answers (rateLimiterCreate maxRequests windowSecs) calls) =
    verdictsOf ip (answers (rateLimiterCreate maxRequests windowSecs)
      (calls.filter fun c => c.ip = some ip))
  /-- At any time an unlock attempt is refused just when the failures of the last 60 seconds reach
  the limit of the address or the one overall. -/
  unlock : ∀ front, front <+: calls → ∀ ip now, (∀ c ∈ front, c.now ≤ now) →
    ∀ maxPerIp maxGlobal,
      rateLimiterUnlockAllowed Faults.none now (some ip) maxPerIp maxGlobal
          (limiterAfter (rateLimiterCreate maxRequests windowSecs) front) = false ↔
        maxPerIp.toInt ≤ (recentFailuresOf ip now front).length ∨
          maxGlobal.toInt ≤ (recentFailures now front).length

/-- At no time the failures of the last 60 seconds are too many for an `int`. -/
def Countable (calls : List (Call α)) : Prop :=
  ∀ front, front <+: calls → ∀ ip now, (∀ c ∈ front, c.now ≤ now) →
    Comparable (recentFailuresOf ip now front).length (recentFailures now front).length

theorem fits_rateLimiterCreate (maxRequests windowSecs : Int32) :
    Fits (rateLimiterCreate maxRequests windowSecs : RateLimiter α) :=
  fun _ _ hw => nomatch hw

/-- The requests of an address among its own calls. -/
theorem timesOf_own (ip : α) (calls : List (Call α)) :
    timesOf ip (calls.filter fun c => c.ip = some ip) = timesOf ip calls := by
  rw [timesOf, timesOf, List.filter_filter]
  refine congrArg _ (List.filter_congr fun c _ => ?_)
  rw [← Bool.decide_and]
  exact decide_eq_decide.mpr ⟨And.left, fun h => ⟨h, h.2⟩⟩

/-- The verdicts of a new limiter. -/
theorem verdictsOf_rateLimiterCreate {maxRequests : Int32} (hmax : 1 ≤ maxRequests.toInt)
    (windowSecs : Int32) (calls : List (Call α)) (ip : α) :
    verdictsOf ip (answers (rateLimiterCreate maxRequests windowSecs) calls) =
      knocks windowSecs.toInt maxRequests.toInt.toNat none (timesOf ip calls) :=
  verdictsOf_answers hmax (fits_rateLimiterCreate maxRequests windowSecs) calls ip

/-- The times of an address do not go back when those of all calls do not. -/
theorem pairwise_timesOf {calls : List (Call α)} (htimes : (calls.map Call.now).Pairwise (· ≤ ·))
    (ip : α) : (timesOf ip calls).Pairwise (· ≤ ·) :=
  htimes.sublist (List.filter_sublist.map Call.now)

/-- **The limiter bounds every address separately, just when no number of failures is too large for
an `int`.** -/
theorem bounded_iff {maxRequests windowSecs : Int32} (hmax : 1 ≤ maxRequests.toInt)
    (hsecs : 1 ≤ windowSecs.toInt) {calls : List (Call α)}
    (htimes : (calls.map Call.now).Pairwise (· ≤ ·)) :
    Bounded maxRequests windowSecs calls ↔ Countable calls := by
  have hcap : 1 ≤ maxRequests.toInt.toNat := by omega
  have hlen : ∀ t : Int, t < t + windowSecs.toInt := by
    intro t
    omega
  have hverdicts := verdictsOf_rateLimiterCreate (α := α) hmax windowSecs
  have hunlock : ∀ front : List (Call α), ∀ ip now,
      (∀ maxPerIp maxGlobal,
        rateLimiterUnlockAllowed Faults.none now (some ip) maxPerIp maxGlobal
            (limiterAfter (rateLimiterCreate maxRequests windowSecs) front) = false ↔
          maxPerIp.toInt ≤ (recentFailuresOf ip now front).length ∨
            maxGlobal.toInt ≤ (recentFailures now front).length) ↔
        Comparable (recentFailuresOf ip now front).length (recentFailures now front).length := by
    intro front ip now
    have hle : (recentFailuresOf ip now front).length ≤ (recentFailures now front).length :=
      List.length_filter_le _ _
    rw [← comparable_iff hle]
    refine forall_congr' fun maxPerIp => forall_congr' fun maxGlobal => ?_
    rw [rateLimiterUnlockAllowed_eq_false_iff rfl]
  constructor
  · intro h front hfront ip now hnow
    exact (hunlock front ip now).mp (h.unlock front hfront ip now hnow)
  · intro h
    refine ⟨fun ip => ?_, fun ip => ?_, fun ip => ?_, fun front hfront ip now hnow => ?_⟩
    · rw [hverdicts]
      exact exists_windowed hcap (pairwise_timesOf htimes ip)
    · rw [hverdicts]
      exact refusal_of_knocks hlen hcap (pairwise_timesOf htimes ip)
    · rw [hverdicts, hverdicts, timesOf_own]
    · exact (hunlock front ip now).mpr (h front hfront ip now hnow)

/-- Two addresses at a limiter that admits two calls in a minute, with a failed unlock attempt. -/
def burst : List (Call String) :=
  [⟨0, some "10.0.0.1", .allow⟩, ⟨10, some "10.0.0.1", .allow⟩, ⟨20, some "10.0.0.2", .allow⟩,
    ⟨30, some "10.0.0.1", .allow⟩, ⟨40, some "10.0.0.2", .recordUnlockFailure⟩,
    ⟨60, some "10.0.0.1", .allow⟩]

theorem bounded_burst : Bounded 2 60 burst := by
  refine (bounded_iff (by decide) (by decide) (by decide)).mpr fun front hfront ip now _ => ?_
  have hle : (recentFailures now front).length ≤ 6 :=
    (List.length_filter_le _ _).trans hfront.length_le
  exact Or.inl (by omega)

/-- More failures of an address in one second than an `int` counts. -/
def flood : List (Call String) := List.replicate (2 ^ 31) ⟨0, some "10.0.0.1", .recordUnlockFailure⟩

theorem not_bounded_flood : ¬ Bounded 60 60 flood := by
  intro h
  have hrecent : recentFailures 0 flood = flood :=
    List.filter_replicate_of_pos (by decide)
  have hown : recentFailuresOf "10.0.0.1" 0 flood = flood := by
    rw [recentFailuresOf, hrecent]
    exact List.filter_replicate_of_pos (by decide)
  have hlength : flood.length = 2 ^ 31 := List.length_replicate
  have hnow : ∀ c ∈ flood, c.now ≤ 0 := by
    intro c hc
    rw [List.eq_of_mem_replicate hc]
  have hunlock := h.unlock flood List.prefix_rfl "10.0.0.1" 0 hnow 5 20
  rw [rateLimiterUnlockAllowed_eq_false_iff rfl, hown, hrecent, hlength] at hunlock
  exact absurd hunlock (by decide)

end EchoAi.RateLimits
