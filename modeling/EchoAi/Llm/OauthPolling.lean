import EchoAi.Llm.OauthSystem

/-!
# Polls of a device login

A device login is polled by any number of callers, while others may stop it.

* `Paced`: the law of the log: one poll at a time, not before the interval has passed, none after a
  stop; each ends once, and no login completes after a stop.
* `Polling`: polls and lifecycle operations, with a clock that does not go back.
* `Polls`: what such steps keep.
* `paced_of_runs`: runs of them have the law, and the polls in flight are counted.
-/

namespace EchoAi.Oauth

/-- Whether a poll is between its begin and its end. -/
def Op.inFlight : Op → Bool
  | .poll _ _ phase => phase ≠ .expired
  | _ => false

/-- Whether a poll may be slowed down yet. -/
def Op.maySlow : Op → Bool
  | .poll _ _ .asking => true
  | .poll _ _ .slowing => true
  | _ => false

theorem Op.inFlight_of_maySlow {op : Op} (h : op.maySlow = true) : op.inFlight = true := by
  cases op with
  | poll login generation phase => cases phase <;> first | rfl | exact absurd h Bool.false_ne_true
  | _ => exact absurd h Bool.false_ne_true

/-- How many sections a poll in flight has yet before it, at most. -/
def PollPhase.sectionsLeft : PollPhase → Nat
  | .expired => 0
  | .asking => 5
  | .exchanging => 4
  | .exchanged _ => 3
  | .slowing => 2
  | .finishing _ => 2
  | .releasing => 1
  | .leaving => 1

/-- The same of an operation. -/
def Op.sectionsLeft : Op → Nat
  | .poll _ _ phase => phase.sectionsLeft
  | _ => 0

/-- The operations that take part, with the generation of the login. -/
def Op.TakesPart (generation : UInt64) : Op → Prop
  | .poll _ own _ => own = generation
  | .stopping _ _ => True
  | .attaching _ => True
  | .ended => True
  | _ => False

/-- When a poll began or was slowed down. -/
def Note.reading : Note → Option Nat
  | .polled _ now _ => some now
  | .slowed _ now _ => some now
  | _ => none

/-- Whether it is a growth of the interval. -/
def Note.isSlowed : Note → Bool
  | .slowed _ _ _ => true
  | _ => false

/-- The interval of a login behind a log. -/
def intervalOf (interval : Nat) (log : List Note) : Nat := interval + 5 * log.countP Note.isSlowed

/-- Whether a poll has begun. -/
def Polled (log : List Note) (poll : Nat) : Prop := ∃ now interval, .polled poll now interval ∈ log

/-- The law of a login with this interval at its start. -/
def Paced (interval : Nat) (past : List Note) : Note → Prop
  | .polled poll now own =>
    own = intervalOf interval past ∧ .stopped ∉ past ∧ ¬Polled past poll ∧
      (∀ before, Polled past before → .released before ∈ past) ∧
      ∀ entry ∈ past, ∀ reading, entry.reading = some reading → reading + own ≤ now
  | .slowed poll _ own =>
    own = intervalOf interval past + 5 ∧ Polled past poll ∧ .released poll ∉ past
  | .released poll => Polled past poll ∧ .released poll ∉ past
  | .persisted _ => .stopped ∉ past
  | .installed _ => .stopped ∉ past
  | _ => True

/-- Whether a reading of the clock does not go back. -/
def NotBefore (start : Nat) (log : List Note) (now : Nat) : Prop :=
  start ≤ now ∧ ∀ entry ∈ log, ∀ reading, entry.reading = some reading → reading ≤ now

/-- Polls and lifecycle operations, with a clock that does not go back. -/
def Polling (start : Nat) (st : System) : Event → Prop
  | .poll _ now => NotBefore start st.log now
  | .advance _ (.clock now) => NotBefore start st.log now
  | .advance _ _ => True
  | .stop _ => True
  | _ => False

/-- A device login that has been registered, with nothing under way. -/
structure Registered (r : Registration) (start : Nat) (st : System) : Prop where
  valid : r.valid = true
  device : st.manager.device = some (r.device start)
  lifecycleBusy : st.manager.lifecycleBusy = false
  ops : st.ops = []
  log : st.log = []

/-- The transaction of the login behind a log. -/
structure Timed (r : Registration) (start : Nat) (log : List Note) (d : PendingDevice) : Prop where
  interval : d.interval = intervalOf r.interval log
  expiresAt : d.expiresAt = start + r.expiresIn
  start_le : start + d.interval ≤ d.nextPoll
  reading_le : ∀ entry ∈ log, ∀ reading, entry.reading = some reading →
    reading + d.interval ≤ d.nextPoll
  stopped : .stopped ∉ log

/-- What the steps keep.  `generation` is that of the login, and `base` the number of the active
operations when it was registered. -/
structure Polls (r : Registration) (start : Nat) (generation : UInt64) (base : Nat) (st : System) :
    Prop where
  law : Lawful (Paced r.interval) st.log
  takesPart : ∀ op ∈ st.ops, op.TakesPart generation
  device : ∀ d, st.manager.device = some d → Timed r start st.log d
  inFlight : ∀ i op, st.ops[i]? = some op → op.inFlight = true →
    Polled st.log i ∧ .released i ∉ st.log
  polled : ∀ i, Polled st.log i → i < st.ops.length ∧
    (.released i ∈ st.log ∨ ∃ op, st.ops[i]? = some op ∧ op.inFlight = true)
  active : st.manager.activeOperations = base + st.ops.countP Op.inFlight
  single : st.ops.countP Op.inFlight ≤ 1
  idle : ∀ d, st.manager.device = some d → d.pollInProgress = false →
    st.ops.countP Op.inFlight = 0
  short : ∀ op ∈ st.ops, op.maySlow = true → ∀ d, st.manager.device = some d → d.interval < 3600
  fresh : .stopped ∉ st.log → st.manager.generation = generation
  stopped : .stopped ∈ st.log → st.manager.device = none ∧
    (st.ops.countP Op.inFlight = 0 ∨
      st.manager.lifecycleBusy = true ∧ st.manager.generation ≠ generation)
  lifecycle : ∀ op ∈ st.ops, ∀ kind thread, op = .stopping kind thread → .stopped ∈ st.log
  attached : ∀ op ∈ st.ops, ∀ session, op = .attaching session →
    .stopped ∈ st.log ∧ st.ops.countP Op.inFlight = 0

theorem nextGeneration_ne (value : UInt64) : nextGeneration value ≠ value := by
  rw [nextGeneration]
  split
  · next h =>
    rw [h]
    decide
  · intro h
    exact absurd h (by simp)

/-! ## What the sections keep -/

/-- An entry that the law of polls is not about. -/
structure Note.Neutral (entry : Note) : Prop where
  reading : entry.reading = none
  isSlowed : entry.isSlowed = false
  polled : ∀ poll now interval, entry ≠ .polled poll now interval
  released : ∀ poll, entry ≠ .released poll
  stopped : entry ≠ .stopped

/-- What most sections do to the state. -/
structure Stays (own : UInt64) (st : System) (op : Op) (mv : Move) : Prop where
  spawned : mv.spawned = none
  generation : mv.manager.generation = st.manager.generation
  activeOperations : mv.manager.activeOperations = st.manager.activeOperations
  lifecycleBusy : mv.manager.lifecycleBusy = st.manager.lifecycleBusy ∨
    st.ops.countP Op.inFlight = 0
  device : mv.manager.device = none ∨ mv.manager.device = st.manager.device
  takesPart : mv.op.TakesPart own
  inFlight : mv.op.inFlight = op.inFlight
  maySlow : mv.op.maySlow = true → op.maySlow = true
  lifecycle : ∀ kind thread, mv.op ≠ .stopping kind thread
  attached : ∀ session, mv.op = .attaching session →
    .stopped ∈ st.log ∧ st.ops.countP Op.inFlight = 0
  notes : ∀ entry ∈ mv.notes, entry.Neutral ∧ ∀ number,
    (entry = .persisted number ∨ entry = .installed number → .stopped ∉ st.log)

section Neutral

variable {log more : List Note}

theorem polled_append (h : ∀ entry ∈ more, entry.Neutral) {poll : Nat} :
    Polled (log ++ more) poll ↔ Polled log poll := by
  constructor
  · rintro ⟨now, interval, hmem⟩
    rcases List.mem_append.1 hmem with hmem | hmem
    · exact ⟨now, interval, hmem⟩
    · exact absurd rfl ((h _ hmem).polled poll now interval)
  · rintro ⟨now, interval, hmem⟩
    exact ⟨now, interval, List.mem_append_left more hmem⟩

theorem released_append (h : ∀ entry ∈ more, entry.Neutral) {poll : Nat} :
    .released poll ∈ log ++ more ↔ .released poll ∈ log := by
  rw [List.mem_append]
  exact or_iff_left fun hmem => (h _ hmem).released poll rfl

theorem stopped_append (h : ∀ entry ∈ more, entry.Neutral) :
    .stopped ∈ log ++ more ↔ .stopped ∈ log := by
  rw [List.mem_append]
  exact or_iff_left fun hmem => (h _ hmem).stopped rfl

theorem intervalOf_append (h : ∀ entry ∈ more, entry.Neutral) {interval : Nat} :
    intervalOf interval (log ++ more) = intervalOf interval log := by
  have hzero : more.countP Note.isSlowed = 0 :=
    List.countP_eq_zero.2 fun entry hmem hslowed =>
      Bool.false_ne_true ((h entry hmem).isSlowed.symm.trans hslowed)
  rw [intervalOf, intervalOf, List.countP_append, hzero, Nat.add_zero]

theorem Timed.append {r : Registration} {start : Nat} {d : PendingDevice}
    (h : Timed r start log d) (hmore : ∀ entry ∈ more, entry.Neutral) :
    Timed r start (log ++ more) d where
  interval := h.interval.trans (intervalOf_append hmore).symm
  expiresAt := h.expiresAt
  start_le := h.start_le
  reading_le entry hmem reading hreading := by
    rcases List.mem_append.1 hmem with hmem | hmem
    · exact h.reading_le entry hmem reading hreading
    · exact absurd ((hmore entry hmem).reading.symm.trans hreading) nofun
  stopped hmem := h.stopped ((stopped_append hmore).1 hmem)

end Neutral

section Steps

variable {r : Registration} {start : Nat} {generation : UInt64} {base : Nat} {st : System} {i : Nat}
  {op : Op} {mv : Move}

/-- An operation in flight is the only one. -/
theorem Polls.countP_eq_one (h : Polls r start generation base st) (hop : st.ops[i]? = some op)
    (hflight : op.inFlight = true) : st.ops.countP Op.inFlight = 1 :=
  Nat.le_antisymm h.single (List.countP_pos_iff.2 ⟨op, List.mem_of_getElem? hop, hflight⟩)

/-- A section that stays keeps what is kept. -/
theorem Polls.stays (h : Polls r start generation base st) (hop : st.ops[i]? = some op)
    (hmv : Stays generation st op mv) :
    Polls r start generation base (st.behind (st.ops.set i mv.op) mv) := by
  have hneutral : ∀ entry ∈ mv.notes, entry.Neutral := fun entry hmem => (hmv.notes entry hmem).1
  have hlt : i < st.ops.length := (List.getElem?_eq_some_iff.1 hop).1
  have hmem : op ∈ st.ops := List.mem_of_getElem? hop
  have hcount : (st.ops.set i mv.op).countP Op.inFlight = st.ops.countP Op.inFlight := by
    have hset := countP_set_add (p := Op.inFlight) (a := mv.op) hop
    rw [hmv.inFlight] at hset
    omega
  have hdevice : ∀ d, mv.manager.device = some d → st.manager.device = some d := by
    intro d hd
    rcases hmv.device with hnone | hsame
    · exact absurd (hnone.symm.trans hd) nofun
    · exact hsame.symm.trans hd
  rw [System.behind_of_spawned hmv.spawned]
  refine ⟨?_, ?_, ?_, ?_, ?_, ?_, ?_, ?_, ?_, ?_, ?_, ?_, ?_⟩
  · refine h.law.extend fun past entry rest heq => ?_
    have hentries : ∀ a ∈ past ++ entry :: rest, a ∈ mv.notes := fun a ha => heq ▸ ha
    have hin : entry ∈ mv.notes := hentries entry (by simp)
    have hpast : ∀ a ∈ past, a.Neutral := fun a ha =>
      hneutral a (hentries a (List.mem_append_left _ ha))
    obtain ⟨hentry, hkeeps⟩ := hmv.notes entry hin
    cases entry with
    | polled poll now interval => exact absurd rfl (hentry.polled poll now interval)
    | slowed poll now interval => exact absurd hentry.isSlowed nofun
    | released poll => exact absurd rfl (hentry.released poll)
    | persisted number => exact fun hs => hkeeps number (Or.inl rfl) ((stopped_append hpast).1 hs)
    | installed number => exact fun hs => hkeeps number (Or.inr rfl) ((stopped_append hpast).1 hs)
    | _ => trivial
  · exact forall_mem_set h.takesPart hmv.takesPart
  · exact fun d hd => (h.device d (hdevice d hd)).append hneutral
  · intro j other hj hflight
    rw [polled_append hneutral, released_append hneutral]
    rcases eq_or_ne i j with rfl | hne
    · rw [List.getElem?_set_self hlt] at hj
      obtain rfl : mv.op = other := Option.some.inj hj
      exact h.inFlight i op hop (hmv.inFlight.symm.trans hflight)
    · rw [List.getElem?_set_ne hne] at hj
      exact h.inFlight j other hj hflight
  · intro j hpolled
    rw [polled_append hneutral] at hpolled
    rw [released_append hneutral, List.length_set]
    refine (h.polled j hpolled).imp id (Or.imp id ?_)
    rintro ⟨other, hj, hflight⟩
    rcases eq_or_ne i j with rfl | hne
    · obtain rfl : op = other := Option.some.inj (hop.symm.trans hj)
      exact ⟨mv.op, List.getElem?_set_self hlt, hmv.inFlight.trans hflight⟩
    · exact ⟨other, (List.getElem?_set_ne hne).trans hj, hflight⟩
  · show mv.manager.activeOperations = base + (st.ops.set i mv.op).countP Op.inFlight
    rw [hmv.activeOperations, hcount]
    exact h.active
  · exact hcount ▸ h.single
  · exact fun d hd hidle => hcount.trans (h.idle d (hdevice d hd) hidle)
  · refine forall_mem_set (fun other hin hslow d hd => ?_) fun hslow d hd => ?_
    · exact h.short other hin hslow d (hdevice d hd)
    · exact h.short op hmem (hmv.maySlow hslow) d (hdevice d hd)
  · exact fun hstopped =>
      hmv.generation.trans (h.fresh fun hs => hstopped ((stopped_append hneutral).2 hs))
  · intro hstopped
    rw [stopped_append hneutral] at hstopped
    obtain ⟨hnone, hquiet⟩ := h.stopped hstopped
    refine ⟨?_, ?_⟩
    · rcases hmv.device with hd | hd
      · exact hd
      · exact hd.trans hnone
    · show (st.ops.set i mv.op).countP Op.inFlight = 0 ∨
        mv.manager.lifecycleBusy = true ∧ mv.manager.generation ≠ generation
      rw [hcount, hmv.generation]
      rcases hquiet with hzero | ⟨hbusy, hgeneration⟩
      · exact Or.inl hzero
      · exact hmv.lifecycleBusy.symm.imp id fun hsame => ⟨hsame.trans hbusy, hgeneration⟩
  · refine forall_mem_set (fun other hin kind thread heq => ?_) fun kind thread heq => ?_
    · exact (stopped_append hneutral).2 (h.lifecycle other hin kind thread heq)
    · exact absurd heq (hmv.lifecycle kind thread)
  · show ∀ other ∈ st.ops.set i mv.op, ∀ session, other = .attaching session →
      .stopped ∈ st.log ++ mv.notes ∧ (st.ops.set i mv.op).countP Op.inFlight = 0
    rw [hcount, stopped_append hneutral]
    exact forall_mem_set h.attached hmv.attached

/-- What the release of a poll does to the state. -/
structure Releases (own : UInt64) (number : Nat) (st : System) (mv : Move) : Prop where
  spawned : mv.spawned = none
  op : mv.op = .ended
  notes : mv.notes = [.released number]
  generation : mv.manager.generation = st.manager.generation
  activeOperations : mv.manager.activeOperations = st.manager.activeOperations - 1
  device : ∀ d', mv.manager.device = some d' → ∃ d, st.manager.device = some d ∧
    d'.interval = d.interval ∧ d'.nextPoll = d.nextPoll ∧ d'.expiresAt = d.expiresAt

/-- The release of a poll keeps what is kept. -/
theorem Polls.releases (h : Polls r start generation base st) (hop : st.ops[i]? = some op)
    (hflight : op.inFlight = true) (hmv : Releases generation i st mv) :
    Polls r start generation base (st.behind (st.ops.set i mv.op) mv) := by
  have hone := h.countP_eq_one hop hflight
  have hlt : i < st.ops.length := (List.getElem?_eq_some_iff.1 hop).1
  have hzero : (st.ops.set i .ended).countP Op.inFlight = 0 := by
    have hset := countP_set_add (p := Op.inFlight) (a := Op.ended) hop
    rw [hflight, hone] at hset
    exact Nat.add_right_cancel hset
  have hidle : ∀ other ∈ st.ops.set i .ended, ¬other.inFlight = true := List.countP_eq_zero.1 hzero
  have hpolled : ∀ poll, Polled (st.log ++ [.released i]) poll ↔ Polled st.log poll := by
    refine fun poll => exists₂_congr fun now interval => ?_
    rw [List.mem_append, List.mem_singleton]
    exact or_iff_left nofun
  have hstopped : .stopped ∈ st.log ++ [.released i] ↔ .stopped ∈ st.log := by
    rw [List.mem_append, List.mem_singleton]
    exact or_iff_left nofun
  rw [System.behind_of_spawned hmv.spawned, hmv.op, hmv.notes]
  refine ⟨?_, ?_, ?_, ?_, ?_, ?_, ?_, ?_, ?_, ?_, ?_, ?_, ?_⟩
  · exact lawful_concat.2 ⟨h.law, h.inFlight i op hop hflight⟩
  · exact forall_mem_set h.takesPart trivial
  · intro d' hd'
    obtain ⟨d, hd, hinterval, hnext, hexpires⟩ := hmv.device d' hd'
    have htimed := h.device d hd
    refine ⟨?_, hexpires.trans htimed.expiresAt, ?_, fun entry hmem reading hreading => ?_, ?_⟩
    · rw [hinterval, htimed.interval, intervalOf, intervalOf, List.countP_append]
      rfl
    · rw [hinterval, hnext]
      exact htimed.start_le
    · rw [hinterval, hnext]
      rcases List.mem_append.1 hmem with hmem | hmem
      · exact htimed.reading_le entry hmem reading hreading
      · rw [List.mem_singleton.1 hmem] at hreading
        exact absurd hreading nofun
    · exact fun hs => htimed.stopped (hstopped.1 hs)
  · exact fun j other hj hin => absurd hin (hidle other (List.mem_of_getElem? hj))
  · intro j hj
    obtain ⟨hj, hend⟩ := h.polled j ((hpolled j).1 hj)
    refine ⟨(List.length_set ..).symm ▸ hj, Or.inl ?_⟩
    rcases hend with hreleased | ⟨other, hother, hin⟩
    · exact List.mem_append_left _ hreleased
    · -- the poll in flight is the one that is released
      rcases eq_or_ne i j with rfl | hne
      · exact List.mem_append_right _ List.mem_cons_self
      · have hset : (st.ops.set i .ended)[j]? = some other :=
          (List.getElem?_set_ne hne).trans hother
        exact absurd hin (hidle other (List.mem_of_getElem? hset))
  · show mv.manager.activeOperations = base + (st.ops.set i .ended).countP Op.inFlight
    have hactive := h.active
    rw [hmv.activeOperations, hzero]
    omega
  · exact Nat.le_trans (Nat.le_of_eq hzero) (Nat.zero_le 1)
  · exact fun _ _ _ => hzero
  · refine forall_mem_set (fun other hin hslow d' hd' => ?_) fun hslow => absurd hslow nofun
    obtain ⟨d, hd, hinterval, -⟩ := hmv.device d' hd'
    exact hinterval ▸ h.short other hin hslow d hd
  · exact fun hs => hmv.generation.trans (h.fresh fun hin => hs (hstopped.2 hin))
  · intro hs
    have hnone := (h.stopped (hstopped.1 hs)).1
    refine ⟨Option.eq_none_iff_forall_ne_some.2 fun d' hd' => ?_, Or.inl hzero⟩
    obtain ⟨d, hd, -⟩ := hmv.device d' hd'
    exact absurd (hnone.symm.trans hd) nofun
  · refine forall_mem_set (fun other hin kind thread heq => ?_) fun kind thread heq => absurd heq nofun
    exact hstopped.2 (h.lifecycle other hin kind thread heq)
  · refine forall_mem_set (fun other hin session heq => ?_) fun session heq => absurd heq nofun
    exact ⟨hstopped.2 (h.attached other hin session heq).1, hzero⟩

/-- A `slow_down` of the login keeps what is kept. -/
theorem Polls.slows (h : Polls r start generation base st) {login now : Nat} {d : PendingDevice}
    (hop : st.ops[i]? = some (.poll login generation .slowing)) (hd : st.manager.device = some d)
    (hnow : NotBefore start st.log now) :
    Polls r start generation base
      { st with
        manager := { st.manager with device := some (Manager.slowDown d now) }
        ops := st.ops.set i (.poll login generation .releasing)
        log := st.log ++ [.slowed i now (Manager.slowDown d now).interval] } := by
  have hmem : Op.poll login generation .slowing ∈ st.ops := List.mem_of_getElem? hop
  have hlt : i < st.ops.length := (List.getElem?_eq_some_iff.1 hop).1
  have htimed := h.device d hd
  have hslow : Manager.slowDown d now =
      { d with interval := d.interval + 5, nextPoll := now + (d.interval + 5) } := by
    have hshort := h.short _ hmem rfl d hd
    rw [Manager.slowDown, if_pos (by omega)]
  have hcount : (st.ops.set i (.poll login generation .releasing)).countP Op.inFlight =
      st.ops.countP Op.inFlight := by
    have hset := countP_set_add (p := Op.inFlight) (a := .poll login generation .releasing) hop
    exact Nat.add_right_cancel hset
  have hone := h.countP_eq_one hop rfl
  have hpolled : ∀ poll,
      Polled (st.log ++ [.slowed i now (d.interval + 5)]) poll ↔ Polled st.log poll := by
    refine fun poll => exists₂_congr fun reading interval => ?_
    rw [List.mem_append, List.mem_singleton]
    exact or_iff_left nofun
  have hreleased : ∀ poll, .released poll ∈ st.log ++ [.slowed i now (d.interval + 5)] ↔
      .released poll ∈ st.log := by
    intro poll
    rw [List.mem_append, List.mem_singleton]
    exact or_iff_left nofun
  have hstopped : .stopped ∈ st.log ++ [.slowed i now (d.interval + 5)] ↔ .stopped ∈ st.log := by
    rw [List.mem_append, List.mem_singleton]
    exact or_iff_left nofun
  have hlonger : intervalOf r.interval (st.log ++ [.slowed i now (d.interval + 5)]) =
      intervalOf r.interval st.log + 5 := by
    rw [intervalOf, intervalOf, List.countP_append]
    rfl
  rw [hslow]
  refine ⟨?_, ?_, ?_, ?_, ?_, ?_, ?_, ?_, ?_, ?_, ?_, ?_, ?_⟩
  · refine lawful_concat.2 ⟨h.law, ?_, h.inFlight i _ hop rfl⟩
    rw [htimed.interval]
  · exact forall_mem_set h.takesPart rfl
  · intro d' hd'
    obtain rfl := Option.some.inj hd'
    refine ⟨?_, htimed.expiresAt, ?_, fun entry hin reading hreading => ?_, ?_⟩
    · rw [hlonger, ← htimed.interval]
    · exact Nat.add_le_add_right hnow.1 _
    · show reading + (d.interval + 5) ≤ now + (d.interval + 5)
      refine Nat.add_le_add_right ?_ _
      rcases List.mem_append.1 hin with hin | hin
      · exact hnow.2 entry hin reading hreading
      · rw [List.mem_singleton.1 hin] at hreading
        exact Nat.le_of_eq (Option.some.inj hreading).symm
    · exact fun hs => htimed.stopped (hstopped.1 hs)
  · intro j other hj hflight
    rw [hpolled, hreleased]
    rcases eq_or_ne i j with rfl | hne
    · exact h.inFlight i _ hop rfl
    · exact h.inFlight j other ((List.getElem?_set_ne hne).symm.trans hj) hflight
  · intro j hj
    rw [hpolled] at hj
    rw [hreleased, List.length_set]
    refine (h.polled j hj).imp id (Or.imp id ?_)
    rintro ⟨other, hother, hflight⟩
    rcases eq_or_ne i j with rfl | hne
    · exact ⟨_, List.getElem?_set_self hlt, rfl⟩
    · exact ⟨other, (List.getElem?_set_ne hne).trans hother, hflight⟩
  · exact h.active.trans (by rw [hcount])
  · exact hcount ▸ h.single
  · intro d' hd' hidle
    obtain rfl := Option.some.inj hd'
    exact hcount.trans (h.idle d hd hidle)
  · -- the poll that was slowed down was the only one
    intro other hin hslow
    rcases List.mem_or_eq_of_mem_set hin with hother | rfl
    · have hzero : (st.ops.set i .ended).countP Op.inFlight = 0 := by
        have hset := countP_set_add (p := Op.inFlight) (a := Op.ended) hop
        exact Nat.add_right_cancel (hset.trans (by rw [hone]; rfl))
      obtain ⟨j, hj⟩ := List.getElem?_of_mem hin
      rcases eq_or_ne i j with rfl | hne
      · rw [List.getElem?_set_self hlt] at hj
        exact absurd (Option.some.inj hj ▸ hslow) nofun
      · have hset : (st.ops.set i .ended)[j]? = some other :=
          (List.getElem?_set_ne hne).trans ((List.getElem?_set_ne hne).symm.trans hj)
        exact absurd (Op.inFlight_of_maySlow hslow)
          (List.countP_eq_zero.1 hzero other (List.mem_of_getElem? hset))
    · exact absurd hslow nofun
  · exact fun hs => h.fresh fun hin => hs (hstopped.2 hin)
  · exact fun hs => absurd (hstopped.1 hs) htimed.stopped
  · refine forall_mem_set (fun other hin kind thread heq => ?_) fun kind thread heq => absurd heq nofun
    exact hstopped.2 (h.lifecycle other hin kind thread heq)
  · refine forall_mem_set (fun other hin session heq => ?_) fun session heq => absurd heq nofun
    exact absurd (h.attached other hin session heq).1 htimed.stopped

/-- A poll that begins keeps what is kept. -/
theorem Polls.begins (h : Polls r start generation base st) (hr : r.valid = true) {now : Nat}
    {d : PendingDevice} (hd : st.manager.device = some d) (hunexpired : now < d.expiresAt)
    (hidle : d.pollInProgress = false) (hnext : d.nextPoll ≤ now) :
    Polls r start generation base
      { st with
        manager := { st.manager with
          device := some (Manager.beginPoll d now)
          activeOperations := st.manager.activeOperations + 1 }
        ops := st.ops ++ [.poll st.login st.manager.generation .asking]
        log := st.log ++ [.polled st.ops.length now d.interval] } := by
  have htimed := h.device d hd
  have hzero := h.idle d hd hidle
  have hquiet : ∀ op ∈ st.ops, ¬op.inFlight = true := List.countP_eq_zero.1 hzero
  have hfresh := h.fresh htimed.stopped
  have hone : (st.ops ++ [Op.poll st.login st.manager.generation .asking]).countP Op.inFlight = 1 := by
    rw [countP_concat, hzero]
    rfl
  have hended : ∀ poll, Polled st.log poll → poll < st.ops.length ∧ .released poll ∈ st.log := by
    intro poll hpoll
    refine (h.polled poll hpoll).imp id fun hend => hend.resolve_right ?_
    rintro ⟨other, hother, hflight⟩
    exact hquiet other (List.mem_of_getElem? hother) hflight
  have hreleased : ∀ poll, .released poll ∈ st.log ++ [.polled st.ops.length now d.interval] ↔
      .released poll ∈ st.log := by
    intro poll
    rw [List.mem_append, List.mem_singleton]
    exact or_iff_left nofun
  have hstopped : .stopped ∈ st.log ++ [.polled st.ops.length now d.interval] ↔
      .stopped ∈ st.log := by
    rw [List.mem_append, List.mem_singleton]
    exact or_iff_left nofun
  have hlatest : ∀ entry ∈ st.log, ∀ reading, entry.reading = some reading →
      reading + d.interval ≤ now := fun entry hmem reading hreading =>
    Nat.le_trans (htimed.reading_le entry hmem reading hreading) hnext
  have hsame : intervalOf r.interval (st.log ++ [.polled st.ops.length now d.interval]) =
      intervalOf r.interval st.log := by
    rw [intervalOf, intervalOf, List.countP_append]
    rfl
  refine ⟨?_, ?_, ?_, ?_, ?_, ?_, ?_, ?_, ?_, ?_, ?_, ?_, ?_⟩
  · refine lawful_concat.2 ⟨h.law, htimed.interval, htimed.stopped, fun hpoll => ?_,
      fun before hbefore => (hended before hbefore).2, hlatest⟩
    exact absurd (hended _ hpoll).1 (Nat.lt_irrefl _)
  · intro op hop
    rcases List.mem_append.1 hop with hop | hop
    · exact h.takesPart op hop
    · rw [List.mem_singleton.1 hop]
      exact hfresh
  · intro d' hd'
    obtain rfl := Option.some.inj hd'
    refine ⟨htimed.interval.trans hsame.symm, htimed.expiresAt, ?_,
      fun entry hmem reading hreading => ?_, fun hs => htimed.stopped (hstopped.1 hs)⟩
    · show start + d.interval ≤ now + d.interval
      have hstart := htimed.start_le
      omega
    · show reading + d.interval ≤ now + d.interval
      rcases List.mem_append.1 hmem with hmem | hmem
      · have hread := hlatest entry hmem reading hreading
        omega
      · rw [List.mem_singleton.1 hmem] at hreading
        obtain rfl := Option.some.inj hreading
        exact Nat.le_refl _
  · intro j op hj hflight
    rw [hreleased]
    rcases Nat.lt_or_ge j st.ops.length with hlt | hge
    · rw [List.getElem?_append_left hlt] at hj
      exact absurd hflight (hquiet op (List.mem_of_getElem? hj))
    · have hlt := (List.getElem?_eq_some_iff.1 hj).1
      rw [List.length_append, List.length_singleton] at hlt
      obtain rfl : j = st.ops.length := by omega
      refine ⟨⟨now, d.interval, List.mem_append_right _ List.mem_cons_self⟩, fun hend => ?_⟩
      -- what has ended had begun
      obtain ⟨past, rest, heq⟩ := List.append_of_mem hend
      obtain ⟨reading, interval, hin⟩ := (h.law past _ rest heq).1
      have hpoll : Polled st.log st.ops.length :=
        ⟨reading, interval, heq ▸ List.mem_append_left _ hin⟩
      exact absurd (hended _ hpoll).1 (Nat.lt_irrefl _)
  · rintro j ⟨reading, interval, hmem⟩
    rw [hreleased, List.length_append, List.length_singleton]
    rcases List.mem_append.1 hmem with hmem | hmem
    · obtain ⟨hlt, hend⟩ := hended j ⟨reading, interval, hmem⟩
      exact ⟨Nat.lt_succ_of_lt hlt, Or.inl hend⟩
    · obtain ⟨rfl, -, -⟩ : j = st.ops.length ∧ reading = now ∧ interval = d.interval := by
        simpa using hmem
      exact ⟨Nat.lt_succ_self _, Or.inr ⟨_, List.getElem?_concat_length, rfl⟩⟩
  · show st.manager.activeOperations + 1 = base + _
    rw [hone, h.active, hzero]
  · exact Nat.le_of_eq hone
  · intro d' hd' hfree
    obtain rfl := Option.some.inj hd'
    exact absurd hfree nofun
  · intro op _ _ d' hd'
    obtain rfl := Option.some.inj hd'
    show d.interval < 3600
    have hvalid : r.expiresIn ≤ 3600 := by
      rw [Registration.valid, Bool.and_eq_true] at hr
      exact of_decide_eq_true hr.2
    have hstart := htimed.start_le
    have hexpires := htimed.expiresAt
    omega
  · exact fun hs => h.fresh fun hin => hs (hstopped.2 hin)
  · exact fun hs => absurd (hstopped.1 hs) htimed.stopped
  · intro op hop kind thread heq
    rcases List.mem_append.1 hop with hop | hop
    · exact absurd (h.lifecycle op hop kind thread heq) htimed.stopped
    · exact absurd ((List.mem_singleton.1 hop).symm.trans heq) nofun
  · intro op hop session heq
    rcases List.mem_append.1 hop with hop | hop
    · exact absurd (h.attached op hop session heq).1 htimed.stopped
    · exact absurd ((List.mem_singleton.1 hop).symm.trans heq) nofun

/-- An operation that joins without a part keeps what is kept. -/
theorem Polls.joins (h : Polls r start generation base st) (hpart : op.TakesPart generation)
    (hflight : op.inFlight = false) (hlifecycle : ∀ kind thread, op ≠ .stopping kind thread)
    (hattached : ∀ session, op ≠ .attaching session) :
    Polls r start generation base { st with ops := st.ops ++ [op] } := by
  have hcount : (st.ops ++ [op]).countP Op.inFlight = st.ops.countP Op.inFlight := by
    rw [countP_concat, hflight]
    rfl
  have hold : ∀ other ∈ st.ops ++ [op], other ∈ st.ops ∨ other = op := fun other hmem =>
    (List.mem_append.1 hmem).imp id List.mem_singleton.1
  refine ⟨h.law, ?_, h.device, ?_, ?_, ?_, ?_, ?_, ?_, h.fresh, ?_, ?_, ?_⟩
  · intro other hmem
    rcases hold other hmem with hmem | rfl
    · exact h.takesPart other hmem
    · exact hpart
  · intro j other hj hin
    rcases Nat.lt_or_ge j st.ops.length with hlt | hge
    · exact h.inFlight j other ((List.getElem?_append_left hlt).symm.trans hj) hin
    · rw [List.getElem?_append_right hge] at hj
      rw [List.mem_singleton.1 (List.mem_of_getElem? hj), hflight] at hin
      exact absurd hin Bool.false_ne_true
  · intro j hj
    obtain ⟨hlt, hend⟩ := h.polled j hj
    refine ⟨?_, hend.imp id fun ⟨other, hother, hin⟩ => ?_⟩
    · rw [List.length_append]
      exact Nat.lt_add_right _ hlt
    · exact ⟨other, (List.getElem?_append_left hlt).trans hother, hin⟩
  · exact h.active.trans (by rw [hcount])
  · exact hcount ▸ h.single
  · exact fun d hd hidle => hcount.trans (h.idle d hd hidle)
  · intro other hmem hslow
    rcases hold other hmem with hmem | rfl
    · exact h.short other hmem hslow
    · exact absurd (hflight.symm.trans (Op.inFlight_of_maySlow hslow)) Bool.false_ne_true
  · exact fun hs => (h.stopped hs).imp id (Or.imp (hcount.trans ·) id)
  · intro other hmem kind thread heq
    rcases hold other hmem with hmem | rfl
    · exact h.lifecycle other hmem kind thread heq
    · exact absurd heq (hlifecycle kind thread)
  · intro other hmem session heq
    rcases hold other hmem with hmem | rfl
    · exact (h.attached other hmem session heq).imp id (hcount.trans ·)
    · exact absurd heq (hattached session)

/-- A lifecycle operation that begins keeps what is kept. -/
theorem Polls.stops (h : Polls r start generation base st) {kind : Lifecycle}
    (hmv : st.stop kind = some mv) :
    Polls r start generation base (st.behind (st.ops ++ [mv.op]) mv) := by
  rw [System.stop] at hmv
  split at hmv
  case isFalse => exact absurd hmv nofun
  next hcan =>
  have hidle : st.manager.lifecycleBusy = false := by
    cases kind <;> simp [System.canStop] at hcan <;> simp [hcan]
  obtain rfl := Option.some.inj hmv
  generalize htaken :
    { st.manager with lifecycleBusy := true }.cancelCallbackLocked.takeCallbackThreadLocked = taken
  obtain ⟨thread, m⟩ := taken
  have hm : m.device = none ∧ m.lifecycleBusy = true ∧
      m.activeOperations = st.manager.activeOperations ∧
      m.generation = nextGeneration st.manager.generation := by
    rw [Manager.takeCallbackThreadLocked] at htaken
    split at htaken
    · rw [← (Prod.mk.inj htaken).2]
      exact ⟨rfl, rfl, rfl, rfl⟩
    · rw [← (Prod.mk.inj htaken).2]
      exact ⟨rfl, rfl, rfl, rfl⟩
  obtain ⟨hdevice, hbusy, hactive, hgeneration⟩ := hm
  have hcount : (st.ops ++ [Op.stopping kind thread]).countP Op.inFlight =
      st.ops.countP Op.inFlight := by
    rw [countP_concat]
    rfl
  have hnone : ∀ d, m.device ≠ some d := fun d hd => absurd (hdevice.symm.trans hd) nofun
  have hstopped : .stopped ∈ st.log ++ [Note.stopped] :=
    List.mem_append_right _ List.mem_cons_self
  have hpolled : ∀ poll, Polled (st.log ++ [Note.stopped]) poll ↔ Polled st.log poll := by
    refine fun poll => exists₂_congr fun reading interval => ?_
    rw [List.mem_append, List.mem_singleton]
    exact or_iff_left nofun
  have hreleased : ∀ poll, .released poll ∈ st.log ++ [Note.stopped] ↔ .released poll ∈ st.log := by
    intro poll
    rw [List.mem_append, List.mem_singleton]
    exact or_iff_left nofun
  have hold : ∀ other ∈ st.ops ++ [Op.stopping kind thread],
      other ∈ st.ops ∨ other = .stopping kind thread := fun other hmem =>
    (List.mem_append.1 hmem).imp id List.mem_singleton.1
  rw [System.behind_of_spawned rfl]
  show Polls r start generation base
    { st with
      manager := m
      ops := st.ops ++ [.stopping kind thread]
      log := st.log ++ [.stopped] }
  refine ⟨lawful_concat.2 ⟨h.law, trivial⟩, ?_, fun d hd => absurd hd (hnone d), ?_, ?_, ?_, ?_,
    fun d hd => absurd hd (hnone d), fun _ _ _ d hd => absurd hd (hnone d),
    fun hs => absurd hstopped hs, fun _ => ⟨hdevice, ?_⟩, fun _ _ _ _ _ => hstopped, ?_⟩
  · intro other hmem
    rcases hold other hmem with hmem | rfl
    · exact h.takesPart other hmem
    · trivial
  · intro j other hj hin
    rw [hpolled, hreleased]
    rcases Nat.lt_or_ge j st.ops.length with hlt | hge
    · exact h.inFlight j other ((List.getElem?_append_left hlt).symm.trans hj) hin
    · rw [List.getElem?_append_right hge] at hj
      rw [List.mem_singleton.1 (List.mem_of_getElem? hj)] at hin
      exact absurd hin nofun
  · intro j hj
    rw [hpolled] at hj
    obtain ⟨hlt, hend⟩ := h.polled j hj
    rw [hreleased]
    refine ⟨?_, hend.imp id fun ⟨other, hother, hin⟩ => ?_⟩
    · rw [List.length_append]
      exact Nat.lt_add_right _ hlt
    · exact ⟨other, (List.getElem?_append_left hlt).trans hother, hin⟩
  · exact hactive.trans (h.active.trans (by rw [hcount]))
  · exact hcount ▸ h.single
  · show (st.ops ++ [Op.stopping kind thread]).countP Op.inFlight = 0 ∨
      m.lifecycleBusy = true ∧ m.generation ≠ generation
    rw [hcount]
    by_cases hs : .stopped ∈ st.log
    · rcases (h.stopped hs).2 with hzero | hbusy'
      · exact Or.inl hzero
      · exact absurd (hidle.symm.trans hbusy'.1) Bool.false_ne_true
    · refine Or.inr ⟨hbusy, ?_⟩
      rw [hgeneration, h.fresh hs]
      exact nextGeneration_ne generation
  · intro other hmem session heq
    rcases hold other hmem with hmem | rfl
    · exact ⟨hstopped, hcount.trans (h.attached other hmem session heq).2⟩
    · exact absurd heq nofun

/-- Whether a manager keeps what polls are about; a transaction can only end. -/
structure Manager.Idles (m m' : Manager) : Prop where
  generation : m'.generation = m.generation
  activeOperations : m'.activeOperations = m.activeOperations
  lifecycleBusy : m'.lifecycleBusy = m.lifecycleBusy
  device : m'.device = none ∨ m'.device = m.device

theorem Manager.Idles.refl (m : Manager) : m.Idles m := ⟨rfl, rfl, rfl, Or.inr rfl⟩

theorem Manager.idles_devicePollFinished (m : Manager) (own : UInt64) (result : DeviceResult) :
    m.Idles (m.devicePollFinished own result) := by
  rw [devicePollFinished]
  split
  · cases result <;> exact ⟨rfl, rfl, rfl, Or.inl rfl⟩
  · exact Idles.refl m

/-- A poll that goes on with a phase in flight. -/
theorem stays_poll {login last : Nat} {m : Manager} {vault : Vault} {phase phase' : PollPhase}
    {notes : List Note}
    (hm : st.manager.Idles m) (hphase : phase ≠ .expired) (hphase' : phase' ≠ .expired)
    (hslow : (Op.poll login generation phase').maySlow = true →
      (Op.poll login generation phase).maySlow = true)
    (hnotes : ∀ entry ∈ notes, (entry = .persisted login ∨ entry = .installed login) ∧
      .stopped ∉ st.log) :
    Stays generation st (.poll login generation phase)
      { manager := m, vault, login := last, op := .poll login generation phase', notes } where
  spawned := rfl
  generation := hm.generation
  activeOperations := hm.activeOperations
  lifecycleBusy := Or.inl hm.lifecycleBusy
  device := hm.device
  takesPart := rfl
  inFlight := (decide_eq_true hphase').trans (decide_eq_true hphase).symm
  maySlow := hslow
  lifecycle _ _ := nofun
  attached _ := nofun
  notes entry hmem := by
    obtain ⟨hentry, hstopped⟩ := hnotes entry hmem
    refine ⟨?_, fun _ _ => hstopped⟩
    rcases hentry with rfl | rfl <;> exact ⟨rfl, rfl, nofun, nofun, nofun⟩

/-- The tokens of a poll keep what is kept; they come to nothing behind a stop. -/
theorem Polls.completes (h : Polls r start generation base st) {login : Nat} {phase : PollPhase}
    {staged : Credentials} {ok : Bool} {result result' : DeviceResult}
    (hop : st.ops[i]? = some (.poll login generation phase)) (hphase : phase ≠ .expired)
    (hmv : st.completeCallbackTokens login generation staged ok
      (.poll login generation (.finishing result)) (.poll login generation (.finishing result')) =
      mv) :
    Polls r start generation base (st.behind (st.ops.set i mv.op) mv) := by
  have hflight : (Op.poll login generation phase).inFlight = true := decide_eq_true hphase
  have hone := h.countP_eq_one hop hflight
  have hidles : ∀ message, st.manager.Idles (st.manager.setErrorLocked message) := fun _ =>
    ⟨rfl, rfl, rfl, Or.inr rfl⟩
  subst hmv
  refine h.stays hop ?_
  rw [System.completeCallbackTokens]
  split
  case isFalse =>
    exact stays_poll (Manager.Idles.refl _) hphase nofun nofun nofun
  next hguard =>
  -- the generation of the login is gone when it was stopped
  have hstopped : .stopped ∉ st.log := by
    intro hs
    rcases (h.stopped hs).2 with hzero | ⟨-, hgone⟩
    · omega
    · exact hgone hguard.1
  rw [System.keep]
  split
  · next hkeep =>
    split at hkeep
    · exact absurd hkeep nofun
    next session hsession =>
    split at hkeep
    · obtain rfl := Option.some.inj hkeep
      refine stays_poll ⟨rfl, rfl, rfl, Or.inr rfl⟩ hphase nofun nofun fun entry hmem =>
        ⟨?_, hstopped⟩
      simpa using hmem
    · exact absurd hkeep nofun
  · exact stays_poll (hidles _) hphase nofun nofun nofun

/-- A section of a poll keeps what is kept. -/
theorem Polls.pollMove (h : Polls r start generation base st) {login : Nat} {phase : PollPhase}
    {input : Input} (hop : st.ops[i]? = some (.poll login generation phase))
    (hok : Polling start st (.advance i input))
    (hmv : st.pollMove i login generation phase input = some mv) :
    Polls r start generation base (st.behind (st.ops.set i mv.op) mv) := by
  have hsame : st.manager.Idles st.manager := Manager.Idles.refl _
  cases phase with
  | expired =>
    cases input with
    | go =>
      have hidles := st.manager.idles_devicePollFinished generation .terminal
      obtain rfl := Option.some.inj hmv
      exact h.stays hop ⟨rfl, hidles.generation, hidles.activeOperations,
        Or.inl hidles.lifecycleBusy, hidles.device, trivial, rfl, nofun, nofun, nofun, nofun⟩
    | _ => exact absurd hmv nofun
  | asking =>
    cases input with
    | polled transfer answer =>
      obtain rfl := Option.some.inj hmv
      refine h.stays hop (stays_poll hsame nofun ?_ (fun _ => rfl) nofun)
      split
      · split <;> nofun
      · nofun
    | _ => exact absurd hmv nofun
  | slowing =>
    cases input with
    | clock now =>
      obtain rfl := Option.some.inj hmv
      by_cases hgeneration : st.manager.generation = generation
      · cases hd : st.manager.device with
        | none =>
          rw [Manager.deviceSlowDown, if_pos hgeneration, if_pos hgeneration, hd]
          exact h.stays hop (stays_poll ⟨rfl, rfl, rfl, Or.inl rfl⟩ nofun nofun (fun _ => rfl) nofun)
        | some d =>
          have hslows := h.slows hop hd hok
          rw [Manager.deviceSlowDown, if_pos hgeneration, if_pos hgeneration, hd,
            System.behind_of_spawned rfl]
          exact hslows
      · rw [Manager.deviceSlowDown, if_neg hgeneration, if_neg hgeneration]
        exact h.stays hop (stays_poll hsame nofun nofun (fun _ => rfl) nofun)
    | _ => exact absurd hmv nofun
  | releasing =>
    cases input with
    | go =>
      obtain rfl := Option.some.inj hmv
      refine h.releases hop rfl ⟨rfl, rfl, rfl, rfl, rfl, fun d' hd' => ?_⟩
      change (if st.manager.generation = generation then _ else _) = _ at hd'
      split at hd'
      · obtain ⟨d, hd, rfl⟩ := Option.map_eq_some_iff.1 hd'
        exact ⟨d, hd, rfl, rfl, rfl⟩
      · exact ⟨d', hd', rfl, rfl, rfl⟩
    | _ => exact absurd hmv nofun
  | exchanging =>
    cases input with
    | exchange transfer staged =>
      obtain rfl := Option.some.inj hmv
      refine h.stays hop (stays_poll hsame nofun ?_ ?_ nofun)
      · split <;> nofun
      · split <;> nofun
    | _ => exact absurd hmv nofun
  | exchanged staged =>
    cases staged with
    | none =>
      cases input with
      | go =>
        obtain rfl := Option.some.inj hmv
        exact h.stays hop (stays_poll hsame nofun nofun nofun nofun)
      | _ => exact absurd hmv nofun
    | some staged =>
      cases input with
      | storage ok => exact h.completes hop nofun (Option.some.inj hmv)
      | _ => exact absurd hmv nofun
  | finishing result =>
    cases input with
    | go =>
      obtain rfl := Option.some.inj hmv
      exact h.stays hop (stays_poll (st.manager.idles_devicePollFinished generation result) nofun
        nofun nofun nofun)
    | _ => exact absurd hmv nofun
  | leaving =>
    cases input with
    | go =>
      obtain rfl := Option.some.inj hmv
      exact h.releases hop rfl ⟨rfl, rfl, rfl, rfl, rfl, fun d hd => ⟨d, hd, rfl, rfl, rfl⟩⟩
    | _ => exact absurd hmv nofun

/-- A lifecycle operation goes on when nothing is in flight. -/
theorem Polls.stopMove (h : Polls r start generation base st) {kind : Lifecycle}
    {thread : Option Nat} {input : Input} (hop : st.ops[i]? = some (.stopping kind thread))
    (hmv : st.stopMove kind thread input = some mv) :
    Polls r start generation base (st.behind (st.ops.set i mv.op) mv) := by
  have hstopped := h.lifecycle _ (List.mem_of_getElem? hop) kind thread rfl
  have hdevice := (h.stopped hstopped).1
  cases input with
  | storage ok =>
    rw [System.stopMove.eq_def] at hmv
    dsimp only at hmv
    split at hmv
    case isFalse => exact absurd hmv nofun
    next hguard =>
    have hzero : st.ops.countP Op.inFlight = 0 := by
      have hactive := h.active
      have hnone := hguard.2.2
      omega
    have hcompleted : ∀ entry ∈ [Note.completed], entry.Neutral ∧ ∀ number,
        (entry = .persisted number ∨ entry = .installed number → .stopped ∉ st.log) := by
      intro entry hmem
      rw [List.mem_singleton.1 hmem]
      exact ⟨⟨rfl, rfl, nofun, nofun, nofun⟩, fun _ => nofun⟩
    refine h.stays hop ?_
    cases kind with
    | cancelLogin loginId =>
      obtain rfl := Option.some.inj hmv
      exact ⟨rfl, rfl, rfl, Or.inr hzero, Or.inr rfl, trivial, rfl, nofun, nofun, nofun, hcompleted⟩
    | logout =>
      have hended : ∀ vault m, m.generation = st.manager.generation →
          m.activeOperations = st.manager.activeOperations → m.device = none →
          Stays generation st (.stopping .logout thread)
            { st.move m .ended [.completed] with vault } := fun vault m hg ha hd =>
        ⟨rfl, hg, ha, Or.inr hzero, Or.inl hd, trivial, rfl, nofun, nofun, nofun, hcompleted⟩
      dsimp only at hmv
      split at hmv
      · split at hmv
        · exact Option.some.inj hmv ▸ hended _ _ rfl rfl rfl
        · exact Option.some.inj hmv ▸ hended st.vault _ rfl rfl rfl
      · exact Option.some.inj hmv ▸ hended st.vault _ rfl rfl rfl
    | attachSession session =>
      obtain rfl := Option.some.inj hmv
      exact ⟨rfl, rfl, rfl, Or.inr hzero, Or.inr rfl, trivial, rfl, nofun, nofun,
        fun _ _ => ⟨hstopped, hzero⟩, nofun⟩
  | _ => exact absurd hmv nofun

/-- The end of `openai_oauth_attach_session` keeps what is kept. -/
theorem Polls.attachMove (h : Polls r start generation base st) {session : Option Nat}
    {input : Input} (hop : st.ops[i]? = some (.attaching session))
    (hmv : st.attachMove session input = some mv) :
    Polls r start generation base (st.behind (st.ops.set i mv.op) mv) := by
  obtain ⟨hstopped, hzero⟩ := h.attached _ (List.mem_of_getElem? hop) session rfl
  cases input with
  | storage ok =>
    have hm : ∀ loaded, (st.manager.attachFinished session loaded).generation =
          st.manager.generation ∧
        (st.manager.attachFinished session loaded).activeOperations =
          st.manager.activeOperations ∧
        (st.manager.attachFinished session loaded).device = st.manager.device := by
      intro loaded
      rw [Manager.attachFinished]
      split
      · exact ⟨rfl, rfl, rfl⟩
      · split <;> exact ⟨rfl, rfl, rfl⟩
    obtain rfl := Option.some.inj hmv
    refine h.stays hop ⟨rfl, (hm _).1, (hm _).2.1, Or.inr hzero, Or.inr (hm _).2.2, trivial, rfl,
      nofun, nofun, nofun, fun entry hmem => ?_⟩
    rw [List.mem_singleton.1 hmem]
    exact ⟨⟨rfl, rfl, nofun, nofun, nofun⟩, fun _ => nofun⟩
  | _ => exact absurd hmv nofun

/-- `openai_oauth_device_poll` keeps what is kept. -/
theorem Polls.openaiOauthDevicePoll (h : Polls r start generation base st) (hr : r.valid = true)
    {loginId : String} {now : Nat} (hmv : st.openaiOauthDevicePoll loginId now = some mv) :
    Polls r start generation base (st.behind (st.ops ++ [mv.op]) mv) := by
  rw [System.openaiOauthDevicePoll] at hmv
  split at hmv
  · exact absurd hmv nofun
  next d hd =>
  have hfresh := h.fresh (h.device d hd).stopped
  split at hmv
  · exact absurd hmv nofun
  split at hmv
  · obtain rfl := Option.some.inj hmv
    rw [System.behind_of_spawned rfl]
    have hjoins : Polls r start generation base
        { st with ops := st.ops ++ [.poll st.login st.manager.generation .expired] } :=
      h.joins hfresh rfl nofun nofun
    show Polls r start generation base
      { st with ops := _, log := st.log ++ [] }
    rw [List.append_nil]
    exact hjoins
  next hunexpired =>
  split at hmv
  · exact absurd hmv nofun
  next hready =>
  obtain rfl := Option.some.inj hmv
  rw [System.behind_of_spawned rfl]
  refine h.begins hr hd (Nat.lt_of_not_le hunexpired) ?_ (Nat.le_of_not_lt fun hlt => ?_)
  · exact Bool.eq_false_iff.2 fun hbusy => hready (Or.inl hbusy)
  · exact hready (Or.inr hlt)

/-- One step of the polls and lifecycle operations of a login keeps what is kept. -/
theorem Polls.step {st' : System} {event : Event} (h : Polls r start generation base st)
    (hr : r.valid = true) (hok : Polling start st event) (hstep : st.step event = some st') :
    Polls r start generation base st' := by
  cases event with
  | advance i input =>
    obtain ⟨op, hop, hstep⟩ := Option.bind_eq_some_iff.1 hstep
    obtain ⟨mv, hmv, hstep⟩ := Option.bind_eq_some_iff.1 hstep
    rw [← Option.some.inj hstep]
    have hpart := h.takesPart op (List.mem_of_getElem? hop)
    cases op with
    | poll login own phase =>
      obtain rfl : own = generation := hpart
      exact h.pollMove hop hok hmv
    | stopping kind thread => exact h.stopMove hop hmv
    | attaching session => exact h.attachMove hop hmv
    | ended => cases input <;> exact absurd hmv nofun
    | _ => exact absurd hpart id
  | poll loginId now =>
    obtain ⟨mv, hmv, rfl⟩ := Option.map_eq_some_iff.1 hstep
    exact h.openaiOauthDevicePoll hr hmv
  | stop kind =>
    obtain ⟨mv, hmv, rfl⟩ := Option.map_eq_some_iff.1 hstep
    exact h.stops hmv
  | _ => exact absurd hok id

end Steps

/-! ## Runs -/

theorem Registered.polls {r : Registration} {start : Nat} {st : System} (h : Registered r start st) :
    Polls r start st.manager.generation st.manager.activeOperations st where
  law := h.log ▸ lawful_nil
  takesPart op hop := absurd (h.ops ▸ hop) List.not_mem_nil
  device d hd := by
    obtain rfl := Option.some.inj (h.device.symm.trans hd)
    rw [h.log]
    exact ⟨rfl, rfl, Nat.le_refl _, nofun, nofun⟩
  inFlight i op hop := by
    rw [h.ops] at hop
    exact absurd hop nofun
  polled i hi := by
    obtain ⟨now, interval, hmem⟩ := hi
    exact absurd (h.log ▸ hmem) List.not_mem_nil
  active := by
    rw [h.ops]
    rfl
  single := by
    rw [h.ops]
    exact Nat.zero_le 1
  idle _ _ _ := by
    rw [h.ops]
    rfl
  short op hop := absurd (h.ops ▸ hop) List.not_mem_nil
  fresh _ := rfl
  stopped hs := absurd (h.log ▸ hs) List.not_mem_nil
  lifecycle op hop := absurd (h.ops ▸ hop) List.not_mem_nil
  attached op hop := absurd (h.ops ▸ hop) List.not_mem_nil

theorem exists_notBefore (start : Nat) (log : List Note) : ∃ now, NotBefore start log now := by
  induction log with
  | nil => exact ⟨start, Nat.le_refl start, nofun⟩
  | cons entry log ih =>
    obtain ⟨now, hstart, hlog⟩ := ih
    refine ⟨max now (entry.reading.getD 0), Nat.le_trans hstart (Nat.le_max_left _ _),
      fun other hmem reading hreading => ?_⟩
    rcases List.mem_cons.1 hmem with rfl | hmem
    · rw [hreading]
      exact Nat.le_max_right _ _
    · exact Nat.le_trans (hlog other hmem reading hreading) (Nat.le_max_left _ _)

/-- A poll in flight can go on. -/
theorem exists_pollMove (start : Nat) (st : System) (i login : Nat) (generation : UInt64)
    {phase : PollPhase} (hphase : phase ≠ .expired) :
    ∃ input mv, Polling start st (.advance i input) ∧
      st.pollMove i login generation phase input = some mv := by
  cases phase with
  | expired => exact absurd rfl hphase
  | asking => exact ⟨.polled .failed {}, _, trivial, rfl⟩
  | slowing =>
    obtain ⟨now, hnow⟩ := exists_notBefore start st.log
    exact ⟨.clock now, _, hnow, rfl⟩
  | releasing => exact ⟨.go, _, trivial, rfl⟩
  | exchanging => exact ⟨.exchange .failed none, _, trivial, rfl⟩
  | exchanged staged =>
    cases staged with
    | none => exact ⟨.go, _, trivial, rfl⟩
    | some staged => exact ⟨.storage false, _, trivial, rfl⟩
  | finishing result => exact ⟨.go, _, trivial, rfl⟩
  | leaving => exact ⟨.go, _, trivial, rfl⟩

/-- Every section of a poll brings it nearer to its end. -/
theorem sectionsLeft_pollMove {st : System} {i login : Nat} {generation : UInt64}
    {phase : PollPhase} {input : Input} {mv : Move} (hphase : phase ≠ .expired)
    (hmv : st.pollMove i login generation phase input = some mv) :
    mv.op.sectionsLeft < phase.sectionsLeft := by
  cases phase with
  | expired => exact absurd rfl hphase
  | asking =>
    cases input with
    | polled transfer answer =>
      obtain rfl := Option.some.inj hmv
      show PollPhase.sectionsLeft _ < 5
      split
      · split <;> simp [PollPhase.sectionsLeft]
      · decide
    | _ => exact absurd hmv nofun
  | slowing =>
    cases input with
    | clock now =>
      obtain rfl := Option.some.inj hmv
      exact Nat.lt_succ_self 1
    | _ => exact absurd hmv nofun
  | exchanging =>
    cases input with
    | exchange transfer staged =>
      obtain rfl := Option.some.inj hmv
      show PollPhase.sectionsLeft _ < 4
      split
      · exact Nat.lt_succ_self 3
      · decide
      · decide
    | _ => exact absurd hmv nofun
  | exchanged staged =>
    cases staged with
    | none =>
      cases input with
      | go =>
        obtain rfl := Option.some.inj hmv
        exact Nat.lt_succ_self 2
      | _ => exact absurd hmv nofun
    | some staged =>
      cases input with
      | storage ok =>
        obtain rfl := Option.some.inj hmv
        rw [System.completeCallbackTokens]
        split
        · split <;> exact Nat.lt_succ_self 2
        · exact Nat.lt_succ_self 2
      | _ => exact absurd hmv nofun
  | finishing result =>
    cases input with
    | go =>
      obtain rfl := Option.some.inj hmv
      exact Nat.lt_succ_self 1
    | _ => exact absurd hmv nofun
  | releasing =>
    cases input with
    | go =>
      obtain rfl := Option.some.inj hmv
      exact Nat.zero_lt_one
    | _ => exact absurd hmv nofun
  | leaving =>
    cases input with
    | go =>
      obtain rfl := Option.some.inj hmv
      exact Nat.zero_lt_one
    | _ => exact absurd hmv nofun

/-- Whether an operation can go on, and comes nearer to its end whenever it does. -/
def Ends (start : Nat) (st : System) (i : Nat) (op : Op) : Prop :=
  (∃ input next, Polling start st (.advance i input) ∧ st.step (.advance i input) = some next) ∧
    ∀ input next, st.step (.advance i input) = some next →
      ∃ op', next.ops[i]? = some op' ∧ op'.sectionsLeft < op.sectionsLeft

theorem ends_of_inFlight {start : Nat} {st : System} {i : Nat} {op : Op}
    (hop : st.ops[i]? = some op) (hflight : op.inFlight = true) : Ends start st i op := by
  cases op with
  | poll login generation phase =>
    have hphase : phase ≠ .expired := of_decide_eq_true hflight
    have hlt := (List.getElem?_eq_some_iff.1 hop).1
    constructor
    · obtain ⟨input, mv, hok, hmv⟩ := exists_pollMove start st i login generation hphase
      refine ⟨input, st.behind (st.ops.set i mv.op) mv, hok, ?_⟩
      rw [System.step, hop, Option.bind_eq_bind, Option.bind_some, System.advance, hmv,
        Option.bind_eq_bind, Option.bind_some]
      rfl
    · intro input next hstep
      obtain ⟨op, hop', hstep⟩ := Option.bind_eq_some_iff.1 hstep
      obtain rfl := Option.some.inj (hop.symm.trans hop')
      obtain ⟨mv, hmv, hstep⟩ := Option.bind_eq_some_iff.1 hstep
      rw [← Option.some.inj hstep]
      refine ⟨mv.op, ?_, sectionsLeft_pollMove hphase hmv⟩
      show (st.ops.set i mv.op ++ mv.spawned.toList)[i]? = _
      rw [List.getElem?_append_left (by rwa [List.length_set]), List.getElem?_set_self hlt]
  | _ => exact absurd hflight nofun

/-- **The polls of a device login are paced, one at a time, and stop with it.**  The active
operations are those of before and the poll in flight; a poll that has begun has ended, or it is in
flight and comes to its end. -/
theorem paced_of_runs {r : Registration} {start : Nat} {first last : System}
    (hfirst : Registered r start first) (h : Runs System.step (Polling start) first last) :
    Lawful (Paced r.interval) last.log ∧
      last.ops.countP Op.inFlight ≤ 1 ∧
      last.manager.activeOperations =
        first.manager.activeOperations + last.ops.countP Op.inFlight ∧
      ∀ poll, Polled last.log poll → .released poll ∈ last.log ∨
        ∃ op, last.ops[poll]? = some op ∧ op.inFlight = true ∧ Ends start last poll op := by
  have hpolls : Polls r start first.manager.generation first.manager.activeOperations last :=
    h.invariant hfirst.polls fun st event st' hok hst hstep => hst.step hfirst.valid hok hstep
  refine ⟨hpolls.law, hpolls.single, hpolls.active, fun poll hpoll => ?_⟩
  refine (hpolls.polled poll hpoll).2.imp id ?_
  rintro ⟨op, hop, hflight⟩
  exact ⟨op, hop, hflight, ends_of_inFlight hop hflight⟩

instance (start : Nat) (log : List Note) (now : Nat) : Decidable (NotBefore start log now) :=
  decidable_of_iff (start ≤ now ∧ ∀ entry ∈ log, entry.reading.all fun reading => reading ≤ now) <|
    and_congr_right fun _ => forall₂_congr fun entry _ => by
      rw [Option.all_eq_true]
      exact forall₂_congr fun reading _ => decide_eq_true_iff

instance (start : Nat) (st : System) : ∀ event, Decidable (Polling start st event)
  | .poll _ _ => inferInstanceAs (Decidable (NotBefore _ _ _))
  | .advance _ (.clock _) => inferInstanceAs (Decidable (NotBefore _ _ _))
  | .stop _ => isTrue trivial
  | .start => isFalse id
  | .deviceStart => isFalse id
  | .refresh _ _ => isFalse id
  | .advance _ .go => isTrue trivial
  | .advance _ (.beginCallback _ _ _) => isTrue trivial
  | .advance _ (.beginDevice _) => isTrue trivial
  | .advance _ (.listened _) => isTrue trivial
  | .advance _ (.leave _) => isTrue trivial
  | .advance _ .unread => isTrue trivial
  | .advance _ (.request _) => isTrue trivial
  | .advance _ (.exchange _ _) => isTrue trivial
  | .advance _ (.registered _ _ _) => isTrue trivial
  | .advance _ (.polled _ _) => isTrue trivial
  | .advance _ (.storage _) => isTrue trivial

/-- A registration, for ten minutes. -/
def deviceRegistration : Registration :=
  { deviceAuthId := "id", userCode := "code", interval := 5, expiresIn := 600 }

/-- The manager behind it. -/
def registeredSystem : System :=
  { manager :=
      { callbackActive := true, loginId := some "login", generation := 1, session := some 0,
        device := some (deviceRegistration.device 100) } }

/-- A poll that is slowed down, and one whose tokens come behind a cancel. -/
theorem paced_slowDown_cancel : ∃ last,
    (Lawful (Paced 5) last.log ∧
      last.ops.countP Op.inFlight ≤ 1 ∧
      last.manager.activeOperations = 0 + last.ops.countP Op.inFlight ∧
      ∀ poll, Polled last.log poll → .released poll ∈ last.log ∨
        ∃ op, last.ops[poll]? = some op ∧ op.inFlight = true ∧ Ends 100 last poll op) ∧
      last.log = [.polled 0 105 5, .slowed 0 106 10, .released 0, .polled 1 116 10, .stopped,
        .released 1, .completed] := by
  obtain ⟨last, hrun, hlog⟩ := exists_runs_of_foldlM System.step (Polling 100) System.log
    registeredSystem
    [.poll "login" 105, .advance 0 (.polled (.answered 400 true) { error := some "slow_down" }),
      .advance 0 (.clock 106), .advance 0 .go, .poll "login" 116,
      .advance 1 (.polled (.answered 200 true) { authorized := true }),
      .advance 1 (.exchange (.answered 200 true)
        (some { accessToken := "access", refreshToken := "refresh" })),
      .stop (.cancelLogin "login"), .advance 1 (.storage true), .advance 1 .go, .advance 1 .go,
      .advance 2 (.storage true)]
    [.polled 0 105 5, .slowed 0 106 10, .released 0, .polled 1 116 10, .stopped, .released 1,
      .completed]
    (by decide +kernel)
  exact ⟨last, paced_of_runs
    ⟨rfl, rfl, rfl, rfl, rfl⟩ hrun, hlog⟩

end EchoAi.Oauth
