import EchoAi.Chronicle
import EchoAi.Ring

/-!
# Events between the threads

Threads push events into a ring and pop them, and some events are answered.

* `tuiEventsInsert`, `tuiEventsPop`: the sections under the lock of the ring.
* `tuiEventWaitForAnswer`, `tuiEventAnswer`: the sections under the lock of an event.
* `step`: one section of one thread, in any order.
* `law`: events are inserted once and popped in the same order, and one that waits for an answer
  goes on once, with an answer to its own event.
* `lossless_of_runs`: every run obeys the law, and what was inserted was popped or is in the ring.

Nothing is said of the pipe that wakes the UI.  An event is named by the number of events before it.
-/

namespace EchoAi.TuiEvents

/-- `TuiEventType` -/
inductive TuiEventType where
  | chunk
  | think
  | toolStart
  | toolEnd
  | title
  | askUser
  | approval
  | runDone
  | session
  | status
  | provider
  | model
  | models
  | fork
  | history
  | job
  | quit
  deriving DecidableEq, Repr

/-- `TuiEvent` -/
structure TuiEvent where
  type : TuiEventType
  text : List UInt8
  extra : Option (List UInt8)
  result : Int
  answer : Option (List UInt8)
  answered : Bool
  roundTrip : Bool
  deriving DecidableEq, Repr

/-- A ring of pointers to events. -/
abbrev EventRing := Ring (Option Nat)

/-- `tui_events_init`, where nothing fails but the check of the capacity. -/
def tuiEventsInit (capacity : Nat) : Option EventRing :=
  if capacity < 1 then none else some (Ring.empty (List.replicate capacity none))

/-- The event that `tui_events_push` builds before it takes the lock. -/
def newEvent (type : TuiEventType) (text extra : Option (List UInt8)) : TuiEvent where
  type := type
  text := text.getD []
  extra := extra
  result := 0
  answer := none
  answered := false
  roundTrip := type = .askUser || type = .approval

/-- The section of `tui_events_push` under the lock; it waits while the ring is full. -/
def tuiEventsInsert (ring : EventRing) (ev : Nat) : Option EventRing :=
  if h : ring.count = ring.slots.length then none
  else some (ring.insert (some ev) (Nat.lt_of_le_of_ne ring.count_le h))

/-- The section of `tui_events_pop` under the lock, and that of `tui_events_pop_blocking`, which
waits while the ring is empty. -/
def tuiEventsPop (ring : EventRing) : Option (Option Nat × EventRing) :=
  if h : ring.count = 0 then none
  else some ((ring.slots[ring.head]?).join, ring.remove (Nat.pos_of_ne_zero h))

/-- A text that `str_dup` copies, which may fail. -/
def copied (fails : Bool) (text : Option (List UInt8)) : Option (List UInt8) :=
  if fails then none else text

/-- What `tui_event_wait_for_answer` does when it has the lock. -/
inductive Waited where
  | refused
  | waits
  | resumes (answer : Option (List UInt8)) (result : Int)

/-- `tui_event_wait_for_answer` -/
def tuiEventWaitForAnswer (fails : Bool) (ev : TuiEvent) : Waited :=
  if ¬ev.roundTrip then .refused
  else if ¬ev.answered then .waits
  else .resumes (copied fails ev.answer) ev.result

/-- `tui_event_answer` -/
def tuiEventAnswer (fails : Bool) (answer : Option (List UInt8)) (result : Int) (ev : TuiEvent) :
    Int × TuiEvent :=
  if ¬ev.roundTrip then (-1, ev)
  else (0, { ev with answer := copied fails answer, result, answered := true })

/-- Where a thread is: outside, between the sections of `tui_events_push`, or with the event that
the push returned. -/
inductive Call where
  | idle
  | pushing (ev : Nat)
  | holds (ev : Nat)
  deriving DecidableEq

/-- The event that a thread pushes or holds. -/
def Call.event : Call → Option Nat
  | .idle => none
  | .pushing ev => some ev
  | .holds ev => some ev

section Threads

variable {τ : Type}

/-- What is seen of the threads. -/
inductive Note (τ : Type) where
  | inserted (t : τ) (ev : Nat)
  | popped (t : τ) (slot : Option Nat)
  | answered (t : τ) (ev : Nat) (answer : Option (List UInt8)) (result : Int) (fails : Bool)
  | resumed (t : τ) (ev : Nat) (answer : Option (List UInt8)) (result : Int) (fails : Bool)
  deriving DecidableEq

/-- The ring, the events that were allocated, and where the threads are. -/
structure System (τ : Type) where
  ring : EventRing
  events : List TuiEvent
  calls : τ → Call
  log : List (Note τ)

/-- One section of a thread. -/
inductive Turn where
  | push (type : TuiEventType) (text extra : Option (List UInt8)) (fails : Bool)
  | insert
  | pop
  | answer (ev : Nat) (answer : Option (List UInt8)) (result : Int) (fails : Bool)
  | wait (fails : Bool)
  | leave

/-- The threads before they do anything. -/
def System.init (ring : EventRing) : System τ where
  ring := ring
  events := []
  calls := fun _ => .idle
  log := []

/-- One section of one thread.  Whoever waits checks again in a section of its own. -/
def step [DecidableEq τ] (st : System τ) (turn : τ × Turn) : Option (System τ) :=
  let (t, act) := turn
  match act, st.calls t with
  | .push type text extra fails, .idle =>
    if fails then some st
    else some { st with
      events := st.events ++ [newEvent type text extra]
      calls := Function.update st.calls t (.pushing st.events.length) }
  | .insert, .pushing ev =>
    match tuiEventsInsert st.ring ev with
    | none => some st
    | some ring => some { st with
        ring
        calls := Function.update st.calls t (.holds ev)
        log := st.log ++ [.inserted t ev] }
  | .pop, .idle =>
    match tuiEventsPop st.ring with
    | none => some st
    | some (slot, ring) => some { st with ring, log := st.log ++ [.popped t slot] }
  | .answer ev answer result fails, .idle =>
    match st.events[ev]? with
    | none => none
    | some event =>
      if (tuiEventAnswer fails answer result event).1 = 0 then
        some { st with
          events := st.events.set ev (tuiEventAnswer fails answer result event).2
          log := st.log ++ [.answered t ev answer result fails] }
      else some st
  | .wait fails, .holds ev =>
    match st.events[ev]? with
    | none => none
    | some event =>
      match tuiEventWaitForAnswer fails event with
      | .refused => some st
      | .waits => some st
      -- whoever has its answer frees the event
      | .resumes answer result => some { st with
          calls := Function.update st.calls t .idle
          log := st.log ++ [.resumed t ev answer result fails] }
  | .leave, .holds _ => some { st with calls := Function.update st.calls t .idle }
  | _, _ => none

/-! ## The law -/

/-- The event that a note inserts. -/
def Note.inserts : Note τ → Option Nat
  | .inserted _ ev => some ev
  | _ => none

/-- The slot that a note pops. -/
def Note.pops : Note τ → Option (Option Nat)
  | .popped _ slot => some slot
  | _ => none

/-- The event whose waiter goes on. -/
def Note.resumes : Note τ → Option Nat
  | .resumed _ ev _ _ _ => some ev
  | _ => none

/-- The events in the order of their insertion. -/
def inserted (log : List (Note τ)) : List Nat := log.filterMap Note.inserts

/-- What was popped, in order. -/
def popped (log : List (Note τ)) : List (Option Nat) := log.filterMap Note.pops

/-- The events whose waiters went on. -/
def resumed (log : List (Note τ)) : List Nat := log.filterMap Note.resumes

/-- An event is inserted once, the events are popped in the order of their insertion, and whoever
waits for an answer goes on once, with an answer to the event that it pushed. -/
def law (past : List (Note τ)) : Note τ → Prop
  | .inserted _ ev => ev ∉ inserted past
  | .popped _ slot => popped past ++ [slot] <+: (inserted past).map some
  | .answered _ ev _ _ _ => some ev ∈ popped past
  | .resumed t ev answer result fails =>
    .inserted t ev ∈ past ∧ ev ∉ resumed past ∧
      ∃ t' given fails', .answered t' ev given result fails' ∈ past ∧
        answer = copied fails (copied fails' given)

/-- The UI answers an event that it has popped, as long as no waiter has freed it. -/
def Allowed (st : System τ) : τ × Turn → Prop
  | (_, .answer ev _ _ _) => some ev ∈ popped st.log ∧ ev ∉ resumed st.log
  | _ => True

instance (st : System τ) : (turn : τ × Turn) → Decidable (Allowed st turn)
  | (_, .answer ev _ _ _) =>
    inferInstanceAs (Decidable (some ev ∈ popped st.log ∧ ev ∉ resumed st.log))
  | (_, .push _ _ _ _) | (_, .insert) | (_, .pop) | (_, .wait _) | (_, .leave) =>
    inferInstanceAs (Decidable True)

/-! ## What a section does -/

/-- What a section does to the system. -/
inductive Stepped [DecidableEq τ] (st : System τ) : System τ → Prop where
  | same : Stepped st st
  | pushed (t : τ) (event : TuiEvent) (hcall : st.calls t = .idle)
      (hnew : event.answered = false) :
      Stepped st { st with
        events := st.events ++ [event]
        calls := Function.update st.calls t (.pushing st.events.length) }
  | inserted (t : τ) (ev : Nat) (hcall : st.calls t = .pushing ev)
      (hfree : st.ring.count < st.ring.slots.length) :
      Stepped st { st with
        ring := st.ring.insert (some ev) hfree
        calls := Function.update st.calls t (.holds ev)
        log := st.log ++ [.inserted t ev] }
  | popped (t : τ) (hcount : 0 < st.ring.count) :
      Stepped st { st with
        ring := st.ring.remove hcount
        log := st.log ++ [.popped t (st.ring.slots[st.ring.head]?).join] }
  | answered (t : τ) (ev : Nat) (event : TuiEvent) (answer : Option (List UInt8)) (result : Int)
      (fails : Bool) (hpopped : some ev ∈ TuiEvents.popped st.log)
      (hevent : st.events[ev]? = some event) :
      Stepped st { st with
        events := st.events.set ev
          { event with answer := copied fails answer, result, answered := true }
        log := st.log ++ [.answered t ev answer result fails] }
  | resumed (t : τ) (ev : Nat) (event : TuiEvent) (fails : Bool) (hcall : st.calls t = .holds ev)
      (hevent : st.events[ev]? = some event) (hanswered : event.answered = true) :
      Stepped st { st with
        calls := Function.update st.calls t .idle
        log := st.log ++ [.resumed t ev (copied fails event.answer) event.result fails] }
  | left (t : τ) (ev : Nat) (hcall : st.calls t = .holds ev) :
      Stepped st { st with calls := Function.update st.calls t .idle }

theorem stepped_of_step [DecidableEq τ] {st st' : System τ} {turn : τ × Turn} (hok : Allowed st turn)
    (h : step st turn = some st') : Stepped st st' := by
  obtain ⟨t, act⟩ := turn
  simp only [step] at h
  split at h
  · next type text extra fails hcall =>
    split at h
    · obtain rfl := Option.some.inj h
      exact .same
    · obtain rfl := Option.some.inj h
      exact .pushed t _ hcall rfl
  · next ev hcall =>
    rw [tuiEventsInsert] at h
    split at h
    · obtain rfl := Option.some.inj h
      exact .same
    · next ring hring =>
      obtain rfl := Option.some.inj h
      split at hring
      · exact absurd hring (by simp)
      · obtain rfl := Option.some.inj hring
        exact .inserted t ev hcall _
  · next hcall =>
    rw [tuiEventsPop] at h
    split at h
    · obtain rfl := Option.some.inj h
      exact .same
    · next slot ring hring =>
      obtain rfl := Option.some.inj h
      split at hring
      · exact absurd hring (by simp)
      · obtain ⟨rfl, rfl⟩ := Prod.mk.inj (Option.some.inj hring)
        exact .popped t _
  · next ev answer result fails hcall =>
    split at h
    · exact absurd h (by simp)
    · next event hevent =>
      rw [tuiEventAnswer] at h
      split at h
      · obtain rfl := Option.some.inj h
        exact .same
      · obtain rfl := Option.some.inj h
        exact .answered t ev event answer result fails hok.1 hevent
  · next fails ev hcall =>
    split at h
    · exact absurd h (by simp)
    · next event hevent =>
      rw [tuiEventWaitForAnswer] at h
      split at h
      · obtain rfl := Option.some.inj h
        exact .same
      · obtain rfl := Option.some.inj h
        exact .same
      · next answer result hwaited =>
        obtain rfl := Option.some.inj h
        split at hwaited
        · exact absurd hwaited (by simp)
        · split at hwaited
          · exact absurd hwaited (by simp)
          · next hanswered =>
            obtain ⟨rfl, rfl⟩ := Waited.resumes.inj hwaited
            exact .resumed t ev event fails hcall hevent (by simpa using hanswered)
  · next ev hcall =>
    obtain rfl := Option.some.inj h
    exact .left t ev hcall
  · exact absurd h (by simp)

/-! ## The notes -/

theorem inserted_concat (log : List (Note τ)) (note : Note τ) :
    inserted (log ++ [note]) = inserted log ++ note.inserts.toList := by
  rw [inserted, List.filterMap_append, List.filterMap_cons]
  cases note.inserts <;> rfl

theorem popped_concat (log : List (Note τ)) (note : Note τ) :
    popped (log ++ [note]) = popped log ++ note.pops.toList := by
  rw [popped, List.filterMap_append, List.filterMap_cons]
  cases note.pops <;> rfl

theorem resumed_concat (log : List (Note τ)) (note : Note τ) :
    resumed (log ++ [note]) = resumed log ++ note.resumes.toList := by
  rw [resumed, List.filterMap_append, List.filterMap_cons]
  cases note.resumes <;> rfl

/-! ## Whose an event is -/

/-- No two threads push or hold the same event. -/
def Own (calls : τ → Call) : Prop :=
  ∀ t t' ev, (calls t).event = some ev → (calls t').event = some ev → t = t'

/-- An event that a thread pushes was not inserted before, and one that it holds was inserted by the
thread and did not free it yet. -/
def Has (events : Nat) (log : List (Note τ)) (t : τ) : Call → Prop
  | .idle => True
  | .pushing ev => ev < events ∧ ev ∉ inserted log
  | .holds ev => ev < events ∧ .inserted t ev ∈ log ∧ ev ∉ resumed log

/-- Whose the events are. -/
structure Owners (events : Nat) (log : List (Note τ)) (calls : τ → Call) : Prop where
  own : Own calls
  has : ∀ t, Has events log t (calls t)
  allocated : ∀ ev ∈ inserted log, ev < events
  resumedInserted : ∀ ev ∈ resumed log, ev ∈ inserted log

section Calls

variable {events : Nat} {log : List (Note τ)} {calls : τ → Call} {t : τ} {call : Call} {ev : Nat}

theorem Has.lt_of_event (h : Has events log t call) (hev : call.event = some ev) : ev < events := by
  cases call with
  | idle => exact absurd hev (by simp [Call.event])
  | pushing ev' => exact Option.some.inj hev ▸ h.1
  | holds ev' => exact Option.some.inj hev ▸ h.1

variable [DecidableEq τ]

theorem Own.update (h : Own calls)
    (hnew : ∀ t' ≠ t, ∀ ev, call.event = some ev → (calls t').event ≠ some ev) :
    Own (Function.update calls t call) := by
  intro t₁ t₂ ev h₁ h₂
  by_cases heq₁ : t₁ = t
  · by_cases heq₂ : t₂ = t
    · rw [heq₁, heq₂]
    · rw [heq₁, Function.update_self] at h₁
      rw [Function.update_of_ne heq₂] at h₂
      exact absurd h₂ (hnew t₂ heq₂ ev h₁)
  · rw [Function.update_of_ne heq₁] at h₁
    by_cases heq₂ : t₂ = t
    · rw [heq₂, Function.update_self] at h₂
      exact absurd h₁ (hnew t₁ heq₁ ev h₂)
    · rw [Function.update_of_ne heq₂] at h₂
      exact h t₁ t₂ ev h₁ h₂

/-- What holds of the call of a thread that goes on, and of the calls of the others. -/
theorem forall_has_update (hself : Has events log t call)
    (hothers : ∀ t' ≠ t, Has events log t' (calls t')) :
    ∀ t', Has events log t' (Function.update calls t call t') := by
  intro t'
  by_cases heq : t' = t
  · rw [heq, Function.update_self]
    exact hself
  · rw [Function.update_of_ne heq]
    exact hothers t' heq

/-- A thread allocates an event. -/
theorem Owners.push (h : Owners events log calls) (t : τ) :
    Owners (events + 1) log (Function.update calls t (.pushing events)) where
  own := by
    refine h.own.update fun t' _ ev hnew hev => ?_
    rw [← Option.some.inj hnew] at hev
    exact Nat.lt_irrefl events ((h.has t').lt_of_event hev)
  has := by
    refine forall_has_update ⟨Nat.lt_succ_self events, fun hmem => ?_⟩ fun t' _ => ?_
    · exact Nat.lt_irrefl events (h.allocated events hmem)
    · have hhas := h.has t'
      cases hcall : calls t' with
      | idle => trivial
      | pushing ev =>
        rw [hcall] at hhas
        exact ⟨Nat.lt_succ_of_lt hhas.1, hhas.2⟩
      | holds ev =>
        rw [hcall] at hhas
        exact ⟨Nat.lt_succ_of_lt hhas.1, hhas.2⟩
  allocated := fun ev hev => Nat.lt_succ_of_lt (h.allocated ev hev)
  resumedInserted := h.resumedInserted

/-- A thread goes on without an event. -/
theorem Owners.idle (h : Owners events log calls) (t : τ) :
    Owners events log (Function.update calls t .idle) where
  own := h.own.update fun _ _ _ hnew => absurd hnew (by simp [Call.event])
  has := forall_has_update trivial fun t' _ => h.has t'
  allocated := h.allocated
  resumedInserted := h.resumedInserted

/-- A thread puts its event into the ring. -/
theorem Owners.insert (h : Owners events log calls) (hcall : calls t = .pushing ev) :
    Owners events (log ++ [.inserted t ev]) (Function.update calls t (.holds ev)) := by
  have hev : (calls t).event = some ev := by
    rw [hcall]
    rfl
  have hhas := h.has t
  rw [hcall] at hhas
  have hinserted : inserted (log ++ [.inserted t ev]) = inserted log ++ [ev] := inserted_concat _ _
  have hresumed : resumed (log ++ [.inserted t ev]) = resumed log := by
    rw [resumed_concat]
    exact List.append_nil _
  have hothers : ∀ t' ≠ t, (calls t').event ≠ some ev :=
    fun t' hne hev' => hne (h.own t' t ev hev' hev)
  constructor
  · refine h.own.update fun t' hne ev' hnew => ?_
    rw [← Option.some.inj hnew]
    exact hothers t' hne
  · refine forall_has_update ⟨hhas.1, ?_, ?_⟩ fun t' hne => ?_
    · exact List.mem_append_right _ List.mem_cons_self
    · rw [hresumed]
      exact fun hmem => hhas.2 (h.resumedInserted ev hmem)
    · have hhas' := h.has t'
      have hne' := hothers t' hne
      cases hcall' : calls t' with
      | idle => trivial
      | pushing ev' =>
        rw [hcall'] at hhas' hne'
        refine ⟨hhas'.1, ?_⟩
        rw [hinserted, List.mem_append, List.mem_singleton]
        rintro (hmem | rfl)
        · exact hhas'.2 hmem
        · exact hne' rfl
      | holds ev' =>
        rw [hcall'] at hhas'
        refine ⟨hhas'.1, List.mem_append_left _ hhas'.2.1, ?_⟩
        rw [hresumed]
        exact hhas'.2.2
  · intro ev' hmem
    rw [hinserted, List.mem_append, List.mem_singleton] at hmem
    rcases hmem with hmem | rfl
    · exact h.allocated ev' hmem
    · exact hhas.1
  · intro ev' hmem
    rw [hresumed] at hmem
    rw [hinserted]
    exact List.mem_append_left _ (h.resumedInserted ev' hmem)

/-- A thread has its answer and frees the event. -/
theorem Owners.resume (h : Owners events log calls) (hcall : calls t = .holds ev)
    (answer : Option (List UInt8)) (result : Int) (fails : Bool) :
    Owners events (log ++ [.resumed t ev answer result fails])
      (Function.update calls t .idle) := by
  have hhas := h.has t
  rw [hcall] at hhas
  have hinserted : inserted (log ++ [.resumed t ev answer result fails]) = inserted log := by
    rw [inserted_concat]
    exact List.append_nil _
  have hresumed : resumed (log ++ [.resumed t ev answer result fails]) = resumed log ++ [ev] :=
    resumed_concat _ _
  constructor
  · exact (h.idle t).own
  · refine forall_has_update trivial fun t' hne => ?_
    have hhas' := h.has t'
    cases hcall' : calls t' with
    | idle => trivial
    | pushing ev' =>
      rw [hcall'] at hhas'
      refine ⟨hhas'.1, ?_⟩
      rw [hinserted]
      exact hhas'.2
    | holds ev' =>
      rw [hcall'] at hhas'
      refine ⟨hhas'.1, List.mem_append_left _ hhas'.2.1, ?_⟩
      rw [hresumed, List.mem_append, List.mem_singleton]
      rintro (hmem | rfl)
      · exact hhas'.2.2 hmem
      · exact hne (h.own t' t ev' (by rw [hcall']; rfl) (by rw [hcall]; rfl))
  · rw [hinserted]
    exact h.allocated
  · intro ev' hmem
    rw [hinserted]
    rw [hresumed, List.mem_append, List.mem_singleton] at hmem
    rcases hmem with hmem | rfl
    · exact h.resumedInserted ev' hmem
    · exact List.mem_filterMap.2 ⟨_, hhas.2.1, rfl⟩

omit [DecidableEq τ] in
/-- Something else is noted. -/
theorem Owners.note (h : Owners events log calls) {note : Note τ} (hinserts : note.inserts = none)
    (hresumes : note.resumes = none) : Owners events (log ++ [note]) calls := by
  have hinserted : inserted (log ++ [note]) = inserted log := by
    rw [inserted_concat, hinserts]
    exact List.append_nil _
  have hresumed : resumed (log ++ [note]) = resumed log := by
    rw [resumed_concat, hresumes]
    exact List.append_nil _
  refine ⟨h.own, fun t => ?_, ?_, ?_⟩
  · have hhas := h.has t
    cases hcall : calls t with
    | idle => trivial
    | pushing ev =>
      rw [hcall] at hhas
      refine ⟨hhas.1, ?_⟩
      rw [hinserted]
      exact hhas.2
    | holds ev =>
      rw [hcall] at hhas
      refine ⟨hhas.1, List.mem_append_left _ hhas.2.1, ?_⟩
      rw [hresumed]
      exact hhas.2.2
  · rw [hinserted]
    exact h.allocated
  · rw [hinserted, hresumed]
    exact h.resumedInserted

end Calls

/-! ## The answers -/

/-- An event holds an answer that was given to it. -/
def Answered (log : List (Note τ)) (events : List TuiEvent) : Prop :=
  ∀ ev event, events[ev]? = some event → event.answered = true →
    ∃ t given fails, .answered t ev given event.result fails ∈ log ∧
      event.answer = copied fails given

section Answers

variable {log : List (Note τ)} {events : List TuiEvent}

theorem Answered.note (h : Answered log events) (note : Note τ) :
    Answered (log ++ [note]) events := by
  intro ev event hevent hanswered
  obtain ⟨t, given, fails, hmem, hanswer⟩ := h ev event hevent hanswered
  exact ⟨t, given, fails, List.mem_append_left _ hmem, hanswer⟩

/-- An event is allocated. -/
theorem Answered.push (h : Answered log events) {new : TuiEvent} (hnew : new.answered = false) :
    Answered log (events ++ [new]) := by
  intro ev event hevent hanswered
  rw [List.getElem?_append] at hevent
  split at hevent
  · exact h ev event hevent hanswered
  · rw [List.getElem?_singleton] at hevent
    split at hevent
    · rw [← Option.some.inj hevent, hnew] at hanswered
      exact absurd hanswered Bool.false_ne_true
    · exact absurd hevent (by simp)

/-- An event is answered. -/
theorem Answered.answer (h : Answered log events) (t : τ) (ev : Nat) (event : TuiEvent)
    (answer : Option (List UInt8)) (result : Int) (fails : Bool) :
    Answered (log ++ [.answered t ev answer result fails]) (events.set ev
      { event with answer := copied fails answer, result, answered := true }) := by
  intro ev' event' hevent hanswered
  rw [List.getElem?_set] at hevent
  split at hevent
  · next heq =>
    split at hevent
    · rw [← Option.some.inj hevent, ← heq]
      exact ⟨t, answer, fails, List.mem_append_right _ List.mem_cons_self, rfl⟩
    · exact absurd hevent (by simp)
  · exact h.note _ ev' event' hevent hanswered

end Answers

/-! ## Every run -/

/-- The ring holds what was inserted and not popped, in order. -/
structure Sound (capacity : Nat) (st : System τ) : Prop where
  capacity_eq : st.ring.slots.length = capacity
  contents_eq : (inserted st.log).map some = popped st.log ++ st.ring.contents
  lawful : Lawful law st.log
  owners : Owners st.events.length st.log st.calls
  answered : Answered st.log st.events

theorem sound_init {capacity : Nat} {ring : EventRing} (h : tuiEventsInit capacity = some ring) :
    Sound capacity (System.init ring : System τ) := by
  rw [tuiEventsInit] at h
  split at h
  · exact absurd h (by simp)
  · obtain rfl := Option.some.inj h
    refine ⟨List.length_replicate, ?_, lawful_nil, ?_, ?_⟩
    · exact (Ring.contents_empty (List.replicate capacity none)).symm
    · refine ⟨fun t t' ev hev => ?_, fun _ => trivial, fun ev hmem => ?_, fun ev hmem => ?_⟩
      · exact absurd hev (by simp [System.init, Call.event])
      · exact absurd hmem (by simp [System.init, TuiEvents.inserted])
      · exact absurd hmem (by simp [System.init, resumed])
    · intro ev event hevent
      exact absurd hevent (by simp [System.init])

/-- A section keeps what holds in every run. -/
theorem Sound.stepped [DecidableEq τ] {capacity : Nat} {st st' : System τ} (h : Sound capacity st)
    (hstep : Stepped st st') : Sound capacity st' := by
  cases hstep with
  | same => exact h
  | pushed t event hcall hnew =>
    refine ⟨h.capacity_eq, h.contents_eq, h.lawful, ?_, h.answered.push hnew⟩
    show Owners (st.events ++ [event]).length _ _
    rw [List.length_append, List.length_singleton]
    exact h.owners.push t
  | inserted t ev hcall hfree =>
    refine ⟨?_, ?_, ?_, h.owners.insert hcall, h.answered.note _⟩
    · rw [← h.capacity_eq]
      exact List.length_set
    · show (inserted (st.log ++ [_])).map some = popped (st.log ++ [_]) ++ Ring.contents _
      rw [inserted_concat, popped_concat, Ring.contents_insert, List.map_append, h.contents_eq,
        List.append_assoc]
      show _ = (popped st.log ++ []) ++ _
      rw [List.append_nil]
      rfl
    · have hhas := h.owners.has t
      rw [hcall] at hhas
      exact lawful_concat.2 ⟨h.lawful, hhas.2⟩
  | popped t hcount =>
    obtain ⟨slot, hslot, hcontents⟩ := Ring.contents_remove hcount
    have hinserted : (inserted st.log).map some =
        popped st.log ++ [slot] ++ (st.ring.remove hcount).contents := by
      rw [h.contents_eq, hcontents, List.append_assoc]
      rfl
    have hjoin : (st.ring.slots[st.ring.head]?).join = slot := by
      rw [hslot]
      rfl
    refine ⟨h.capacity_eq, ?_, ?_, h.owners.note rfl rfl, h.answered.note _⟩
    · show (inserted (st.log ++ [_])).map some = popped (st.log ++ [_]) ++ Ring.contents _
      rw [inserted_concat, popped_concat, hjoin]
      show (inserted st.log ++ []).map some = popped st.log ++ [slot] ++ _
      rw [List.append_nil, hinserted]
    · refine lawful_concat.2 ⟨h.lawful, ?_⟩
      show popped st.log ++ [_] <+: (inserted st.log).map some
      rw [hjoin, hinserted]
      exact List.prefix_append _ _
  | answered t ev event answer result fails hpopped hevent =>
    refine ⟨h.capacity_eq, ?_, ?_, ?_, h.answered.answer t ev event answer result fails⟩
    · show (inserted (st.log ++ [_])).map some = popped (st.log ++ [_]) ++ _
      rw [inserted_concat, popped_concat]
      show (inserted st.log ++ []).map some = popped st.log ++ [] ++ _
      rw [List.append_nil, List.append_nil]
      exact h.contents_eq
    · exact lawful_concat.2 ⟨h.lawful, hpopped⟩
    · show Owners (st.events.set ev _).length _ _
      rw [List.length_set]
      exact h.owners.note rfl rfl
  | resumed t ev event fails hcall hevent hanswered =>
    refine ⟨h.capacity_eq, ?_, ?_, h.owners.resume hcall _ _ _, h.answered.note _⟩
    · show (inserted (st.log ++ [_])).map some = popped (st.log ++ [_]) ++ _
      rw [inserted_concat, popped_concat]
      show (inserted st.log ++ []).map some = popped st.log ++ [] ++ _
      rw [List.append_nil, List.append_nil]
      exact h.contents_eq
    · have hhas := h.owners.has t
      rw [hcall] at hhas
      obtain ⟨-, hmem, hnot⟩ := hhas
      obtain ⟨t', given, fails', hgiven, hanswer⟩ := h.answered ev event hevent hanswered
      exact lawful_concat.2 ⟨h.lawful, hmem, hnot, t', given, fails', hgiven, by rw [hanswer]⟩
  | left t ev hcall =>
    exact ⟨h.capacity_eq, h.contents_eq, h.lawful, h.owners.idle t, h.answered⟩

/-- Every run obeys the law: events are inserted once and popped in the same order, and one that
waits for an answer goes on once, with an answer to its own event.  What was inserted was popped or
is in the ring, in order, and the ring holds no more than its capacity. -/
theorem lossless_of_runs [DecidableEq τ] {capacity : Nat} {ring : EventRing} {last : System τ}
    (hinit : tuiEventsInit capacity = some ring)
    (hruns : Runs step Allowed (System.init ring) last) :
    Lawful law last.log ∧ (inserted last.log).map some = popped last.log ++ last.ring.contents ∧
      last.ring.count ≤ capacity := by
  have hsound : Sound capacity last := hruns.invariant (sound_init hinit)
    fun _ _ _ hok hbefore hstep => hbefore.stepped (stepped_of_step hok hstep)
  refine ⟨hsound.lawful, hsound.contents_eq, ?_⟩
  rw [← hsound.capacity_eq]
  exact last.ring.count_le

end Threads

/-- A ring of one slot: a second push waits until the UI has popped the question, and the first
thread goes on when it is answered. -/
theorem lossless_of_runs_question :
    let log : List (Note Nat) :=
      [.inserted 1 0, .popped 0 (some 0), .inserted 2 1, .answered 0 0 (some [121]) 0 false,
        .resumed 1 0 (some [121]) 0 false]
    Lawful law log := by
  intro log
  obtain ⟨last, hruns, hlog⟩ := exists_runs_of_foldlM step Allowed (fun st => st.log)
    (System.init (Ring.empty [none]))
    [(1, .push .askUser (some [63]) none false), (2, .push .chunk (some [97]) none false),
      (1, .insert), (2, .insert), (1, .wait false), (0, .pop), (2, .insert),
      (0, .answer 0 (some [121]) 0 false), (1, .wait false)]
    log (by decide +kernel)
  rw [← hlog]
  exact (lossless_of_runs (show tuiEventsInit 1 = some _ from rfl) hruns).1


end EchoAi.TuiEvents
