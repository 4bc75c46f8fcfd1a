import EchoAi.Server.WsStack

/-!
# The lifetime of a context

A context is destroyed when the connection closes, or when a run that a frame has started returns
after that.  A run of the queue is not counted, and more than one run may be on the stack.

* `Lifetime`: the context is destroyed once, when no run is under way, and no message is freed while
  its tool calls are executed.
* `Outlived`: at a close nothing works with the context but one counted run at most, and a frame frees
  no message whose calls are being executed.
* `lifetime_of_runs`: runs under this condition keep the law, and the context is destroyed in the end.
-/

namespace EchoAi

/-- Where nothing works with the context there is no run. -/
theorem openRuns_eq_nil {stack : List Activation} (h : users stack = []) : openRuns stack = [] := by
  rw [openRuns, List.filterMap_eq_nil_iff]
  rw [users, List.filterMap_eq_nil_iff] at h
  intro a ha
  have hcounted := h a ha
  cases a with
  | run number counted left => exact absurd hcounted (by simp [Activation.counted])
  | tools number counted left calls rest => exact absurd hcounted (by simp [Activation.counted])
  | approval request call => rfl
  | askUser => rfl
  | flush left => rfl

/-- One activation that works with the context, and is counted, is a run. -/
theorem exists_mem_openRuns {stack : List Activation} (h : users stack = [true]) :
    ∃ run, run ∈ openRuns stack := by
  have hmem : true ∈ users stack := h ▸ List.mem_cons_self
  obtain ⟨a, ha, hcounted⟩ := List.mem_filterMap.mp hmem
  cases a with
  | run number counted left => exact ⟨number, List.mem_filterMap.mpr ⟨_, ha, rfl⟩⟩
  | tools number counted left calls rest => exact ⟨number, List.mem_filterMap.mpr ⟨_, ha, rfl⟩⟩
  | approval request call => exact absurd hcounted (by simp [Activation.counted])
  | askUser => exact absurd hcounted (by simp [Activation.counted])
  | flush left => exact absurd hcounted (by simp [Activation.counted])

namespace WsLoop

/-- The law of the lifetime: the context is destroyed once, and only when all runs have returned; a
message that owns tool calls is freed only when they have been executed. -/
def Lifetime (past : List WsNote) (entry : WsNote) : Prop :=
  (entry = .destroyed →
    WsNote.destroyed ∉ past ∧ ∀ run, WsNote.started run ∈ past → WsNote.ended run ∈ past) ∧
  ∀ calls, entry = .freed calls → WsNote.executing calls ∈ past → WsNote.executed calls ∈ past

/-- At a close nothing works with the context but one counted run at most.  A frame frees no message
whose calls are being executed. -/
def Outlived (st : WsLoop) : LoopEvent → Prop
  | .close => users st.stack = [] ∨ users st.stack = [true]
  | .frame frame =>
    ∀ calls ∈ (st.dropped frame).filterMap HeldMessage.calls, calls ∉ openCalls st.stack
  | _ => True

instance (st : WsLoop) : ∀ event, Decidable (Outlived st event)
  | .close => inferInstanceAs (Decidable (_ ∨ _))
  | .frame frame => inferInstanceAs (Decidable (∀ calls ∈ (st.dropped frame).filterMap _, _))
  | .logout => isTrue trivial
  | .cancel => isTrue trivial
  | .elsewhere => isTrue trivial
  | .flush => isTrue trivial
  | .call _ _ _ _ => isTrue trivial
  | .tool _ => isTrue trivial
  | .drain _ => isTrue trivial
  | .wake _ => isTrue trivial

/-- The law so far, and what works with the context of a connection that is closed. -/
structure Outlives (c : LoopCore) : Prop where
  law : Lawful Lifetime c.log
  before : c.closing = false → WsNote.closed ∉ c.log ∧ WsNote.destroyed ∉ c.log
  behind : c.closing = true → c.connected = false ∧
    (WsNote.destroyed ∈ c.log ∧ users c.stack = [] ∨
      WsNote.destroyed ∉ c.log ∧ users c.stack = [true])

/-- Entries that the lifetime is not about. -/
def Passing (entry : WsNote) : Prop :=
  entry ≠ .closed ∧ entry ≠ .destroyed ∧ ∀ calls, entry ≠ .freed calls

theorem Passing.lifetime {entry : WsNote} (h : Passing entry) (past : List WsNote) :
    Lifetime past entry :=
  ⟨fun heq => absurd heq h.2.1, fun calls heq => absurd heq (h.2.2 calls)⟩

namespace Outlives

variable {c d : LoopCore} {more : List WsNote}

theorem mem_of_passing (hlog : d.log = c.log ++ more) (hmore : ∀ entry ∈ more, Passing entry) :
    (WsNote.closed ∈ d.log ↔ WsNote.closed ∈ c.log) ∧
      (WsNote.destroyed ∈ d.log ↔ WsNote.destroyed ∈ c.log) := by
  rw [hlog, List.mem_append, List.mem_append]
  exact ⟨or_iff_left fun hmem => (hmore _ hmem).1 rfl,
    or_iff_left fun hmem => (hmore _ hmem).2.1 rfl⟩

/-- What works with the context stays, and the log does not speak of it. -/
theorem grow (h : Outlives c) (hlog : d.log = c.log ++ more)
    (hmore : ∀ entry ∈ more, Passing entry) (hclosing : d.closing = c.closing)
    (hconnected : d.connected = c.connected) (husers : users d.stack = users c.stack) :
    Outlives d := by
  obtain ⟨hclosed, hdestroyed⟩ := mem_of_passing hlog hmore
  refine ⟨?_, ?_, ?_⟩
  · rw [hlog]
    exact h.law.append fun entry hentry past => (hmore entry hentry).lifetime past
  · rw [hclosing, hclosed, hdestroyed]
    exact h.before
  · rw [hclosing, hconnected, hdestroyed, husers]
    exact h.behind

/-- Before the close. -/
theorem opened (h : Outlives c) (hclosing : c.closing = false) (hlog : d.log = c.log ++ more)
    (hmore : ∀ entry ∈ more, Passing entry) (hd : d.closing = c.closing) : Outlives d := by
  obtain ⟨hclosed, hdestroyed⟩ := mem_of_passing hlog hmore
  refine ⟨?_, ?_, ?_⟩
  · rw [hlog]
    exact h.law.append fun entry hentry past => (hmore entry hentry).lifetime past
  · rw [hd, hclosed, hdestroyed]
    exact h.before
  · rw [hd, hclosing]
    intro hfalse
    exact absurd hfalse Bool.false_ne_true

/-- A connection is open before its close only. -/
theorem closing_of_connected (h : Outlives c) (hopen : c.connected = true) : c.closing = false := by
  cases hclosing : c.closing with
  | false => rfl
  | true => exact absurd ((h.behind hclosing).1 ▸ hopen) Bool.false_ne_true

/-- Something that is not counted works with the context before the close only. -/
theorem closing_of_users (h : Outlives c) {more : List Bool} (husers : users c.stack = false :: more) :
    c.closing = false := by
  cases hclosing : c.closing with
  | false => rfl
  | true =>
    obtain ⟨-, hnone⟩ | ⟨-, hone⟩ := (h.behind hclosing).2
    · rw [husers] at hnone
      exact absurd hnone (by simp)
    · rw [husers] at hone
      exact absurd hone (by simp)

theorem startRun (h : Outlives c) (hclosing : c.closing = false) (n : Nat) (counted : Bool) :
    Outlives (c.startRun n counted) :=
  h.opened hclosing rfl (by simp [Passing]) rfl

/-- The messages that a frame frees own no calls that are being executed. -/
theorem free (h : Outlives c) (hstack : OnStack c) (calls : List Nat)
    (hidle : ∀ k ∈ calls, k ∉ openCalls c.stack) (hclosing : c.closing = false) :
    Outlives (c.free calls) := by
  have hnone := h.before hclosing
  refine ⟨?_, ?_, ?_⟩
  · refine h.law.extend fun past entry rest heq => ?_
    have hentry : entry ∈ calls.map WsNote.freed := by
      rw [heq]
      exact List.mem_append_right past List.mem_cons_self
    obtain ⟨k, hk, rfl⟩ := List.mem_map.mp hentry
    have hpast : WsNote.executing k ∉ past := by
      intro hmem
      have hcalls : WsNote.executing k ∈ calls.map WsNote.freed := by
        rw [heq]
        exact List.mem_append_left _ hmem
      simp at hcalls
    refine ⟨fun hdestroyed => absurd hdestroyed (by simp), fun calls hcalls hexecuting => ?_⟩
    obtain rfl := WsNote.freed.inj hcalls
    have hexecuted := hstack.executing k
      ((List.mem_append.mp hexecuting).resolve_right hpast)
    exact List.mem_append_left past (hexecuted.resolve_right (hidle k hk))
  · intro _
    constructor
    · exact fun hmem => hnone.1 ((List.mem_append.mp hmem).resolve_right (by simp))
    · exact fun hmem => hnone.2 ((List.mem_append.mp hmem).resolve_right (by simp))
  · intro hclosed
    rw [show (c.free calls).closing = c.closing from rfl, hclosing] at hclosed
    exact absurd hclosed Bool.false_ne_true

/-- The end of a run.  Behind a close it is the only one, and the context is destroyed. -/
theorem endRun (h : Outlives c) (hstack : OnStack c) {run left : Nat} {counted : Bool}
    {below : List Activation} (htop : c.stack = .run run counted left :: below) :
    Outlives (c.endRun run counted below) := by
  have husers : users c.stack = counted :: users below := by rw [htop]; rfl
  have hlog := c.log_endRun run counted below
  cases hclosing : c.closing with
  | false =>
    refine h.opened hclosing hlog ?_ (c.closing_endRun run counted below)
    rw [hclosing, Bool.and_false]
    simp [Passing]
  | true =>
    obtain ⟨hconnected, ⟨-, hnone⟩ | ⟨hdestroyed, hone⟩⟩ := h.behind hclosing
    · rw [husers] at hnone
      exact absurd hnone (by simp)
    rw [husers] at hone
    obtain ⟨rfl, hbelow⟩ := List.cons.inj hone
    have hopen : openRuns c.stack = [run] := by
      rw [htop]
      exact congrArg (run :: ·) (openRuns_eq_nil hbelow)
    rw [hclosing, Bool.and_self, if_pos rfl] at hlog
    refine ⟨?_, ?_, ?_⟩
    · rw [hlog, ← List.singleton_append, ← List.append_assoc]
      refine lawful_concat.mpr ⟨lawful_concat.mpr ⟨h.law, ?_⟩, ?_⟩
      · exact Passing.lifetime (by simp [Passing]) c.log
      · refine ⟨fun _ => ⟨by simpa using hdestroyed, ?_⟩, fun calls heq => absurd heq (by simp)⟩
        intro other hstarted
        have hold : WsNote.started other ∈ c.log := by simpa using hstarted
        by_cases hended : WsNote.ended other ∈ c.log
        · exact List.mem_append_left _ hended
        · have hother := (hstack.running other).mpr ⟨hold, hended⟩
          rw [hopen, List.mem_singleton] at hother
          rw [hother]
          exact List.mem_append_right c.log (List.mem_singleton_self _)
    · rw [LoopCore.closing_endRun, hclosing]
      exact fun hfalse => absurd hfalse (by simp)
    · intro _
      rw [LoopCore.connected_endRun, LoopCore.stack_endRun, hlog]
      exact ⟨hconnected, Or.inl ⟨by simp, hbelow⟩⟩

/-- The connection closes. -/
theorem close (h : Outlives c) (hstack : OnStack c) (hopen : c.connected = true)
    (halone : users c.stack = [] ∨ users c.stack = [true]) :
    Outlives (if c.activeRuns = 0 then (closedCore c).wsChatCtxDestroy else closedCore c) := by
  have hnone := h.before (h.closing_of_connected hopen)
  have hlaw : Lawful Lifetime (c.log ++ [.closed, .cancelled]) := by
    refine h.law.append fun entry hentry past => ?_
    have hcases : entry = .closed ∨ entry = .cancelled := by simpa using hentry
    refine ⟨fun heq => ?_, fun calls heq => ?_⟩
    · simp [heq] at hcases
    · simp [heq] at hcases
  have hlog : (closedCore c).log = c.log ++ [.closed, .cancelled] := List.append_assoc _ _ _
  have hclosing : (closedCore c).closing = true := rfl
  obtain hidle | hone := halone
  · have hzero : c.activeRuns = 0 := by rw [hstack.counter, hidle, List.count_nil]
    rw [if_pos hzero]
    have hdestroyed : (closedCore c).wsChatCtxDestroy.log =
        c.log ++ [.closed, .cancelled] ++ [.destroyed] := congrArg (· ++ [WsNote.destroyed]) hlog
    refine ⟨?_, fun hfalse => ?_, fun _ => ⟨rfl, Or.inl ⟨?_, hidle⟩⟩⟩
    · rw [hdestroyed]
      refine lawful_concat.mpr ⟨hlaw, fun _ => ⟨by simpa using hnone.2, ?_⟩,
        fun calls heq => absurd heq (by simp)⟩
      intro run hstarted
      have hold : WsNote.started run ∈ c.log := by simpa using hstarted
      by_cases hended : WsNote.ended run ∈ c.log
      · exact List.mem_append_left _ hended
      · have hrun := (hstack.running run).mpr ⟨hold, hended⟩
        rw [openRuns_eq_nil hidle] at hrun
        exact absurd hrun List.not_mem_nil
    · exact absurd (hclosing.symm.trans hfalse) (by simp)
    · rw [hdestroyed]
      exact List.mem_append_right _ (List.mem_singleton_self _)
  · have hone' : c.activeRuns = 1 := by rw [hstack.counter, hone]; rfl
    rw [if_neg (by rw [hone']; exact one_ne_zero)]
    refine ⟨?_, fun hfalse => ?_, fun _ => ⟨rfl, Or.inr ⟨?_, hone⟩⟩⟩
    · rw [hlog]
      exact hlaw
    · exact absurd (hclosing.symm.trans hfalse) (by simp)
    · rw [hlog]
      simpa using hnone.2

/-- What a frame does to an open connection. -/
theorem goesOn (h : Outlives c) (hclosing : c.closing = false) {n : Nat} {starts : Bool}
    (hgo : GoesOn n starts c d) : Outlives d := by
  rcases hgo with ⟨-, rfl⟩ | ⟨-, rfl⟩ | ⟨-, request, approved, rfl⟩ | ⟨-, rfl⟩
  · exact h
  · have hcounted : Outlives { c with activeRuns := c.activeRuns + 1 } := ⟨h.law, h.before, h.behind⟩
    exact hcounted.startRun hclosing n true
  · unfold LoopCore.approvalResponse
    dsimp only
    split
    · exact h.opened hclosing rfl (by simp [Passing]) rfl
    · exact h.opened hclosing rfl (by simp [Passing]) rfl
  · exact h.opened hclosing rfl (by simp [Passing]) rfl

end Outlives

/-- **One step.** -/
theorem outlives_step {tools : ToolTable} {n : Nat} {st after : WsLoop} {event : LoopEvent}
    (hok : Outlived st event) (hstack : OnStack st.toLoopCore) (h : Outlives st.toLoopCore)
    (hstep : step tools n st event = some after) : Outlives after.toLoopCore := by
  have hmoves := moves_of_step hstep
  generalize after.toLoopCore = core at hmoves ⊢
  cases hmoves with
  | elsewhere => exact h
  | frame hpump hopen hafter =>
    have hclosing := h.closing_of_connected hopen
    exact (h.free hstack _ hok hclosing).goesOn hclosing hafter
  | close hpump hopen => exact h.close hstack hopen hok
  | logout => exact h.grow rfl (by simp [Passing]) rfl rfl rfl
  | cancel => exact h.grow rfl (by simp [Passing]) rfl rfl rfl
  | flush htop hopen =>
    exact h.opened (h.closing_of_connected hopen) (List.append_nil _).symm (by simp) rfl
  | @ends run left counted below calls available response titled minted htop hcalls =>
    have hcalled : Outlives { st.toLoopCore with
        log := st.log ++ List.replicate calls (WsNote.called run) } := by
      refine h.grow rfl ?_ rfl rfl rfl
      intro entry hentry
      rw [List.eq_of_mem_replicate hentry]
      simp [Passing]
    exact hcalled.endRun (hstack.called run calls) htop
  | calls htop hrequested =>
    exact h.grow (List.append_assoc _ _ _) (by simp [Passing]) rfl rfl (by rw [htop]; rfl)
  | executed htop => exact h.grow rfl (by simp [Passing]) rfl rfl (by rw [htop]; rfl)
  | tool htop =>
    exact h.grow (List.append_nil _).symm (by simp) rfl rfl (by rw [htop]; rfl)
  | asks htop =>
    exact h.grow (List.append_nil _).symm (by simp) rfl rfl (by rw [htop]; rfl)
  | requests request htop => exact h.grow rfl (by simp [Passing]) rfl rfl (by rw [htop]; rfl)
  | flushed htop =>
    have hclosing := h.closing_of_users (by rw [htop]; rfl)
    exact h.opened hclosing (List.append_nil _).symm (by simp) rfl
  | @drain left below minted htop =>
    have hclosing := h.closing_of_users (by rw [htop]; rfl)
    have hdrained : Outlives { st.toLoopCore with stack := .flush left :: below } :=
      h.opened hclosing (List.append_nil _).symm (by simp) rfl
    exact hdrained.startRun hclosing n false
  | returns htop => exact h.grow rfl (by simp [Passing]) rfl rfl (by rw [htop]; rfl)
  | returnsAsking htop => exact h.grow rfl (by simp [Passing]) rfl rfl (by rw [htop]; rfl)
  | answered htop =>
    exact h.grow (List.append_nil _).symm (by simp) rfl rfl (by rw [htop]; rfl)

/-- **The lifetime of a context.**  In a run in which nothing works with the context at a close but
one counted run at most, and no frame frees a message whose calls are being executed, the law of the
lifetime is kept, and the context is destroyed exactly once when the connection closes and all its runs
return. -/
theorem lifetime_of_runs {tools : ToolTable} {n : Nat} {start st : WsLoop} (hfresh : Fresh start)
    (h : Runs (step tools n) Outlived start st) :
    Lawful Lifetime st.log ∧ (WsNote.closed ∈ st.log →
      (∀ run, WsNote.started run ∈ st.log → WsNote.ended run ∈ st.log) →
        st.log.count .destroyed = 1) := by
  have hstart : Outlives start.toLoopCore := by
    refine ⟨hfresh.log ▸ lawful_nil, fun _ => ?_, fun hclosing => ?_⟩
    · rw [hfresh.log]
      exact ⟨List.not_mem_nil, List.not_mem_nil⟩
    · rw [hfresh.closing] at hclosing
      exact absurd hclosing Bool.false_ne_true
  have hkept := h.invariant (I := fun st => OnStack st.toLoopCore ∧ Outlives st.toLoopCore)
    ⟨onStack_of_fresh hfresh, hstart⟩ fun _ _ _ hok hbefore hstep =>
      ⟨onStack_step hbefore.1 hstep, outlives_step hok hbefore.1 hbefore.2 hstep⟩
  obtain ⟨hstack, hlives⟩ := hkept
  refine ⟨hlives.law, fun hclosed hended => ?_⟩
  have hclosing : st.closing = true := by
    cases hclosing : st.closing with
    | false => exact absurd hclosed (hlives.before hclosing).1
    | true => rfl
  have hdestroyed : WsNote.destroyed ∈ st.log := by
    obtain ⟨hmem, -⟩ | ⟨-, hone⟩ := (hlives.behind hclosing).2
    · exact hmem
    · obtain ⟨run, hrun⟩ := exists_mem_openRuns hone
      have hopen := (hstack.running run).mp hrun
      exact absurd (hended run hopen.1) hopen.2
  have honce := hlives.law.count_le_one (a := WsNote.destroyed) fun past hlaw => (hlaw.1 rfl).1
  exact Nat.le_antisymm honce (List.count_pos_iff.mpr hdestroyed)

/-- A connection that closes while a tool waits for its approval. -/
theorem lifetime_of_runs_close : ∃ st, Runs (step shellTools 2) Outlived {} st ∧
    WsNote.closed ∈ st.log ∧ st.log.count .destroyed = 1 := by
  obtain ⟨st, hrun, hlog⟩ := exists_runs_of_foldlM (step shellTools 2) Outlived (fun st => st.log) {}
    [messageEvent, callEvent (answerCalling "shell"), .tool none, .close, .wake false, .tool none,
      callEvent lastAnswer]
    [.started 0, .called 0, .executing 0, .requested "apr_1", .closed, .cancelled,
      .returned "apr_1" false, .executed 0, .ended 0, .destroyed] (by decide +kernel)
  have hclosed : WsNote.closed ∈ st.log := by
    rw [hlog]
    decide
  refine ⟨st, hrun, hclosed, (lifetime_of_runs fresh_default hrun).2 hclosed ?_⟩
  rw [hlog]
  simp

/-- Two runs, one inside the wait of the other, and the connection closes: the inner run destroys the
context while the outer one still waits, and the outer run destroys it again. -/
theorem not_lifetime_nested : ¬ ∀ (tools : ToolTable) (n : Nat) (start st : WsLoop), Fresh start →
    Runs (step tools n) (fun _ _ => True) start st → Lawful Lifetime st.log ∧
      (WsNote.closed ∈ st.log →
        (∀ run, WsNote.started run ∈ st.log → WsNote.ended run ∈ st.log) →
          st.log.count .destroyed = 1) := by
  intro h
  obtain ⟨st, hrun, hlog⟩ := exists_runs_of_foldlM (step shellTools 2) (fun _ _ => True)
    (fun st => st.log) {}
    [messageEvent, callEvent (answerCalling "shell"), .tool none,
      messageEvent, callEvent (answerCalling "shell"), .tool none,
      .close, .wake false, .tool none, callEvent lastAnswer, .wake false, .tool none,
      callEvent lastAnswer]
    [.started 0, .called 0, .executing 0, .requested "apr_1", .started 1, .called 1, .executing 1,
      .requested "apr_2", .closed, .cancelled, .returned "apr_2" false, .executed 1, .ended 1,
      .destroyed, .returned "apr_1" false, .executed 0, .ended 0, .destroyed] (by decide +kernel)
  have honce := (h shellTools 2 {} st fresh_default hrun).2
  rw [hlog] at honce
  exact absurd (honce (by decide) (by simp)) (by decide)

end WsLoop

end EchoAi
