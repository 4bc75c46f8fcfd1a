import EchoAi.Server.WsStack

/-!
# Cancelled runs

The cancel flag belongs to the agent, and the start of a run clears it.

* `Obeyed`: a run that was cancelled while it was under way calls the model no more.
* `KeepsCancel`: no run starts inside another one while a cancellation is pending.
* `obeyed_of_runs`: runs under this condition keep the law.
-/

namespace EchoAi

namespace WsLoop

/-- A cancellation stands in the log behind the start of the run. -/
def CancelledSince (run : Nat) (log : List WsNote) : Prop :=
  ∃ before after, log = before ++ WsNote.cancelled :: after ∧ WsNote.started run ∈ before

/-- The law of cancellation: a run calls the model only when every cancellation behind its start came
after its end. -/
def Obeyed (past : List WsNote) (entry : WsNote) : Prop :=
  ∀ run, entry = .called run → ∀ before after, past = before ++ WsNote.cancelled :: after →
    WsNote.started run ∈ before → WsNote.ended run ∈ before

/-- Whether a step starts a run. -/
def starts (st : WsLoop) : LoopEvent → Bool
  | .frame frame => st.startsRun frame
  | .drain _ =>
    match st.stack with
    | .flush (_ + 1) :: _ => true
    | _ => false
  | _ => false

/-- No run starts inside another one while a cancellation is pending. -/
def KeepsCancel (st : WsLoop) (event : LoopEvent) : Prop :=
  st.starts event = true → st.cancelRequested = false ∨ openRuns st.stack = []

instance (st : WsLoop) (event : LoopEvent) : Decidable (KeepsCancel st event) :=
  inferInstanceAs (Decidable (_ → _ ∨ _))

/-- The law so far, and the runs on the stack that were cancelled find the flag set. -/
structure Obeying (c : LoopCore) : Prop where
  law : Lawful Obeyed c.log
  flagged : ∀ run ∈ openRuns c.stack, CancelledSince run c.log → c.cancelRequested = true

theorem cancelledSince_append {run : Nat} {log more : List WsNote}
    (hmore : WsNote.cancelled ∉ more) (h : CancelledSince run (log ++ more)) :
    CancelledSince run log := by
  obtain ⟨before, after, heq, hstarted⟩ := h
  obtain ⟨rest, rfl, hrest⟩ | ⟨rest, rfl, hrest⟩ := List.append_eq_append_iff.mp heq
  · rw [hrest] at hmore
    exact absurd (List.mem_append_right rest List.mem_cons_self) hmore
  · cases rest with
    | nil =>
      rw [List.nil_append] at hrest
      rw [← hrest] at hmore
      exact absurd List.mem_cons_self hmore
    | cons entry rest =>
      obtain ⟨rfl, -⟩ := List.cons.inj hrest
      exact ⟨before, rest, rfl, hstarted⟩

namespace Obeying

variable {c d : LoopCore} {more : List WsNote}

/-- Entries that are neither calls nor cancellations. -/
theorem grow (h : Obeying c) (hlog : d.log = c.log ++ more)
    (hmore : ∀ entry ∈ more, entry ≠ .cancelled ∧ ∀ run, entry ≠ .called run)
    (hflag : d.cancelRequested = c.cancelRequested)
    (hopen : ∀ run ∈ openRuns d.stack, run ∈ openRuns c.stack) : Obeying d := by
  refine ⟨?_, fun run hrun hsince => ?_⟩
  · rw [hlog]
    exact h.law.append fun entry hentry past run heq => absurd heq ((hmore entry hentry).2 run)
  · rw [hlog] at hsince
    rw [hflag]
    exact h.flagged run (hopen run hrun)
      (cancelledSince_append (fun hmem => (hmore _ hmem).1 rfl) hsince)

/-- A cancellation sets the flag. -/
theorem cancelled (h : Obeying c) (hlog : d.log = c.log ++ more)
    (hmore : ∀ entry ∈ more, ∀ run, entry ≠ .called run) (hflag : d.cancelRequested = true) :
    Obeying d := by
  refine ⟨?_, fun _ _ _ => hflag⟩
  rw [hlog]
  exact h.law.append fun entry hentry past run heq => absurd heq (hmore entry hentry run)

/-- The start of a run. -/
theorem startRun (h : Obeying c) (hnew : WsNote.started c.runs ∉ c.log)
    (hclear : c.cancelRequested = false ∨ openRuns c.stack = []) (n : Nat) (counted : Bool) :
    Obeying (c.startRun n counted) := by
  refine ⟨?_, fun run hrun hsince => ?_⟩
  · refine h.law.append fun entry hentry past run heq => ?_
    rw [List.mem_singleton.mp hentry] at heq
    exact absurd heq (by simp)
  · have hold : CancelledSince run c.log := cancelledSince_append (by simp) hsince
    obtain rfl | hbelow := List.mem_cons.mp hrun
    · obtain ⟨before, after, heq, hstarted⟩ := hold
      exact absurd (heq ▸ List.mem_append_left _ hstarted) hnew
    · obtain hfalse | hnone := hclear
      · have hflag := h.flagged run hbelow hold
        rw [hfalse] at hflag
        exact absurd hflag Bool.false_ne_true
      · have hempty : run ∈ openRuns c.stack := hbelow
        rw [hnone] at hempty
        exact absurd hempty List.not_mem_nil

/-- Calls of the run on top, which finds the flag clear. -/
theorem called (h : Obeying c) {run : Nat} (hrun : run ∈ openRuns c.stack) (calls : Nat)
    (hclear : calls = 0 ∨ c.cancelRequested = false)
    (hlog : d.log = c.log ++ List.replicate calls (WsNote.called run))
    (hflag : d.cancelRequested = c.cancelRequested)
    (hopen : ∀ run ∈ openRuns d.stack, run ∈ openRuns c.stack) : Obeying d := by
  have hnone : WsNote.cancelled ∉ List.replicate calls (WsNote.called run) := by
    intro hmem
    exact absurd (List.eq_of_mem_replicate hmem) (by simp)
  refine ⟨?_, fun other hother hsince => ?_⟩
  · rw [hlog]
    refine h.law.extend fun past entry rest heq number hentry before after hpast hstarted => ?_
    have hmem : entry ∈ List.replicate calls (WsNote.called run) := by
      rw [heq]
      exact List.mem_append_right past List.mem_cons_self
    obtain rfl : run = number := by
      rw [List.eq_of_mem_replicate hmem] at hentry
      exact WsNote.called.inj hentry
    have hpastNone : WsNote.cancelled ∉ past := fun hcancel =>
      hnone (heq ▸ List.mem_append_left _ hcancel)
    have hflagged := h.flagged run hrun
      (cancelledSince_append hpastNone ⟨before, after, hpast, hstarted⟩)
    obtain rfl | hfalse := hclear
    · exact absurd hmem List.not_mem_nil
    · rw [hfalse] at hflagged
      exact absurd hflagged Bool.false_ne_true
  · rw [hlog] at hsince
    rw [hflag]
    exact h.flagged other (hopen other hother) (cancelledSince_append hnone hsince)

/-- The end of a run. -/
theorem endRun (h : Obeying c) {run left : Nat} {counted : Bool} {below : List Activation}
    (htop : c.stack = .run run counted left :: below) : Obeying (c.endRun run counted below) := by
  refine h.grow (c.log_endRun run counted below) ?_ (c.cancelRequested_endRun run counted below) ?_
  · split <;> simp
  · intro other hother
    rw [LoopCore.stack_endRun] at hother
    rw [htop]
    exact List.mem_cons_of_mem run hother

/-- What a frame does. -/
theorem goesOn (h : Obeying c) (hnew : WsNote.started c.runs ∉ c.log) {n : Nat} {starts : Bool}
    (hclear : starts = true → c.cancelRequested = false ∨ openRuns c.stack = [])
    (hgo : GoesOn n starts c d) : Obeying d := by
  rcases hgo with ⟨-, rfl⟩ | ⟨hstarts, rfl⟩ | ⟨-, request, approved, rfl⟩ | ⟨-, rfl⟩
  · exact h
  · have hcounted : Obeying { c with activeRuns := c.activeRuns + 1 } := ⟨h.law, h.flagged⟩
    exact hcounted.startRun hnew (hclear hstarts) n true
  · unfold LoopCore.approvalResponse
    dsimp only
    split
    · exact h.grow rfl (by simp) rfl fun _ hrun => hrun
    · exact h.grow rfl (by simp) rfl fun _ hrun => hrun
  · exact h.cancelled rfl (by simp) rfl

end Obeying

/-- **One step.** -/
theorem obeying_step {tools : ToolTable} {n : Nat} {st after : WsLoop} {event : LoopEvent}
    (hok : KeepsCancel st event) (hstack : OnStack st.toLoopCore) (h : Obeying st.toLoopCore)
    (hstep : step tools n st event = some after) : Obeying after.toLoopCore := by
  have hmoves := moves_of_step hstep
  generalize after.toLoopCore = core at hmoves ⊢
  cases hmoves with
  | elsewhere => exact h
  | @frame frame _ hpump hopen hafter =>
    have hfreed : Obeying
        (st.toLoopCore.free ((st.dropped frame).filterMap HeldMessage.calls)) := by
      refine h.grow rfl (fun entry hentry => ?_) rfl fun _ hrun => hrun
      obtain ⟨calls, -, rfl⟩ := List.mem_map.mp hentry
      simp
    exact hfreed.goesOn (hstack.free _).not_started hok hafter
  | close hpump hopen =>
    have hclosed : Obeying (closedCore st.toLoopCore) :=
      h.cancelled (List.append_assoc _ _ _) (by simp) rfl
    split
    · exact hclosed.grow rfl (by simp) rfl fun _ hrun => hrun
    · exact hclosed
  | logout => exact h.cancelled rfl (by simp) rfl
  | cancel => exact h.cancelled rfl (by simp) rfl
  | flush htop hopen =>
    refine h.grow (List.append_nil _).symm (by simp) rfl fun run hrun => ?_
    exact absurd hrun List.not_mem_nil
  | @ends run left counted below calls available response titled minted htop hcalls =>
    have hcalled : Obeying { st.toLoopCore with
        log := st.log ++ List.replicate calls (WsNote.called run) } :=
      h.called (by rw [htop]; exact List.mem_cons_self) calls hcalls rfl rfl fun _ hrun => hrun
    exact hcalled.endRun htop
  | @calls run left counted below available response titled minted htop hrequested =>
    have hcalled : Obeying { st.toLoopCore with log := st.log ++ List.replicate 1 (.called run) } :=
      h.called (by rw [htop]; exact List.mem_cons_self) 1 (Or.inr hrequested) rfl rfl
        fun _ hrun => hrun
    refine hcalled.grow rfl (by simp) rfl fun other hother => ?_
    rw [htop]
    exact hother
  | executed htop => exact h.grow rfl (by simp) rfl (by rw [htop]; exact fun _ hrun => hrun)
  | tool htop =>
    exact h.grow (List.append_nil _).symm (by simp) rfl (by rw [htop]; exact fun _ hrun => hrun)
  | asks htop =>
    exact h.grow (List.append_nil _).symm (by simp) rfl (by rw [htop]; exact fun _ hrun => hrun)
  | requests request htop =>
    exact h.grow rfl (by simp) rfl (by rw [htop]; exact fun _ hrun => hrun)
  | flushed htop =>
    exact h.grow (List.append_nil _).symm (by simp) rfl (by rw [htop]; exact fun _ hrun => hrun)
  | @drain left below minted htop =>
    have hdrained : Obeying { st.toLoopCore with stack := .flush left :: below } :=
      h.grow (List.append_nil _).symm (by simp) rfl (by rw [htop]; exact fun _ hrun => hrun)
    refine hdrained.startRun hstack.not_started ?_ n false
    have hclear := hok (by rw [starts, htop])
    rw [htop] at hclear
    exact hclear
  | returns htop => exact h.grow rfl (by simp) rfl (by rw [htop]; exact fun _ hrun => hrun)
  | returnsAsking htop => exact h.grow rfl (by simp) rfl (by rw [htop]; exact fun _ hrun => hrun)
  | answered htop =>
    exact h.grow (List.append_nil _).symm (by simp) rfl (by rw [htop]; exact fun _ hrun => hrun)

/-- **Cancelled runs.**  In a run in which no run starts inside another one while a cancellation is
pending, a run that is cancelled while it is under way calls the model no more. -/
theorem obeyed_of_runs {tools : ToolTable} {n : Nat} {start st : WsLoop} (hfresh : Fresh start)
    (h : Runs (step tools n) KeepsCancel start st) : Lawful Obeyed st.log := by
  have hstart : Obeying start.toLoopCore := by
    refine ⟨hfresh.log ▸ lawful_nil, fun run hrun => ?_⟩
    rw [hfresh.stack] at hrun
    exact absurd hrun List.not_mem_nil
  have hkept := h.invariant (I := fun st => OnStack st.toLoopCore ∧ Obeying st.toLoopCore)
    ⟨onStack_of_fresh hfresh, hstart⟩ fun _ _ _ hok hbefore hstep =>
      ⟨onStack_step hbefore.1 hstep, obeying_step hok hbefore.1 hbefore.2 hstep⟩
  exact hkept.2.law

/-- A run that is stopped while its tool waits for an approval. -/
theorem obeyed_of_runs_stop : ∃ st, Runs (step shellTools 2) KeepsCancel {} st ∧
    WsNote.cancelled ∈ st.log ∧ Lawful Obeyed st.log := by
  obtain ⟨st, hrun, hlog⟩ := exists_runs_of_foldlM (step shellTools 2) KeepsCancel
    (fun st => st.log) {}
    [messageEvent, callEvent (answerCalling "shell"), .tool none, .frame { request := .stop },
      .wake false, .tool none, callEvent lastAnswer]
    [.started 0, .called 0, .executing 0, .requested "apr_1", .cancelled, .returned "apr_1" false,
      .executed 0, .ended 0] (by decide +kernel)
  refine ⟨st, hrun, ?_, obeyed_of_runs fresh_default hrun⟩
  rw [hlog]
  decide

/-- A run that was stopped, before another run started inside its wait. -/
def stoppedLog : List WsNote :=
  [.started 0, .called 0, .executing 0, .requested "apr_1", .cancelled, .started 1, .called 1,
    .ended 1, .returned "apr_1" false, .executed 0]

/-- The start of the inner run clears the flag, and the outer run goes on. -/
theorem not_obeyed_nested : ¬ ∀ (tools : ToolTable) (n : Nat) (start st : WsLoop), Fresh start →
    Runs (step tools n) (fun _ _ => True) start st → Lawful Obeyed st.log := by
  intro h
  obtain ⟨st, hrun, hlog⟩ := exists_runs_of_foldlM (step shellTools 2) (fun _ _ => True)
    (fun st => st.log) {}
    [messageEvent, callEvent (answerCalling "shell"), .tool none, .frame { request := .stop },
      messageEvent, callEvent lastAnswer, .wake false, .tool none, callEvent lastAnswer]
    (stoppedLog ++ [.called 0] ++ [.ended 0]) (by decide +kernel)
  have hlaw := h shellTools 2 {} st fresh_default hrun
  rw [hlog] at hlaw
  have hcalled := (lawful_concat.mp (lawful_concat.mp hlaw).1).2
  have hended := hcalled 0 rfl [.started 0, .called 0, .executing 0, .requested "apr_1"] _ rfl
    (by decide)
  exact absurd hended (by decide)

end WsLoop

end EchoAi
