import EchoAi.Server.WsMoves

/-!
# The stack and the log

The runs that have started and not ended are those on the stack, and the counter of the connection
counts those that a frame has started.

* `OnStack`: what the log and the counter say about the stack.
* `onStack_step`: every step keeps it.
* `onStack_of_fresh`: it holds at the start.
-/

namespace EchoAi

/-- The run that an activation belongs to. -/
def Activation.owner : Activation → Option Nat
  | .run number _ _ => some number
  | .tools number _ _ _ _ => some number
  | _ => none

/-- Whether an activation that works with the context is counted in `active_runs`; a wait works on
behalf of the run below it. -/
def Activation.counted : Activation → Option Bool
  | .run _ counted _ => some counted
  | .tools _ counted _ _ _ => some counted
  | .flush _ => some false
  | _ => none

/-- The tool calls that are being executed. -/
def Activation.calls : Activation → Option Nat
  | .tools _ _ _ calls _ => some calls
  | _ => none

/-- The runs on a stack. -/
def openRuns (stack : List Activation) : List Nat := stack.filterMap Activation.owner

/-- The activations of a stack that work with the context, each with whether it is counted. -/
def users (stack : List Activation) : List Bool := stack.filterMap Activation.counted

/-- The tool calls of a stack that are being executed. -/
def openCalls (stack : List Activation) : List Nat := stack.filterMap Activation.calls

/-- What the log and the counter say about the stack. -/
structure OnStack (c : LoopCore) : Prop where
  fresh : ∀ run, WsNote.started run ∈ c.log ∨ WsNote.ended run ∈ c.log → run < c.runs
  nodup : (openRuns c.stack).Nodup
  running : ∀ run, run ∈ openRuns c.stack ↔ WsNote.started run ∈ c.log ∧ WsNote.ended run ∉ c.log
  counter : c.activeRuns = (users c.stack).count true
  executing : ∀ calls, WsNote.executing calls ∈ c.log →
    WsNote.executed calls ∈ c.log ∨ calls ∈ openCalls c.stack

namespace OnStack

variable {c d : LoopCore}

/-- Steps between the start and the end of a run. -/
theorem grow (h : OnStack c) {more : List WsNote} (hlog : d.log = c.log ++ more)
    (hmore : ∀ entry ∈ more, ∀ run, entry ≠ .started run ∧ entry ≠ .ended run)
    (hruns : d.runs = c.runs) (hactive : d.activeRuns = c.activeRuns)
    (hopen : openRuns d.stack = openRuns c.stack) (husers : (users d.stack).count true = (users c.stack).count true)
    (hcalls : ∀ calls, calls ∈ openCalls c.stack ∨ WsNote.executing calls ∈ more →
      WsNote.executed calls ∈ more ∨ calls ∈ openCalls d.stack) : OnStack d := by
  have hstarted : ∀ run, WsNote.started run ∈ d.log ↔ WsNote.started run ∈ c.log := by
    intro run
    rw [hlog, List.mem_append, or_iff_left fun hmem => (hmore _ hmem run).1 rfl]
  have hended : ∀ run, WsNote.ended run ∈ d.log ↔ WsNote.ended run ∈ c.log := by
    intro run
    rw [hlog, List.mem_append, or_iff_left fun hmem => (hmore _ hmem run).2 rfl]
  refine ⟨?_, ?_, ?_, ?_, ?_⟩
  · intro run hrun
    rw [hstarted, hended] at hrun
    exact hruns ▸ h.fresh run hrun
  · rw [hopen]
    exact h.nodup
  · intro run
    rw [hopen, hstarted, hended]
    exact h.running run
  · rw [hactive, husers]
    exact h.counter
  · intro calls hmem
    rw [hlog, List.mem_append] at hmem ⊢
    have hcase : WsNote.executed calls ∈ c.log ∨
        (calls ∈ openCalls c.stack ∨ WsNote.executing calls ∈ more) := by
      obtain hold | hnew := hmem
      · exact (h.executing calls hold).imp_right Or.inl
      · exact Or.inr (Or.inr hnew)
    obtain hdone | hopencalls := hcase
    · exact Or.inl (Or.inl hdone)
    · exact (hcalls calls hopencalls).imp_left Or.inr

/-- The activations that work stay on the stack, and the log does not speak of them. -/
theorem note (h : OnStack c) {more : List WsNote} (hlog : d.log = c.log ++ more)
    (hmore : ∀ entry ∈ more, ∀ number, entry ≠ .started number ∧ entry ≠ .ended number ∧
      entry ≠ .executing number) (hruns : d.runs = c.runs) (hactive : d.activeRuns = c.activeRuns)
    (hopen : openRuns d.stack = openRuns c.stack) (husers : (users d.stack).count true = (users c.stack).count true)
    (hcalls : openCalls d.stack = openCalls c.stack) : OnStack d := by
  refine h.grow hlog (fun entry hentry run => ?_) hruns hactive hopen husers ?_
  · exact ⟨(hmore entry hentry run).1, (hmore entry hentry run).2.1⟩
  · rintro calls (hmem | hexecuting)
    · exact Or.inr (hcalls ▸ hmem)
    · exact absurd rfl (hmore _ hexecuting calls).2.2

/-- Only the stack changes, not in the activations that work. -/
theorem restack (h : OnStack c) {stack : List Activation}
    (hopen : openRuns stack = openRuns c.stack) (husers : (users stack).count true = (users c.stack).count true)
    (hcalls : openCalls stack = openCalls c.stack) : OnStack { c with stack } :=
  h.note (List.append_nil c.log).symm (by simp) rfl rfl hopen husers hcalls

/-- Messages are freed. -/
theorem free (h : OnStack c) (calls : List Nat) : OnStack (c.free calls) := by
  refine h.note rfl ?_ rfl rfl rfl rfl rfl
  intro entry hentry number
  obtain ⟨k, -, rfl⟩ := List.mem_map.mp hentry
  simp

/-- Calls of the model. -/
theorem called (h : OnStack c) (run calls : Nat) :
    OnStack { c with log := c.log ++ List.replicate calls (WsNote.called run) } := by
  refine h.note rfl ?_ rfl rfl rfl rfl rfl
  intro entry hentry number
  rw [List.eq_of_mem_replicate hentry]
  simp

/-- The next run has not started. -/
theorem not_started (h : OnStack c) : WsNote.started c.runs ∉ c.log :=
  fun hmem => Nat.lt_irrefl _ (h.fresh _ (Or.inl hmem))

/-- The start of a run, which a frame counts. -/
theorem startRun (h : OnStack c) (n : Nat) (counted : Bool) :
    OnStack ({ c with activeRuns := c.activeRuns + if counted then 1 else 0 }.startRun n counted) := by
  have hnew : WsNote.started c.runs ∉ c.log ∧ WsNote.ended c.runs ∉ c.log :=
    ⟨h.not_started, fun hmem => Nat.lt_irrefl _ (h.fresh _ (Or.inr hmem))⟩
  have hrun : c.runs ∉ openRuns c.stack := fun hmem => hnew.1 ((h.running _).mp hmem).1
  refine ⟨?_, List.nodup_cons.mpr ⟨hrun, h.nodup⟩, ?_, ?_, ?_⟩
  · intro run hmem
    show run < c.runs + 1
    obtain hmem | hmem := hmem
    · obtain hold | hlast := List.mem_append.mp hmem
      · exact Nat.lt_succ_of_lt (h.fresh run (Or.inl hold))
      · obtain rfl := WsNote.started.inj (List.mem_singleton.mp hlast)
        exact Nat.lt_succ_self c.runs
    · obtain hold | hlast := List.mem_append.mp hmem
      · exact Nat.lt_succ_of_lt (h.fresh run (Or.inr hold))
      · exact absurd (List.mem_singleton.mp hlast) (by simp)
  · intro run
    show run ∈ c.runs :: openRuns c.stack ↔ WsNote.started run ∈ c.log ++ [.started c.runs] ∧
      WsNote.ended run ∉ c.log ++ [.started c.runs]
    rw [List.mem_cons, h.running]
    simp only [List.mem_append, List.mem_singleton, WsNote.started.injEq, reduceCtorEq, or_false]
    constructor
    · rintro (rfl | ⟨hstarted, hended⟩)
      · exact ⟨Or.inr rfl, hnew.2⟩
      · exact ⟨Or.inl hstarted, hended⟩
    · rintro ⟨hstarted | rfl, hended⟩
      · exact Or.inr ⟨hstarted, hended⟩
      · exact Or.inl rfl
  · show c.activeRuns + (if counted then 1 else 0) = (counted :: users c.stack).count true
    rw [h.counter]
    cases counted with
    | false => exact (List.count_cons_of_ne Bool.false_ne_true).symm
    | true => exact List.count_cons_self.symm
  · intro calls hmem
    have hold : WsNote.executing calls ∈ c.log :=
      (List.mem_append.mp hmem).resolve_right fun hlast => absurd hlast (by simp)
    exact (h.executing calls hold).imp_left (List.mem_append_left _)

/-- The end of a run. -/
theorem endRun (h : OnStack c) {run left : Nat} {counted : Bool} {below : List Activation}
    (hstack : c.stack = .run run counted left :: below) : OnStack (c.endRun run counted below) := by
  have hopen : openRuns c.stack = run :: openRuns below := by rw [hstack]; rfl
  have hlog := c.log_endRun run counted below
  have hended : ∀ other, WsNote.ended other ∈ (c.endRun run counted below).log ↔
      WsNote.ended other ∈ c.log ∨ other = run := by
    intro other
    rw [hlog, List.mem_append, List.mem_cons, WsNote.ended.injEq]
    refine or_congr_right (or_iff_left fun hmem => ?_)
    split at hmem <;> simp at hmem
  have hstarted : ∀ other, WsNote.started other ∈ (c.endRun run counted below).log ↔
      WsNote.started other ∈ c.log := by
    intro other
    rw [hlog, List.mem_append]
    refine or_iff_left fun hmem => ?_
    split at hmem <;> simp at hmem
  have hnodup : run ∉ openRuns below ∧ (openRuns below).Nodup :=
    List.nodup_cons.mp (hopen ▸ h.nodup)
  have hrun := (h.running run).mp (hopen ▸ List.mem_cons_self)
  refine ⟨?_, ?_, ?_, ?_, ?_⟩
  · intro other hother
    rw [LoopCore.runs_endRun]
    rw [hstarted, hended] at hother
    obtain hmem | hmem | rfl := hother
    · exact h.fresh other (Or.inl hmem)
    · exact h.fresh other (Or.inr hmem)
    · exact h.fresh other (Or.inl hrun.1)
  · rw [LoopCore.stack_endRun]
    exact hnodup.2
  · intro other
    rw [LoopCore.stack_endRun, hstarted, hended, not_or]
    constructor
    · intro hmem
      have hother := (h.running other).mp (hopen ▸ List.mem_cons_of_mem run hmem)
      refine ⟨hother.1, hother.2, ?_⟩
      rintro rfl
      exact hnodup.1 hmem
    · rintro ⟨hmem, hend, hne⟩
      have hother := (h.running other).mpr ⟨hmem, hend⟩
      rw [hopen, List.mem_cons] at hother
      exact hother.resolve_left hne
  · rw [LoopCore.stack_endRun, LoopCore.activeRuns_endRun, h.counter, hstack]
    show (counted :: users below).count true - _ = (users below).count true
    cases counted with
    | false => exact List.count_cons_of_ne Bool.false_ne_true
    | true =>
      rw [List.count_cons_self]
      exact Nat.add_sub_cancel _ 1
  · intro calls hmem
    have hold : WsNote.executing calls ∈ c.log := by
      rw [hlog, List.mem_append] at hmem
      refine hmem.resolve_right fun hlast => ?_
      split at hlast <;> simp at hlast
    rw [LoopCore.stack_endRun, hlog]
    have hcase := h.executing calls hold
    rw [hstack] at hcase
    exact hcase.imp_left (List.mem_append_left _)

end OnStack

namespace WsLoop

/-- What a frame does keeps what the log says. -/
theorem onStack_goesOn {c d : LoopCore} {n : Nat} {starts : Bool} (h : OnStack c)
    (hgo : GoesOn n starts c d) : OnStack d := by
  rcases hgo with ⟨-, rfl⟩ | ⟨-, rfl⟩ | ⟨-, request, approved, rfl⟩ | ⟨-, rfl⟩
  · exact h
  · exact h.startRun n true
  · unfold LoopCore.approvalResponse
    dsimp only
    split
    · exact h.note rfl (by simp) rfl rfl rfl rfl rfl
    · exact h.note rfl (by simp) rfl rfl rfl rfl rfl
  · exact h.note rfl (by simp) rfl rfl rfl rfl rfl

/-- **One step.** -/
theorem onStack_step {tools : ToolTable} {n : Nat} {st after : WsLoop} {event : LoopEvent}
    (h : OnStack st.toLoopCore) (hstep : step tools n st event = some after) :
    OnStack after.toLoopCore := by
  have hmoves := moves_of_step hstep
  generalize after.toLoopCore = core at hmoves ⊢
  cases hmoves with
  | elsewhere => exact h
  | @frame frame _ hpump hopen hafter =>
    exact onStack_goesOn (h.free _) hafter
  | close hpump hopen =>
    have hclosed : OnStack (closedCore st.toLoopCore) :=
      h.note (List.append_assoc _ _ _) (by simp) rfl rfl rfl rfl rfl
    split
    · exact hclosed.note rfl (by simp) rfl rfl rfl rfl rfl
    · exact hclosed
  | logout => exact h.note rfl (by simp) rfl rfl rfl rfl rfl
  | cancel => exact h.note rfl (by simp) rfl rfl rfl rfl rfl
  | flush hstack hopen =>
    refine ⟨h.fresh, ?_, ?_, ?_, ?_⟩
    · exact List.nodup_nil
    · intro run
      rw [← h.running, hstack]
      rfl
    · rw [h.counter, hstack]
      rfl
    · intro calls hmem
      have hcase := h.executing calls hmem
      rw [hstack] at hcase
      exact hcase
  | @ends run left counted below calls available response titled minted hstack hcalls =>
    exact (h.called run calls).endRun hstack
  | calls hstack hrequested =>
    refine h.grow (List.append_assoc _ _ _) (by simp) rfl rfl (by rw [hstack]; rfl)
      (by rw [hstack]; rfl) ?_
    rintro calls (hmem | hmem)
    · rw [hstack] at hmem
      exact Or.inr (List.mem_cons_of_mem _ hmem)
    · obtain rfl : calls = st.batches := by simpa using hmem
      exact Or.inr List.mem_cons_self
  | @executed run left calls counted below minted hstack =>
    refine h.grow rfl (by simp) rfl rfl (by rw [hstack]; rfl) (by rw [hstack]; rfl) ?_
    rintro other (hmem | hmem)
    · rw [hstack] at hmem
      obtain rfl | hbelow := List.mem_cons.mp hmem
      · exact Or.inl (List.mem_singleton_self _)
      · exact Or.inr hbelow
    · exact absurd hmem (by simp)
  | tool hstack => exact h.restack (by rw [hstack]; rfl) (by rw [hstack]; rfl) (by rw [hstack]; rfl)
  | asks hstack => exact h.restack (by rw [hstack]; rfl) (by rw [hstack]; rfl) (by rw [hstack]; rfl)
  | requests request hstack =>
    exact h.note rfl (by simp) rfl rfl (by rw [hstack]; rfl) (by rw [hstack]; rfl)
      (by rw [hstack]; rfl)
  | flushed hstack =>
    exact h.restack (by rw [hstack]; rfl) (by rw [hstack]; rfl) (by rw [hstack]; rfl)
  | @drain left below minted hstack =>
    have hdrained : OnStack { st.toLoopCore with stack := .flush left :: below } :=
      h.restack (by rw [hstack]; rfl) (by rw [hstack]; rfl) (by rw [hstack]; rfl)
    exact hdrained.startRun n false
  | returns hstack =>
    exact h.note rfl (by simp) rfl rfl (by rw [hstack]; rfl) (by rw [hstack]; rfl)
      (by rw [hstack]; rfl)
  | returnsAsking hstack =>
    exact h.note rfl (by simp) rfl rfl (by rw [hstack]; rfl) (by rw [hstack]; rfl)
      (by rw [hstack]; rfl)
  | answered hstack =>
    exact h.restack (by rw [hstack]; rfl) (by rw [hstack]; rfl) (by rw [hstack]; rfl)

theorem onStack_of_fresh {start : WsLoop} (hfresh : Fresh start) : OnStack start.toLoopCore := by
  refine ⟨?_, ?_, ?_, ?_, ?_⟩
  · intro run hrun
    rw [hfresh.log] at hrun
    simp at hrun
  · rw [hfresh.stack]
    exact List.nodup_nil
  · intro run
    rw [hfresh.stack, hfresh.log]
    simp [openRuns]
  · rw [hfresh.activeRuns, hfresh.stack]
    rfl
  · intro calls hmem
    rw [hfresh.log] at hmem
    exact absurd hmem List.not_mem_nil

end WsLoop

end EchoAi
