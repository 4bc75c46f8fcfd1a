import EchoAi.Tools.Delegate

/-!
# Approval before execution

* `Gated`: every execution of a tool that needs approval comes right behind an approval of the call.
* `ToolEvent.Exempt`: no execution by the loop of a delegation of a tool that needs approval.
* `Regular`: what logs look like, with the steps that keep it.
* `gated_iff`: a run of tool calls is gated just when each of its events is exempt.
-/

namespace EchoAi

/-- Every execution of a tool that needs approval comes right behind the approval of that call.  The
last event of a log stands first. -/
def Gated : List ToolEvent → Prop
  | [] => True
  | .asked .. :: before => Gated before
  | .executed _ name args policy :: before =>
    (safetyNeedsApproval (some policy) (some name) = true →
      ∃ answer ≠ .deny, before.head? = some (.asked name args answer)) ∧ Gated before

/-- The loop of a delegation executes no tool that needs approval. -/
def ToolEvent.Exempt : ToolEvent → Prop
  | .executed .delegate name _ policy => safetyNeedsApproval (some policy) (some name) = false
  | _ => True

/-- The last event is an execution. -/
def EndsExecuted (events : List ToolEvent) : Prop :=
  ∃ loop name args policy, events.head? = some (.executed loop name args policy)

/-- A log of the two loops: the agent asks before it executes, and a delegation executes behind
another execution. -/
def Regular : List ToolEvent → Prop
  | [] => True
  | .asked .. :: before => Regular before
  | .executed .agent name args policy :: before =>
    (safetyNeedsApproval (some policy) (some name) = true →
      ∃ answer ≠ .deny, before.head? = some (.asked name args answer)) ∧ Regular before
  | .executed .delegate .. :: before => EndsExecuted before ∧ Regular before

/-- A regular log is gated just when all of its events are exempt. -/
theorem gated_iff_of_regular {events : List ToolEvent} (h : Regular events) :
    Gated events ↔ ∀ e ∈ events, e.Exempt := by
  induction events with
  | nil => simp [Gated]
  | cons e before ih =>
    rw [List.forall_mem_cons]
    cases e with
    | asked name args answer =>
      rw [Gated, ih h]
      exact (and_iff_right trivial).symm
    | executed loop name args policy =>
      rw [Gated, ih (by cases loop <;> exact h.2)]
      refine and_congr_left fun _ => ?_
      cases loop with
      | agent => exact iff_of_true h.1 trivial
      | delegate =>
        obtain ⟨loop', name', args', policy', hhead⟩ := h.1
        show _ ↔ safetyNeedsApproval (some policy) (some name) = false
        rw [← Bool.not_eq_true]
        refine ⟨fun hgate hneeds => ?_, fun hfree hneeds => absurd hneeds hfree⟩
        obtain ⟨answer, _, hasked⟩ := hgate hneeds
        rw [hhead] at hasked
        exact absurd hasked (by simp)

/-! ## Delegations -/

section Delegate

variable {ω : Type} {tools : ToolWorld ω}
  {execute : String → String → ToolState ω → Option ToolResult × ToolState ω}

/-- A regular log whose last event is an execution. -/
def Delegated (st : ToolState ω) : Prop := Regular st.events ∧ EndsExecuted st.events

/-- Whatever the delegation executes keeps the log so. -/
def KeepsDelegated (execute : String → String → ToolState ω → Option ToolResult × ToolState ω) :
    Prop :=
  ∀ name args st, Delegated st → Delegated (execute name args st).2

variable (hexecute : KeepsDelegated execute)

include hexecute

theorem delegated_delegateCall (call : ToolCall) (msgs : List Message) {st : ToolState ω}
    (h : Delegated st) : Delegated (delegateCall tools execute call msgs st).2 := by
  rw [delegateCall]
  split
  · exact h
  · exact hexecute _ _ _ ⟨⟨h.2, h.1⟩, _, _, _, _, rfl⟩

theorem delegated_delegateCalls (calls : List ToolCall) (msgs : List Message) {st : ToolState ω}
    (h : Delegated st) : Delegated (delegateCalls tools execute calls msgs st).2 := by
  induction calls generalizing msgs st with
  | nil => exact h
  | cons call calls ih => exact ih _ (delegated_delegateCall hexecute call msgs h)

theorem delegated_delegateLoop (iterations : Nat) (msgs : List Message) (final : Option String)
    {st : ToolState ω} (h : Delegated st) :
    Delegated (delegateLoop tools execute iterations msgs final st).2 := by
  induction iterations generalizing msgs final st with
  | zero => exact h
  | succ iterations ih =>
    rw [delegateLoop]
    split
    · exact h
    · dsimp only
      split
      · exact ih _ _ (delegated_delegateCalls hexecute _ _ h)
      · exact h

theorem delegated_delegateExecute (args : String) {st : ToolState ω} (h : Delegated st) :
    Delegated (delegateExecute tools execute args st).2 := by
  rw [delegateExecute]
  split
  · exact h
  split
  · exact h
  split
  · exact h
  dsimp only
  split
  · exact delegated_delegateLoop hexecute _ _ _ h
  · exact h

end Delegate

section Agent

variable {ω : Type} {tools : ToolWorld ω} {base : World ω}

theorem keepsDelegated_executeTool (depth : Nat) : KeepsDelegated (executeTool tools depth) := by
  induction depth with
  | zero =>
    intro name args st h
    rw [executeTool]
    split <;> exact h
  | succ depth ih =>
    intro name args st h
    rw [executeTool]
    split
    · exact delegated_delegateExecute ih args h
    · exact h

/-! ## The agent -/

/-- The execution of a call that needs no approval, or has it, keeps a log regular. -/
theorem regular_runTool {depth : Nat} {policy : SafetyConfig} {call : ToolCall} {name args : String}
    {st : RunState (ToolState ω)}
    (hgate : safetyNeedsApproval (some st.world.policy) (some name) = true →
      ∃ answer ≠ .deny, st.world.events.head? = some (.asked name args answer))
    (h : Regular st.world.events) :
    Regular (runTool (toolWorld tools base depth policy) call name args st).2.world.events := by
  have hdelegated : Delegated (st.world.note (.executed .agent name args st.world.policy)) :=
    ⟨⟨hgate, h⟩, _, _, _, _, rfl⟩
  exact (keepsDelegated_executeTool depth name args _ hdelegated).1

/-- One round of the agent's loop keeps a log regular. -/
theorem regular_executeToolCall {depth : Nat} {call : ToolCall} {st : RunState (ToolState ω)}
    (h : Regular st.world.events) :
    Regular (executeToolCall (toolWorld tools base depth st.world.policy) call
      st).2.world.events := by
  rw [executeToolCall]
  dsimp only
  split
  · exact h
  next name _ =>
  split
  · -- The call is put to the user.
    split
    · next happroved =>
      refine regular_runTool (fun _ => ⟨_, of_decide_eq_true happroved, rfl⟩) ?_
      exact h
    · exact h
  · next hfree => exact regular_runTool (fun hneeds => absurd hneeds hfree) h

theorem regular_agentToolCalls (depth : Nat) (calls : List ToolCall)
    {st : RunState (ToolState ω)} (h : Regular st.world.events) :
    Regular (agentToolCalls tools base depth calls st).2.world.events := by
  induction calls generalizing st with
  | nil => exact h
  | cons call calls ih => exact ih (regular_executeToolCall h)

/-- In a run of tool calls, delegations inside of delegations among them, every execution of a tool
that needs approval has it just when the loops of the delegations execute no such tool. -/
theorem gated_iff (tools : ToolWorld ω) (base : World ω) (depth : Nat) (policy : SafetyConfig)
    (outer : ω) (agent : Agent) (rows : List SessionRow) (calls : List ToolCall) :
    Gated (toolEvents tools base depth policy outer agent rows calls) ↔
      ∀ e ∈ toolEvents tools base depth policy outer agent rows calls, e.Exempt :=
  gated_iff_of_regular (regular_agentToolCalls depth calls trivial)

end Agent

/-! ## A shell behind a delegation -/

/-- A world with a shell, a second agent that asks for it once, and a user who denies everything. -/
def shellTools : ToolWorld Bool where
  parse _ := some (.object [("task", .string "look")])
  registry name := if name = "delegate" then some .delegate else if name = "shell" then some .other
    else none
  delegateConfig := some 10
  openProvider asked := (true, asked)
  subChat _ asked :=
    (some (if asked then { content := some "done" }
      else { toolCalls := [{ name := some "shell", arguments := some "rm" }] }), true)
  approve _ _ asked := (.deny, asked)
  execute _ _ asked := (some {}, asked)

/-- The rest of that world. -/
def quietWorld : World Bool where
  cancelRequested _ := false
  clearCancel outer := outer
  cbIsAvailable outer := (true, outer)
  cbRecord _ outer := outer
  clock outer := (.zero, outer)
  newSession outer := (⟨"s", ""⟩, outer)
  systemPrompt outer := ("", outer)
  chat _ outer := (none, outer)
  chatStreaming _ outer := (none, outer)
  registered _ := false
  needsApproval _ := false
  approve _ _ outer := (false, outer)
  execute _ _ outer := (none, outer)
  strTrim s := s
  cutBytes _ s := s
  titleText s _ := s

/-- The second agent runs the shell, which the policy lets nobody run unasked. -/
theorem not_gated_delegatedShell :
    ¬∀ (tools : ToolWorld Bool) (base : World Bool) (depth : Nat) (policy : SafetyConfig)
      (outer : Bool) (agent : Agent) (rows : List SessionRow) (calls : List ToolCall),
        Gated (toolEvents tools base depth policy outer agent rows calls) := by
  intro hall
  let policy : SafetyConfig := { requireApprovalFor := ["shell"] }
  let agent : Agent := ⟨[], none, none, false, 1, 10, 1000, 0⟩
  have hgated := hall shellTools quietWorld 1 policy false agent [] [{ name := some "delegate" }]
  have hevents : toolEvents shellTools quietWorld 1 policy false agent []
      [{ name := some "delegate" }] =
        [.executed .delegate "shell" "rm" policy,
          .executed .agent "delegate" "\x7b\x7d" policy] := by
    decide
  rw [hevents] at hgated
  obtain ⟨answer, _, hasked⟩ := hgated.1 (by decide)
  exact absurd hasked (by simp)

end EchoAi
