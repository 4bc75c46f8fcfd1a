import EchoAi.Agent.Run

/-!
# Tool results answer recorded calls

The requests that follow a tool call need the call next to its results: an assistant message with the
calls, then one tool message for each of them.

* `Answered`: a list of messages that consists of such blocks and of other messages.
* `hidesCalls`: an answer whose calls are executed but attached to no message, since it has no content.
* `toolsAnswered_iff`: what a run appends is answered exactly when no answer hides calls.
-/

namespace EchoAi

/-! ## Answered calls -/

/-- Every tool message stands behind the assistant message that made its call, and every call of such a
message has one tool message, in the order of the calls. -/
inductive Answered : List Message → Prop where
  | nil : Answered []
  | other {m : Message} {ms : List Message} (hrole : m.role ≠ some "tool") (hcalls : m.toolCalls = [])
      (h : Answered ms) : Answered (m :: ms)
  | called {m : Message} {answers ms : List Message} (hrole : m.role = some "assistant")
      (hanswers : AnswersInOrder m.toolCalls answers) (h : Answered ms) :
      Answered (m :: (answers ++ ms))

theorem AnswersInOrder.length_eq {calls : List ToolCall} {answers : List Message}
    (h : AnswersInOrder calls answers) : answers.length = calls.length := by
  have hlength := congrArg List.length h
  rwa [List.length_map, List.length_map] at hlength

theorem AnswersInOrder.eq_nil {answers : List Message} (h : AnswersInOrder [] answers) :
    answers = [] :=
  List.eq_nil_of_length_eq_zero h.length_eq

theorem AnswersInOrder.role {calls : List ToolCall} {m : Message} {answers : List Message}
    (h : AnswersInOrder calls (m :: answers)) : m.role = some "tool" := by
  cases calls with
  | nil => exact absurd h.eq_nil (by simp)
  | cons c calls =>
    rw [AnswersInOrder, List.map_cons, List.map_cons, List.cons.injEq, Prod.mk.injEq] at h
    exact h.1.1

theorem Answered.append {ms ms' : List Message} (h : Answered ms) (h' : Answered ms') :
    Answered (ms ++ ms') := by
  induction h with
  | nil => exact h'
  | other hrole hcalls _ ih => exact Answered.other hrole hcalls ih
  | called hrole hanswers _ ih =>
    rw [List.cons_append, List.append_assoc]
    exact Answered.called hrole hanswers ih

/-- An answered list starts with a message and the answers to its calls. -/
theorem Answered.cons_inv {m : Message} {ms : List Message} (h : Answered (m :: ms)) :
    ∃ answers rest, ms = answers ++ rest ∧ AnswersInOrder m.toolCalls answers ∧ Answered rest := by
  generalize hms : m :: ms = l at h
  cases h with
  | nil => exact absurd hms (by simp)
  | other hrole hcalls hrest =>
    obtain ⟨rfl, rfl⟩ := List.cons.inj hms
    refine ⟨[], ms, rfl, ?_, hrest⟩
    rw [hcalls]
    rfl
  | called hrole hanswers hrest =>
    obtain ⟨rfl, rfl⟩ := List.cons.inj hms
    exact ⟨_, _, rfl, hanswers, hrest⟩

/-- The answers to the calls of the first message are determined. -/
theorem Answered.drop_answers {m : Message} {answers ms : List Message}
    (h : Answered (m :: (answers ++ ms))) (hanswers : AnswersInOrder m.toolCalls answers) :
    Answered ms := by
  obtain ⟨answers', rest, heq, hanswers', hrest⟩ := h.cons_inv
  have hlength : answers.length = answers'.length :=
    hanswers.length_eq.trans hanswers'.length_eq.symm
  rw [(List.append_inj heq hlength).2]
  exact hrest

/-- What follows answered messages in an answered list is answered. -/
theorem Answered.of_append {ms ms' : List Message} (h : Answered ms) (h' : Answered (ms ++ ms')) :
    Answered ms' := by
  induction h with
  | nil => exact h'
  | @other m ms hrole hcalls _ ih =>
    have hnone : AnswersInOrder m.toolCalls [] := by
      rw [hcalls]
      rfl
    have hrest : Answered (m :: ([] ++ (ms ++ ms'))) := h'
    exact ih (hrest.drop_answers hnone)
  | called hrole hanswers _ ih =>
    rw [List.cons_append, List.append_assoc] at h'
    exact ih (h'.drop_answers hanswers)

theorem Answered.not_tool {m : Message} {ms : List Message} (h : Answered (m :: ms)) :
    m.role ≠ some "tool" := by
  cases h with
  | other hrole _ _ => exact hrole
  | called hrole _ _ =>
    rw [hrole]
    decide

/-- A list that comes to a tool message without its call. -/
def ReachesUncalled (l : List Message) : Prop :=
  ∃ ms m ms', l = ms ++ m :: ms' ∧ Answered ms ∧ m.role = some "tool"

theorem ReachesUncalled.append {l : List Message} (h : ReachesUncalled l) (l' : List Message) :
    ReachesUncalled (l ++ l') := by
  obtain ⟨ms, m, ms', rfl, hms, hrole⟩ := h
  exact ⟨ms, m, ms' ++ l', by rw [List.append_assoc, List.cons_append], hms, hrole⟩

/-- Such a list is not answered, whatever follows. -/
theorem ReachesUncalled.not_answered {l : List Message} (h : ReachesUncalled l) : ¬ Answered l := by
  obtain ⟨ms, m, ms', rfl, hms, hrole⟩ := h
  exact fun hanswered => (hms.of_append hanswered).not_tool hrole

/-! ## Runs -/

section Run

variable {ω : Type} {codec : JsonCodec} {key : EncryptionKey} {q : Qsort} {world : World ω}

/-- The answer has no content but a named call: its calls are executed and attached to no message. -/
def hidesCalls (response : LLMResponse) : Bool :=
  response.content.isNone && toolCallsRemaining response.toolCalls

/-- What a run has appended is answered, or it comes to a tool result without its call because an
answer hid its calls. -/
def AnsweredUnlessHidden (st : RunState ω) : Prop :=
  (∀ response ∈ st.responses, hidesCalls response = false) ∧ Answered st.appended ∨
    (∃ response ∈ st.responses, hidesCalls response = true) ∧ ReachesUncalled st.appended

theorem AnsweredUnlessHidden.answered_iff {st : RunState ω} (h : AnsweredUnlessHidden st) :
    Answered st.appended ↔ ∀ response ∈ st.responses, hidesCalls response = false := by
  rcases h with ⟨hnone, hanswered⟩ | ⟨⟨response, hmem, hhides⟩, huncalled⟩
  · exact iff_of_true hanswered hnone
  · refine iff_of_false huncalled.not_answered fun hnone => ?_
    rw [hnone response hmem] at hhides
    exact Bool.noConfusion hhides

/-- An answer that hides no calls appends answered messages, and one that does comes to a tool message
without its call. -/
theorem AnsweredUnlessHidden.append {st st' : RunState ω} (h : AnsweredUnlessHidden st)
    {response : LLMResponse} {block : List Message}
    (hresponses : st'.responses = st.responses ++ [response])
    (happended : st'.appended = st.appended ++ block)
    (hanswered : hidesCalls response = false → Answered block)
    (huncalled : hidesCalls response = true → ∃ m ms, block = m :: ms ∧ m.role = some "tool") :
    AnsweredUnlessHidden st' := by
  unfold AnsweredUnlessHidden
  rw [hresponses, happended]
  rcases h with ⟨hnone, hbefore⟩ | ⟨⟨r, hmem, hr⟩, hbefore⟩
  · cases hhides : hidesCalls response with
    | false =>
      refine Or.inl ⟨fun r hr => ?_, hbefore.append (hanswered hhides)⟩
      rcases List.mem_append.mp hr with hr | hr
      · exact hnone r hr
      · rw [List.mem_singleton.mp hr]
        exact hhides
    | true =>
      obtain ⟨m, ms, rfl, hrole⟩ := huncalled hhides
      exact Or.inr ⟨⟨response, List.mem_append_right _ (List.mem_singleton_self _), hhides⟩,
        st.appended, m, ms, rfl, hbefore, hrole⟩
  · exact Or.inr ⟨⟨r, List.mem_append_left _ hmem, hr⟩, hbefore.append block⟩

/-- The calls that an answer executes. -/
def executedCalls (response : LLMResponse) : List ToolCall :=
  if toolCallsRemaining response.toolCalls then response.toolCalls else []

theorem executedCalls_ne_nil {response : LLMResponse}
    (h : toolCallsRemaining response.toolCalls = true) : executedCalls response ≠ [] := by
  rw [executedCalls, if_pos h]
  intro hnil
  rw [hnil] at h
  exact Bool.noConfusion h

/-- What an answer appends before its tool calls: an assistant message when it has content, which holds
the calls that are executed. -/
theorem recordAnswer_appended (response : LLMResponse) (st : RunState ω) : ∃ head,
    (recordAnswer codec key world response st).appended = st.appended ++ head ∧
      (response.content.isNone = true → head = []) ∧
      (response.content.isNone = false → ∃ m, head = [m] ∧ m.role = some "assistant" ∧
        m.toolCalls = executedCalls response) := by
  rw [recordAnswer]
  cases hcontent : response.content with
  | none => exact ⟨[], (List.append_nil _).symm, fun _ => rfl, fun h => Bool.noConfusion h⟩
  | some content =>
    obtain ⟨m, outer, hrole, hcalls, heq⟩ := appendAssistant_eq world response content st
    refine ⟨[m], ?_, fun h => Bool.noConfusion h, fun _ => ⟨m, rfl, hrole, hcalls⟩⟩
    dsimp only
    rw [appended_runSaveSession, heq]
    rfl

/-- What an answer appends for its tool calls: one message for each of them that is executed. -/
theorem consume_appended (response : LLMResponse) (st : RunState ω) : ∃ answers,
    AnswersInOrder (executedCalls response) answers ∧
      (consume codec key world response st).2.appended =
        (recordAnswer codec key world response st).appended ++ answers := by
  rw [consume, executedCalls]
  cases hremaining : toolCallsRemaining response.toolCalls with
  | false =>
    refine ⟨[], rfl, ?_⟩
    rw [if_neg Bool.false_ne_true, List.append_nil, appended_agentGenerateTitle,
      appended_runSaveSession]
  | true =>
    obtain ⟨calls, answers, outer, executed, hanswers, heq⟩ := answerCalls_eq world
      st.agent.messages.length response (recordAnswer codec key world response st)
    refine ⟨answers, hanswers, ?_⟩
    rw [if_pos rfl, appended_runSaveSession, heq]

/-- The step of a run. -/
theorem AnsweredUnlessHidden.consume {st st' : RunState ω} (h : AnsweredUnlessHidden st)
    {response : LLMResponse} (hlogs : LogsAnswer st (some response, st')) :
    AnsweredUnlessHidden (consume codec key world response st').2 := by
  obtain ⟨head, hhead, hnone, hsome⟩ :
      ∃ head, (recordAnswer codec key world response st').appended = _ ∧ _ :=
    recordAnswer_appended response st'
  obtain ⟨answers, hanswers, happended⟩ : ∃ answers,
      AnswersInOrder (executedCalls response) answers ∧
        (EchoAi.consume codec key world response st').2.appended = _ :=
    consume_appended response st'
  have hresponses : (EchoAi.consume codec key world response st').2.responses =
      st.responses ++ [response] :=
    (logs_consume codec key world response st').2.trans hlogs.2
  rw [hhead, hlogs.1, List.append_assoc] at happended
  refine h.append hresponses happended (fun hhides => ?_) fun hhides => ?_
  · rw [hidesCalls, Bool.and_eq_false_iff] at hhides
    cases hcontent : response.content.isNone with
    | true =>
      have hremaining := hhides.resolve_left (by rw [hcontent]; decide)
      rw [executedCalls, hremaining, if_neg Bool.false_ne_true] at hanswers
      rw [hnone hcontent, hanswers.eq_nil]
      exact Answered.nil
    | false =>
      obtain ⟨m, rfl, hrole, hcalls⟩ := hsome hcontent
      rw [← hcalls] at hanswers
      have hblock := Answered.called hrole hanswers Answered.nil
      rwa [List.append_nil] at hblock
  · rw [hidesCalls, Bool.and_eq_true] at hhides
    rw [hnone hhides.1, List.nil_append]
    cases answers with
    | nil =>
      have hlength := hanswers.length_eq
      rw [List.length_nil, eq_comm, List.length_eq_zero_iff] at hlength
      exact absurd hlength (executedCalls_ne_nil hhides.2)
    | cons m ms => exact ⟨m, ms, rfl, hanswers.role⟩

/-- A run keeps it up. -/
theorem AnsweredUnlessHidden.runLoop
    {call : RunState ω → Option (Option LLMResponse × RunState ω)}
    (hcall : ∀ st out, call st = some out → LogsAnswer st out) {n : Nat} {st st' : RunState ω}
    {answer : Option LLMResponse} (h : AnsweredUnlessHidden st)
    (hrun : runLoop codec key world call n st = some (answer, st')) : AnsweredUnlessHidden st' := by
  refine runLoop_rule AnsweredUnlessHidden AnsweredUnlessHidden (fun _ hst => hst)
    (fun st st₁ hst hnone => ?_) (fun st response st₁ hst hsome => hst.consume (hcall st _ hsome)) h hrun
  obtain ⟨happended, hresponses⟩ := hcall st _ hnone
  unfold AnsweredUnlessHidden
  rw [happended, hresponses, Option.toList_none, List.append_nil]
  exact hst

variable (codec key world) in
theorem answeredUnlessHidden_startRun (input : String) (outer : ω) (agent : Agent)
    (rows : List SessionRow) :
    AnsweredUnlessHidden (startRun codec key world input (RunState.fresh outer agent rows)) := by
  refine Or.inl ⟨fun response hmem => ?_, ?_⟩
  · exact absurd hmem List.not_mem_nil
  · rw [startRun]
    dsimp only
    rw [appended_runSaveSession]
    refine Answered.other (fun hrole => ?_) rfl Answered.nil
    exact absurd (Option.some.inj hrole) (by decide)

/-! ## What a run appends -/

/-- A run ends, and what it has appended is answered. -/
def ToolsAnswered (out : Option (Option LLMResponse × RunState ω)) : Prop :=
  ∃ answer st, out = some (answer, st) ∧ Answered st.appended

/-- A run ends, and none of the answers that it got hides calls. -/
def NoCallsHidden (out : Option (Option LLMResponse × RunState ω)) : Prop :=
  ∃ answer st, out = some (answer, st) ∧ ∀ response ∈ st.responses, hidesCalls response = false

theorem toolsAnswered_iff_of {out : Option (Option LLMResponse × RunState ω)}
    (h : ∀ answer st, out = some (answer, st) → AnsweredUnlessHidden st) :
    ToolsAnswered out ↔ NoCallsHidden out :=
  exists_congr fun answer => exists_congr fun st => and_congr_right fun hout =>
    (h answer st hout).answered_iff

/-- **The tool results of a run answer recorded calls** exactly when no answer hides calls. -/
theorem toolsAnswered_iff (codec : JsonCodec) (key : EncryptionKey) (q : Qsort) (world : World ω)
    (input : String) (outer : ω) (agent : Agent) (rows : List SessionRow) :
    (ToolsAnswered (agentRunNew codec key q world input (RunState.fresh outer agent rows)) ↔
      NoCallsHidden (agentRunNew codec key q world input (RunState.fresh outer agent rows))) ∧
    (ToolsAnswered (agentRunStreamingNew codec key world input (RunState.fresh outer agent rows)) ↔
      NoCallsHidden
        (agentRunStreamingNew codec key world input (RunState.fresh outer agent rows))) := by
  have hstart := answeredUnlessHidden_startRun codec key world input outer agent rows
  constructor
  · refine toolsAnswered_iff_of fun answer st hrun => ?_
    exact hstart.runLoop (fun st out h => logsAnswer_agentLlmCall q world h) hrun
  · refine toolsAnswered_iff_of fun answer st hrun => ?_
    refine hstart.runLoop (fun st out h => ?_) hrun
    exact Option.some.inj h ▸ logsAnswer_streamingLlmCall world st

end Run

/-! ## An example -/

/-- An answer without content that calls a tool. -/
def hiddenCall : LLMResponse := { toolCalls := [{ id := some "call_1", name := some "shell" }] }

/-- The result of a tool call in an answer without content has no call to answer. -/
theorem not_toolsAnswered_hiddenCall :
    ¬ ∀ (codec : JsonCodec) (key : EncryptionKey) (world : World (List LLMResponse))
        (input : String) (outer : List LLMResponse) (agent : Agent) (rows : List SessionRow),
        ToolsAnswered
          (agentRunStreamingNew codec key world input (RunState.fresh outer agent rows)) := by
  intro h
  obtain ⟨answer, st, hrun, hanswered⟩ :=
    h textCodec helloKey scriptWorld "list the files" [hiddenCall] (attachedAgent []) []
  have hlog : (agentRunStreamingNew textCodec helloKey scriptWorld "list the files"
      (RunState.fresh [hiddenCall] (attachedAgent []) [])).map (fun out =>
        out.2.appended.map fun m => (m.role, m.toolCalls)) =
      some [(some "user", []), (some "tool", [])] := by
    decide +kernel
  rw [hrun, Option.map_some, Option.some_inj] at hlog
  obtain ⟨question, rest, hst, hquestion, hrest⟩ := List.map_eq_cons_iff.mp hlog
  obtain ⟨result, rest, rfl, hresult, -⟩ := List.map_eq_cons_iff.mp hrest
  have hbefore : Answered [question] := by
    refine Answered.other (fun hrole => ?_) (Prod.mk.inj hquestion).2 Answered.nil
    rw [(Prod.mk.inj hquestion).1] at hrole
    exact absurd hrole (by decide)
  have huncalled : ReachesUncalled st.appended :=
    ⟨[question], result, rest, hst, hbefore, (Prod.mk.inj hresult).1⟩
  exact huncalled.not_answered hanswered

end EchoAi
