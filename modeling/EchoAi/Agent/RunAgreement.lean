import EchoAi.Agent.ContextSelection
import EchoAi.Agent.Run

/-!
# The two runs

The buffered run and the streaming run do the same with an answer.  They differ in the call of the
language model: the buffered one sends the context window and goes on with it.

* `Grows`: a run only adds to its logs.
* `runLoop_eq_of_leaves`: the loops take the same steps as long as no window changes a conversation.
* `leaves_of_sent_eq`: from a window that does, the requests differ.
* `runsAgree_iff`: when the two runs agree.
-/

namespace EchoAi

section Run

variable {ω : Type} {codec : JsonCodec} {key : EncryptionKey} {q : Qsort} {world : World ω}

/-! ## Logs -/

/-- The logs of calls and requests are only added to. -/
structure Grows (st st' : RunState ω) : Prop where
  calls : st.calls <+: st'.calls
  sent : st.sent <+: st'.sent

theorem Grows.refl (st : RunState ω) : Grows st st := ⟨List.prefix_refl _, List.prefix_refl _⟩

theorem Grows.trans {st st' st'' : RunState ω} (h : Grows st st') (h' : Grows st' st'') :
    Grows st st'' := ⟨h.calls.trans h'.calls, h.sent.trans h'.sent⟩

theorem grows_recordAnswer (response : LLMResponse) (st : RunState ω) :
    Grows st (recordAnswer codec key world response st) := by
  rw [recordAnswer]
  split
  · exact Grows.refl st
  · exact ⟨List.prefix_refl _, List.prefix_refl _⟩

theorem grows_answerCalls (i : Nat) (response : LLMResponse) (st : RunState ω) :
    Grows st (answerCalls world i response st) := by
  obtain ⟨calls, answers, outer, executed, -, heq⟩ := answerCalls_eq world i response st
  rw [heq]
  exact ⟨List.prefix_refl _, List.prefix_refl _⟩

theorem grows_runSaveSession (st : RunState ω) : Grows st (runSaveSession codec key world st) :=
  ⟨List.prefix_refl _, List.prefix_refl _⟩

theorem grows_agentGenerateTitle (st : RunState ω) :
    Grows st (agentGenerateTitle codec key world st) := by
  obtain ⟨outer, rows, sent, heq⟩ := agentGenerateTitle_eq codec key world st
  rw [heq]
  exact ⟨List.prefix_refl _, List.prefix_append _ _⟩

theorem grows_consume (response : LLMResponse) (st : RunState ω) :
    Grows st (consume codec key world response st).2 := by
  have hrecorded : Grows st (recordAnswer codec key world response st) :=
    grows_recordAnswer response st
  rw [consume]
  split
  · exact hrecorded.trans ((grows_answerCalls _ response _).trans (grows_runSaveSession _))
  · exact hrecorded.trans ((grows_runSaveSession _).trans (grows_agentGenerateTitle _))

theorem grows_streamingLlmCall (st : RunState ω) : Grows st (streamingLlmCall world st).2 := by
  unfold streamingLlmCall
  dsimp only
  split
  · exact ⟨List.prefix_append _ _, List.prefix_append _ _⟩
  · exact ⟨List.prefix_refl _, List.prefix_refl _⟩

theorem grows_agentLlmCall {st : RunState ω} {out : Option LLMResponse × RunState ω}
    (h : agentLlmCall q world st = some out) : Grows st out.2 := by
  unfold agentLlmCall at h
  dsimp only at h
  split at h
  · split at h
    · exact absurd h (by simp)
    · next window _ =>
      obtain ⟨outer, contextSummary, sent, heq⟩ := adoptWindow_eq world window
        (noteCall (injectSystemWithSummary world
          { st with world := (world.cbIsAvailable st.world).2 }))
      rw [heq] at h
      refine Option.some.inj h ▸ ⟨List.prefix_append _ _, ?_⟩
      exact (List.prefix_append _ _).trans (List.prefix_append _ _)
  · exact Option.some.inj h ▸ ⟨List.prefix_refl _, List.prefix_refl _⟩

theorem grows_runLoop {call : RunState ω → Option (Option LLMResponse × RunState ω)}
    (hcall : ∀ st out, call st = some out → Grows st out.2) {n : Nat} {st st' : RunState ω}
    {answer : Option LLMResponse} (hrun : runLoop codec key world call n st = some (answer, st')) :
    Grows st st' :=
  runLoop_rule (Grows st) (Grows st) (fun _ h => h) (fun _ _ h hnone => h.trans (hcall _ _ hnone))
    (fun _ response _ h hsome => (h.trans (hcall _ _ hsome)).trans (grows_consume response _))
    (Grows.refl st) hrun

/-! ## One call -/

/-- The window leaves the agent's conversation as it is. -/
def LeavesConversation (q : Qsort) (agent : Agent) : Prop :=
  cutConversation q agent = some agent.messages

/-- Without a closed circuit the calls of both loops do nothing. -/
theorem llmCall_of_not_available {st : RunState ω} (h : (world.cbIsAvailable st.world).1 = false) :
    agentLlmCall q world st = some (streamingLlmCall world st) := by
  unfold agentLlmCall streamingLlmCall
  dsimp only
  rw [h, if_neg Bool.false_ne_true, if_neg Bool.false_ne_true]

/-- Both loops send the same conversation when the window leaves it as it is. -/
theorem llmCall_of_leaves {st : RunState ω}
    (hchat : ∀ request outer, world.chat request outer = world.chatStreaming request outer)
    (h : LeavesConversation q (agentAtCall world st)) :
    agentLlmCall q world st = some (streamingLlmCall world st) := by
  have hsame : world.chat = world.chatStreaming := funext fun request => funext (hchat request)
  unfold agentLlmCall streamingLlmCall
  dsimp only
  split
  · have hcut : cutConversation q (noteCall (injectSystemWithSummary world
        { st with world := (world.cbIsAvailable st.world).2 })).agent = some _ := h
    rw [hcut]
    dsimp only
    rw [hsame]
    exact congrArg (fun st => some (sendMessages world world.chatStreaming st))
      (adoptWindow_self world (noteCall (injectSystemWithSummary world
        { st with world := (world.cbIsAvailable st.world).2 })))
  · rfl

/-- The streaming call notes the agent and sends its conversation. -/
theorem streamingLlmCall_logs {st : RunState ω} (h : (world.cbIsAvailable st.world).1 = true) :
    (streamingLlmCall world st).2.calls = st.calls ++ [agentAtCall world st] ∧
      (streamingLlmCall world st).2.sent =
        st.sent ++ [{ messages := (agentAtCall world st).messages, tools := true }] := by
  unfold streamingLlmCall
  dsimp only
  rw [h, if_pos rfl]
  exact ⟨rfl, rfl⟩

/-- The buffered call sends something else when the window changes the conversation. -/
theorem agentLlmCall_sent {st : RunState ω} {out : Option LLMResponse × RunState ω}
    (havailable : (world.cbIsAvailable st.world).1 = true)
    (hcut : ¬ LeavesConversation q (agentAtCall world st))
    (h : agentLlmCall q world st = some out) : ∃ request rest,
      out.2.sent = st.sent ++ request :: rest ∧
        request ≠ { messages := (agentAtCall world st).messages, tools := true } := by
  unfold agentLlmCall at h
  dsimp only at h
  rw [havailable, if_pos rfl] at h
  split at h
  · exact absurd h (by simp)
  · next window hwindow =>
    have hne : ({ messages := window, tools := true } : ChatRequest) ≠
        { messages := (agentAtCall world st).messages, tools := true } := by
      intro heq
      exact hcut (hwindow.trans (congrArg some (ChatRequest.mk.inj heq).1))
    rw [← Option.some.inj h]
    rcases sent_adoptWindow world window (noteCall (injectSystemWithSummary world
        { st with world := (world.cbIsAvailable st.world).2 })) with hsent | ⟨text, hsent⟩
    · refine ⟨{ messages := window, tools := true }, [], ?_, hne⟩
      rw [sendMessages, hsent]
      rfl
    · refine ⟨summaryRequest world text, [{ messages := window, tools := true }], ?_, fun heq => ?_⟩
      · rw [sendMessages, hsent, List.append_assoc]
        rfl
      · exact Bool.noConfusion (congrArg ChatRequest.tools heq)

/-! ## Runs -/

/-- What follows a call only adds to the logs. -/
theorem grows_continueRun {loop : RunState ω → Option (Option LLMResponse × RunState ω)}
    (hloop : ∀ st answer st', loop st = some (answer, st') → Grows st st')
    {out : Option LLMResponse × RunState ω} {answer : Option LLMResponse} {st' : RunState ω}
    (h : continueRun codec key world loop out = some (answer, st')) : Grows out.2 st' := by
  rcases continueRun_cases h with ⟨-, -, hst⟩ | ⟨response, -, ⟨-, -, hst⟩ | ⟨-, hrest⟩⟩
  · exact hst ▸ Grows.refl _
  · exact hst ▸ grows_consume response out.2
  · exact (grows_consume response out.2).trans (hloop _ _ _ hrest)

/-- Loops that agree on what follows have the same continuation. -/
theorem continueRun_eq {loop loop' : RunState ω → Option (Option LLMResponse × RunState ω)}
    {out : Option LLMResponse × RunState ω} {answer : Option LLMResponse} {st' : RunState ω}
    (h : continueRun codec key world loop out = some (answer, st'))
    (hloop : ∀ st, loop st = some (answer, st') → loop' st = some (answer, st')) :
    continueRun codec key world loop' out = some (answer, st') := by
  obtain ⟨response, st⟩ := out
  cases response with
  | none => exact h
  | some response =>
    rcases hconsume : consume codec key world response st with ⟨final, st₁⟩
    rw [continueRun, hconsume] at h ⊢
    cases final with
    | some final => exact h
    | none => exact hloop st₁ h

section Agreement

variable
  (hchat : ∀ request outer, world.chat request outer = world.chatStreaming request outer)

theorem grows_streamingLoop {n : Nat} {st st' : RunState ω} {answer : Option LLMResponse}
    (h : runLoop codec key world (fun st => some (streamingLlmCall world st)) n st =
      some (answer, st')) : Grows st st' :=
  grows_runLoop (fun st _ hout => Option.some.inj hout ▸ grows_streamingLlmCall st) h

theorem grows_bufferedLoop {n : Nat} {st st' : RunState ω} {answer : Option LLMResponse}
    (h : runLoop codec key world (agentLlmCall q world) n st = some (answer, st')) : Grows st st' :=
  grows_runLoop (fun _ _ hout => grows_agentLlmCall hout) h

include hchat

/-- As long as no window changes a conversation, both loops take the same steps. -/
theorem runLoop_eq_of_leaves {n : Nat} {st st' : RunState ω} {answer : Option LLMResponse}
    (hrun : runLoop codec key world (fun st => some (streamingLlmCall world st)) n st =
      some (answer, st')) (hleaves : ∀ agent ∈ st'.calls, LeavesConversation q agent) :
    runLoop codec key world (agentLlmCall q world) n st = some (answer, st') := by
  induction n generalizing st with
  | zero => exact hrun
  | succ n ih =>
    rw [runLoop] at hrun ⊢
    by_cases hcancel : world.cancelRequested st.world = true
    · rwa [if_pos hcancel] at hrun ⊢
    · rw [if_neg hcancel, Option.bind_some] at hrun
      have hgrows : Grows (streamingLlmCall world st).2 st' :=
        grows_continueRun (fun _ _ _ hloop => grows_streamingLoop hloop) hrun
      have hcall : agentLlmCall q world st = some (streamingLlmCall world st) := by
        cases havailable : (world.cbIsAvailable st.world).1 with
        | false => exact llmCall_of_not_available havailable
        | true =>
          refine llmCall_of_leaves hchat (hleaves _ (hgrows.calls.subset ?_))
          rw [(streamingLlmCall_logs havailable).1]
          exact List.mem_append_right _ (List.mem_singleton_self _)
      rw [if_neg hcancel, hcall, Option.bind_some]
      exact continueRun_eq hrun fun st₁ hloop => ih hloop

/-- Once a window changes a conversation, the requests of the two loops differ. -/
theorem leaves_of_sent_eq {n : Nat} {st st₁ st₂ : RunState ω} {answer₁ answer₂ : Option LLMResponse}
    (hbefore : ∀ agent ∈ st.calls, LeavesConversation q agent)
    (hbuffered : runLoop codec key world (agentLlmCall q world) n st = some (answer₁, st₁))
    (hstreaming : runLoop codec key world (fun st => some (streamingLlmCall world st)) n st =
      some (answer₂, st₂)) (hsent : st₁.sent = st₂.sent) :
    ∀ agent ∈ st₂.calls, LeavesConversation q agent := by
  induction n generalizing st with
  | zero =>
    rw [runLoop, Option.some_inj, Prod.mk.injEq] at hstreaming
    exact hstreaming.2 ▸ hbefore
  | succ n ih =>
    rw [runLoop] at hbuffered hstreaming
    by_cases hcancel : world.cancelRequested st.world = true
    · rw [if_pos hcancel, Option.some_inj, Prod.mk.injEq] at hstreaming
      exact hstreaming.2 ▸ hbefore
    · rw [if_neg hcancel] at hbuffered hstreaming
      rw [Option.bind_some] at hstreaming
      obtain ⟨out, hcall, hcontinue⟩ := Option.bind_eq_some_iff.mp hbuffered
      by_cases hsame : out = streamingLlmCall world st ∧
          ∀ agent ∈ out.2.calls, LeavesConversation q agent
      · -- The same call: the loops go on in the same state.
        obtain ⟨rfl, hcalls⟩ := hsame
        rcases continueRun_cases hstreaming with ⟨-, -, hst⟩ | ⟨response, hresponse, hrest⟩
        · exact hst ▸ hcalls
        · have hcalls' : ∀ agent ∈ (consume codec key world response
              (streamingLlmCall world st).2).2.calls, LeavesConversation q agent := by
            rw [(logs_consume codec key world response _).1]
            exact hcalls
          rcases hrest with ⟨-, -, hst⟩ | ⟨hnone, hloop⟩
          · exact hst ▸ hcalls'
          · rcases continueRun_cases hcontinue with ⟨hnil, -, -⟩ | ⟨response', hresponse', hrest'⟩
            · rw [hresponse] at hnil
              exact absurd hnil (by simp)
            · rw [hresponse, Option.some_inj] at hresponse'
              subst hresponse'
              rcases hrest' with ⟨hanswer, hsome, -⟩ | ⟨-, hloop'⟩
              · rw [hnone] at hanswer
                rw [← hanswer] at hsome
                exact Bool.noConfusion hsome
              · exact ih hcalls' hloop' hloop
      · -- Another call: the first request of it differs for good.
        exfalso
        have havailable : (world.cbIsAvailable st.world).1 = true := by
          by_contra hclosed
          rw [Bool.not_eq_true] at hclosed
          rw [llmCall_of_not_available hclosed, Option.some_inj] at hcall
          refine hsame ⟨hcall.symm, ?_⟩
          rw [← hcall]
          unfold streamingLlmCall
          dsimp only
          rw [hclosed, if_neg Bool.false_ne_true]
          exact hbefore
        have hlogs := streamingLlmCall_logs havailable
        have hcut : ¬ LeavesConversation q (agentAtCall world st) := by
          intro hleaves
          rw [llmCall_of_leaves hchat hleaves, Option.some_inj] at hcall
          refine hsame ⟨hcall.symm, ?_⟩
          rw [← hcall, hlogs.1]
          intro agent hagent
          rcases List.mem_append.mp hagent with hagent | hagent
          · exact hbefore agent hagent
          · rw [List.mem_singleton.mp hagent]
            exact hleaves
        obtain ⟨request, rest, hother, hne⟩ := agentLlmCall_sent havailable hcut hcall
        have hgrows₁ : Grows out.2 st₁ :=
          grows_continueRun (fun _ _ _ hloop => grows_bufferedLoop hloop) hcontinue
        have hgrows₂ : Grows (streamingLlmCall world st).2 st₂ :=
          grows_continueRun (fun _ _ _ hloop => grows_streamingLoop hloop) hstreaming
        obtain ⟨rest₁, hrest₁⟩ := hgrows₁.sent
        obtain ⟨rest₂, hrest₂⟩ := hgrows₂.sent
        rw [← hrest₁, ← hrest₂, hother, hlogs.2, List.append_assoc, List.append_assoc,
          List.append_cancel_left_eq, List.cons_append, List.singleton_append] at hsent
        exact hne (List.cons.inj hsent).1

end Agreement

/-! ## Agreement -/

variable (codec key world) in
/-- A streaming run always comes to an end. -/
theorem isSome_streamingLoop (n : Nat) (st : RunState ω) :
    (runLoop codec key world (fun st => some (streamingLlmCall world st)) n st).isSome = true := by
  induction n generalizing st with
  | zero => rfl
  | succ n ih =>
    rw [runLoop]
    split
    · rfl
    · rw [Option.bind_some]
      rcases streamingLlmCall world st with ⟨response, st₁⟩
      cases response with
      | none => rfl
      | some response =>
        rcases hconsume : consume codec key world response st₁ with ⟨answer, st₂⟩
        rw [continueRun, hconsume]
        cases answer with
        | none => exact ih st₂
        | some answer => rfl

/-- Two runs agree: on the result, on the requests in their order, on the tool calls that are executed,
on the messages of the agent and on the stored sessions. -/
def RunsAgree (buffered streaming : Option (Option LLMResponse × RunState ω)) : Prop :=
  ∃ answer st st', buffered = some (answer, st) ∧ streaming = some (answer, st') ∧
    st.sent = st'.sent ∧ st.executed = st'.executed ∧
      st.agent.messages = st'.agent.messages ∧ st.rows = st'.rows

/-- At every call of a run, the window leaves the conversation as it is. -/
def LeavesConversations (q : Qsort) (out : Option (Option LLMResponse × RunState ω)) : Prop :=
  ∀ answer st, out = some (answer, st) → ∀ agent ∈ st.calls, LeavesConversation q agent

/-- **The buffered and the streaming run agree** exactly when the window leaves the conversation as it
is at every call. -/
theorem runsAgree_iff (codec : JsonCodec) (key : EncryptionKey) (q : Qsort) (world : World ω)
    (hchat : ∀ request outer, world.chat request outer = world.chatStreaming request outer)
    (input : String) (outer : ω) (agent : Agent) (rows : List SessionRow) :
    RunsAgree (agentRunNew codec key q world input (RunState.fresh outer agent rows))
        (agentRunStreamingNew codec key world input (RunState.fresh outer agent rows)) ↔
      LeavesConversations q
        (agentRunStreamingNew codec key world input (RunState.fresh outer agent rows)) := by
  obtain ⟨⟨answer, st⟩, hstreaming⟩ := Option.isSome_iff_exists.mp
    (isSome_streamingLoop codec key world
      (startRun codec key world input (RunState.fresh outer agent rows)).agent.maxIterations
      (startRun codec key world input (RunState.fresh outer agent rows)))
  have hrun : agentRunStreamingNew codec key world input (RunState.fresh outer agent rows) =
      some (answer, st) := hstreaming
  rw [hrun]
  constructor
  · rintro ⟨answer', st₁, st₂, hbuffered, hst, hsent, -, -, -⟩ answer'' st₃ hst'
    obtain ⟨rfl, rfl⟩ := Prod.mk.inj (Option.some.inj hst)
    obtain ⟨rfl, rfl⟩ := Prod.mk.inj (Option.some.inj hst')
    exact leaves_of_sent_eq hchat (fun agent hagent => absurd hagent List.not_mem_nil) hbuffered
      hstreaming hsent
  · intro hleaves
    exact ⟨answer, st, st, runLoop_eq_of_leaves hchat hstreaming (hleaves answer st rfl), rfl,
      rfl, rfl, rfl, rfl⟩

end Run

/-! ## An example -/

/-- An agent with a window that is wide enough. -/
def wideAgent : Agent := { attachedAgent [] with maxContextMessages := 4, maxContextChars := 100 }

/-- In a short conversation the runs agree. -/
theorem runsAgree_hello :
    RunsAgree
      (agentRunNew textCodec helloKey insertionQsort scriptWorld "hello"
        (RunState.fresh [{ content := some "hi" }] wideAgent []))
      (agentRunStreamingNew textCodec helloKey scriptWorld "hello"
        (RunState.fresh [{ content := some "hi" }] wideAgent [])) := by
  refine (runsAgree_iff textCodec helloKey insertionQsort scriptWorld (fun _ _ => rfl) "hello"
    [{ content := some "hi" }] wideAgent []).mpr fun answer st hrun agent hagent => ?_
  have hall : (agentRunStreamingNew textCodec helloKey scriptWorld "hello"
      (RunState.fresh [{ content := some "hi" }] wideAgent [])).all (fun out =>
        out.2.calls.all fun agent => cutConversation insertionQsort agent == some agent.messages) =
      true := by
    decide +kernel
  rw [hrun, Option.all_some, List.all_eq_true] at hall
  exact eq_of_beq (hall agent hagent)

/-- With a window of one message, the buffered run sends the system prompt without the question. -/
theorem not_runsAgree_narrowWindow :
    ¬ ∀ (codec : JsonCodec) (key : EncryptionKey) (q : Qsort) (world : World (List LLMResponse)),
        (∀ request outer, world.chat request outer = world.chatStreaming request outer) →
        ∀ (input : String) (outer : List LLMResponse) (agent : Agent) (rows : List SessionRow),
          RunsAgree (agentRunNew codec key q world input (RunState.fresh outer agent rows))
            (agentRunStreamingNew codec key world input (RunState.fresh outer agent rows)) := by
  intro h
  obtain ⟨answer, st, st', hbuffered, hstreaming, -, -, hmessages, -⟩ :=
    h textCodec helloKey insertionQsort scriptWorld (fun _ _ => rfl) "hello"
      [{ content := some "hi" }, { content := some "hi" }] (attachedAgent []) []
  have hcut : (agentRunNew textCodec helloKey insertionQsort scriptWorld "hello"
      (RunState.fresh [{ content := some "hi" }, { content := some "hi" }] (attachedAgent [])
        [])).map (fun out => out.2.agent.messages.length) = some 2 := by
    decide +kernel
  have hwhole : (agentRunStreamingNew textCodec helloKey scriptWorld "hello"
      (RunState.fresh [{ content := some "hi" }, { content := some "hi" }] (attachedAgent [])
        [])).map (fun out => out.2.agent.messages.length) = some 3 := by
    decide +kernel
  rw [hbuffered, Option.map_some, hmessages] at hcut
  rw [hstreaming, Option.map_some, hcut] at hwhole
  exact absurd hwhole (by decide)

end EchoAi
