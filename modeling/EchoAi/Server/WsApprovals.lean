import EchoAi.Server.WsMoves

/-!
# Approvals

A tool that needs an approval asks the client and waits.  All waits of a connection share one pending
id and one result, and a frame that is handled inside a wait may start a run whose tool asks again.

* `Approved`: an approval that is returned was given, after its own request.
* `OwnAnswer`: a wait that returns an approval is the one that has asked last.
* `approved_of_runs`: runs in which every wait returns under this condition keep the law.
-/

namespace EchoAi

namespace WsLoop

/-- An answer to a request stands in the log behind the request. -/
def AnsweredAfter (request : String) (log : List WsNote) : Prop :=
  ∃ before after, log = before ++ WsNote.requested request :: after ∧
    WsNote.answered request true ∈ after

/-- The law of approvals: what `ws_approval_cb` returns as approved was approved by the client, with
the id of the request and after the request. -/
def Approved (past : List WsNote) (entry : WsNote) : Prop :=
  ∀ request, entry = .returned request true → AnsweredAfter request past

/-- The request whose wait returns. -/
def wokenRequest (st : WsLoop) : LoopEvent → Option String
  | .wake _ =>
    match st.stack with
    | .approval request _ :: _ => some request
    | _ => none
  | _ => none

/-- A wait that returns an approval is the one that has asked last. -/
def OwnAnswer (st : WsLoop) (event : LoopEvent) : Prop :=
  (st.wokenRequest event).isSome = true → st.approvalResult = true →
    st.pendingRequestId = st.wokenRequest event

instance (st : WsLoop) (event : LoopEvent) : Decidable (OwnAnswer st event) :=
  inferInstanceAs (Decidable (_ → _ → _))

/-- What the pending id and the result stand for. -/
structure Granted (c : LoopCore) : Prop where
  pending : ∀ request, c.pendingRequestId = some request → WsNote.requested request ∈ c.log
  granted : c.approvalResult = true →
    ∃ request, c.pendingRequestId = some request ∧ AnsweredAfter request c.log

/-- The invariant: the law so far, and what the flags stand for. -/
def Approving (c : LoopCore) : Prop := Lawful Approved c.log ∧ Granted c

theorem AnsweredAfter.append {request : String} {log : List WsNote}
    (h : AnsweredAfter request log) (more : List WsNote) : AnsweredAfter request (log ++ more) := by
  obtain ⟨before, after, rfl, hanswer⟩ := h
  refine ⟨before, after ++ more, by rw [List.append_assoc, List.cons_append], ?_⟩
  exact List.mem_append_left more hanswer

theorem answeredAfter_concat {request : String} {log : List WsNote}
    (h : WsNote.requested request ∈ log) :
    AnsweredAfter request (log ++ [WsNote.answered request true]) := by
  obtain ⟨before, after, rfl⟩ := List.append_of_mem h
  refine ⟨before, after ++ [WsNote.answered request true], ?_, ?_⟩
  · rw [List.append_assoc, List.cons_append]
  · exact List.mem_append_right after (List.mem_singleton_self _)

variable {c d : LoopCore}

/-- The log grows, the pending id stays, and the result stays or is cleared. -/
theorem Granted.grow (h : Granted c) {more : List WsNote} (hlog : d.log = c.log ++ more)
    (hpending : d.pendingRequestId = c.pendingRequestId)
    (hresult : d.approvalResult = c.approvalResult ∨ d.approvalResult = false) : Granted d := by
  constructor
  · intro request hrequest
    rw [hlog]
    exact List.mem_append_left more (h.pending request (hpending ▸ hrequest))
  · intro hd
    obtain hsame | hclear := hresult
    · obtain ⟨request, hrequest, hanswer⟩ := h.granted (hsame ▸ hd)
      exact ⟨request, hpending.trans hrequest, hlog ▸ hanswer.append more⟩
    · rw [hd] at hclear
      exact absurd hclear (by simp)

/-- The log grows by entries that are no returns. -/
theorem Approving.grow (h : Approving c) {more : List WsNote} (hlog : d.log = c.log ++ more)
    (hquiet : ∀ entry ∈ more, ∀ request, entry ≠ .returned request true)
    (hpending : d.pendingRequestId = c.pendingRequestId)
    (hresult : d.approvalResult = c.approvalResult ∨ d.approvalResult = false) : Approving d := by
  refine ⟨?_, h.2.grow hlog hpending hresult⟩
  rw [hlog]
  exact h.1.append fun entry hentry past request heq => absurd heq (hquiet entry hentry request)

/-- Neither the log nor the flags change. -/
theorem Approving.of_eq (h : Approving c) (hlog : d.log = c.log)
    (hpending : d.pendingRequestId = c.pendingRequestId)
    (hresult : d.approvalResult = c.approvalResult) : Approving d :=
  h.grow (hlog.trans (List.append_nil c.log).symm) (by simp) hpending (Or.inl hresult)

theorem Approving.startRun (h : Approving c) (n : Nat) (counted : Bool) :
    Approving (c.startRun n counted) :=
  h.grow rfl (by simp) rfl (Or.inl rfl)

theorem Approving.agentCancel (h : Approving c) : Approving c.agentCancel :=
  h.grow rfl (by simp) rfl (Or.inl rfl)

theorem Approving.free (h : Approving c) (calls : List Nat) : Approving (c.free calls) :=
  h.grow rfl (by simp) rfl (Or.inl rfl)

theorem Approving.endRun (h : Approving c) (run : Nat) (counted : Bool) (below : List Activation) :
    Approving (c.endRun run counted below) := by
  refine h.grow (c.log_endRun run counted below) ?_ ?_ (Or.inl ?_)
  · intro entry hentry request
    rw [List.mem_cons] at hentry
    obtain rfl | hentry := hentry
    · simp
    · split at hentry
      · obtain rfl := List.mem_singleton.mp hentry
        simp
      · exact absurd hentry List.not_mem_nil
  · rw [LoopCore.pendingRequestId_endRun]
  · rw [LoopCore.approvalResult_endRun]

theorem Approving.approvalResponse (h : Approving c) (request : String) (approved : Bool) :
    Approving (c.approvalResponse request approved) := by
  have hnote : Approving (c.note (.answered request approved)) :=
    h.grow rfl (by simp) rfl (Or.inl rfl)
  unfold LoopCore.approvalResponse
  dsimp only
  split
  · next hpending =>
    refine ⟨hnote.1, hnote.2.pending, ?_⟩
    intro hresult
    obtain rfl : approved = true := hresult
    exact ⟨request, hpending, answeredAfter_concat (h.2.pending request hpending)⟩
  · exact hnote

/-- What a frame does keeps the invariant. -/
theorem Approving.goesOn (h : Approving c) {n : Nat} {starts : Bool} (hgo : GoesOn n starts c d) :
    Approving d := by
  rcases hgo with ⟨-, rfl⟩ | ⟨-, rfl⟩ | ⟨-, request, approved, rfl⟩ | ⟨-, rfl⟩
  · exact h
  · have hcounted : Approving { c with activeRuns := c.activeRuns + 1 } := h.of_eq rfl rfl rfl
    exact hcounted.startRun n true
  · exact h.approvalResponse request approved
  · exact h.agentCancel

/-- **One step.**  Only the return of a wait can break the law. -/
theorem approving_step {tools : ToolTable} {n : Nat} {st after : WsLoop} {event : LoopEvent}
    (hown : OwnAnswer st event) (h : Approving st.toLoopCore)
    (hstep : step tools n st event = some after) : Approving after.toLoopCore := by
  have hreturns : ∀ {request call below late}, event = .wake late →
      st.stack = .approval request call :: below →
      Lawful Approved (st.log ++ [WsNote.returned request st.approvalResult]) := by
    intro request call below late hevent hstack
    refine lawful_concat.mpr ⟨h.1, ?_⟩
    intro answered heq
    obtain ⟨rfl, hresult⟩ := WsNote.returned.inj heq
    have hwoken : st.wokenRequest event = some request := by
      rw [hevent, wokenRequest, hstack]
    have hlast := hown (by rw [hwoken, Option.isSome_some]) hresult
    obtain ⟨pending, hpending, hanswer⟩ := h.2.granted hresult
    obtain rfl : pending = request := by
      rw [hpending, hwoken] at hlast
      exact Option.some.inj hlast
    exact hanswer
  have hmoves := moves_of_step hstep
  generalize after.toLoopCore = core at hmoves ⊢
  cases hmoves with
  | elsewhere => exact h
  | frame hpump hopen hafter => exact (h.free _).goesOn hafter
  | close hpump hopen =>
    have hclosed : Approving (closedCore st.toLoopCore) :=
      (h.grow (d := { st.toLoopCore with
        closing := true
        connected := false
        approvalResult := false
        log := st.log ++ [WsNote.closed] }) rfl (by simp) rfl (Or.inr rfl)).agentCancel
    split
    · exact hclosed.grow rfl (by simp) rfl (Or.inl rfl)
    · exact hclosed
  | logout =>
    have hcleared : Approving { st.toLoopCore with approvalResult := false } :=
      ⟨h.1, h.2.pending, fun hresult => absurd hresult (by simp)⟩
    exact hcleared.agentCancel
  | cancel => exact h.agentCancel
  | flush hstack hopen => exact h.of_eq rfl rfl rfl
  | @ends run left counted below calls available response titled minted hstack hcalls =>
    have hcalled : Approving { st.toLoopCore with
        log := st.log ++ List.replicate calls (WsNote.called run) } := by
      refine h.grow rfl ?_ rfl (Or.inl rfl)
      intro entry hentry request
      rw [List.eq_of_mem_replicate hentry]
      simp
    exact hcalled.endRun run counted below
  | calls hstack hrequested =>
    exact h.grow (List.append_assoc _ _ _) (by simp) rfl (Or.inl rfl)
  | executed hstack => exact h.grow rfl (by simp) rfl (Or.inl rfl)
  | tool hstack => exact h.of_eq rfl rfl rfl
  | asks hstack => exact h.of_eq rfl rfl rfl
  | requests request hstack =>
    refine ⟨?_, ?_, fun hresult => absurd hresult (by simp)⟩
    · exact lawful_concat.mpr ⟨h.1, fun _ heq => absurd heq (by simp)⟩
    · rintro pending hpending
      obtain rfl : request = pending := Option.some.inj hpending
      exact List.mem_append_right st.log (List.mem_singleton_self _)
  | flushed hstack => exact h.of_eq rfl rfl rfl
  | @drain left below minted hstack =>
    have hdrained : Approving { st.toLoopCore with stack := .flush left :: below } := h.of_eq rfl rfl rfl
    exact hdrained.startRun n false
  | returns hstack => exact ⟨hreturns rfl hstack, h.2.grow rfl rfl (Or.inl rfl)⟩
  | returnsAsking hstack => exact ⟨hreturns rfl hstack, h.2.grow rfl rfl (Or.inl rfl)⟩
  | answered hstack => exact h.of_eq rfl rfl rfl

/-- **Approvals.**  In a run in which every wait that returns an approval is the one that has asked
last, an approval is returned only when the client has given it, with the id of the request and after
the request. -/
theorem approved_of_runs {tools : ToolTable} {n : Nat} {start st : WsLoop} (hfresh : Fresh start)
    (h : Runs (step tools n) OwnAnswer start st) : Lawful Approved st.log := by
  have hstart : Approving start.toLoopCore := by
    refine ⟨hfresh.log ▸ lawful_nil, ?_, ?_⟩
    · intro request hrequest
      rw [hfresh.pending] at hrequest
      exact absurd hrequest (by simp)
    · intro hresult
      rw [hfresh.approvalResult] at hresult
      exact absurd hresult (by simp)
  have hkept := h.invariant (I := fun st => Approving st.toLoopCore) hstart
    fun _ _ _ hown hbefore hstep => approving_step hown hbefore hstep
  exact hkept.1

/-- An approval that the client gives. -/
theorem approved_of_runs_given : ∃ st, Runs (step shellTools 2) OwnAnswer {} st ∧
    WsNote.returned "apr_1" true ∈ st.log ∧ Lawful Approved st.log := by
  obtain ⟨st, hrun, hlog⟩ := exists_runs_of_foldlM (step shellTools 2) OwnAnswer (fun st => st.log) {}
    [messageEvent, callEvent (answerCalling "shell"), .tool none,
      .frame { request := .approvalResponse "apr_1" true }, .wake false]
    [.started 0, .called 0, .executing 0, .requested "apr_1", .answered "apr_1" true,
      .returned "apr_1" true] (by decide +kernel)
  refine ⟨st, hrun, ?_, approved_of_runs fresh_default hrun⟩
  rw [hlog]
  decide

/-- Two runs that ask for an approval, the second one inside the wait of the first one; the client
approves the second request. -/
def nestedLog : List WsNote :=
  [.started 0, .called 0, .executing 0, .requested "apr_1", .started 1, .called 1, .executing 1,
    .requested "apr_2", .answered "apr_2" true, .returned "apr_2" true, .executed 1, .called 1,
    .ended 1]

/-- The answer to the inner request is returned by the outer wait too. -/
theorem not_approved_nested : ¬ ∀ (tools : ToolTable) (n : Nat) (start st : WsLoop), Fresh start →
    Runs (step tools n) (fun _ _ => True) start st → Lawful Approved st.log := by
  intro h
  obtain ⟨st, hrun, hlog⟩ := exists_runs_of_foldlM (step shellTools 2) (fun _ _ => True)
    (fun st => st.log) {}
    [messageEvent, callEvent (answerCalling "shell"), .tool none,
      messageEvent, callEvent (answerCalling "shell"), .tool none,
      .frame { request := .approvalResponse "apr_2" true }, .wake false, .tool none,
      callEvent lastAnswer, .wake false]
    (nestedLog ++ [.returned "apr_1" true]) (by decide +kernel)
  have hlaw := h shellTools 2 {} st fresh_default hrun
  rw [hlog] at hlaw
  obtain ⟨before, after, heq, hanswer⟩ := hlaw nestedLog _ [] rfl "apr_1" rfl
  have hmem : WsNote.answered "apr_1" true ∈ before ++ WsNote.requested "apr_1" :: after :=
    List.mem_append_right before (List.mem_cons_of_mem _ hanswer)
  rw [← heq] at hmem
  exact absurd hmem (by decide)

end WsLoop

end EchoAi
