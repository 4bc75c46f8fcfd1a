import EchoAi.Llm.OpenaiStream

/-!
# Pieces of an OpenAI answer

How an answer is cut into pieces makes no difference, and what is said in it is what it contains.

* `foldlM_streamFeed`: piece after piece is byte after byte, up to the limit for all of them.
* `Spoken`: the content is what `on_chunk` got; every event keeps it (`Spoken.parseStreamEvent`),
  and so do lines, bytes and the end.
* `streamRun_congr`: the two results together.
-/

namespace EchoAi

variable {json : WireJson}

/-! ## Pieces -/

/-- Piece after piece is byte after byte, and fails when the pieces together are too long. -/
theorem foldlM_streamFeed (pieces : List (List UInt8)) (p : StreamParser)
    (hp : p.receivedBytes ≤ openaiMaxResponseBytes) :
    pieces.foldlM (streamFeed json) p =
      if openaiMaxResponseBytes < p.receivedBytes + pieces.flatten.length then none
      else (pieces.flatten.foldlM (feedByte json) p.toSseParser).map fun q =>
        { toSseParser := q, receivedBytes := p.receivedBytes + pieces.flatten.length } := by
  induction pieces generalizing p with
  | nil =>
    rw [List.flatten_nil, List.length_nil, if_neg (by omega)]
    rfl
  | cons piece pieces ih =>
    rw [List.foldlM_cons, List.flatten_cons, List.length_append, List.foldlM_append, streamFeed]
    by_cases hlong : openaiMaxResponseBytes < piece.length ∨
        openaiMaxResponseBytes - piece.length < p.receivedBytes
    · rw [if_pos hlong, if_pos (by omega)]
      rfl
    rw [if_neg hlong]
    cases hfold : piece.foldlM (feedByte json) p.toSseParser with
    | none =>
      simp only [Option.bind_eq_bind, Option.bind_none, Option.map_none, ite_self]
    | some q =>
      simp only [Option.bind_eq_bind, Option.bind_some, Option.pure_def]
      rw [ih _ (by show p.receivedBytes + piece.length ≤ _; omega)]
      simp only [Nat.add_assoc]

/-- An answer in other pieces is the same answer. -/
theorem streamRun_pieces {cs ds : List (List UInt8)} (h : cs.flatten = ds.flatten) :
    streamRun json cs = streamRun json ds := by
  rw [streamRun, streamRun, foldlM_streamFeed cs {} (Nat.zero_le _),
    foldlM_streamFeed ds {} (Nat.zero_le _), h]

/-! ## What is said -/

/-- The content is what `on_chunk` got. -/
def Spoken (p : EventParser) : Prop := p.response.content.getD "" = String.join p.chunks

/-- The content and the texts for `on_chunk` are the same. -/
def SameWords (p q : EventParser) : Prop :=
  q.response.content = p.response.content ∧ q.chunks = p.chunks

namespace Spoken

variable {p q : EventParser}

theorem of_sameWords (hp : Spoken p) (h : SameWords p q) : Spoken q := by
  rw [Spoken, h.1, h.2]
  exact hp

theorem say (hp : Spoken p) (text : String) : Spoken (p.say text) := by
  have hjoin : String.join (p.chunks ++ [text]) = String.join p.chunks ++ text := by
    simp [String.join]
  show p.response.content.getD "" ++ text = String.join (p.chunks ++ [text])
  rw [hjoin, ← hp]

theorem closeThinkingBlock (hp : Spoken p) : Spoken (closeThinkingBlock p) := by
  rw [EchoAi.closeThinkingBlock]
  split
  · exact (hp.say _).of_sameWords ⟨rfl, rfl⟩
  · exact hp

theorem emitThinkingText (hp : Spoken p) (text : String) : Spoken (emitThinkingText p text) := by
  rw [EchoAi.emitThinkingText]
  split
  · exact hp
  · refine Spoken.say ?_ text
    split
    · exact hp
    · exact (hp.say _).of_sameWords ⟨rfl, rfl⟩

theorem emitSummaryText (hp : Spoken p) (text : String) : Spoken (emitSummaryText p text) := by
  rw [EchoAi.emitSummaryText]
  split
  · exact hp.emitThinkingText text
  · simp only
    split
    · exact hp
    · exact hp.emitThinkingText _

end Spoken

/-! ## Events that say nothing -/

namespace SameWords

variable {p q r : EventParser}

theorem trans (hpq : SameWords p q) (hqr : SameWords q r) : SameWords p r :=
  ⟨hqr.1.trans hpq.1, hqr.2.trans hpq.2⟩

theorem upsertFunctionItem {outputIndex : Int} {item : JsonValue}
    (h : upsertFunctionItem p outputIndex item = some q) : SameWords p q := by
  simp only [EchoAi.upsertFunctionItem] at h
  split at h
  · rw [← Option.some.inj h]
    exact ⟨rfl, rfl⟩
  simp only [Option.bind_eq_bind, Option.bind_eq_some_iff] at h
  obtain ⟨map, _, call, _, h⟩ := h
  split at h
  · exact absurd h (by simp)
  obtain ⟨itemId, _, h⟩ := Option.bind_eq_some_iff.1 h
  obtain ⟨id, _, h⟩ := Option.bind_eq_some_iff.1 h
  obtain ⟨name, _, h⟩ := Option.bind_eq_some_iff.1 h
  obtain ⟨arguments, _, h⟩ := Option.bind_eq_some_iff.1 h
  rw [← Option.some.inj h]
  exact ⟨rfl, rfl⟩

theorem captureMessagePhase {item : JsonValue} (h : captureMessagePhase p item = some q) :
    SameWords p q := by
  rw [EchoAi.captureMessagePhase] at h
  split at h
  · rw [← Option.some.inj h]
    exact ⟨rfl, rfl⟩
  · obtain ⟨phase, _, h⟩ := Option.bind_eq_some_iff.1 h
    rw [← Option.some.inj h]
    exact ⟨rfl, rfl⟩

theorem parseArgumentDelta {event : JsonValue} {done : Bool}
    (h : parseArgumentDelta p event done = some q) : SameWords p q := by
  simp only [EchoAi.parseArgumentDelta, Option.bind_eq_bind, Option.bind_eq_some_iff] at h
  obtain ⟨value, _, h⟩ := h
  split at h
  all_goals
    obtain ⟨map, _, call, _, h⟩ := h
    rw [← Option.some.inj h]
    exact ⟨rfl, rfl⟩

theorem setProviderState {reasoning : List JsonValue}
    (h : setProviderState json p reasoning = some q) : SameWords p q := by
  obtain ⟨serialized, _, h⟩ := Option.bind_eq_some_iff.1 h
  rw [← Option.some.inj h]
  exact ⟨rfl, rfl⟩

theorem mergeItems {index : Nat} {items reasoning : List JsonValue}
    (h : mergeItems p index items = some (q, reasoning)) : SameWords p q := by
  induction items generalizing p q index reasoning with
  | nil =>
    rw [← (Prod.mk.inj (Option.some.inj h)).1]
    exact ⟨rfl, rfl⟩
  | cons item items ih =>
    obtain ⟨type, _, h⟩ := Option.bind_eq_some_iff.1 h
    split at h
    · obtain ⟨⟨p', reasoning'⟩, hmerge, h⟩ := Option.bind_eq_some_iff.1 h
      rw [← (Prod.mk.inj (Option.some.inj h)).1]
      exact ih hmerge
    split at h
    · obtain ⟨p', hitem, h⟩ := Option.bind_eq_some_iff.1 h
      exact (upsertFunctionItem hitem).trans (ih h)
    split at h
    · obtain ⟨p', hitem, h⟩ := Option.bind_eq_some_iff.1 h
      exact (captureMessagePhase hitem).trans (ih h)
    · exact ih h

theorem mergeCompletedOutput {response : JsonValue}
    (h : mergeCompletedOutput json p response = some q) : SameWords p q := by
  rw [EchoAi.mergeCompletedOutput] at h
  split at h
  · rw [← Option.some.inj h]
    exact ⟨rfl, rfl⟩
  · obtain ⟨⟨p', reasoning⟩, hmerge, h⟩ := Option.bind_eq_some_iff.1 h
    simp only at h
    split at h
    · rw [← Option.some.inj h]
      exact mergeItems hmerge
    · exact (mergeItems hmerge).trans (setProviderState h)
  · exact absurd h (by simp)

theorem appendReasoningItem {item : JsonValue} (h : appendReasoningItem json p item = some q) :
    SameWords p q := by
  obtain ⟨reasoning, _, h⟩ := Option.bind_eq_some_iff.1 h
  exact setProviderState h

end SameWords

/-! ## Every event keeps it -/

/-- A step that depends on a test. -/
theorem of_ite_eq_some {α : Type*} {c P : Prop} [Decidable c] {x y : Option α} {a : α}
    (hx : c → x = some a → P) (hy : ¬c → y = some a → P) (h : (if c then x else y) = some a) :
    P := by
  by_cases hc : c
  · rw [if_pos hc] at h
    exact hx hc h
  · rw [if_neg hc] at h
    exact hy hc h

namespace Spoken

variable {p q : EventParser}

theorem parseReasoningDone {item : JsonValue} (hp : Spoken p)
    (h : parseReasoningDone json p item = some q) : Spoken q := by
  obtain ⟨p', happend, h⟩ := Option.bind_eq_some_iff.1 h
  have hp' := hp.of_sameWords (SameWords.appendReasoningItem happend)
  rw [← Option.some.inj h]
  refine (Spoken.closeThinkingBlock ?_).of_sameWords ⟨rfl, rfl⟩
  split
  · exact hp'
  · split
    · exact hp'.emitSummaryText _
    · exact hp'

theorem parseOutputItem {event : JsonValue} {done : Bool} (hp : Spoken p)
    (h : parseOutputItem json p event done = some q) : Spoken q := by
  obtain ⟨item, _, h⟩ := Option.bind_eq_some_iff.1 h
  obtain ⟨itemType, _, h⟩ := Option.bind_eq_some_iff.1 h
  split at h
  · exact hp.of_sameWords (SameWords.upsertFunctionItem h)
  split at h
  · exact hp.parseReasoningDone h
  split at h
  · exact hp.of_sameWords (SameWords.captureMessagePhase h)
  · rwa [← Option.some.inj h]

theorem parseCompleted {event : JsonValue} (hp : Spoken p)
    (h : parseCompleted json p event = some q) : Spoken q := by
  obtain ⟨response, _, h⟩ := Option.bind_eq_some_iff.1 h
  split at h
  · have hstart : Spoken { p with terminalSeen := true, completed := true } := hp
    exact hstart.of_sameWords (SameWords.mergeCompletedOutput h)
  · exact absurd h (by simp)

theorem parseTextDelta {event : JsonValue} (hp : Spoken p)
    (h : parseTextDelta p event = some q) : Spoken q := by
  obtain ⟨delta, _, h⟩ := Option.bind_eq_some_iff.1 h
  rw [← Option.some.inj h]
  exact hp.closeThinkingBlock.say delta

theorem parseSummaryDelta {event : JsonValue} (hp : Spoken p)
    (h : parseSummaryDelta p event = some q) : Spoken q := by
  obtain ⟨delta, _, h⟩ := Option.bind_eq_some_iff.1 h
  rw [← Option.some.inj h]
  exact (hp.emitSummaryText delta).of_sameWords ⟨rfl, rfl⟩

theorem parseSummaryDone (hp : Spoken p) (event : JsonValue) :
    Spoken (parseSummaryDone p event) := by
  rw [EchoAi.parseSummaryDone]
  split
  · split
    · exact hp
    · exact hp.emitSummaryText _
  · exact hp

/-- Every event keeps the content and the texts for `on_chunk` together. -/
theorem parseStreamEvent {text : List UInt8} (hp : Spoken p)
    (h : parseStreamEvent json p text = some q) : Spoken q := by
  obtain ⟨event, _, h⟩ := Option.bind_eq_some_iff.1 h
  obtain ⟨type, _, h⟩ := Option.bind_eq_some_iff.1 h
  refine of_ite_eq_some (fun _ h => hp.parseTextDelta h) (fun _ h => ?_) h
  refine of_ite_eq_some (fun _ h => hp.parseSummaryDelta h) (fun _ h => ?_) h
  refine of_ite_eq_some (fun _ h => ?_) (fun _ h => ?_) h
  · rw [← Option.some.inj h]
    exact hp.parseSummaryDone event
  refine of_ite_eq_some (fun _ h => hp.parseOutputItem h) (fun _ h => ?_) h
  refine of_ite_eq_some (fun _ h => hp.parseOutputItem h) (fun _ h => ?_) h
  refine of_ite_eq_some (fun _ h => ?_) (fun _ h => ?_) h
  · exact hp.of_sameWords (SameWords.parseArgumentDelta h)
  refine of_ite_eq_some (fun _ h => ?_) (fun _ h => ?_) h
  · exact hp.of_sameWords (SameWords.parseArgumentDelta h)
  refine of_ite_eq_some (fun _ h => hp.parseCompleted h) (fun _ h => ?_) h
  refine of_ite_eq_some (fun _ h => hp.parseTextDelta h) (fun _ h => ?_) h
  refine of_ite_eq_some (fun _ h => ?_) (fun _ h => ?_) h
  · refine of_ite_eq_some (fun _ h => ?_) (fun _ h => ?_) h
    · exact absurd h (by simp)
    · rwa [← Option.some.inj h]
  refine of_ite_eq_some (fun _ h => ?_) (fun _ h => ?_) h
  · rw [← Option.some.inj h]
    exact hp.of_sameWords ⟨rfl, rfl⟩
  · rwa [← Option.some.inj h]

theorem streamProcessEvent {p q : SseParser} (hp : Spoken p.toEventParser)
    (h : streamProcessEvent json p = some q) : Spoken q.toEventParser := by
  rw [EchoAi.streamProcessEvent] at h
  split at h
  · rwa [← Option.some.inj h]
  split at h
  · rw [← Option.some.inj h]
    exact hp.of_sameWords ⟨rfl, rfl⟩
  · obtain ⟨q', hevent, h⟩ := Option.bind_eq_some_iff.1 h
    rw [← Option.some.inj h]
    exact hp.parseStreamEvent hevent

theorem streamProcessLine {p q : SseParser} (hp : Spoken p.toEventParser)
    (h : streamProcessLine json p = some q) : Spoken q.toEventParser := by
  simp only [EchoAi.streamProcessLine] at h
  split at h
  · exact streamProcessEvent (show Spoken { p with line := [] }.toEventParser from hp) h
  split at h
  · rw [← Option.some.inj h]
    exact hp
  split at h
  · rw [← Option.some.inj h]
    exact hp
  split at h
  all_goals
    obtain ⟨eventData, _, h⟩ := Option.bind_eq_some_iff.1 h
    obtain ⟨eventData', _, h⟩ := Option.bind_eq_some_iff.1 h
    rw [← Option.some.inj h]
    exact hp

theorem feedByte {p q : SseParser} {b : UInt8} (hp : Spoken p.toEventParser)
    (h : feedByte json p b = some q) : Spoken q.toEventParser := by
  simp only [EchoAi.feedByte] at h
  split at h
  · exact absurd h (by simp)
  split at h
  · exact streamProcessLine (show Spoken { p with line := p.line ++ [b] }.toEventParser from hp) h
  · rw [← Option.some.inj h]
    exact hp

theorem foldlM_feedByte {bytes : List UInt8} {p q : SseParser} (hp : Spoken p.toEventParser)
    (h : bytes.foldlM (EchoAi.feedByte json) p = some q) : Spoken q.toEventParser := by
  induction bytes generalizing p with
  | nil => rwa [← Option.some.inj h]
  | cons b bytes ih =>
    rw [List.foldlM_cons] at h
    obtain ⟨p', hbyte, h⟩ := Option.bind_eq_some_iff.1 h
    exact ih (hp.feedByte hbyte) h

/-- The end of an answer behind its last line. -/
theorem finishBehind {p p' : SseParser} {q : EventParser} (hp : Spoken p.toEventParser)
    (hevent : EchoAi.streamProcessEvent json p = some p')
    (h : (if p'.terminalSeen ∧ p'.completed ∧ ¬p'.failed ∧ streamCallsComplete p'.response then
      some (withContent (EchoAi.closeThinkingBlock p'.toEventParser)) else none) = some q) :
    q.response.content = some (String.join q.chunks) := by
  have hclosed := (hp.streamProcessEvent hevent).closeThinkingBlock
  split at h
  · rw [← Option.some.inj h]
    exact congrArg some hclosed
  · exact absurd h (by simp)

/-- At the end the content is there, and it is what `on_chunk` got. -/
theorem streamFinish {p : StreamParser} {q : EventParser} (hp : Spoken p.toEventParser)
    (h : streamFinish json p = some q) : q.response.content = some (String.join q.chunks) := by
  rw [EchoAi.streamFinish] at h
  split at h
  · obtain ⟨p', hline, h⟩ := Option.bind_eq_some_iff.1 h
    obtain ⟨p'', hevent, h⟩ := Option.bind_eq_some_iff.1 h
    rw [← Option.some.inj hline] at hevent
    exact hp.finishBehind hevent h
  · obtain ⟨p', hline, h⟩ := Option.bind_eq_some_iff.1 h
    obtain ⟨p'', hevent, h⟩ := Option.bind_eq_some_iff.1 h
    exact (hp.streamProcessLine hline).finishBehind hevent h

end Spoken

/-- How an answer is cut into pieces makes no difference: the two runs both fail, or both succeed
with the same response and the same texts for `on_chunk`, which together are its content. -/
theorem streamRun_congr (json : WireJson) {cs ds : List (List UInt8)}
    (h : cs.flatten = ds.flatten) :
    streamRun json cs = streamRun json ds ∧
      ∀ response chunks, streamRun json cs = some (response, chunks) →
        response.content = some (String.join chunks) := by
  refine ⟨streamRun_pieces h, fun response chunks hrun => ?_⟩
  obtain ⟨p, hfeed, hrun⟩ := Option.bind_eq_some_iff.1 hrun
  obtain ⟨q, hfinish, hrun⟩ := Option.bind_eq_some_iff.1 hrun
  obtain ⟨rfl, rfl⟩ := Prod.mk.inj (Option.some.inj hrun)
  rw [foldlM_streamFeed cs {} (Nat.zero_le _)] at hfeed
  split at hfeed
  · exact absurd hfeed (by simp)
  · obtain ⟨p', hfold, rfl⟩ := Option.map_eq_some_iff.1 hfeed
    have hstart : Spoken ({} : EventParser) := rfl
    exact Spoken.streamFinish (Spoken.foldlM_feedByte hstart hfold) hfinish

/-- An answer that says `hi`. -/
def hiStream : List UInt8 :=
  ascii ("data: \x7b\"type\":\"response.output_text.delta\",\"delta\":\"hi\"\x7d\r\n\r\n" ++
    "data: \x7b\"type\":\"response.completed\",\"response\":\x7b\x7d\x7d\n\n")

/-- It says so when it is cut inside the end of its first line. -/
theorem streamRun_hiStream :
    streamRun byteJson [hiStream] = streamRun byteJson [hiStream.take 60, hiStream.drop 60] ∧
      (streamRun byteJson [hiStream]).map (fun r => (r.1.content, r.2)) =
        some (some "hi", ["hi"]) :=
  ⟨(streamRun_congr byteJson (by simp)).1, by
    rw [byteJson_eq, hiStream, ascii_append, ascii_ofList, ascii_ofList]
    decide +kernel⟩

end EchoAi
