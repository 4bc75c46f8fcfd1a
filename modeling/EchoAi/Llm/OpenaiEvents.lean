import EchoAi.Llm.OpenaiChunks

/-!
# The events of an OpenAI stream

What is done with the lines of a stream does not depend on what its events say, so that the events can
be taken one by one.

* `Framing`, `frameByte`, `streamData`: the data of the events in some bytes.
* `takeData`: one event; `[DONE]` ends the stream.
* `exists_of_streamRun`: an answer is what its events make of it, and they end it as they should.
* `dataLine`: an event in a line of its own, with `streamData_dataLines` and `streamRun_dataLines`.
-/

namespace EchoAi

variable {json : WireJson}

/-! ## Lines -/

/-- A line that has begun, and the data of the event so far. -/
structure Framing where
  line : List UInt8 := []
  data : List UInt8 := []
  deriving DecidableEq, Repr

/-- The data of the event that a line ends, and what is left behind the line. -/
def Framing.endLine (f : Framing) : List (List UInt8) × Framing :=
  let line := f.line.rdropWhile fun b => b = 10 ∨ b = 13
  if line = [] then (if f.data = [] then [] else [f.data], {})
  else if line.head? = some ':'.toUInt8 then ([], { data := f.data })
  else
    match lineData line with
    | none => ([], { data := f.data })
    | some data => ([], { data := (if f.data = [] then [] else f.data ++ [10]) ++ data })

/-- The data of the event that a byte ends, and what is left behind it. -/
def Framing.byte (f : Framing) (b : UInt8) : List (List UInt8) × Framing :=
  let f := { f with line := f.line ++ [b] }
  if b = 10 then f.endLine else ([], f)

/-- The data of the events at the end of the stream. -/
def Framing.finish (f : Framing) : List (List UInt8) :=
  let (ended, f) := if f.line = [] then ([], f) else f.endLine
  ended ++ if f.data = [] then [] else [f.data]

/-- The data of the events in some bytes. -/
def Framing.dataFrom (f : Framing) : List UInt8 → List (List UInt8)
  | [] => f.finish
  | b :: bytes => (f.byte b).1 ++ (f.byte b).2.dataFrom bytes

/-- The data of the events in a stream. -/
def streamData (bytes : List UInt8) : List (List UInt8) := Framing.dataFrom {} bytes

/-- One event. -/
def takeData (json : WireJson) (p : EventParser) (data : List UInt8) : Option EventParser :=
  if data = ascii "[DONE]" then some { p with terminalSeen := true }
  else parseStreamEvent json p data

/-! ## The parser on lines -/

/-- The part of the parser about lines. -/
def SseParser.framing (p : SseParser) : Framing := ⟨p.line, p.eventData⟩

/-- The parser goes on as the events say, and its lines as the bytes are. -/
structure Follows (json : WireJson) (p : EventParser) (step : List (List UInt8) × Framing)
    (q : SseParser) : Prop where
  events : step.1.foldlM (takeData json) p = some q.toEventParser
  framing : q.framing = step.2

theorem follows_processEvent {p q : SseParser} (h : streamProcessEvent json p = some q) :
    Follows json p.toEventParser (if p.eventData = [] then [] else [p.eventData], ⟨p.line, []⟩) q := by
  rw [streamProcessEvent] at h
  split at h
  · next hnone =>
    obtain rfl := Option.some.inj h
    rw [if_pos hnone]
    exact ⟨rfl, congrArg (Framing.mk p.line) hnone⟩
  · next hsome =>
    rw [if_neg hsome]
    split at h
    · next hdone =>
      obtain rfl := Option.some.inj h
      refine ⟨?_, rfl⟩
      rw [List.foldlM_cons, takeData, if_pos hdone]
      rfl
    · next hdone =>
      obtain ⟨q', hq', hq⟩ := Option.bind_eq_some_iff.1 h
      obtain rfl := Option.some.inj hq
      refine ⟨?_, rfl⟩
      rw [List.foldlM_cons, takeData, if_neg hdone, hq']
      rfl

theorem appendEventData_eq {data more out : List UInt8} (h : appendEventData data more = some out) :
    out = data ++ more := by
  rw [appendEventData] at h
  split at h
  · exact absurd h.symm (Option.some_ne_none out)
  · exact (Option.some.inj h).symm

theorem follows_processLine {p q : SseParser} (h : streamProcessLine json p = some q) :
    Follows json p.toEventParser p.framing.endLine q := by
  rw [streamProcessLine] at h
  rw [Framing.endLine, SseParser.framing]
  dsimp only at h ⊢
  split at h
  · next hempty =>
    rw [if_pos hempty]
    exact follows_processEvent h
  · next hline =>
    rw [if_neg hline]
    split at h
    · next hcomment =>
      obtain rfl := Option.some.inj h
      rw [if_pos hcomment]
      exact ⟨rfl, rfl⟩
    · next hcomment =>
      rw [if_neg hcomment]
      cases hdata : lineData (p.line.rdropWhile fun b => decide (b = 10 ∨ b = 13)) with
      | none =>
        rw [hdata] at h
        obtain rfl := Option.some.inj h
        exact ⟨rfl, rfl⟩
      | some data =>
        rw [hdata] at h
        dsimp only at h
        split at h
        · next hnone =>
          obtain ⟨eventData, hfirst, hrest⟩ := Option.bind_eq_some_iff.1 h
          obtain ⟨eventData', hsecond, hq⟩ := Option.bind_eq_some_iff.1 hrest
          obtain rfl := Option.some.inj hq
          obtain rfl := Option.some.inj hfirst
          refine ⟨rfl, ?_⟩
          rw [appendEventData_eq hsecond, if_pos hnone]
          rfl
        · next hsome =>
          obtain ⟨eventData, hfirst, hrest⟩ := Option.bind_eq_some_iff.1 h
          obtain ⟨eventData', hsecond, hq⟩ := Option.bind_eq_some_iff.1 hrest
          obtain rfl := Option.some.inj hq
          refine ⟨rfl, ?_⟩
          rw [appendEventData_eq hsecond, appendEventData_eq hfirst, if_neg hsome]
          rfl

theorem follows_feedByte {p q : SseParser} {b : UInt8} (h : feedByte json p b = some q) :
    Follows json p.toEventParser (p.framing.byte b) q := by
  rw [feedByte] at h
  split at h
  · exact absurd h.symm (Option.some_ne_none q)
  · rw [Framing.byte]
    dsimp only at h ⊢
    split at h
    · next hb =>
      rw [if_pos hb]
      exact follows_processLine h
    · next hb =>
      obtain rfl := Option.some.inj h
      rw [if_neg hb]
      exact ⟨rfl, rfl⟩

/-! ## Whole answers -/

theorem Follows.trans {p : EventParser} {q r : SseParser} {step : List (List UInt8) × Framing}
    {more : List (List UInt8)} (h : Follows json p step q)
    (hmore : more.foldlM (takeData json) q.toEventParser = some r.toEventParser) :
    (step.1 ++ more).foldlM (takeData json) p = some r.toEventParser := by
  rw [List.foldlM_append, h.events]
  exact hmore

/-- The end of a stream, with the events that it brings. -/
theorem exists_of_streamFinish {p : StreamParser} {q : EventParser}
    (h : streamFinish json p = some q) :
    ∃ q', p.framing.finish.foldlM (takeData json) p.toEventParser = some q' ∧
      (q'.terminalSeen = true ∧ q'.completed = true ∧ ¬q'.failed = true ∧
        streamCallsComplete q'.response = true) ∧ q = withContent (closeThinkingBlock q') := by
  rw [streamFinish] at h
  have hend : ∀ {p₁ p₂ : SseParser}, streamProcessEvent json p₁ = some p₂ →
      (if p₂.terminalSeen ∧ p₂.completed ∧ ¬p₂.failed ∧ streamCallsComplete p₂.response then
        some (withContent (closeThinkingBlock p₂.toEventParser)) else none) = some q →
      (if p₁.eventData = [] then [] else [p₁.eventData]).foldlM (takeData json) p₁.toEventParser =
          some p₂.toEventParser ∧
        (p₂.terminalSeen = true ∧ p₂.completed = true ∧ ¬p₂.failed = true ∧
          streamCallsComplete p₂.response = true) ∧
        q = withContent (closeThinkingBlock p₂.toEventParser) := by
    intro p₁ p₂ hevent hq
    split at hq
    · next hcomplete =>
      exact ⟨(follows_processEvent hevent).events, hcomplete, (Option.some.inj hq).symm⟩
    · exact absurd hq.symm (Option.some_ne_none q)
  rw [Framing.finish]
  split at h
  · next hnone =>
    obtain ⟨p₁, hline, hrest⟩ := Option.bind_eq_some_iff.1 h
    obtain ⟨p₂, hevent, hq⟩ := Option.bind_eq_some_iff.1 hrest
    obtain rfl := Option.some.inj hline
    rw [SseParser.framing, if_pos hnone]
    exact ⟨p₂.toEventParser, hend hevent hq⟩
  · next hsome =>
    obtain ⟨p₁, hline, hrest⟩ := Option.bind_eq_some_iff.1 h
    obtain ⟨p₂, hevent, hq⟩ := Option.bind_eq_some_iff.1 hrest
    have hfirst := follows_processLine hline
    obtain ⟨hevents, hcomplete, hclosed⟩ := hend hevent hq
    refine ⟨p₂.toEventParser, ?_, hcomplete, hclosed⟩
    have hline' : p.framing.line ≠ [] := hsome
    rw [if_neg hline']
    generalize p.framing.endLine = step at hfirst ⊢
    refine hfirst.trans ?_
    rw [← hfirst.framing]
    exact hevents

/-- Some bytes, and the end of the stream behind them. -/
theorem exists_of_bytes {bytes : List UInt8} {p q : SseParser} {n : Nat} {r : EventParser}
    (h : bytes.foldlM (feedByte json) p = some q)
    (hfinish : streamFinish json { toSseParser := q, receivedBytes := n } = some r) :
    ∃ r', (p.framing.dataFrom bytes).foldlM (takeData json) p.toEventParser = some r' ∧
      (r'.terminalSeen = true ∧ r'.completed = true ∧ ¬r'.failed = true ∧
        streamCallsComplete r'.response = true) ∧ r = withContent (closeThinkingBlock r') := by
  induction bytes generalizing p with
  | nil =>
    obtain rfl := Option.some.inj h
    exact exists_of_streamFinish hfinish
  | cons b bytes ih =>
    rw [List.foldlM_cons] at h
    obtain ⟨p', hbyte, hrest⟩ := Option.bind_eq_some_iff.1 h
    obtain ⟨r', hevents, hend⟩ := ih hrest
    have hfollows := follows_feedByte hbyte
    refine ⟨r', ?_, hend⟩
    rw [Framing.dataFrom, List.foldlM_append, hfollows.events, ← hfollows.framing]
    exact hevents

/-- **An answer is what its events make of it**: the parser takes all of them, they end the stream
as they should, and every call is complete. -/
theorem exists_of_streamRun {pieces : List (List UInt8)} {response : LLMResponse}
    {chunks : List String} (h : streamRun json pieces = some (response, chunks)) :
    ∃ p, (streamData pieces.flatten).foldlM (takeData json) {} = some p ∧
      (p.terminalSeen = true ∧ p.completed = true ∧ ¬p.failed = true ∧
        streamCallsComplete p.response = true) ∧
      response = (withContent (closeThinkingBlock p)).response ∧
      chunks = (closeThinkingBlock p).chunks := by
  obtain ⟨p, hfeed, hrest⟩ := Option.bind_eq_some_iff.1 h
  obtain ⟨q, hfinish, hq⟩ := Option.bind_eq_some_iff.1 hrest
  obtain ⟨rfl, rfl⟩ := Prod.mk.inj (Option.some.inj hq)
  rw [foldlM_streamFeed pieces {} (Nat.zero_le _)] at hfeed
  split at hfeed
  · exact absurd hfeed.symm (Option.some_ne_none p)
  · obtain ⟨p', hfold, rfl⟩ := Option.map_eq_some_iff.1 hfeed
    obtain ⟨r', hevents, hend, rfl⟩ := exists_of_bytes hfold hfinish
    exact ⟨r', hevents, hend, rfl, rfl⟩

/-! ## Events in lines of their own -/

/-- An event in a line, with the empty line that ends it. -/
def dataLine (data : List UInt8) : List UInt8 := ascii "data: " ++ (data ++ [10, 10])

/-- The data can stand in a line of its own. -/
structure FitsLine (data : List UInt8) : Prop where
  nonempty : data ≠ []
  newline : 10 ∉ data
  carriage : 13 ∉ data
  nul : 0 ∉ data
  short : data.length + 7 ≤ openaiMaxSseEventBytes

/-- A line without its end. -/
theorem foldlM_feedByte_line {line : List UInt8} (hnewline : 10 ∉ line) (hnul : 0 ∉ line)
    {p : SseParser} (hfits : p.line.length + line.length ≤ openaiMaxSseEventBytes) :
    line.foldlM (feedByte json) p = some { p with line := p.line ++ line } := by
  induction line generalizing p with
  | nil =>
    rw [List.append_nil]
    rfl
  | cons b line ih =>
    rw [List.length_cons] at hfits
    have hb : ¬(b = 0 ∨ openaiMaxSseEventBytes ≤ p.line.length) := by
      rintro (rfl | hlong)
      · exact hnul List.mem_cons_self
      · omega
    have hend : b ≠ 10 := fun heq => hnewline (heq ▸ List.mem_cons_self)
    have hrest := @ih (fun h => hnewline (List.mem_cons_of_mem b h))
      (fun h => hnul (List.mem_cons_of_mem b h)) { p with line := p.line ++ [b] }
      (by show (p.line ++ [b]).length + _ ≤ _; rw [List.length_append, List.length_singleton]; omega)
    rw [List.foldlM_cons, feedByte, if_neg hb]
    dsimp only
    rw [if_neg hend]
    show line.foldlM (feedByte json) { p with line := p.line ++ [b] } = _
    rw [hrest, List.append_assoc]
    rfl

theorem rdropWhile_dataLine {data : List UInt8} (h : FitsLine data) :
    (ascii "data: " ++ data ++ [10]).rdropWhile (fun b => b = 10 ∨ b = 13) =
      ascii "data: " ++ data := by
  rw [List.rdropWhile_concat_pos _ _ _ (by decide), List.rdropWhile_eq_self_iff]
  intro hne hend
  have hlast := List.getLast_mem h.nonempty
  rw [List.getLast_append_of_ne_nil hne h.nonempty] at hend
  rcases of_decide_eq_true hend with hend | hend
  · exact h.newline (hend ▸ hlast)
  · exact h.carriage (hend ▸ hlast)

theorem lineData_dataLine (data : List UInt8) : lineData (ascii "data: " ++ data) = some data := by
  have hfront : ascii "data:" <+: ascii "data: " ++ data :=
    (by decide : ascii "data:" <+: ascii "data: ").trans (List.prefix_append _ _)
  have hdrop : (ascii "data: " ++ data).drop 5 = 32 :: data := rfl
  rw [lineData, if_pos hfront, hdrop]
  rfl

/-- An event in a line of its own is taken when the line ends. -/
theorem foldlM_feedByte_dataLine {data : List UInt8} (h : FitsLine data) (p : EventParser) :
    (dataLine data).foldlM (feedByte json) { toEventParser := p } =
      (takeData json p data).map fun q => { toEventParser := q } := by
  have hhead : ∀ b ∈ ascii "data: ", b ≠ 10 ∧ b ≠ 0 := forall_mem_ascii (by decide)
  have hshort := h.short
  have hnewline : 10 ∉ ascii "data: " ++ data := fun hmem =>
    (List.mem_append.1 hmem).elim (fun hb => (hhead 10 hb).1 rfl) h.newline
  have hnul : 0 ∉ ascii "data: " ++ data := fun hmem =>
    (List.mem_append.1 hmem).elim (fun hb => (hhead 0 hb).2 rfl) h.nul
  have hlength : (ascii "data: " ++ data).length = 6 + data.length := List.length_append
  have hline := @foldlM_feedByte_line json _ hnewline hnul { toEventParser := p }
    (by show 0 + _ ≤ _; omega)
  have hcut : dataLine data = (ascii "data: " ++ data) ++ [10, 10] :=
    (List.append_assoc ..).symm
  rw [hcut, List.foldlM_append, hline]
  have hfeed : ∀ p : SseParser, p.line.length < openaiMaxSseEventBytes →
      feedByte json p 10 = streamProcessLine json { p with line := p.line ++ [10] } := by
    intro p hp
    rw [feedByte, if_neg (by rintro (h | h); exact absurd h (by decide); omega)]
    rfl
  have hcolon : (ascii "data: " ++ data).head? ≠ some ':'.toUInt8 := by
    show some 100 ≠ some ':'.toUInt8
    decide
  have hempty : ascii "data: " ++ data ≠ [] := by
    intro heq
    exact h.nonempty (List.append_eq_nil_iff.1 heq).2
  have happend : appendEventData [] data = some data := by
    rw [appendEventData, if_neg (by rw [List.length_nil]; omega), List.nil_append]
  have hfirst : feedByte json { toEventParser := p, line := ascii "data: " ++ data } 10 =
      some { toEventParser := p, eventData := data } := by
    have hless : (ascii "data: " ++ data).length < openaiMaxSseEventBytes := by omega
    rw [hfeed _ hless, streamProcessLine]
    dsimp only
    rw [rdropWhile_dataLine h, if_neg hempty, if_neg hcolon, lineData_dataLine]
    simp only [if_true, Option.bind_eq_bind, Option.bind_some, happend]
    rfl
  have hsecond : feedByte json { toEventParser := p, eventData := data } 10 =
      (takeData json p data).map fun q => { toEventParser := q } := by
    have hless : ([] : List UInt8).length < openaiMaxSseEventBytes := by decide
    have hcr : ([] ++ [10] : List UInt8).rdropWhile (fun b => b = 10 ∨ b = 13) = [] := by decide
    rw [hfeed _ hless, streamProcessLine]
    dsimp only
    rw [hcr, if_pos rfl, streamProcessEvent, if_neg h.nonempty, takeData]
    dsimp only
    split
    · rfl
    · cases parseStreamEvent json p data <;> rfl
  show List.foldlM (feedByte json) { toEventParser := p, line := [] ++ (ascii "data: " ++ data) }
    [10, 10] = _
  rw [List.nil_append, List.foldlM_cons, hfirst]
  show (feedByte json { toEventParser := p, eventData := data } 10).bind _ = _
  rw [hsecond]
  cases takeData json p data <;> rfl

/-- The lines of a framing go on behind a line without its end. -/
theorem dataFrom_line {line : List UInt8} (hnewline : 10 ∉ line) (f : Framing)
    (rest : List UInt8) :
    f.dataFrom (line ++ rest) = Framing.dataFrom { f with line := f.line ++ line } rest := by
  induction line generalizing f with
  | nil => rw [List.append_nil]; rfl
  | cons b line ih =>
    have hb : b ≠ 10 := fun heq => hnewline (heq ▸ List.mem_cons_self)
    rw [List.cons_append, Framing.dataFrom, Framing.byte, if_neg hb,
      ih fun h => hnewline (List.mem_cons_of_mem b h)]
    dsimp only
    rw [List.nil_append, List.append_assoc]
    rfl

/-- The data of an event in a line of its own. -/
theorem dataFrom_dataLine {data : List UInt8} (h : FitsLine data) (rest : List UInt8) :
    Framing.dataFrom {} (dataLine data ++ rest) = data :: Framing.dataFrom {} rest := by
  have hhead : ∀ b ∈ ascii "data: ", b ≠ 10 := forall_mem_ascii (by decide)
  have hnewline : 10 ∉ ascii "data: " ++ data := fun hmem =>
    (List.mem_append.1 hmem).elim (fun hb => hhead 10 hb rfl) h.newline
  have hcut : dataLine data ++ rest = (ascii "data: " ++ data) ++ 10 :: 10 :: rest := by
    simp only [dataLine, List.append_assoc, List.cons_append, List.nil_append]
  have hcolon : (ascii "data: " ++ data).head? ≠ some ':'.toUInt8 := by
    show some 100 ≠ some ':'.toUInt8
    decide
  have hempty : ascii "data: " ++ data ≠ [] := by
    intro heq
    exact h.nonempty (List.append_eq_nil_iff.1 heq).2
  have hfirst : Framing.byte { line := ascii "data: " ++ data } 10 = ([], { data := data }) := by
    unfold Framing.byte Framing.endLine
    dsimp only
    rw [if_pos rfl, rdropWhile_dataLine h, if_neg hempty, if_neg hcolon, lineData_dataLine]
    rfl
  have hsecond : Framing.byte { data := data } 10 = ([data], {}) := by
    have hcr : ([] ++ [10] : List UInt8).rdropWhile (fun b => b = 10 ∨ b = 13) = [] := by decide
    unfold Framing.byte Framing.endLine
    dsimp only
    rw [if_pos rfl, hcr, if_pos rfl, if_neg h.nonempty]
  rw [hcut, dataFrom_line hnewline]
  show Framing.dataFrom { line := ascii "data: " ++ data } _ = _
  rw [Framing.dataFrom, hfirst, Framing.dataFrom, hsecond]
  rfl

/-- Events in lines of their own are the events of their stream. -/
theorem streamData_dataLines {datas : List (List UInt8)} (h : ∀ data ∈ datas, FitsLine data) :
    streamData (datas.flatMap dataLine) = datas := by
  induction datas with
  | nil => rfl
  | cons data datas ih =>
    rw [List.forall_mem_cons] at h
    rw [List.flatMap_cons, streamData, dataFrom_dataLine h.1]
    exact congrArg (data :: ·) (ih h.2)

/-- An answer of events in lines of their own is what they make of it. -/
theorem streamRun_dataLines {datas : List (List UInt8)} (h : ∀ data ∈ datas, FitsLine data)
    (hshort : (datas.flatMap dataLine).length ≤ openaiMaxResponseBytes) :
    streamRun json [datas.flatMap dataLine] =
      (datas.foldlM (takeData json) {}).bind fun p =>
        if p.terminalSeen ∧ p.completed ∧ ¬p.failed ∧ streamCallsComplete p.response then
          some ((withContent (closeThinkingBlock p)).response, (closeThinkingBlock p).chunks)
        else none := by
  have hfold : ∀ (datas : List (List UInt8)), (∀ data ∈ datas, FitsLine data) → ∀ p : EventParser,
      (datas.flatMap dataLine).foldlM (feedByte json) { toEventParser := p } =
        (datas.foldlM (takeData json) p).map fun q => { toEventParser := q } := by
    intro datas
    induction datas with
    | nil => exact fun _ _ => rfl
    | cons data datas ih =>
      intro h p
      rw [List.forall_mem_cons] at h
      rw [List.flatMap_cons, List.foldlM_append, foldlM_feedByte_dataLine h.1, List.foldlM_cons]
      cases takeData json p data with
      | none => rfl
      | some q => exact ih h.2 q
  unfold streamRun
  rw [foldlM_streamFeed _ _ (Nat.zero_le _), List.flatten_singleton, if_neg (by show ¬_ < 0 + _; omega)]
  show ((List.foldlM (feedByte json) { toEventParser := {} } _).map _).bind _ = _
  rw [hfold datas h]
  cases datas.foldlM (takeData json) {} with
  | none => rfl
  | some p =>
    show (streamFinish json { toEventParser := p }).bind _ = _
    unfold streamFinish
    rw [if_pos rfl, Option.bind_some]
    by_cases hdone : p.terminalSeen = true ∧ p.completed = true ∧ ¬p.failed = true ∧
        streamCallsComplete p.response = true
    · rw [if_pos hdone]
      show Option.bind (if _ then _ else _) _ = _
      rw [if_pos hdone]
      rfl
    · rw [if_neg hdone]
      show Option.bind (if _ then _ else _) _ = _
      rw [if_neg hdone]
      rfl

end EchoAi
