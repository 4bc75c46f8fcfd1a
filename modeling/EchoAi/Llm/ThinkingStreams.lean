import EchoAi.Llm.CompatibleCalls
import EchoAi.Llm.Ollama
import EchoAi.Llm.OpenaiEvents
import EchoAi.Llm.Thinking

/-!
# Thoughts in the three streams

* `CodexTalk`, `codexTalk`, `compatibleTalk`, `ollamaTalk`: what is said in a stream of each
  provider.
* `CodexTells.takeData`, `Compatible.tells_apply`, `Ollama.tells_forwardChunk`: each event passes on
  what it says.
* `closes_iff`: the thoughts are closed at the end of every stream but one of Ollama that ends
  within them.
-/

namespace EchoAi

/-! ## The Codex stream -/

/-- A talk, and whether the summary of the thoughts came in parts. -/
structure CodexTalk extends Talk where
  summaryDeltasSeen : Bool := false
  deriving DecidableEq, Repr

/-- The thought in a summary, without the marks of comments. -/
def summaryThought (text : String) : String :=
  if firstInfix "<!--".toList text.toList = none ∧ firstInfix "-->".toList text.toList = none then
    text
  else if (dropMarks text.toList).all isSpaceChar then ""
  else String.ofList (dropMarks text.toList)

/-- The thought of a finished item of reasoning, when there is none in the stream yet. -/
def itemThought (item : JsonValue) : String :=
  ((reasoningSummaryJoin item).map summaryThought).getD ""

/-- The talk behind an item that is done. -/
def CodexTalk.itemDone (t : CodexTalk) (event : JsonValue) : CodexTalk :=
  match event.exactMember "item" with
  | none => t
  | some item =>
    if validNonemptyString (item.exactMember "type") = some "reasoning" then
      { toTalk := (if t.thinking then t.toTalk else t.think (itemThought item)).close }
    else t

/-- The talk behind an event of a type. -/
def CodexTalk.event (t : CodexTalk) (type : String) (event : JsonValue) : CodexTalk :=
  if type = "response.output_text.delta" ∨ type = "response.refusal.delta" then
    { t with toTalk := t.speak ((exactText event "delta").getD "") }
  else if type = "response.reasoning_summary_text.delta" then
    { toTalk := t.think (summaryThought ((exactText event "delta").getD ""))
      summaryDeltasSeen := true }
  else if type = "response.reasoning_summary_text.done" then
    if t.summaryDeltasSeen then t
    else { t with toTalk := t.think (((exactText event "text").map summaryThought).getD "") }
  else if type = "response.output_item.done" then t.itemDone event
  else t

/-- The talk behind the data of an event. -/
def CodexTalk.data (json : WireJson) (t : CodexTalk) (data : List UInt8) : CodexTalk :=
  if data = ascii "[DONE]" then t
  else
    match parseBoundedJson json data openaiMaxSseEventBytes with
    | none => t
    | some event =>
      match validNonemptyString (event.exactMember "type") with
      | none => t
      | some type => t.event type event

/-- What is said in a stream, with the thoughts closed at its end. -/
def codexTalk (json : WireJson) (bytes : List UInt8) : Talk :=
  ((streamData bytes).foldl (CodexTalk.data json) {}).close

/-- The parser has passed on a talk. -/
structure CodexTells (t : CodexTalk) (p : EventParser) : Prop where
  talk : Tells t.toTalk p.thinkingOpen p.chunks
  summaryDeltasSeen : p.summaryDeltasSeen = t.summaryDeltasSeen

/-- A step that says nothing. -/
def Silent (p q : EventParser) : Prop :=
  q.chunks = p.chunks ∧ q.thinkingOpen = p.thinkingOpen ∧ q.summaryDeltasSeen = p.summaryDeltasSeen

section Codex

variable {json : WireJson} {p q : EventParser} {t : CodexTalk}

theorem CodexTells.of_silent (h : CodexTells t p) (hsilent : Silent p q) : CodexTells t q := by
  obtain ⟨hchunks, hopen, hseen⟩ := hsilent
  exact ⟨⟨hopen.trans h.talk.thinking, hchunks.trans h.talk.chunks⟩,
    hseen.trans h.summaryDeltasSeen⟩

theorem tells_closeThinkingBlock {t : Talk} (h : Tells t p.thinkingOpen p.chunks) :
    Tells t.close (closeThinkingBlock p).thinkingOpen (closeThinkingBlock p).chunks := by
  rw [closeThinkingBlock, Talk.close]
  by_cases hopen : p.thinkingOpen = true
  · rw [if_pos hopen, if_pos (h.thinking.symm.trans hopen)]
    exact ⟨rfl, by rw [List.map_append, ← h.chunks]; rfl⟩
  · rw [if_neg hopen, if_neg fun ht => hopen (h.thinking.trans ht)]
    exact h

theorem tells_say {t : Talk} (h : Tells t p.thinkingOpen p.chunks) (text : String) :
    Tells { t with said := t.said ++ [.text text] } (p.say text).thinkingOpen (p.say text).chunks :=
  ⟨h.thinking, by rw [List.map_append, ← h.chunks]; rfl⟩

theorem tells_emitThinkingText {t : Talk} (h : Tells t p.thinkingOpen p.chunks) (text : String) :
    Tells (t.think text) (emitThinkingText p text).thinkingOpen
      (emitThinkingText p text).chunks := by
  rw [emitThinkingText, Talk.think]
  split
  · exact h
  · by_cases hopen : p.thinkingOpen = true
    · have ht : t.thinking = true := h.thinking.symm.trans hopen
      rw [if_pos hopen, if_pos ht, List.append_nil]
      exact ⟨hopen, by rw [List.map_append, ← h.chunks]; rfl⟩
    · have ht : ¬t.thinking = true := fun ht => hopen (h.thinking.trans ht)
      rw [if_neg hopen, if_neg ht]
      exact ⟨rfl, by rw [List.map_append, List.map_append, ← h.chunks]; rfl⟩

theorem emitSummaryText_eq (p : EventParser) (text : String) :
    emitSummaryText p text = emitThinkingText p (summaryThought text) := by
  rw [emitSummaryText, summaryThought]
  split
  · rfl
  · dsimp only
    split
    · rw [emitThinkingText, if_pos rfl]
    · rfl

theorem summaryDeltasSeen_closeThinkingBlock (p : EventParser) :
    (closeThinkingBlock p).summaryDeltasSeen = p.summaryDeltasSeen := by
  rw [closeThinkingBlock]
  split <;> rfl

theorem summaryDeltasSeen_emitThinkingText (p : EventParser) (text : String) :
    (emitThinkingText p text).summaryDeltasSeen = p.summaryDeltasSeen := by
  rw [emitThinkingText]
  split
  · rfl
  · dsimp only
    split <;> rfl

/-! ### Events that say nothing -/

namespace Silent

theorem trans {r : EventParser} (h : Silent p q) (h' : Silent q r) : Silent p r :=
  ⟨h'.1.trans h.1, h'.2.1.trans h.2.1, h'.2.2.trans h.2.2⟩

theorem upsertFunctionItem {outputIndex : Int} {item : JsonValue}
    (h : upsertFunctionItem p outputIndex item = some q) : Silent p q := by
  simp only [EchoAi.upsertFunctionItem] at h
  split at h
  · rw [← Option.some.inj h]
    exact ⟨rfl, rfl, rfl⟩
  · obtain ⟨_, _, h⟩ := Option.bind_eq_some_iff.1 h
    obtain ⟨_, _, h⟩ := Option.bind_eq_some_iff.1 h
    split at h
    · exact absurd h.symm (Option.some_ne_none q)
    · obtain ⟨_, _, h⟩ := Option.bind_eq_some_iff.1 h
      obtain ⟨_, _, h⟩ := Option.bind_eq_some_iff.1 h
      obtain ⟨_, _, h⟩ := Option.bind_eq_some_iff.1 h
      obtain ⟨_, _, h⟩ := Option.bind_eq_some_iff.1 h
      rw [← Option.some.inj h]
      exact ⟨rfl, rfl, rfl⟩

theorem captureMessagePhase {item : JsonValue} (h : captureMessagePhase p item = some q) :
    Silent p q := by
  rw [EchoAi.captureMessagePhase] at h
  split at h
  · rw [← Option.some.inj h]
    exact ⟨rfl, rfl, rfl⟩
  · obtain ⟨_, _, h⟩ := Option.bind_eq_some_iff.1 h
    rw [← Option.some.inj h]
    exact ⟨rfl, rfl, rfl⟩

theorem parseArgumentDelta {event : JsonValue} {done : Bool}
    (h : parseArgumentDelta p event done = some q) : Silent p q := by
  simp only [EchoAi.parseArgumentDelta, Option.bind_eq_bind, Option.bind_eq_some_iff] at h
  obtain ⟨_, _, h⟩ := h
  split at h
  all_goals
    obtain ⟨_, _, _, _, h⟩ := h
    rw [← Option.some.inj h]
    exact ⟨rfl, rfl, rfl⟩

theorem setProviderState {reasoning : List JsonValue}
    (h : setProviderState json p reasoning = some q) : Silent p q := by
  obtain ⟨_, _, h⟩ := Option.bind_eq_some_iff.1 h
  rw [← Option.some.inj h]
  exact ⟨rfl, rfl, rfl⟩

theorem mergeItems {index : Nat} {items reasoning : List JsonValue}
    (h : mergeItems p index items = some (q, reasoning)) : Silent p q := by
  induction items generalizing p index reasoning with
  | nil =>
    obtain ⟨rfl, -⟩ := Prod.mk.inj (Option.some.inj h)
    exact ⟨rfl, rfl, rfl⟩
  | cons item items ih =>
    rw [EchoAi.mergeItems] at h
    obtain ⟨type, _, h⟩ := Option.bind_eq_some_iff.1 h
    split at h
    · obtain ⟨⟨p', reasoning'⟩, hrest, h⟩ := Option.bind_eq_some_iff.1 h
      obtain ⟨rfl, -⟩ := Prod.mk.inj (Option.some.inj h)
      exact ih hrest
    split at h
    · obtain ⟨p', hitem, h⟩ := Option.bind_eq_some_iff.1 h
      exact (upsertFunctionItem hitem).trans (ih h)
    split at h
    · obtain ⟨p', hitem, h⟩ := Option.bind_eq_some_iff.1 h
      exact (captureMessagePhase hitem).trans (ih h)
    · exact ih h

theorem mergeCompletedOutput {response : JsonValue}
    (h : mergeCompletedOutput json p response = some q) : Silent p q := by
  rw [EchoAi.mergeCompletedOutput] at h
  split at h
  · rw [← Option.some.inj h]
    exact ⟨rfl, rfl, rfl⟩
  · obtain ⟨⟨p', reasoning⟩, hitems, h⟩ := Option.bind_eq_some_iff.1 h
    dsimp only at h
    split at h
    · rw [← Option.some.inj h]
      exact mergeItems hitems
    · exact (mergeItems hitems).trans (setProviderState h)
  · exact absurd h.symm (Option.some_ne_none q)

theorem parseCompleted {event : JsonValue} (h : parseCompleted json p event = some q) :
    Silent p q := by
  obtain ⟨response, _, h⟩ := Option.bind_eq_some_iff.1 h
  split at h
  · have hstart : Silent p { p with terminalSeen := true, completed := true } := ⟨rfl, rfl, rfl⟩
    exact hstart.trans (mergeCompletedOutput h)
  · exact absurd h.symm (Option.some_ne_none q)

theorem appendReasoningItem {item : JsonValue} (h : appendReasoningItem json p item = some q) :
    Silent p q := by
  obtain ⟨_, _, h⟩ := Option.bind_eq_some_iff.1 h
  exact setProviderState h

end Silent

/-! ### Events -/

theorem CodexTells.parseTextDelta {event : JsonValue} (h : CodexTells t p)
    (hq : parseTextDelta p event = some q) :
    CodexTells { t with toTalk := t.speak ((exactText event "delta").getD "") } q := by
  obtain ⟨delta, hdelta, hq⟩ := Option.bind_eq_some_iff.1 hq
  obtain rfl := Option.some.inj hq
  rw [hdelta, Option.getD_some]
  refine ⟨tells_say (tells_closeThinkingBlock h.talk) delta, ?_⟩
  exact (summaryDeltasSeen_closeThinkingBlock p).trans h.summaryDeltasSeen

theorem CodexTells.parseSummaryDelta {event : JsonValue} (h : CodexTells t p)
    (hq : parseSummaryDelta p event = some q) :
    CodexTells ⟨t.think (summaryThought ((exactText event "delta").getD "")), true⟩ q := by
  obtain ⟨delta, hdelta, hq⟩ := Option.bind_eq_some_iff.1 hq
  obtain rfl := Option.some.inj hq
  rw [hdelta, Option.getD_some, emitSummaryText_eq]
  exact ⟨tells_emitThinkingText h.talk _, rfl⟩

theorem CodexTells.parseSummaryDone (h : CodexTells t p) (event : JsonValue) :
    CodexTells (if t.summaryDeltasSeen then t
      else { t with toTalk := t.think (((exactText event "text").map summaryThought).getD "") })
      (parseSummaryDone p event) := by
  rw [EchoAi.parseSummaryDone]
  cases htext : exactText event "text" with
  | none =>
    have hsame : t.think "" = t.toTalk := if_pos rfl
    rw [Option.map_none, Option.getD_none, hsame, ite_self]
    exact h
  | some text =>
    dsimp only
    by_cases hseen : p.summaryDeltasSeen = true
    · rw [if_pos hseen, if_pos (h.summaryDeltasSeen.symm.trans hseen)]
      exact h
    · rw [if_neg hseen, if_neg fun ht => hseen (h.summaryDeltasSeen.trans ht), emitSummaryText_eq]
      refine ⟨tells_emitThinkingText h.talk _, ?_⟩
      exact (summaryDeltasSeen_emitThinkingText p _).trans h.summaryDeltasSeen

theorem CodexTells.parseReasoningDone {item : JsonValue} (h : CodexTells t p)
    (hq : parseReasoningDone json p item = some q) :
    CodexTells
      { toTalk := (if t.thinking then t.toTalk else t.think (itemThought item)).close } q := by
  obtain ⟨p', happend, hq⟩ := Option.bind_eq_some_iff.1 hq
  obtain rfl := Option.some.inj hq
  have h' := (h.of_silent (Silent.appendReasoningItem happend)).talk
  refine ⟨tells_closeThinkingBlock ?_, rfl⟩
  by_cases hopen : p'.thinkingOpen = true
  · rw [if_pos hopen, if_pos (h'.thinking.symm.trans hopen)]
    exact h'
  · rw [if_neg hopen, if_neg fun ht => hopen (h'.thinking.trans ht), itemThought]
    cases reasoningSummaryJoin item with
    | none =>
      have hsame : t.think "" = t.toTalk := if_pos rfl
      rw [Option.map_none, Option.getD_none, hsame]
      exact h'
    | some summary =>
      rw [Option.map_some, Option.getD_some]
      dsimp only
      rw [emitSummaryText_eq]
      exact tells_emitThinkingText h' _

/-- An item that was added says nothing. -/
theorem CodexTells.parseItemAdded {event : JsonValue} (h : CodexTells t p)
    (hq : parseOutputItem json p event false = some q) : CodexTells t q := by
  obtain ⟨item, -, hq⟩ := Option.bind_eq_some_iff.1 hq
  obtain ⟨itemType, -, hq⟩ := Option.bind_eq_some_iff.1 hq
  split at hq
  · exact h.of_silent (Silent.upsertFunctionItem hq)
  · rw [if_neg fun hdone => absurd hdone.1 Bool.false_ne_true,
      if_neg fun hdone => absurd hdone.1 Bool.false_ne_true] at hq
    obtain rfl := Option.some.inj hq
    exact h

theorem CodexTells.parseItemDone {event : JsonValue} (h : CodexTells t p)
    (hq : parseOutputItem json p event true = some q) : CodexTells (t.itemDone event) q := by
  obtain ⟨item, hitem, hq⟩ := Option.bind_eq_some_iff.1 hq
  obtain ⟨itemType, htype, hq⟩ := Option.bind_eq_some_iff.1 hq
  rw [CodexTalk.itemDone, hitem]
  dsimp only
  rw [htype]
  by_cases hreasoning : itemType = "reasoning"
  · have hcall : ¬itemType = "function_call" := by
      rw [hreasoning]
      decide
    rw [if_neg hcall, if_pos ⟨rfl, hreasoning⟩] at hq
    rw [if_pos (congrArg some hreasoning)]
    exact h.parseReasoningDone hq
  · rw [if_neg fun hsome => hreasoning (Option.some.inj hsome)]
    split at hq
    · exact h.of_silent (Silent.upsertFunctionItem hq)
    · rw [if_neg fun hdone => hreasoning hdone.2] at hq
      split at hq
      · exact h.of_silent (Silent.captureMessagePhase hq)
      · obtain rfl := Option.some.inj hq
        exact h

/-- The types of events that say something. -/
def talkTypes : List String :=
  ["response.output_text.delta", "response.refusal.delta", "response.reasoning_summary_text.delta",
    "response.reasoning_summary_text.done", "response.output_item.done"]

theorem event_of_notMem {type : String} (h : type ∉ talkTypes) (event : JsonValue) :
    t.event type event = t := by
  simp only [talkTypes, List.mem_cons, List.not_mem_nil, or_false, not_or] at h
  rw [CodexTalk.event, if_neg (not_or.2 ⟨h.1, h.2.1⟩), if_neg h.2.2.1, if_neg h.2.2.2.1,
    if_neg h.2.2.2.2]

/-- **An event of the Codex stream** passes on what it says. -/
theorem CodexTells.takeData {data : List UInt8} (h : CodexTells t p)
    (hq : takeData json p data = some q) : CodexTells (t.data json data) q := by
  rw [EchoAi.takeData] at hq
  rw [CodexTalk.data]
  split at hq
  · next hdone =>
    obtain rfl := Option.some.inj hq
    rw [if_pos hdone]
    exact h.of_silent ⟨rfl, rfl, rfl⟩
  · next hdone =>
    rw [if_neg hdone]
    obtain ⟨event, hevent, hq⟩ := Option.bind_eq_some_iff.1 hq
    obtain ⟨type, htype, hq⟩ := Option.bind_eq_some_iff.1 hq
    rw [hevent]
    dsimp only
    rw [htype]
    dsimp only
    have hsilent : Silent p q → type ∉ talkTypes → CodexTells (t.event type event) q :=
      fun hsilent hother => by
        rw [event_of_notMem hother]
        exact h.of_silent hsilent
    refine of_ite_eq_some (fun heq hq => ?_) (fun h₁ hq => ?_) hq
    · rw [CodexTalk.event, if_pos (Or.inl heq)]
      exact h.parseTextDelta hq
    refine of_ite_eq_some (fun heq hq => ?_) (fun h₂ hq => ?_) hq
    · rw [heq]
      exact h.parseSummaryDelta hq
    refine of_ite_eq_some (fun heq hq => ?_) (fun h₃ hq => ?_) hq
    · obtain rfl := Option.some.inj hq
      rw [heq]
      exact h.parseSummaryDone event
    refine of_ite_eq_some (fun heq hq => ?_) (fun _ hq => ?_) hq
    · rw [heq, event_of_notMem (by decide)]
      exact h.parseItemAdded hq
    refine of_ite_eq_some (fun heq hq => ?_) (fun h₅ hq => ?_) hq
    · rw [heq]
      exact h.parseItemDone hq
    refine of_ite_eq_some (fun heq hq => ?_) (fun _ hq => ?_) hq
    · exact hsilent (Silent.parseArgumentDelta hq) (by rw [heq]; decide)
    refine of_ite_eq_some (fun heq hq => ?_) (fun _ hq => ?_) hq
    · exact hsilent (Silent.parseArgumentDelta hq) (by rw [heq]; decide)
    refine of_ite_eq_some (fun heq hq => ?_) (fun _ hq => ?_) hq
    · exact hsilent (Silent.parseCompleted hq) (by rw [heq]; decide)
    refine of_ite_eq_some (fun heq hq => ?_) (fun h₉ hq => ?_) hq
    · rw [CodexTalk.event, if_pos (Or.inr heq)]
      exact h.parseTextDelta hq
    have hother : type ∉ talkTypes := by
      simp only [talkTypes, List.mem_cons, List.not_mem_nil, or_false, not_or]
      exact ⟨h₁, h₉, h₂, h₃, h₅⟩
    refine of_ite_eq_some (fun _ hq => ?_) (fun _ hq => ?_) hq
    · refine of_ite_eq_some (fun _ hq => ?_) (fun _ hq => ?_) hq
      · exact absurd hq.symm (Option.some_ne_none q)
      · obtain rfl := Option.some.inj hq
        exact hsilent ⟨rfl, rfl, rfl⟩ hother
    refine of_ite_eq_some (fun _ hq => ?_) (fun _ hq => ?_) hq
    · obtain rfl := Option.some.inj hq
      exact hsilent ⟨rfl, rfl, rfl⟩ hother
    · obtain rfl := Option.some.inj hq
      exact hsilent ⟨rfl, rfl, rfl⟩ hother

theorem CodexTells.foldlM_takeData {datas : List (List UInt8)} (h : CodexTells t p)
    (hq : datas.foldlM (EchoAi.takeData json) p = some q) :
    CodexTells (datas.foldl (CodexTalk.data json) t) q := by
  induction datas generalizing t p with
  | nil =>
    obtain rfl := Option.some.inj hq
    exact h
  | cons data datas ih =>
    rw [List.foldlM_cons] at hq
    obtain ⟨p', hp', hrest⟩ := Option.bind_eq_some_iff.1 hq
    exact ih (h.takeData hp') hrest

/-! ### Marks -/

theorem regular_event (h : t.Regular) (type : String) (event : JsonValue) :
    (t.event type event).Regular := by
  rw [CodexTalk.event]
  split
  · exact h.speak _
  split
  · exact h.think _
  split
  · split
    · exact h
    · exact h.think _
  split
  · rw [CodexTalk.itemDone]
    split
    · exact h
    split
    · refine Talk.Regular.close ?_
      split
      · exact h
      · exact h.think _
    · exact h
  · exact h

theorem regular_data (h : t.Regular) (data : List UInt8) : (t.data json data).Regular := by
  rw [CodexTalk.data]
  split
  · exact h
  split
  · exact h
  split
  · exact h
  · exact regular_event h _ _

theorem regular_foldl (h : t.Regular) (datas : List (List UInt8)) :
    (datas.foldl (CodexTalk.data json) t).Regular := by
  induction datas generalizing t with
  | nil => exact h
  | cons data datas ih => exact ih (regular_data h data)

end Codex

/-! ## The stream of a compatible provider -/

namespace Compatible

/-- The talk behind a delta. -/
def talkDelta (t : Talk) (d : Delta) : Talk :=
  (t.think (d.reasoning.getD "")).speakSome (d.content.getD "")

/-- What is said in a stream, with the thoughts closed at its end. -/
def compatibleTalk (json : WireJson) (bytes : List UInt8) : Talk :=
  ((((streamTexts bytes).filterMap json.parse).map readDelta).foldl talkDelta {}).close

section Tells

variable {json : WireJson} {a b : StreamAnswer} {t : Talk}

theorem tells_say (h : Tells t a.thinkingOpen a.chunks) (text : String) :
    Tells { t with said := t.said ++ [.text text] } (a.say text).thinkingOpen (a.say text).chunks :=
  ⟨h.thinking, by rw [List.map_append, ← h.chunks]; rfl⟩

theorem tells_closeThinking (h : Tells t a.thinkingOpen a.chunks) :
    Tells t.close (closeThinking a).thinkingOpen (closeThinking a).chunks := by
  rw [closeThinking, Talk.close]
  by_cases hopen : a.thinkingOpen = true
  · rw [if_pos hopen, if_pos (h.thinking.symm.trans hopen)]
    exact ⟨rfl, by rw [List.map_append, ← h.chunks]; rfl⟩
  · rw [if_neg hopen, if_neg fun ht => hopen (h.thinking.trans ht)]
    exact h

theorem tells_forwardReasoningDelta (h : Tells t a.thinkingOpen a.chunks) (text : String) :
    Tells (t.think text) (forwardReasoningDelta a text).thinkingOpen
      (forwardReasoningDelta a text).chunks := by
  rw [forwardReasoningDelta, Talk.think]
  split
  · exact h
  · by_cases hopen : a.thinkingOpen = true
    · have ht : t.thinking = true := h.thinking.symm.trans hopen
      rw [if_pos hopen, if_pos ht, List.append_nil]
      exact ⟨hopen, by rw [List.map_append, ← h.chunks]; rfl⟩
    · have ht : ¬t.thinking = true := fun ht => hopen (h.thinking.trans ht)
      rw [if_neg hopen, if_neg ht]
      exact ⟨rfl, by rw [List.map_append, List.map_append, ← h.chunks]; rfl⟩

theorem tells_forwardContent (h : Tells t a.thinkingOpen a.chunks) (text : String) :
    Tells (t.speakSome text) (forwardContent a text).thinkingOpen
      (forwardContent a text).chunks := by
  rw [forwardContent, Talk.speakSome]
  split
  · exact h
  · exact tells_say (tells_closeThinking h) text

/-- An event passes on what it says. -/
theorem tells_apply (h : Tells t a.thinkingOpen a.chunks) {d : Delta} (hb : d.apply a = some b) :
    Tells (talkDelta t d) b.thinkingOpen b.chunks := by
  obtain ⟨calls, -, hb⟩ := Option.bind_eq_some_iff.1 hb
  obtain rfl := Option.some.inj hb
  exact tells_forwardContent (tells_forwardReasoningDelta h _) _

theorem tells_foldlM_parseStreamEvent {texts : List (List UInt8)}
    (h : Tells t a.thinkingOpen a.chunks) (hb : texts.foldlM (parseStreamEvent json) a = some b) :
    Tells (((texts.filterMap json.parse).map readDelta).foldl talkDelta t) b.thinkingOpen
      b.chunks := by
  induction texts generalizing t a with
  | nil =>
    obtain rfl := Option.some.inj hb
    exact h
  | cons text texts ih =>
    rw [List.foldlM_cons] at hb
    obtain ⟨a', hevent, hrest⟩ := Option.bind_eq_some_iff.1 hb
    cases hparse : json.parse text with
    | none =>
      rw [parseStreamEvent, hparse] at hevent
      exact absurd hevent.symm (Option.some_ne_none a')
    | some event =>
      rw [parseStreamEvent_eq hparse] at hevent
      rw [List.filterMap_cons_some hparse]
      exact ih (tells_apply h hevent) hrest

theorem regular_foldl (h : t.Regular) (deltas : List Delta) :
    (deltas.foldl talkDelta t).Regular := by
  induction deltas generalizing t with
  | nil => exact h
  | cons d deltas ih => exact ih ((h.think _).speakSome _)

end Tells

/-- The content is what `on_chunk` got. -/
def Kept (a : StreamAnswer) : Prop := a.content.getD "" = String.join a.chunks

section Kept

variable {json : WireJson} {a b : StreamAnswer}

theorem Kept.say (h : Kept a) (text : String) : Kept (a.say text) := getD_content_say h text

theorem Kept.closeThinking (h : Kept a) : Kept (closeThinking a) := by
  rw [Compatible.closeThinking]
  split
  · exact h.say _
  · exact h

theorem Kept.forwardReasoningDelta (h : Kept a) (text : String) :
    Kept (forwardReasoningDelta a text) := by
  rw [Compatible.forwardReasoningDelta]
  split
  · exact h
  · dsimp only
    split
    · exact h.say text
    · exact Kept.say (a := { a.say "<think>\n" with thinkingOpen := true }) (h.say _) text

theorem Kept.forwardContent (h : Kept a) (text : String) : Kept (forwardContent a text) := by
  rw [Compatible.forwardContent]
  split
  · exact h
  · exact h.closeThinking.say text

theorem Kept.apply (h : Kept a) {d : Delta} (hb : d.apply a = some b) : Kept b := by
  obtain ⟨calls, -, hb⟩ := Option.bind_eq_some_iff.1 hb
  obtain rfl := Option.some.inj hb
  exact (h.forwardReasoningDelta _).forwardContent _

theorem Kept.foldlM_parseStreamEvent {texts : List (List UInt8)} (h : Kept a)
    (hb : texts.foldlM (parseStreamEvent json) a = some b) : Kept b := by
  induction texts generalizing a with
  | nil =>
    obtain rfl := Option.some.inj hb
    exact h
  | cons text texts ih =>
    rw [List.foldlM_cons] at hb
    obtain ⟨a', hevent, hrest⟩ := Option.bind_eq_some_iff.1 hb
    obtain ⟨event, hparse, -⟩ := Option.bind_eq_some_iff.1 hevent
    rw [parseStreamEvent_eq hparse] at hevent
    exact ih (h.apply hevent) hrest

end Kept

end Compatible

/-! ## The stream of Ollama -/

/-- The talk behind a message. -/
def talkMessage (t : Talk) (msg : JsonValue) : Talk :=
  (t.think (memberText msg "thinking")).speakSome (memberText msg "content")

/-- The messages in the lines of a stream. -/
def streamMessages (json : WireJson) (bytes : List UInt8) : List JsonValue :=
  (answerLines bytes).filterMap (lineMessage json)

/-- What is said in a stream; nothing closes the thoughts at its end. -/
def ollamaTalk (json : WireJson) (bytes : List UInt8) : Talk :=
  (streamMessages json bytes).foldl talkMessage {}

section Ollama

variable {json : WireJson} {buf : WriteBuf} {t : Talk}

theorem tells_forwardThinking (h : Tells t buf.thinkingOpen buf.chunks) (thinking : String) :
    Tells (t.think thinking) (forwardThinking buf thinking).thinkingOpen
      (forwardThinking buf thinking).chunks := by
  rw [forwardThinking, Talk.think]
  split
  · exact h
  · by_cases hopen : buf.thinkingOpen = true
    · rw [if_pos hopen, if_pos (h.thinking.symm.trans hopen)]
      exact ⟨rfl, by rw [List.map_append, List.map_append, ← h.chunks]; rfl⟩
    · rw [if_neg hopen, if_neg fun ht => hopen (h.thinking.trans ht)]
      exact ⟨rfl, by rw [List.map_append, List.map_append, ← h.chunks]; rfl⟩

theorem tells_forwardContent (h : Tells t buf.thinkingOpen buf.chunks) (content : String) :
    Tells (t.speakSome content) (forwardContent buf content).thinkingOpen
      (forwardContent buf content).chunks := by
  rw [forwardContent, Talk.speakSome, Talk.speak, Talk.close]
  split
  · exact h
  · by_cases hopen : buf.thinkingOpen = true
    · rw [if_pos hopen, if_pos (h.thinking.symm.trans hopen)]
      exact ⟨rfl, by rw [List.map_append, List.map_append, ← h.chunks]; rfl⟩
    · have ht : ¬t.thinking = true := fun ht => hopen (h.thinking.trans ht)
      rw [if_neg hopen, if_neg ht, List.append_nil]
      exact ⟨(Bool.eq_false_iff.2 ht).symm, by rw [List.map_append, ← h.chunks]; rfl⟩

/-- A message passes on what it says. -/
theorem tells_forwardChunk (h : Tells t buf.thinkingOpen buf.chunks) (msg : JsonValue) :
    Tells (talkMessage t msg) (forwardChunk buf msg).thinkingOpen (forwardChunk buf msg).chunks :=
  tells_forwardContent (tells_forwardThinking h _) _

theorem tells_takeLine (h : Tells t buf.thinkingOpen buf.chunks) (line : List UInt8) :
    Tells ((lineMessage json line).toList.foldl talkMessage t) (takeLine json buf line).thinkingOpen
      (takeLine json buf line).chunks := by
  rw [takeLine]
  cases lineMessage json line with
  | none => exact h
  | some msg => exact tells_forwardChunk h msg

theorem tells_takeRest (h : Tells t buf.thinkingOpen buf.chunks) :
    Tells ((lineMessage json buf.data).toList.foldl talkMessage t) (takeRest json buf).thinkingOpen
      (takeRest json buf).chunks := by
  rw [takeRest]
  cases lineMessage json buf.data with
  | none => exact h
  | some msg => exact tells_forwardChunk h msg

theorem tells_foldl_takeLine (h : Tells t buf.thinkingOpen buf.chunks) (lines : List (List UInt8)) :
    Tells ((lines.filterMap (lineMessage json)).foldl talkMessage t)
      (lines.foldl (takeLine json) buf).thinkingOpen (lines.foldl (takeLine json) buf).chunks := by
  induction lines generalizing t buf with
  | nil => exact h
  | cons line lines ih =>
    rw [Compatible.filterMap_cons_toList, List.foldl_append]
    exact ih (tells_takeLine h line)

/-- A whole stream of Ollama passes on what its messages say. -/
theorem tells_ollamaChatRequest (json : WireJson) (pieces : List (List UInt8)) :
    Tells (ollamaTalk json pieces.flatten) (ollamaChatRequest json pieces).thinkingOpen
      (ollamaChatRequest json pieces).chunks := by
  have hstart : Between ({} : WriteBuf) := ⟨rfl, List.not_mem_nil⟩
  obtain ⟨complete, last, hsplit, hfold⟩ := @foldl_writeByte_eq json pieces.flatten {}
  have hlines : Tells ((complete.filterMap (lineMessage json)).foldl talkMessage {})
      (complete.foldl (takeLine json) {}).thinkingOpen (complete.foldl (takeLine json) {}).chunks :=
    tells_foldl_takeLine tells_start complete
  rw [ollamaChatRequest, foldl_writeCb pieces hstart, ollamaTalk, streamMessages, hsplit,
    List.filterMap_append, List.foldl_append, Compatible.filterMap_cons_toList, List.filterMap_nil,
    List.append_nil]
  have hbuf : pieces.flatten.foldl (writeByte json) {} =
      { complete.foldl (takeLine json) {} with data := last } := hfold
  have hrest : Tells ((complete.filterMap (lineMessage json)).foldl talkMessage {})
      { complete.foldl (takeLine json) {} with data := last : WriteBuf }.thinkingOpen
      { complete.foldl (takeLine json) {} with data := last : WriteBuf }.chunks := hlines
  rw [hbuf]
  exact tells_takeRest hrest

theorem regular_foldl_talkMessage (h : t.Regular) (msgs : List JsonValue) :
    (msgs.foldl talkMessage t).Regular := by
  induction msgs generalizing t with
  | nil => exact h
  | cons msg msgs ih => exact ih ((h.think _).speakSome _)

end Ollama

/-- The last message that says something has a thought and no answer. -/
def EndsInThought (msgs : List JsonValue) : Prop :=
  ∃ front msg behind, msgs = front ++ msg :: behind ∧ memberText msg "thinking" ≠ "" ∧
    memberText msg "content" = "" ∧
    ∀ m ∈ behind, memberText m "thinking" = "" ∧ memberText m "content" = ""

theorem thinking_talkMessage (t : Talk) (msg : JsonValue) :
    (talkMessage t msg).thinking = true ↔ memberText msg "content" = "" ∧
      (memberText msg "thinking" ≠ "" ∨ t.thinking = true) := by
  rw [talkMessage, Talk.speakSome, Talk.speak, Talk.think]
  by_cases hcontent : memberText msg "content" = ""
  · rw [if_pos hcontent, and_iff_right hcontent]
    by_cases hthinking : memberText msg "thinking" = ""
    · rw [if_pos hthinking]
      exact ⟨Or.inr, fun h => h.resolve_left fun hne => hne hthinking⟩
    · rw [if_neg hthinking]
      exact iff_of_true rfl (Or.inl hthinking)
  · rw [if_neg hcontent]
    refine iff_of_false (fun h => ?_) fun h => hcontent h.1
    exact Bool.false_ne_true ((Talk.thinking_close _).symm.trans h)

/-- A stream of Ollama ends within thoughts when its last text is one. -/
theorem thinking_foldl_iff (msgs : List JsonValue) :
    (msgs.foldl talkMessage {}).thinking = true ↔ EndsInThought msgs := by
  induction msgs using List.reverseRecOn with
  | nil =>
    refine iff_of_false Bool.false_ne_true ?_
    rintro ⟨front, msg, behind, h, -⟩
    exact absurd h (by simp)
  | append_singleton msgs last ih =>
    rw [List.foldl_concat, thinking_talkMessage, ih]
    constructor
    · rintro ⟨hcontent, hthinking | ⟨front, msg, behind, rfl, hmsg, hnone, hbehind⟩⟩
      · exact ⟨msgs, last, [], rfl, hthinking, hcontent, fun m hm => absurd hm List.not_mem_nil⟩
      · by_cases hthinking : memberText last "thinking" = ""
        · refine ⟨front, msg, behind ++ [last], by simp, hmsg, hnone, ?_⟩
          rw [List.forall_mem_append, List.forall_mem_singleton]
          exact ⟨hbehind, hthinking, hcontent⟩
        · exact ⟨_, last, [], rfl, hthinking, hcontent, fun m hm => absurd hm List.not_mem_nil⟩
    · rintro ⟨front, msg, behind, hsplit, hmsg, hnone, hbehind⟩
      induction behind using List.reverseRecOn with
      | nil =>
        obtain ⟨-, hlast⟩ := List.append_inj' hsplit rfl
        obtain rfl := List.singleton_inj.1 hlast
        exact ⟨hnone, Or.inl hmsg⟩
      | append_singleton behind m =>
        rw [List.forall_mem_append, List.forall_mem_singleton] at hbehind
        rw [← List.cons_append, ← List.append_assoc] at hsplit
        obtain ⟨rfl, hlast⟩ := List.append_inj' hsplit rfl
        obtain rfl := List.singleton_inj.1 hlast
        exact ⟨hbehind.2.2, Or.inr ⟨front, msg, behind, rfl, hmsg, hnone, hbehind.1⟩⟩

/-! ## All three -/

/-- The providers whose answers are streamed. -/
inductive StreamProvider where
  | codex
  | compatible
  | ollama
  deriving DecidableEq, Repr

/-- What was said has balanced marks, went to `on_chunk` and is the content. -/
structure Closed (said : List Said) (texts : List String) (whole : String) : Prop where
  balanced : Balanced said
  chunks : texts = said.map Said.render
  content : whole = String.join texts

/-- A stream that is finished leaves no thoughts open. -/
def Closes (json : WireJson) (pieces : List (List UInt8)) : StreamProvider → Prop
  | .codex => ∀ response chunks, streamRun json pieces = some (response, chunks) →
      Closed (codexTalk json pieces.flatten).said chunks (response.content.getD "")
  | .compatible => ∀ a, Compatible.streamRun json pieces = some a →
      Closed (Compatible.compatibleTalk json pieces.flatten).said a.chunks (a.content.getD "")
  | .ollama => Closed (ollamaTalk json pieces.flatten).said (ollamaChatRequest json pieces).chunks
      ((ollamaChatStreaming json pieces).content.getD "")

theorem closes_codex (json : WireJson) (pieces : List (List UInt8)) :
    Closes json pieces .codex := by
  intro response chunks h
  have hcontent :=
    (streamRun_congr json (rfl : pieces.flatten = pieces.flatten)).2 response chunks h
  obtain ⟨p, hevents, -, -, rfl⟩ := exists_of_streamRun h
  have hstart : CodexTells {} {} := ⟨tells_start, rfl⟩
  have htells := hstart.foldlM_takeData hevents
  refine ⟨(regular_foldl Talk.regular_start _).balanced_close, ?_, ?_⟩
  · exact (tells_closeThinkingBlock htells.talk).chunks
  · rw [hcontent, Option.getD_some]

theorem closes_compatible (json : WireJson) (pieces : List (List UInt8)) :
    Closes json pieces .compatible := by
  intro a h
  rw [Compatible.streamRun_eq, Option.map_eq_some_iff] at h
  obtain ⟨b, hevents, rfl⟩ := h
  have htells := Compatible.tells_foldlM_parseStreamEvent tells_start hevents
  refine ⟨(Compatible.regular_foldl Talk.regular_start _).balanced_close, ?_, ?_⟩
  · exact (Compatible.tells_closeThinking htells).chunks
  · exact (Compatible.Kept.foldlM_parseStreamEvent (a := {}) rfl hevents).closeThinking

theorem closes_ollama_iff (json : WireJson) (pieces : List (List UInt8)) :
    Closes json pieces .ollama ↔ ¬EndsInThought (streamMessages json pieces.flatten) := by
  have hregular : (ollamaTalk json pieces.flatten).Regular :=
    regular_foldl_talkMessage Talk.regular_start _
  rw [← thinking_foldl_iff, Bool.not_eq_true]
  constructor
  · exact fun h => hregular.balanced_iff.1 h.balanced
  · intro h
    refine ⟨hregular.balanced_iff.2 h, (tells_ollamaChatRequest json pieces).chunks, ?_⟩
    rw [ollamaChatStreaming]
    dsimp only
    split
    · next hnone => rw [hnone]; rfl
    · rfl

/-- **Thoughts are closed at the end** of every stream, but for those of Ollama that end within
them. -/
theorem closes_iff (json : WireJson) (pieces : List (List UInt8)) (provider : StreamProvider) :
    Closes json pieces provider ↔
      (provider = .ollama → ¬EndsInThought (streamMessages json pieces.flatten)) := by
  cases provider with
  | codex => exact iff_of_true (closes_codex json pieces) fun h => StreamProvider.noConfusion h
  | compatible =>
    exact iff_of_true (closes_compatible json pieces) fun h => StreamProvider.noConfusion h
  | ollama =>
    rw [closes_ollama_iff]
    exact ⟨fun h _ => h, fun h => h rfl⟩

/-- A message that is a thought. -/
def thoughtLine : List UInt8 :=
  ascii "\x7b\"message\":\x7b\"thinking\":\"hm\"\x7d\x7d\n"

/-- The thoughts of a stream that ends within them stay open. -/
theorem not_closes_ollama :
    (ollamaChatStreaming byteJson [thoughtLine]).content = some "<think>\nhm" ∧
      ¬Closes byteJson [thoughtLine] .ollama := by
  refine ⟨by rw [byteJson_eq]; decide +kernel, fun h => ?_⟩
  have htalk : ollamaTalk byteJson [thoughtLine].flatten =
      { thinking := true, said := [.opening, .text "hm"] } := by
    rw [byteJson_eq]
    decide +kernel
  obtain ⟨n, hn⟩ := h.balanced
  rw [htalk] at hn
  have hlength : 1 = 2 * n := (congrArg List.length hn).trans (Talk.length_marks n)
  omega

end EchoAi
