import EchoAi.Llm.Compatible
import Mathlib.Data.List.Basic

/-!
# A streamed answer is the answer read at once

* `SentLine`, `deliver`: the lines of a stream and its bytes; `streamRun_deliver`: however the bytes
  are cut, the events of the lines come one after the other.
* `Spoken`, `Collected`: what the reader has when some texts and some fragments of calls came, with
  `exists_foldlM_apply` for a whole stream.
* `Reply`, `ReplyHolds`, `Delivered`: a reply, an answer that holds it and a stream that delivers
  it; `sameReply_of_delivered` compares the two.
-/

namespace EchoAi.Compatible

section Lines

variable (json : WireJson)

/-! ## The lines of a stream -/

/-- A line as a server sends it, with or without a carriage return behind its text. -/
structure SentLine where
  text : List UInt8
  cr : Bool := false
  noLf : 10 ∉ text
  noNul : 0 ∉ text
  noCr : text.getLast? ≠ some 13

/-- The bytes of a line before the line feed. -/
def SentLine.bytes (l : SentLine) : List UInt8 := l.text ++ if l.cr then [13] else []

/-- The bytes of a stream whose last line has no line feed. -/
def deliver (lines : List SentLine) (last : SentLine) : List UInt8 :=
  lines.flatMap (fun l => l.bytes ++ [10]) ++ last.bytes

/-- The texts of the events in some lines. -/
def eventTexts (lines : List SentLine) : List (List UInt8) :=
  lines.filterMap fun l => lineEvent l.text

theorem eventTexts_cons_some {l : SentLine} {lines : List SentLine} {text : List UInt8}
    (h : lineEvent l.text = some text) : eventTexts (l :: lines) = text :: eventTexts lines :=
  List.filterMap_cons_some h

theorem eventTexts_cons_none {l : SentLine} {lines : List SentLine} (h : lineEvent l.text = none) :
    eventTexts (l :: lines) = eventTexts lines :=
  List.filterMap_cons_none h

theorem SentLine.noLf_bytes (l : SentLine) : 10 ∉ l.bytes := by
  rw [SentLine.bytes, List.mem_append, not_or]
  refine ⟨l.noLf, ?_⟩
  split <;> decide

/-- The text of a line without its carriage return. -/
theorem SentLine.stripCr_bytes (l : SentLine) : stripCr l.bytes = l.text := by
  rw [SentLine.bytes, stripCr]
  cases l.cr with
  | true =>
    rw [if_pos rfl, List.getLast?_concat, if_pos rfl, List.dropLast_concat]
  | false =>
    rw [if_neg Bool.false_ne_true, List.append_nil, if_neg l.noCr]

theorem takeLine_bytes (a : StreamAnswer) (l : SentLine) :
    takeLine json a l.bytes = (lineEvent l.text).elim (some a) (parseStreamEvent json a) := by
  rw [takeLine, l.stripCr_bytes, cString_of_notMem l.noNul]
  cases lineEvent l.text <;> rfl

theorem lineEvent_nil : lineEvent [] = none := by decide +kernel

/-- The bytes of a line are kept until it is over. -/
theorem foldlM_feedByte_of_notMem {line : List UInt8} (h : 10 ∉ line) (p : StreamParser) :
    line.foldlM (feedByte json) p = some { p with line := p.line ++ line } := by
  induction line generalizing p with
  | nil => rw [List.append_nil]; rfl
  | cons b line ih =>
    obtain ⟨hb, hline⟩ := not_or.1 (mt List.mem_cons.2 h)
    rw [List.foldlM_cons, feedByte, if_neg (Ne.symm hb)]
    refine (ih hline _).trans ?_
    rw [List.append_assoc, List.singleton_append]

/-- A whole line. -/
theorem foldlM_feedByte_line (a : StreamAnswer) (l : SentLine) :
    (l.bytes ++ [10]).foldlM (feedByte json) { answer := a } =
      (takeLine json a l.bytes).map fun b => { answer := b } := by
  rw [List.foldlM_append, foldlM_feedByte_of_notMem json l.noLf_bytes]
  refine (bind_pure (feedByte json { answer := a, line := [] ++ l.bytes } 10)).trans ?_
  rw [feedByte, if_pos rfl, List.nil_append]

/-- The lines that are over. -/
theorem foldlM_feedByte_lines (lines : List SentLine) (a : StreamAnswer) :
    (lines.flatMap fun l => l.bytes ++ [10]).foldlM (feedByte json) { answer := a } =
      (lines.foldlM (fun b l => takeLine json b l.bytes) a).map fun b => { answer := b } := by
  induction lines generalizing a with
  | nil => rfl
  | cons l lines ih =>
    rw [List.flatMap_cons, List.foldlM_append, foldlM_feedByte_line, List.foldlM_cons]
    cases takeLine json a l.bytes with
    | none => rfl
    | some b => exact ih b

/-- The lines that carry no event change nothing. -/
theorem foldlM_takeLine (lines : List SentLine) (a : StreamAnswer) :
    lines.foldlM (fun b l => takeLine json b l.bytes) a =
      (eventTexts lines).foldlM (parseStreamEvent json) a := by
  rw [eventTexts, List.foldlM_filterMap]
  congr 1
  funext b l
  rw [takeLine_bytes]
  cases lineEvent l.text <;> rfl

/-- How the bytes are cut makes no difference. -/
theorem foldlM_streamParserFeed (pieces : List (List UInt8)) (p : StreamParser) :
    pieces.foldlM (streamParserFeed json) p = pieces.flatten.foldlM (feedByte json) p := by
  induction pieces generalizing p with
  | nil => rfl
  | cons bytes pieces ih =>
    rw [List.foldlM_cons, List.flatten_cons, List.foldlM_append, streamParserFeed]
    congr 1
    funext q
    exact ih q

/-- The end of a stream behind a line that may have begun. -/
theorem streamParserFinish_bytes (a : StreamAnswer) (l : SentLine) :
    streamParserFinish json { answer := a, line := l.bytes } =
      (takeLine json a l.bytes).map closeThinking := by
  rw [streamParserFinish]
  split
  · next hnil =>
    have htext : l.text = [] := (List.append_eq_nil_iff.1 hnil).1
    rw [takeLine_bytes, htext, lineEvent_nil]
    rfl
  · rfl

/-- The events of a stream come one after the other, and then the block is closed. -/
theorem streamRun_deliver {pieces : List (List UInt8)} {lines : List SentLine} {last : SentLine}
    (h : pieces.flatten = deliver lines last) :
    streamRun json pieces = ((eventTexts (lines ++ [last])).foldlM (parseStreamEvent json) {}).map
      closeThinking := by
  rw [streamRun, foldlM_streamParserFeed, h, deliver, List.foldlM_append, ← foldlM_takeLine,
    List.foldlM_append]
  have hlines := foldlM_feedByte_lines json lines {}
  rw [hlines]
  cases lines.foldlM (fun b l => takeLine json b l.bytes) {} with
  | none => rfl
  | some a =>
    have hlast := foldlM_feedByte_of_notMem json last.noLf_bytes { answer := a }
    refine (congrArg (· >>= streamParserFinish json) hlast).trans ?_
    refine (streamParserFinish_bytes json a last).trans ?_
    exact (congrArg (Option.map closeThinking) (bind_pure (takeLine json a last.bytes))).symm

/-- An event that parses does what its delta says, one event after the other. -/
theorem foldlM_parseStreamEvent {texts : List (List UInt8)} {events : List JsonValue}
    (h : texts.mapM json.parse = some events) (a : StreamAnswer) :
    texts.foldlM (parseStreamEvent json) a =
      (events.map readDelta).foldlM (fun b d => d.apply b) a := by
  induction texts generalizing events a with
  | nil =>
    rw [← Option.some.inj h]
    rfl
  | cons text texts ih =>
    rw [List.mapM_cons] at h
    obtain ⟨event, hevent, h⟩ := Option.bind_eq_some_iff.1 h
    obtain ⟨rest, hrest, h⟩ := Option.bind_eq_some_iff.1 h
    rw [← Option.some.inj h, List.foldlM_cons, List.map_cons, List.foldlM_cons,
      parseStreamEvent_eq hevent]
    congr 1
    funext b
    exact ih hrest b

end Lines

/-! ## The texts of a stream -/

/-- A text that is absent when it is empty. -/
def presentText (text : String) : Option String := if text = "" then none else some text

/-- What the content is when a reasoning and a text came, nothing when neither did. -/
def saidContent (thought said : String) : Option String :=
  if thought = "" then presentText said
  else if said = "" then some ("<think>\n" ++ thought)
  else some ("<think>\n" ++ thought ++ "\n</think>\n\n" ++ said)

/-- The same when the block of the reasoning is closed. -/
def closedContent (thought said : String) : Option String :=
  if thought = "" then presentText said
  else some ("<think>\n" ++ thought ++ "\n</think>\n\n" ++ said)

theorem getD_presentText (text : String) : (presentText text).getD "" = text := by
  rw [presentText]
  split
  · next h => exact h.symm
  · rfl

/-- The answer after a reasoning and a text. -/
structure Spoken (thought said : String) (a : StreamAnswer) : Prop where
  content : a.content = saidContent thought said
  thinkingOpen : a.thinkingOpen = decide (thought ≠ "" ∧ said = "")
  chunks : a.content.getD "" = String.join a.chunks

theorem spoken_start : Spoken "" "" {} := ⟨rfl, rfl, rfl⟩

/-- The texts for `on_chunk` stay together with the content. -/
theorem getD_content_say {a : StreamAnswer} (h : a.content.getD "" = String.join a.chunks)
    (text : String) : (a.say text).content.getD "" = String.join (a.say text).chunks := by
  show a.content.getD "" ++ text = String.join (a.chunks ++ [text])
  rw [h, String.join_append, String.join_cons, String.join_nil, String.append_empty]

namespace Spoken

variable {thought said : String} {a : StreamAnswer}

theorem append_ne_empty (front : String) {text : String} (h : text ≠ "") : front ++ text ≠ "" :=
  fun hnil => h (String.append_eq_empty_iff.1 hnil).2

/-- More reasoning, before there is a text. -/
theorem forwardReasoningDelta (h : Spoken thought said a) {text : String}
    (horder : said = "" ∨ text = "") :
    Spoken (thought ++ text) said (forwardReasoningDelta a text) := by
  rw [Compatible.forwardReasoningDelta]
  split
  · next hnil =>
    rwa [hnil, String.append_empty]
  · next htext =>
    have hempty : said = "" := horder.resolve_right htext
    subst hempty
    have hmore := append_ne_empty thought htext
    have hopen : decide (thought ++ text ≠ "" ∧ "" = "") = true := decide_eq_true ⟨hmore, rfl⟩
    have hsaid : saidContent (thought ++ text) "" = some ("<think>\n" ++ (thought ++ text)) := by
      rw [saidContent, if_neg hmore, if_pos rfl]
    have hthinking := h.thinkingOpen
    have hcontent := h.content
    by_cases hthought : thought = ""
    · -- The block is opened.
      subst hthought
      have hclosed : a.thinkingOpen = false := hthinking
      have hnone : a.content = none := hcontent
      rw [hclosed, if_neg Bool.false_ne_true]
      refine ⟨?_, hopen.symm, getD_content_say (getD_content_say h.chunks _) text⟩
      rw [hsaid]
      show some ((some (a.content.getD "" ++ "<think>\n")).getD "" ++ text) = _
      rw [hnone, String.empty_append]
      rfl
    · have hstill : a.thinkingOpen = true := hthinking.trans (decide_eq_true ⟨hthought, rfl⟩)
      rw [saidContent, if_neg hthought, if_pos rfl] at hcontent
      rw [hstill, if_pos rfl]
      refine ⟨?_, hstill.trans hopen.symm, getD_content_say h.chunks text⟩
      rw [hsaid]
      show some (a.content.getD "" ++ text) = _
      rw [hcontent, ← String.append_assoc]
      rfl

/-- The block is closed before more text. -/
theorem closeThinking (h : Spoken thought said a) :
    (closeThinking a).content = closedContent thought said ∧
      (closeThinking a).thinkingOpen = false ∧
      (closeThinking a).content.getD "" = String.join (closeThinking a).chunks := by
  rw [Compatible.closeThinking]
  have hcontent := h.content
  split
  · next hopen =>
    obtain ⟨hthought, hempty⟩ := of_decide_eq_true (h.thinkingOpen.symm.trans hopen)
    subst hempty
    refine ⟨?_, rfl, getD_content_say h.chunks _⟩
    rw [saidContent, if_neg hthought, if_pos rfl] at hcontent
    rw [closedContent, if_neg hthought, String.append_empty]
    show some (a.content.getD "" ++ _) = _
    rw [hcontent]
    rfl
  · next hclosed =>
    have hfalse : a.thinkingOpen = false := Bool.eq_false_iff.2 hclosed
    have hnot := of_decide_eq_false (h.thinkingOpen.symm.trans hfalse)
    refine ⟨?_, hfalse, h.chunks⟩
    rw [hcontent, saidContent, closedContent]
    split
    · rfl
    · next hthought => rw [if_neg fun hempty => hnot ⟨hthought, hempty⟩]

/-- Text behind a closed block. -/
theorem closedContent_append (thought said : String) {text : String} (htext : text ≠ "") :
    some ((closedContent thought said).getD "" ++ text) = saidContent thought (said ++ text) := by
  have hmore := append_ne_empty said htext
  rw [closedContent, saidContent, if_neg hmore]
  split
  · rw [getD_presentText, presentText, if_neg hmore]
  · rw [← String.append_assoc]
    rfl

/-- More text. -/
theorem forwardContent (h : Spoken thought said a) (text : String) :
    Spoken thought (said ++ text) (forwardContent a text) := by
  rw [Compatible.forwardContent]
  split
  · next hnil =>
    rwa [hnil, String.append_empty]
  · next htext =>
    obtain ⟨hcontent, hclosed, hchunks⟩ := h.closeThinking
    have hmore := append_ne_empty said htext
    refine ⟨?_, ?_, getD_content_say hchunks text⟩
    · show some ((Compatible.closeThinking a).content.getD "" ++ text) = _
      rw [hcontent, closedContent_append thought said htext]
    · show (Compatible.closeThinking a).thinkingOpen = _
      rw [hclosed, decide_eq_false fun hboth => hmore hboth.2]

/-- One delta. -/
theorem speak (h : Spoken thought said a) {d : Delta}
    (horder : said = "" ∨ d.reasoning.getD "" = "") :
    Spoken (thought ++ d.reasoning.getD "") (said ++ d.content.getD "") (d.speak a) :=
  (h.forwardReasoningDelta horder).forwardContent _

end Spoken

/-! ## The calls of a stream -/

/-- The fragments of one text of the call at an index. -/
def textsAt (field : CallDelta → Option String) (fragments : List CallDelta) (k : Nat) :
    List String :=
  (fragments.filter fun f => decide (f.index = (k : Int))).filterMap field

/-- Some fragments together; a text without a fragment is absent. -/
def joined (texts : List String) : Option String :=
  if texts = [] then none else some (String.join texts)

/-- The call at an index. -/
def callAt (fragments : List CallDelta) (k : Nat) : ToolCall where
  id := joined (textsAt CallDelta.id fragments k)
  name := joined (textsAt CallDelta.name fragments k)
  arguments := joined (textsAt CallDelta.arguments fragments k)

theorem getD_joined (texts : List String) : (joined texts).getD "" = String.join texts := by
  rw [joined]
  split
  · next h => rw [h]; rfl
  · rfl

theorem joined_append (texts : List String) (text : Option String) :
    joined (texts ++ text.toList) = strAppendItem (joined texts) text := by
  cases text with
  | none => rw [Option.toList_none, List.append_nil]; rfl
  | some text =>
    show joined (texts ++ [text]) = some ((joined texts).getD "" ++ text)
    rw [getD_joined, joined, if_neg (List.append_ne_nil_of_right_ne_nil _ (List.cons_ne_nil _ _)),
      String.join_append, String.join_cons, String.join_nil, String.append_empty]

/-- One more fragment. -/
theorem textsAt_append (field : CallDelta → Option String) (fragments : List CallDelta)
    (f : CallDelta) (k : Nat) :
    textsAt field (fragments ++ [f]) k =
      textsAt field fragments k ++ if f.index = k then (field f).toList else [] := by
  rw [textsAt, textsAt, List.filter_append, List.filterMap_append]
  congr 1
  split
  · next h =>
    rw [List.filter_singleton, decide_eq_true h]
    cases hf : field f <;> simp [hf]
  · next h =>
    rw [List.filter_singleton, decide_eq_false h]
    rfl

theorem callAt_append (fragments : List CallDelta) (f : CallDelta) (k : Nat) :
    callAt (fragments ++ [f]) k =
      if f.index = k then f.addTo (callAt fragments k) else callAt fragments k := by
  simp only [callAt, textsAt_append]
  split
  · rw [joined_append, joined_append, joined_append]
    rfl
  · simp only [List.append_nil]

/-- At an index without a fragment there is an empty call. -/
theorem callAt_of_forall_ne {fragments : List CallDelta} {k : Nat}
    (h : ∀ f ∈ fragments, f.index ≠ k) : callAt fragments k = { } := by
  have hnone : fragments.filter (fun f => decide (f.index = (k : Int))) = [] :=
    List.filter_eq_nil_iff.2 fun f hf => by simpa using h f hf
  simp only [callAt, textsAt, hnone]
  rfl

/-- The calls after some fragments, of which there are not more than so many. -/
structure Collected (count : Nat) (fragments : List CallDelta) (calls : List ToolCall) : Prop where
  length_le : calls.length ≤ count
  index_lt : ∀ f ∈ fragments, f.index < calls.length
  getElem? : ∀ k < calls.length, calls[k]? = some (callAt fragments k)

theorem collected_start (count : Nat) : Collected count [] [] :=
  ⟨Nat.zero_le _, fun _ hf => absurd hf List.not_mem_nil, fun _ hk => absurd hk (Nat.not_lt_zero _)⟩

/-- One more fragment. -/
theorem Collected.addCallDelta {count : Nat} {fragments : List CallDelta} {calls : List ToolCall}
    (h : Collected count fragments calls) {f : CallDelta} (hzero : 0 ≤ f.index)
    (hcount : f.index < count) :
    ∃ more, addCallDelta calls f = some more ∧ Collected count (fragments ++ [f]) more := by
  obtain ⟨i, hi⟩ := Int.eq_ofNat_of_zero_le hzero
  have hlt : i < count := by omega
  let grown := calls ++ List.replicate (i + 1 - calls.length) ({ } : ToolCall)
  have hgrown : grown.length = calls.length + (i + 1 - calls.length) := by
    rw [List.length_append, List.length_replicate]
  have hat : ∀ k < grown.length, grown[k]? = some (callAt fragments k) := by
    intro k hk
    by_cases hold : k < calls.length
    · rw [List.getElem?_append_left hold, h.getElem? k hold]
    · have hnew : k - calls.length < i + 1 - calls.length := by omega
      have hempty : callAt fragments k = { } := callAt_of_forall_ne fun g hg heq => by
        have := h.index_lt g hg
        omega
      rw [List.getElem?_append_right (Nat.le_of_not_lt hold), List.getElem?_replicate,
        if_pos hnew, hempty]
  refine ⟨grown.modify i f.addTo, ?_, ?_, ?_, ?_⟩
  · rw [Compatible.addCallDelta, ensureToolCall, if_neg (not_lt.2 hzero), hi]
    rfl
  · have := h.length_le
    rw [List.length_modify, hgrown]
    omega
  · intro g hg
    rw [List.length_modify, hgrown]
    rcases List.mem_append.1 hg with hg | hg
    · have := h.index_lt g hg
      omega
    · rw [List.mem_singleton.1 hg]
      omega
  · intro k hk
    rw [List.length_modify] at hk
    by_cases heq : i = k
    · rw [← heq] at hk ⊢
      rw [List.getElem?_modify_eq, hat i hk, callAt_append, hi, if_pos rfl]
      rfl
    · rw [List.getElem?_modify_ne _ _ heq, hat k hk, callAt_append, hi, if_neg (by omega)]

/-- The fragments of an event. -/
theorem Collected.foldlM_addCallDelta {count : Nat} {more : List CallDelta}
    (hzero : ∀ f ∈ more, 0 ≤ f.index) (hcount : ∀ f ∈ more, f.index < count)
    {fragments : List CallDelta} {calls : List ToolCall} (h : Collected count fragments calls) :
    ∃ calls', more.foldlM Compatible.addCallDelta calls = some calls' ∧
      Collected count (fragments ++ more) calls' := by
  induction more generalizing fragments calls with
  | nil => exact ⟨calls, rfl, by rwa [List.append_nil]⟩
  | cons f more ih =>
    obtain ⟨hf, hmore⟩ := List.forall_mem_cons.1 hzero
    obtain ⟨hf', hmore'⟩ := List.forall_mem_cons.1 hcount
    obtain ⟨calls₁, hadd, h₁⟩ := h.addCallDelta hf hf'
    obtain ⟨calls₂, hrest, h₂⟩ := ih hmore hmore' h₁
    refine ⟨calls₂, ?_, ?_⟩
    · rw [List.foldlM_cons, hadd]
      exact hrest
    · rwa [List.append_assoc, List.singleton_append] at h₂

/-! ## A whole stream -/

/-- The fragments of calls in a stream. -/
def fragmentsOf (deltas : List Delta) : List CallDelta := deltas.flatMap Delta.calls

/-- The reasoning in a stream. -/
def reasoningOf (deltas : List Delta) : String :=
  String.join (deltas.map fun d => d.reasoning.getD "")

/-- The text in a stream. -/
def contentOf (deltas : List Delta) : String :=
  String.join (deltas.map fun d => d.content.getD "")

/-- Behind a text there is no more reasoning. -/
def Ordered (deltas : List Delta) : Prop :=
  deltas.Pairwise fun d e => d.content.getD "" = "" ∨ e.reasoning.getD "" = ""

/-- The reader goes through a stream whose fragments are for so many calls. -/
theorem exists_foldlM_apply {count : Nat} {deltas : List Delta} (hordered : Ordered deltas)
    (hzero : ∀ f ∈ fragmentsOf deltas, 0 ≤ f.index)
    (hcount : ∀ f ∈ fragmentsOf deltas, f.index < count) {thought said : String}
    (hstart : said = "" ∨ ∀ d ∈ deltas, d.reasoning.getD "" = "") {fragments : List CallDelta}
    {a : StreamAnswer} (hspoken : Spoken thought said a)
    (hcalls : Collected count fragments a.toolCalls) :
    ∃ b, deltas.foldlM (fun a d => d.apply a) a = some b ∧
      Spoken (thought ++ reasoningOf deltas) (said ++ contentOf deltas) b ∧
      Collected count (fragments ++ fragmentsOf deltas) b.toolCalls := by
  induction deltas generalizing thought said fragments a with
  | nil =>
    refine ⟨a, rfl, ?_, ?_⟩
    · show Spoken (thought ++ "") (said ++ "") a
      rwa [String.append_empty, String.append_empty]
    · show Collected count (fragments ++ []) a.toolCalls
      rwa [List.append_nil]
  | cons d deltas ih =>
    obtain ⟨hbefore, hordered⟩ := List.pairwise_cons.1 hordered
    have hsplit : fragmentsOf (d :: deltas) = d.calls ++ fragmentsOf deltas := rfl
    have hthought : reasoningOf (d :: deltas) = d.reasoning.getD "" ++ reasoningOf deltas :=
      String.join_cons
    have hsaid : contentOf (d :: deltas) = d.content.getD "" ++ contentOf deltas :=
      String.join_cons
    rw [hsplit, List.forall_mem_append] at hzero hcount
    obtain ⟨calls, hfold, hcollected⟩ := hcalls.foldlM_addCallDelta hzero.1 hcount.1
    have hone := hspoken.speak (d := d) (hstart.imp_right fun h => h d (List.mem_cons_self ..))
    have hlater : said ++ d.content.getD "" = "" ∨ ∀ e ∈ deltas, e.reasoning.getD "" = "" := by
      by_cases hquiet : ∀ e ∈ deltas, e.reasoning.getD "" = ""
      · exact Or.inr hquiet
      · push Not at hquiet
        obtain ⟨e, he, hloud⟩ := hquiet
        refine Or.inl (String.append_eq_empty_iff.2 ⟨?_, ?_⟩)
        · exact hstart.resolve_right fun h => hloud (h e (List.mem_cons_of_mem _ he))
        · exact (hbefore e he).resolve_right hloud
    have hspoken₁ : Spoken (thought ++ d.reasoning.getD "") (said ++ d.content.getD "")
        { d.speak a with toolCalls := calls } := ⟨hone.content, hone.thinkingOpen, hone.chunks⟩
    obtain ⟨b, hrest, hb, hcalls₂⟩ := ih hordered hzero.2 hcount.2 hlater hspoken₁ hcollected
    refine ⟨b, ?_, ?_, ?_⟩
    · rw [List.foldlM_cons, Delta.apply, hfold]
      exact hrest
    · rwa [String.append_assoc, String.append_assoc, ← hthought, ← hsaid] at hb
    · rwa [List.append_assoc] at hcalls₂

/-! ## The two readers -/

/-- A call as a model makes it. -/
structure ReplyCall where
  id : String
  name : String
  arguments : String

/-- A reply of a model; a reasoning or a text that it lacks is empty. -/
structure Reply where
  reasoning : String := ""
  content : String := ""
  calls : List ReplyCall := []

/-- The call in an answer. -/
def ReplyCall.toolCall (c : ReplyCall) : ToolCall where
  id := some c.id
  name := some c.name
  arguments := some c.arguments

/-- An entry of `tool_calls` that holds a call. -/
structure CallHolds (c : ReplyCall) (entry : JsonValue) : Prop where
  id : entry.member "id" = some (.string c.id)
  function : ∃ fn, entry.member "function" = some fn ∧ fn.member "name" = some (.string c.name) ∧
    fn.member "arguments" = some (.string c.arguments)

/-- A message that holds a reply. -/
structure MessageHolds (m : Reply) (message : JsonValue) : Prop where
  reasoning : (itemText (reasoningItem message)).getD "" = m.reasoning
  content : (itemText (message.member "content")).getD "" = m.content
  calls : List.Forall₂ CallHolds m.calls
    (arrayItems ((message.member "tool_calls").filter JsonValue.isArray))

/-- An answer whose first choice holds a reply. -/
def ReplyHolds (json : WireJson) (m : Reply) (raw : List UInt8) : Prop :=
  ∃ root choice message, json.parse (cString raw) = some root ∧
    (arrayItems ((root.member "choices").filter JsonValue.isArray)).head? = some choice ∧
    choice.member "message" = some message ∧ MessageHolds m message

/-- A stream of deltas that says a reply in fragments. -/
structure Says (m : Reply) (deltas : List Delta) : Prop where
  reasoning : reasoningOf deltas = m.reasoning
  content : contentOf deltas = m.content
  ordered : Ordered deltas
  index_nonneg : ∀ f ∈ fragmentsOf deltas, 0 ≤ f.index
  index_lt : ∀ f ∈ fragmentsOf deltas, f.index < m.calls.length
  appears : ∀ k < m.calls.length, ∃ f ∈ fragmentsOf deltas, f.index = k
  calls : ∀ k c, m.calls[k]? = some c →
    String.join (textsAt CallDelta.id (fragmentsOf deltas) k) = c.id ∧
    String.join (textsAt CallDelta.name (fragmentsOf deltas) k) = c.name ∧
    String.join (textsAt CallDelta.arguments (fragmentsOf deltas) k) = c.arguments

/-- Pieces of a stream whose events say a reply. -/
def Delivered (json : WireJson) (m : Reply) (deltas : List Delta) (pieces : List (List UInt8)) :
    Prop :=
  ∃ lines last events, pieces.flatten = deliver lines last ∧
    (eventTexts (lines ++ [last])).mapM json.parse = some events ∧
    events.map readDelta = deltas ∧ Says m deltas

/-- The call with empty arguments for absent ones. -/
def fillArguments (call : ToolCall) : ToolCall :=
  { call with arguments := some (call.arguments.getD "") }

/-- The call with empty texts for absent ones. -/
def fillTexts (call : ToolCall) : ToolCall :=
  { fillArguments call with id := some (call.id.getD ""), name := some (call.name.getD "") }

/-- The streamed answer is the answer read at once, and `on_chunk` got its content. -/
def SameReply (json : WireJson) (raw : List UInt8) (pieces : List (List UInt8)) : Prop :=
  ∃ a response, streamRun json pieces = some a ∧
    openaiCompatibleParseResponse json raw = some response ∧ a.content = response.content ∧
    a.toolCalls.map fillArguments = response.toolCalls ∧
    a.content.getD "" = String.join a.chunks

/-- The same, where an absent content, id or name is like an empty one. -/
def SameTexts (json : WireJson) (raw : List UInt8) (pieces : List (List UInt8)) : Prop :=
  ∃ a response, streamRun json pieces = some a ∧
    openaiCompatibleParseResponse json raw = some response ∧
    a.content.getD "" = response.content.getD "" ∧
    a.toolCalls.map fillTexts = response.toolCalls ∧
    a.content.getD "" = String.join a.chunks

/-- An entry that holds a call is read as that call. -/
theorem CallHolds.parseCall (json : WireJson) {c : ReplyCall} {entry : JsonValue}
    (h : CallHolds c entry) : parseCall json entry = c.toolCall := by
  obtain ⟨fn, hfn, hname, harguments⟩ := h.function
  rw [Compatible.parseCall, hfn, h.id]
  dsimp only
  rw [hname, harguments]
  rfl

/-- The calls of a message are read in their order. -/
theorem MessageHolds.map_parseCall (json : WireJson) {m : Reply} {message : JsonValue}
    (h : MessageHolds m message) :
    (arrayItems ((message.member "tool_calls").filter JsonValue.isArray)).map (parseCall json) =
      m.calls.map ReplyCall.toolCall := by
  have hcalls := h.calls
  generalize arrayItems ((message.member "tool_calls").filter JsonValue.isArray) = entries at hcalls
  generalize m.calls = calls at hcalls
  induction hcalls with
  | nil => rfl
  | cons hone _ ih => rw [List.map_cons, List.map_cons, hone.parseCall, ih]

/-- The content of a message, up to its absence. -/
theorem MessageHolds.parseContent {m : Reply} {message : JsonValue} (h : MessageHolds m message) :
    (parseContent message).content.getD "" = (closedContent m.reasoning m.content).getD "" ∧
      (m.reasoning ≠ "" ∨ m.content ≠ "" →
        (parseContent message).content = closedContent m.reasoning m.content) := by
  have hreasoning := h.reasoning
  have hcontent := h.content
  rw [Compatible.parseContent, closedContent]
  by_cases hnone : m.reasoning = ""
  · have hfilter : (itemText (reasoningItem message)).filter (· ≠ "") = none := by
      rw [Option.filter_eq_none_iff]
      intro text htext
      rw [htext, Option.getD_some, hnone] at hreasoning
      simp [hreasoning]
    rw [hfilter, if_pos hnone, getD_presentText]
    refine ⟨hcontent, fun hsaid => ?_⟩
    have hne : m.content ≠ "" := hsaid.resolve_left fun hr => hr hnone
    rw [presentText, if_neg hne]
    cases htext : itemText (message.member "content") with
    | none =>
      rw [htext] at hcontent
      exact absurd hcontent.symm hne
    | some text =>
      rw [htext] at hcontent
      exact congrArg some hcontent
  · have hsome : itemText (reasoningItem message) = some m.reasoning := by
      cases htext : itemText (reasoningItem message) with
      | none =>
        rw [htext] at hreasoning
        exact absurd hreasoning.symm hnone
      | some text =>
        rw [htext] at hreasoning
        exact congrArg some hreasoning
    have hfilter : (some m.reasoning).filter (· ≠ "") = some m.reasoning :=
      Option.filter_some_pos (decide_eq_true hnone)
    rw [hsome, hfilter, if_neg hnone]
    dsimp only
    rw [hcontent]
    exact ⟨rfl, fun _ => rfl⟩

/-- The calls that were collected, when there are as many as there can be. -/
theorem Collected.eq_map {count : Nat} {fragments : List CallDelta} {calls : List ToolCall}
    (h : Collected count fragments calls) (happears : ∀ k < count, ∃ f ∈ fragments, f.index = k) :
    calls = (List.range count).map (callAt fragments) := by
  have hlength : calls.length = count := by
    refine le_antisymm h.length_le ?_
    rcases Nat.eq_zero_or_pos count with hzero | hpos
    · omega
    · obtain ⟨f, hf, hindex⟩ := happears (count - 1) (by omega)
      have := h.index_lt f hf
      omega
  refine List.ext_getElem? fun k => ?_
  rw [List.getElem?_map]
  by_cases hk : k < count
  · rw [h.getElem? k (by omega), List.getElem?_range hk]
    rfl
  · rw [List.getElem?_eq_none (by omega), List.getElem?_eq_none (by rw [List.length_range]; omega)]
    rfl

section Calls

variable {m : Reply} {deltas : List Delta}

/-- The call at an index that the fragments say. -/
theorem Says.callAt (h : Says m deltas) {k : Nat} {c : ReplyCall} (hk : m.calls[k]? = some c) :
    fillTexts (callAt (fragmentsOf deltas) k) = c.toolCall := by
  obtain ⟨hid, hname, harguments⟩ := h.calls k c hk
  rw [fillTexts, fillArguments, Compatible.callAt, ReplyCall.toolCall]
  simp only [getD_joined, hid, hname, harguments]

theorem getD_eq_of_joined {texts : List String} (h : texts ≠ []) :
    some ((joined texts).getD "") = joined texts := by
  rw [getD_joined, joined, if_neg h]

/-- With an id and a name only the arguments can be absent. -/
theorem fillTexts_callAt {fragments : List CallDelta} {k : Nat}
    (hid : textsAt CallDelta.id fragments k ≠ []) (hname : textsAt CallDelta.name fragments k ≠ []) :
    fillTexts (callAt fragments k) = fillArguments (callAt fragments k) := by
  rw [fillTexts, fillArguments, Compatible.callAt]
  dsimp only
  rw [getD_eq_of_joined hid, getD_eq_of_joined hname]

/-- All calls that the fragments say. -/
theorem Says.map_fillTexts (h : Says m deltas) :
    ((List.range m.calls.length).map (Compatible.callAt (fragmentsOf deltas))).map fillTexts =
      m.calls.map ReplyCall.toolCall := by
  refine List.ext_getElem? fun k => ?_
  rw [List.map_map, List.getElem?_map, List.getElem?_map]
  cases hk : m.calls[k]? with
  | none =>
    rw [List.getElem?_eq_none (by rw [List.length_range]; exact List.getElem?_eq_none_iff.1 hk)]
    rfl
  | some c =>
    have hlt := (List.getElem?_eq_some_iff.1 hk).1
    rw [List.getElem?_range hlt]
    exact congrArg some (h.callAt hk)

end Calls

/-- A streamed answer is the answer read at once, where an absent content, id or name is like an
empty one; when there is some reasoning or text, and fragments of every id and name, nothing else
is absent either. -/
theorem sameTexts_of_delivered (json : WireJson) (m : Reply) (deltas : List Delta)
    (raw : List UInt8) (pieces : List (List UInt8)) (hraw : ReplyHolds json m raw)
    (hstream : Delivered json m deltas pieces) :
    SameTexts json raw pieces ∧
      ((m.reasoning ≠ "" ∨ m.content ≠ "") →
        (∀ k < m.calls.length, textsAt CallDelta.id (fragmentsOf deltas) k ≠ [] ∧
          textsAt CallDelta.name (fragmentsOf deltas) k ≠ []) →
        SameReply json raw pieces) := by
  obtain ⟨root, choice, message, hroot, hchoice, hmessage, hholds⟩ := hraw
  obtain ⟨lines, last, events, hpieces, hevents, hdeltas, hsays⟩ := hstream
  -- The stream: its deltas are taken one by one, and then the block is closed.
  obtain ⟨b, hfold, hspoken, hcollected⟩ := exists_foldlM_apply hsays.ordered hsays.index_nonneg
    hsays.index_lt (Or.inl rfl) spoken_start (collected_start m.calls.length)
  rw [String.empty_append, String.empty_append, hsays.reasoning, hsays.content] at hspoken
  obtain ⟨hcontent, -, hchunks⟩ := hspoken.closeThinking
  have hstreamed : streamRun json pieces = some (closeThinking b) := by
    rw [streamRun_deliver json hpieces, foldlM_parseStreamEvent json hevents, hdeltas, hfold]
    rfl
  have hcalls : (closeThinking b).toolCalls =
      (List.range m.calls.length).map (callAt (fragmentsOf deltas)) := by
    rw [toolCalls_closeThinking]
    exact hcollected.eq_map hsays.appears
  -- The answer that is read at once.
  let response : LLMResponse :=
    { parseContent message with toolCalls := m.calls.map ReplyCall.toolCall }
  have hresponse : openaiCompatibleParseResponse json raw = some response := by
    show _ = some { parseContent message with toolCalls := m.calls.map ReplyCall.toolCall }
    rw [← hholds.map_parseCall json, openaiCompatibleParseResponse, hroot]
    simp only [Option.bind_eq_bind, Option.bind_some, hchoice, hmessage, Option.some_or]
    rfl
  obtain ⟨htext, hexact⟩ := hholds.parseContent
  refine ⟨⟨closeThinking b, response, hstreamed, hresponse, ?_, ?_, hchunks⟩,
    fun hsaid hfragments =>
      ⟨closeThinking b, response, hstreamed, hresponse, ?_, ?_, hchunks⟩⟩
  · rw [hcontent]
    exact htext.symm
  · rw [hcalls]
    exact hsays.map_fillTexts
  · rw [hcontent]
    exact (hexact hsaid).symm
  · show _ = m.calls.map ReplyCall.toolCall
    rw [hcalls, ← hsays.map_fillTexts, List.map_map, List.map_map]
    refine List.map_congr_left fun k hk => ?_
    obtain ⟨hid, hname⟩ := hfragments k (List.mem_range.1 hk)
    exact (fillTexts_callAt hid hname).symm

/-! ## Two streams -/

/-- An answer with a message. -/
def answerOf (message : JsonValue) : JsonValue :=
  .object [("choices", .array [.object [("message", message)]])]

/-- An event with a delta. -/
def eventOf (delta : JsonValue) : JsonValue :=
  .object [("choices", .array [.object [("delta", delta)]])]

/-- A value on the wire. -/
def wire (v : JsonValue) : List UInt8 := ascii (textCodec.print v)

theorem wire_eq (v : JsonValue) :
    wire v = (JsonText.printValue v).map fun c => UInt8.ofNat c.toNat := by
  show (String.ofList (JsonText.printValue v)).toList.map _ = _
  rw [String.toList_ofList]

/-- A value that is printed in single byte characters. -/
theorem ofList_wire {v : JsonValue} (h : ((JsonText.printValue v).map fun c =>
    Char.ofNat (UInt8.ofNat c.toNat).toNat) = JsonText.printValue v) :
    String.ofList ((wire v).map fun b => Char.ofNat b.toNat) = textCodec.print v := by
  rw [wire_eq, List.map_map]
  exact congrArg String.ofList h

/-- The text of such a value is read as C reads it. -/
theorem parse_cString_wire {v : JsonValue} (hnul : 0 ∉ (JsonText.printValue v).map fun c =>
    UInt8.ofNat c.toNat) (h : ((JsonText.printValue v).map fun c =>
      Char.ofNat (UInt8.ofNat c.toNat).toNat) = JsonText.printValue v) :
    byteJson.parse (cString (wire v)) = some v := by
  rw [cString_of_notMem (wire_eq v ▸ hnul)]
  exact byteJson_parse_of_print (ofList_wire h)

/-- The events of a stream whose values are printed in single byte characters. -/
theorem mapM_parse_wire {vs : List JsonValue} (h : ∀ v ∈ vs,
    String.ofList ((wire v).map fun b => Char.ofNat b.toNat) = textCodec.print v) :
    (vs.map wire).mapM byteJson.parse = some vs := by
  induction vs with
  | nil => rfl
  | cons v vs ih =>
    obtain ⟨hv, hvs⟩ := List.forall_mem_cons.1 h
    rw [List.map_cons, List.mapM_cons, byteJson_parse_of_print hv, ih hvs]
    rfl

/-- The event in a line behind `data: `. -/
theorem lineEvent_data {text : List UInt8} (h : text ≠ ascii "[DONE]") :
    lineEvent (ascii "data: " ++ text) = some text := by
  have hprefix : (ascii "data: ").isPrefixOf (ascii "data: " ++ text) = true :=
    List.isPrefixOf_iff_prefix.2 (List.prefix_append _ _)
  have hdrop : (ascii "data: " ++ text).drop (ascii "data: ").length = text := List.drop_left
  rw [lineEvent, hprefix, if_pos rfl, hdrop, Option.filter_some, if_pos (decide_eq_true h)]

/-- The line behind the last event. -/
def doneLine : SentLine where
  text := ascii "data: [DONE]"
  noLf := by decide +kernel
  noNul := by decide +kernel
  noCr := by decide +kernel

/-- A message that reasons, speaks and makes a call. -/
def lookMessage : JsonValue :=
  .object [("reasoning_content", .string "hm"), ("content", .string "hi"),
    ("tool_calls", .array [.object [("id", .string "a"),
      ("function", .object [("name", .string "look"), ("arguments", .string "[]")])]])]

/-- Its texts, and its call in two fragments. -/
def lookEvents : List JsonValue :=
  [eventOf (.object [("reasoning", .string "hm"), ("content", .string "hi")]),
    eventOf (.object [("tool_calls", .array
      [.object [("index", .number ⟨0, 0⟩), ("id", .string "a"),
        ("function", .object [("name", .string "look"), ("arguments", .string "[")])],
      .object [("index", .number ⟨0, 0⟩), ("function", .object [("arguments", .string "]")])]])])]

/-- The line of its first event. -/
def speakLine : SentLine where
  text := ascii "data: " ++ wire (lookEvents[0])
  cr := true
  noLf := by
    rw [wire_eq]
    decide +kernel
  noNul := by
    rw [wire_eq]
    decide +kernel
  noCr := by
    rw [wire_eq]
    decide +kernel

/-- The line of its second event. -/
def callLine : SentLine where
  text := ascii "data: " ++ wire (lookEvents[1])
  noLf := by
    rw [wire_eq]
    decide +kernel
  noNul := by
    rw [wire_eq]
    decide +kernel
  noCr := by
    rw [wire_eq]
    decide +kernel

/-- The reply in it. -/
def lookReply : Reply := { reasoning := "hm", content := "hi", calls := [⟨"a", "look", "[]"⟩] }

/-- What its events say. -/
def lookDeltas : List Delta :=
  [{ reasoning := some "hm", content := some "hi" },
    { calls := [{ index := 0, id := some "a", name := some "look", arguments := some "[" },
      { index := 0, arguments := some "]" }] }]

/-- Its stream, cut in the first event. -/
def lookPieces : List (List UInt8) :=
  [(deliver [speakLine, callLine] doneLine).take 20, (deliver [speakLine, callLine] doneLine).drop 20]

theorem says_lookDeltas : Says lookReply lookDeltas where
  reasoning := by decide +kernel
  content := by decide +kernel
  ordered := by
    refine List.pairwise_pair.2 ?_
    exact Or.inr rfl
  index_nonneg := by decide +kernel
  index_lt := by decide +kernel
  appears := by decide +kernel
  calls k c hc := by
    cases k with
    | zero =>
      rw [← Option.some.inj hc]
      decide +kernel
    | succ k => exact absurd hc (by simp [lookReply])

theorem sameReply_look : SameReply byteJson (wire (answerOf lookMessage)) lookPieces := by
  refine (sameTexts_of_delivered byteJson lookReply lookDeltas _ _ ?_ ?_).2 (Or.inl ?_) ?_
  · refine ⟨answerOf lookMessage, .object [("message", lookMessage)], lookMessage, ?_, rfl, rfl,
      ?_, ?_, ?_⟩
    · exact parse_cString_wire (by decide +kernel) (by decide +kernel)
    · decide +kernel
    · decide +kernel
    · exact List.Forall₂.cons ⟨rfl, _, rfl, rfl, rfl⟩ List.Forall₂.nil
  · refine ⟨[speakLine, callLine], doneLine, lookEvents, ?_, ?_, ?_, says_lookDeltas⟩
    · rw [lookPieces, List.flatten_cons, List.flatten_singleton, List.take_append_drop]
    · have htexts : eventTexts ([speakLine, callLine] ++ [doneLine]) = lookEvents.map wire := by
        have hspeak : lineEvent speakLine.text = some (wire (lookEvents[0])) :=
          lineEvent_data (by rw [wire_eq]; decide +kernel)
        have hcall : lineEvent callLine.text = some (wire (lookEvents[1])) :=
          lineEvent_data (by rw [wire_eq]; decide +kernel)
        have hdone : lineEvent doneLine.text = none := by decide +kernel
        rw [List.cons_append, eventTexts_cons_some hspeak, List.cons_append,
          eventTexts_cons_some hcall, List.nil_append, eventTexts_cons_none hdone]
        rfl
      rw [htexts]
      refine mapM_parse_wire (List.forall_mem_cons.2 ⟨ofList_wire ?_,
        List.forall_mem_singleton.2 (ofList_wire ?_)⟩) <;> decide +kernel
    · decide +kernel
  · decide
  · decide +kernel

/-- A message that says nothing. -/
def silentMessage : JsonValue := .object [("content", .string "")]

/-- The line of its only event. -/
def silentLine : SentLine where
  text := ascii "data: " ++ wire (eventOf silentMessage)
  noLf := by
    rw [wire_eq]
    decide +kernel
  noNul := by
    rw [wire_eq]
    decide +kernel
  noCr := by
    rw [wire_eq]
    decide +kernel

/-- Its stream. -/
def silentPieces : List (List UInt8) := [deliver [silentLine] doneLine]

/-- Read at once it has an empty content, and streamed it has none. -/
theorem not_sameReply_silent :
    ReplyHolds byteJson { } (wire (answerOf silentMessage)) ∧
      Delivered byteJson { } [{ content := some "" }] silentPieces ∧
      ¬SameReply byteJson (wire (answerOf silentMessage)) silentPieces := by
  refine ⟨?_, ?_, ?_⟩
  · refine ⟨answerOf silentMessage, .object [("message", silentMessage)], silentMessage, ?_, rfl,
      rfl, ?_, ?_, ?_⟩
    · exact parse_cString_wire (by decide +kernel) (by decide +kernel)
    · decide +kernel
    · decide +kernel
    · exact List.Forall₂.nil
  · refine ⟨[silentLine], doneLine, [eventOf silentMessage], List.flatten_singleton, ?_, ?_, ?_⟩
    · have htexts : eventTexts ([silentLine] ++ [doneLine]) = [eventOf silentMessage].map wire := by
        decide +kernel
      rw [htexts]
      exact mapM_parse_wire (List.forall_mem_singleton.2 (ofList_wire (by decide +kernel)))
    · decide +kernel
    · exact
      { reasoning := by decide +kernel
        content := by decide +kernel
        ordered := List.pairwise_singleton _ _
        index_nonneg := fun f hf => absurd hf List.not_mem_nil
        index_lt := fun f hf => absurd hf List.not_mem_nil
        appears := fun k hk => absurd hk (Nat.not_lt_zero k)
        calls := fun k c hc => absurd hc (by simp) }
  · rintro ⟨a, response, hstreamed, hresponse, hcontent, -, -⟩
    have hnone : (streamRun byteJson silentPieces).map StreamAnswer.content = some none := by
      decide +kernel
    have hempty : (openaiCompatibleParseResponse byteJson (wire (answerOf silentMessage))).map
        LLMResponse.content = some (some "") := by
      decide +kernel
    rw [hstreamed, Option.map_some, Option.some.injEq] at hnone
    rw [hresponse, Option.map_some, Option.some.injEq] at hempty
    rw [hnone, hempty] at hcontent
    exact absurd hcontent (by simp)

end EchoAi.Compatible
