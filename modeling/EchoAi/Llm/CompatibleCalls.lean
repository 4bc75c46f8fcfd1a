import EchoAi.Llm.CompatibleAgreement
import Mathlib.Data.List.Induction
import Mathlib.Data.Int.Order.Basic

/-!
# The tool calls of a streamed answer

The array of calls grows up to the index that an event names.

* `streamTexts`, `streamFragments`: the events of any bytes, and the fragments of calls in them.
* `countStep`: `tool_calls_count`, an `int`.
* `Faultless`: every call was named by an event, keeps its name, and the count is right.
* `faultless_iff`: it is so just when the indices have no gap and none of them is the greatest `int`.
-/

namespace EchoAi.Compatible

/-! ## The events of a stream -/

section Events

variable (json : WireJson)

/-- The lines of some bytes behind a line that has begun. -/
def linesFrom (line : List UInt8) : List UInt8 → List (List UInt8)
  | [] => [line]
  | b :: bytes => if b = 10 then line :: linesFrom [] bytes else linesFrom (line ++ [b]) bytes

/-- The text of the event in a line, with the carriage return at its end removed. -/
def lineText (line : List UInt8) : Option (List UInt8) := lineEvent (cString (stripCr line))

/-- The texts of the events in a stream. -/
def streamTexts (bytes : List UInt8) : List (List UInt8) := (linesFrom [] bytes).filterMap lineText

theorem takeLine_eq (a : StreamAnswer) (line : List UInt8) :
    takeLine json a line = (lineText line).toList.foldlM (parseStreamEvent json) a := by
  rw [takeLine, lineText]
  cases lineEvent (cString (stripCr line)) with
  | none => rfl
  | some text => exact (bind_pure (parseStreamEvent json a text)).symm

theorem filterMap_cons_toList {α β : Type} (f : α → Option β) (x : α) (xs : List α) :
    (x :: xs).filterMap f = (f x).toList ++ xs.filterMap f := by
  rw [List.filterMap_cons]
  cases f x <;> rfl

/-- The reader on some bytes and the end of the stream. -/
theorem foldlM_feedByte_finish (bytes : List UInt8) (p : StreamParser) :
    (bytes.foldlM (feedByte json) p).bind (streamParserFinish json) =
      (((linesFrom p.line bytes).filterMap lineText).foldlM (parseStreamEvent json) p.answer).map
        closeThinking := by
  induction bytes generalizing p with
  | nil =>
    rw [linesFrom, filterMap_cons_toList, List.filterMap_nil, List.append_nil, ← takeLine_eq,
      List.foldlM_nil]
    show streamParserFinish json p = _
    rw [streamParserFinish]
    split
    · next hline =>
      rw [hline, takeLine_eq]
      rfl
    · rfl
  | cons b bytes ih =>
    rw [List.foldlM_cons, linesFrom, feedByte]
    split
    · rw [filterMap_cons_toList, List.foldlM_append, ← takeLine_eq]
      cases takeLine json p.answer p.line with
      | none => rfl
      | some a => exact ih { answer := a }
    · exact ih { p with line := p.line ++ [b] }

/-- **A stream is its events**, whatever its bytes are and however they are cut. -/
theorem streamRun_eq (pieces : List (List UInt8)) :
    streamRun json pieces = ((streamTexts pieces.flatten).foldlM (parseStreamEvent json) {}).map
      closeThinking := by
  rw [streamRun, foldlM_streamParserFeed]
  exact foldlM_feedByte_finish json pieces.flatten {}

/-- The fragments of calls in a stream. -/
def streamFragments (bytes : List UInt8) : List CallDelta :=
  fragmentsOf (((streamTexts bytes).filterMap json.parse).map readDelta)

theorem toolCalls_speak (d : Delta) (a : StreamAnswer) : (d.speak a).toolCalls = a.toolCalls := by
  rw [Delta.speak, toolCalls_forwardContent, toolCalls_forwardReasoningDelta]

theorem foldlM_addCallDelta_of_events {texts : List (List UInt8)} {a b : StreamAnswer}
    (h : texts.foldlM (parseStreamEvent json) a = some b) :
    (fragmentsOf ((texts.filterMap json.parse).map readDelta)).foldlM addCallDelta a.toolCalls =
      some b.toolCalls := by
  induction texts generalizing a with
  | nil =>
    obtain rfl := Option.some.inj h
    rfl
  | cons text texts ih =>
    rw [List.foldlM_cons, Option.bind_eq_bind, Option.bind_eq_some_iff] at h
    obtain ⟨a', hevent, hrest⟩ := h
    cases hparse : json.parse text with
    | none =>
      rw [parseStreamEvent, hparse] at hevent
      exact absurd hevent.symm (Option.some_ne_none a')
    | some event =>
      rw [parseStreamEvent_eq hparse, Delta.apply, Option.bind_eq_bind,
        Option.bind_eq_some_iff] at hevent
      obtain ⟨calls, hcalls, hanswer⟩ := hevent
      obtain rfl := Option.some.inj hanswer
      rw [List.filterMap_cons_some hparse, List.map_cons, fragmentsOf, List.flatMap_cons,
        List.foldlM_append, hcalls]
      exact ih hrest

/-- The calls of an answer come from the fragments alone. -/
theorem foldlM_streamFragments {pieces : List (List UInt8)} {a : StreamAnswer}
    (h : streamRun json pieces = some a) :
    (streamFragments json pieces.flatten).foldlM addCallDelta [] = some a.toolCalls := by
  rw [streamRun_eq, Option.map_eq_some_iff] at h
  obtain ⟨b, hevents, rfl⟩ := h
  rw [toolCalls_closeThinking]
  exact foldlM_addCallDelta_of_events json hevents

end Events

/-! ## The count of calls -/

/-- `tool_calls_count` behind `ensure_tool_call`; the addition wraps. -/
def countStep (count : Int32) (f : CallDelta) : Int32 :=
  let index := Int32.ofInt f.index
  if index < count then count else index + 1

/-- `tool_calls_count` behind some fragments. -/
def toolCallsCount (fragments : List CallDelta) : Int32 := fragments.foldl countStep 0

/-- What a finished stream promises about its calls. -/
structure Faultless (fragments : List CallDelta) (calls : List ToolCall) : Prop where
  /-- The index of every call occurred. -/
  named : ∀ k < calls.length, ∃ f ∈ fragments, f.index = k
  /-- A call has a name when a fragment of it had one. -/
  name : ∀ (k : Nat) (call : ToolCall), calls[k]? = some call → (∃ f ∈ fragments, f.index = k ∧ f.name ≠ none) →
    call.name ≠ none
  /-- The count is that of the calls. -/
  count : (toolCallsCount fragments).toInt = calls.length
  /-- `index + 1` is an `int` whenever it is computed. -/
  fits : ∀ front f, front ++ [f] <+: fragments → (toolCallsCount front).toInt ≤ f.index →
    f.index + 1 ≤ 2147483647

/-- The indices have no gap, and none of them is the greatest `int`. -/
structure Dense (fragments : List CallDelta) : Prop where
  noGap : ∀ f ∈ fragments, ∀ k : Nat, k < f.index → ∃ g ∈ fragments, g.index = k
  notGreatest : ∀ f ∈ fragments, f.index ≠ 2147483647

section Counts

variable {fragments : List CallDelta} {calls : List ToolCall}

theorem toolCallsCount_concat (fragments : List CallDelta) (f : CallDelta) :
    toolCallsCount (fragments ++ [f]) = countStep (toolCallsCount fragments) f :=
  List.foldl_concat ..

theorem ensureToolCall_nonneg {index : Int} {more : List ToolCall}
    (h : ensureToolCall calls index = some more) : 0 ≤ index := by
  rw [ensureToolCall] at h
  split at h
  · exact absurd h.symm (Option.some_ne_none more)
  · next hnonneg => exact not_lt.1 hnonneg

theorem index_nonneg_of_foldlM {start : List ToolCall}
    (h : fragments.foldlM addCallDelta start = some calls) : ∀ f ∈ fragments, 0 ≤ f.index := by
  induction fragments generalizing start with
  | nil => exact fun f hf => absurd hf List.not_mem_nil
  | cons f fragments ih =>
    rw [List.foldlM_cons, Option.bind_eq_bind, Option.bind_eq_some_iff] at h
    obtain ⟨mid, hmid, hrest⟩ := h
    rw [List.forall_mem_cons]
    refine ⟨?_, ih hrest⟩
    rw [addCallDelta, Option.bind_eq_bind, Option.bind_eq_some_iff] at hmid
    obtain ⟨more, hmore, -⟩ := hmid
    exact ensureToolCall_nonneg hmore

/-- The calls of a stream, fragment by fragment. -/
theorem collected_of_foldlM (h : fragments.foldlM addCallDelta [] = some calls)
    (hint : ∀ f ∈ fragments, f.index ≤ 2147483647) : Collected 2147483648 fragments calls := by
  obtain ⟨calls', hcalls', hcollected⟩ :=
    (collected_start 2147483648).foldlM_addCallDelta (index_nonneg_of_foldlM h)
      (fun f hf => by have := hint f hf; omega)
  obtain rfl := Option.some.inj (hcalls'.symm.trans h)
  exact hcollected

theorem length_addCallDelta {f : CallDelta} {more : List ToolCall}
    (h : addCallDelta calls f = some more) :
    more.length = if f.index < calls.length then calls.length else f.index.toNat + 1 := by
  rw [addCallDelta, Option.bind_eq_bind, Option.bind_eq_some_iff] at h
  obtain ⟨grown, hgrown, hmore⟩ := h
  have hnonneg := ensureToolCall_nonneg hgrown
  obtain rfl := Option.some.inj hmore
  rw [ensureToolCall, if_neg (not_lt.2 hnonneg)] at hgrown
  obtain rfl := Option.some.inj hgrown
  rw [List.length_modify, List.length_append, List.length_replicate]
  split <;> omega

/-- An index of an `int` as it is. -/
theorem toInt_ofInt {n : Int} (hzero : 0 ≤ n) (hint : n ≤ 2147483647) :
    (Int32.ofInt n).toInt = n :=
  Int32.toInt_ofInt_of_le (by omega) (by omega)

/-- The count follows the calls as long as no index is the greatest `int`. -/
theorem toInt_countStep {count : Int32} {f : CallDelta} (hzero : 0 ≤ f.index)
    (hint : f.index < 2147483647) :
    (countStep count f).toInt = if f.index < count.toInt then count.toInt else f.index + 1 := by
  have hindex := toInt_ofInt hzero hint.le
  have hless : Int32.ofInt f.index < count ↔ f.index < count.toInt := by
    rw [Int32.lt_iff_toInt_lt, hindex]
  rw [countStep]
  by_cases hold : f.index < count.toInt
  · rw [if_pos (hless.2 hold), if_pos hold]
  · rw [if_neg fun h => hold (hless.1 h), if_neg hold, Int32.toInt_add, hindex,
      show (1 : Int32).toInt = 1 from rfl]
    exact Int.bmod_eq_of_le (by omega) (by
      change f.index + 1 < (2 ^ 32 + 1) / 2
      omega)

/-- Behind fragments without the greatest `int` the count is that of the calls. -/
theorem toInt_toolCallsCount (h : fragments.foldlM addCallDelta [] = some calls)
    (hint : ∀ f ∈ fragments, f.index < 2147483647) :
    (toolCallsCount fragments).toInt = calls.length := by
  induction fragments using List.reverseRecOn generalizing calls with
  | nil =>
    obtain rfl := Option.some.inj h
    rfl
  | append_singleton fragments f ih =>
    have hnonneg := index_nonneg_of_foldlM h f (List.mem_append_right _ List.mem_cons_self)
    rw [List.forall_mem_append, List.forall_mem_singleton] at hint
    rw [List.foldlM_append, Option.bind_eq_bind, Option.bind_eq_some_iff] at h
    obtain ⟨before, hbefore, hlast⟩ := h
    rw [List.foldlM_cons, Option.bind_eq_bind, Option.bind_eq_some_iff] at hlast
    obtain ⟨behind, hbehind, hrest⟩ := hlast
    obtain rfl := Option.some.inj hrest
    rw [toolCallsCount_concat, toInt_countStep hnonneg hint.2, ih hbefore hint.1,
      length_addCallDelta hbehind]
    split <;> omega

/-- The last call is one that an event named. -/
theorem exists_last (h : fragments.foldlM addCallDelta [] = some calls) (hsome : calls ≠ []) :
    ∃ f ∈ fragments, f.index + 1 = calls.length := by
  induction fragments using List.reverseRecOn generalizing calls with
  | nil => exact absurd (Option.some.inj h).symm hsome
  | append_singleton fragments f ih =>
    have hnonneg := index_nonneg_of_foldlM h f (List.mem_append_right _ List.mem_cons_self)
    rw [List.foldlM_append, Option.bind_eq_bind, Option.bind_eq_some_iff] at h
    obtain ⟨before, hbefore, hlast⟩ := h
    rw [List.foldlM_cons, Option.bind_eq_bind, Option.bind_eq_some_iff] at hlast
    obtain ⟨behind, hbehind, hrest⟩ := hlast
    obtain rfl := Option.some.inj hrest
    rw [length_addCallDelta hbehind]
    split
    · next hold =>
      have hne : before ≠ [] := by
        rintro rfl
        rw [List.length_nil] at hold
        omega
      obtain ⟨g, hg, hlength⟩ := ih hbefore hne
      exact ⟨g, List.mem_append_left _ hg, hlength⟩
    · exact ⟨f, List.mem_append_right _ List.mem_cons_self, by omega⟩

/-- **No phantom calls**: the calls of a finished stream are as they should be just when the indices
have no gap and none of them is the greatest `int`. -/
theorem faultless_iff_dense (h : fragments.foldlM addCallDelta [] = some calls)
    (hint : ∀ f ∈ fragments, f.index ≤ 2147483647) :
    Faultless fragments calls ↔ Dense fragments := by
  have hcollected := collected_of_foldlM h hint
  constructor
  · intro hfaultless
    refine ⟨fun f hf k hk => ?_, fun f hf hgreatest => ?_⟩
    · have hlt := hcollected.index_lt f hf
      exact hfaultless.named k (by omega)
    · obtain ⟨front, behind, rfl⟩ := List.append_of_mem hf
      have hcount : (toolCallsCount front).toInt ≤ f.index := by
        rw [hgreatest]
        exact Int32.toInt_le _
      have hfits := hfaultless.fits front f ⟨behind, by simp⟩ hcount
      omega
  · intro hdense
    have hless : ∀ f ∈ fragments, f.index < 2147483647 := fun f hf =>
      lt_of_le_of_ne (hint f hf) (hdense.notGreatest f hf)
    refine ⟨fun k hk => ?_, fun k call hcall hnamed => ?_, toInt_toolCallsCount h hless,
      fun front f hfront _ => ?_⟩
    · have hsome : calls ≠ [] := by
        rintro rfl
        exact absurd hk (Nat.not_lt_zero k)
      obtain ⟨f, hf, hlast⟩ := exists_last h hsome
      by_cases hk' : (k : Int) < f.index
      · exact hdense.noGap f hf k hk'
      · exact ⟨f, hf, by omega⟩
    · have hk : k < calls.length := (List.getElem?_eq_some_iff.1 hcall).1
      rw [hcollected.getElem? k hk] at hcall
      obtain rfl := Option.some.inj hcall
      obtain ⟨f, hf, hindex, hname⟩ := hnamed
      obtain ⟨name, hname⟩ := Option.ne_none_iff_exists'.1 hname
      have hmem : name ∈ textsAt CallDelta.name fragments k :=
        List.mem_filterMap.2 ⟨f, List.mem_filter.2 ⟨hf, decide_eq_true hindex⟩, hname⟩
      have htexts : textsAt CallDelta.name fragments k ≠ [] := List.ne_nil_of_mem hmem
      have hjoined : joined (textsAt CallDelta.name fragments k) ≠ none := by
        rw [joined, if_neg htexts]
        exact Option.some_ne_none _
      exact hjoined
    · have hf : f ∈ fragments :=
        hfront.subset (List.mem_append_right front List.mem_cons_self)
      have := hless f hf
      omega

end Counts

/-! ## Whole streams -/

theorem valueInt_le (x : Decimal) : x.valueInt ≤ 2147483647 := by
  rw [Decimal.valueInt]
  split
  · exact le_rfl
  · split <;> omega

/-- Every index is an `int`. -/
theorem index_le_of_mem {json : WireJson} {bytes : List UInt8} {f : CallDelta}
    (h : f ∈ streamFragments json bytes) : f.index ≤ 2147483647 := by
  rw [streamFragments, fragmentsOf, List.mem_flatMap] at h
  obtain ⟨d, hd, hf⟩ := h
  obtain ⟨event, -, rfl⟩ := List.mem_map.1 hd
  rw [readDelta] at hf
  split at hf
  · exact absurd hf List.not_mem_nil
  · obtain ⟨item, -, rfl⟩ := List.mem_map.1 hf
    rw [readCallDelta]
    dsimp only
    cases (item.member "index").bind JsonValue.numberValue with
    | none => decide
    | some x => exact valueInt_le x

/-- **No phantom calls**: the calls of a finished stream are as they should be just when the indices
in it have no gap and none of them is the greatest `int`. -/
theorem faultless_iff (json : WireJson) (pieces : List (List UInt8)) {a : StreamAnswer}
    (h : streamRun json pieces = some a) :
    Faultless (streamFragments json pieces.flatten) a.toolCalls ↔
      Dense (streamFragments json pieces.flatten) :=
  faultless_iff_dense (foldlM_streamFragments json h) fun _ => index_le_of_mem

/-- A stream of one event, with a fragment of a call at an index. -/
def oneCall (index : Int) : List (List UInt8) :=
  [ascii "data: " ++ wire (eventOf (.object [("tool_calls", .array
    [.object [("index", .number ⟨index, 0⟩), ("function", .object [("name", .string "look")])]])]))]

theorem faultless_iff_zero :
    Faultless (streamFragments byteJson (oneCall 0).flatten) [{ name := some "look" }] ↔
      Dense (streamFragments byteJson (oneCall 0).flatten) :=
  faultless_iff byteJson (oneCall 0) (a := { toolCalls := [{ name := some "look" }] })
    (by rw [byteJson_eq, oneCall, wire_eq]; decide +kernel)

/-- Nothing names the call in front of one at the index 1. -/
theorem not_faultless_one :
    streamRun byteJson (oneCall 1) = some { toolCalls := [{ }, { name := some "look" }] } ∧
      ¬Faultless (streamFragments byteJson (oneCall 1).flatten)
        [{ }, { name := some "look" }] := by
  refine ⟨by rw [byteJson_eq, oneCall, wire_eq]; decide +kernel, fun h => ?_⟩
  have hfragments : streamFragments byteJson (oneCall 1).flatten =
      [{ index := 1, name := some "look" }] := by
    rw [byteJson_eq, oneCall, wire_eq]
    decide +kernel
  obtain ⟨f, hf, hindex⟩ := h.named 0 (by decide)
  rw [hfragments, List.mem_singleton] at hf
  rw [hf] at hindex
  exact absurd hindex (by decide)

end EchoAi.Compatible
