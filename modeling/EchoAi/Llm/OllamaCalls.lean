import EchoAi.Llm.Ollama
import Mathlib.Data.List.Nodup

/-!
# The ids of Ollama's calls

The calls that one process gets from Ollama, from answers that are read at once and from streamed
ones, and whether their ids tell them apart.

* `OllamaAnswer`, `ollamaCalls`, `returnedCalls`: the calls of the answers of a process.
* `idsFrom`, `nodup_idsFrom`: the ids that the counter mints.
* `streamedCalls_eq`: the calls of a streamed answer are those of its complete lines.
* `Identified`, `Addressed`, `identified_iff`: when the ids identify the calls.
-/

namespace EchoAi

/-! ## The answers of a process -/

/-- An answer of the server: read at once, or in pieces. -/
inductive OllamaAnswer where
  | buffered (raw : List UInt8)
  | streamed (pieces : List (List UInt8))
  deriving DecidableEq, Repr

section Process

variable (json : WireJson)

/-- The calls of one answer, with the counter behind it. -/
def ollamaCalls (callSeq : UInt32) : OllamaAnswer → UInt32 × List ToolCall
  | .buffered raw =>
    let (callSeq, resp) := ollamaParseResponse json callSeq raw
    (callSeq, (resp.map LLMResponse.toolCalls).getD [])
  | .streamed pieces => (callSeq, (ollamaChatStreaming json pieces).toolCalls)

/-- The calls of all answers, with the counter behind them. -/
def callsFrom (callSeq : UInt32) : List OllamaAnswer → UInt32 × List ToolCall
  | [] => (callSeq, [])
  | a :: as =>
    let (callSeq, now) := ollamaCalls json callSeq a
    let (callSeq, later) := callsFrom callSeq as
    (callSeq, now ++ later)

/-- The calls that the agent of a process gets; the counter starts at one. -/
def returnedCalls (as : List OllamaAnswer) : List ToolCall := (callsFrom json 1 as).2

/-- Every call has an id that is not empty, and no two have the same. -/
def Identified (calls : List ToolCall) : Prop :=
  (∀ tc ∈ calls, ∃ id, tc.id = some id ∧ id ≠ "") ∧ (calls.map ToolCall.id).Nodup

/-- The message of an answer that is read at once. -/
def bufferedMessage (raw : List UInt8) : Option JsonValue :=
  (json.parse (cString raw)).bind (·.member "message")

/-- Every entry of `tool_calls` in an answer that is read at once is a function, and no complete
line of a streamed answer carries a call. -/
def OllamaAnswer.Addressed : OllamaAnswer → Prop
  | .buffered raw => ∀ msg ∈ bufferedMessage json raw, ∀ tc ∈ toolCallItems msg,
      (tc.member "function").isSome = true
  | .streamed pieces => ∀ line ∈ (answerLines pieces.flatten).dropLast, ¬CarriesCall json line

end Process

/-! ## Minted ids -/

theorem mintId_injective {s t : UInt32} (h : mintId s = mintId t) : s = t := by
  rw [mintId, mintId, String.append_right_inj, String.ofList_inj] at h
  have hnat := congrArg JsonText.digitsValue h
  rw [JsonText.digitsValue_printNat, JsonText.digitsValue_printNat] at hnat
  exact UInt32.toNat_inj.1 hnat

theorem mintId_ne_empty (s : UInt32) : mintId s ≠ "" := by
  intro h
  have hlen := congrArg String.length h
  rw [mintId, String.length_append] at hlen
  have hcall : "call_".length = 5 := rfl
  have hempty : "".length = 0 := rfl
  omega

/-- The ids of the next `n` calls. -/
def idsFrom (callSeq : UInt32) (n : Nat) : List (Option String) :=
  (List.range n).map fun i => some (mintId (callSeq + UInt32.ofNat i))

theorem idsFrom_succ (callSeq : UInt32) (n : Nat) :
    idsFrom callSeq (n + 1) = some (mintId callSeq) :: idsFrom (callSeq + 1) n := by
  have hstep : ∀ i : Nat, callSeq + UInt32.ofNat (i + 1) = callSeq + 1 + UInt32.ofNat i := by
    intro i
    rw [UInt32.ofNat_add, UInt32.add_assoc, UInt32.add_comm (UInt32.ofNat i)]
    rfl
  have hzero : callSeq + UInt32.ofNat 0 = callSeq := UInt32.add_zero callSeq
  rw [idsFrom, List.range_succ_eq_map, List.map_cons, List.map_map, hzero, idsFrom]
  congr 1
  exact List.map_congr_left fun i _ => by rw [Function.comp_apply, hstep]

theorem idsFrom_add (callSeq : UInt32) (m n : Nat) :
    idsFrom callSeq (m + n) = idsFrom callSeq m ++ idsFrom (callSeq + UInt32.ofNat m) n := by
  have hstep : ∀ i : Nat, callSeq + UInt32.ofNat (m + i) = callSeq + UInt32.ofNat m +
      UInt32.ofNat i := by
    intro i
    rw [UInt32.ofNat_add, UInt32.add_assoc]
  rw [idsFrom, List.range_add, List.map_append, List.map_map, idsFrom, idsFrom]
  congr 1
  exact List.map_congr_left fun i _ => by rw [Function.comp_apply, hstep]

/-- The counter does not come round before `2 ^ 32` calls. -/
theorem nodup_idsFrom (callSeq : UInt32) {n : Nat} (hn : n < 2 ^ 32) :
    (idsFrom callSeq n).Nodup := by
  refine List.Nodup.map_on ?_ List.nodup_range
  intro i hi j hj hij
  rw [List.mem_range] at hi hj
  have hsum := UInt32.add_right_inj callSeq |>.1 (mintId_injective (Option.some.inj hij))
  have hnat := congrArg UInt32.toNat hsum
  rw [UInt32.toNat_ofNat', UInt32.toNat_ofNat', Nat.mod_eq_of_lt (by omega),
    Nat.mod_eq_of_lt (by omega)] at hnat
  exact hnat

/-! ## The calls of an answer -/

variable {json : WireJson}

/-- The calls that a complete line adds. -/
def lineCalls (json : WireJson) (line : List UInt8) : List ToolCall :=
  match lineMessage json line with
  | some msg => (toolCallItems msg).filterMap (streamCall json)
  | none => []

theorem lineCalls_eq_nil_iff (line : List UInt8) :
    lineCalls json line = [] ↔ ¬CarriesCall json line := by
  rw [lineCalls, CarriesCall]
  cases lineMessage json line with
  | none => simp
  | some msg =>
    simp only [filterMap_streamCall_eq_nil_iff, Option.some.injEq, exists_eq_left', not_exists,
      not_and]

theorem forwardChunk_toolCalls (buf : WriteBuf) (msg : JsonValue) :
    (forwardChunk buf msg).toolCalls = buf.toolCalls := by
  simp only [forwardChunk, forwardThinking, forwardContent]
  split_ifs
  all_goals rfl

theorem takeLine_toolCalls (buf : WriteBuf) (line : List UInt8) :
    (takeLine json buf line).toolCalls = buf.toolCalls ++ lineCalls json line := by
  rw [takeLine, lineCalls]
  cases lineMessage json line with
  | some msg =>
    show (forwardChunk buf msg).toolCalls ++ _ = _
    rw [forwardChunk_toolCalls]
  | none => exact (List.append_nil _).symm

theorem takeRest_toolCalls (buf : WriteBuf) : (takeRest json buf).toolCalls = buf.toolCalls := by
  rw [takeRest]
  split
  · exact forwardChunk_toolCalls buf _
  · rfl

theorem foldl_takeLine_toolCalls (lines : List (List UInt8)) (buf : WriteBuf) :
    (lines.foldl (takeLine json) buf).toolCalls =
      buf.toolCalls ++ lines.flatMap (lineCalls json) := by
  induction lines generalizing buf with
  | nil => exact (List.append_nil _).symm
  | cons line lines ih =>
    rw [List.foldl_cons, ih, takeLine_toolCalls, List.flatMap_cons, List.append_assoc]

/-- The calls of a streamed answer are those of its complete lines. -/
theorem streamedCalls_eq (pieces : List (List UInt8)) :
    (ollamaChatStreaming json pieces).toolCalls =
      (answerLines pieces.flatten).dropLast.flatMap (lineCalls json) := by
  have hstart : Between ({} : WriteBuf) := ⟨rfl, List.not_mem_nil⟩
  obtain ⟨complete, last, hsplit, hfold⟩ := @foldl_writeByte_eq json pieces.flatten {}
  show (takeRest json (pieces.foldl (writeCb json) {})).toolCalls = _
  rw [takeRest_toolCalls, foldl_writeCb pieces hstart]
  show (pieces.flatten.foldl (writeByte json) { data := [] }).toolCalls = _
  rw [hfold, hsplit, List.dropLast_concat]
  show (complete.foldl (takeLine json) {}).toolCalls = _
  rw [foldl_takeLine_toolCalls, List.nil_append]

/-- The calls of a streamed answer have the empty id. -/
theorem id_of_mem_lineCalls {line : List UInt8} {tc : ToolCall} (h : tc ∈ lineCalls json line) :
    tc.id = some "" := by
  rw [lineCalls] at h
  split at h
  · obtain ⟨item, _, hitem⟩ := List.mem_filterMap.1 h
    rw [streamCall] at hitem
    cases hfn : item.member "function" with
    | none =>
      rw [hfn] at hitem
      exact absurd hitem (by simp)
    | some fn =>
      rw [hfn] at hitem
      simp only [Option.bind_eq_bind, Option.bind_some] at hitem
      split at hitem
      · exact absurd hitem (by simp)
      · rw [← Option.some.inj hitem]
  · exact absurd h List.not_mem_nil

/-- The calls of functions get the next ids. -/
theorem parseCalls_ids {items : List JsonValue}
    (hitems : ∀ tc ∈ items, (tc.member "function").isSome = true) (callSeq : UInt32) :
    (parseCalls json callSeq items).2.map ToolCall.id = idsFrom callSeq items.length ∧
      (parseCalls json callSeq items).1 = callSeq + UInt32.ofNat items.length := by
  induction items generalizing callSeq with
  | nil => exact ⟨rfl, (UInt32.add_zero callSeq).symm⟩
  | cons tc items ih =>
    rw [List.forall_mem_cons] at hitems
    obtain ⟨fn, hfn⟩ := Option.isSome_iff_exists.1 hitems.1
    obtain ⟨hids, hseq⟩ := ih hitems.2 (callSeq + 1)
    simp only [parseCalls, hfn]
    constructor
    · rw [List.map_cons, hids, List.length_cons, idsFrom_succ]
    · rw [hseq, List.length_cons, UInt32.ofNat_add, UInt32.add_assoc,
        UInt32.add_comm (UInt32.ofNat items.length)]
      rfl

theorem length_parseCalls (items : List JsonValue) (callSeq : UInt32) :
    (parseCalls json callSeq items).2.length = items.length := by
  induction items generalizing callSeq with
  | nil => rfl
  | cons tc items ih =>
    rw [parseCalls]
    split
    · rw [List.length_cons, ih, List.length_cons]
    · rw [List.length_cons, ih, List.length_cons]

/-- An entry that is no function brings a call without an id. -/
theorem exists_noId_of_parseCalls {items : List JsonValue} {tc : JsonValue} (htc : tc ∈ items)
    (hfn : tc.member "function" = none) (callSeq : UInt32) :
    ∃ call ∈ (parseCalls json callSeq items).2, call.id = none := by
  induction items generalizing callSeq with
  | nil => exact absurd htc List.not_mem_nil
  | cons item items ih =>
    rcases List.mem_cons.1 htc with rfl | htc
    · rw [parseCalls, hfn]
      exact ⟨{}, List.mem_cons_self .., rfl⟩
    · rw [parseCalls]
      split
      · obtain ⟨call, hcall, hid⟩ := ih htc callSeq
        exact ⟨call, List.mem_cons_of_mem _ hcall, hid⟩
      · obtain ⟨call, hcall, hid⟩ := ih htc (callSeq + 1)
        exact ⟨call, List.mem_cons_of_mem _ hcall, hid⟩

/-- An answer that is addressed takes the next ids. -/
theorem ollamaCalls_ids {a : OllamaAnswer} (ha : a.Addressed json) (callSeq : UInt32) :
    (ollamaCalls json callSeq a).2.map ToolCall.id =
        idsFrom callSeq (ollamaCalls json callSeq a).2.length ∧
      (ollamaCalls json callSeq a).1 =
        callSeq + UInt32.ofNat (ollamaCalls json callSeq a).2.length := by
  cases a with
  | buffered raw =>
    simp only [ollamaCalls, ollamaParseResponse]
    cases hmsg : (json.parse (cString raw)).bind (·.member "message") with
    | none => exact ⟨rfl, (UInt32.add_zero callSeq).symm⟩
    | some msg =>
      obtain ⟨hids, hseq⟩ := @parseCalls_ids json _ (ha msg hmsg) callSeq
      show (parseCalls json callSeq (toolCallItems msg)).2.map ToolCall.id =
          idsFrom callSeq (parseCalls json callSeq (toolCallItems msg)).2.length ∧ _ = _ +
          UInt32.ofNat (parseCalls json callSeq (toolCallItems msg)).2.length
      rw [length_parseCalls]
      exact ⟨hids, hseq⟩
  | streamed pieces =>
    have hnone : (ollamaChatStreaming json pieces).toolCalls = [] := by
      rw [streamedCalls_eq, List.flatMap_eq_nil_iff]
      exact fun line hline => (lineCalls_eq_nil_iff line).2 (ha line hline)
    rw [ollamaCalls, hnone]
    exact ⟨rfl, (UInt32.add_zero callSeq).symm⟩

/-- An answer that is not addressed brings a call without an id or with the empty one. -/
theorem exists_of_not_addressed {a : OllamaAnswer} (ha : ¬a.Addressed json) (callSeq : UInt32) :
    ∃ tc ∈ (ollamaCalls json callSeq a).2, tc.id = none ∨ tc.id = some "" := by
  cases a with
  | buffered raw =>
    simp only [OllamaAnswer.Addressed, not_forall, Bool.not_eq_true, Option.isSome_eq_false_iff,
      Option.isNone_iff_eq_none] at ha
    obtain ⟨msg, hmsg, tc, htc, hfn⟩ := ha
    have hmsg : (json.parse (cString raw)).bind (·.member "message") = some msg := hmsg
    obtain ⟨call, hcall, hid⟩ := @exists_noId_of_parseCalls json _ _ htc hfn callSeq
    refine ⟨call, ?_, Or.inl hid⟩
    simp only [ollamaCalls, ollamaParseResponse, hmsg]
    exact hcall
  | streamed pieces =>
    simp only [OllamaAnswer.Addressed, not_forall, not_not] at ha
    obtain ⟨line, hline, hcarries⟩ := ha
    have hne : lineCalls json line ≠ [] := fun h => (lineCalls_eq_nil_iff line).1 h hcarries
    obtain ⟨tc, htc⟩ := List.exists_mem_of_ne_nil _ hne
    refine ⟨tc, ?_, Or.inr (id_of_mem_lineCalls htc)⟩
    rw [ollamaCalls, streamedCalls_eq]
    exact List.mem_flatMap.2 ⟨line, hline, htc⟩

theorem callsFrom_cons (callSeq : UInt32) (a : OllamaAnswer) (as : List OllamaAnswer) :
    (callsFrom json callSeq (a :: as)).2 = (ollamaCalls json callSeq a).2 ++
      (callsFrom json (ollamaCalls json callSeq a).1 as).2 := rfl

/-- Addressed answers, one after the other, take the next ids. -/
theorem callsFrom_ids {as : List OllamaAnswer} (has : ∀ a ∈ as, a.Addressed json)
    (callSeq : UInt32) :
    (callsFrom json callSeq as).2.map ToolCall.id =
      idsFrom callSeq (callsFrom json callSeq as).2.length := by
  induction as generalizing callSeq with
  | nil => rfl
  | cons a as ih =>
    rw [List.forall_mem_cons] at has
    obtain ⟨hids, hseq⟩ := ollamaCalls_ids has.1 callSeq
    have hlater := ih has.2 (ollamaCalls json callSeq a).1
    rw [callsFrom_cons, List.map_append, List.length_append, idsFrom_add, ← hids, ← hseq, hlater]

/-- An answer that is not addressed is seen among the calls. -/
theorem exists_of_callsFrom {as : List OllamaAnswer} {a : OllamaAnswer} (ha : a ∈ as)
    (hbad : ¬a.Addressed json) (callSeq : UInt32) :
    ∃ tc ∈ (callsFrom json callSeq as).2, tc.id = none ∨ tc.id = some "" := by
  induction as generalizing callSeq with
  | nil => exact absurd ha List.not_mem_nil
  | cons b as ih =>
    rw [callsFrom_cons]
    rcases List.mem_cons.1 ha with rfl | ha
    · obtain ⟨tc, htc, hid⟩ := exists_of_not_addressed hbad callSeq
      exact ⟨tc, List.mem_append_left _ htc, hid⟩
    · obtain ⟨tc, htc, hid⟩ := ih ha (ollamaCalls json callSeq b).1
      exact ⟨tc, List.mem_append_right _ htc, hid⟩

/-! ## When the ids identify the calls -/

/-- The ids identify the calls of a process just when no entry of an answer that is read at once
lacks its function and no complete line of a streamed answer carries a call. -/
theorem identified_iff (json : WireJson) (as : List OllamaAnswer)
    (hfew : (returnedCalls json as).length < 2 ^ 32) :
    Identified (returnedCalls json as) ↔ ∀ a ∈ as, a.Addressed json := by
  constructor
  · rintro ⟨hids, -⟩ a ha
    by_contra hbad
    obtain ⟨tc, htc, hid⟩ := exists_of_callsFrom ha hbad 1
    obtain ⟨id, hsome, hne⟩ := hids tc htc
    rcases hid with hid | hid
    · rw [hid] at hsome
      exact absurd hsome (by simp)
    · rw [hid, Option.some.injEq] at hsome
      exact hne hsome.symm
  · intro has
    have hids := callsFrom_ids has 1
    constructor
    · intro tc htc
      have hmem : tc.id ∈ idsFrom 1 (returnedCalls json as).length := by
        rw [returnedCalls, ← hids]
        exact List.mem_map_of_mem htc
      obtain ⟨i, _, hi⟩ := List.mem_map.1 hmem
      exact ⟨_, hi.symm, mintId_ne_empty _⟩
    · rw [returnedCalls, hids]
      exact nodup_idsFrom 1 hfew

/-- The calls of two answers that are read at once. -/
theorem identified_buffered :
    Identified (returnedCalls byteJson [.buffered callLine, .buffered callLine]) ∧
      (returnedCalls byteJson [.buffered callLine, .buffered callLine]).length = 2 := by
  have hlen : (returnedCalls byteJson [.buffered callLine, .buffered callLine]).length = 2 := by
    rw [byteJson_eq]
    decide +kernel
  refine ⟨(identified_iff byteJson _ (by rw [hlen]; decide)).2 ?_, hlen⟩
  have hfn : (((byteJson.parse (cString callLine)).bind (·.member "message")).map toolCallItems).all
      (·.all fun tc => (tc.member "function").isSome) = true := by
    rw [byteJson_eq]
    decide +kernel
  have hone : (OllamaAnswer.buffered callLine).Addressed byteJson := by
    intro msg hmsg tc htc
    have hmsg : (byteJson.parse (cString callLine)).bind (·.member "message") = some msg := hmsg
    rw [hmsg] at hfn
    exact List.all_eq_true.1 hfn tc htc
  simp [hone]

/-- A streamed answer with a call in each of two lines. -/
def twoCalls : OllamaAnswer := .streamed [callLine ++ ascii "\n" ++ callLine ++ ascii "\n"]

/-- Its two calls have the empty id. -/
theorem not_identified_twoCalls : ¬Identified (returnedCalls byteJson [twoCalls]) ∧
    (returnedCalls byteJson [twoCalls]).map ToolCall.id = [some "", some ""] := by
  have hids : (returnedCalls byteJson [twoCalls]).map ToolCall.id = [some "", some ""] := by
    rw [byteJson_eq]
    decide +kernel
  refine ⟨fun h => ?_, hids⟩
  have hnodup := h.2
  rw [hids] at hnodup
  exact absurd hnodup (by decide)

end EchoAi
