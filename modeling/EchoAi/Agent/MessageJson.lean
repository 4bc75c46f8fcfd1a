import EchoAi.Agent.Message
import EchoAi.Json.Text

/-!
# Messages as JSON

A list of messages is stored as one JSON array, written by `messages_to_json_array` and read back by
`session_deserialize_messages`.  The members of an item are enumerated by `MessageKey`, those of a
tool call by `CallKey` and those of its `function` object by `FunctionKey`; their names are the
source's.

Both directions allocate at every step.  `EncodeSite` and `DecodeSite` name the operations that may
fail.  The writer looks at the result of a few of them only (`EncodeSite.checked`) and leaves a
member out when it could not add it; the reader looks at all but one (`DecodeSite.checked`), the
array of a message's tool calls.

* `messagesToJsonArray`, `sessionDeserializeMessages`: the two routines under failing operations.
* `messageJson`, `readMessage`: what they do with one message when nothing fails.
* `abortsOr_messagesToJsonArray`, `abortsOr_sessionDeserializeMessages`: when only checked operations
  fail, each routine gives up or does what it does without failures.
-/

namespace EchoAi

open JsonValue

/-! ## Member names -/

/-- The members of a message. -/
inductive MessageKey where
  | role | content | thinking | phase | providerState | toolName | errorCategory | id | parentId
  | forkGroupId | timestamp | toolCalls | toolCallId
  deriving DecidableEq, Repr

/-- The members of a tool call. -/
inductive CallKey where
  | id | type | function | resultContent | resultError
  deriving DecidableEq, Repr

/-- The members of the function of a tool call. -/
inductive FunctionKey where
  | name | arguments
  deriving DecidableEq, Repr

namespace MessageKey

/-- The name under which a member of a message is stored. -/
def label : MessageKey → String
  | role => "role"
  | content => "content"
  | thinking => "thinking"
  | phase => "phase"
  | providerState => "provider_state"
  | toolName => "tool_name"
  | errorCategory => "error_category"
  | id => "id"
  | parentId => "parent_id"
  | forkGroupId => "fork_group_id"
  | timestamp => "timestamp"
  | toolCalls => "tool_calls"
  | toolCallId => "tool_call_id"

/-- Whether the writer looks at the result of adding the member. -/
def checked : MessageKey → Bool
  | phase => true
  | providerState => true
  | _ => false

end MessageKey

/-- The name under which a member of a tool call is stored. -/
def CallKey.label : CallKey → String
  | .id => "id"
  | .type => "type"
  | .function => "function"
  | .resultContent => "result_content"
  | .resultError => "result_error"

/-- The name under which a member of a call's function is stored. -/
def FunctionKey.label : FunctionKey → String
  | .name => "name"
  | .arguments => "arguments"

/-- All members of a message. -/
def MessageKey.all : List MessageKey :=
  [.role, .content, .thinking, .phase, .providerState, .toolName, .errorCategory, .id, .parentId,
    .forkGroupId, .timestamp, .toolCalls, .toolCallId]

theorem MessageKey.mem_all (k : MessageKey) : k ∈ MessageKey.all := by
  cases k <;> decide

/-- Distinct members of a message have names that differ in more than letter case. -/
theorem MessageKey.eq_of_sameLabel (k k' : MessageKey) (h : sameName k.label k'.label = true) :
    k = k' := by
  have hall : ∀ k ∈ MessageKey.all, ∀ k' ∈ MessageKey.all,
      sameName k.label k'.label = true → k = k' := by
    decide +kernel
  exact hall k k.mem_all k' k'.mem_all h

/-- All members of a tool call. -/
def CallKey.all : List CallKey :=
  [.id, .type, .function, .resultContent, .resultError]

theorem CallKey.mem_all (k : CallKey) : k ∈ CallKey.all := by
  cases k <;> decide

/-- Distinct members of a tool call have names that differ in more than letter case. -/
theorem CallKey.eq_of_sameLabel (k k' : CallKey) (h : sameName k.label k'.label = true) :
    k = k' := by
  have hall : ∀ k ∈ CallKey.all, ∀ k' ∈ CallKey.all,
      sameName k.label k'.label = true → k = k' := by
    decide +kernel
  exact hall k k.mem_all k' k'.mem_all h

/-- All members of a call's function. -/
def FunctionKey.all : List FunctionKey :=
  [.name, .arguments]

theorem FunctionKey.mem_all (k : FunctionKey) : k ∈ FunctionKey.all := by
  cases k <;> decide

/-- Distinct members of a call's function have names that differ in more than letter case. -/
theorem FunctionKey.eq_of_sameLabel (k k' : FunctionKey) (h : sameName k.label k'.label = true) :
    k = k' := by
  have hall : ∀ k ∈ FunctionKey.all, ∀ k' ∈ FunctionKey.all,
      sameName k.label k'.label = true → k = k' := by
    decide +kernel
  exact hall k k.mem_all k' k'.mem_all h

/-! ## Operations that may fail -/

/-- The operations of the writer. -/
inductive EncodeSite where
  /-- creating the array -/
  | array
  /-- creating the object of a message -/
  | item (i : Nat)
  /-- adding a member to a message -/
  | field (i : Nat) (k : MessageKey)
  /-- creating the object of a tool call -/
  | call (i j : Nat)
  /-- adding a member to a tool call -/
  | callField (i j : Nat) (k : CallKey)
  /-- adding a member to the function of a tool call -/
  | functionField (i j : Nat) (k : FunctionKey)
  /-- parsing the arguments of a tool call -/
  | parseArguments (i j : Nat)
  /-- printing the array -/
  | print
  deriving DecidableEq, Repr

/-- The operations whose failure makes the writer give up. -/
def EncodeSite.checked : EncodeSite → Bool
  | array => true
  | item _ => true
  | field _ k => k.checked
  | print => true
  | _ => false

/-- The operations of the reader. -/
inductive DecodeSite where
  /-- parsing the text -/
  | parse
  /-- allocating the messages -/
  | array
  /-- copying a text of a message -/
  | field (i : Nat) (k : MessageKey)
  /-- allocating the tool calls of a message -/
  | toolCalls (i : Nat)
  /-- copying a text of a tool call -/
  | callField (i j : Nat) (k : CallKey)
  /-- copying a text of a call's function, or printing its arguments -/
  | functionField (i j : Nat) (k : FunctionKey)
  deriving DecidableEq, Repr

/-- The operations whose failure makes the reader give up. -/
def DecodeSite.checked : DecodeSite → Bool
  | toolCalls _ => false
  | _ => true

/-- Members added to an object one after the other: a member whose addition fails is left out, or
makes the writer give up when the result is looked at. -/
def addFields {κ : Type} (failed checked : κ → Bool) (fs : List (κ × JsonValue)) :
    Option (List (κ × JsonValue)) := do
  attempt (fs.any fun f => failed f.1 && checked f.1)
  return fs.filter fun f => !failed f.1

theorem abortsOr_addFields {κ : Type} {failed : Faults κ} {checked : κ → Bool}
    (h : failed.OnlyIn checked) (fs : List (κ × JsonValue)) :
    AbortsOr (addFields failed checked fs) (some fs) := by
  unfold addFields
  by_cases hany : ∃ f ∈ fs, failed f.1 = true
  · obtain ⟨f, hf, hfail⟩ := hany
    have hgiveUp : (fs.any fun f => failed f.1 && checked f.1) = true :=
      List.any_eq_true.mpr ⟨f, hf, by rw [hfail, h _ hfail]; rfl⟩
    rw [hgiveUp]
    exact AbortsOr.none_left _
  · have hnone : ∀ f ∈ fs, failed f.1 = false := fun f hf =>
      Bool.eq_false_iff.mpr fun hfail => hany ⟨f, hf, hfail⟩
    have hkeep : fs.filter (fun f => !failed f.1) = fs :=
      List.filter_eq_self.mpr fun f hf => by rw [hnone f hf]; rfl
    rw [hkeep]
    exact AbortsOr.attempt_bind _ (AbortsOr.refl _)

@[simp] theorem addFields_none {κ : Type} (checked : κ → Bool) (fs : List (κ × JsonValue)) :
    addFields (fun _ => false) checked fs = some fs := by
  have hany : (fs.any fun f => (fun _ => false) f.1 && checked f.1) = false := by simp
  have hkeep : (fs.filter fun f => !(fun _ => false) f.1) = fs := by simp
  rw [addFields, hany, hkeep]
  rfl

/-! ## Writing -/

section Encode

variable (codec : JsonCodec)

/-- The arguments of a call as a value: the value of their text, or the text itself when it does not
parse. -/
def argumentsJson (failed : Bool) (arguments : Option String) : JsonValue :=
  match if failed then none else arguments.bind codec.parse with
  | some v => v
  | none => .string (arguments.getD "")

/-- The members of a call's `function`. -/
def functionFields (fail : Faults EncodeSite) (i j : Nat) (tc : ToolCall) :
    List (FunctionKey × JsonValue) :=
  [(.name, .string (tc.name.getD "")),
    (.arguments, argumentsJson codec (fail (.parseArguments i j)) tc.arguments)]

/-- The `function` of a call. -/
def functionJson (fail : Faults EncodeSite) (i j : Nat) (tc : ToolCall) : JsonValue :=
  ofFields FunctionKey.label
    ((functionFields codec fail i j tc).filter fun f => !fail (.functionField i j f.1))

/-- The members of a call. -/
def callFields (fail : Faults EncodeSite) (i j : Nat) (tc : ToolCall) :
    List (CallKey × Option JsonValue) :=
  [(.id, some (.string (tc.id.getD ""))),
    (.type, some (.string "function")),
    (.function, some (functionJson codec fail i j tc)),
    (.resultContent, tc.resultContent.map .string),
    (.resultError, tc.resultError.map .string)]

/-- One tool call.  None of its operations is looked at: a call whose object could not be created is
left out, as is a member that could not be added. -/
def encodeCall (fail : Faults EncodeSite) (i j : Nat) (tc : ToolCall) : Option JsonValue := do
  attempt (fail (.call i j))
  return ofFields CallKey.label
    ((presentFields (callFields codec fail i j tc)).filter fun f => !fail (.callField i j f.1))

/-- The members of a message, in the order in which they are written.  Role and content are always
there, the other texts when they are present, the timestamp when it is positive and the tool calls
when there are any. -/
def messageFields (fail : Faults EncodeSite) (i : Nat) (m : Message) :
    List (MessageKey × Option JsonValue) :=
  [(.role, some (.string (m.role.getD ""))),
    (.content, some (.string (m.content.getD ""))),
    (.thinking, m.thinking.map .string),
    (.phase, m.phase.map .string),
    (.providerState, m.providerState.map .string),
    (.toolName, m.toolName.map .string),
    (.errorCategory, m.errorCategory.map .string),
    (.id, m.id.map .string),
    (.parentId, m.parentId.map .string),
    (.forkGroupId, m.forkGroupId.map .string),
    (.timestamp, if m.timestamp.isPositive then some (.number m.timestamp) else none),
    (.toolCalls, if m.toolCalls.isEmpty then none
      else some (.array (collectFrom (encodeCall codec fail i) 0 m.toolCalls))),
    (.toolCallId, m.toolCallId.map .string)]

/-- One message. -/
def encodeMessage (fail : Faults EncodeSite) (i : Nat) (m : Message) : Option JsonValue := do
  attempt (fail (.item i))
  let fs ← addFields (fun k => fail (.field i k)) MessageKey.checked
    (presentFields (messageFields codec fail i m))
  return ofFields MessageKey.label fs

/-- `messages_to_json_array`. -/
def messagesToJsonArray (fail : Faults EncodeSite) (msgs : List Message) : Option JsonValue := do
  attempt (fail .array)
  let items ← traverseFrom (encodeMessage codec fail) 0 msgs
  return .array items

/-- `session_serialize_messages_new`. -/
def sessionSerializeMessagesNew (fail : Faults EncodeSite) (msgs : List Message) :
    Option String := do
  let arr ← messagesToJsonArray codec fail msgs
  attempt (fail .print)
  return codec.print arr

end Encode

/-! ## Reading -/

section Decode

variable (codec : JsonCodec)

/-- The text under a name, absent when there is no such member or it is no string. -/
def textMember (j : JsonValue) (name : String) : Option String :=
  (j.member name).bind stringValue

/-- One tool call. -/
def decodeCall (fail : Faults DecodeSite) (i j : Nat) (tc : JsonValue) : Option ToolCall := do
  let fn := tc.member CallKey.function.label
  let id ← strDup (fail (.callField i j .id)) (textMember tc CallKey.id.label)
  let name ← strDup (fail (.functionField i j .name))
    (fn.bind fun f => textMember f FunctionKey.name.label)
  let arguments ← strDup (fail (.functionField i j .arguments))
    ((fn.bind fun f => f.member FunctionKey.arguments.label).map codec.print)
  let resultContent ← strDup (fail (.callField i j .resultContent))
    (textMember tc CallKey.resultContent.label)
  let resultError ← strDup (fail (.callField i j .resultError))
    (textMember tc CallKey.resultError.label)
  return { id, name, arguments, resultContent, resultError }

/-- The tool calls of a message.  When their array cannot be allocated the message has none. -/
def decodeCalls (fail : Faults DecodeSite) (i : Nat) (arr : Option JsonValue) :
    Option (List ToolCall) :=
  match arr with
  | none => some []
  | some arr =>
    if fail (.toolCalls i) then some [] else traverseFrom (decodeCall codec fail i) 0 arr.items

/-- One message. -/
def decodeMessage (fail : Faults DecodeSite) (i : Nat) (item : JsonValue) : Option Message := do
  let text := fun (k : MessageKey) => strDup (fail (.field i k)) (textMember item k.label)
  let role ← strDup (fail (.field i .role)) (some ((textMember item MessageKey.role.label).getD ""))
  let content ← strDup (fail (.field i .content))
    (some ((textMember item MessageKey.content.label).getD ""))
  let id ← text .id
  let parentId ← text .parentId
  let forkGroupId ← text .forkGroupId
  let toolCallId ← text .toolCallId
  let toolName ← text .toolName
  let errorCategory ← text .errorCategory
  let thinking ← text .thinking
  let phase ← text .phase
  let providerState ← text .providerState
  let timestamp := ((item.member MessageKey.timestamp.label).bind numberValue).getD .zero
  let toolCalls ← decodeCalls codec fail i (item.member MessageKey.toolCalls.label)
  return { role, content, id, parentId, forkGroupId, toolCalls, toolCallId, toolName,
           errorCategory, timestamp, thinking, phase, providerState }

/-- `session_deserialize_messages`: absent when it returns -1. -/
def sessionDeserializeMessages (fail : Faults DecodeSite) (text : String) :
    Option (List Message) := do
  attempt (fail .parse)
  let arr ← codec.parse text
  attempt (!arr.isArray)
  attempt (fail .array && !arr.items.isEmpty)
  traverseFrom (decodeMessage codec fail) 0 arr.items

end Decode

/-! ## Without failures -/

section Pure

variable (codec : JsonCodec)

/-- The JSON of a tool call. -/
def callJson (tc : ToolCall) : JsonValue :=
  ofFields CallKey.label (presentFields (callFields codec Faults.none 0 0 tc))

/-- The JSON of a message. -/
def messageJson (m : Message) : JsonValue :=
  ofFields MessageKey.label (presentFields (messageFields codec Faults.none 0 m))

/-- The JSON of a list of messages. -/
def messagesJson (msgs : List Message) : JsonValue :=
  .array (msgs.map (messageJson codec))

/-- The tool call that a JSON value holds. -/
def readCall (tc : JsonValue) : ToolCall where
  id := textMember tc CallKey.id.label
  name := (tc.member CallKey.function.label).bind fun f => textMember f FunctionKey.name.label
  arguments :=
    ((tc.member CallKey.function.label).bind fun f =>
      f.member FunctionKey.arguments.label).map codec.print
  resultContent := textMember tc CallKey.resultContent.label
  resultError := textMember tc CallKey.resultError.label

/-- The tool calls that an array holds. -/
def readCalls : Option JsonValue → List ToolCall
  | none => []
  | some arr => arr.items.map (readCall codec)

/-- The message that a JSON value holds. -/
def readMessage (item : JsonValue) : Message where
  role := some ((textMember item MessageKey.role.label).getD "")
  content := some ((textMember item MessageKey.content.label).getD "")
  id := textMember item MessageKey.id.label
  parentId := textMember item MessageKey.parentId.label
  forkGroupId := textMember item MessageKey.forkGroupId.label
  toolCalls := readCalls codec (item.member MessageKey.toolCalls.label)
  toolCallId := textMember item MessageKey.toolCallId.label
  toolName := textMember item MessageKey.toolName.label
  errorCategory := textMember item MessageKey.errorCategory.label
  timestamp := ((item.member MessageKey.timestamp.label).bind numberValue).getD .zero
  thinking := textMember item MessageKey.thinking.label
  phase := textMember item MessageKey.phase.label
  providerState := textMember item MessageKey.providerState.label

variable {codec}

theorem filter_not_false {α : Type} {f : α → Bool} (h : ∀ a, f a = false) (as : List α) :
    as.filter (fun a => !f a) = as :=
  List.filter_eq_self.mpr fun a _ => by rw [h]; rfl

/-- The operations on a message that only unchecked failures can disturb. -/
theorem callFields_eq {fail : Faults EncodeSite} (h : fail.OnlyIn EncodeSite.checked) (i j : Nat)
    (tc : ToolCall) : callFields codec fail i j tc = callFields codec Faults.none 0 0 tc := by
  have hfield : ∀ f : FunctionKey × JsonValue, fail (.functionField i j f.1) = false := fun f =>
    h.eq_false rfl
  rw [callFields, functionJson, filter_not_false hfield, functionFields,
    h.eq_false (s := .parseArguments i j) rfl]
  rfl

theorem encodeCall_eq {fail : Faults EncodeSite} (h : fail.OnlyIn EncodeSite.checked) (i j : Nat)
    (tc : ToolCall) : encodeCall codec fail i j tc = some (callJson codec tc) := by
  have hfield : ∀ f : CallKey × JsonValue, fail (.callField i j f.1) = false := fun f =>
    h.eq_false rfl
  rw [encodeCall, h.eq_false (s := .call i j) rfl, filter_not_false hfield, callFields_eq h]
  rfl

theorem messageFields_eq {fail : Faults EncodeSite} (h : fail.OnlyIn EncodeSite.checked) (i : Nat)
    (m : Message) : messageFields codec fail i m = messageFields codec Faults.none 0 m := by
  rw [messageFields, messageFields, collectFrom_total (fun j tc => encodeCall_eq h i j tc),
    collectFrom_total (fun j tc => encodeCall_eq (Faults.onlyIn_none _) 0 j tc)]

theorem abortsOr_encodeMessage {fail : Faults EncodeSite} (h : fail.OnlyIn EncodeSite.checked)
    (i : Nat) (m : Message) :
    AbortsOr (encodeMessage codec fail i m) (some (messageJson codec m)) := by
  have hchecked : Faults.OnlyIn (fun k => fail (.field i k)) MessageKey.checked := fun k hk =>
    h (.field i k) hk
  refine AbortsOr.attempt_bind _ (AbortsOr.bind_some (abortsOr_addFields hchecked _) ?_)
  rw [messageFields_eq h]
  exact AbortsOr.refl _

/-- **Writing with checked failures only** gives up or writes every message. -/
theorem abortsOr_messagesToJsonArray {fail : Faults EncodeSite}
    (h : fail.OnlyIn EncodeSite.checked) (msgs : List Message) :
    AbortsOr (messagesToJsonArray codec fail msgs) (some (messagesJson codec msgs)) := by
  refine AbortsOr.attempt_bind _ (AbortsOr.bind_some (a := msgs.map (messageJson codec)) ?_ ?_)
  · exact AbortsOr.traverseFrom (fun i m => abortsOr_encodeMessage h i m) 0 msgs
  · exact AbortsOr.refl _

theorem abortsOr_sessionSerializeMessagesNew {fail : Faults EncodeSite}
    (h : fail.OnlyIn EncodeSite.checked) (msgs : List Message) :
    AbortsOr (sessionSerializeMessagesNew codec fail msgs)
      (some (codec.print (messagesJson codec msgs))) :=
  AbortsOr.bind_some (abortsOr_messagesToJsonArray h msgs)
    (AbortsOr.attempt_bind _ (AbortsOr.refl _))

theorem abortsOr_decodeCall {fail : Faults DecodeSite} (i j : Nat) (tc : JsonValue) :
    AbortsOr (decodeCall codec fail i j tc) (some (readCall codec tc)) := by
  refine AbortsOr.bind_some (abortsOr_strDup _ _) ?_
  refine AbortsOr.bind_some (abortsOr_strDup _ _) ?_
  refine AbortsOr.bind_some (abortsOr_strDup _ _) ?_
  refine AbortsOr.bind_some (abortsOr_strDup _ _) ?_
  refine AbortsOr.bind_some (abortsOr_strDup _ _) ?_
  exact AbortsOr.refl _

theorem abortsOr_decodeCalls {fail : Faults DecodeSite} {i : Nat}
    (h : fail (.toolCalls i) = false) (arr : Option JsonValue) :
    AbortsOr (decodeCalls codec fail i arr) (some (readCalls codec arr)) := by
  cases arr with
  | none => exact AbortsOr.refl _
  | some arr =>
    rw [decodeCalls, h]
    exact AbortsOr.traverseFrom (fun j tc => abortsOr_decodeCall i j tc) 0 arr.items

theorem abortsOr_decodeMessage {fail : Faults DecodeSite} {i : Nat}
    (h : fail (.toolCalls i) = false) (item : JsonValue) :
    AbortsOr (decodeMessage codec fail i item) (some (readMessage codec item)) := by
  -- role, content and the nine optional texts are copied one after the other
  refine AbortsOr.bind_some (abortsOr_strDup _ _) ?_
  refine AbortsOr.bind_some (abortsOr_strDup _ _) ?_
  iterate 9 refine AbortsOr.bind_some (abortsOr_strDup _ _) ?_
  exact AbortsOr.bind_some (abortsOr_decodeCalls h _) (AbortsOr.refl _)

/-- The messages that a stored text holds. -/
def readMessages (codec : JsonCodec) (text : String) : Option (List Message) :=
  match codec.parse text with
  | some (.array items) => some (items.map (readMessage codec))
  | _ => none

/-- **Reading with checked failures only** gives up or reads every message. -/
theorem abortsOr_sessionDeserializeMessages {fail : Faults DecodeSite}
    (h : fail.OnlyIn DecodeSite.checked) (text : String) :
    AbortsOr (sessionDeserializeMessages codec fail text) (readMessages codec text) := by
  refine AbortsOr.attempt_bind _ ?_
  unfold readMessages
  cases codec.parse text with
  | none => exact AbortsOr.refl _
  | some arr =>
    cases arr with
    | array items =>
      refine AbortsOr.attempt_bind (fail .array && !items.isEmpty) ?_
      exact AbortsOr.traverseFrom
        (fun i item => abortsOr_decodeMessage (h.eq_false (s := .toolCalls i) rfl) item) 0 items
    | _ => exact AbortsOr.refl _

theorem messagesToJsonArray_none (msgs : List Message) :
    messagesToJsonArray codec Faults.none msgs = some (messagesJson codec msgs) := by
  have hitem : ∀ i m, encodeMessage codec Faults.none i m = some (messageJson codec m) := by
    intro i m
    rw [encodeMessage, messageFields_eq (Faults.onlyIn_none _)]
    change (addFields (fun _ => false) MessageKey.checked _).bind _ = _
    rw [addFields_none]
    rfl
  rw [messagesToJsonArray, traverseFrom_total hitem]
  rfl

theorem sessionSerializeMessagesNew_none (msgs : List Message) :
    sessionSerializeMessagesNew codec Faults.none msgs =
      some (codec.print (messagesJson codec msgs)) := by
  rw [sessionSerializeMessagesNew, messagesToJsonArray_none]
  rfl

theorem decodeCall_none (i j : Nat) (tc : JsonValue) :
    decodeCall codec Faults.none i j tc = some (readCall codec tc) := by
  simp only [decodeCall, Faults.none_apply, strDup_false, Option.bind_eq_bind, Option.bind_some,
    Option.pure_def]
  rfl

theorem decodeMessage_none (i : Nat) (item : JsonValue) :
    decodeMessage codec Faults.none i item = some (readMessage codec item) := by
  have hcalls : ∀ arr, decodeCalls codec Faults.none i arr = some (readCalls codec arr) := by
    intro arr
    cases arr with
    | none => rfl
    | some arr => exact traverseFrom_total (fun j tc => decodeCall_none i j tc) 0 arr.items
  simp only [decodeMessage, Faults.none_apply, strDup_false, Option.bind_eq_bind, Option.bind_some,
    Option.pure_def, hcalls]
  rfl

theorem sessionDeserializeMessages_none (text : String) :
    sessionDeserializeMessages codec Faults.none text = readMessages codec text := by
  rw [sessionDeserializeMessages, readMessages]
  cases codec.parse text with
  | none => rfl
  | some arr =>
    cases arr with
    | array items => exact traverseFrom_total (fun i item => decodeMessage_none i item) 0 items
    | _ => rfl

end Pure

end EchoAi
