import EchoAi.Chronicle
import EchoAi.Llm.OpenaiStream

/-!
# The request of the OpenAI provider

The conversation becomes an array of items: the texts, the calls of tools and their outputs, and the
reasoning that the provider handed out before.  Whether a call or an output is a duplicate is looked
for in the messages, not in the items.

* `addInputMessages`: the loop over the messages, with every operation that may fail named by
  `RequestSite`.
* `messageItems`: the items that stand for one message.
* `WellPaired`: every output belongs to exactly one call before it.
* `wellPaired_of_addInputMessages`: an accepted conversation is well paired and its items stand in
  the order of its messages.
-/

namespace EchoAi

/-! ## The items -/

/-- The operations of `add_input_messages`; the ones on a message are named by its index. -/
inductive RequestSite where
  | instruction (i : Nat)
  | output (i : Nat)
  | state (i : Nat)
  | content (i : Nat)
  | call (i j : Nat)
  /-- adding the instructions to the request -/
  | instructions
  deriving DecidableEq, Repr

/-- The value that `json_add_string` adds: a text of bounded length. -/
def boundedString (s : String) : Option JsonValue :=
  if openaiMaxRequestBytes < s.utf8ByteSize then none else some (.string s)

/-- `append_instruction` -/
def appendInstruction (failed : Bool) (instructions : Option String) (text : String) :
    Option String :=
  let current := (instructions.getD "").utf8ByteSize
  let added := text.utf8ByteSize
  if openaiMaxRequestBytes < added ∨ openaiMaxRequestBytes - added < current ∨
      current ≠ 0 ∧ current + added = openaiMaxRequestBytes then none
  else if failed then none
  else some (instructions.getD "" ++ (if current ≠ 0 then "\n" else "") ++ text)

/-- The phase that `add_message_content` adds, of the assistant only. -/
def phaseMembers (role : String) (phase : Option String) : Option (List (String × JsonValue)) :=
  match phase with
  | some p => if role = "assistant" then (boundedString p).map fun v => [("phase", v)] else some []
  | none => some []

/-- `add_message_content`: the item that is added. -/
def messageContentItem (failed : Bool) (role : String) (content phase : Option String) :
    Option JsonValue := do
  attempt failed
  let roleText ← boundedString role
  let phaseMembers ← phaseMembers role phase
  let text ← boundedString (content.getD "")
  let type := if role = "assistant" then "output_text" else "input_text"
  return .object ([("role", roleText)] ++ phaseMembers ++
    [("content", .array [.object [("type", .string type), ("text", text)]])])

/-- `add_function_call_input`: the item that is added. -/
def functionCallInput (failed : Bool) (call : ToolCall) : Option JsonValue := do
  let id ← call.id.filter (· ≠ "")
  let name ← call.name.filter (· ≠ "")
  let arguments ← call.arguments
  attempt failed
  let idText ← boundedString id
  let nameText ← boundedString name
  let argumentsText ← boundedString arguments
  return .object [("type", .string "function_call"), ("call_id", idText), ("name", nameText),
    ("arguments", argumentsText)]

/-- `prior_function_call_exists` -/
def priorFunctionCallExists (messages : List Message) (before : Nat) (callId : String) : Bool :=
  (messages.take before).any fun m => m.toolCalls.any fun call => call.id == some callId

/-- `function_call_id_seen` -/
def functionCallIdSeen (messages : List Message) (messageIndex callIndex : Nat)
    (callId : String) : Bool :=
  (messages.take (messageIndex + 1)).zipIdx.any fun (m, i) =>
    (if i = messageIndex then m.toolCalls.take callIndex else m.toolCalls).any fun call =>
      call.id == some callId

/-- `prior_tool_output_exists` -/
def priorToolOutputExists (messages : List Message) (before : Nat) (callId : String) : Bool :=
  (messages.take before).any fun m => m.role == some "tool" && m.toolCallId == some callId

/-- `add_tool_output`: the item that is added. -/
def toolOutput (failed : Bool) (messages : List Message) (i : Nat) (m : Message) :
    Option JsonValue := do
  let callId ← m.toolCallId.filter (· ≠ "")
  let content ← m.content
  attempt (decide (m.toolCalls ≠ [] ∨ priorFunctionCallExists messages i callId = false ∨
    priorToolOutputExists messages i callId = true))
  attempt failed
  let idText ← boundedString callId
  let outputText ← boundedString content
  return .object [("type", .string "function_call_output"), ("call_id", idText),
    ("output", outputText)]

/-- The type of an item. -/
def itemType (item : JsonValue) : Option String := validNonemptyString (item.exactMember "type")

/-- `add_provider_state`: the items that are added, all of them reasoning. -/
def providerState (json : WireJson) (failed : Bool) : Option String → Option (List JsonValue)
  | none => some []
  | some state => do
    attempt failed
    let items ← parseBoundedJson json (textBytes state) openaiMaxRequestBytes
    if items.isArray then
      traverseFrom (fun _ item => if item.isObject ∧ itemType item = some "reasoning" then some item
        else none) 0 items.items
    else none

/-! ## The loop -/

/-- The input array and the instructions so far. -/
structure RequestInput where
  input : List JsonValue := []
  instructions : Option String := none

namespace RequestInput

/-- More items at the end of the input. -/
def add (st : RequestInput) (items : List JsonValue) : RequestInput :=
  { st with input := st.input ++ items }

@[simp] theorem input_add (st : RequestInput) (items : List JsonValue) :
    (st.add items).input = st.input ++ items := rfl

end RequestInput

section Loop

variable (json : WireJson) (fail : Faults RequestSite) (messages : List Message)

/-- The reasoning of a message, of the assistant only. -/
def turnStates (i : Nat) (role : String) (m : Message) : Option (List JsonValue) :=
  if role = "assistant" then providerState json (fail (.state i)) m.providerState else some []

/-- The text of a message, when it is not empty or all there is. -/
def turnTexts (i : Nat) (role : String) (m : Message) : Option (List JsonValue) :=
  if m.content ≠ none ∧ (m.content ≠ some "" ∨ m.toolCalls = []) then
    (messageContentItem (fail (.content i)) role m.content m.phase).map ([·])
  else some []

/-- The calls of a message, none of them made before. -/
def turnCalls (i : Nat) (m : Message) : Option (List JsonValue) :=
  traverseFrom (fun j call => do
    let id ← call.id
    attempt (functionCallIdSeen messages i j id)
    functionCallInput (fail (.call i j)) call) 0 m.toolCalls

/-- The items of a message of the user or the assistant. -/
def turnItems (i : Nat) (role : String) (m : Message) : Option (List JsonValue) := do
  let states ← turnStates json fail i role m
  let texts ← turnTexts fail i role m
  attempt (decide (m.content = none ∧ m.toolCalls = []))
  let calls ← turnCalls fail messages i m
  return states ++ texts ++ calls

/-- The body of the loop of `add_input_messages`. -/
def addInputMessage (i : Nat) (m : Message) (st : RequestInput) : Option RequestInput := do
  let role ← m.role
  if role = "system" ∨ role = "developer" then
    let content ← m.content
    attempt (decide (m.toolCalls ≠ []))
    let instructions ← appendInstruction (fail (.instruction i)) st.instructions content
    return { st with instructions := some instructions }
  else if role = "tool" then
    let output ← toolOutput (fail (.output i)) messages i m
    return st.add [output]
  else if role ≠ "user" ∧ role ≠ "assistant" then none
  else if role = "user" ∧ m.toolCalls ≠ [] then none
  else
    let items ← turnItems json fail messages i role m
    return st.add items

/-- `add_input_messages`: the input array and the instructions of the request. -/
def addInputMessages : Option (List JsonValue × Option JsonValue) := do
  let st ← messages.zipIdx.foldlM (fun st mi => addInputMessage json fail messages mi.2 mi.1 st) {}
  match st.instructions with
  | none => return (st.input, none)
  | some text =>
    attempt (fail .instructions)
    let instructions ← boundedString text
    return (st.input, some instructions)

end Loop

/-! ## What a message stands for -/

/-- The call of a tool as an item. -/
def functionCallItem (call : ToolCall) : JsonValue :=
  .object [("type", .string "function_call"), ("call_id", .string (call.id.getD "")),
    ("name", .string (call.name.getD "")), ("arguments", .string (call.arguments.getD ""))]

/-- The output of a tool as an item. -/
def toolOutputItem (m : Message) : JsonValue :=
  .object [("type", .string "function_call_output"), ("call_id", .string (m.toolCallId.getD "")),
    ("output", .string (m.content.getD ""))]

/-- The text of a message as an item. -/
def textItem (role : String) (m : Message) : JsonValue :=
  .object ([("role", .string role)] ++
    (if role = "assistant" then m.phase.toList.map fun p => ("phase", .string p) else []) ++
    [("content", .array [.object
      [("type", .string (if role = "assistant" then "output_text" else "input_text")),
        ("text", .string (m.content.getD ""))]])])

/-- The reasoning that a message carries. -/
def stateItems (json : WireJson) (m : Message) : List JsonValue :=
  ((m.providerState.bind fun state =>
    parseBoundedJson json (textBytes state) openaiMaxRequestBytes).map JsonValue.items).getD []

/-- The text of a message as items. -/
def textItems (role : String) (m : Message) : List JsonValue :=
  if m.content ≠ none ∧ (m.content ≠ some "" ∨ m.toolCalls = []) then [textItem role m] else []

/-- The items that stand for a message: the reasoning, the text and the calls of a turn, or the
output of a tool. -/
def messageItems (json : WireJson) (m : Message) : List JsonValue :=
  if m.role = some "tool" then [toolOutputItem m]
  else if m.role = some "user" then textItems "user" m
  else if m.role = some "assistant" then
    stateItems json m ++ textItems "assistant" m ++ m.toolCalls.map functionCallItem
  else []

/-- The id of the call that an item makes. -/
def madeCall (item : JsonValue) : Option String :=
  if itemType item = some "function_call" then exactText item "call_id" else none

/-- The id of the call that an item answers. -/
def answeredCall (item : JsonValue) : Option String :=
  if itemType item = some "function_call_output" then exactText item "call_id" else none

/-- The calls of an input array and their outputs belong together. -/
structure WellPaired (input : List JsonValue) : Prop where
  /-- Every call has an id. -/
  call_id : ∀ item ∈ input, itemType item = some "function_call" →
    ∃ id, madeCall item = some id ∧ id ≠ ""
  /-- No two calls have the same id. -/
  calls_distinct : input.Pairwise fun a b => ∀ id, madeCall a = some id → madeCall b ≠ some id
  /-- Every output is that of exactly one call, which stands before it. -/
  output_called : ∀ (n : Nat) (item : JsonValue), input[n]? = some item →
    itemType item = some "function_call_output" → ∃ id, answeredCall item = some id ∧
      ∃ k < n, input[k]?.bind madeCall = some id ∧
        ∀ k', input[k']?.bind madeCall = some id → k' = k
  /-- No call has two outputs. -/
  outputs_distinct : input.Pairwise fun a b =>
    ∀ id, answeredCall a = some id → answeredCall b ≠ some id

/-! ## Pairing, item by item -/

/-- What may stand behind the items of `past`. -/
def PairingLaw (past : List JsonValue) (item : JsonValue) : Prop :=
  (itemType item = some "function_call" → ∃ id, madeCall item = some id ∧ id ≠ "" ∧
    ∀ call ∈ past, madeCall call ≠ some id) ∧
  (itemType item = some "function_call_output" → ∃ id, answeredCall item = some id ∧
    (∃ call ∈ past, madeCall call = some id) ∧ ∀ output ∈ past, answeredCall output ≠ some id)

theorem itemType_of_madeCall {item : JsonValue} {id : String} (h : madeCall item = some id) :
    itemType item = some "function_call" := by
  rw [madeCall] at h
  split at h
  · assumption
  · exact absurd h (by simp)

theorem itemType_of_answeredCall {item : JsonValue} {id : String}
    (h : answeredCall item = some id) : itemType item = some "function_call_output" := by
  rw [answeredCall] at h
  split at h
  · assumption
  · exact absurd h (by simp)

/-- A mark that no two entries share stands at one place. -/
theorem index_unique {α β : Type} {f : α → Option β} {l : List α}
    (h : l.Pairwise fun a b => ∀ x, f a = some x → f b ≠ some x) {i j : Nat} {x : β}
    (hi : l[i]?.bind f = some x) (hj : l[j]?.bind f = some x) : i = j := by
  obtain ⟨a, ha, hax⟩ := Option.bind_eq_some_iff.mp hi
  obtain ⟨b, hb, hbx⟩ := Option.bind_eq_some_iff.mp hj
  obtain ⟨hilt, rfl⟩ := List.getElem?_eq_some_iff.mp ha
  obtain ⟨hjlt, rfl⟩ := List.getElem?_eq_some_iff.mp hb
  rw [List.pairwise_iff_getElem] at h
  rcases Nat.lt_trichotomy i j with hlt | heq | hgt
  · exact absurd hbx (h i j hilt hjlt hlt x hax)
  · exact heq
  · exact absurd hax (h j i hjlt hilt hgt x hbx)

/-- No two calls of a lawful input have the same id. -/
theorem Lawful.calls_distinct {input : List JsonValue} (h : Lawful PairingLaw input) :
    input.Pairwise fun a b => ∀ id, madeCall a = some id → madeCall b ≠ some id := by
  refine h.pairwise fun past b hlaw a ha id hmade hmade' => ?_
  obtain ⟨id', hid', -, hnew⟩ := hlaw.1 (itemType_of_madeCall hmade')
  rw [hmade'] at hid'
  exact hnew a ha (hid' ▸ hmade)

/-- An input in which every item may stand where it stands is well paired. -/
theorem Lawful.wellPaired {input : List JsonValue} (h : Lawful PairingLaw input) :
    WellPaired input where
  call_id item hitem htype := by
    obtain ⟨before, after, rfl⟩ := List.append_of_mem hitem
    obtain ⟨id, hid, hne, -⟩ := (h before item after rfl).1 htype
    exact ⟨id, hid, hne⟩
  calls_distinct := h.calls_distinct
  output_called n item hn htype := by
    obtain ⟨id, hid, ⟨call, hcall, hmade⟩, -⟩ := (h.at hn).2 htype
    obtain ⟨k, hget⟩ := List.getElem?_of_mem hcall
    rw [List.getElem?_take] at hget
    split at hget
    next hk =>
      have hcalled : input[k]?.bind madeCall = some id := by
        rw [hget, Option.bind_some, hmade]
      exact ⟨id, hid, k, hk, hcalled, fun k' hk' => index_unique h.calls_distinct hk' hcalled⟩
    next => exact absurd hget (by simp)
  outputs_distinct := by
    refine h.pairwise fun past b hlaw a ha id hanswers hanswers' => ?_
    obtain ⟨id', hid', -, hnew⟩ := hlaw.2 (itemType_of_answeredCall hanswers')
    rw [hanswers'] at hid'
    exact hnew a ha (hid' ▸ hanswers)

/-! ## What the parts of the loop emit -/

section Emitted

variable {json : WireJson} {fail : Faults RequestSite} {messages : List Message} {m : Message}
  {i : Nat}

theorem eq_of_boundedString {s : String} {v : JsonValue} (h : boundedString s = some v) :
    v = .string s := by
  rw [boundedString] at h
  split at h
  · exact absurd h (by simp)
  · exact (Option.some.inj h).symm

theorem attempt_eq_some_iff {failed : Bool} {u : Unit} :
    attempt failed = some u ↔ failed = false := by
  cases failed <;> simp

theorem eq_of_phaseMembers {role : String} {phase : Option String}
    {members : List (String × JsonValue)} (h : phaseMembers role phase = some members) :
    members = if role = "assistant" then phase.toList.map fun p => ("phase", .string p)
      else [] := by
  cases phase with
  | none =>
    obtain rfl : [] = members := Option.some.inj h
    rw [Option.toList_none, List.map_nil, ite_self]
  | some p =>
    rw [phaseMembers] at h
    split at h
    next hrole =>
      obtain ⟨v, hv, rfl⟩ := Option.map_eq_some_iff.mp h
      rw [if_pos hrole, eq_of_boundedString hv]
      rfl
    next hrole =>
      rw [if_neg hrole]
      exact (Option.some.inj h).symm

/-- A call that is added is there in full and has an id. -/
theorem eq_of_functionCallInput {failed : Bool} {call : ToolCall} {item : JsonValue}
    (h : functionCallInput failed call = some item) :
    item = functionCallItem call ∧ ∃ id, call.id = some id ∧ id ≠ "" := by
  simp only [functionCallInput, Option.bind_eq_bind, Option.bind_eq_some_iff,
    Option.filter_eq_some_iff, Option.pure_def, Option.some_inj, decide_eq_true_eq] at h
  obtain ⟨id, ⟨hid, hne⟩, name, ⟨hname, -⟩, arguments, harguments, -, -, h⟩ := h
  obtain ⟨v, hv, w, hw, x, hx, rfl⟩ := h
  obtain rfl := eq_of_boundedString hv
  obtain rfl := eq_of_boundedString hw
  obtain rfl := eq_of_boundedString hx
  refine ⟨?_, id, hid, hne⟩
  rw [functionCallItem, hid, hname, harguments]
  rfl

/-- An output that is added answers a call that was made before and not answered yet. -/
theorem eq_of_toolOutput {failed : Bool} {item : JsonValue}
    (h : toolOutput failed messages i m = some item) :
    item = toolOutputItem m ∧ m.toolCalls = [] ∧ ∃ id, m.toolCallId = some id ∧
      priorFunctionCallExists messages i id = true ∧
      priorToolOutputExists messages i id = false := by
  simp only [toolOutput, Option.bind_eq_bind, Option.bind_eq_some_iff,
    Option.filter_eq_some_iff, attempt_eq_some_iff, Option.pure_def, Option.some_inj,
    decide_eq_false_iff_not, not_or, not_not, Bool.not_eq_false, Bool.not_eq_true] at h
  obtain ⟨id, ⟨hid, -⟩, content, hcontent, -, hpass, -, -, v, hv, w, hw, rfl⟩ := h
  obtain rfl := eq_of_boundedString hv
  obtain rfl := eq_of_boundedString hw
  refine ⟨?_, hpass.1, id, hid, hpass.2⟩
  rw [toolOutputItem, hid, hcontent]
  rfl

/-- The text that is added. -/
theorem eq_of_messageContentItem {failed : Bool} {role : String} {item : JsonValue}
    (h : messageContentItem failed role m.content m.phase = some item) :
    item = textItem role m := by
  simp only [messageContentItem, Option.bind_eq_bind, Option.bind_eq_some_iff, Option.pure_def,
    Option.some_inj] at h
  obtain ⟨-, -, v, hv, members, hmembers, w, hw, rfl⟩ := h
  obtain rfl := eq_of_boundedString hv
  obtain rfl := eq_of_boundedString hw
  rw [eq_of_phaseMembers hmembers, textItem]

/-- The reasoning that is added is all that the message carries. -/
theorem eq_of_providerState {failed : Bool} {items : List JsonValue}
    (h : providerState json failed m.providerState = some items) :
    items = stateItems json m ∧ ∀ item ∈ items, itemType item = some "reasoning" := by
  cases hstate : m.providerState with
  | none =>
    rw [hstate] at h
    obtain rfl : [] = items := Option.some.inj h
    exact ⟨by rw [stateItems, hstate]; rfl, fun item hitem => absurd hitem List.not_mem_nil⟩
  | some state =>
    rw [hstate] at h
    simp only [providerState, Option.bind_eq_bind, Option.bind_eq_some_iff] at h
    obtain ⟨-, -, parsed, hparsed, hitems⟩ := h
    split at hitems
    next =>
      have hsame : items = parsed.items.map id := by
        refine eq_map_of_traverseFrom (fun j a b hstep => ?_) hitems
        split at hstep
        · exact (Option.some.inj hstep).symm
        · exact absurd hstep (by simp)
      rw [List.map_id] at hsame
      refine ⟨by rw [stateItems, hstate, Option.bind_some, hparsed, hsame]; rfl, ?_⟩
      intro item hitem
      rw [hsame] at hitem
      obtain ⟨before, after, hsplit⟩ := List.append_of_mem hitem
      obtain ⟨b, hb⟩ := exists_step_of_traverseFrom hitems hsplit
      split at hb
      next hreasoning => exact hreasoning.2
      next => exact absurd hb (by simp)
    next => exact absurd hitems (by simp)

theorem eq_of_turnStates {role : String} {items : List JsonValue}
    (h : turnStates json fail i role m = some items) :
    (items = if role = "assistant" then stateItems json m else []) ∧
      ∀ item ∈ items, itemType item = some "reasoning" := by
  rw [turnStates] at h
  split at h
  next hrole =>
    rw [if_pos hrole]
    exact eq_of_providerState h
  next hrole =>
    obtain rfl : [] = items := Option.some.inj h
    rw [if_neg hrole]
    exact ⟨rfl, fun item hitem => absurd hitem List.not_mem_nil⟩

theorem eq_of_turnTexts {role : String} {items : List JsonValue}
    (h : turnTexts fail i role m = some items) : items = textItems role m := by
  rw [turnTexts] at h
  rw [textItems]
  split at h
  next htext =>
    obtain ⟨item, hitem, rfl⟩ := Option.map_eq_some_iff.mp h
    rw [if_pos htext, eq_of_messageContentItem hitem]
  next htext =>
    rw [if_neg htext]
    exact (Option.some.inj h).symm

/-- The calls that are added are all calls of the message, and none was seen before. -/
theorem eq_of_turnCalls {items : List JsonValue} (h : turnCalls fail messages i m = some items) :
    items = m.toolCalls.map functionCallItem ∧
      ∀ before call after, m.toolCalls = before ++ call :: after →
        ∃ id, call.id = some id ∧ id ≠ "" ∧
          functionCallIdSeen messages i before.length id = false := by
  refine ⟨eq_map_of_traverseFrom (fun j call item hstep => ?_) h, ?_⟩
  · simp only [Option.bind_eq_bind, Option.bind_eq_some_iff] at hstep
    obtain ⟨-, -, -, -, hitem⟩ := hstep
    exact (eq_of_functionCallInput hitem).1
  · intro before call after hsplit
    obtain ⟨item, hstep⟩ := exists_step_of_traverseFrom h hsplit
    simp only [Option.bind_eq_bind, Option.bind_eq_some_iff, attempt_eq_some_iff,
      Nat.zero_add] at hstep
    obtain ⟨id, hid, -, hseen, hitem⟩ := hstep
    obtain ⟨-, id', hid', hne⟩ := eq_of_functionCallInput hitem
    rw [hid, Option.some_inj] at hid'
    exact ⟨id, hid, hid' ▸ hne, hseen⟩

end Emitted

/-! ## Reading the items back -/

@[simp] theorem itemType_functionCallItem (call : ToolCall) :
    itemType (functionCallItem call) = some "function_call" := by
  simp [itemType, functionCallItem, JsonValue.exactMember, validNonemptyString,
    JsonValue.stringValue]

@[simp] theorem itemType_toolOutputItem (m : Message) :
    itemType (toolOutputItem m) = some "function_call_output" := by
  simp [itemType, toolOutputItem, JsonValue.exactMember, validNonemptyString,
    JsonValue.stringValue]

theorem itemType_textItem (role : String) (m : Message) : itemType (textItem role m) = none := by
  cases hphase : m.phase <;> by_cases hrole : role = "assistant" <;>
    simp [itemType, textItem, JsonValue.exactMember, validNonemptyString, hphase, hrole]

theorem itemType_of_mem_textItems {role : String} {m : Message} {item : JsonValue}
    (h : item ∈ textItems role m) : itemType item = none := by
  rw [textItems] at h
  split at h
  · obtain rfl := List.mem_singleton.mp h
    exact itemType_textItem role m
  · exact absurd h List.not_mem_nil

@[simp] theorem madeCall_functionCallItem (call : ToolCall) :
    madeCall (functionCallItem call) = some (call.id.getD "") := by
  rw [madeCall, if_pos (itemType_functionCallItem call)]
  simp [functionCallItem, exactText, JsonValue.exactMember, JsonValue.stringValue]

@[simp] theorem answeredCall_toolOutputItem (m : Message) :
    answeredCall (toolOutputItem m) = some (m.toolCallId.getD "") := by
  rw [answeredCall, if_pos (itemType_toolOutputItem m)]
  simp [toolOutputItem, exactText, JsonValue.exactMember, JsonValue.stringValue]

/-- An item that is neither a call nor an output may stand anywhere. -/
theorem pairingLaw_of_plain {past : List JsonValue} {item : JsonValue}
    (hcall : itemType item ≠ some "function_call")
    (houtput : itemType item ≠ some "function_call_output") : PairingLaw past item :=
  ⟨fun h => absurd h hcall, fun h => absurd h houtput⟩

/-! ## The loop keeps the items paired -/

section Loop

variable {json : WireJson} {fail : Faults RequestSite} {messages : List Message} {m : Message}
  {st st' : RequestInput}

/-- The input array after the messages of `earlier`: their items, paired, with exactly the calls and
the outputs of these messages. -/
structure Emitted (json : WireJson) (earlier : List Message) (input : List JsonValue) : Prop where
  items : input = earlier.flatMap (messageItems json)
  lawful : Lawful PairingLaw input
  calls : ∀ id, (∃ item ∈ input, madeCall item = some id) ↔
    ∃ m ∈ earlier, ∃ call ∈ m.toolCalls, call.id = some id
  outputs : ∀ id, (∃ item ∈ input, answeredCall item = some id) →
    ∃ m ∈ earlier, m.role = some "tool" ∧ m.toolCallId = some id

/-- What one message adds: the output of a tool whose call is there and not answered, or a turn of
reasoning, text and calls none of which is there. -/
theorem addInputMessage_cases {i : Nat} (h : addInputMessage json fail messages i m st = some st') :
    (m.role = some "tool" ∧ m.toolCalls = [] ∧ st'.input = st.input ++ [toolOutputItem m] ∧
      ∃ id, m.toolCallId = some id ∧ priorFunctionCallExists messages i id = true ∧
        priorToolOutputExists messages i id = false) ∨
    (st'.input = st.input ++ messageItems json m ∧
      ∃ plain, messageItems json m = plain ++ m.toolCalls.map functionCallItem ∧
        (∀ item ∈ plain, itemType item = some "reasoning" ∨ itemType item = none) ∧
        ∀ before call after, m.toolCalls = before ++ call :: after →
          ∃ id, call.id = some id ∧ id ≠ "" ∧
            functionCallIdSeen messages i before.length id = false) := by
  simp only [addInputMessage, Option.bind_eq_bind, Option.bind_eq_some_iff] at h
  obtain ⟨role, hrole, h⟩ := h
  split at h
  next hsystem =>
    simp only [Option.bind_eq_some_iff, attempt_eq_some_iff, decide_eq_false_iff_not, not_not,
      Option.pure_def, Option.some_inj] at h
    obtain ⟨-, -, -, hcalls, instructions, -, rfl⟩ := h
    have hnone : messageItems json m = [] := by
      rcases hsystem with rfl | rfl <;> simp [messageItems, hrole]
    refine Or.inr ⟨by rw [hnone, List.append_nil], [], ?_, ?_, ?_⟩
    · rw [hnone, hcalls, List.map_nil, List.append_nil]
    · exact fun item hitem => absurd hitem List.not_mem_nil
    · intro before call after hsplit
      rw [hcalls] at hsplit
      exact absurd hsplit (by simp)
  next =>
    split at h
    next htool =>
      subst htool
      simp only [Option.bind_eq_some_iff, Option.pure_def, Option.some_inj] at h
      obtain ⟨output, houtput, rfl⟩ := h
      obtain ⟨rfl, hcalls, hid⟩ := eq_of_toolOutput houtput
      exact Or.inl ⟨hrole, hcalls, rfl, hid⟩
    next htool =>
      split at h
      · exact absurd h (by simp)
      next hturn =>
        split at h
        · exact absurd h (by simp)
        next huser =>
          simp only [turnItems, Option.bind_eq_bind, Option.bind_eq_some_iff, Option.pure_def,
            Option.some_inj] at h
          obtain ⟨items, ⟨states, hstates, texts, htexts, -, -, calls, hcalls, rfl⟩, rfl⟩ := h
          obtain ⟨hstatesEq, hreasoning⟩ := eq_of_turnStates hstates
          obtain rfl := eq_of_turnTexts htexts
          obtain ⟨rfl, hsplit⟩ := eq_of_turnCalls hcalls
          have hitems : messageItems json m =
              states ++ textItems role m ++ m.toolCalls.map functionCallItem := by
            rw [not_and_or, not_not, not_not] at hturn
            rcases hturn with rfl | rfl
            · have hcallsNil : m.toolCalls = [] := by
                by_contra hne
                exact huser ⟨rfl, hne⟩
              rw [hstatesEq, hcallsNil]
              simp [messageItems, hrole]
            · rw [hstatesEq]
              simp [messageItems, hrole]
          refine Or.inr ⟨by rw [RequestInput.input_add, hitems], _, hitems, ?_, hsplit⟩
          intro item hitem
          rcases List.mem_append.mp hitem with hitem | hitem
          · exact Or.inl (hreasoning item hitem)
          · exact Or.inr (itemType_of_mem_textItems hitem)

/-- The scan for a call looks at the messages before. -/
theorem priorFunctionCallExists_iff {earlier later : List Message} {id : String} :
    priorFunctionCallExists (earlier ++ later) earlier.length id = true ↔
      ∃ m ∈ earlier, ∃ call ∈ m.toolCalls, call.id = some id := by
  simp only [priorFunctionCallExists, List.take_left, List.any_eq_true, beq_iff_eq]

/-- The scan for an output looks at the messages before. -/
theorem priorToolOutputExists_eq_false_iff {earlier later : List Message} {id : String} :
    priorToolOutputExists (earlier ++ later) earlier.length id = false ↔
      ¬ ∃ m ∈ earlier, m.role = some "tool" ∧ m.toolCallId = some id := by
  simp only [priorToolOutputExists, List.take_left, ← Bool.not_eq_true, List.any_eq_true,
    Bool.and_eq_true, beq_iff_eq]

/-- The scan for a duplicate looks at the messages before and at the calls before. -/
theorem not_seen_of_functionCallIdSeen {earlier later : List Message} {before after : List ToolCall}
    {call : ToolCall} {id : String} (hsplit : m.toolCalls = before ++ call :: after)
    (h : functionCallIdSeen (earlier ++ m :: later) earlier.length before.length id = false) :
    (¬ ∃ m' ∈ earlier, ∃ c ∈ m'.toolCalls, c.id = some id) ∧ ∀ c ∈ before, c.id ≠ some id := by
  have htake : (earlier ++ m :: later).take (earlier.length + 1) = earlier ++ [m] := by
    rw [List.append_cons, List.take_left' (by simp)]
  rw [functionCallIdSeen, htake, List.zipIdx_append, List.any_append, Bool.or_eq_false_iff] at h
  obtain ⟨hearlier, hown⟩ := h
  constructor
  · rintro ⟨m', hm', c, hc, hid⟩
    obtain ⟨k, hk, rfl⟩ := List.getElem_of_mem hm'
    have hmem : (earlier[k], k) ∈ earlier.zipIdx := by
      rw [List.mem_zipIdx_iff_getElem?]
      exact List.getElem?_eq_getElem hk
    have hscan := List.any_eq_false.mp hearlier _ hmem
    dsimp only at hscan
    rw [Bool.not_eq_true, if_neg (Nat.ne_of_lt hk), List.any_eq_false] at hscan
    exact hscan c hc (beq_iff_eq.mpr hid)
  · intro c hc hid
    simp only [List.zipIdx_singleton, Nat.zero_add, List.any_cons, List.any_nil, Bool.or_false,
      if_true, hsplit, List.take_left, List.any_eq_false] at hown
    exact hown c hc (beq_iff_eq.mpr hid)

theorem madeCall_of_itemType {item : JsonValue} (h : itemType item ≠ some "function_call") :
    madeCall item = none := if_neg h

theorem answeredCall_of_itemType {item : JsonValue}
    (h : itemType item ≠ some "function_call_output") : answeredCall item = none := if_neg h

/-- The output of a tool keeps the items paired. -/
theorem Emitted.output {earlier : List Message} {input : List JsonValue} {id : String}
    (h : Emitted json earlier input) (hrole : m.role = some "tool") (hcalls : m.toolCalls = [])
    (hid : m.toolCallId = some id) (hcall : ∃ m ∈ earlier, ∃ call ∈ m.toolCalls, call.id = some id)
    (hfresh : ¬ ∃ m ∈ earlier, m.role = some "tool" ∧ m.toolCallId = some id) :
    Emitted json (earlier ++ [m]) (input ++ [toolOutputItem m]) where
  items := by
    rw [h.items, List.flatMap_append, List.flatMap_singleton, messageItems, if_pos hrole]
  lawful := by
    refine lawful_concat.mpr ⟨h.lawful, fun hfalse => absurd hfalse (by simp), fun _ => ?_⟩
    refine ⟨id, ?_, (h.calls id).mpr hcall, ?_⟩
    · rw [answeredCall_toolOutputItem, hid, Option.getD_some]
    · exact fun output houtput hanswers => hfresh (h.outputs id ⟨output, houtput, hanswers⟩)
  calls id' := by
    simp only [List.mem_append, List.mem_singleton, or_and_right, exists_or, exists_eq_left,
      h.calls id', hcalls, List.not_mem_nil, false_and, exists_false, or_false,
      (madeCall_of_itemType (by simp) : madeCall (toolOutputItem m) = none), reduceCtorEq]
  outputs id' := by
    rintro ⟨item, hitem, hanswers⟩
    rcases List.mem_append.mp hitem with hitem | hitem
    · obtain ⟨m', hm', htool⟩ := h.outputs id' ⟨item, hitem, hanswers⟩
      exact ⟨m', List.mem_append_left _ hm', htool⟩
    · obtain rfl := List.mem_singleton.mp hitem
      rw [answeredCall_toolOutputItem, hid, Option.getD_some] at hanswers
      exact ⟨m, List.mem_append_right _ (List.mem_singleton_self m), hrole, hid.trans hanswers⟩

/-- A turn whose calls are new keeps the items paired. -/
theorem Emitted.turn {earlier : List Message} {input plain : List JsonValue}
    (h : Emitted json earlier input)
    (hitems : messageItems json m = plain ++ m.toolCalls.map functionCallItem)
    (hplain : ∀ item ∈ plain, itemType item = some "reasoning" ∨ itemType item = none)
    (hnew : ∀ before call after, m.toolCalls = before ++ call :: after →
      ∃ id, call.id = some id ∧ id ≠ "" ∧
        (¬ ∃ m' ∈ earlier, ∃ c ∈ m'.toolCalls, c.id = some id) ∧ ∀ c ∈ before, c.id ≠ some id) :
    Emitted json (earlier ++ [m]) (input ++ messageItems json m) := by
  have hplainCall : ∀ item ∈ plain, itemType item ≠ some "function_call" := by
    intro item hitem
    rcases hplain item hitem with htype | htype <;> simp [htype]
  have hplainOutput : ∀ item ∈ plain, itemType item ≠ some "function_call_output" := by
    intro item hitem
    rcases hplain item hitem with htype | htype <;> simp [htype]
  have hids : ∀ call ∈ m.toolCalls, madeCall (functionCallItem call) = call.id := by
    intro call hcall
    obtain ⟨before, after, hsplit⟩ := List.append_of_mem hcall
    obtain ⟨id, hid, -⟩ := hnew before call after hsplit
    rw [madeCall_functionCallItem, hid, Option.getD_some]
  have hcallsOf : ∀ id, (∃ item ∈ messageItems json m, madeCall item = some id) ↔
      ∃ call ∈ m.toolCalls, call.id = some id := by
    intro id
    rw [hitems]
    constructor
    · rintro ⟨item, hitem, hmade⟩
      rcases List.mem_append.mp hitem with hitem | hitem
      · rw [madeCall_of_itemType (hplainCall item hitem)] at hmade
        exact absurd hmade (by simp)
      · obtain ⟨call, hcall, rfl⟩ := List.mem_map.mp hitem
        exact ⟨call, hcall, hids call hcall ▸ hmade⟩
    · rintro ⟨call, hcall, hid⟩
      exact ⟨_, List.mem_append_right _ (List.mem_map_of_mem hcall), (hids call hcall).trans hid⟩
  have hnoOutput : ∀ item ∈ messageItems json m, answeredCall item = none := by
    intro item hitem
    rw [hitems] at hitem
    rcases List.mem_append.mp hitem with hitem | hitem
    · exact answeredCall_of_itemType (hplainOutput item hitem)
    · obtain ⟨call, -, rfl⟩ := List.mem_map.mp hitem
      exact answeredCall_of_itemType (by simp)
  constructor
  · rw [h.items, List.flatMap_append, List.flatMap_singleton]
  · rw [hitems, ← List.append_assoc]
    have hlawful : Lawful PairingLaw (input ++ plain) := h.lawful.append fun item hitem _ =>
      pairingLaw_of_plain (hplainCall item hitem) (hplainOutput item hitem)
    refine hlawful.extend fun past item rest hsplit => ?_
    obtain ⟨before, tail, hcalls, rfl, htail⟩ := List.map_eq_append_iff.mp hsplit
    obtain ⟨call, after, rfl, rfl, -⟩ := List.map_eq_cons_iff.mp htail
    refine ⟨fun _ => ?_, fun hfalse => absurd hfalse (by simp)⟩
    obtain ⟨id, hid, hne, hearlier, hbefore⟩ := hnew before call after hcalls
    refine ⟨id, by rw [madeCall_functionCallItem, hid, Option.getD_some], hne, ?_⟩
    intro item hitem hmade
    rcases List.mem_append.mp hitem with hitem | hitem
    · rcases List.mem_append.mp hitem with hitem | hitem
      · exact hearlier ((h.calls id).mp ⟨item, hitem, hmade⟩)
      · rw [madeCall_of_itemType (hplainCall item hitem)] at hmade
        exact absurd hmade (by simp)
    · obtain ⟨c, hc, rfl⟩ := List.mem_map.mp hitem
      rw [hids c (hcalls ▸ List.mem_append_left _ hc)] at hmade
      exact hbefore c hc hmade
  · intro id
    simp only [List.mem_append, List.mem_singleton, or_and_right, exists_or, exists_eq_left,
      h.calls id, hcallsOf id]
  · rintro id ⟨item, hitem, hanswers⟩
    rcases List.mem_append.mp hitem with hitem | hitem
    · obtain ⟨m', hm', htool⟩ := h.outputs id ⟨item, hitem, hanswers⟩
      exact ⟨m', List.mem_append_left _ hm', htool⟩
    · rw [hnoOutput item hitem] at hanswers
      exact absurd hanswers (by simp)

/-- One message keeps the items paired. -/
theorem Emitted.step {earlier later : List Message} (h : Emitted json earlier st.input)
    (hstep : addInputMessage json fail (earlier ++ m :: later) earlier.length m st = some st') :
    Emitted json (earlier ++ [m]) st'.input := by
  rcases addInputMessage_cases hstep with
    ⟨hrole, hcalls, hinput, id, hid, hcall, hfresh⟩ | ⟨hinput, plain, hitems, hplain, hnew⟩
  · rw [hinput]
    exact h.output hrole hcalls hid (priorFunctionCallExists_iff.mp hcall)
      (priorToolOutputExists_eq_false_iff.mp hfresh)
  · rw [hinput]
    refine h.turn hitems hplain fun before call after hsplit => ?_
    obtain ⟨id, hid, hne, hseen⟩ := hnew before call after hsplit
    exact ⟨id, hid, hne, not_seen_of_functionCallIdSeen hsplit hseen⟩

/-- The loop from one message on keeps the items paired. -/
theorem Emitted.loop {earlier later : List Message} (h : Emitted json earlier st.input)
    (hloop : (later.zipIdx earlier.length).foldlM (fun st mi =>
      addInputMessage json fail (earlier ++ later) mi.2 mi.1 st) st = some st') :
    Emitted json (earlier ++ later) st'.input := by
  induction later generalizing earlier st with
  | nil =>
    obtain rfl : st = st' := Option.some.inj hloop
    rwa [List.append_nil]
  | cons m later ih =>
    rw [List.zipIdx_cons, List.foldlM_cons, Option.bind_eq_bind, Option.bind_eq_some_iff] at hloop
    obtain ⟨next, hnext, hrest⟩ := hloop
    rw [List.append_cons]
    refine ih (h.step hnext) ?_
    rw [List.length_append, List.length_singleton]
    rwa [List.append_cons] at hrest

end Loop

/-- **An accepted conversation is well paired**, and its items are those of its messages, in the
order of the messages. -/
theorem wellPaired_of_addInputMessages (json : WireJson) (fail : Faults RequestSite)
    (messages : List Message) (input : List JsonValue) (instructions : Option JsonValue)
    (h : addInputMessages json fail messages = some (input, instructions)) :
    WellPaired input ∧ input = messages.flatMap (messageItems json) := by
  have hstart : Emitted json [] ({} : RequestInput).input :=
    ⟨rfl, lawful_nil, fun id => by simp, fun id => by simp⟩
  rw [addInputMessages, Option.bind_eq_bind, Option.bind_eq_some_iff] at h
  obtain ⟨st, hloop, hend⟩ := h
  have hinput : st.input = input := by
    split at hend
    · exact congrArg Prod.fst (Option.some.inj hend)
    · simp only [Option.bind_eq_bind, Option.bind_eq_some_iff, Option.pure_def, Option.some_inj,
        Prod.mk.injEq] at hend
      obtain ⟨-, -, -, -, heq, -⟩ := hend
      exact heq
  have hemitted : Emitted json messages st.input := Emitted.loop hstart hloop
  rw [← hinput]
  exact ⟨hemitted.lawful.wellPaired, hemitted.items⟩

/-- A question, the call of a tool and its output. -/
def toolExchange : List Message :=
  [{ role := some "user", content := some "time?" },
    { role := some "assistant", content := some "",
      toolCalls := [{ id := some "c1", name := some "clock", arguments := some "" }] },
    { role := some "tool", content := some "noon", toolCallId := some "c1" }]

theorem wellPaired_toolExchange :
    addInputMessages byteJson Faults.none toolExchange =
      some (toolExchange.flatMap (messageItems byteJson), none) ∧
    WellPaired (toolExchange.flatMap (messageItems byteJson)) :=
  ⟨by rfl, (wellPaired_of_addInputMessages byteJson Faults.none toolExchange _ none (by rfl)).1⟩

end EchoAi
