import EchoAi.Agent.MessageReceived
import Mathlib.Data.List.Forall2

/-!
# What saving and loading keeps of a message list

A list of messages survives `session_serialize_messages_new` and `session_deserialize_messages` when
every field comes back as it was, up to the two liberties the store takes: an absent role, content,
tool id or tool name may come back empty, and arguments that are JSON may come back as another text
of the same value.  Arguments that are no JSON, such as a call cut off in the middle of the stream,
should come back as they are.

* `Lossless`: this statement about one list.
* `lossless_iff_wellFormed_arguments`: it holds exactly when every tool call carries well-formed
  arguments.  Other arguments are stored as a JSON string, and the reader prints that string with
  its quotes instead of taking its text.
-/

namespace EchoAi

variable (codec : JsonCodec)

/-- A text that is kept, or was absent and comes back empty. -/
def KeptOrEmpty (original loaded : Option String) : Prop :=
  loaded = original ∨ original = none ∧ loaded = some ""

/-- Arguments that are JSON come back with the same value, other arguments as the same text. -/
def ArgumentsKept (original loaded : Option String) : Prop :=
  match original with
  | none => loaded = none
  | some t =>
    if codec.wellFormed t then ∃ t', loaded = some t' ∧ codec.parse t' = codec.parse t
    else loaded = some t

/-- Every field of a tool call is kept. -/
structure CallKept (original loaded : ToolCall) : Prop where
  id : KeptOrEmpty original.id loaded.id
  name : KeptOrEmpty original.name loaded.name
  arguments : ArgumentsKept codec original.arguments loaded.arguments
  resultContent : loaded.resultContent = original.resultContent
  resultError : loaded.resultError = original.resultError

/-- Every field of a message is kept. -/
structure MessageKept (original loaded : Message) : Prop where
  role : KeptOrEmpty original.role loaded.role
  content : KeptOrEmpty original.content loaded.content
  id : loaded.id = original.id
  parentId : loaded.parentId = original.parentId
  forkGroupId : loaded.forkGroupId = original.forkGroupId
  toolCallId : loaded.toolCallId = original.toolCallId
  toolName : loaded.toolName = original.toolName
  errorCategory : loaded.errorCategory = original.errorCategory
  thinking : loaded.thinking = original.thinking
  phase : loaded.phase = original.phase
  providerState : loaded.providerState = original.providerState
  toolCalls : List.Forall₂ (CallKept codec) original.toolCalls loaded.toolCalls

/-- Saving and loading the list keeps every message, in order. -/
def Lossless (msgs : List Message) : Prop :=
  ∃ text loaded, sessionSerializeMessagesNew codec Faults.none msgs = some text ∧
    sessionDeserializeMessages codec Faults.none text = some loaded ∧
    List.Forall₂ (MessageKept codec) msgs loaded

variable {codec}

/-! ## One call -/

theorem keptOrEmpty_getD (v : Option String) : KeptOrEmpty v (some (v.getD "")) := by
  cases v with
  | none => exact Or.inr ⟨rfl, rfl⟩
  | some s => exact Or.inl rfl

/-- The reader prints the arguments it finds, so it gives back a text that is well formed. -/
theorem argumentsKept_normalize_iff (tc : ToolCall) :
    ArgumentsKept codec tc.arguments (tc.normalize codec).arguments ↔
      ∃ t, tc.arguments = some t ∧ codec.wellFormed t = true := by
  rw [ToolCall.normalize]
  cases htext : tc.arguments with
  | none =>
    constructor
    · intro h
      exact absurd h (Option.some_ne_none _)
    · rintro ⟨t, ht, -⟩
      exact absurd ht (by simp)
  | some t =>
    cases hwf : codec.wellFormed t with
    | true =>
      obtain ⟨v, hv⟩ := codec.parse_of_wellFormed t hwf
      refine iff_of_true ?_ ⟨t, rfl, hwf⟩
      rw [ArgumentsKept, if_pos hwf]
      refine ⟨_, rfl, ?_⟩
      rw [codec.parse_print, argumentsJson, if_neg (by simp), Option.bind_some, hv]
    | false =>
      refine iff_of_false ?_ ?_
      · rw [ArgumentsKept, if_neg (by simp [hwf])]
        intro h
        exact codec.print_ne_of_not_wellFormed hwf _ (Option.some.inj h)
      · rintro ⟨t', ht', hwf'⟩
        rw [← Option.some.inj ht', hwf] at hwf'
        exact Bool.noConfusion hwf'

theorem callKept_normalize_iff (tc : ToolCall) :
    CallKept codec tc (tc.normalize codec) ↔
      ∃ t, tc.arguments = some t ∧ codec.wellFormed t = true := by
  rw [← argumentsKept_normalize_iff]
  constructor
  · exact fun h => h.arguments
  · exact fun h => ⟨keptOrEmpty_getD tc.id, keptOrEmpty_getD tc.name, h, rfl, rfl⟩

/-! ## Messages -/

theorem messageKept_normalize_iff (m : Message) :
    MessageKept codec m (m.normalize codec) ↔
      ∀ tc ∈ m.toolCalls, CallKept codec tc (tc.normalize codec) := by
  have hcalls : List.Forall₂ (CallKept codec) m.toolCalls (m.normalize codec).toolCalls ↔
      ∀ tc ∈ m.toolCalls, CallKept codec tc (tc.normalize codec) := by
    rw [Message.normalize, List.forall₂_map_right_iff, List.forall₂_same]
  rw [← hcalls]
  constructor
  · exact fun h => h.toolCalls
  · intro h
    exact ⟨keptOrEmpty_getD m.role, keptOrEmpty_getD m.content, rfl, rfl, rfl, rfl, rfl, rfl, rfl,
      rfl, rfl, h⟩

/-- A list is kept exactly when each of its tool calls is. -/
theorem lossless_iff_callKept (msgs : List Message) :
    Lossless codec msgs ↔
      ∀ m ∈ msgs, ∀ tc ∈ m.toolCalls, CallKept codec tc (tc.normalize codec) := by
  have hmessages : List.Forall₂ (MessageKept codec) msgs (msgs.map (Message.normalize codec)) ↔
      ∀ m ∈ msgs, ∀ tc ∈ m.toolCalls, CallKept codec tc (tc.normalize codec) := by
    rw [List.forall₂_map_right_iff, List.forall₂_same]
    exact forall₂_congr fun m _ => messageKept_normalize_iff m
  rw [← hmessages]
  constructor
  · rintro ⟨text, loaded, htext, hloaded, hkept⟩
    rw [sessionSerializeMessagesNew_none, Option.some_inj] at htext
    rw [← htext, sessionDeserializeMessages_none, readMessages_print, Option.some_inj] at hloaded
    rw [hloaded]
    exact hkept
  · intro hkept
    refine ⟨_, _, sessionSerializeMessagesNew_none msgs, ?_, hkept⟩
    rw [sessionDeserializeMessages_none, readMessages_print]

/-- **Saving and loading a message list is lossless exactly when every tool call carries
well-formed JSON arguments.** -/
theorem lossless_iff_wellFormed_arguments (msgs : List Message) :
    Lossless codec msgs ↔
      ∀ m ∈ msgs, ∀ tc ∈ m.toolCalls, ∃ t, tc.arguments = some t ∧ codec.wellFormed t = true := by
  rw [lossless_iff_callKept]
  exact forall₂_congr fun m _ => forall₂_congr fun tc _ => callKept_normalize_iff tc

/-- A call whose arguments were cut off in the middle of a string. -/
def cutOffCall : ToolCall where
  id := some "call_1"
  name := some "shell"
  arguments := some "\x7b\"command\":\"ls"

/-- The arguments of a call that was cut off come back in quotes. -/
theorem not_lossless_cutOffCall :
    ¬ Lossless textCodec
      [{ role := some "assistant", content := some "", toolCalls := [cutOffCall] }] := by
  rw [lossless_iff_callKept]
  intro h
  have hkept := h _ List.mem_cons_self cutOffCall List.mem_cons_self
  obtain ⟨t, ht, hwf⟩ := (callKept_normalize_iff cutOffCall).mp hkept
  have hcut : textCodec.wellFormed "\x7b\"command\":\"ls" = false := by decide +kernel
  rw [← Option.some.inj ht, hcut] at hwf
  exact Bool.noConfusion hwf

end EchoAi
