import EchoAi.Json.Value
import EchoAi.Faults

/-!
# Messages and tool calls

The conversation is a list of messages.  Every text of a message may be absent (a null pointer in
the source), so every field is an `Option`; the tool calls, an array with its length, are a list.

* `Message`, `ToolCall`, `LLMResponse`: the three records, with everything absent by default.
* `messageCreate`, `messageCopy`: `message_create` and `message_copy` under failing allocations.
-/

namespace EchoAi

/-- A call of a tool that the model asked for, with its result once it was executed. -/
structure ToolCall where
  id : Option String := none
  name : Option String := none
  arguments : Option String := none
  resultContent : Option String := none
  resultError : Option String := none
  deriving DecidableEq, Repr

/-- One message of a conversation.  `id` is its stable identity, absent for messages older than
identities; `forkGroupId` is shared by the copies of one fork point in all chains. -/
structure Message where
  role : Option String := none
  content : Option String := none
  id : Option String := none
  parentId : Option String := none
  forkGroupId : Option String := none
  toolCalls : List ToolCall := []
  toolCallId : Option String := none
  toolName : Option String := none
  errorCategory : Option String := none
  timestamp : Decimal := .zero
  thinking : Option String := none
  phase : Option String := none
  providerState : Option String := none
  deriving DecidableEq, Repr

/-- The answer of a language model. -/
structure LLMResponse where
  content : Option String := none
  thinking : Option String := none
  phase : Option String := none
  providerState : Option String := none
  toolCalls : List ToolCall := []
  deriving DecidableEq, Repr

/-! ## Copying -/

/-- `str_dup`: the copy of a text, given up when the allocation fails; an absent text needs no
allocation. -/
def strDup (failed : Bool) : Option String → Option (Option String)
  | none => some none
  | some s => if failed then none else some (some s)

@[simp] theorem strDup_false (v : Option String) : strDup false v = some v := by
  cases v <;> rfl

theorem abortsOr_strDup (failed : Bool) (v : Option String) :
    AbortsOr (strDup failed v) (some v) := by
  cases v with
  | none => exact AbortsOr.refl _
  | some s =>
    cases failed with
    | true => exact AbortsOr.none_left _
    | false => exact AbortsOr.refl _

/-- `message_copy`: every allocation is checked, so a copy is the whole message or nothing. -/
def messageCopy (failed : Bool) (m : Message) : Option Message := do
  attempt failed
  return m

@[simp] theorem messageCopy_false (m : Message) : messageCopy false m = some m := rfl

end EchoAi
