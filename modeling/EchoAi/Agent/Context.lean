import EchoAi.Agent.Message
import Mathlib.Algebra.GroupWithZero.Nat
import Mathlib.Data.Finset.Basic
import Mathlib.Data.Finset.Range
import Mathlib.Data.Finset.Sort

/-!
# The context window

Before a call of the language model the message list is cut to a number of messages and a number of
characters.  Both cuts keep flags for the positions of the list and copy the flagged messages in
order, so a cut is a set of positions.

* `smartSelectAlloc`: the cut to a number of messages, by classes of priority.
* `trimMessagesByTokensNew`: the cut to a number of tokens, from the most recent message backwards.
* `applyContextWindow`: the two cuts one after the other.  The second one is told how many messages
  the first should have selected; a read past those that it has selected is `none`.

Allocations succeed here, and every message has a role, as `message_create` and every load see to.
-/

namespace EchoAi

/-! ## Roles by position -/

section Roles

variable (msgs : List Message)

/-- Whether there is a message with the role at a position. -/
def hasRole (role : String) (i : Nat) : Bool := msgs[i]?.any fun m => m.role == some role

def isSystem (i : Nat) : Bool := hasRole msgs "system" i

/-- `is_tool_role`. -/
def isToolRole (i : Nat) : Bool := hasRole msgs "tool" i

/-- `is_assistant_role`. -/
def isAssistantRole (i : Nat) : Bool := hasRole msgs "assistant" i

/-- Whether a tool message follows an assistant message directly. -/
def followsAssistant (i : Nat) : Bool :=
  isToolRole msgs i && decide (0 < i) && isAssistantRole msgs (i - 1)

end Roles

/-- The items of a list at some positions. -/
def pick {α : Type} (l : List α) (positions : List Nat) : List α := positions.filterMap (l[·]?)

/-! ## Priorities -/

/-- The priority of a position. -/
structure MsgScore where
  origIndex : Nat
  priorityGroup : Nat
  score : Nat
  deriving DecidableEq, Repr

/-- `score_cmp`: by group, within a group the higher score first. -/
def scoreCmp (a b : MsgScore) : Int :=
  if a.priorityGroup ≠ b.priorityGroup then (a.priorityGroup : Int) - b.priorityGroup
  else if a.score < b.score then 1
  else if b.score < a.score then -1
  else 0

/-- `qsort` with `score_cmp`.  It orders the scores, in an unknown order among equal ones. -/
structure Qsort where
  sort : List MsgScore → List MsgScore
  perm : ∀ l, (sort l).Perm l
  sorted : ∀ l, (sort l).Pairwise fun a b => scoreCmp a b ≤ 0

/-- The number of recent messages that have priority: `(int)(keep_count * 0.4)`, at least one. -/
def recentBudget (keepCount : Nat) : Nat := max 1 (keepCount * 2 / 5)

/-- The score of a position. -/
def msgScore (msgs : List Message) (keepCount i : Nat) : MsgScore :=
  if isSystem msgs i then ⟨i, 1, 0⟩
  else if isToolRole msgs i then ⟨i, 2, i⟩
  else if msgs.length - recentBudget keepCount ≤ i then
    ⟨i, 3, i - (msgs.length - recentBudget keepCount)⟩
  else ⟨i, 4, i⟩

/-- The positions in the order of their priority. -/
def priorityOrder (q : Qsort) (msgs : List Message) (keepCount : Nat) : List Nat :=
  (q.sort ((List.range msgs.length).map (msgScore msgs keepCount))).map MsgScore.origIndex

/-! ## Selection -/

/-- The first pass: flag positions in the given order until `keepCount` were counted, a tool message
together with an assistant message right before it. -/
def selectPass (msgs : List Message) (keepCount : Nat) :
    List Nat → Finset Nat → Nat → Finset Nat
  | [], selected, _ => selected
  | i :: is, selected, n =>
    if n < keepCount then
      if followsAssistant msgs i && decide (i - 1 ∉ insert i selected) then
        selectPass msgs keepCount is (insert (i - 1) (insert i selected)) (n + 2)
      else selectPass msgs keepCount is (insert i selected) (n + 1)
    else selected

/-- One round of the second pass: flag the assistant message right before a flagged tool message, and
the tool message right after a flagged assistant message. -/
def unorphan (msgs : List Message) (kept : Finset Nat) (i : Nat) : Finset Nat :=
  let kept := if followsAssistant msgs i && decide (i ∈ kept) then insert (i - 1) kept else kept
  if isAssistantRole msgs i && isToolRole msgs (i + 1) && decide (i ∈ kept) then insert (i + 1) kept
  else kept

/-- The second pass, over all positions but the first. -/
def unorphanPass (msgs : List Message) (kept : Finset Nat) : Finset Nat :=
  (List.range' 1 (msgs.length - 1)).foldl (unorphan msgs) kept

/-- The flagged positions of a list, in order. -/
def flagged (msgs : List Message) (kept : Finset Nat) : List Nat :=
  (List.range msgs.length).filter (· ∈ kept)

/-- The positions that `smart_select_alloc` copies. -/
def smartSelected (q : Qsort) (msgs : List Message) (keepCount : Nat) : List Nat :=
  if msgs.length ≤ keepCount then List.range msgs.length
  else
    (flagged msgs (unorphanPass msgs (selectPass msgs keepCount (priorityOrder q msgs keepCount) ∅
      0))).take keepCount

/-- `smart_select_alloc`: absent when nothing of a list is selected. -/
def smartSelectAlloc (q : Qsort) (msgs : List Message) (keepCount : Nat) : Option (List Message) :=
  if keepCount < msgs.length ∧ smartSelected q msgs keepCount = [] then none
  else some (pick msgs (smartSelected q msgs keepCount))

/-! ## Tokens -/

/-- `estimate_tokens`. -/
def estimateTokens (content : Option String) : Nat :=
  match content with
  | none => 0
  | some text => text.utf8ByteSize / 4 + 1

/-- The estimate of the message at a position. -/
def tokensAt (msgs : List Message) (i : Nat) : Nat :=
  estimateTokens (msgs[i]?.bind Message.content)

/-- The estimate of a list. -/
def totalTokens (msgs : List Message) : Nat := (msgs.map fun m => estimateTokens m.content).sum

/-- Walk back over the first `n` positions and keep messages until one does not fit. -/
def keepRecent (msgs : List Message) : Nat → Finset Nat → Nat → Finset Nat
  | 0, kept, _ => kept
  | n + 1, kept, budget =>
    if n ∈ kept then keepRecent msgs n kept budget
    else if tokensAt msgs n ≤ budget then
      keepRecent msgs n (insert n kept) (budget - tokensAt msgs n)
    else kept

/-- The positions that `trim_messages_by_tokens_new` keeps. -/
def trimKept (msgs : List Message) (maxTokens : Nat) : List Nat :=
  if totalTokens msgs ≤ maxTokens then List.range msgs.length
  else
    flagged msgs (unorphanPass msgs (keepRecent msgs msgs.length
      ((Finset.range msgs.length).filter fun i => isSystem msgs i = true) maxTokens))

/-- `trim_messages_by_tokens_new` on an array that holds `msgs`, of which `count` are to be read;
absent when that is more than the array holds. -/
def trimMessagesByTokensNew (msgs : List Message) (count maxTokens : Nat) : Option (List Message) :=
  if msgs.length < count then none
  else some (pick (msgs.take count) (trimKept (msgs.take count) maxTokens))

/-! ## The window -/

/-- The size of `size_t`. -/
def sizeMax : Nat := 2 ^ 64

/-- The sum of the lengths is followed until it exceeds the bound; `size_t` arithmetic wraps around. -/
def charsFit (maxChars : Nat) : Nat → List Message → Bool
  | total, [] => decide (total ≤ maxChars)
  | total, m :: ms =>
    match m.content with
    | none => charsFit maxChars total ms
    | some text =>
      if (maxChars + sizeMax - text.utf8ByteSize) % sizeMax < total then false
      else charsFit maxChars ((total + text.utf8ByteSize) % sizeMax) ms

/-- Whether a list is within both budgets; a negative number of characters is a huge one. -/
def windowFits (msgs : List Message) (maxMessages : Nat) (maxChars : Int) : Bool :=
  decide (msgs.length ≤ maxMessages) && charsFit (maxChars % sizeMax).toNat 0 msgs

/-- The token budget of a number of characters. -/
def approxTokens (maxChars : Int) : Nat := max 1 (maxChars.tdiv 4).toNat

/-- `apply_context_window`: absent when it reads past the selected messages. -/
def applyContextWindow (q : Qsort) (msgs : List Message) (maxMessages : Nat) (maxChars : Int) :
    Option (List Message) :=
  if windowFits msgs maxMessages maxChars then some msgs
  else
    match smartSelectAlloc q msgs maxMessages with
    | none => some msgs
    | some selected =>
      trimMessagesByTokensNew selected (min msgs.length maxMessages) (approxTokens maxChars)

end EchoAi
