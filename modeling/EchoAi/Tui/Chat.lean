import EchoAi.Faults
import EchoAi.Places
import EchoAi.Server.HttpParse
import EchoAi.Tui.Wrap

/-!
# The scrollback

The blocks of a chat stand in an array that grows, and a removed block leaves its slot behind.

* `TuiChatBlock`, `TuiChat`: the blocks, and the slots that no block uses.
* `trimmed`: a text without the blank lines at its ends.
* `tuiChatBeginUser`, …, `tuiChatToggleCollapse`: the operations, with the allocations that fail.
* `Op`, `Op.apply`, `chatAfter`: operations in which none fails, one after the other.

Texts are the bytes of C strings, and the chat is not absent.  No text and no array is as long as
`SIZE_MAX`.
-/

namespace EchoAi.Tui

/-- `TuiBlockKind` -/
inductive TuiBlockKind where
  | user
  | assistant
  | think
  | tool
  | error
  deriving DecidableEq, Repr

/-- `TuiCollapseState` -/
inductive TuiCollapseState where
  | auto
  | on
  | off
  deriving DecidableEq, Repr

/-- `TUI_CHAT_COLLAPSE_THRESHOLD` -/
def tuiChatCollapseThreshold : Nat := 8

/-- The wrapped lines that a block remembers. -/
structure WrapCache where
  width : Nat
  lines : Nat
  starts : List Nat
  deriving DecidableEq, Repr

/-- `TuiChatBlock` -/
structure TuiChatBlock where
  kind : TuiBlockKind
  text : List UInt8
  title : Option (List UInt8)
  args : Option (List UInt8)
  collapse : TuiCollapseState
  wrap : Option WrapCache
  deriving DecidableEq, Repr

/-- `TuiChat`: the blocks, and the slots of the array behind them. -/
structure TuiChat where
  blocks : List TuiChatBlock
  spare : List TuiChatBlock
  streamingOpen : Bool
  streamingKind : TuiBlockKind
  deriving DecidableEq, Repr

/-- A slot of a new array. -/
def emptySlot : TuiChatBlock where
  kind := .user
  text := []
  title := none
  args := none
  collapse := .auto
  wrap := none

/-- `tui_chat_create` -/
def tuiChatCreate : TuiChat where
  blocks := []
  spare := []
  streamingOpen := false
  streamingKind := .user

/-- The allocations of an operation. -/
inductive AllocSite where
  | growth
  | text
  | title
  | args
  | line
  | copy
  | starts
  deriving DecidableEq, Repr

/-! ## Blank lines -/

/-- The first loop of `trim_blank_lines`, on the bytes from the last to the first. -/
def dropBlankLines (bs : List UInt8) : List UInt8 :=
  match _ : bs.dropWhile isBlankOrTab with
  | [] => bs
  | c :: rest => if c = 10 then dropBlankLines rest else bs
termination_by bs.length
decreasing_by
  rename_i hrest _
  have hle := length_dropWhile_le isBlankOrTab bs
  rw [hrest, List.length_cons] at hle
  exact hle

/-- What `trim_blank_lines` leaves of a text. -/
def trimmed (text : List UInt8) : List UInt8 :=
  let kept := dropBlankLines (dropBlankLines text.reverse).reverse
  if kept.all fun c => c = 32 || c = 9 || c = 10 then [] else kept

theorem trimmed_nil : trimmed [] = [] := by decide +kernel

theorem dropBlankLines_suffix (bs : List UInt8) : dropBlankLines bs <:+ bs := by
  fun_induction dropBlankLines bs with
  | case1 bs => exact List.suffix_rfl
  | case2 bs rest h ih =>
    exact ih.trans ((List.suffix_cons 10 rest).trans (h ▸ List.dropWhile_suffix isBlankOrTab))
  | case3 => exact List.suffix_rfl

/-- What is left stands in the text. -/
theorem isInfix_trimmed (text : List UInt8) : trimmed text <:+: text := by
  unfold trimmed
  dsimp only
  split
  · exact List.nil_infix
  · refine (dropBlankLines_suffix _).isInfix.trans ?_
    rw [← List.reverse_infix, List.reverse_reverse]
    exact (dropBlankLines_suffix _).isInfix

theorem trimmed_eq_self_iff {text : List UInt8} :
    (trimmed text).length = text.length ↔ trimmed text = text :=
  ⟨(isInfix_trimmed text).eq_of_length, congrArg List.length⟩

/-- `invalidate_wrap` -/
def invalidateWrap (blk : TuiChatBlock) : TuiChatBlock := { blk with wrap := none }

/-- `trim_blank_lines` -/
def trimBlankLines (blk : TuiChatBlock) : TuiChatBlock :=
  if (trimmed blk.text).length = blk.text.length then blk
  else invalidateWrap { blk with text := trimmed blk.text }

/-- `block_free_contents` -/
def blockFreeContents (blk : TuiChatBlock) : TuiChatBlock :=
  { blk with text := [], title := none, args := none, wrap := none }

/-! ## Operations -/

namespace TuiChat

/-- A change to the last block. -/
def modifyLast (change : TuiChatBlock → TuiChatBlock) (chat : TuiChat) : TuiChat :=
  { chat with blocks := chat.blocks.modify (chat.blocks.length - 1) change }

/-- The array has room for a block. -/
def grown (chat : TuiChat) : TuiChat :=
  if chat.spare = [] then
    let newCap := if chat.blocks.length = 0 then 8 else chat.blocks.length * 2
    { chat with spare := List.replicate (newCap - chat.blocks.length) emptySlot }
  else chat

/-- The next slot has the block. -/
def put (kind : TuiBlockKind) (text : List UInt8) (title args : Option (List UInt8))
    (chat : TuiChat) : TuiChat :=
  let slot := chat.spare.head?.getD emptySlot
  { chat with blocks := chat.blocks ++ [{ slot with kind, text, title, args }]
              spare := chat.spare.tail }

end TuiChat

/-- `seal_streaming` -/
def sealStreaming (chat : TuiChat) : TuiChat :=
  { (if chat.streamingOpen then chat.modifyLast trimBlankLines else chat) with
    streamingOpen := false }

section Operations

variable (fail : Faults AllocSite) (chat : TuiChat)

/-- `block_append3` -/
def blockAppend3 (kind : TuiBlockKind) (text title args : Option (List UInt8)) : Int × TuiChat :=
  if chat.spare = [] ∧ fail .growth then (-1, chat)
  else if fail .text then (-1, chat.grown)
  else if title.isSome ∧ fail .title then (-1, chat.grown)
  else if args.isSome ∧ fail .args then (-1, chat.grown)
  else (0, chat.grown.put kind (text.getD []) title args)

/-- `block_append` -/
def blockAppend (kind : TuiBlockKind) (text : Option (List UInt8)) : Int × TuiChat :=
  blockAppend3 fail chat kind text none none

/-- `tui_chat_begin_user` -/
def tuiChatBeginUser (text : Option (List UInt8)) : Int × TuiChat :=
  let (rc, after) := blockAppend fail (sealStreaming chat) .user text
  if rc ≠ 0 then (-1, { after with streamingOpen := chat.streamingOpen })
  else (0, after.modifyLast trimBlankLines)

/-- `tui_chat_begin_stream` -/
def tuiChatBeginStream (kind : TuiBlockKind) : Int × TuiChat :=
  if kind ≠ .assistant ∧ kind ≠ .think then (-1, chat)
  else
    let (rc, after) := blockAppend fail (sealStreaming chat) kind (some [])
    if rc ≠ 0 then (-1, { after with streamingOpen := chat.streamingOpen })
    else (0, { after with streamingOpen := true, streamingKind := kind })

/-- `tui_chat_stream_append` -/
def tuiChatStreamAppend (delta : Option (List UInt8)) : Int × TuiChat :=
  match delta with
  | none => (-1, chat)
  | some delta =>
    if !chat.streamingOpen then (0, chat)
    else if delta = [] then (0, chat)
    else if fail .copy then (-1, chat)
    else (0, chat.modifyLast fun blk => invalidateWrap { blk with text := blk.text ++ delta })

/-- `tui_chat_end_stream` -/
def tuiChatEndStream : TuiChat := sealStreaming chat

/-- `tui_chat_append_tool` -/
def tuiChatAppendTool (name result : Option (List UInt8)) : Int × TuiChat :=
  if fail .line then (-1, chat)
  else
    let line := name.getD (ascii "(tool)") ++ ascii ": " ++ result.getD []
    let (rc, after) := blockAppend fail chat .tool (some line)
    (rc, if rc = 0 then after.modifyLast trimBlankLines else after)

/-- `tui_chat_begin_tool` -/
def tuiChatBeginTool (name args : Option (List UInt8)) : Int × TuiChat :=
  blockAppend3 fail chat .tool (some []) name args

/-- A block gets its result. -/
def fillResult (result : Option (List UInt8)) (blk : TuiChatBlock) : TuiChatBlock :=
  trimBlankLines (invalidateWrap { blk with text := result.getD [] })

/-- A block shows no result yet. -/
def TuiChatBlock.isEmptyTool (blk : TuiChatBlock) : Bool := blk.kind = .tool ∧ blk.text = []

/-- `tui_chat_tool_finish` -/
def tuiChatToolFinish (name result : Option (List UInt8)) : Int × TuiChat :=
  if chat.blocks.getLast?.any TuiChatBlock.isEmptyTool then
    if fail .copy then (-1, chat) else (0, chat.modifyLast (fillResult result))
  else tuiChatAppendTool fail chat name result

/-- A title is that of a tool, as far as both are known. -/
def titleMatches (name title : Option (List UInt8)) : Bool :=
  name.isNone || title.isNone || title = name

/-- `tui_chat_tool_finish_named` -/
def tuiChatToolFinishNamed (name result : Option (List UInt8)) : Int × TuiChat :=
  match lastIndex (fun blk => blk.isEmptyTool && titleMatches name blk.title) chat.blocks
      chat.blocks.length with
  | some i =>
    if fail .copy then (-1, chat)
    else (0, { chat with blocks := chat.blocks.modify i (fillResult result) })
  | none => tuiChatAppendTool fail chat name result

/-- `tui_chat_append_error` -/
def tuiChatAppendError (text : Option (List UInt8)) : Int × TuiChat :=
  let (rc, after) := blockAppend fail chat .error text
  (rc, if rc = 0 then after.modifyLast trimBlankLines else after)

/-- `tui_chat_truncate_after` -/
def tuiChatTruncateAfter (idx : Nat) : Int × TuiChat :=
  if chat.blocks.length ≤ idx then (-1, chat)
  else
    (0, { chat with blocks := chat.blocks.take idx
                    spare := (chat.blocks.drop idx).map blockFreeContents ++ chat.spare
                    streamingOpen := false })

/-- What `tui_chat_block_line_starts` does to a block: it remembers the lines for a new width. -/
def cacheLines (width : Nat) (blk : TuiChatBlock) : TuiChatBlock :=
  if blk.wrap.any fun cache => cache.width = width then blk
  else if fail .starts then blk
  else
    let lines := (tuiChatWrap blk.text width 0).1
    let starts := (tuiChatWrap blk.text width (lines + 1)).2 ++ [blk.text.length]
    { blk with wrap := some { width, lines, starts } }

/-- The lines that `tui_chat_block_line_starts` reports of a block that has been there. -/
def TuiChatBlock.lineCount (width : Nat) (blk : TuiChatBlock) : Nat :=
  match blk.wrap with
  | some cache => cache.lines
  | none => (tuiChatWrap blk.text width 0).1

/-- What `tui_chat_block_effective_collapsed` says of a block whose lines it has asked for. -/
def TuiChatBlock.effectiveCollapsed (width : Nat) (blk : TuiChatBlock) : Bool :=
  blk.kind = .tool ∧ tuiChatCollapseThreshold < blk.lineCount width ∧ blk.collapse ≠ .off

/-- What `tui_chat_toggle_collapse` does to a tool block. -/
def toggleBlock (width : Nat) (blk : TuiChatBlock) : TuiChatBlock :=
  let blk := cacheLines fail width blk
  if blk.lineCount width ≤ tuiChatCollapseThreshold then blk
  else
    -- `tui_chat_block_effective_collapsed` asks for the lines again
    let blk := cacheLines fail width blk
    { blk with collapse := if blk.effectiveCollapsed width then .off else .on }

/-- `tui_chat_toggle_collapse` -/
def tuiChatToggleCollapse (idx width : Nat) : TuiCollapseState × TuiChat :=
  match chat.blocks[idx]? with
  | none => (.auto, chat)
  | some blk =>
    if blk.kind ≠ .tool then (.auto, chat)
    else
      ((toggleBlock fail width blk).collapse,
        { chat with blocks := chat.blocks.modify idx (toggleBlock fail width) })

end Operations

/-! ## Sequences of operations -/

/-- The operations. -/
inductive Op where
  | beginUser (text : Option (List UInt8))
  | beginStream (kind : TuiBlockKind)
  | streamAppend (delta : Option (List UInt8))
  | endStream
  | beginTool (name args : Option (List UInt8))
  | appendTool (name result : Option (List UInt8))
  | toolFinish (name result : Option (List UInt8))
  | toolFinishNamed (name result : Option (List UInt8))
  | appendError (text : Option (List UInt8))
  | toggleCollapse (idx width : Nat)
  | truncateAfter (idx : Nat)
  deriving DecidableEq, Repr

/-- What an operation does to the chat when memory does not run out. -/
def Op.apply (chat : TuiChat) : Op → TuiChat
  | .beginUser text => (tuiChatBeginUser .none chat text).2
  | .beginStream kind => (tuiChatBeginStream .none chat kind).2
  | .streamAppend delta => (tuiChatStreamAppend .none chat delta).2
  | .endStream => tuiChatEndStream chat
  | .beginTool name args => (tuiChatBeginTool .none chat name args).2
  | .appendTool name result => (tuiChatAppendTool .none chat name result).2
  | .toolFinish name result => (tuiChatToolFinish .none chat name result).2
  | .toolFinishNamed name result => (tuiChatToolFinishNamed .none chat name result).2
  | .appendError text => (tuiChatAppendError .none chat text).2
  | .toggleCollapse idx width => (tuiChatToggleCollapse .none chat idx width).2
  | .truncateAfter idx => (tuiChatTruncateAfter chat idx).2

/-- The chat after some operations. -/
def chatAfter (ops : List Op) : TuiChat := ops.foldl Op.apply tuiChatCreate

end EchoAi.Tui
