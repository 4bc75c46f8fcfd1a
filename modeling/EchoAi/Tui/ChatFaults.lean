import EchoAi.Tui.ChatShows

/-!
# Operations of the scrollback that fail

An operation that runs out of memory reports it, and should leave the blocks as they were.  An
operation that ends an open stream cuts the blank lines off its block first, and does not put them
back.

* `Op.runWith`: what an operation reports and does when some of its allocations fail.
* `Op.Cuts`: the operation ends a stream whose block has blank lines at an end.
* `runWith_view_iff`: just such an operation changes a block and fails.
-/

namespace EchoAi.Tui

/-- What an operation reports, and the chat that it leaves. -/
def Op.runWith (fail : Faults AllocSite) (chat : TuiChat) : Op → Int × TuiChat
  | .beginUser text => tuiChatBeginUser fail chat text
  | .beginStream kind => tuiChatBeginStream fail chat kind
  | .streamAppend delta => tuiChatStreamAppend fail chat delta
  | .endStream => (0, tuiChatEndStream chat)
  | .beginTool name args => tuiChatBeginTool fail chat name args
  | .appendTool name result => tuiChatAppendTool fail chat name result
  | .toolFinish name result => tuiChatToolFinish fail chat name result
  | .toolFinishNamed name result => tuiChatToolFinishNamed fail chat name result
  | .appendError text => tuiChatAppendError fail chat text
  | .toggleCollapse idx width => (0, (tuiChatToggleCollapse fail chat idx width).2)
  | .truncateAfter idx => tuiChatTruncateAfter chat idx

theorem Op.runWith_none (chat : TuiChat) (op : Op) : (op.runWith .none chat).2 = op.apply chat := by
  cases op <;> rfl

/-- The operation ends an open stream before it appends a block. -/
def Op.Seals : Op → Prop
  | .beginUser _ => True
  | .beginStream kind => kind = .assistant ∨ kind = .think
  | _ => False

/-- The operation ends an open stream, and the last block has blank lines at an end. -/
def Op.Cuts (chat : TuiChat) (op : Op) : Prop :=
  op.Seals ∧ chat.streamingOpen = true ∧ ∃ blk ∈ chat.blocks.getLast?, trimmed blk.text ≠ blk.text

section Append

variable {fail : Faults AllocSite} {chat : TuiChat}

/-- A block that is not appended leaves the other blocks. -/
theorem view_blockAppend3_failed {kind : TuiBlockKind} {text title args : Option (List UInt8)}
    (h : (blockAppend3 fail chat kind text title args).1 ≠ 0) :
    (blockAppend3 fail chat kind text title args).2.view = chat.view := by
  unfold blockAppend3 at h ⊢
  split_ifs at h ⊢ with hgrowth htext htitle hargs
  · rfl
  · exact chat.view_grown
  · exact chat.view_grown
  · exact chat.view_grown
  · exact absurd rfl h

theorem view_blockAppend_failed {kind : TuiBlockKind} {text : Option (List UInt8)}
    (h : (blockAppend fail chat kind text).1 ≠ 0) :
    (blockAppend fail chat kind text).2.view = chat.view :=
  view_blockAppend3_failed h

theorem view_appendTool_failed {name result : Option (List UInt8)}
    (h : (tuiChatAppendTool fail chat name result).1 ≠ 0) :
    (tuiChatAppendTool fail chat name result).2.view = chat.view := by
  unfold tuiChatAppendTool at h ⊢
  split_ifs at h ⊢
  · rfl
  · dsimp only at h ⊢
    rw [if_neg h]
    exact view_blockAppend_failed h

/-- Without memory no block is appended. -/
theorem blockAppend_outOfMemory (kind : TuiBlockKind) (text : Option (List UInt8)) :
    (blockAppend (fun _ => true) chat kind text).1 ≠ 0 := by
  have hfailed : (-1 : Int) ≠ 0 := by decide
  unfold blockAppend blockAppend3
  simp only [and_true, if_true]
  split
  · exact hfailed
  · exact hfailed

end Append

/-! ## The end of a stream -/

/-- A block that is trimmed is the same just when it has no blank lines at its ends. -/
theorem BlockView.trim_eq_self_iff {blk : BlockView} :
    blk.trim = blk ↔ trimmed blk.text = blk.text := by
  constructor
  · exact congrArg BlockView.text
  · intro h
    show blk.withText (trimmed blk.text) = blk
    rw [h]
    rfl

/-- The end of a stream changes just a last block with blank lines at an end. -/
theorem view_sealStreaming_iff (chat : TuiChat) :
    (sealStreaming chat).view = chat.view ↔
      ¬(chat.streamingOpen = true ∧ ∃ blk ∈ chat.blocks.getLast?, trimmed blk.text ≠ blk.text) := by
  rw [view_sealStreaming]
  split
  · next hopen =>
    rcases List.eq_nil_or_concat chat.blocks with hnil | ⟨front, blk, hblocks⟩
    · have hview : chat.view = [] := by rw [TuiChat.view, hnil, List.map_nil]
      rw [hview, hnil]
      exact iff_of_true rfl fun h => absurd h.2 (by simp)
    · rw [List.concat_eq_append] at hblocks
      have hview : chat.view = front.map TuiChatBlock.view ++ [blk.view] := by
        rw [TuiChat.view, hblocks, List.map_append, List.map_singleton]
      rw [hview, List.length_append, List.length_singleton, Nat.add_sub_cancel, modify_concat,
        List.append_cancel_left_eq, List.singleton_inj, BlockView.trim_eq_self_iff, hblocks,
        List.getLast?_concat]
      constructor
      · rintro heq ⟨-, blk', hblk', hne⟩
        exact hne (Option.some.inj hblk' ▸ heq)
      · intro h
        by_contra hne
        exact h ⟨hopen, blk, rfl, hne⟩
  · next hopen => exact iff_of_true rfl fun h => hopen h.1

/-! ## Operations that fail -/

/-- An operation that fails has left the blocks just when it has cut none. -/
theorem view_runWith_failed {fail : Faults AllocSite} {chat : TuiChat} {op : Op}
    (h : (op.runWith fail chat).1 ≠ 0) :
    (op.runWith fail chat).2.view = chat.view ↔ ¬op.Cuts chat := by
  cases op with
  | beginUser text =>
    have hcuts : (Op.beginUser text).Cuts chat ↔
        chat.streamingOpen = true ∧ ∃ blk ∈ chat.blocks.getLast?, trimmed blk.text ≠ blk.text :=
      and_iff_right trivial
    rw [hcuts, ← view_sealStreaming_iff]
    unfold Op.runWith tuiChatBeginUser at h ⊢
    dsimp only at h ⊢
    split_ifs at h ⊢ with hrc
    · rw [← view_blockAppend_failed hrc]
      rfl
    · exact absurd rfl h
  | beginStream kind =>
    unfold Op.runWith tuiChatBeginStream at h ⊢
    dsimp only at h ⊢
    split_ifs at h ⊢ with hkind hrc
    · exact iff_of_true rfl fun hcuts => hcuts.1.elim hkind.1 hkind.2
    · have hseals : kind = .assistant ∨ kind = .think := by
        by_contra hother
        exact hkind (not_or.1 hother)
      have hcuts : (Op.beginStream kind).Cuts chat ↔
          chat.streamingOpen = true ∧ ∃ blk ∈ chat.blocks.getLast?, trimmed blk.text ≠ blk.text :=
        and_iff_right hseals
      rw [hcuts, ← view_sealStreaming_iff, ← view_blockAppend_failed hrc]
      rfl
    · exact absurd rfl h
  | streamAppend delta =>
    refine iff_of_true ?_ fun hcuts => hcuts.1
    unfold Op.runWith tuiChatStreamAppend at h ⊢
    cases delta with
    | none => rfl
    | some delta =>
      dsimp only at h ⊢
      split_ifs at h ⊢
      · rfl
      · rfl
      · rfl
      · exact absurd rfl h
  | endStream => exact absurd rfl h
  | beginTool name args => exact iff_of_true (view_blockAppend3_failed h) fun hcuts => hcuts.1
  | appendTool name result => exact iff_of_true (view_appendTool_failed h) fun hcuts => hcuts.1
  | toolFinish name result =>
    refine iff_of_true ?_ fun hcuts => hcuts.1
    unfold Op.runWith tuiChatToolFinish at h ⊢
    dsimp only at h ⊢
    split_ifs at h ⊢
    · rfl
    · exact absurd rfl h
    · exact view_appendTool_failed h
  | toolFinishNamed name result =>
    refine iff_of_true ?_ fun hcuts => hcuts.1
    unfold Op.runWith tuiChatToolFinishNamed at h ⊢
    dsimp only at h ⊢
    split at h
    · split_ifs at h ⊢
      · rfl
      · exact absurd rfl h
    · exact view_appendTool_failed h
  | appendError text =>
    refine iff_of_true ?_ fun hcuts => hcuts.1
    unfold Op.runWith tuiChatAppendError at h ⊢
    dsimp only at h ⊢
    rw [if_neg h]
    exact view_blockAppend_failed h
  | toggleCollapse idx width => exact absurd rfl h
  | truncateAfter idx =>
    refine iff_of_true ?_ fun hcuts => hcuts.1
    unfold Op.runWith tuiChatTruncateAfter at h ⊢
    dsimp only at h ⊢
    split_ifs at h ⊢
    · rfl
    · exact absurd rfl h

/-- Without memory an operation that ends a stream fails. -/
theorem runWith_outOfMemory {chat : TuiChat} {op : Op} (h : op.Seals) :
    (op.runWith (fun _ => true) chat).1 ≠ 0 := by
  have hfailed : (-1 : Int) ≠ 0 := by decide
  cases op with
  | beginUser text =>
    unfold Op.runWith tuiChatBeginUser
    dsimp only
    rw [if_pos (blockAppend_outOfMemory _ _)]
    exact hfailed
  | beginStream kind =>
    unfold Op.runWith tuiChatBeginStream
    dsimp only
    rw [if_pos (blockAppend_outOfMemory _ _)]
    split
    · exact hfailed
    · exact hfailed
  | _ => exact h.elim

/-- An operation leaves the blocks whenever it fails, just when it cannot have cut one. -/
theorem runWith_view_iff (chat : TuiChat) (op : Op) :
    (∀ fail, (op.runWith fail chat).1 ≠ 0 → (op.runWith fail chat).2.view = chat.view) ↔
      ¬op.Cuts chat := by
  constructor
  · intro h hcuts
    have hfails := @runWith_outOfMemory chat op hcuts.1
    exact (view_runWith_failed hfails).1 (h _ hfails) hcuts
  · intro h fail hfails
    exact (view_runWith_failed hfails).2 h

/-- An answer that ends in a new line so far. -/
def openAnswer : List Op := [.beginStream .assistant, .streamAppend (some (ascii "Hi\n"))]

/-- The new line is gone when the next message finds no memory. -/
theorem not_runWith_view :
    ¬∀ (chat : TuiChat) (op : Op) (fail : Faults AllocSite), (op.runWith fail chat).1 ≠ 0 →
      (op.runWith fail chat).2.view = chat.view := by
  intro h
  have hview := h (chatAfter openAnswer) (.beginUser (some (ascii "Bye"))) (fun _ => true)
    (by decide +kernel)
  exact absurd hview (by decide +kernel)

end EchoAi.Tui
