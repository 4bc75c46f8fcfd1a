import EchoAi.Tui.Transcript

/-!
# The scrollback shows the list

The code finds the block that an operation is about by looking for it: the last block, or the newest
tool block without text.

* `Meets`: when the code finds the right block, and a fresh slot for a new one.
* `Shows`: the chat shows the list.
* `apply_view_iff`: a step of the code does what it should just when it meets the condition.
* `refines_iff`: so the chat shows the list as long as every step does.
-/

namespace EchoAi.Tui

/-! ## What the code relies on -/

def TuiChatBlock.view (blk : TuiChatBlock) : BlockView where
  kind := blk.kind
  text := blk.text
  title := blk.title
  args := blk.args
  collapse := blk.collapse

def TuiChat.view (chat : TuiChat) : List BlockView := chat.blocks.map TuiChatBlock.view

/-- The next slot was never folded by the user for a block that is gone. -/
def FreshSlot (chat : TuiChat) : Prop := ∀ slot ∈ chat.spare.head?, slot.collapse = .auto

instance (chat : TuiChat) : Decidable (FreshSlot chat) :=
  inferInstanceAs (Decidable (∀ slot ∈ chat.spare.head?, slot.collapse = .auto))

/-- The open stream has the last block, or neither its block nor the last one has a blank line to
lose. -/
def SealsOwn (t : Transcript) : Prop :=
  ∀ i ∈ t.stream, i + 1 = t.entries.length ∨
    (∀ e ∈ t.entries[i]?, e.block.trim = e.block) ∧ ∀ e ∈ t.entries.getLast?, e.block.trim = e.block

instance (t : Transcript) : Decidable (SealsOwn t) :=
  inferInstanceAs (Decidable (∀ i ∈ t.stream, _))

/-- When a step of the code is about the block that it should be about: the stream has the last
block, the slot of a new block is fresh, and the newest tool block without text still waits. -/
def Meets (chat : TuiChat) (t : Transcript) : Op → Prop
  | .beginUser _ => SealsOwn t ∧ FreshSlot chat
  | .beginStream kind => kind = .assistant ∨ kind = .think → SealsOwn t ∧ FreshSlot chat
  | .streamAppend delta => delta.getD [] ≠ [] → ∀ i ∈ t.stream, i + 1 = t.entries.length
  | .endStream => SealsOwn t
  | .beginTool _ _ | .appendTool _ _ | .appendError _ => FreshSlot chat
  | .toolFinish _ _ =>
    if t.entries.getLast?.any (·.block.isEmptyTool) then
      t.entries.getLast?.any Entry.waits = true
    else FreshSlot chat
  | .toolFinishNamed name result =>
    match lastIndex (fun e => e.block.isEmptyToolOf name) t.entries t.entries.length with
    | some i =>
      (t.entries[i]?).any Entry.waits = true ∨
        trimmed (result.getD []) = [] ∧ (t.waiting name).isSome = true
    | none => FreshSlot chat
  | .toggleCollapse _ _ | .truncateAfter _ => True

/-- What a block remembers is right. -/
def TuiChatBlock.Remembers (blk : TuiChatBlock) : Prop :=
  ∀ cache ∈ blk.wrap, cache.lines = (tuiChatWrap blk.text cache.width 0).1

/-- The blocks remember what is right, and the other slots nothing. -/
structure TuiChat.Sound (chat : TuiChat) : Prop where
  blocks : ∀ blk ∈ chat.blocks, blk.Remembers
  spare : ∀ slot ∈ chat.spare, slot.wrap = none

/-- The chat shows the list. -/
structure Shows (chat : TuiChat) (t : Transcript) : Prop where
  view : chat.view = t.view
  stream : chat.streamingOpen = t.stream.isSome

/-! ## What the operations of the code show -/

theorem view_trimBlankLines (blk : TuiChatBlock) : (trimBlankLines blk).view = blk.view.trim := by
  unfold trimBlankLines
  split
  · next h =>
    rw [trimmed_eq_self_iff] at h
    show blk.view = blk.view.withText (trimmed blk.text)
    rw [h]
    rfl
  · rfl

theorem view_fillResult (result : Option (List UInt8)) (blk : TuiChatBlock) :
    (fillResult result blk).view = blk.view.withText (trimmed (result.getD [])) :=
  view_trimBlankLines _

namespace TuiChat

variable {chat : TuiChat}

theorem length_view (chat : TuiChat) : chat.view.length = chat.blocks.length := List.length_map ..

theorem view_modifyLast {f : TuiChatBlock → TuiChatBlock} {g : BlockView → BlockView}
    (h : ∀ blk, (f blk).view = g blk.view) :
    (chat.modifyLast f).view = chat.view.modify (chat.view.length - 1) g := by
  rw [length_view]
  exact map_modify (fun blk _ => h blk) _

/-- The collapse state that the next slot brings. -/
def nextCollapse (chat : TuiChat) : TuiCollapseState := (chat.spare.head?.getD emptySlot).collapse

theorem freshSlot_iff : FreshSlot chat ↔ chat.nextCollapse = .auto := by
  unfold FreshSlot nextCollapse
  cases chat.spare with
  | nil => exact iff_of_true nofun rfl
  | cons slot spare => exact ⟨fun h => h slot rfl, fun h slot' hslot => Option.some.inj hslot ▸ h⟩

theorem nextCollapse_grown (chat : TuiChat) : chat.grown.nextCollapse = chat.nextCollapse := by
  unfold grown
  split
  · next h =>
    unfold nextCollapse
    rw [h]
    dsimp only
    rw [List.head?_replicate]
    split <;> split <;> rfl
  · rfl

theorem view_grown (chat : TuiChat) : chat.grown.view = chat.view := by
  unfold grown
  split <;> rfl

theorem streamingOpen_grown (chat : TuiChat) : chat.grown.streamingOpen = chat.streamingOpen := by
  unfold grown
  split <;> rfl

end TuiChat

/-- A block that nothing keeps from being appended. -/
theorem blockAppend3_none (chat : TuiChat) (kind : TuiBlockKind)
    (text title args : Option (List UInt8)) :
    blockAppend3 .none chat kind text title args =
      (0, chat.grown.put kind (text.getD []) title args) := by
  unfold blockAppend3
  simp only [Faults.none_apply, Bool.false_eq_true, and_false, if_false]

/-- The blocks after one more, in a slot that brings its collapse state. -/
theorem view_put_grown (chat : TuiChat) (kind : TuiBlockKind) (text : List UInt8)
    (title args : Option (List UInt8)) :
    (chat.grown.put kind text title args).view =
      chat.view ++ [{ kind, text, title, args, collapse := chat.nextCollapse }] := by
  rw [← chat.view_grown, ← chat.nextCollapse_grown]
  exact List.map_append ..

/-- A trimmed block is appended. -/
theorem view_modifyLast_put_grown (chat : TuiChat) (kind : TuiBlockKind) (text : List UInt8) :
    ((chat.grown.put kind text none none).modifyLast trimBlankLines).view =
      chat.view ++ [{ kind, text := trimmed text, title := none, args := none,
                      collapse := chat.nextCollapse }] := by
  rw [TuiChat.view_modifyLast view_trimBlankLines, view_put_grown, List.length_append,
    List.length_singleton, Nat.add_sub_cancel, modify_concat]
  rfl

theorem view_appendTool (chat : TuiChat) (name result : Option (List UInt8)) :
    (tuiChatAppendTool .none chat name result).2.view = chat.view ++
      [{ kind := .tool, text := trimmed (name.getD (ascii "(tool)") ++ ascii ": " ++
          result.getD []), title := none, args := none, collapse := chat.nextCollapse }] := by
  unfold tuiChatAppendTool blockAppend
  simp only [Faults.none_apply, Bool.false_eq_true, if_false, blockAppend3_none, if_true]
  exact view_modifyLast_put_grown ..

/-- What is left when a stream ends. -/
theorem view_sealStreaming (chat : TuiChat) :
    (sealStreaming chat).view =
      if chat.streamingOpen then chat.view.modify (chat.view.length - 1) BlockView.trim
      else chat.view := by
  unfold sealStreaming
  split
  · exact TuiChat.view_modifyLast view_trimBlankLines
  · rfl

theorem nextCollapse_sealStreaming (chat : TuiChat) :
    (sealStreaming chat).nextCollapse = chat.nextCollapse := by
  unfold sealStreaming
  split <;> rfl

/-! ## What the operations show of the list -/

namespace Transcript

variable (t : Transcript)

theorem length_view : t.view.length = t.entries.length := List.length_map ..

theorem getElem?_view {i : Nat} {e : Entry} (h : t.entries[i]? = some e) :
    t.view[i]? = some e.block := by rw [view, List.getElem?_map, h, Option.map_some]

theorem view_change (i : Nat) (f : BlockView → BlockView) :
    (t.change i f).view = t.view.modify i f := by
  refine map_modify ?_ i
  exact fun _ _ => rfl

theorem view_finish (i : Nat) (result : Option (List UInt8)) :
    (t.finish i result).view = t.view.modify i (BlockView.withText (trimmed (result.getD []))) := by
  refine map_modify ?_ i
  exact fun _ _ => rfl

theorem view_add (kind : TuiBlockKind) (text : List UInt8) (title args : Option (List UInt8))
    (waits : Bool) : (t.add kind text title args waits).view =
      t.view ++ [{ kind, text, title, args, collapse := .auto }] := List.map_append ..

end Transcript

/-! ## One step -/

section Step

variable {chat : TuiChat} {t : Transcript}

theorem concat_view_eq_iff {views views' : List BlockView} {kind : TuiBlockKind} {text : List UInt8}
    {title args : Option (List UInt8)} :
    views ++ [{ kind, text, title, args, collapse := chat.nextCollapse }] =
      views' ++ [{ kind, text, title, args, collapse := .auto }] ↔
      views = views' ∧ FreshSlot chat := by
  rw [TuiChat.freshSlot_iff]
  constructor
  · intro h
    obtain ⟨hviews, hblock⟩ := List.append_inj' h rfl
    exact ⟨hviews, congrArg BlockView.collapse (List.singleton_inj.1 hblock)⟩
  · rintro ⟨rfl, hfresh⟩
    rw [hfresh]

/-- A change to the last block and one to the block of the stream. -/
theorem modify_last_eq_iff {i : Nat} {e : Entry} {f g : BlockView → BlockView}
    (hi : t.entries[i]? = some e) :
    t.view.modify (t.entries.length - 1) f = t.view.modify i g ↔
      if i + 1 = t.entries.length then f e.block = g e.block
      else g e.block = e.block ∧ ∀ last ∈ t.entries.getLast?, f last.block = last.block := by
  have hlt := (List.getElem?_eq_some_iff.1 hi).1
  split
  · next hlast =>
    have hplace : t.entries.length - 1 = i := by omega
    rw [hplace]
    exact modify_congr_iff (t.getElem?_view hi)
  · next hlast =>
    obtain ⟨last, hlastEntry⟩ : ∃ last, t.entries[t.entries.length - 1]? = some last :=
      ⟨_, List.getElem?_eq_getElem (by omega)⟩
    rw [modify_eq_modify_iff (by omega) (t.getElem?_view hlastEntry) (t.getElem?_view hi),
      List.getLast?_eq_getElem?, hlastEntry, and_comm]
    exact and_congr_right fun _ => ⟨fun h _ hmem => Option.some.inj hmem ▸ h, fun h => h last rfl⟩

/-- What the end of a stream shows. -/
theorem sealStreaming_view_iff (h : Shows chat t) (ht : t.Sound) :
    (sealStreaming chat).view = t.endStream.view ↔ SealsOwn t := by
  rw [view_sealStreaming, h.stream, h.view, t.length_view]
  cases hstream : t.stream with
  | none =>
    have hend : t.endStream = t := by
      unfold Transcript.endStream
      rw [hstream]
    rw [hend]
    refine iff_of_true rfl fun i hi => ?_
    rw [hstream] at hi
    exact absurd hi (by simp)
  | some i =>
    obtain ⟨e, he, -⟩ := ht.stream i hstream
    have hend : t.endStream.view = t.view.modify i BlockView.trim := by
      unfold Transcript.endStream
      rw [hstream]
      exact t.view_change i BlockView.trim
    rw [hend]
    show t.view.modify (t.entries.length - 1) BlockView.trim = _ ↔ _
    rw [modify_last_eq_iff he]
    have hplace : ∀ k ∈ t.stream, k = i := fun k hk => Option.some.inj (hk.symm.trans hstream)
    constructor
    · intro heq k hk
      rw [hplace k hk]
      split at heq
      · next hlast => exact Or.inl hlast
      · exact Or.inr ⟨fun e' he' => Option.some.inj (he.symm.trans he') ▸ heq.1, heq.2⟩
    · intro hown
      split
      · rfl
      · next hlast =>
        rcases hown i hstream with hown | ⟨hblock, hlast'⟩
        · exact absurd hown hlast
        · exact ⟨hblock e he, hlast'⟩

/-- A stream that gets more text. -/
theorem extend_view_iff (h : Shows chat t) (ht : t.Sound) (delta : Option (List UInt8)) :
    (tuiChatStreamAppend .none chat delta).2.view = (t.extend (delta.getD [])).view ↔
      Meets chat t (.streamAppend delta) := by
  have hsame : (t.extend []).view = t.view := by
    unfold Transcript.extend
    split
    · rfl
    · next i hi =>
      obtain ⟨e, he, -⟩ := ht.stream i hi
      rw [Transcript.view_change, modify_eq_self_iff (t.getElem?_view he), List.append_nil]
      rfl
  cases delta with
  | none => exact iff_of_true (h.view.trans hsame.symm) fun hne => absurd rfl hne
  | some delta =>
  by_cases hdelta : delta = []
  · have hchat : (tuiChatStreamAppend .none chat (some delta)).2 = chat := by
      rw [tuiChatStreamAppend, if_pos hdelta]
      split <;> rfl
    rw [hchat, hdelta]
    exact iff_of_true (h.view.trans hsame.symm) fun hne => absurd rfl hne
  cases hstream : t.stream with
  | none =>
    have hchat : (tuiChatStreamAppend .none chat (some delta)).2 = chat := by
      rw [tuiChatStreamAppend, h.stream, hstream]
      rfl
    have hlist : t.extend delta = t := by
      unfold Transcript.extend
      rw [hstream]
    rw [hchat, Option.getD_some, hlist]
    refine iff_of_true h.view fun _ i hi => ?_
    rw [hstream] at hi
    exact absurd hi (by simp)
  | some i =>
    obtain ⟨e, he, -⟩ := ht.stream i hstream
    have hchat : (tuiChatStreamAppend .none chat (some delta)).2.view =
        chat.view.modify (chat.view.length - 1) fun blk => blk.withText (blk.text ++ delta) := by
      rw [tuiChatStreamAppend, h.stream, hstream, if_neg (by simp), if_neg hdelta, if_neg (by simp)]
      exact TuiChat.view_modifyLast fun _ => rfl
    have hlist : (t.extend delta).view =
        t.view.modify i fun blk => blk.withText (blk.text ++ delta) := by
      unfold Transcript.extend
      rw [hstream]
      exact t.view_change i _
    rw [hchat, Option.getD_some, hlist, h.view, t.length_view, modify_last_eq_iff he]
    constructor
    · intro heq _ k hk
      rw [Option.some.inj (hk.symm.trans hstream)]
      split at heq
      · next hlast => exact hlast
      · have htext : e.block.text ++ delta = e.block.text := congrArg BlockView.text heq.1
        exact absurd (List.append_right_eq_self.1 htext) hdelta
    · intro hlast
      rw [if_pos (hlast hdelta i hstream)]

/-- A block for a tool that no block waits for. -/
theorem appendTool_view_iff (h : Shows chat t) (name result : Option (List UInt8)) :
    (tuiChatAppendTool .none chat name result).2.view = (t.addTool name result).view ↔
      FreshSlot chat := by
  rw [view_appendTool, Transcript.addTool, Transcript.view_add]
  exact concat_view_eq_iff.trans (and_iff_right h.view)

theorem length_view_addTool (t : Transcript) (name result : Option (List UInt8)) :
    (t.addTool name result).view.length = t.view.length + 1 := by
  rw [Transcript.addTool, Transcript.view_add, List.length_append, List.length_singleton]

/-- A finished block gets a result once more, and no block is appended for it. -/
theorem modify_ne_addTool (i : Nat) (f : BlockView → BlockView)
    (name result : Option (List UInt8)) : t.view.modify i f ≠ (t.addTool name result).view := by
  intro heq
  have hlen := congrArg List.length heq
  rw [List.length_modify, length_view_addTool] at hlen
  omega

/-- The last block gets a result, or a block for it is appended. -/
theorem toolFinish_view_iff (h : Shows chat t) (ht : t.Sound) (name result : Option (List UInt8)) :
    (tuiChatToolFinish .none chat name result).2.view = (Op.act t (.toolFinish name result)).view ↔
      Meets chat t (.toolFinish name result) := by
  have hlast : chat.blocks.getLast?.any TuiChatBlock.isEmptyTool =
      t.entries.getLast?.any (·.block.isEmptyTool) := by
    have hviews := congrArg (fun views => views.getLast?.any BlockView.isEmptyTool) h.view
    simp only [TuiChat.view, Transcript.view, List.getLast?_map, Option.any_map] at hviews
    exact hviews
  rw [tuiChatToolFinish, hlast, Op.act, Meets]
  cases hempty : t.entries.getLast?.any (·.block.isEmptyTool) with
  | false =>
    have hwaits : t.entries.getLast?.any Entry.waits = false := by
      cases hlastEntry : t.entries.getLast? with
      | none => rfl
      | some e =>
        rw [hlastEntry] at hempty
        refine Bool.eq_false_iff.2 fun hwaits => ?_
        exact Bool.false_ne_true
          (hempty.symm.trans (ht.waits e (List.mem_of_getLast? hlastEntry) hwaits))
    rw [hwaits, if_neg Bool.false_ne_true, if_neg Bool.false_ne_true, if_neg Bool.false_ne_true]
    exact appendTool_view_iff h name result
  | true =>
    have hview : (chat.modifyLast (fillResult result)).view = t.view.modify (t.entries.length - 1)
        (BlockView.withText (trimmed (result.getD []))) := by
      rw [TuiChat.view_modifyLast (view_fillResult result), h.view, t.length_view]
    cases hwaits : t.entries.getLast?.any Entry.waits with
    | false =>
      refine iff_of_false ?_ Bool.false_ne_true
      show (chat.modifyLast (fillResult result)).view ≠ (t.addTool name result).view
      rw [hview]
      exact modify_ne_addTool _ _ name result
    | true =>
      refine iff_of_true ?_ rfl
      show (chat.modifyLast (fillResult result)).view = (t.finish _ result).view
      rw [hview, Transcript.view_finish]

/-- What does not take a result does not wait for one. -/
theorem any_waitsFor_eq_false {name : Option (List UInt8)} {k : Nat}
    (hempty : ∀ e ∈ t.entries, e.waitsFor name = true → e.block.isEmptyToolOf name = true)
    (hk : (t.entries[k]?).any (fun e => e.block.isEmptyToolOf name) = false) :
    (t.entries[k]?).any (Entry.waitsFor name) = false := by
  cases he : t.entries[k]? with
  | none => rfl
  | some e =>
    rw [he] at hk
    refine Bool.eq_false_iff.2 fun hwaits => ?_
    exact Bool.false_ne_true (hk.symm.trans (hempty e (List.mem_of_getElem? he) hwaits))

/-- A block of this name gets a result, or a block for it is appended. -/
theorem toolFinishNamed_view_iff (h : Shows chat t) (ht : t.Sound)
    (name result : Option (List UInt8)) :
    (tuiChatToolFinishNamed .none chat name result).2.view =
        (Op.act t (.toolFinishNamed name result)).view ↔
      Meets chat t (.toolFinishNamed name result) := by
  have hplace : lastIndex (fun blk => blk.isEmptyTool && titleMatches name blk.title) chat.blocks
      chat.blocks.length = lastIndex (fun e => e.block.isEmptyToolOf name) t.entries
        t.entries.length := by
    have hviews := congrArg (fun views => lastIndex (BlockView.isEmptyToolOf name) views
      views.length) h.view
    simp only [TuiChat.view, Transcript.view, lastIndex_map, List.length_map] at hviews
    exact hviews
  have hempty : ∀ e ∈ t.entries, e.waitsFor name = true → e.block.isEmptyToolOf name = true := by
    intro e he hwaits
    obtain ⟨hwaits, htitle⟩ := Bool.and_eq_true_iff.1 hwaits
    exact Bool.and_eq_true_iff.2 ⟨ht.waits e he hwaits, htitle⟩
  rw [tuiChatToolFinishNamed, hplace, Op.act, Meets]
  cases hj : lastIndex (fun e => e.block.isEmptyToolOf name) t.entries t.entries.length with
  | none =>
    have hnone : t.waiting name = none := by
      rw [Transcript.waiting, lastIndex_eq_none_iff]
      intro k hk
      exact any_waitsFor_eq_false hempty (lastIndex_eq_none_iff.1 hj k hk)
    rw [hnone]
    exact appendTool_view_iff h name result
  | some j =>
    obtain ⟨hjlt, hjempty, hjlast⟩ := lastIndex_eq_some_iff.1 hj
    obtain ⟨e, he⟩ : ∃ e, t.entries[j]? = some e := ⟨_, List.getElem?_eq_getElem hjlt⟩
    rw [he] at hjempty
    obtain ⟨hjtool, htitle⟩ :=
      Bool.and_eq_true_iff.1 (show e.block.isEmptyToolOf name = true from hjempty)
    have hview : ({ chat with blocks := chat.blocks.modify j (fillResult result) } : TuiChat).view =
        t.view.modify j (BlockView.withText (trimmed (result.getD []))) := by
      rw [← h.view]
      refine map_modify ?_ j
      exact fun blk _ => view_fillResult result blk
    have hwaitsFor : e.waits = true → (t.entries[j]?).any (Entry.waitsFor name) = true := by
      intro hwaits
      rw [he]
      exact Bool.and_eq_true_iff.2 ⟨hwaits, htitle⟩
    cases hi : t.waiting name with
    | none =>
      refine iff_of_false ?_ ?_
      · show ({ chat with blocks := chat.blocks.modify j (fillResult result) } : TuiChat).view ≠
          (t.addTool name result).view
        rw [hview]
        exact modify_ne_addTool _ _ name result
      · rintro (hwaits | ⟨-, hsome⟩)
        · rw [he] at hwaits
          exact Bool.false_ne_true
            ((lastIndex_eq_none_iff.1 hi j hjlt).symm.trans (hwaitsFor hwaits))
        · exact Bool.false_ne_true hsome
    | some i =>
      obtain ⟨hilt, hiwaits, hilast⟩ := lastIndex_eq_some_iff.1 hi
      obtain ⟨e', he'⟩ : ∃ e', t.entries[i]? = some e' := ⟨_, List.getElem?_eq_getElem hilt⟩
      rw [he'] at hiwaits
      show ({ chat with blocks := chat.blocks.modify j (fillResult result) } : TuiChat).view =
        (t.finish i result).view ↔ _
      rw [hview, t.view_finish]
      by_cases hij : i = j
      · subst hij
        refine iff_of_true rfl (Or.inl ?_)
        rw [he']
        exact (Bool.and_eq_true_iff.1 hiwaits).1
      · have hwaits : e.waits = false := by
          refine Bool.eq_false_iff.2 fun hwaits => ?_
          rcases Nat.lt_or_gt_of_ne hij with hlt | hlt
          · exact Bool.false_ne_true ((hilast j hlt hjlt).symm.trans (hwaitsFor hwaits))
          · have hnot := any_waitsFor_eq_false hempty (hjlast i hlt hilt)
            rw [he'] at hnot
            exact Bool.false_ne_true (hnot.symm.trans hiwaits)
        have htext : e.block.text = [] := (BlockView.isEmptyTool_iff.1 hjtool).2
        have htext' : e'.block.text = [] := (BlockView.isEmptyTool_iff.1
          (ht.waits e' (List.mem_of_getElem? he') (Bool.and_eq_true_iff.1 hiwaits).1)).2
        rw [modify_eq_modify_iff (Ne.symm hij) (t.getElem?_view he) (t.getElem?_view he')]
        constructor
        · intro hsame
          exact Or.inr ⟨(congrArg BlockView.text hsame.1).trans htext, rfl⟩
        · rintro (hcode | ⟨hblank, -⟩)
          · rw [he] at hcode
            exact absurd (hwaits.symm.trans hcode) Bool.false_ne_true
          · rw [hblank]
            refine ⟨?_, ?_⟩
            · rw [← htext]
              rfl
            · rw [← htext']
              rfl

/-- The lines that the code asks for are there, and the block is the same otherwise. -/
theorem cacheLines_spec {blk : TuiChatBlock} (hblk : blk.Remembers) (width : Nat) :
    ∃ starts, cacheLines .none width blk =
      { blk with wrap := some { width, lines := (tuiChatWrap blk.text width 0).1, starts } } := by
  unfold cacheLines
  split
  · next hwidth =>
    obtain ⟨cache, hcache, hwidth⟩ := (Option.any_eq_true _ _).1 hwidth
    have hlines := hblk cache hcache
    obtain rfl := of_decide_eq_true hwidth
    refine ⟨cache.starts, ?_⟩
    rw [← hlines]
    cases blk
    exact congrArg (TuiChatBlock.mk _ _ _ _ _) hcache
  · exact ⟨_, rfl⟩

/-- The code toggles by the lines that the text wraps to. -/
theorem view_toggleBlock {blk : TuiChatBlock} (hblk : blk.Remembers) (hkind : blk.kind = .tool)
    (width : Nat) : (toggleBlock .none width blk).view = blk.view.toggle width := by
  obtain ⟨starts, hcached⟩ := cacheLines_spec hblk width
  have hagain : cacheLines .none width (cacheLines .none width blk) =
      cacheLines .none width blk := by
    rw [hcached]
    exact if_pos (decide_eq_true rfl)
  have hlines : (cacheLines .none width blk).lineCount width =
      (tuiChatWrap blk.text width 0).1 := by
    rw [hcached]
    rfl
  unfold toggleBlock BlockView.toggle
  dsimp only
  rw [hagain, hlines]
  by_cases hlong : tuiChatCollapseThreshold < (tuiChatWrap blk.text width 0).1
  · have hcollapsed : (cacheLines .none width blk).effectiveCollapsed width =
        decide (blk.collapse ≠ .off) := by
      unfold TuiChatBlock.effectiveCollapsed
      rw [hlines, hcached, decide_eq_decide]
      exact ⟨fun h => h.2.2, fun h => ⟨hkind, hlong, h⟩⟩
    have htool : blk.view.kind = .tool ∧
        tuiChatCollapseThreshold < (tuiChatWrap blk.view.text width 0).1 := ⟨hkind, hlong⟩
    rw [if_neg (Nat.not_le.2 hlong), if_pos htool, hcollapsed, hcached]
    refine congrArg (BlockView.mk blk.kind blk.text blk.title blk.args) ?_
    show (if decide (blk.collapse ≠ .off) = true then TuiCollapseState.off else .on) =
      if blk.collapse = .off then .on else .off
    by_cases hoff : blk.collapse = .off
    · rw [if_neg (by simp [hoff]), if_pos hoff]
    · rw [if_pos (by simp [hoff]), if_neg hoff]
  · rw [if_pos (Nat.le_of_not_lt hlong), hcached]
    exact (if_neg fun h => hlong h.2).symm

/-- The lines of a block are toggled. -/
theorem toggleCollapse_view (h : Shows chat t) (hchat : chat.Sound) (idx width : Nat) :
    (tuiChatToggleCollapse .none chat idx width).2.view =
      (t.change idx (BlockView.toggle width)).view := by
  rw [Transcript.view_change, ← h.view, tuiChatToggleCollapse]
  cases hblk : chat.blocks[idx]? with
  | none =>
    refine (List.modify_eq_self ?_).symm
    rw [chat.length_view]
    exact List.getElem?_eq_none_iff.1 hblk
  | some blk =>
    have hview : chat.view[idx]? = some blk.view := by
      rw [TuiChat.view, List.getElem?_map, hblk, Option.map_some]
    by_cases hkind : blk.kind = .tool
    · have hsame : chat.blocks.modify idx (toggleBlock .none width) =
          chat.blocks.modify idx fun _ => toggleBlock .none width blk :=
        (modify_congr_iff hblk).2 rfl
      have hsame' : chat.view.modify idx (BlockView.toggle width) =
          chat.view.modify idx fun _ => (toggleBlock .none width blk).view :=
        (modify_congr_iff hview).2 (view_toggleBlock
          (hchat.blocks blk (List.mem_of_getElem? hblk)) hkind width).symm
      dsimp only
      rw [if_neg (not_not.2 hkind), hsame', hsame]
      refine map_modify ?_ idx
      exact fun _ _ => rfl
    · dsimp only
      rw [if_pos hkind]
      refine ((modify_eq_self_iff hview).2 ?_).symm
      exact if_neg fun h => hkind h.1

/-- A step of the code does what it should just when it meets the condition. -/
theorem apply_view_iff (h : Shows chat t) (hchat : chat.Sound) (ht : t.Sound) (op : Op) :
    (op.apply chat).view = (op.act t).view ↔ Meets chat t op := by
  cases op with
  | beginUser text =>
    have hview : (tuiChatBeginUser .none chat text).2.view = (sealStreaming chat).view ++
        [{ kind := .user, text := trimmed (text.getD []), title := none, args := none,
           collapse := chat.nextCollapse }] := by
      unfold tuiChatBeginUser blockAppend
      rw [blockAppend3_none, ← nextCollapse_sealStreaming]
      exact view_modifyLast_put_grown ..
    show (tuiChatBeginUser .none chat text).2.view = (t.endStream.add _ _ _ _ _).view ↔ _
    rw [hview, Transcript.view_add, concat_view_eq_iff, sealStreaming_view_iff h ht]
    rfl
  | beginStream kind =>
    show (tuiChatBeginStream .none chat kind).2.view =
      (if kind ≠ .assistant ∧ kind ≠ .think then t else _).view ↔ _
    by_cases hkind : kind ≠ .assistant ∧ kind ≠ .think
    · rw [tuiChatBeginStream, if_pos hkind, if_pos hkind]
      exact iff_of_true h.view fun hstream => hstream.elim (absurd · hkind.1) (absurd · hkind.2)
    · have hstream : kind = .assistant ∨ kind = .think := by
        rcases Classical.em (kind = .assistant) with hkind' | hkind'
        · exact Or.inl hkind'
        · exact Or.inr (not_not.1 fun hthink => hkind ⟨hkind', hthink⟩)
      have hview : (tuiChatBeginStream .none chat kind).2.view = (sealStreaming chat).view ++
          [{ kind, text := [], title := none, args := none, collapse := chat.nextCollapse }] := by
        unfold tuiChatBeginStream blockAppend
        rw [if_neg hkind, blockAppend3_none, ← nextCollapse_sealStreaming]
        exact view_put_grown ..
      rw [hview, if_neg hkind]
      show _ = (t.endStream.add kind [] none none false).view ↔ _
      rw [Transcript.view_add, concat_view_eq_iff, sealStreaming_view_iff h ht]
      exact ⟨fun hmeets _ => hmeets, fun hmeets => hmeets hstream⟩
  | streamAppend delta => exact extend_view_iff h ht delta
  | endStream => exact sealStreaming_view_iff h ht
  | beginTool name args =>
    show (tuiChatBeginTool .none chat name args).2.view = (t.add _ _ _ _ _).view ↔ _
    rw [tuiChatBeginTool, blockAppend3_none, view_put_grown, Transcript.view_add]
    exact concat_view_eq_iff.trans (and_iff_right h.view)
  | appendTool name result => exact appendTool_view_iff h name result
  | toolFinish name result => exact toolFinish_view_iff h ht name result
  | toolFinishNamed name result => exact toolFinishNamed_view_iff h ht name result
  | appendError text =>
    have hview : (tuiChatAppendError .none chat text).2.view = chat.view ++
        [{ kind := .error, text := trimmed (text.getD []), title := none, args := none,
           collapse := chat.nextCollapse }] := by
      unfold tuiChatAppendError blockAppend
      rw [blockAppend3_none]
      exact view_modifyLast_put_grown ..
    show (tuiChatAppendError .none chat text).2.view = (t.add _ _ _ _ _).view ↔ _
    rw [hview, Transcript.view_add]
    exact concat_view_eq_iff.trans (and_iff_right h.view)
  | toggleCollapse idx width => exact iff_of_true (toggleCollapse_view h hchat idx width) trivial
  | truncateAfter idx =>
    refine iff_of_true ?_ trivial
    show (tuiChatTruncateAfter chat idx).2.view = (if idx < t.entries.length then _ else t).view
    have hlen : chat.blocks.length = t.entries.length := by
      rw [← chat.length_view, h.view, t.length_view]
    unfold tuiChatTruncateAfter
    rw [hlen]
    by_cases hidx : idx < t.entries.length
    · rw [if_neg (by omega), if_pos hidx]
      show (chat.blocks.take idx).map _ = (t.entries.take idx).map _
      rw [List.map_take, List.map_take]
      exact congrArg (List.take idx) h.view
    · rw [if_pos (by omega), if_neg hidx]
      exact h.view

end Step

/-! ## The code stays sound -/

theorem remembers_of_wrap_eq_none {blk : TuiChatBlock} (h : blk.wrap = none) : blk.Remembers := by
  intro cache hcache
  rw [h] at hcache
  exact absurd hcache (by simp)

theorem TuiChatBlock.Remembers.trim {blk : TuiChatBlock} (h : blk.Remembers) :
    (trimBlankLines blk).Remembers := by
  unfold trimBlankLines
  split
  · exact h
  · exact remembers_of_wrap_eq_none rfl

theorem remembers_fillResult (result : Option (List UInt8)) (blk : TuiChatBlock) :
    (fillResult result blk).Remembers :=
  TuiChatBlock.Remembers.trim (remembers_of_wrap_eq_none rfl)

theorem TuiChatBlock.Remembers.toggle {blk : TuiChatBlock} (h : blk.Remembers) (width : Nat) :
    (toggleBlock .none width blk).Remembers := by
  have hcached : ∀ {blk : TuiChatBlock}, blk.Remembers →
      (cacheLines .none width blk).Remembers := by
    intro blk h
    obtain ⟨starts, hcached⟩ := cacheLines_spec h width
    rw [hcached]
    exact fun cache hcache => Option.some.inj hcache ▸ rfl
  unfold toggleBlock
  dsimp only
  split
  · exact hcached h
  · exact hcached (hcached h)

namespace TuiChat.Sound

variable {chat : TuiChat}

theorem modify (h : chat.Sound) (i : Nat) {f : TuiChatBlock → TuiChatBlock}
    (hf : ∀ blk, blk.Remembers → (f blk).Remembers) :
    Sound { chat with blocks := chat.blocks.modify i f } :=
  ⟨forall_mem_modify h.blocks hf i, h.spare⟩

theorem sealStreaming (h : chat.Sound) : (sealStreaming chat).Sound := by
  unfold Tui.sealStreaming
  split
  · have hmodify : (chat.modifyLast trimBlankLines).Sound := h.modify _ fun _ hblk => hblk.trim
    exact ⟨hmodify.blocks, hmodify.spare⟩
  · exact ⟨h.blocks, h.spare⟩

theorem grown (h : chat.Sound) : chat.grown.Sound := by
  unfold TuiChat.grown
  split
  · refine ⟨h.blocks, fun slot hslot => ?_⟩
    rw [(List.mem_replicate.1 hslot).2]
    rfl
  · exact h

theorem put (h : chat.Sound) (kind : TuiBlockKind) (text : List UInt8)
    (title args : Option (List UInt8)) : (chat.put kind text title args).Sound := by
  refine ⟨fun blk hblk => ?_, fun slot hslot => h.spare slot (List.mem_of_mem_tail hslot)⟩
  rcases List.mem_append.1 hblk with hblk | hblk
  · exact h.blocks blk hblk
  · rw [List.mem_singleton.1 hblk]
    refine remembers_of_wrap_eq_none ?_
    show (chat.spare.head?.getD emptySlot).wrap = none
    cases hspare : chat.spare.head? with
    | none => rfl
    | some slot => exact h.spare slot (List.mem_of_mem_head? hspare)

theorem blockAppend3 (h : chat.Sound) (kind : TuiBlockKind)
    (text title args : Option (List UInt8)) :
    (blockAppend3 .none chat kind text title args).2.Sound := by
  rw [blockAppend3_none]
  exact h.grown.put _ _ _ _

theorem appendTool (h : chat.Sound) (name result : Option (List UInt8)) :
    (tuiChatAppendTool .none chat name result).2.Sound := by
  unfold tuiChatAppendTool blockAppend
  simp only [Faults.none_apply, Bool.false_eq_true, if_false, blockAppend3_none, if_true]
  exact (h.grown.put _ _ _ _).modify _ fun _ hblk => hblk.trim

theorem apply (h : chat.Sound) (op : Op) : (op.apply chat).Sound := by
  cases op with
  | beginUser text =>
    show (tuiChatBeginUser .none chat text).2.Sound
    unfold tuiChatBeginUser blockAppend
    rw [blockAppend3_none]
    exact (h.sealStreaming.grown.put _ _ _ _).modify _ fun _ hblk => hblk.trim
  | beginStream kind =>
    show (tuiChatBeginStream .none chat kind).2.Sound
    unfold tuiChatBeginStream blockAppend
    split
    · exact h
    · rw [blockAppend3_none]
      have hput : ((Tui.sealStreaming chat).grown.put kind [] none none).Sound :=
        h.sealStreaming.grown.put _ _ _ _
      exact ⟨hput.blocks, hput.spare⟩
  | streamAppend delta =>
    show (tuiChatStreamAppend .none chat delta).2.Sound
    unfold tuiChatStreamAppend
    split
    · exact h
    · split
      · exact h
      split
      · exact h
      · exact h.modify _ fun _ _ => remembers_of_wrap_eq_none rfl
  | endStream => exact h.sealStreaming
  | beginTool name args => exact h.blockAppend3 _ _ _ _
  | appendTool name result => exact h.appendTool name result
  | toolFinish name result =>
    show (tuiChatToolFinish .none chat name result).2.Sound
    unfold tuiChatToolFinish
    split
    · exact h.modify _ fun blk _ => remembers_fillResult result blk
    · exact h.appendTool name result
  | toolFinishNamed name result =>
    show (tuiChatToolFinishNamed .none chat name result).2.Sound
    unfold tuiChatToolFinishNamed
    split
    · exact h.modify _ fun blk _ => remembers_fillResult result blk
    · exact h.appendTool name result
  | appendError text =>
    show (tuiChatAppendError .none chat text).2.Sound
    unfold tuiChatAppendError blockAppend
    rw [blockAppend3_none]
    exact (h.grown.put _ _ _ _).modify _ fun _ hblk => hblk.trim
  | toggleCollapse idx width =>
    show (tuiChatToggleCollapse .none chat idx width).2.Sound
    unfold tuiChatToggleCollapse
    split
    · exact h
    · split
      · exact h
      · exact h.modify idx fun _ hblk => hblk.toggle width
  | truncateAfter idx =>
    show (tuiChatTruncateAfter chat idx).2.Sound
    unfold tuiChatTruncateAfter
    split
    · exact h
    · refine ⟨fun blk hblk => h.blocks blk (List.mem_of_mem_take hblk), fun slot hslot => ?_⟩
      rcases List.mem_append.1 hslot with hslot | hslot
      · obtain ⟨blk, -, rfl⟩ := List.mem_map.1 hslot
        rfl
      · exact h.spare slot hslot

end TuiChat.Sound

/-! ## Sequences of operations -/

theorem streamingOpen_appendTool (chat : TuiChat) (name result : Option (List UInt8)) :
    (tuiChatAppendTool .none chat name result).2.streamingOpen = chat.streamingOpen := by
  unfold tuiChatAppendTool blockAppend
  simp only [Faults.none_apply, Bool.false_eq_true, if_false, blockAppend3_none, if_true]
  exact chat.streamingOpen_grown

theorem Transcript.stream_endStream (t : Transcript) : t.endStream.stream = none := by
  unfold Transcript.endStream
  split
  · assumption
  · rfl

theorem Transcript.stream_extend (t : Transcript) (delta : List UInt8) :
    (t.extend delta).stream = t.stream := by
  unfold Transcript.extend
  split <;> rfl

/-- The flag of the code says whether a stream is open. -/
theorem streamingOpen_apply {chat : TuiChat} {t : Transcript} (h : Shows chat t) (op : Op) :
    (op.apply chat).streamingOpen = (op.act t).stream.isSome := by
  cases op with
  | beginUser text =>
    show (tuiChatBeginUser .none chat text).2.streamingOpen = t.endStream.stream.isSome
    unfold tuiChatBeginUser blockAppend
    rw [blockAppend3_none, t.stream_endStream]
    exact (sealStreaming chat).streamingOpen_grown
  | beginStream kind =>
    show (tuiChatBeginStream .none chat kind).2.streamingOpen =
      (Op.act t (.beginStream kind)).stream.isSome
    unfold tuiChatBeginStream blockAppend
    rw [Op.act]
    split
    · exact h.stream
    · rw [blockAppend3_none]
      rfl
  | streamAppend delta =>
    show (tuiChatStreamAppend .none chat delta).2.streamingOpen = (t.extend _).stream.isSome
    rw [t.stream_extend, ← h.stream]
    unfold tuiChatStreamAppend
    split
    · rfl
    · split
      · rfl
      split <;> rfl
  | endStream =>
    show false = t.endStream.stream.isSome
    rw [t.stream_endStream]
    rfl
  | beginTool name args =>
    show (tuiChatBeginTool .none chat name args).2.streamingOpen = t.stream.isSome
    rw [tuiChatBeginTool, blockAppend3_none, ← h.stream]
    exact chat.streamingOpen_grown
  | appendTool name result => exact (streamingOpen_appendTool chat name result).trans h.stream
  | toolFinish name result =>
    have hlist : (Op.act t (.toolFinish name result)).stream = t.stream := by
      rw [Op.act]
      split <;> rfl
    rw [hlist, ← h.stream]
    show (tuiChatToolFinish .none chat name result).2.streamingOpen = _
    unfold tuiChatToolFinish
    split
    · rfl
    · exact streamingOpen_appendTool chat name result
  | toolFinishNamed name result =>
    have hlist : (Op.act t (.toolFinishNamed name result)).stream = t.stream := by
      rw [Op.act]
      split <;> rfl
    rw [hlist, ← h.stream]
    show (tuiChatToolFinishNamed .none chat name result).2.streamingOpen = _
    unfold tuiChatToolFinishNamed
    split
    · rfl
    · exact streamingOpen_appendTool chat name result
  | appendError text =>
    show (tuiChatAppendError .none chat text).2.streamingOpen = t.stream.isSome
    unfold tuiChatAppendError blockAppend
    rw [blockAppend3_none, ← h.stream]
    exact chat.streamingOpen_grown
  | toggleCollapse idx width =>
    show (tuiChatToggleCollapse .none chat idx width).2.streamingOpen = t.stream.isSome
    rw [← h.stream]
    unfold tuiChatToggleCollapse
    split
    · rfl
    · split <;> rfl
  | truncateAfter idx =>
    have hlen : chat.blocks.length = t.entries.length := by
      rw [← chat.length_view, h.view, t.length_view]
    show (tuiChatTruncateAfter chat idx).2.streamingOpen =
      (Op.act t (.truncateAfter idx)).stream.isSome
    rw [tuiChatTruncateAfter, Op.act, hlen]
    by_cases hidx : idx < t.entries.length
    · rw [if_neg (Nat.not_le.2 hidx), if_pos hidx]
      rfl
    · rw [if_pos (Nat.le_of_not_lt hidx), if_neg hidx]
      exact h.stream

theorem chatAfter_concat (front : List Op) (op : Op) :
    chatAfter (front ++ [op]) = op.apply (chatAfter front) := List.foldl_concat ..

theorem transcriptAfter_concat (front : List Op) (op : Op) :
    transcriptAfter (front ++ [op]) = op.act (transcriptAfter front) := List.foldl_concat ..

theorem sound_chatAfter (ops : List Op) : (chatAfter ops).Sound := by
  induction ops using List.reverseRecOn with
  | nil => exact ⟨nofun, nofun⟩
  | append_singleton front op ih =>
    rw [chatAfter_concat]
    exact ih.apply op

theorem sound_transcriptAfter (ops : List Op) : (transcriptAfter ops).Sound := by
  induction ops using List.reverseRecOn with
  | nil => exact ⟨nofun, nofun⟩
  | append_singleton front op ih =>
    rw [transcriptAfter_concat]
    exact ih.act op

/-- As long as the chat shows the list, its flag is right too. -/
theorem shows_of_view {ops : List Op}
    (h : ∀ front, front <+: ops → (chatAfter front).view = (transcriptAfter front).view) :
    Shows (chatAfter ops) (transcriptAfter ops) := by
  induction ops using List.reverseRecOn with
  | nil => exact ⟨rfl, rfl⟩
  | append_singleton front op ih =>
    have hfront := ih fun front' hfront => h front' (hfront.trans (List.prefix_append front [op]))
    refine ⟨h _ List.prefix_rfl, ?_⟩
    rw [chatAfter_concat, transcriptAfter_concat]
    exact streamingOpen_apply hfront op

/-- The chat shows the list of blocks after every operation just as long as each operation meets the
condition. -/
theorem refines_iff (ops : List Op) :
    (∀ front, front <+: ops → (chatAfter front).view = (transcriptAfter front).view) ↔
      ∀ front op, front ++ [op] <+: ops → Meets (chatAfter front) (transcriptAfter front) op := by
  constructor
  · intro h front op hstep
    have hview := h _ hstep
    rw [chatAfter_concat, transcriptAfter_concat] at hview
    refine (apply_view_iff (shows_of_view fun front' hfront => h front' ?_) (sound_chatAfter front)
      (sound_transcriptAfter front) op).1 hview
    exact hfront.trans ((List.prefix_append front [op]).trans hstep)
  · intro h front hfront
    refine Shows.view ?_
    induction front using List.reverseRecOn with
    | nil => exact ⟨rfl, rfl⟩
    | append_singleton front op ih =>
      have hshows := ih ((List.prefix_append front [op]).trans hfront)
      rw [chatAfter_concat, transcriptAfter_concat]
      exact ⟨(apply_view_iff hshows (sound_chatAfter front) (sound_transcriptAfter front) op).2
        (h front op hfront), streamingOpen_apply hshows op⟩

/-- An error goes between the parts of a stream. -/
def interruptedStream : List Op :=
  [.beginStream .assistant, .appendError (some (ascii "offline")),
    .streamAppend (some (ascii "Hi"))]

/-- The stream goes on in the block of the error. -/
theorem not_refines_interruptedStream :
    ¬∀ ops front, front <+: ops → (chatAfter front).view = (transcriptAfter front).view := by
  intro h
  have hview := h interruptedStream interruptedStream List.prefix_rfl
  exact absurd hview (by decide +kernel)

end EchoAi.Tui
