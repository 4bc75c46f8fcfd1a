import EchoAi.Tui.Chat

/-!
# The scrollback as a list of blocks

What the operations of the chat mean for a list of blocks, when each of them finds the block that it
is about.

* `Entry`, `Transcript`: the blocks; a tool block waits from its begin to its finish, and a stream
  goes to the block that it has opened.
* `Op.act`, `transcriptAfter`: the operations on the list.
* `Transcript.Sound`: only tool blocks without text wait, and the block of the stream is there.
* `Op.IsAbout`, `act_other`: an operation leaves the other blocks as they are.
-/

namespace EchoAi.Tui

/-! ## The list -/

/-- What a block shows. -/
structure BlockView where
  kind : TuiBlockKind
  text : List UInt8
  title : Option (List UInt8)
  args : Option (List UInt8)
  collapse : TuiCollapseState
  deriving DecidableEq, Repr

namespace BlockView

/-- With another text. -/
def withText (text : List UInt8) (blk : BlockView) : BlockView := { blk with text }

def trim (blk : BlockView) : BlockView := blk.withText (trimmed blk.text)

def isEmptyTool (blk : BlockView) : Bool := blk.kind = .tool ∧ blk.text = []

/-- A tool block of this name without text. -/
def isEmptyToolOf (name : Option (List UInt8)) (blk : BlockView) : Bool :=
  blk.isEmptyTool && titleMatches name blk.title

/-- A long tool block is shown in full when it was not, and the other way round. -/
def toggle (width : Nat) (blk : BlockView) : BlockView :=
  if blk.kind = .tool ∧ tuiChatCollapseThreshold < (tuiChatWrap blk.text width 0).1 then
    { blk with collapse := if blk.collapse = .off then .on else .off }
  else blk

end BlockView

/-- A block, and whether it waits for the result of a tool. -/
structure Entry where
  block : BlockView
  waits : Bool
  deriving DecidableEq, Repr

/-- It waits for a tool of this name. -/
def Entry.waitsFor (name : Option (List UInt8)) (e : Entry) : Bool :=
  e.waits && titleMatches name e.block.title

/-- The blocks, and the place of the one that the open stream has begun. -/
structure Transcript where
  entries : List Entry
  stream : Option Nat
  deriving DecidableEq, Repr

namespace Transcript

def view (t : Transcript) : List BlockView := t.entries.map Entry.block

/-- A change to what one block shows. -/
def change (i : Nat) (f : BlockView → BlockView) (t : Transcript) : Transcript :=
  { t with entries := t.entries.modify i fun e => { e with block := f e.block } }

/-- The open stream ends, and its block loses its blank lines. -/
def endStream (t : Transcript) : Transcript :=
  match t.stream with
  | none => t
  | some i => { t.change i BlockView.trim with stream := none }

/-- The block of the open stream goes on. -/
def extend (delta : List UInt8) (t : Transcript) : Transcript :=
  match t.stream with
  | none => t
  | some i => t.change i fun blk => blk.withText (blk.text ++ delta)

/-- One more block.  Nobody has folded it. -/
def add (kind : TuiBlockKind) (text : List UInt8) (title args : Option (List UInt8)) (waits : Bool)
    (t : Transcript) : Transcript :=
  let block : BlockView := { kind, text, title, args, collapse := .auto }
  { t with entries := t.entries ++ [{ block, waits }] }

/-- The tool of a block has its result. -/
def finish (i : Nat) (result : Option (List UInt8)) (t : Transcript) : Transcript :=
  { t with entries := t.entries.modify i fun e =>
      { block := e.block.withText (trimmed (result.getD [])), waits := false } }

/-- A block for a tool that no block waits for. -/
def addTool (name result : Option (List UInt8)) (t : Transcript) : Transcript :=
  t.add .tool (trimmed (name.getD (ascii "(tool)") ++ ascii ": " ++ result.getD [])) none none false

/-- The last block that waits for a tool of this name. -/
def waiting (name : Option (List UInt8)) (t : Transcript) : Option Nat :=
  lastIndex (Entry.waitsFor name) t.entries t.entries.length

end Transcript

/-- What an operation does to the list. -/
def Op.act (t : Transcript) : Op → Transcript
  | .beginUser text => t.endStream.add .user (trimmed (text.getD [])) none none false
  | .beginStream kind =>
    if kind ≠ .assistant ∧ kind ≠ .think then t
    else { t.endStream.add kind [] none none false with stream := some t.entries.length }
  | .streamAppend delta => t.extend (delta.getD [])
  | .endStream => t.endStream
  | .beginTool name args => t.add .tool [] name args true
  | .appendTool name result => t.addTool name result
  | .toolFinish name result =>
    if t.entries.getLast?.any Entry.waits then t.finish (t.entries.length - 1) result
    else t.addTool name result
  | .toolFinishNamed name result =>
    match t.waiting name with
    | some i => t.finish i result
    | none => t.addTool name result
  | .appendError text => t.add .error (trimmed (text.getD [])) none none false
  | .toggleCollapse idx width => t.change idx (BlockView.toggle width)
  | .truncateAfter idx =>
    if idx < t.entries.length then { entries := t.entries.take idx, stream := none } else t

/-- The list after some operations. -/
def transcriptAfter (ops : List Op) : Transcript :=
  ops.foldl Op.act { entries := [], stream := none }

/-! ## The list stays sound -/

/-- A list that operations can reach: only tool blocks without text wait, and the block of the open
stream does not. -/
structure Transcript.Sound (t : Transcript) : Prop where
  waits : ∀ e ∈ t.entries, e.waits = true → e.block.isEmptyTool = true
  stream : ∀ i ∈ t.stream, ∃ e, t.entries[i]? = some e ∧ e.waits = false

theorem BlockView.isEmptyTool_iff {blk : BlockView} :
    blk.isEmptyTool = true ↔ blk.kind = .tool ∧ blk.text = [] := decide_eq_true_iff

theorem BlockView.isEmptyTool_trim {blk : BlockView} (h : blk.isEmptyTool = true) :
    blk.trim.isEmptyTool = true := by
  obtain ⟨hkind, htext⟩ := isEmptyTool_iff.1 h
  exact isEmptyTool_iff.2 ⟨hkind, by rw [trim, withText, htext, trimmed_nil]⟩

theorem BlockView.isEmptyTool_toggle (width : Nat) (blk : BlockView) :
    (blk.toggle width).isEmptyTool = blk.isEmptyTool := by
  unfold toggle
  split <;> rfl

namespace Transcript

variable {t : Transcript}

theorem length_endStream (t : Transcript) : t.endStream.entries.length = t.entries.length := by
  unfold endStream
  split
  · rfl
  · exact List.length_modify ..

/-- One entry changes, and does not begin to wait. -/
theorem Sound.modify (h : t.Sound) {i : Nat} {f : Entry → Entry}
    (hf : ∀ e, t.entries[i]? = some e → (f e).waits = true →
      e.waits = true ∧ (f e).block.isEmptyTool = true) :
    Sound { t with entries := t.entries.modify i f } := by
  have hentry : ∀ k e', (t.entries.modify i f)[k]? = some e' →
      ∃ e, t.entries[k]? = some e ∧ e' = if i = k then f e else e := by
    intro k e' hk
    rw [List.getElem?_modify] at hk
    obtain ⟨e, he, heq⟩ := Option.map_eq_some_iff.1 hk
    exact ⟨e, he, heq.symm⟩
  constructor
  · intro e' hmem hwaits
    obtain ⟨k, hk⟩ := List.mem_iff_getElem?.1 hmem
    obtain ⟨e, he, rfl⟩ := hentry k e' hk
    split at hwaits
    · next hik =>
      rw [if_pos hik]
      exact (hf e (hik ▸ he) hwaits).2
    · next hik =>
      rw [if_neg hik]
      exact h.waits e (List.mem_of_getElem? he) hwaits
  · intro k hk
    obtain ⟨e, he, hwaits⟩ := h.stream k hk
    refine ⟨if i = k then f e else e, ?_, ?_⟩
    · rw [List.getElem?_modify, he]
      rfl
    · split
      · next hik =>
        rw [Bool.eq_false_iff]
        intro hfe
        rw [(hf e (hik ▸ he) hfe).1] at hwaits
        exact Bool.noConfusion hwaits
      · exact hwaits

theorem Sound.closed (h : t.Sound) : Sound { t with stream := none } := ⟨h.waits, nofun⟩

theorem Sound.change (h : t.Sound) {i : Nat} {f : BlockView → BlockView}
    (hf : ∀ blk, blk.isEmptyTool = true → (f blk).isEmptyTool = true) : (t.change i f).Sound :=
  h.modify fun e he hwaits => ⟨hwaits, hf _ (h.waits e (List.mem_of_getElem? he) hwaits)⟩

theorem Sound.endStream (h : t.Sound) : t.endStream.Sound := by
  unfold Transcript.endStream
  split
  · exact h
  · exact (h.change fun blk => BlockView.isEmptyTool_trim).closed

theorem Sound.add (h : t.Sound) {kind : TuiBlockKind} {text : List UInt8}
    {title args : Option (List UInt8)} {waits : Bool}
    (hwaits : waits = true → kind = .tool ∧ text = []) :
    (t.add kind text title args waits).Sound := by
  constructor
  · intro e he hwaits'
    rcases List.mem_append.1 he with he | he
    · exact h.waits e he hwaits'
    · rw [List.mem_singleton.1 he] at hwaits' ⊢
      exact decide_eq_true (hwaits hwaits')
  · intro i hi
    obtain ⟨e, he, hwaits⟩ := h.stream i hi
    exact ⟨e, List.getElem?_append_left (List.getElem?_eq_some_iff.1 he).1 ▸ he, hwaits⟩

theorem Sound.finish (h : t.Sound) (i : Nat) (result : Option (List UInt8)) :
    (t.finish i result).Sound := h.modify fun _ _ hwaits => Bool.noConfusion hwaits

theorem Sound.addTool (h : t.Sound) (name result : Option (List UInt8)) :
    (t.addTool name result).Sound := h.add nofun

theorem Sound.act (h : t.Sound) (op : Op) : (op.act t).Sound := by
  cases op with
  | beginUser text => exact h.endStream.add nofun
  | beginStream kind =>
    rw [Op.act]
    split
    · exact h
    · have hadd : (t.endStream.add kind [] none none false).Sound := h.endStream.add nofun
      refine ⟨hadd.waits, fun i hi => ?_⟩
      rw [← Option.some.inj hi]
      refine ⟨⟨⟨kind, [], none, none, .auto⟩, false⟩, ?_, rfl⟩
      show (t.endStream.entries ++ [_])[t.entries.length]? = _
      rw [← length_endStream t]
      exact List.getElem?_concat_length
  | streamAppend delta =>
    show (t.extend _).Sound
    unfold extend
    split
    · exact h
    · next i hi =>
      refine h.modify fun e he hwaits => ?_
      obtain ⟨e', he', hwaits'⟩ := h.stream i hi
      rw [he, Option.some.injEq] at he'
      rw [he'] at hwaits
      exact Bool.noConfusion (hwaits.symm.trans hwaits')
  | endStream => exact h.endStream
  | beginTool name args => exact h.add fun _ => ⟨rfl, rfl⟩
  | appendTool name result => exact h.addTool name result
  | toolFinish name result =>
    rw [Op.act]
    split
    · exact h.finish _ _
    · exact h.addTool name result
  | toolFinishNamed name result =>
    rw [Op.act]
    split
    · exact h.finish _ _
    · exact h.addTool name result
  | appendError text => exact h.add nofun
  | toggleCollapse idx width =>
    exact h.change fun blk => (BlockView.isEmptyTool_toggle width blk).trans
  | truncateAfter idx =>
    rw [Op.act]
    split
    · exact ⟨fun e he => h.waits e (List.mem_of_mem_take he), nofun⟩
    · exact h

end Transcript

/-! ## The other blocks -/

/-- The block that an operation is about, if it is there already. -/
def Op.IsAbout (t : Transcript) (i : Nat) : Op → Prop
  | .beginUser _ | .beginStream _ | .streamAppend _ | .endStream => t.stream = some i
  | .toolFinish _ _ => i + 1 = t.entries.length ∧ t.entries.getLast?.any Entry.waits = true
  | .toolFinishNamed name _ => t.waiting name = some i
  | .toggleCollapse idx _ => idx = i
  | .beginTool _ _ | .appendTool _ _ | .appendError _ | .truncateAfter _ => False

namespace Transcript

variable {t : Transcript} {i k : Nat} {e : Entry}

theorem getElem?_change_ne (h : t.entries[i]? = some e) (hki : k ≠ i)
    (f : BlockView → BlockView) : (t.change k f).entries[i]? = some e := by
  rw [← h]
  exact List.getElem?_modify_ne _ _ hki

theorem getElem?_finish_ne (h : t.entries[i]? = some e) (hki : k ≠ i)
    (result : Option (List UInt8)) : (t.finish k result).entries[i]? = some e := by
  rw [← h]
  exact List.getElem?_modify_ne _ _ hki

theorem getElem?_add (h : t.entries[i]? = some e) (kind : TuiBlockKind) (text : List UInt8)
    (title args : Option (List UInt8)) (waits : Bool) :
    (t.add kind text title args waits).entries[i]? = some e := by
  rw [← h]
  exact List.getElem?_append_left (List.getElem?_eq_some_iff.1 h).1

theorem getElem?_endStream_ne (h : t.entries[i]? = some e) (hother : t.stream ≠ some i) :
    t.endStream.entries[i]? = some e := by
  unfold Transcript.endStream
  split
  · exact h
  · next k hk => exact getElem?_change_ne h (fun hki => hother (hki ▸ hk)) BlockView.trim

end Transcript

/-- An operation leaves the other blocks as they are. -/
theorem act_other {t : Transcript} {i : Nat} {e : Entry} (h : t.entries[i]? = some e) {op : Op}
    (hother : ¬op.IsAbout t i) (hkeep : i < (op.act t).entries.length) :
    (op.act t).entries[i]? = some e := by
  cases op with
  | beginUser text =>
    exact Transcript.getElem?_add (Transcript.getElem?_endStream_ne h hother) _ _ _ _ _
  | beginStream kind =>
    rw [Op.act]
    split
    · exact h
    · exact Transcript.getElem?_add (Transcript.getElem?_endStream_ne h hother) _ _ _ _ _
  | streamAppend delta =>
    show (t.extend _).entries[i]? = some e
    unfold Transcript.extend
    split
    · exact h
    · next k hk => exact Transcript.getElem?_change_ne h (fun hki => hother (hki ▸ hk)) _
  | endStream => exact Transcript.getElem?_endStream_ne h hother
  | beginTool name args => exact Transcript.getElem?_add h _ _ _ _ _
  | appendTool name result => exact Transcript.getElem?_add h _ _ _ _ _
  | toolFinish name result =>
    rw [Op.act]
    split
    · next hwaits =>
      refine Transcript.getElem?_finish_ne h (fun hki => hother ⟨?_, hwaits⟩) result
      have hlt := (List.getElem?_eq_some_iff.1 h).1
      omega
    · exact Transcript.getElem?_add h _ _ _ _ _
  | toolFinishNamed name result =>
    rw [Op.act]
    split
    · next k hk => exact Transcript.getElem?_finish_ne h (fun hki => hother (hki ▸ hk)) result
    · exact Transcript.getElem?_add h _ _ _ _ _
  | appendError text => exact Transcript.getElem?_add h _ _ _ _ _
  | toggleCollapse idx width => exact Transcript.getElem?_change_ne h hother _
  | truncateAfter idx =>
    rw [Op.act] at hkeep ⊢
    split at hkeep
    · next hidx =>
      rw [if_pos hidx, ← h]
      rw [List.length_take] at hkeep
      exact List.getElem?_take_of_lt (by omega)
    · next hidx => rwa [if_neg hidx]

end EchoAi.Tui
