import EchoAi.Ctype
import EchoAi.Tui.Input

/-!
# Modal dialogs

A dialog takes the keys while it is open, and what it is answered goes to the event that it was
opened for.

* `TuiModal`, `tuiModalOpen`: the dialogs.
* `pickContains`, `pickerRebuild`, `pickerMove`: a list that is filtered by what is typed.
* `tuiModalDispatchKey`: what a key does.
* `tuiModalPickerSetWindow`, `tuiModalPickerSetHeaders`: what is done to a list besides.
* `tuiModalMask`: what is shown of a password.

Texts are the bytes of C strings, and no dialog is absent.  A result is absent when a loop does not
come to an end or an access is out of bounds.  No number of rows comes near the largest `int`.
-/

namespace EchoAi.TuiDialogs

open Prompt

/-- `TuiModalKind` -/
inductive TuiModalKind where
  | none
  | password
  | confirmQuit
  | askUser
  | approval
  | notice
  | picker
  | confirm
  deriving DecidableEq, Repr

/-- `TuiModalAction` -/
inductive TuiModalAction where
  | none
  | answered
  | quit
  deriving DecidableEq, Repr

/-- `TuiModal`, with the events that dialogs are opened for. -/
structure TuiModal (ε : Type) where
  kind : TuiModalKind
  title : List UInt8
  body : Option (List UInt8)
  event : Option ε
  input : Option TuiInput
  items : List (List UInt8)
  values : Option (List (List UInt8))
  isHeader : List Bool
  visible : List Nat
  cursor : Int
  top : Int
  window : Int
  selection : Int

/-- The allocations of `tui_modal_open`. -/
inductive OpenSite where
  | modal
  | title
  | body
  | items
  | item (i : Nat)
  | visible
  | input
  deriving DecidableEq, Repr

/-- `tui_modal_needs_input` -/
def tuiModalNeedsInput (kind : TuiModalKind) : Bool :=
  kind = .password || kind = .askUser || kind = .picker

section Modal

variable {ε : Type}

/-! ## Opening -/

/-- `picker_split_items` -/
def pickerSplitItems (fail : Faults OpenSite) (m : TuiModal ε) : Option (TuiModal ε) :=
  if m.body.getD [] = [] then some m
  else if fail .items then none
  else
    let items := ((m.body.getD []).splitOn 10).filter (· ≠ [])
    if (List.range items.length).any fun i => fail (.item i) then none else some { m with items }

/-- `picker_init_visible` -/
def pickerInitVisible (fail : Faults OpenSite) (m : TuiModal ε) : Option (TuiModal ε) :=
  if fail .visible then none
  else some { m with
    visible := List.range m.items.length
    cursor := 0
    top := 0
    window := 8
    selection := -1 }

/-- `tui_modal_open` -/
def tuiModalOpen (fail : Faults OpenSite) (kind : TuiModalKind) (title body : Option (List UInt8))
    (event : Option ε) : Option (TuiModal ε) :=
  if fail .modal then none
  else if fail .title then none
  else if body.isSome ∧ fail .body then none
  else
    let m : TuiModal ε := {
      kind
      title := title.getD []
      body
      event
      input := none
      items := []
      values := none
      isHeader := []
      visible := []
      cursor := 0
      top := 0
      window := 0
      selection := -1 }
    let listed :=
      if kind = .picker then (pickerSplitItems fail m).bind (pickerInitVisible fail) else some m
    listed.bind fun m =>
      if tuiModalNeedsInput kind ∧ fail .input then none
      else some { m with
        input := if tuiModalNeedsInput kind then some (tuiInputCreate 0) else none
        selection := if kind = .approval then 0 else m.selection }

/-- `tui_modal_text` -/
def tuiModalText (m : TuiModal ε) : List UInt8 := (m.input.map TuiInput.buf).getD []

/-! ## Lists -/

/-- `pick_contains` -/
def pickContains (haystack needle : List UInt8) : Bool :=
  needle.isEmpty ||
    (needle.length ≤ haystack.length && haystack.tails.any fun t => startsIgnoringCase t needle)

/-- `row_is_header` -/
def rowIsHeader (m : TuiModal ε) (i : Nat) : Bool := m.isHeader.getD i false

/-- `first_selectable_row` -/
def firstSelectableRow (m : TuiModal ε) : Nat :=
  (m.visible.findIdx? fun i => !rowIsHeader m i).getD 0

/-- Whether `picker_rebuild` keeps an item with a filter.  A header stays with an item below it. -/
def keepsItem (m : TuiModal ε) (filter : List UInt8) (i : Nat) : Bool :=
  if rowIsHeader m i then
    ((List.range' (i + 1) (m.items.length - (i + 1))).takeWhile fun j => !rowIsHeader m j).any
      fun j => pickContains (m.items.getD j []) filter
  else pickContains (m.items.getD i []) filter

/-- The rows that `picker_rebuild` shows with a filter. -/
def shownRows (m : TuiModal ε) (filter : List UInt8) : List Nat :=
  if filter = [] then List.range m.items.length
  else (List.range m.items.length).filter (keepsItem m filter)

/-- The rows are others, and the cursor stands on the first that can be chosen. -/
def relist (m : TuiModal ε) (visible : List Nat) : TuiModal ε :=
  { m with
    visible
    cursor := firstSelectableRow { m with visible }
    top := 0 }

/-- `picker_rebuild`, where the rows are allocated if there is a filter. -/
def pickerRebuild (fails : Bool) (m : TuiModal ε) : TuiModal ε :=
  if tuiModalText m ≠ [] ∧ fails then m else relist m (shownRows m (tuiModalText m))

/-- The row at the cursor is a header. -/
def onHeader (m : TuiModal ε) (cursor : Int) : Bool :=
  0 ≤ cursor && cursor < m.visible.length && (m.visible[cursor.toNat]?).any (rowIsHeader m)

/-- The loop of `picker_move` that leaves the headers. -/
def skipHeaders (m : TuiModal ε) (delta cursor : Int) : Option Int :=
  if onHeader m cursor then
    if delta = 0 then none else skipHeaders m delta (cursor + delta)
  else some cursor
termination_by if 0 < delta then (m.visible.length - cursor).toNat else (cursor + 1).toNat
decreasing_by
  next hheader hdelta =>
  simp only [onHeader, Bool.and_eq_true, decide_eq_true_eq] at hheader
  split <;> omega

/-- The cursor within the rows. -/
def clampRow (m : TuiModal ε) (cursor : Int) : Int :=
  let cursor := if cursor < 0 then 0 else cursor
  if (m.visible.length : Int) ≤ cursor then m.visible.length - 1 else cursor

/-- What `picker_move` does to the window when it has moved the cursor. -/
def scrollTo (m : TuiModal ε) (cursor : Int) : TuiModal ε :=
  let window := if m.window < 1 then 1 else m.window
  let top := if cursor < m.top then cursor else m.top
  let top := if top + window ≤ cursor then cursor - window + 1 else top
  let lowest := if (m.visible.length : Int) - window < 0 then 0 else (m.visible.length : Int) - window
  { m with
    cursor
    window
    top := if (m.visible.length : Int) < top + window ∧ lowest < top then lowest else top }

/-- `picker_move` -/
def pickerMove (m : TuiModal ε) (delta : Int) : Option (TuiModal ε) :=
  if m.visible = [] then some m
  else
    (skipHeaders m delta (clampRow m (m.cursor + delta))).map fun cursor =>
      scrollTo m (clampRow m cursor)

/-- `tui_modal_picker_set_window` -/
def tuiModalPickerSetWindow (m : TuiModal ε) (rows : Int) : Option (TuiModal ε) :=
  pickerMove { m with window := if rows < 1 then 1 else rows } 0

/-- `tui_modal_picker_set_values`, where nothing fails: the texts that the items stand for. -/
def tuiModalPickerSetValues (m : TuiModal ε) (values : List (Option (List UInt8))) :
    Int × TuiModal ε :=
  if values.length = m.items.length then (0, { m with values := some (values.map (·.getD [])) })
  else (-1, m)

/-- `tui_modal_picker_set_headers`, where the copy of the flags is allocated. -/
def tuiModalPickerSetHeaders (rebuildFails : Bool) (m : TuiModal ε) (flags : List Bool) :
    Int × TuiModal ε :=
  if flags.length = m.items.length then
    (0, pickerRebuild rebuildFails { m with isHeader := flags })
  else (-1, m)

/-- `tui_modal_picker_selected` -/
def tuiModalPickerSelected (m : TuiModal ε) : Option (List UInt8) :=
  if m.selection < 0 then none else m.items[m.selection.toNat]?

/-- `tui_modal_picker_selected_value` -/
def tuiModalPickerSelectedValue (m : TuiModal ε) : Option (List UInt8) :=
  m.values.bind fun values => if m.selection < 0 then none else values[m.selection.toNat]?

/-! ## Keys -/

/-- The key of a character. -/
def key (ch : Char) : Int := ch.toNat

/-- `TUI_PICKER_KEY_UP` -/
def tuiPickerKeyUp : Int := -101

/-- `TUI_PICKER_KEY_DOWN` -/
def tuiPickerKeyDown : Int := -102

/-- `TUI_PICKER_KEY_PGUP` -/
def tuiPickerKeyPgup : Int := -103

/-- `TUI_PICKER_KEY_PGDOWN` -/
def tuiPickerKeyPgdown : Int := -104

/-- A key is Enter. -/
def isEnter (c : Int) : Prop := c = 10 ∨ c = 13

/-- A key is Backspace. -/
def isBackspace (c : Int) : Prop := c = 127 ∨ c = 8

instance (c : Int) : Decidable (isEnter c) := inferInstanceAs (Decidable (_ ∨ _))

instance (c : Int) : Decidable (isBackspace c) := inferInstanceAs (Decidable (_ ∨ _))

/-- `utf8_encode`, which has three bytes at most. -/
def utf8Encode (c : Int) : List UInt8 :=
  let c := c.toNat
  if c ≤ 0x7f then [UInt8.ofNat c]
  else if c ≤ 0x7ff then [UInt8.ofNat (0xc0 ||| c >>> 6), UInt8.ofNat (0x80 ||| c &&& 0x3f)]
  else [UInt8.ofNat (0xe0 ||| c >>> 12), UInt8.ofNat (0x80 ||| c >>> 6 &&& 0x3f),
    UInt8.ofNat (0x80 ||| c &&& 0x3f)]

/-- What is to be done when a key was taken, the dialog, and what an event is answered: a text and a
result. -/
structure Dispatched (ε : Type) where
  action : TuiModalAction
  modal : TuiModal ε
  answer : Option (ε × Option (List UInt8) × Int)

/-- The dialog stays open. -/
def stays (m : TuiModal ε) : Dispatched ε where
  action := .none
  modal := m
  answer := none

/-- The event of the dialog is answered, if it has one, and the dialog is done. -/
def answers (m : TuiModal ε) (text : Option (List UInt8)) (result : Int) : Dispatched ε where
  action := .answered
  modal := m
  answer := m.event.map (·, text, result)

/-- The text of the dialog is edited. -/
def edit (m : TuiModal ε) (f : TuiInput → TuiInput) : TuiModal ε :=
  { m with input := m.input.map f }

/-- A key types its character. -/
def typeKey (fail : Faults AllocSite) (m : TuiModal ε) (c : Int) : TuiModal ε :=
  edit m fun inp => (tuiInputInsert fail inp (utf8Encode c)).2

/-- A key takes a character back. -/
def eraseKey (m : TuiModal ε) : TuiModal ε := edit m fun inp => (tuiInputBackspace inp).2

/-- `tui_modal_dispatch_key` for `TUI_MODAL_CONFIRM` -/
def dispatchConfirm (m : TuiModal ε) (c : Int) : Dispatched ε :=
  if c = key 'y' ∨ c = key 'Y' ∨ isEnter c then answers { m with selection := 1 } none 1
  else if c = key 'n' ∨ c = key 'N' ∨ c = 27 then answers { m with selection := 0 } none 0
  else stays m

/-- `tui_modal_dispatch_key` for `TUI_MODAL_APPROVAL` -/
def dispatchApproval (m : TuiModal ε) (c : Int) : Dispatched ε :=
  if c = key 'h' ∨ c = key 'H' ∨ c = tuiPickerKeyUp then
    stays { m with selection := if m.selection ≤ 0 then 2 else m.selection - 1 }
  else if c = key 'l' ∨ c = key 'L' ∨ c = tuiPickerKeyDown ∨ c = 9 then
    stays { m with selection := (m.selection + 1).tmod 3 }
  else if c = key '1' then stays { m with selection := 0 }
  else if c = key '2' then stays { m with selection := 1 }
  else if c = key '3' then stays { m with selection := 2 }
  else if isEnter c then
    answers m none (if m.selection = 2 then 0 else if m.selection = 1 then 2 else 1)
  else if c = key 'y' ∨ c = key 'Y' then answers { m with selection := 0 } none 1
  else if c = key 'n' ∨ c = key 'N' ∨ c = 27 then answers { m with selection := 2 } none 0
  else stays m

/-- The rows of a page but one. -/
def pageRows (m : TuiModal ε) : Int := if 1 < m.window then m.window - 1 else 1

/-- What Enter does to a list.  Nothing is selected when no row is left, and a header is not. -/
def commitPicker (m : TuiModal ε) : Option (Dispatched ε) :=
  if m.visible = [] then
    some (answers { m with selection := -1 } (tuiModalPickerSelected { m with selection := -1 }) 0)
  else if m.cursor < 0 then none
  else
    (m.visible[m.cursor.toNat]?).map fun sel =>
      if rowIsHeader m sel then stays m
      else
        answers { m with selection := sel } (tuiModalPickerSelected { m with selection := sel }) 0

/-- `tui_modal_dispatch_key` for `TUI_MODAL_PICKER` -/
def dispatchPicker (fail : Faults AllocSite) (rebuildFails : Bool) (m : TuiModal ε) (c : Int) :
    Option (Dispatched ε) :=
  if isEnter c then commitPicker m
  else if c = 27 then some (answers { m with selection := -1 } none 0)
  else if c = tuiPickerKeyUp ∨ c = 16 then (pickerMove m (-1)).map stays
  else if c = tuiPickerKeyDown ∨ c = 14 then (pickerMove m 1).map stays
  else if c = tuiPickerKeyPgup then (pickerMove m (-pageRows m)).map stays
  else if c = tuiPickerKeyPgdown then (pickerMove m (pageRows m)).map stays
  else if isBackspace c then some (stays (pickerRebuild rebuildFails (eraseKey m)))
  else if 32 ≤ c then some (stays (pickerRebuild rebuildFails (typeKey fail m c)))
  else some (stays m)

/-- `tui_modal_dispatch_key` for `TUI_MODAL_PASSWORD` and `TUI_MODAL_ASK_USER` -/
def dispatchText (fail : Faults AllocSite) (m : TuiModal ε) (c : Int) : Dispatched ε :=
  if isEnter c then answers m (some (tuiModalText m)) 0
  else if c = 27 then answers m none 0
  else if isBackspace c then stays (eraseKey m)
  else if 32 ≤ c then stays (typeKey fail m c)
  else stays m

/-- `tui_modal_dispatch_key` -/
def tuiModalDispatchKey (fail : Faults AllocSite) (rebuildFails : Bool) (m : TuiModal ε) (c : Int) :
    Option (Dispatched ε) :=
  match m.kind with
  | .notice => some { action := .answered, modal := m, answer := none }
  | .confirmQuit =>
    if c = key 'y' ∨ c = key 'Y' then some { answers m none 1 with action := .quit }
    else some { action := .answered, modal := m, answer := none }
  | .confirm => some (dispatchConfirm m c)
  | .approval => some (dispatchApproval m c)
  | .picker => dispatchPicker fail rebuildFails m c
  | .password | .askUser => some (dispatchText fail m c)
  | .none => some (stays m)

end Modal

/-! ## Passwords -/

/-- The glyph for a character that is not a blank. -/
def maskGlyph : List UInt8 := [0xE2, 0x80, 0xA2]

/-- The loop of `tui_modal_mask`, with the bytes that are left. -/
def maskFrom (cap : Nat) (text out : List UInt8) : List UInt8 :=
  match text with
  | [] => out
  | c :: rest =>
    if out.length + 4 ≤ cap then
      if c = 32 then maskFrom cap rest (out ++ [32])
      else maskFrom cap (rest.dropWhile isContinuation) (out ++ maskGlyph)
    else out
termination_by text.length
decreasing_by
  · exact Nat.lt_succ_self _
  · exact Nat.lt_succ_of_le (List.dropWhile_suffix isContinuation).length_le

/-- `tui_modal_mask`, into a buffer of `cap` bytes. -/
def tuiModalMask (text : List UInt8) (cap : Nat) : List UInt8 := maskFrom cap text []

end EchoAi.TuiDialogs
