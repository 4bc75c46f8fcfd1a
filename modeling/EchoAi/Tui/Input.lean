import EchoAi.Bytes
import EchoAi.Faults
import EchoAi.Ring

/-!
# The prompt and its history

A line that is edited, and a ring of the lines that were submitted.

* `TuiInput`: the line, its buffer, the ring, and the walk through it.
* `tuiInputInsert`, …, `tuiInputSetText`: the editor.
* `historyPush`, `tuiInputSubmit`, `tuiInputHistoryBack`, `tuiInputHistoryForward`: the history, with
  the allocations that fail.
* `Op`, `stepOn`, `step`: operations one after the other, with the prompts that were recorded.

Texts are the bytes of C strings, and the editor is not absent.
-/

namespace EchoAi.Prompt

/-- The allocations of an operation. -/
inductive AllocSite where
  | norm
  | growth
  | out
  | entry
  | draft
  deriving DecidableEq, Repr

/-- `TuiInput`: the text with its NUL lies within the buffer, and the cursor within the text.  A slot
of the ring is empty when the copy for it failed. -/
structure TuiInput where
  buf : List UInt8
  cap : Nat
  cursor : Nat
  history : Ring (Option (List UInt8))
  historyWalk : Nat
  walking : Bool
  draft : Option (List UInt8)
  fits : buf.length < cap
  cursor_le : cursor ≤ buf.length

/-- `grow_buffer`, where the buffer has a size: the new size. -/
def growBuffer (fails : Bool) (cap needed : Nat) (hcap : 0 < cap) :
    Option { c : Nat // cap ≤ c ∧ needed ≤ c } :=
  if h : needed ≤ cap then some ⟨cap, Nat.le_refl cap, h⟩
  else if fails then none
  else
    have hle := le_grownCap hcap needed
    some ⟨grownCap cap needed, by omega, hle⟩

/-- `tui_input_create`, where nothing fails. -/
def tuiInputCreate (historyCap : Nat) : TuiInput where
  buf := []
  cap := 64
  cursor := 0
  history := Ring.empty (List.replicate historyCap none)
  historyWalk := 0
  walking := false
  draft := none
  fits := by decide
  cursor_le := Nat.le_refl 0

/-! ## Codepoints -/

/-- A byte that continues a codepoint. -/
def isContinuation (c : UInt8) : Bool := c &&& 0xC0 == 0x80

/-- The loop of `cursor_left_cp`. -/
def leftFrom (buf : List UInt8) : (i : Nat) → Nat
  | 0 => 0
  | i + 1 => if (buf[i + 1]?).any isContinuation then leftFrom buf i else i + 1

/-- `cursor_left_cp` -/
def cursorLeftCp (buf : List UInt8) (cursor : Nat) : Nat :=
  if cursor = 0 then cursor else leftFrom buf (cursor - 1)

/-- The loop of `cursor_right_cp`. -/
def rightFrom (buf : List UInt8) (i : Nat) : Nat :=
  if i < buf.length ∧ (buf[i]?).any isContinuation then rightFrom buf (i + 1) else i
termination_by buf.length - i

/-- `cursor_right_cp` -/
def cursorRightCp (buf : List UInt8) (cursor : Nat) : Nat :=
  if buf.length ≤ cursor then cursor else rightFrom buf (cursor + 1)

theorem leftFrom_le (buf : List UInt8) (i : Nat) : leftFrom buf i ≤ i := by
  induction i with
  | zero => exact Nat.le_refl 0
  | succ i ih =>
    rw [leftFrom]
    split <;> omega

theorem cursorLeftCp_le (buf : List UInt8) (cursor : Nat) : cursorLeftCp buf cursor ≤ cursor := by
  have hle := leftFrom_le buf (cursor - 1)
  rw [cursorLeftCp]
  split <;> omega

theorem rightFrom_bounds {buf : List UInt8} {i : Nat} (h : i ≤ buf.length) :
    i ≤ rightFrom buf i ∧ rightFrom buf i ≤ buf.length := by
  fun_induction rightFrom buf i with
  | case1 i hgo ih => exact ⟨by omega, (ih (by omega)).2⟩
  | case2 i hstop => exact ⟨Nat.le_refl i, h⟩

theorem cursorRightCp_bounds {buf : List UInt8} {cursor : Nat} (h : cursor ≤ buf.length) :
    cursor ≤ cursorRightCp buf cursor ∧ cursorRightCp buf cursor ≤ buf.length := by
  rw [cursorRightCp]
  split
  · exact ⟨Nat.le_refl cursor, h⟩
  · have hright := @rightFrom_bounds buf (cursor + 1) (by omega)
    exact ⟨by omega, hright.2⟩

/-! ## The editor -/

/-- `normalize_eols` -/
def normalizeEols : List UInt8 → List UInt8
  | [] => []
  | 13 :: 10 :: rest => 10 :: normalizeEols rest
  | c :: rest => (if c = 13 then 10 else c) :: normalizeEols rest

/-- The bytes from `a` to `b` are taken out, and the cursor stands there. -/
def TuiInput.cut (inp : TuiInput) (a b : Nat) (hab : a ≤ b) (hb : b ≤ inp.buf.length) : TuiInput :=
  { inp with
    buf := inp.buf.take a ++ inp.buf.drop b
    cursor := a
    fits := by
      have hfits := inp.fits
      rw [List.length_append, List.length_take, List.length_drop]
      omega
    cursor_le := by
      rw [List.length_append, List.length_take]
      omega }

/-- The cursor stands somewhere else. -/
def TuiInput.seek (inp : TuiInput) (cursor : Nat) (h : cursor ≤ inp.buf.length) : TuiInput :=
  { inp with cursor, cursor_le := h }

/-- `tui_input_insert` -/
def tuiInputInsert (fail : Faults AllocSite) (inp : TuiInput) (text : List UInt8) :
    Int × TuiInput :=
  if text = [] then (0, inp)
  else if 13 ∈ text ∧ fail .norm then (-1, inp)
  else
    let text := if 13 ∈ text then normalizeEols text else text
    match growBuffer (fail .growth) inp.cap (inp.buf.length + text.length + 1)
        (Nat.zero_lt_of_lt inp.fits) with
    | none => (-1, inp)
    | some ⟨cap, hcap⟩ =>
      (0, { inp with
        buf := inp.buf.take inp.cursor ++ text ++ inp.buf.drop inp.cursor
        cap
        cursor := inp.cursor + text.length
        fits := by
          have hle := inp.cursor_le
          rw [List.length_append, List.length_append, List.length_take, List.length_drop]
          omega
        cursor_le := by
          have hle := inp.cursor_le
          rw [List.length_append, List.length_append, List.length_take]
          omega })

/-- `tui_input_backspace` -/
def tuiInputBackspace (inp : TuiInput) : Int × TuiInput :=
  if inp.cursor = 0 then (0, inp)
  else
    let cursor := cursorLeftCp inp.buf inp.cursor
    (inp.cursor - cursor, inp.cut cursor inp.cursor (cursorLeftCp_le _ _) inp.cursor_le)

/-- `tui_input_delete` -/
def tuiInputDelete (inp : TuiInput) : Int × TuiInput :=
  if inp.buf.length ≤ inp.cursor then (0, inp)
  else
    let stop := cursorRightCp inp.buf inp.cursor
    (stop - inp.cursor, inp.cut inp.cursor stop (cursorRightCp_bounds inp.cursor_le).1
      (cursorRightCp_bounds inp.cursor_le).2)

/-- One step of the loops of `tui_input_move`. -/
def moveOne (right : Bool) (inp : TuiInput) : TuiInput :=
  if right then inp.seek (cursorRightCp inp.buf inp.cursor) (cursorRightCp_bounds inp.cursor_le).2
  else inp.seek (cursorLeftCp inp.buf inp.cursor) ((cursorLeftCp_le _ _).trans inp.cursor_le)

/-- `tui_input_move` -/
def tuiInputMove (inp : TuiInput) (steps : Int) : TuiInput :=
  (moveOne (0 < steps))^[steps.natAbs] inp

/-- `tui_input_home` -/
def tuiInputHome (inp : TuiInput) : TuiInput := inp.seek 0 (Nat.zero_le _)

/-- `tui_input_end` -/
def tuiInputEnd (inp : TuiInput) : TuiInput := inp.seek inp.buf.length (Nat.le_refl _)

/-- `tui_input_clear` -/
def tuiInputClear (inp : TuiInput) : TuiInput :=
  { inp with
    buf := []
    cursor := 0
    fits := Nat.zero_lt_of_lt inp.fits
    cursor_le := Nat.le_refl 0 }

/-- `is_space_or_boundary` -/
def isSpaceOrBoundary (c : UInt8) : Bool := c = 32 || c = 9

/-- The loops of `tui_input_delete_word`. -/
def leftWhile (p : UInt8 → Bool) (buf : List UInt8) : (pos : Nat) → Nat
  | 0 => 0
  | pos + 1 => if (buf[pos]?).any p then leftWhile p buf pos else pos + 1

theorem leftWhile_le (p : UInt8 → Bool) (buf : List UInt8) (pos : Nat) :
    leftWhile p buf pos ≤ pos := by
  induction pos with
  | zero => exact Nat.le_refl 0
  | succ pos ih =>
    rw [leftWhile]
    split <;> omega

/-- `tui_input_delete_word` -/
def tuiInputDeleteWord (inp : TuiInput) : Int × TuiInput :=
  let word := leftWhile isSpaceOrBoundary inp.buf inp.cursor
  let pos := leftWhile (fun c => !isSpaceOrBoundary c) inp.buf word
  if inp.cursor - pos = 0 then (0, inp)
  else (inp.cursor - pos, inp.cut pos inp.cursor
    ((leftWhile_le _ _ _).trans (leftWhile_le _ _ _)) inp.cursor_le)

/-- `tui_input_set_text` -/
def tuiInputSetText (fail : Faults AllocSite) (inp : TuiInput) (text : Option (List UInt8)) :
    Int × TuiInput :=
  let text := text.getD []
  match growBuffer (fail .growth) inp.cap (text.length + 1) (Nat.zero_lt_of_lt inp.fits) with
  | none => (-1, inp)
  | some ⟨cap, hcap⟩ =>
    (0, { inp with
      buf := text
      cap
      cursor := text.length
      fits := hcap.2
      cursor_le := Nat.le_refl _ })

/-! ## The history -/

/-- A text that `str_dup` copies, which may fail. -/
def copied (fails : Bool) (text : List UInt8) : Option (List UInt8) :=
  if fails then none else some text

/-- The slot of the newest entry. -/
def newest (history : Ring (Option (List UInt8))) : Option (Option (List UInt8)) :=
  if history.count = 0 then none
  else history.slots[(history.head + history.count - 1) % history.slots.length]?

/-- `history_push`, which is absent when an empty slot is compared with the line. -/
def historyPush (fails : Bool) (history : Ring (Option (List UInt8))) (line : List UInt8) :
    Option (Ring (Option (List UInt8))) :=
  if h : history.slots = [] then some history
  else
    match newest history with
    | some none => none
    | some (some last) =>
      if last = line then some history else some (history.remember (copied fails line) h)
    | none => some (history.remember (copied fails line) h)

/-- `tui_input_submit`: what it returns, and the editor behind it. -/
def tuiInputSubmit (fail : Faults AllocSite) (inp : TuiInput) :
    Option (Option (List UInt8) × TuiInput) :=
  if inp.buf = [] then some (none, inp)
  else if fail .out then some (none, inp)
  else
    match historyPush (fail .entry) inp.history inp.buf with
    | none => none
    | some history =>
      some (some inp.buf, { tuiInputClear inp with history, walking := false, draft := none })

/-- The slot of an entry that is shown. -/
def walked (inp : TuiInput) : Option (List UInt8) :=
  let idx := inp.history.head + inp.history.count - 1 - inp.historyWalk
  (inp.history.slots[idx % inp.history.slots.length]?).join

/-- The end of a walk by one entry: the entry is shown. -/
def showEntry (fail : Faults AllocSite) (inp : TuiInput) (entry : Option (List UInt8)) :
    Option (List UInt8) × TuiInput :=
  let (rc, inp) := tuiInputSetText fail inp entry
  if rc ≠ 0 then (none, inp) else (some inp.buf, inp)

/-- `tui_input_history_back` -/
def tuiInputHistoryBack (fail : Faults AllocSite) (inp : TuiInput) :
    Option (List UInt8) × TuiInput :=
  if inp.history.count = 0 then (none, inp)
  else if ¬inp.walking then
    let inp := { inp with
      draft := copied (fail .draft) inp.buf
      walking := true
      historyWalk := 0 }
    showEntry fail inp (walked inp)
  else if inp.history.count - 1 ≤ inp.historyWalk then (none, inp)
  else
    let inp := { inp with historyWalk := inp.historyWalk + 1 }
    showEntry fail inp (walked inp)

/-- `tui_input_history_forward` -/
def tuiInputHistoryForward (fail : Faults AllocSite) (inp : TuiInput) :
    Option (List UInt8) × TuiInput :=
  if ¬inp.walking then (none, inp)
  else if inp.historyWalk = 0 then
    let (shown, inp) := showEntry fail inp inp.draft
    if shown = none then (none, inp) else (shown, { inp with walking := false })
  else
    let inp := { inp with historyWalk := inp.historyWalk - 1 }
    showEntry fail inp (walked inp)

/-- `tui_input_reset_history_walk` -/
def tuiInputResetHistoryWalk (inp : TuiInput) : TuiInput :=
  { inp with walking := false, draft := none }

/-! ## Operations one after the other -/

/-- An operation on the editor. -/
inductive Act where
  | insert (text : List UInt8)
  | backspace
  | delete
  | move (steps : Int)
  | home
  | toEnd
  | clear
  | deleteWord
  | setText (text : Option (List UInt8))
  | submit
  | historyBack
  | historyForward
  | resetHistoryWalk
  deriving DecidableEq

/-- An operation, with its allocations that fail. -/
structure Op where
  act : Act
  fail : Faults AllocSite

/-- An operation on the editor, which is absent when an empty slot is read as a text. -/
def stepOn (inp : TuiInput) (op : Op) : Option TuiInput :=
  match op.act with
  | .insert text => some (tuiInputInsert op.fail inp text).2
  | .backspace => some (tuiInputBackspace inp).2
  | .delete => some (tuiInputDelete inp).2
  | .move steps => some (tuiInputMove inp steps)
  | .home => some (tuiInputHome inp)
  | .toEnd => some (tuiInputEnd inp)
  | .clear => some (tuiInputClear inp)
  | .deleteWord => some (tuiInputDeleteWord inp).2
  | .setText text => some (tuiInputSetText op.fail inp text).2
  | .submit => (tuiInputSubmit op.fail inp).map Prod.snd
  | .historyBack => some (tuiInputHistoryBack op.fail inp).2
  | .historyForward => some (tuiInputHistoryForward op.fail inp).2
  | .resetHistoryWalk => some (tuiInputResetHistoryWalk inp)

/-- The editor, and the prompts that were recorded: those that were submitted, and whose copies did
not fail. -/
structure Session where
  input : Option TuiInput
  prompts : List (List UInt8)

/-- The prompt that an operation records. -/
def recorded (inp : TuiInput) (op : Op) : List (List UInt8) :=
  if op.act = .submit ∧ inp.buf ≠ [] ∧ op.fail .out = false ∧ op.fail .entry = false then [inp.buf]
  else []

/-- One operation; behind an access to an empty slot there is nothing. -/
def step (s : Session) (op : Op) : Session :=
  match s.input with
  | none => s
  | some inp => { input := stepOn inp op, prompts := s.prompts ++ recorded inp op }

/-- A new editor. -/
def Session.start (historyCap : Nat) : Session where
  input := some (tuiInputCreate historyCap)
  prompts := []

end EchoAi.Prompt
