import EchoAi.Lockstep
import EchoAi.Memory
import EchoAi.Tui.Input
import EchoAi.Utf8

/-!
# The bytes of the prompt

The line editor as the code keeps it: a buffer with a NUL behind the text, in which ranges that
overlap are moved.

* `RawInput`: the buffer.
* `rawInsert`, …, `rawStep`: the operations on the buffer.
* `TuiInput.raw`, `rawStep_raw`: the buffer holds what the editor `TuiInput` has, after every
  operation.
* `Sound`: texts are valid, and the cursor stands between codepoints.
* `Valid`, `Undoes`, `Edits`: what a state and an operation have to be.
* `Compares`, `edits_run_iff`: every operation of a run is as it has to be just when no submission
  compares its line with an entry that was lost.

Texts are the bytes of C strings, and the editor is not absent.
-/

namespace EchoAi.PromptBuffer

open Prompt

/-! ## The editor -/

/-- `TuiInput`, with its buffer as it is in memory. -/
structure RawInput where
  mem : List UInt8
  len : Nat
  cursor : Nat
  history : Ring (Option (List UInt8))
  historyWalk : Nat
  walking : Bool
  draft : Option (List UInt8)

/-- The bytes that the text has. -/
def RawInput.text (raw : RawInput) : List UInt8 := raw.mem.take raw.len

/-- `grow_buffer`: whether there is room; absent where it accesses something else. -/
def rawGrow (fails : Bool) (raw : RawInput) (needed : Nat) : Option (Bool × RawInput) :=
  if needed ≤ raw.mem.length then some (true, raw)
  else if fails then some (false, raw)
  else if raw.mem.length < raw.len + 1 then none
  else
    let cap := grownCap (if raw.mem.length = 0 then 64 else raw.mem.length) needed
    (writeAt (List.replicate cap 0) 0 (raw.mem.take (raw.len + 1))).map fun mem =>
      (true, { raw with mem })

/-- `tui_input_insert`: whether it does not report a failure. -/
def rawInsert (fail : Faults AllocSite) (raw : RawInput) (text : List UInt8) :
    Option (Bool × RawInput) :=
  if text = [] then some (true, raw)
  else if 13 ∈ text ∧ fail .norm then some (false, raw)
  else
    let text := if 13 ∈ text then normalizeEols text else text
    (rawGrow (fail .growth) raw (raw.len + text.length + 1)).bind fun (ok, raw) =>
      if ok then do
        let mem ← moveWithin raw.mem (raw.cursor + text.length) raw.cursor (raw.len - raw.cursor + 1)
        let mem ← writeAt mem raw.cursor text
        some (true, { raw with mem, len := raw.len + text.length, cursor := raw.cursor + text.length })
      else some (false, raw)

/-- The bytes from `a` to `b` are taken out, and the cursor stands there. -/
def rawCut (raw : RawInput) (a b : Nat) : Option (Bool × RawInput) :=
  (moveWithin raw.mem a b (raw.len - b + 1)).map fun mem =>
    (true, { raw with mem, len := raw.len - (b - a), cursor := a })

/-- `tui_input_backspace` -/
def rawBackspace (raw : RawInput) : Option (Bool × RawInput) :=
  if raw.cursor = 0 then some (true, raw)
  else rawCut raw (cursorLeftCp raw.text raw.cursor) raw.cursor

/-- `tui_input_delete` -/
def rawDelete (raw : RawInput) : Option (Bool × RawInput) :=
  if raw.len ≤ raw.cursor then some (true, raw)
  else rawCut raw raw.cursor (cursorRightCp raw.text raw.cursor)

/-- One step of the loops of `tui_input_move`. -/
def rawMoveOne (right : Bool) (raw : RawInput) : RawInput :=
  { raw with
    cursor := if right then cursorRightCp raw.text raw.cursor else cursorLeftCp raw.text raw.cursor }

/-- `tui_input_move` -/
def rawMove (raw : RawInput) (steps : Int) : RawInput := (rawMoveOne (0 < steps))^[steps.natAbs] raw

/-- `tui_input_clear` -/
def rawClear (raw : RawInput) : Option RawInput :=
  (writeAt raw.mem 0 [0]).map fun mem => { raw with mem, len := 0, cursor := 0 }

/-- `tui_input_delete_word` -/
def rawDeleteWord (raw : RawInput) : Option (Bool × RawInput) :=
  let word := leftWhile isSpaceOrBoundary raw.text raw.cursor
  let pos := leftWhile (fun c => !isSpaceOrBoundary c) raw.text word
  if raw.cursor - pos = 0 then some (true, raw) else rawCut raw pos raw.cursor

/-- `tui_input_set_text` -/
def rawSetText (fail : Faults AllocSite) (raw : RawInput) (text : Option (List UInt8)) :
    Option (Bool × RawInput) :=
  let text := text.getD []
  (rawGrow (fail .growth) raw (text.length + 1)).bind fun (ok, raw) =>
    if ok then do
      let mem ← writeAt raw.mem 0 text
      let mem ← writeAt mem text.length [0]
      some (true, { raw with mem, len := text.length, cursor := text.length })
    else some (false, raw)

/-- `tui_input_submit` -/
def rawSubmit (fail : Faults AllocSite) (raw : RawInput) : Option (Bool × RawInput) :=
  if raw.len = 0 then some (false, raw)
  else if fail .out then some (false, raw)
  else do
    let history ← historyPush (fail .entry) raw.history (cString raw.mem)
    let raw ← rawClear raw
    some (true, { raw with history, walking := false, draft := none })

/-- The slot of an entry that is shown. -/
def rawWalked (raw : RawInput) : Option (List UInt8) :=
  let idx := raw.history.head + raw.history.count - 1 - raw.historyWalk
  (raw.history.slots[idx % raw.history.slots.length]?).join

/-- `tui_input_history_back` -/
def rawHistoryBack (fail : Faults AllocSite) (raw : RawInput) : Option (Bool × RawInput) :=
  if raw.history.count = 0 then some (false, raw)
  else if ¬raw.walking then
    let raw := { raw with
      draft := copied (fail .draft) (cString raw.mem)
      walking := true
      historyWalk := 0 }
    rawSetText fail raw (rawWalked raw)
  else if raw.history.count - 1 ≤ raw.historyWalk then some (false, raw)
  else
    let raw := { raw with historyWalk := raw.historyWalk + 1 }
    rawSetText fail raw (rawWalked raw)

/-- `tui_input_history_forward` -/
def rawHistoryForward (fail : Faults AllocSite) (raw : RawInput) : Option (Bool × RawInput) :=
  if ¬raw.walking then some (false, raw)
  else if raw.historyWalk = 0 then
    (rawSetText fail raw raw.draft).map fun (ok, raw) =>
      if ok then (true, { raw with walking := false }) else (false, raw)
  else
    let raw := { raw with historyWalk := raw.historyWalk - 1 }
    rawSetText fail raw (rawWalked raw)

/-- An operation on the buffer; absent where it accesses something else. -/
def rawStep (raw : RawInput) (op : Op) : Option (Bool × RawInput) :=
  match op.act with
  | .insert text => rawInsert op.fail raw text
  | .backspace => rawBackspace raw
  | .delete => rawDelete raw
  | .move steps => some (true, rawMove raw steps)
  | .home => some (true, { raw with cursor := 0 })
  | .toEnd => some (true, { raw with cursor := raw.len })
  | .clear => (rawClear raw).map (true, ·)
  | .deleteWord => rawDeleteWord raw
  | .setText text => rawSetText op.fail raw text
  | .submit => rawSubmit op.fail raw
  | .historyBack => rawHistoryBack op.fail raw
  | .historyForward => rawHistoryForward op.fail raw
  | .resetHistoryWalk => some (true, { raw with walking := false, draft := none })

/-- `tui_input_create`, where nothing fails. -/
def rawCreate (historyCap : Nat) : RawInput where
  mem := List.replicate 64 0
  len := 0
  cursor := 0
  history := Ring.empty (List.replicate historyCap none)
  historyWalk := 0
  walking := false
  draft := none

/-! ## The buffer holds what the editor has -/

/-- The editor in memory, with the bytes behind its NUL. -/
def rawOf (inp : TuiInput) (junk : List UInt8) : RawInput where
  mem := inp.buf ++ 0 :: junk
  len := inp.buf.length
  cursor := inp.cursor
  history := inp.history
  historyWalk := inp.historyWalk
  walking := inp.walking
  draft := inp.draft

@[simp] theorem mem_rawOf (inp : TuiInput) (junk : List UInt8) :
    (rawOf inp junk).mem = inp.buf ++ 0 :: junk := rfl

@[simp] theorem len_rawOf (inp : TuiInput) (junk : List UInt8) :
    (rawOf inp junk).len = inp.buf.length := rfl

@[simp] theorem cursor_rawOf (inp : TuiInput) (junk : List UInt8) :
    (rawOf inp junk).cursor = inp.cursor := rfl

@[simp] theorem history_rawOf (inp : TuiInput) (junk : List UInt8) :
    (rawOf inp junk).history = inp.history := rfl

@[simp] theorem historyWalk_rawOf (inp : TuiInput) (junk : List UInt8) :
    (rawOf inp junk).historyWalk = inp.historyWalk := rfl

@[simp] theorem walking_rawOf (inp : TuiInput) (junk : List UInt8) :
    (rawOf inp junk).walking = inp.walking := rfl

@[simp] theorem draft_rawOf (inp : TuiInput) (junk : List UInt8) :
    (rawOf inp junk).draft = inp.draft := rfl

/-- What C reads in the buffer is the text. -/
theorem cString_rawOf {inp : TuiInput} (h : 0 ∉ inp.buf) (junk : List UInt8) :
    cString (rawOf inp junk).mem = inp.buf := by
  rw [mem_rawOf, cString_append_of_notMem h,
    show cString (0 :: junk) = [] from List.takeWhile_cons_of_neg (by decide), List.append_nil]

@[simp] theorem text_rawOf (inp : TuiInput) (junk : List UInt8) : (rawOf inp junk).text = inp.buf :=
  List.take_left

/-- An operation on the buffer comes to the editor `inp'`, and a failure leaves text and cursor. -/
def Comes (r : Option (Bool × RawInput)) (inp inp' : TuiInput) : Prop :=
  ∃ ok junk, r = some (ok, rawOf inp' junk) ∧ (inp'.buf ++ 0 :: junk).length = inp'.cap ∧
    (ok = false → inp'.buf = inp.buf ∧ inp'.cursor = inp.cursor)

section Operations

variable {fail : Faults AllocSite} {inp : TuiInput} {junk : List UInt8}

theorem comes_self (hcap : (inp.buf ++ 0 :: junk).length = inp.cap) (ok : Bool) :
    Comes (some (ok, rawOf inp junk)) inp inp :=
  ⟨ok, junk, rfl, hcap, fun _ => ⟨rfl, rfl⟩⟩

/-- The buffer grows as the editor says, and keeps the text and its NUL. -/
theorem rawGrow_rawOf (hcap : (inp.buf ++ 0 :: junk).length = inp.cap) (fails : Bool) (needed : Nat)
    (hpos : 0 < inp.cap) :
    (growBuffer fails inp.cap needed hpos = none ∧
      rawGrow fails (rawOf inp junk) needed = some (false, rawOf inp junk)) ∨
    ∃ cap hle, growBuffer fails inp.cap needed hpos = some ⟨cap, hle⟩ ∧
      ∃ junk', rawGrow fails (rawOf inp junk) needed = some (true, rawOf inp junk') ∧
        (inp.buf ++ 0 :: junk').length = cap := by
  rw [growBuffer, rawGrow, show (rawOf inp junk).mem.length = inp.cap from hcap]
  by_cases hroom : needed ≤ inp.cap
  · rw [dif_pos hroom, if_pos hroom]
    exact .inr ⟨_, _, rfl, junk, rfl, hcap⟩
  rw [dif_neg hroom, if_neg hroom]
  cases fails with
  | true => exact .inl ⟨rfl, rfl⟩
  | false =>
    have hin : ¬ inp.cap < (rawOf inp junk).len + 1 := by
      have hfits := inp.fits
      show ¬ inp.cap < inp.buf.length + 1
      omega
    rw [if_neg Bool.false_ne_true, if_neg Bool.false_ne_true, if_neg hin,
      if_neg (Nat.ne_of_gt hpos)]
    have hgrown := le_grownCap hpos needed
    have htaken : (rawOf inp junk).mem.take ((rawOf inp junk).len + 1) = inp.buf ++ [0] := by
      show (inp.buf ++ 0 :: junk).take (inp.buf.length + 1) = _
      rw [List.take_append, List.take_of_length_le (Nat.le_succ _), Nat.add_sub_cancel_left]
      rfl
    obtain ⟨extra, hextra⟩ : ∃ extra, grownCap inp.cap needed = (inp.buf ++ [0]).length + extra := by
      refine Nat.exists_eq_add_of_le ?_
      have hfits := inp.fits
      rw [List.length_append, List.length_singleton]
      omega
    have hwrite := @writeAt_append [] (List.replicate (inp.buf ++ [0]).length 0)
      (List.replicate extra 0) (inp.buf ++ [0]) List.length_replicate
    rw [List.nil_append, List.replicate_append_replicate, ← hextra, List.length_nil] at hwrite
    rw [htaken]
    refine .inr ⟨_, _, rfl, List.replicate extra 0, ?_, ?_⟩
    · simp only [hwrite, Option.map_some, rawOf, List.nil_append, List.append_assoc,
        List.singleton_append]
    · rw [hextra]
      simp only [List.length_append, List.length_cons, List.length_replicate, List.length_nil]
      omega

/-- A text is put in as the editor says, or nothing changes. -/
theorem exists_insertText (hcap : (inp.buf ++ 0 :: junk).length = inp.cap) (text : List UInt8) :
    ∃ junk', rawInsert fail (rawOf inp junk) text =
        some ((tuiInputInsert fail inp text).1 == 0, rawOf (tuiInputInsert fail inp text).2 junk') ∧
      ((tuiInputInsert fail inp text).2.buf ++ 0 :: junk').length =
        (tuiInputInsert fail inp text).2.cap ∧
      ((tuiInputInsert fail inp text).1 ≠ 0 → (tuiInputInsert fail inp text).2 = inp) := by
  rw [rawInsert, tuiInputInsert]
  by_cases hnil : text = []
  · rw [if_pos hnil, if_pos hnil]
    exact ⟨junk, rfl, hcap, fun _ => rfl⟩
  rw [if_neg hnil, if_neg hnil]
  by_cases hnorm : 13 ∈ text ∧ fail .norm
  · rw [if_pos hnorm, if_pos hnorm]
    exact ⟨junk, rfl, hcap, fun _ => rfl⟩
  rw [if_neg hnorm, if_neg hnorm]
  dsimp only
  set t := if 13 ∈ text then normalizeEols text else text
  rcases rawGrow_rawOf hcap (fail .growth) (inp.buf.length + t.length + 1)
    (Nat.zero_lt_of_lt inp.fits) with ⟨hgrow, hraw⟩ | ⟨cap, hle, hgrow, junk', hraw, hcap'⟩
  · rw [hgrow, len_rawOf, hraw]
    exact ⟨junk, rfl, hcap, fun _ => rfl⟩
  · rw [hgrow, len_rawOf, hraw]
    -- the text behind the cursor and its NUL move up, and the new text is written between
    have hcursor := inp.cursor_le
    have hfront : (inp.buf.take inp.cursor).length = inp.cursor := List.length_take_of_le hcursor
    have hback : (inp.buf.drop inp.cursor).length = inp.buf.length - inp.cursor := List.length_drop
    have hroom : t.length ≤ junk'.length := by
      have hneeded := hle.2
      rw [← hcap', List.length_append, List.length_cons] at hneeded
      omega
    obtain ⟨mem, junk'', hmove, hwrite, hlength⟩ :=
      @exists_insert (inp.buf.take inp.cursor) (inp.buf.drop inp.cursor) junk' t hroom
    rw [List.take_append_drop, hfront, hback] at hmove
    rw [hfront] at hwrite
    rw [List.take_append_drop, hcap'] at hlength
    have hnew : inp.buf.length + t.length =
        (inp.buf.take inp.cursor ++ t ++ inp.buf.drop inp.cursor).length := by
      simp only [List.length_append, hfront, hback]
      omega
    refine ⟨junk'', ?_, hlength, fun hne => absurd rfl hne⟩
    show ((moveWithin (inp.buf ++ 0 :: junk') (inp.cursor + t.length) inp.cursor
      (inp.buf.length - inp.cursor + 1)).bind fun mem => (writeAt mem inp.cursor t).bind fun mem =>
        some (true, { rawOf inp junk' with
          mem, len := inp.buf.length + t.length, cursor := inp.cursor + t.length })) = _
    rw [hmove, Option.bind_some, hwrite]
    exact congrArg (fun len => some (true, { rawOf inp junk' with
      mem := inp.buf.take inp.cursor ++ t ++ inp.buf.drop inp.cursor ++ 0 :: junk''
      len := len
      cursor := inp.cursor + t.length })) hnew

theorem comes_insert (hcap : (inp.buf ++ 0 :: junk).length = inp.cap) (text : List UInt8) :
    Comes (rawInsert fail (rawOf inp junk) text) inp (tuiInputInsert fail inp text).2 := by
  obtain ⟨junk', hraw, hcap', hsame⟩ := @exists_insertText fail inp junk hcap text
  refine ⟨_, junk', hraw, hcap', fun hfalse => ?_⟩
  rw [hsame (ne_of_beq_false hfalse)]
  exact ⟨rfl, rfl⟩

/-- What is cut out of the buffer is cut out of the text. -/
theorem comes_cut (hcap : (inp.buf ++ 0 :: junk).length = inp.cap) {a b : Nat} (hab : a ≤ b)
    (hb : b ≤ inp.buf.length) :
    Comes (rawCut (rawOf inp junk) a b) inp (inp.cut a b hab hb) := by
  have hfront : (inp.buf.take a).length = a := List.length_take_of_le (hab.trans hb)
  have hgone : ((inp.buf.take b).drop a).length = b - a := by
    rw [List.length_drop, List.length_take_of_le hb]
  have hback : (inp.buf.drop b).length = inp.buf.length - b := List.length_drop
  have hbefore : inp.buf.take a ++ (inp.buf.take b).drop a = inp.buf.take b := by
    have hshort : (inp.buf.take b).take a = inp.buf.take a := by
      rw [List.take_take, Nat.min_eq_left hab]
    rw [← hshort, List.take_append_drop]
  obtain ⟨junk', hmove, hlength⟩ :=
    @exists_cut (inp.buf.take a) ((inp.buf.take b).drop a) (inp.buf.drop b) junk
  rw [hbefore, List.take_append_drop, hfront, hback, List.length_take_of_le hb] at hmove
  rw [hbefore, List.take_append_drop] at hlength
  have hnew : inp.buf.length - (b - a) = (inp.buf.take a ++ inp.buf.drop b).length := by
    simp only [List.length_append, hfront, hback]
    omega
  refine ⟨true, junk', ?_, hlength.trans hcap, fun hfalse => absurd hfalse (by decide)⟩
  rw [rawCut, mem_rawOf,
    len_rawOf, hmove, hnew]
  rfl

theorem comes_backspace (hcap : (inp.buf ++ 0 :: junk).length = inp.cap) :
    Comes (rawBackspace (rawOf inp junk)) inp (tuiInputBackspace inp).2 := by
  rw [rawBackspace, tuiInputBackspace, text_rawOf, cursor_rawOf]
  by_cases hzero : inp.cursor = 0
  · rw [if_pos hzero, if_pos hzero]
    exact comes_self hcap true
  · rw [if_neg hzero, if_neg hzero]
    exact comes_cut hcap (cursorLeftCp_le _ _) inp.cursor_le

theorem comes_delete (hcap : (inp.buf ++ 0 :: junk).length = inp.cap) :
    Comes (rawDelete (rawOf inp junk)) inp (tuiInputDelete inp).2 := by
  rw [rawDelete, tuiInputDelete, text_rawOf, len_rawOf, cursor_rawOf]
  by_cases hend : inp.buf.length ≤ inp.cursor
  · rw [if_pos hend, if_pos hend]
    exact comes_self hcap true
  · rw [if_neg hend, if_neg hend]
    exact comes_cut hcap (cursorRightCp_bounds inp.cursor_le).1
      (cursorRightCp_bounds inp.cursor_le).2

theorem comes_deleteWord (hcap : (inp.buf ++ 0 :: junk).length = inp.cap) :
    Comes (rawDeleteWord (rawOf inp junk)) inp (tuiInputDeleteWord inp).2 := by
  rw [rawDeleteWord, tuiInputDeleteWord, text_rawOf, cursor_rawOf]
  split
  · exact comes_self hcap true
  · exact comes_cut hcap ((leftWhile_le _ _ _).trans (leftWhile_le _ _ _)) inp.cursor_le

/-- The steps of the cursor. -/
theorem rawMove_rawOf (steps : Int) :
    rawMove (rawOf inp junk) steps = rawOf (tuiInputMove inp steps) junk := by
  have hone (right : Bool) (inp : TuiInput) :
      rawMoveOne right (rawOf inp junk) = rawOf (moveOne right inp) junk := by
    rw [rawMoveOne, text_rawOf]
    cases right <;> rfl
  rw [rawMove, tuiInputMove]
  induction steps.natAbs with
  | zero => rfl
  | succ n ih => rw [Function.iterate_succ_apply', Function.iterate_succ_apply', ih, hone]

/-- The cursor moves in the text alone. -/
theorem move_fields (steps : Int) :
    (tuiInputMove inp steps).buf = inp.buf ∧ (tuiInputMove inp steps).cap = inp.cap := by
  rw [tuiInputMove]
  induction steps.natAbs with
  | zero => exact ⟨rfl, rfl⟩
  | succ n ih =>
    rw [Function.iterate_succ_apply', moveOne]
    split <;> exact ih

theorem exists_clear (hcap : (inp.buf ++ 0 :: junk).length = inp.cap) :
    ∃ junk', rawClear (rawOf inp junk) = some (rawOf (tuiInputClear inp) junk') ∧
      ((tuiInputClear inp).buf ++ 0 :: junk').length = (tuiInputClear inp).cap := by
  obtain ⟨first, rest, hsplit⟩ : ∃ first rest, inp.buf ++ 0 :: junk = [first] ++ rest := by
    cases hbuf : inp.buf with
    | nil => exact ⟨0, junk, rfl⟩
    | cons c buf => exact ⟨c, buf ++ 0 :: junk, rfl⟩
  have hwrite := @writeAt_append [] [first] rest [0] rfl
  refine ⟨rest, ?_, ?_⟩
  · rw [rawClear, show (rawOf inp junk).mem = [] ++ [first] ++ rest from hsplit]
    rw [show (0 : Nat) = ([] : List UInt8).length from rfl, hwrite]
    rfl
  · rw [show (tuiInputClear inp).cap = inp.cap from rfl, ← hcap, hsplit]
    rfl

/-- A text is set as the editor says, or nothing changes. -/
theorem exists_setText (hcap : (inp.buf ++ 0 :: junk).length = inp.cap)
    (text : Option (List UInt8)) :
    ∃ junk', rawSetText fail (rawOf inp junk) text =
        some ((tuiInputSetText fail inp text).1 == 0, rawOf (tuiInputSetText fail inp text).2 junk') ∧
      ((tuiInputSetText fail inp text).2.buf ++ 0 :: junk').length =
        (tuiInputSetText fail inp text).2.cap ∧
      ((tuiInputSetText fail inp text).1 ≠ 0 → (tuiInputSetText fail inp text).2 = inp) := by
  rw [rawSetText, tuiInputSetText]
  dsimp only
  set t := text.getD []
  rcases rawGrow_rawOf hcap (fail .growth) (t.length + 1) (Nat.zero_lt_of_lt inp.fits) with
    ⟨hgrow, hraw⟩ | ⟨cap, hle, hgrow, junk', hraw, hcap'⟩
  · rw [hgrow, hraw]
    exact ⟨junk, rfl, hcap, fun _ => rfl⟩
  · rw [hgrow, hraw]
    -- the text and its NUL stand in front of what is left of the buffer
    obtain ⟨old, last, rest, hsplit, hold⟩ : ∃ old last rest,
        inp.buf ++ 0 :: junk' = old ++ [last] ++ rest ∧ old.length = t.length := by
      have hlong : t.length < (inp.buf ++ 0 :: junk').length := by
        rw [hcap']
        exact hle.2
      refine ⟨(inp.buf ++ 0 :: junk').take t.length, (inp.buf ++ 0 :: junk')[t.length],
        (inp.buf ++ 0 :: junk').drop (t.length + 1), ?_, List.length_take_of_le hlong.le⟩
      rw [← List.take_succ_eq_append_getElem hlong, List.take_append_drop]
    have hfirst := @writeAt_append [] old ([last] ++ rest) t hold
    have hsecond := @writeAt_append t [last] rest [0] rfl
    rw [List.nil_append, List.nil_append, List.length_nil, ← List.append_assoc,
      ← List.append_assoc, ← hsplit] at hfirst
    refine ⟨rest, ?_, ?_, fun hne => absurd rfl hne⟩
    · show ((writeAt (inp.buf ++ 0 :: junk') 0 t).bind fun mem => (writeAt mem t.length [0]).bind
        fun mem => some (true, { rawOf inp junk' with
          mem, len := t.length, cursor := t.length })) = _
      rw [hfirst, Option.bind_some, hsecond, List.append_assoc]
      rfl
    · show (t ++ 0 :: rest).length = cap
      rw [← hcap', hsplit]
      simp only [List.length_append, List.length_cons, List.length_nil, hold]
      omega

theorem comes_setText (hcap : (inp.buf ++ 0 :: junk).length = inp.cap)
    (text : Option (List UInt8)) :
    Comes (rawSetText fail (rawOf inp junk) text) inp (tuiInputSetText fail inp text).2 := by
  obtain ⟨junk', hraw, hcap', hsame⟩ := @exists_setText fail inp junk hcap text
  refine ⟨_, junk', hraw, hcap', fun hfalse => ?_⟩
  rw [hsame (ne_of_beq_false hfalse)]
  exact ⟨rfl, rfl⟩

theorem showEntry_eq (entry : Option (List UInt8)) :
    showEntry fail inp entry =
      (if (tuiInputSetText fail inp entry).1 ≠ 0 then none
        else some (tuiInputSetText fail inp entry).2.buf,
      (tuiInputSetText fail inp entry).2) := by
  rw [showEntry]
  split
  next rc inp' heq =>
    rw [heq]
    split <;> rfl

theorem comes_historyBack (hcap : (inp.buf ++ 0 :: junk).length = inp.cap) (hnul : 0 ∉ inp.buf) :
    Comes (rawHistoryBack fail (rawOf inp junk)) inp (tuiInputHistoryBack fail inp).2 := by
  rw [rawHistoryBack, tuiInputHistoryBack, cString_rawOf hnul, history_rawOf, walking_rawOf,
    historyWalk_rawOf]
  by_cases hcount : inp.history.count = 0
  · rw [if_pos hcount, if_pos hcount]
    exact comes_self hcap false
  rw [if_neg hcount, if_neg hcount]
  by_cases hwalking : ¬inp.walking = true
  · rw [if_pos hwalking, if_pos hwalking, showEntry_eq]
    exact @comes_setText fail { inp with
      draft := copied (fail .draft) inp.buf, walking := true, historyWalk := 0 } junk hcap _
  rw [if_neg hwalking, if_neg hwalking]
  by_cases holdest : inp.history.count - 1 ≤ inp.historyWalk
  · rw [if_pos holdest, if_pos holdest]
    exact comes_self hcap false
  · rw [if_neg holdest, if_neg holdest, showEntry_eq]
    exact @comes_setText fail { inp with historyWalk := inp.historyWalk + 1 } junk hcap _

theorem comes_historyForward (hcap : (inp.buf ++ 0 :: junk).length = inp.cap) :
    Comes (rawHistoryForward fail (rawOf inp junk)) inp (tuiInputHistoryForward fail inp).2 := by
  rw [rawHistoryForward, tuiInputHistoryForward, walking_rawOf, historyWalk_rawOf, draft_rawOf]
  by_cases hwalking : ¬inp.walking = true
  · rw [if_pos hwalking, if_pos hwalking]
    exact comes_self hcap false
  rw [if_neg hwalking, if_neg hwalking]
  by_cases hlast : inp.historyWalk = 0
  · obtain ⟨junk', hraw, hcap', hsame⟩ := @exists_setText fail inp junk hcap inp.draft
    rw [if_pos hlast, if_pos hlast, hraw, showEntry_eq, Option.map_some]
    by_cases hok : (tuiInputSetText fail inp inp.draft).1 = 0
    · simp only [hok, ne_eq, not_true_eq_false, if_false, beq_self_eq_true, if_true,
        reduceCtorEq]
      exact ⟨true, junk', rfl, hcap', fun hfalse => absurd hfalse (by decide)⟩
    · simp only [hok, ne_eq, not_false_eq_true, if_true, beq_false_of_ne hok, Bool.false_eq_true,
        if_false]
      refine ⟨false, junk', rfl, hcap', fun _ => ?_⟩
      rw [hsame hok]
      exact ⟨rfl, rfl⟩
  · rw [if_neg hlast, if_neg hlast, showEntry_eq]
    exact @comes_setText fail { inp with historyWalk := inp.historyWalk - 1 } junk hcap _

/-- A submission reads an entry that was lost, or comes to the editor behind it. -/
theorem comes_submit (hcap : (inp.buf ++ 0 :: junk).length = inp.cap) (hnul : 0 ∉ inp.buf) :
    match tuiInputSubmit fail inp with
    | none => rawSubmit fail (rawOf inp junk) = none
    | some (_, inp') => Comes (rawSubmit fail (rawOf inp junk)) inp inp' := by
  rw [rawSubmit, tuiInputSubmit, cString_rawOf hnul, len_rawOf, history_rawOf]
  by_cases hnil : inp.buf = []
  · rw [if_pos hnil, if_pos (List.length_eq_zero_iff.2 hnil)]
    exact comes_self hcap false
  rw [if_neg hnil, if_neg fun hzero => hnil (List.length_eq_zero_iff.1 hzero)]
  by_cases hout : fail .out = true
  · rw [if_pos hout, if_pos hout]
    exact comes_self hcap false
  rw [if_neg hout, if_neg hout]
  cases hpush : historyPush (fail .entry) inp.history inp.buf with
  | none => rfl
  | some history =>
    obtain ⟨junk', hclear, hcap'⟩ := exists_clear hcap
    refine ⟨true, junk', ?_, hcap', fun hfalse => absurd hfalse (by decide)⟩
    simp only [Option.bind_eq_bind, Option.bind_some, hclear]
    rfl

/-- **The buffer holds what the editor has** after every operation. -/
theorem comes_step (hcap : (inp.buf ++ 0 :: junk).length = inp.cap) (hnul : 0 ∉ inp.buf) (op : Op) :
    match stepOn inp op with
    | none => rawStep (rawOf inp junk) op = none
    | some inp' => Comes (rawStep (rawOf inp junk) op) inp inp' := by
  obtain ⟨act, fail⟩ := op
  cases act with
  | insert text => exact comes_insert hcap text
  | backspace => exact comes_backspace hcap
  | delete => exact comes_delete hcap
  | move steps =>
    obtain ⟨hbuf, hsame⟩ := @move_fields inp steps
    refine ⟨true, junk, congrArg (fun raw => some (true, raw)) (rawMove_rawOf steps), ?_,
      fun hfalse => absurd hfalse (by decide)⟩
    rw [hbuf, hsame]
    exact hcap
  | home => exact ⟨true, junk, rfl, hcap, fun hfalse => absurd hfalse (by decide)⟩
  | toEnd => exact ⟨true, junk, rfl, hcap, fun hfalse => absurd hfalse (by decide)⟩
  | clear =>
    obtain ⟨junk', hclear, hcap'⟩ := exists_clear hcap
    refine ⟨true, junk', ?_, hcap', fun hfalse => absurd hfalse (by decide)⟩
    rw [rawStep]
    dsimp only
    rw [hclear, Option.map_some]
  | deleteWord => exact comes_deleteWord hcap
  | setText text => exact comes_setText hcap text
  | submit =>
    have hsubmit := @comes_submit fail inp junk hcap hnul
    rw [stepOn]
    dsimp only
    cases hs : tuiInputSubmit fail inp with
    | none =>
      rw [hs] at hsubmit
      exact hsubmit
    | some shown =>
      rw [hs] at hsubmit
      exact hsubmit
  | historyBack => exact comes_historyBack hcap hnul
  | historyForward => exact comes_historyForward hcap
  | resetHistoryWalk => exact ⟨true, junk, rfl, hcap, fun hfalse => absurd hfalse (by decide)⟩

end Operations

/-! ## Codepoints -/

theorem isContinuation_iff (c : UInt8) : isContinuation c = true ↔ Utf8Tail c := by
  have hbytes : ∀ n < 256, isContinuation (UInt8.ofNat n) = true ↔ Utf8Tail (UInt8.ofNat n) := by
    decide +kernel
  rw [← UInt8.ofNat_toNat (x := c)]
  exact hbytes _ c.toNat_lt

section Boundaries

variable {buf : List UInt8} {i pos : Nat}

/-- The loop to the left ends at the front or at a byte that begins a codepoint. -/
theorem leftFrom_stops (buf : List UInt8) (i : Nat) :
    leftFrom buf i = 0 ∨ (buf[leftFrom buf i]?).any isContinuation = false := by
  induction i with
  | zero => exact .inl rfl
  | succ i ih =>
    rw [leftFrom]
    split
    · exact ih
    · next h => exact .inr (Bool.eq_false_iff.2 h)

theorem rightFrom_stops (buf : List UInt8) (i : Nat) :
    buf.length ≤ rightFrom buf i ∨ (buf[rightFrom buf i]?).any isContinuation = false := by
  fun_induction rightFrom buf i with
  | case1 i hgo ih => exact ih
  | case2 i hstop =>
    rcases Nat.lt_or_ge i buf.length with hlt | hge
    · exact .inr (Bool.eq_false_iff.2 fun hany => hstop ⟨hlt, hany⟩)
    · exact .inl hge

/-- A place in front of a byte that begins a codepoint. -/
theorem utf8_take_of_any (h : Utf8 buf) (hany : (buf[i]?).any isContinuation = false) :
    Utf8 (buf.take i) := by
  refine h.take fun b hb htail => ?_
  rw [hb, Option.any_some, (isContinuation_iff b).2 htail] at hany
  exact absurd hany (by decide)

theorem utf8_take_cursorLeftCp (h : Utf8 buf) (cursor : Nat) :
    Utf8 (buf.take (cursorLeftCp buf cursor)) := by
  rw [cursorLeftCp]
  split
  · next hzero =>
    rw [hzero, List.take_zero]
    exact .nil
  · rcases leftFrom_stops buf (cursor - 1) with hzero | hstop
    · rw [hzero, List.take_zero]
      exact .nil
    · exact utf8_take_of_any h hstop

theorem utf8_take_cursorRightCp (h : Utf8 buf) (cursor : Nat) :
    Utf8 (buf.take (cursorRightCp buf cursor)) := by
  rw [cursorRightCp]
  split
  · next hend =>
    rw [List.take_of_length_le hend]
    exact h
  · rcases rightFrom_stops buf (cursor + 1) with hend | hstop
    · rw [List.take_of_length_le hend]
      exact h
    · exact utf8_take_of_any h hstop

/-- The loops of `tui_input_delete_word` end at the front or behind a byte that is not passed. -/
theorem leftWhile_stops (p : UInt8 → Bool) (buf : List UInt8) (pos : Nat) :
    leftWhile p buf pos = 0 ∨ (buf[leftWhile p buf pos - 1]?).any p = false := by
  induction pos with
  | zero => exact .inl rfl
  | succ pos ih =>
    rw [leftWhile]
    split
    · exact ih
    · next h => exact .inr (Bool.eq_false_iff.2 h)

/-- The place in front of a word. -/
theorem utf8_take_leftWhile (h : Utf8 buf) (hpos : pos ≤ buf.length) :
    Utf8 (buf.take (leftWhile (fun c => !isSpaceOrBoundary c) buf pos)) := by
  have hle := (leftWhile_le (fun c => !isSpaceOrBoundary c) buf pos).trans hpos
  rcases leftWhile_stops (fun c => !isSpaceOrBoundary c) buf pos with hzero | hstop
  · rw [hzero, List.take_zero]
    exact .nil
  · generalize leftWhile (fun c => !isSpaceOrBoundary c) buf pos = place at hle hstop
    cases place with
    | zero => exact .nil
    | succ place =>
      rw [Nat.add_sub_cancel, List.getElem?_eq_getElem hle, Option.any_some,
        Bool.not_eq_false'] at hstop
      have hspace : buf[place] < 0x80 := by
        rw [isSpaceOrBoundary, Bool.or_eq_true, decide_eq_true_eq, decide_eq_true_eq] at hstop
        rcases hstop with heq | heq <;> rw [heq] <;> decide
      have hsplit : buf = buf.take place ++ buf[place] :: buf.drop (place + 1) := by
        rw [List.getElem_cons_drop, List.take_append_drop]
      rw [hsplit, utf8_append_cons_iff hspace] at h
      rw [List.take_succ_eq_append_getElem hle]
      exact h.1.append (utf8_singleton hspace)

end Boundaries

/-- A text of C that is valid. -/
def Text (text : List UInt8) : Prop := Utf8 text ∧ 0 ∉ text

section Texts

variable {text rest : List UInt8}

theorem normalizeEols_cons {c : UInt8} (h : c ≠ 13) :
    normalizeEols (c :: rest) = c :: normalizeEols rest := by
  rw [normalizeEols.eq_3 _ _ (fun _ hc _ => h hc), if_neg h]

theorem normalizeEols_append {cs : List UInt8} (h : 13 ∉ cs) :
    normalizeEols (cs ++ rest) = cs ++ normalizeEols rest := by
  induction cs with
  | nil => rfl
  | cons c cs ih =>
    have hc : c ≠ 13 := fun heq => h (heq ▸ List.mem_cons_self)
    have hcs : 13 ∉ cs := fun hmem => h (List.mem_cons_of_mem c hmem)
    rw [List.cons_append, normalizeEols_cons hc, ih hcs, List.cons_append]

/-- Line ends become newlines, and the text stays a text. -/
theorem utf8_normalizeEols (h : Utf8 text) : Utf8 (normalizeEols text) := by
  induction h with
  | nil => exact .nil
  | @cons cs rest hc hrest ih =>
    by_cases hreturn : 13 ∈ cs
    · obtain rfl := hc.eq_of_mem (by decide) hreturn
      rw [List.singleton_append]
      by_cases hpair : ∃ rest', rest = 10 :: rest'
      · obtain ⟨rest', rfl⟩ := hpair
        rw [normalizeEols_cons (by decide)] at ih
        rw [normalizeEols.eq_2]
        exact ih
      · rw [normalizeEols.eq_3 _ _ fun rest' _ heq => hpair ⟨rest', heq⟩, if_pos rfl]
        exact (utf8_singleton (by decide)).append ih
    · rw [normalizeEols_append hreturn]
      exact .cons hc ih

theorem mem_normalizeEols {c : UInt8} (h : c ∈ normalizeEols text) : c ∈ text ∨ c = 10 := by
  fun_induction normalizeEols text with
  | case1 => exact .inl h
  | case2 rest ih =>
    rcases List.mem_cons.1 h with heq | hmem
    · exact .inr heq
    · exact (ih hmem).imp_left fun hrest => List.mem_cons_of_mem _ (List.mem_cons_of_mem _ hrest)
  | case3 d rest _ ih =>
    rcases List.mem_cons.1 h with heq | hmem
    · split at heq
      · exact .inr heq
      · exact .inl (heq ▸ List.mem_cons_self)
    · exact (ih hmem).imp_left (List.mem_cons_of_mem _)

theorem Text.normalizeEols (h : Text text) : Text (normalizeEols text) := by
  refine ⟨utf8_normalizeEols h.1, fun hmem => ?_⟩
  rcases mem_normalizeEols hmem with hmem | hzero
  · exact h.2 hmem
  · exact absurd hzero (by decide)

end Texts

/-! ## Valid texts -/

/-- The texts are valid, and the cursor stands between codepoints. -/
structure Sound (inp : TuiInput) : Prop where
  text : Text inp.buf
  cursor : Utf8 (inp.buf.take inp.cursor)
  entries : ∀ entry ∈ inp.history.slots, ∀ text ∈ entry, Text text
  draft : ∀ text ∈ inp.draft, Text text

/-- The texts that an operation is given are valid. -/
def ValidOp (op : Op) : Prop :=
  match op.act with
  | .insert text => Text text
  | .setText text => ∀ t ∈ text, Text t
  | _ => True

theorem text_nil : Text [] := ⟨.nil, by simp⟩

namespace Sound

variable {inp : TuiInput} {fail : Faults AllocSite}

theorem insert (h : Sound inp) {text : List UInt8} (htext : Text text) :
    Sound (tuiInputInsert fail inp text).2 := by
  rw [tuiInputInsert]
  split
  · exact h
  split
  · exact h
  dsimp only
  split
  · exact h
  · have ht : Text (if 13 ∈ text then normalizeEols text else text) := by
      split
      · exact htext.normalizeEols
      · exact htext
    have hback : Utf8 (inp.buf.drop inp.cursor) := by
      rw [← h.cursor.append_iff, List.take_append_drop]
      exact h.text.1
    refine ⟨⟨(h.cursor.append ht.1).append hback, ?_⟩, ?_, h.entries, h.draft⟩
    · simp only [List.mem_append, not_or]
      exact ⟨⟨fun hmem => h.text.2 (List.mem_of_mem_take hmem), ht.2⟩,
        fun hmem => h.text.2 (List.mem_of_mem_drop hmem)⟩
    · have hlength : inp.cursor + (if 13 ∈ text then normalizeEols text else text).length =
          (inp.buf.take inp.cursor ++ if 13 ∈ text then normalizeEols text else text).length := by
        rw [List.length_append, List.length_take_of_le inp.cursor_le]
      dsimp only
      rw [hlength, List.take_left]
      exact h.cursor.append ht.1

theorem cut (h : Sound inp) {a b : Nat} (hab : a ≤ b) (hb : b ≤ inp.buf.length)
    (ha : Utf8 (inp.buf.take a)) (hb' : Utf8 (inp.buf.take b)) : Sound (inp.cut a b hab hb) := by
  have hback : Utf8 (inp.buf.drop b) := by
    rw [← hb'.append_iff, List.take_append_drop]
    exact h.text.1
  refine ⟨⟨ha.append hback, ?_⟩, ?_, h.entries, h.draft⟩
  · simp only [TuiInput.cut, List.mem_append, not_or]
    exact ⟨fun hmem => h.text.2 (List.mem_of_mem_take hmem),
      fun hmem => h.text.2 (List.mem_of_mem_drop hmem)⟩
  · have hlength : (inp.buf.take a).length = a := List.length_take_of_le (hab.trans hb)
    have htake : (inp.buf.take a ++ inp.buf.drop b).take a = inp.buf.take a := by
      rw [List.take_append_of_le_length hlength.ge, List.take_take, Nat.min_self]
    show Utf8 ((inp.buf.take a ++ inp.buf.drop b).take a)
    rw [htake]
    exact ha

theorem seek (h : Sound inp) {cursor : Nat} (hle : cursor ≤ inp.buf.length)
    (hcursor : Utf8 (inp.buf.take cursor)) : Sound (inp.seek cursor hle) :=
  ⟨h.text, hcursor, h.entries, h.draft⟩

theorem backspace (h : Sound inp) : Sound (tuiInputBackspace inp).2 := by
  rw [tuiInputBackspace]
  split
  · exact h
  · exact h.cut (cursorLeftCp_le _ _) inp.cursor_le (utf8_take_cursorLeftCp h.text.1 _) h.cursor

theorem delete (h : Sound inp) : Sound (tuiInputDelete inp).2 := by
  rw [tuiInputDelete]
  split
  · exact h
  · exact h.cut (cursorRightCp_bounds inp.cursor_le).1 (cursorRightCp_bounds inp.cursor_le).2
      h.cursor (utf8_take_cursorRightCp h.text.1 _)

theorem deleteWord (h : Sound inp) : Sound (tuiInputDeleteWord inp).2 := by
  rw [tuiInputDeleteWord]
  split
  · exact h
  · exact h.cut ((leftWhile_le _ _ _).trans (leftWhile_le _ _ _)) inp.cursor_le
      (utf8_take_leftWhile h.text.1 ((leftWhile_le _ _ _).trans inp.cursor_le)) h.cursor

theorem move (h : Sound inp) (steps : Int) : Sound (tuiInputMove inp steps) := by
  rw [tuiInputMove]
  induction steps.natAbs with
  | zero => exact h
  | succ n ih =>
    rw [Function.iterate_succ_apply', moveOne]
    split
    · exact ih.seek _ (utf8_take_cursorRightCp ih.text.1 _)
    · exact ih.seek _ (utf8_take_cursorLeftCp ih.text.1 _)

theorem clear (h : Sound inp) : Sound (tuiInputClear inp) :=
  ⟨text_nil, .nil, h.entries, h.draft⟩

theorem setText (h : Sound inp) {text : Option (List UInt8)} (htext : ∀ t ∈ text, Text t) :
    Sound (tuiInputSetText fail inp text).2 := by
  have ht : Text (text.getD []) := by
    cases text with
    | none => exact text_nil
    | some t => exact htext t rfl
  rw [tuiInputSetText]
  split
  · exact h
  · refine ⟨ht, ?_, h.entries, h.draft⟩
    dsimp only
    rw [List.take_length]
    exact ht.1

/-- A further entry of the history. -/
theorem historyPush (h : Sound inp) {fails : Bool} {history : Ring (Option (List UInt8))}
    (hpush : Prompt.historyPush fails inp.history inp.buf = some history) :
    ∀ entry ∈ history.slots, ∀ text ∈ entry, Text text := by
  have hremember (hne : inp.history.slots ≠ []) :
      ∀ entry ∈ (inp.history.remember (copied fails inp.buf) hne).slots, ∀ text ∈ entry,
        Text text := by
    intro entry hentry text htext
    have hset : entry ∈ inp.history.slots ∨ entry = copied fails inp.buf := by
      rw [Ring.remember] at hentry
      split at hentry <;> exact List.mem_or_eq_of_mem_set hentry
    rcases hset with hentry | rfl
    · exact h.entries entry hentry text htext
    · rw [copied] at htext
      split at htext
      · exact absurd htext (by simp)
      · rw [← Option.some.inj htext]
        exact h.text
  unfold Prompt.historyPush at hpush
  split at hpush
  · rw [← Option.some.inj hpush]
    exact h.entries
  · next hne =>
    split at hpush
    · exact absurd hpush (by simp)
    · split at hpush
      · rw [← Option.some.inj hpush]
        exact h.entries
      · rw [← Option.some.inj hpush]
        exact hremember hne
    · rw [← Option.some.inj hpush]
      exact hremember hne

theorem copied_text (h : Sound inp) {fails : Bool} : ∀ text ∈ copied fails inp.buf, Text text := by
  intro text htext
  rw [copied] at htext
  split at htext
  · exact absurd htext (by simp)
  · rw [← Option.some.inj htext]
    exact h.text

theorem walked_text (h : Sound inp) : ∀ text ∈ Prompt.walked inp, Text text := by
  intro text htext
  rw [Prompt.walked, Option.mem_def, Option.join_eq_some_iff] at htext
  exact h.entries _ (List.mem_of_getElem? htext) text rfl

theorem submit (h : Sound inp) {shown : Option (List UInt8) × TuiInput}
    (hsubmit : tuiInputSubmit fail inp = some shown) : Sound shown.2 := by
  rw [tuiInputSubmit] at hsubmit
  split at hsubmit
  · rw [← Option.some.inj hsubmit]
    exact h
  split at hsubmit
  · rw [← Option.some.inj hsubmit]
    exact h
  split at hsubmit
  · exact absurd hsubmit (by simp)
  · next history hpush =>
    rw [← Option.some.inj hsubmit]
    exact ⟨text_nil, .nil, h.historyPush hpush, by simp⟩

theorem historyBack (h : Sound inp) : Sound (tuiInputHistoryBack fail inp).2 := by
  rw [tuiInputHistoryBack]
  split
  · exact h
  split
  · rw [showEntry_eq]
    have hwalking : Sound { inp with
        draft := copied (fail .draft) inp.buf, walking := true, historyWalk := 0 } :=
      ⟨h.text, h.cursor, h.entries, h.copied_text⟩
    exact hwalking.setText hwalking.walked_text
  split
  · exact h
  · rw [showEntry_eq]
    have hwalking : Sound { inp with historyWalk := inp.historyWalk + 1 } :=
      ⟨h.text, h.cursor, h.entries, h.draft⟩
    exact hwalking.setText hwalking.walked_text

theorem historyForward (h : Sound inp) : Sound (tuiInputHistoryForward fail inp).2 := by
  rw [tuiInputHistoryForward]
  split
  · exact h
  split
  · have hset : Sound (tuiInputSetText fail inp inp.draft).2 := h.setText h.draft
    rw [showEntry_eq]
    dsimp only
    split
    · exact hset
    · exact ⟨hset.text, hset.cursor, hset.entries, hset.draft⟩
  · rw [showEntry_eq]
    have hwalking : Sound { inp with historyWalk := inp.historyWalk - 1 } :=
      ⟨h.text, h.cursor, h.entries, h.draft⟩
    exact hwalking.setText hwalking.walked_text

/-- **Every operation** keeps the texts valid and the cursor between codepoints. -/
theorem step (h : Sound inp) {op : Op} (hop : ValidOp op) {inp' : TuiInput}
    (hstep : stepOn inp op = some inp') : Sound inp' := by
  obtain ⟨act, fail⟩ := op
  cases act with
  | submit =>
    obtain ⟨shown, hshown, rfl⟩ := Option.map_eq_some_iff.1 hstep
    exact h.submit hshown
  | insert text => exact Option.some.inj hstep ▸ h.insert hop
  | backspace => exact Option.some.inj hstep ▸ h.backspace
  | delete => exact Option.some.inj hstep ▸ h.delete
  | move steps => exact Option.some.inj hstep ▸ h.move steps
  | home => exact Option.some.inj hstep ▸ h.seek (Nat.zero_le _) .nil
  | toEnd =>
    refine Option.some.inj hstep ▸ h.seek (Nat.le_refl _) ?_
    rw [List.take_length]
    exact h.text.1
  | clear => exact Option.some.inj hstep ▸ h.clear
  | deleteWord => exact Option.some.inj hstep ▸ h.deleteWord
  | setText text => exact Option.some.inj hstep ▸ h.setText hop
  | historyBack => exact Option.some.inj hstep ▸ h.historyBack
  | historyForward => exact Option.some.inj hstep ▸ h.historyForward
  | resetHistoryWalk =>
    rw [← Option.some.inj hstep]
    exact ⟨h.text, h.cursor, h.entries, by simp [tuiInputResetHistoryWalk]⟩

/-! ## A codepoint that is put in and taken out -/

/-- The cursor steps over the bytes that continue a codepoint to the byte in front of them. -/
theorem leftFrom_eq {front tail back : List UInt8} {a : UInt8} (ha : isContinuation a = false)
    (htail : ∀ b ∈ tail, isContinuation b = true) {k : Nat} (hk : k ≤ tail.length) :
    leftFrom (front ++ (a :: tail) ++ back) (front.length + k) = front.length := by
  induction k with
  | zero =>
    cases hfront : front.length with
    | zero => rfl
    | succ n =>
      have hget : (front ++ (a :: tail) ++ back)[n + 1]? = some a := by
        rw [← hfront, List.append_assoc, List.getElem?_append_right (Nat.le_refl _), Nat.sub_self]
        rfl
      rw [Nat.add_zero, leftFrom, hget, Option.any_some, ha, if_neg Bool.false_ne_true]
  | succ k ih =>
    have hget : (front ++ (a :: tail) ++ back)[front.length + k + 1]? = some tail[k] := by
      rw [List.append_assoc, Nat.add_assoc, List.getElem?_append_right (Nat.le_add_right _ _),
        Nat.add_sub_cancel_left, List.cons_append, List.getElem?_cons_succ,
        List.getElem?_append_left hk, List.getElem?_eq_getElem hk]
    rw [← Nat.add_assoc, leftFrom, hget, Option.any_some, htail _ (List.getElem_mem hk), if_pos rfl]
    exact ih (Nat.le_of_succ_le hk)

/-- What is put in stands in front of the cursor. -/
theorem insert_fields {text : List UInt8} (hne : text ≠ [])
    (h : (tuiInputInsert fail inp text).1 = 0) :
    (tuiInputInsert fail inp text).2.buf = inp.buf.take inp.cursor ++
        (if 13 ∈ text then normalizeEols text else text) ++ inp.buf.drop inp.cursor ∧
      (tuiInputInsert fail inp text).2.cursor =
        inp.cursor + (if 13 ∈ text then normalizeEols text else text).length := by
  rw [tuiInputInsert, if_neg hne] at h ⊢
  have hminus : ¬(-1 : Int) = 0 := by decide
  split at h
  · exact absurd h hminus
  · next hnorm =>
    rw [if_neg hnorm]
    dsimp only at h ⊢
    split at h
    · exact absurd h hminus
    · exact ⟨rfl, rfl⟩

/-- **Backspace takes out** the codepoint that was put in. -/
theorem backspace_insert {cs : List UInt8} (hc : Utf8Char cs)
    (h : (tuiInputInsert fail inp cs).1 = 0) :
    (tuiInputBackspace (tuiInputInsert fail inp cs).2).2.buf = inp.buf ∧
      (tuiInputBackspace (tuiInputInsert fail inp cs).2).2.cursor = inp.cursor := by
  have hne : cs ≠ [] := by
    obtain ⟨a, tail, rfl, -⟩ := hc.exists_cons
    exact List.cons_ne_nil a tail
  have ht : Utf8Char (if 13 ∈ cs then normalizeEols cs else cs) := by
    split
    · next hreturn =>
      rw [hc.eq_of_mem (by decide) hreturn]
      exact .one (by decide)
    · exact hc
  obtain ⟨hbuf, hcursor⟩ := insert_fields hne h
  generalize (if 13 ∈ cs then normalizeEols cs else cs) = t at ht hbuf hcursor
  generalize (tuiInputInsert fail inp cs).2 = inp' at hbuf hcursor
  obtain ⟨a, tail, rfl, hlead, -, htail⟩ := ht.exists_cons
  have hfront : (inp.buf.take inp.cursor).length = inp.cursor :=
    List.length_take_of_le inp.cursor_le
  have hlead' : isContinuation a = false :=
    Bool.eq_false_iff.2 fun hcont => hlead ((isContinuation_iff a).1 hcont)
  have hleft : cursorLeftCp inp'.buf inp'.cursor = inp.cursor := by
    have hfrom := @leftFrom_eq (inp.buf.take inp.cursor) tail (inp.buf.drop inp.cursor) a hlead'
      (fun b hb => (isContinuation_iff b).2 (htail b hb)) tail.length (Nat.le_refl _)
    rw [hfront] at hfrom
    rw [cursorLeftCp, if_neg (by rw [hcursor, List.length_cons]; omega), hbuf, hcursor,
      List.length_cons]
    exact hfrom
  rw [tuiInputBackspace, if_neg (by rw [hcursor, List.length_cons]; omega)]
  refine ⟨?_, hleft⟩
  show inp'.buf.take (cursorLeftCp inp'.buf inp'.cursor) ++ inp'.buf.drop inp'.cursor = inp.buf
  have htake : inp'.buf.take inp.cursor = inp.buf.take inp.cursor := by
    rw [hbuf, List.append_assoc, List.take_append_of_le_length hfront.ge, List.take_take,
      Nat.min_self]
  have hdrop : inp'.buf.drop inp'.cursor = inp.buf.drop inp.cursor := by
    have hlength : inp'.cursor = (inp.buf.take inp.cursor ++ a :: tail).length := by
      rw [hcursor, List.length_append, hfront]
    rw [hlength, hbuf, List.drop_left]
  rw [hleft, htake, hdrop, List.take_append_drop]

end Sound

/-! ## Runs -/

/-- An operation with valid texts. -/
abbrev EditOp := { op : Op // ValidOp op }

/-- The buffer holds a valid text of its length with a NUL behind it, and the cursor stands between
codepoints. -/
structure Valid (raw : RawInput) : Prop where
  text : Utf8 raw.text
  nul : raw.mem[raw.len]? = some 0
  whole : cString raw.mem = raw.text
  room : raw.len + 1 ≤ raw.mem.length
  cursor_le : raw.cursor ≤ raw.len
  cursor : Utf8 (raw.text.take raw.cursor)

/-- Behind a codepoint that is put in, backspace comes back to the text and the cursor. -/
def Undoes (raw : RawInput) : Prop :=
  ∀ fail cs raw', Utf8Char cs → cs ≠ [0] → rawInsert fail raw cs = some (true, raw') →
    ∃ ok raw'', rawBackspace raw' = some (ok, raw'') ∧ raw''.text = raw.text ∧
      raw''.cursor = raw.cursor

/-- The editor behind an operation; nothing is behind an access to something else. -/
def rawNext (s : Option RawInput) (op : EditOp) : Option RawInput :=
  s.bind fun raw => (rawStep raw op.1).map Prod.snd

/-- An operation comes to a valid state, and where it reports a failure text and cursor stay. -/
def Edits (s : Option RawInput) (op : EditOp) : Prop :=
  ∃ raw ok raw', s = some raw ∧ rawStep raw op.1 = some (ok, raw') ∧ Valid raw' ∧ Undoes raw' ∧
    (ok = false → raw'.text = raw.text ∧ raw'.cursor = raw.cursor)

/-- A submission does not compare its line with an entry whose copy was lost. -/
def Compares (s : Option RawInput) (op : EditOp) : Prop :=
  ∀ raw ∈ s, op.1.act = .submit → raw.len ≠ 0 → op.1.fail .out = false →
    raw.history.slots ≠ [] → newest raw.history ≠ some none

/-- The states of runs: an editor with valid texts, in a buffer of its size. -/
def Holding (s : Option RawInput) : Prop :=
  ∃ inp junk, s = some (rawOf inp junk) ∧ (inp.buf ++ 0 :: junk).length = inp.cap ∧ Sound inp

section Runs

variable {inp : TuiInput} {junk : List UInt8} {s : Option RawInput} {op : EditOp}

theorem Sound.valid (h : Sound inp) (junk : List UInt8) : Valid (rawOf inp junk) where
  text := by
    rw [text_rawOf]
    exact h.text.1
  nul := by
    rw [mem_rawOf, len_rawOf, List.getElem?_append_right (Nat.le_refl _), Nat.sub_self]
    rfl
  whole := by rw [cString_rawOf h.text.2, text_rawOf]
  room := by
    rw [mem_rawOf, len_rawOf, List.length_append, List.length_cons]
    omega
  cursor_le := inp.cursor_le
  cursor := by
    rw [text_rawOf, cursor_rawOf]
    exact h.cursor

theorem undoes_rawOf (hcap : (inp.buf ++ 0 :: junk).length = inp.cap) :
    Undoes (rawOf inp junk) := by
  intro fail cs raw' hc _ hraw
  obtain ⟨junk', hinsert, hcap', -⟩ := @exists_insertText fail inp junk hcap cs
  rw [hinsert] at hraw
  obtain ⟨hok, rfl⟩ := Prod.mk.inj (Option.some.inj hraw)
  obtain ⟨hbuf, hcursor⟩ := Sound.backspace_insert hc (eq_of_beq hok)
  obtain ⟨ok, junk'', hback, -, -⟩ := comes_backspace hcap'
  refine ⟨ok, _, hback, ?_, ?_⟩
  · rw [text_rawOf, text_rawOf, hbuf]
  · rw [cursor_rawOf, cursor_rawOf, hcursor]

/-- A line is put into the history unless it would be compared with a lost entry. -/
theorem historyPush_eq_none_iff (fails : Bool) (history : Ring (Option (List UInt8)))
    (line : List UInt8) :
    Prompt.historyPush fails history line = none ↔
      history.slots ≠ [] ∧ newest history = some none := by
  unfold Prompt.historyPush
  by_cases hslots : history.slots = []
  · rw [dif_pos hslots]
    exact iff_of_false (by simp) fun h => h.1 hslots
  rw [dif_neg hslots]
  rcases hnewest : newest history with _ | _ | last
  · exact iff_of_false (by simp) fun h => absurd h.2 (by simp)
  · exact iff_of_true rfl ⟨hslots, rfl⟩
  · refine iff_of_false ?_ fun h => absurd h.2 (by simp)
    dsimp only
    split <;> exact Option.some_ne_none _

/-- A step fails to be there only where a lost entry is read. -/
theorem stepOn_eq_none_iff {op : Op} :
    stepOn inp op = none ↔ op.act = .submit ∧ inp.buf ≠ [] ∧ op.fail .out = false ∧
      inp.history.slots ≠ [] ∧ newest inp.history = some none := by
  obtain ⟨act, fail⟩ := op
  by_cases hact : act = .submit
  · subst hact
    rw [stepOn]
    dsimp only
    rw [Option.map_eq_none_iff, tuiInputSubmit]
    by_cases hnil : inp.buf = []
    · rw [if_pos hnil]
      exact iff_of_false (by simp) fun h => h.2.1 hnil
    by_cases hout : fail .out = true
    · rw [if_neg hnil, if_pos hout]
      exact iff_of_false (by simp) fun h => absurd (hout.symm.trans h.2.2.1) (by decide)
    rw [if_neg hnil, if_neg hout]
    cases hpush : Prompt.historyPush (fail .entry) inp.history inp.buf with
    | none =>
      have hlost := (historyPush_eq_none_iff _ _ _).1 hpush
      exact iff_of_true rfl ⟨rfl, hnil, Bool.eq_false_iff.2 hout, hlost⟩
    | some history =>
      refine iff_of_false (Option.some_ne_none _) fun h => ?_
      have hlost := (historyPush_eq_none_iff (fail .entry) _ inp.buf).2 h.2.2.2
      exact absurd (hpush.symm.trans hlost) (Option.some_ne_none _)
  · refine iff_of_false ?_ fun h => hact h.1
    cases act with
    | submit => exact absurd rfl hact
    | _ => exact Option.some_ne_none _

/-- Behind an operation that compares as it should there is a state again. -/
theorem Holding.step (h : Holding s) (hcompares : Compares s op) :
    ∃ raw ok inp' junk', s = some raw ∧ rawStep raw op.1 = some (ok, rawOf inp' junk') ∧
      (inp'.buf ++ 0 :: junk').length = inp'.cap ∧ Sound inp' ∧
      (ok = false → inp'.buf = raw.text ∧ inp'.cursor = raw.cursor) := by
  obtain ⟨inp, junk, rfl, hcap, hsound⟩ := h
  have hcomes := comes_step hcap hsound.text.2 op.1
  cases hstep : stepOn inp op.1 with
  | none =>
    obtain ⟨hact, hnil, hout, hslots, hnewest⟩ := stepOn_eq_none_iff.1 hstep
    refine absurd hnewest (hcompares _ rfl hact ?_ hout hslots)
    exact fun hzero => hnil (List.length_eq_zero_iff.1 hzero)
  | some inp' =>
    rw [hstep] at hcomes
    obtain ⟨ok, junk', hraw, hcap', hfail⟩ := hcomes
    refine ⟨_, ok, inp', junk', rfl, hraw, hcap', hsound.step op.2 hstep, ?_⟩
    rw [text_rawOf]
    exact hfail

theorem Holding.next (h : Holding s) (hcompares : Compares s op) : Holding (rawNext s op) := by
  obtain ⟨raw, ok, inp', junk', rfl, hraw, hcap, hsound, -⟩ := h.step hcompares
  refine ⟨inp', junk', ?_, hcap, hsound⟩
  rw [rawNext, Option.bind_some, hraw, Option.map_some]

/-- **A step is right** just when it compares its line with no entry that was lost. -/
theorem edits_iff (h : Holding s) : Edits s op ↔ Compares s op := by
  constructor
  · rintro ⟨raw, ok, raw', rfl, hraw, -⟩ raw₀ hraw₀ hact hlen hout hslots hnewest
    obtain rfl := Option.some.inj hraw₀
    obtain ⟨inp, junk, hrawOf, hcap, hsound⟩ := h
    obtain rfl := Option.some.inj hrawOf
    have hcomes := comes_step hcap hsound.text.2 op.1
    have hnil : inp.buf ≠ [] := fun hnil => hlen (List.length_eq_zero_iff.2 hnil)
    rw [stepOn_eq_none_iff.2 ⟨hact, hnil, hout, hslots, hnewest⟩] at hcomes
    exact absurd (hraw.symm.trans hcomes) (Option.some_ne_none _)
  · intro hcompares
    obtain ⟨raw, ok, inp', junk', rfl, hraw, hcap, hsound, hfail⟩ := h.step hcompares
    refine ⟨raw, ok, _, rfl, hraw, hsound.valid junk', undoes_rawOf hcap, ?_⟩
    rw [text_rawOf]
    exact hfail

end Runs

theorem sound_create (historyCap : Nat) : Sound (tuiInputCreate historyCap) where
  text := text_nil
  cursor := .nil
  entries := by
    intro entry hentry text htext
    rw [List.eq_of_mem_replicate hentry] at htext
    exact absurd htext (by simp)
  draft := by
    intro text htext
    exact absurd htext (by simp [tuiInputCreate])

theorem rawCreate_eq (historyCap : Nat) :
    rawCreate historyCap = rawOf (tuiInputCreate historyCap) (List.replicate 63 0) := rfl

/-- **The editor keeps a valid text and cursor** in a run just when no submission of the run
compares its line with an entry whose copy was lost. -/
theorem edits_run_iff (historyCap : Nat) (ops : List EditOp) :
    (Valid (rawCreate historyCap) ∧ Undoes (rawCreate historyCap)) ∧
      ((∀ front op, front ++ [op] <+: ops →
          Edits (stateAfter rawNext (some (rawCreate historyCap)) front) op) ↔
        ∀ front op, front ++ [op] <+: ops →
          Compares (stateAfter rawNext (some (rawCreate historyCap)) front) op) := by
  have hsound := sound_create historyCap
  have hcap : ((tuiInputCreate historyCap).buf ++ 0 :: List.replicate 63 0).length =
      (tuiInputCreate historyCap).cap := rfl
  rw [rawCreate_eq]
  refine ⟨⟨hsound.valid _, undoes_rawOf hcap⟩, ?_⟩
  exact @stepwise_iff _ _ rawNext _ Holding Edits Compares ⟨_, _, rfl, hcap, hsound⟩
    (fun _ _ => edits_iff) (fun _ _ => Holding.next) ops

/-- A letter is put in. -/
def letterOp (b : UInt8) (h : b < 0x80 ∧ b ≠ 0) : EditOp :=
  ⟨⟨.insert [b], .none⟩, utf8_singleton h.1, by simpa using h.2.symm⟩

/-- A line is submitted, where its copy for the history may fail. -/
def submitOp (lost : Bool) : EditOp :=
  ⟨⟨.submit, fun site => site == .entry && lost⟩, trivial⟩

/-- The copy of a line is lost, and the next line is compared with it. -/
theorem not_edits_run : ¬∀ historyCap (ops : List EditOp) front op, front ++ [op] <+: ops →
    Edits (stateAfter rawNext (some (rawCreate historyCap)) front) op := by
  intro h
  obtain ⟨raw, ok, raw', hraw, hstep, -⟩ := h 1 _
    [letterOp 97 (by decide), submitOp true, letterOp 98 (by decide)] (submitOp false) List.prefix_rfl
  have hnone : (stateAfter rawNext (some (rawCreate 1))
      [letterOp 97 (by decide), submitOp true, letterOp 98 (by decide)]).bind
        (fun raw => rawStep raw (submitOp false).1) = none := rfl
  rw [hraw, Option.bind_some, hstep] at hnone
  exact absurd hnone (Option.some_ne_none _)

end EchoAi.PromptBuffer
