import EchoAi.LineRuns
import EchoAi.Tools.MultiEdit
import Mathlib.Data.List.Flatten
import Mathlib.Data.List.GetD

/-!
# The diff of an edit

The result of an edit shows the lines that it changes.  The places of the edits are mapped to lines
through tables of where the lines begin in the normalized text.

* `editNormMapBuild`, `editNormLineOf`: the table and the search in it, with `editNormLineOf_eq`.
* `editMatchesToRuns`: the runs of changed lines.
* `editDiffLines`, `editBuildDiff`: the diff, with `removed_editDiffLinesFrom` and
  `added_editDiffLinesFrom`.

Memory does not run out.
-/

namespace EchoAi

open LineRuns

/-! ## Lines and where they begin -/

/-- `edit_lines_build`: a newline at the end yields a last line that is empty. -/
def editLinesBuild (text : List UInt8) : List (List UInt8) := text.splitOn 10

/-- `edit_line_norm_len` -/
def editLineNormLen : List UInt8 → Nat
  | [] => 0
  | 13 :: 10 :: line => editLineNormLen line + 1
  | _ :: line => editLineNormLen line + 1

/-- `edit_norm_map_build` from the offset `acc` on.  The last entry is the total. -/
def editNormMapFrom (acc : Nat) : List (List UInt8) → List Nat
  | [] => [acc]
  | line :: lines =>
    let nl := editLineNormLen line
    -- the newline is a byte of its own, unless it is one with the carriage return in front of it
    let nl := if lines ≠ [] ∧ line.getLast? ≠ some 13 then nl + 1 else nl
    acc :: editNormMapFrom (acc + nl) lines

/-- `edit_norm_map_build` -/
def editNormMapBuild (lines : List (List UInt8)) : List Nat := editNormMapFrom 0 lines

/-- The search of `edit_norm_line_of` for the line of the offset `p`, in `[lo, hi)`. -/
def editNormLineFrom (starts : List Nat) (p : Nat) : (fuel lo hi : Nat) → Nat
  | 0, lo, _ => lo
  | fuel + 1, lo, hi =>
    if lo + 1 < hi then
      let mid := lo + (hi - lo) / 2
      if starts.getD mid 0 ≤ p then editNormLineFrom starts p fuel mid hi
      else editNormLineFrom starts p fuel lo mid
    else lo

/-- `edit_norm_line_of` -/
def editNormLineOf (starts : List Nat) (p : Nat) : Nat :=
  editNormLineFrom starts p (starts.length - 1) 0 (starts.length - 1)

/-! ## Runs -/

/-- `EDIT_DIFF_CONTEXT` -/
def editDiffContext : Nat := 3

/-- `EditRun` -/
abbrev EditRun := LineRun

/-- The field `new_len` of a match. -/
def newLen (items : List EditItem) (m : EditMatch) : Nat :=
  match items[m.editIdx]? with
  | some item => editLineNormLen item.newStr.bytes
  | none => 0

section Runs

variable (items : List EditItem) (om nm : List Nat)

/-- The lines of one match. -/
def editMatchRun (shift : Int) (m : EditMatch) : EditRun :=
  let pn := (m.index + shift).toNat
  let newStart := editNormLineOf nm pn
  { oldStart := editNormLineOf om m.index
    oldEnd := editNormLineOf om (m.index + m.length - 1) + 1
    newStart
    newEnd :=
      if 0 < newLen items m then editNormLineOf nm (pn + newLen items m - 1) + 1 else newStart }

/-- The loop of `edit_matches_to_runs` behind the run `last`. -/
def editRunsFrom : (last : EditRun) → (shift : Int) → List EditMatch → List EditRun
  | last, _, [] => [last]
  | last, shift, m :: ms =>
    let run := editMatchRun items om nm shift m
    let shift := shift + (newLen items m - m.length)
    if run.oldStart ≤ last.oldEnd + editDiffContext * 2 ∧
        run.newStart ≤ last.newEnd + editDiffContext * 2 then
      editRunsFrom { last with oldEnd := run.oldEnd, newEnd := run.newEnd } shift ms
    else last :: editRunsFrom run shift ms

/-- `edit_matches_to_runs` -/
def editMatchesToRuns : List EditMatch → List EditRun
  | [] => []
  | m :: ms => editRunsFrom items om nm (editMatchRun items om nm 0 m) (newLen items m - m.length) ms

end Runs

/-! ## The lines that are shown -/

/-- What a line of the diff begins with. -/
inductive DiffMark where
  | context
  | removed
  | added
  deriving DecidableEq, Repr

/-- The character of a mark. -/
def DiffMark.char : DiffMark → UInt8
  | .context => 32
  | .removed => 45
  | .added => 43

/-- A line of the diff, with its number. -/
structure DiffLine where
  mark : DiffMark
  num : Nat
  line : List UInt8
  deriving DecidableEq, Repr

/-- `edit_append_diff_line`: a carriage return at the end is trimmed. -/
def editAppendDiffLine (shown : DiffLine) : List UInt8 :=
  let line := if shown.line.getLast? = some 13 then shown.line.dropLast else shown.line
  shown.mark.char :: ascii (toString shown.num) ++ 32 :: line ++ [10]

/-- `count` lines from the `i`-th on. -/
def diffLinesFrom (mark : DiffMark) (lines : List (List UInt8)) (i count : Nat) : List DiffLine :=
  (List.range count).map fun k => ⟨mark, i + k + 1, lines.getD (i + k) []⟩

/-- The lines in front of a run that begins at `oldStart`, from `oldI` on: all of them where they are
few, else those next to the runs. -/
def editGapLines (old : List (List UInt8)) (first : Bool) (oldI oldStart : Nat) : List DiffLine :=
  if oldI < oldStart then
    let gap := oldStart - oldI
    if gap ≤ editDiffContext * 2 then diffLinesFrom .context old oldI gap
    else
      (if first then [] else diffLinesFrom .context old oldI editDiffContext) ++
        diffLinesFrom .context old (oldStart - editDiffContext) editDiffContext
  else []

/-- The loop of `edit_build_diff` and the lines behind the last run. -/
def editDiffLinesFrom (old neu : List (List UInt8)) :
    (first : Bool) → (oldI : Nat) → List EditRun → List DiffLine
  | _, oldI, [] =>
    if oldI < old.length then
      diffLinesFrom .context old oldI (min editDiffContext (old.length - oldI))
    else []
  | first, oldI, run :: runs =>
    editGapLines old first oldI run.oldStart ++
      (diffLinesFrom .removed old run.oldStart (run.oldEnd - run.oldStart) ++
        (diffLinesFrom .added neu run.newStart (run.newEnd - run.newStart) ++
          editDiffLinesFrom old neu false run.oldEnd runs))

/-- The runs of an edit, from the texts in front of and behind it. -/
def editRuns (items : List EditItem) (oldText newText : List UInt8) (ms : List EditMatch) :
    List EditRun :=
  editMatchesToRuns items (editNormMapBuild (editLinesBuild oldText))
    (editNormMapBuild (editLinesBuild newText)) ms

/-- The lines that `edit_build_diff` writes. -/
def editDiffLines (items : List EditItem) (oldText newText : List UInt8) (ms : List EditMatch) :
    List DiffLine :=
  editDiffLinesFrom (editLinesBuild oldText) (editLinesBuild newText) true 0
    (editRuns items oldText newText ms)

/-- `edit_build_diff`: no newline at the end. -/
def editBuildDiff (items : List EditItem) (oldText newText : List UInt8) (ms : List EditMatch) :
    List UInt8 :=
  let diff := (editDiffLines items oldText newText ms).flatMap editAppendDiffLine
  if diff.getLast? = some 10 then diff.dropLast else diff

/-! ## The line of an offset -/

/-- The line of an offset in the normalized text: the newlines of the text itself in front of it. -/
def lineAt (text : List UInt8) (p : Nat) : Nat :=
  (((letters text).take p).flatMap Letter.raw).count 10

theorem editLineNormLen_eq (line : List UInt8) : editLineNormLen line = (letters line).length := by
  induction line using letters.induct with
  | case1 => rfl
  | case2 line ih => rw [editLineNormLen, letters, List.length_cons, ih]
  | case3 b line hcrlf ih =>
    rw [editLineNormLen, letters, List.length_cons, ih]
    · exact hcrlf
    · exact hcrlf

/-- A byte that no newline follows is a letter. -/
theorem letters_cons {b : UInt8} {text : List UInt8} (h : b ≠ 13 ∨ text.head? ≠ some 10) :
    letters (b :: text) = .byte b :: letters text := by
  refine letters.eq_3 b text ?_
  rintro text' rfl rfl
  exact h.elim (absurd rfl) (absurd rfl)

/-- A line with its newline: the newline belongs to the last of its letters, and is counted once. -/
theorem exists_letters_line {line : List UInt8} (hline : 10 ∉ line) (rest : List UInt8) :
    ∃ front, letters (line ++ 10 :: rest) = front ++ letters rest ∧
      front.length = editLineNormLen line + (if line.getLast? = some 13 then 0 else 1) ∧
      (front.flatMap Letter.raw).count 10 = 1 ∧
      ∀ p < front.length, ((front.take p).flatMap Letter.raw).count 10 = 0 := by
  induction line with
  | nil =>
    refine ⟨[.byte 10], rfl, rfl, rfl, fun p hp => ?_⟩
    rw [Nat.lt_one_iff.1 hp]
    rfl
  | cons b line ih =>
    rw [List.mem_cons, not_or] at hline
    obtain ⟨hb, hline⟩ := hline
    by_cases hcrlf : b = 13 ∧ line = []
    · obtain ⟨rfl, rfl⟩ := hcrlf
      refine ⟨[.crlf], rfl, rfl, rfl, fun p hp => ?_⟩
      rw [Nat.lt_one_iff.1 hp]
      rfl
    obtain ⟨front, hletters, hlen, hone, hzero⟩ := ih hline
    have hnone : [b].count 10 = 0 := List.count_eq_zero_of_not_mem (by simpa using hb)
    have hcons : letters (b :: (line ++ 10 :: rest)) = .byte b :: letters (line ++ 10 :: rest) := by
      refine letters_cons ((not_and_or.1 hcrlf).imp_right fun hne => ?_)
      obtain ⟨c, line, rfl⟩ := List.exists_cons_of_ne_nil hne
      exact fun hc => hline (Option.some.inj hc ▸ List.mem_cons_self)
    have hnorm : editLineNormLen (b :: line) = editLineNormLen line + 1 := by
      have hhead : line.head? ≠ some 10 := fun hc => hline (List.mem_of_mem_head? hc)
      rw [editLineNormLen_eq, letters_cons (Or.inr hhead), List.length_cons, editLineNormLen_eq]
    have hlast : (b :: line).getLast? = some 13 ↔ line.getLast? = some 13 := by
      cases line with
      | nil => exact iff_of_false (fun h => hcrlf ⟨Option.some.inj h, rfl⟩) (by decide)
      | cons c line => rw [List.getLast?_cons_cons]
    refine ⟨.byte b :: front, by rw [List.cons_append, hcons, hletters]; rfl, ?_, ?_, ?_⟩
    · rw [List.length_cons, hlen, hnorm, Nat.add_right_comm]
      simp only [hlast]
    · rw [List.flatMap_cons, List.count_append, hone, Letter.raw, hnone]
    · intro p hp
      cases p with
      | zero => rfl
      | succ p =>
        rw [List.take_succ_cons, List.flatMap_cons, List.count_append, Letter.raw, hnone,
          hzero p (Nat.lt_of_succ_lt_succ hp)]

/-- A line begins where the offsets of its line begin. -/
theorem getElem?_editNormMapFrom (text : List UInt8) (acc k : Nat)
    (hk : k < (editLinesBuild text).length) :
    ∃ start, (editNormMapFrom acc (editLinesBuild text))[k]? = some (acc + start) ∧
      ∀ p, start ≤ p ↔ k ≤ lineAt text p := by
  unfold editLinesBuild at hk ⊢
  induction text using splitOn_induction (10 : UInt8) generalizing acc k with
  | last text htext =>
    rw [List.splitOn_eq_singleton htext] at hk ⊢
    rw [Nat.lt_one_iff.1 hk]
    exact ⟨0, rfl, fun p => iff_of_true (Nat.zero_le _) (Nat.zero_le _)⟩
  | cut line rest hline ih =>
    rw [List.splitOn_append_cons_self_of_not_mem hline] at hk ⊢
    cases k with
    | zero => exact ⟨0, rfl, fun p => iff_of_true (Nat.zero_le _) (Nat.zero_le _)⟩
    | succ k =>
      obtain ⟨front, hletters, hlen, hone, hzero⟩ := exists_letters_line hline rest
      obtain ⟨start, hstart, hiff⟩ := ih (acc + front.length) k (Nat.lt_of_succ_lt_succ hk)
      have hnl : (if rest.splitOn 10 ≠ [] ∧ line.getLast? ≠ some 13 then editLineNormLen line + 1
          else editLineNormLen line) = front.length := by
        rw [hlen]
        by_cases hcr : line.getLast? = some 13
        · rw [if_neg (fun h => h.2 hcr), if_pos hcr, Nat.add_zero]
        · rw [if_pos ⟨List.splitOn_ne_nil _ _, hcr⟩, if_neg hcr]
      refine ⟨front.length + start, ?_, fun p => ?_⟩
      · rw [editNormMapFrom, List.getElem?_cons_succ, hnl, hstart, Nat.add_assoc]
      · rw [lineAt, hletters]
        rcases Nat.lt_or_ge p front.length with hlt | hge
        · rw [List.take_append_of_le_length (Nat.le_of_lt hlt), hzero p hlt]
          exact iff_of_false (by omega) (Nat.not_succ_le_zero k)
        · obtain ⟨p, rfl⟩ := Nat.exists_eq_add_of_le hge
          rw [List.take_length_add_append, List.flatMap_append, List.count_append, hone, ← lineAt,
            Nat.add_le_add_iff_left, hiff]
          omega

theorem lineAt_lt (text : List UInt8) (p : Nat) : lineAt text p < (editLinesBuild text).length := by
  have hle := ((List.take_sublist p (letters text)).flatMap Letter.raw).count_le 10
  rw [flatMap_raw_letters] at hle
  rw [editLinesBuild, length_splitOn]
  exact Nat.lt_succ_of_le hle

theorem length_editNormMapFrom (acc : Nat) (lines : List (List UInt8)) :
    (editNormMapFrom acc lines).length = lines.length + 1 := by
  induction lines generalizing acc with
  | nil => rfl
  | cons line lines ih => rw [editNormMapFrom, List.length_cons, ih, List.length_cons]

/-- The search keeps the line between its bounds. -/
theorem editNormLineFrom_eq {starts : List Nat} {p n count fuel lo hi : Nat}
    (hstarts : ∀ k < count, ∃ start, starts[k]? = some start ∧ (start ≤ p ↔ k ≤ n))
    (hlo : lo ≤ n) (hhi : n < hi) (hcount : hi ≤ count) (hfuel : hi ≤ lo + fuel + 1) :
    editNormLineFrom starts p fuel lo hi = n := by
  induction fuel generalizing lo hi with
  | zero =>
    rw [editNormLineFrom]
    omega
  | succ fuel ih =>
    rw [editNormLineFrom]
    split
    · obtain ⟨start, hstart, hiff⟩ := hstarts (lo + (hi - lo) / 2) (by omega)
      have hget : starts.getD (lo + (hi - lo) / 2) 0 = start := by
        rw [List.getD_eq_getElem?_getD, hstart, Option.getD_some]
      dsimp only
      rw [hget]
      split
      · next hle =>
        have hmid := hiff.1 hle
        exact ih hmid hhi hcount (by omega)
      · next hle =>
        have hmid := mt hiff.2 hle
        exact ih hlo (Nat.not_le.1 hmid) (by omega) (by omega)
    · omega

/-- The table and the search in it find the line of an offset. -/
theorem editNormLineOf_eq (text : List UInt8) (p : Nat) :
    editNormLineOf (editNormMapBuild (editLinesBuild text)) p = lineAt text p := by
  have hlen := length_editNormMapFrom 0 (editLinesBuild text)
  have hlt := lineAt_lt text p
  rw [editNormLineOf, editNormMapBuild, hlen, Nat.add_sub_cancel]
  refine editNormLineFrom_eq (fun k hk => ?_) (Nat.zero_le _) hlt (Nat.le_refl _) (by omega)
  obtain ⟨start, hstart, hiff⟩ := getElem?_editNormMapFrom text 0 k hk
  rw [Nat.zero_add] at hstart
  exact ⟨start, hstart, hiff p⟩

/-! ## What is shown -/

/-- Lines `[i, j)` of a text with their numbers. -/
def numbered (lines : List (List UInt8)) (i j : Nat) : List (Nat × List UInt8) :=
  (slice lines i j).mapIdx fun k line => (i + k + 1, line)

/-- The lines of the diff with a mark. -/
def shownAs (mark : DiffMark) (diff : List DiffLine) : List (Nat × List UInt8) :=
  (diff.filter (·.mark = mark)).map fun shown => (shown.num, shown.line)

theorem shownAs_append (mark : DiffMark) (diff diff' : List DiffLine) :
    shownAs mark (diff ++ diff') = shownAs mark diff ++ shownAs mark diff' := by
  rw [shownAs, List.filter_append, List.map_append]
  rfl

theorem shownAs_of_ne {mark mark' : DiffMark} (h : mark ≠ mark') (lines : List (List UInt8))
    (i count : Nat) : shownAs mark' (diffLinesFrom mark lines i count) = [] := by
  rw [shownAs, List.filter_eq_nil_iff.2, List.map_nil]
  intro shown hshown hmark
  obtain ⟨k, -, rfl⟩ := List.mem_map.1 hshown
  exact h (of_decide_eq_true hmark)

/-- The lines of a run are shown with their numbers. -/
theorem shownAs_self (mark : DiffMark) {lines : List (List UInt8)} {i j : Nat}
    (hj : j ≤ lines.length) : shownAs mark (diffLinesFrom mark lines i (j - i)) = numbered lines i j := by
  have hall : (diffLinesFrom mark lines i (j - i)).filter (·.mark = mark) =
      diffLinesFrom mark lines i (j - i) := by
    refine List.filter_eq_self.2 fun shown hshown => ?_
    obtain ⟨k, -, rfl⟩ := List.mem_map.1 hshown
    exact decide_eq_true rfl
  have hlen : (slice lines i j).length = j - i := by
    rw [slice, List.length_drop, List.length_take_of_le hj]
  rw [shownAs, hall, diffLinesFrom, List.map_map, numbered]
  refine List.ext_getElem ?_ fun k hk hk' => ?_
  · rw [List.length_map, List.length_range, List.length_mapIdx, hlen]
  · rw [List.length_map, List.length_range] at hk
    rw [List.getElem_map, List.getElem_mapIdx, List.getElem_range]
    refine Prod.ext rfl ?_
    show lines.getD (i + k) [] = (slice lines i j)[k]
    rw [List.getD_eq_getElem _ _ (by omega)]
    simp only [slice, List.getElem_drop, List.getElem_take]

theorem shownAs_editGapLines {mark : DiffMark} (h : DiffMark.context ≠ mark)
    (old : List (List UInt8)) (first : Bool) (oldI oldStart : Nat) :
    shownAs mark (editGapLines old first oldI oldStart) = [] := by
  rw [editGapLines]
  split
  · dsimp only
    split
    · exact shownAs_of_ne h _ _ _
    · rw [shownAs_append, shownAs_of_ne h, List.append_nil]
      split
      · rfl
      · exact shownAs_of_ne h _ _ _
  · rfl

section Shown

variable {old neu : List (List UInt8)} {runs : List EditRun}

theorem shownAs_tail {mark : DiffMark} (h : DiffMark.context ≠ mark) (first : Bool) (oldI : Nat) :
    shownAs mark (editDiffLinesFrom old neu first oldI []) = [] := by
  rw [editDiffLinesFrom]
  split
  · exact shownAs_of_ne h _ _ _
  · rfl

/-- The lines shown as removed are those of the runs in the old text. -/
theorem removed_editDiffLinesFrom (h : ∀ run ∈ runs, run.Within old.length neu.length)
    (first : Bool) (oldI : Nat) :
    shownAs .removed (editDiffLinesFrom old neu first oldI runs) =
      runs.flatMap fun run => numbered old run.oldStart run.oldEnd := by
  induction runs generalizing first oldI with
  | nil => exact shownAs_tail (by decide) _ _
  | cons run runs ih =>
    obtain ⟨hrun, hruns⟩ := List.forall_mem_cons.1 h
    rw [editDiffLinesFrom, shownAs_append, shownAs_append, shownAs_append,
      shownAs_editGapLines (by decide), shownAs_self _ hrun.2.1, shownAs_of_ne (by decide), ih hruns]
    rfl

/-- The lines shown as added are those of the runs in the new text. -/
theorem added_editDiffLinesFrom (h : ∀ run ∈ runs, run.Within old.length neu.length)
    (first : Bool) (oldI : Nat) :
    shownAs .added (editDiffLinesFrom old neu first oldI runs) =
      runs.flatMap fun run => numbered neu run.newStart run.newEnd := by
  induction runs generalizing first oldI with
  | nil => exact shownAs_tail (by decide) _ _
  | cons run runs ih =>
    obtain ⟨hrun, hruns⟩ := List.forall_mem_cons.1 h
    rw [editDiffLinesFrom, shownAs_append, shownAs_append, shownAs_append,
      shownAs_editGapLines (by decide), shownAs_of_ne (by decide), shownAs_self _ hrun.2.2.2, ih hruns]
    rfl

end Shown

end EchoAi
