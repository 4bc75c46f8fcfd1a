import EchoAi.Tools.EditDiff

/-!
# What the diff of an edit shows

The runs of an edit are those of its changes in the two texts, so the diff is true where the runs end
alike in both.

* `editChangesFrom`, `editCuts`: the changes of an edit, and the places where a run ends.
* `editRuns_eq`: the offsets in the normalized texts lead to the lines of the changes.
* `TrueDiff`, `trueDiff_of_aligned`: when the diff of an accepted edit is true.
-/

namespace EchoAi

open LineRuns

/-! ## The changes of an edit -/

section Changes

variable (crlf : Bool) (items : List EditItem)

/-- What an edit replaces, and what it keeps in front of it, in the letters `ts` that begin at `pos`. -/
def editChangesFrom : (pos : Nat) → (ts : List Letter) → List EditMatch → List (Change UInt8)
  | _, _, [] => []
  | pos, ts, m :: ms =>
    let kept := ts.take (m.index - pos)
    let rest := ts.drop (m.index - pos)
    { keptOld := kept.flatMap Letter.raw
      keptNew := editRestoreEndings crlf (kept.map Letter.norm)
      old := (rest.take m.length).flatMap Letter.raw
      new := editRestoreEndings crlf (newText items m) } ::
        editChangesFrom (m.index + m.length) (rest.drop m.length) ms

/-- What an edit keeps behind the last place. -/
def editTailFrom : (pos : Nat) → (ts : List Letter) → List EditMatch → List Letter
  | _, ts, [] => ts
  | pos, ts, m :: ms => editTailFrom (m.index + m.length) ((ts.drop (m.index - pos)).drop m.length) ms

end Changes

section Edit

variable (content : List UInt8) (items : List EditItem) (ms : List EditMatch)

/-- The text that an edit leaves, without the mark in front of it. -/
def editedText : List UInt8 :=
  editRestoreEndings (editDetectEnding (fileText content)) (editedNorm content items ms)

/-- The changes of an edit. -/
def editChanges : List (Change UInt8) :=
  editChangesFrom (editDetectEnding (fileText content)) items 0 (letters (fileText content)) ms

/-- The places where a run of the diff ends and kept text follows. -/
def editCuts : List (Cut UInt8) :=
  let tail := editTailFrom 0 (letters (fileText content)) ms
  cutsOf 10 (editDiffContext * 2) (tail.flatMap Letter.raw)
    (editRestoreEndings (editDetectEnding (fileText content)) (tail.map Letter.norm))
    (editChanges content items ms)

end Edit

/-! ## The new text in letters -/

section Letters

variable {crlf : Bool} {norm : List UInt8}

/-- The letter that a byte of the normalized text becomes. -/
def putLetter (crlf : Bool) (b : UInt8) : Letter := if crlf ∧ b = 10 then .crlf else .byte b

theorem raw_putLetter (crlf : Bool) (b : UInt8) : (putLetter crlf b).raw = restoreByte crlf b := by
  rw [putLetter, restoreByte]
  split <;> rfl

theorem editRestoreEndings_append (crlf : Bool) (norm norm' : List UInt8) :
    editRestoreEndings crlf (norm ++ norm') =
      editRestoreEndings crlf norm ++ editRestoreEndings crlf norm' := List.flatMap_append

theorem flatMap_raw_putLetter (crlf : Bool) (norm : List UInt8) :
    (norm.map (putLetter crlf)).flatMap Letter.raw = editRestoreEndings crlf norm := by
  rw [List.flatMap_map, editRestoreEndings]
  simp only [raw_putLetter]

theorem letters_editRestoreEndings (hnorm : 13 ∉ norm) :
    letters (editRestoreEndings crlf norm) = norm.map (putLetter crlf) := by
  induction norm with
  | nil => rfl
  | cons b norm ih =>
    rw [List.mem_cons, not_or] at hnorm
    obtain ⟨hb, hnorm⟩ := hnorm
    have hcons : editRestoreEndings crlf (b :: norm) =
        restoreByte crlf b ++ editRestoreEndings crlf norm := List.flatMap_cons
    rw [hcons, List.map_cons, ← ih hnorm, restoreByte, putLetter]
    split
    · rfl
    · exact letters_cons (Or.inl (Ne.symm hb))

/-- The line of an offset in the new text. -/
theorem lineAt_editRestoreEndings (hnorm : 13 ∉ norm) (p : Nat) :
    lineAt (editRestoreEndings crlf norm) p =
      (editRestoreEndings crlf (norm.take p)).count 10 := by
  rw [lineAt, letters_editRestoreEndings hnorm, ← List.map_take, flatMap_raw_putLetter]

theorem count_restoreByte (crlf : Bool) (b : UInt8) :
    (restoreByte crlf b).count 10 = [b].count 10 := by
  rw [restoreByte]
  split
  · next h => rw [h.2]; rfl
  · rfl

theorem count_editRestoreEndings (crlf : Bool) (norm : List UInt8) :
    (editRestoreEndings crlf norm).count 10 = norm.count 10 := by
  induction norm with
  | nil => rfl
  | cons b norm ih =>
    have hcons : editRestoreEndings crlf (b :: norm) =
        restoreByte crlf b ++ editRestoreEndings crlf norm := List.flatMap_cons
    rw [hcons, List.count_append, count_restoreByte, ih, ← List.count_append]
    rfl

/-- The last letter that is touched ends its line or lies in it. -/
theorem lineEnd_append_raw (xs : List UInt8) (t : Letter) :
    lineEnd 10 false (xs ++ t.raw) = xs.count 10 + 1 := by
  have hending : ∀ ys : List UInt8, lineEnd 10 false (ys ++ [10]) = ys.count 10 + 1 := by
    intro ys
    have hopen : openLine 10 (ys ++ [10]) = [] := openLine_append_cons 10 ys []
    rw [lineEnd, skip_false_eq_zero_iff.2 hopen, List.count_append]
    rfl
  cases t with
  | crlf =>
    have hsplit : xs ++ Letter.crlf.raw = xs ++ [13] ++ [10] := by simp [Letter.raw]
    rw [hsplit, hending, List.count_append]
    rfl
  | byte b =>
    rw [Letter.raw]
    by_cases hb : b = 10
    · rw [hb, hending]
    · have hopen : openLine 10 (xs ++ [b]) ≠ [] := fun hnil =>
        hb (openLine_eq_nil_iff.1 hnil b (by simp))
      have hnone : [b].count 10 = 0 := List.count_eq_zero_of_not_mem (by simpa using Ne.symm hb)
      rw [lineEnd, skip_eq_one (mt skip_false_eq_zero_iff.1 hopen), List.count_append, hnone]

theorem lineEnd_append_flatMap_raw (xs : List UInt8) (place : List Letter) (t : Letter) :
    lineEnd 10 false (xs ++ (place ++ [t]).flatMap Letter.raw) =
      (xs ++ place.flatMap Letter.raw).count 10 + 1 := by
  have hsplit : xs ++ (place ++ [t]).flatMap Letter.raw = xs ++ place.flatMap Letter.raw ++ t.raw := by
    rw [List.flatMap_append, List.flatMap_cons, List.flatMap_nil, List.append_nil, List.append_assoc]
  rw [hsplit, lineEnd_append_raw]

theorem lineEnd_append_editRestoreEndings (xs new : List UInt8) (b : UInt8) :
    lineEnd 10 false (xs ++ editRestoreEndings crlf (new ++ [b])) =
      (xs ++ editRestoreEndings crlf new).count 10 + 1 := by
  rw [← flatMap_raw_putLetter, ← flatMap_raw_putLetter, List.map_append]
  exact lineEnd_append_flatMap_raw xs _ (putLetter crlf b)

theorem editRestoreEndings_ne_nil (h : norm ≠ []) : editRestoreEndings crlf norm ≠ [] := by
  obtain ⟨norm, b, rfl⟩ := (List.eq_nil_or_concat' norm).resolve_left h
  have hb : editRestoreEndings crlf [b] ≠ [] := by
    show restoreByte crlf b ++ [] ≠ []
    rw [restoreByte]
    split <;> simp
  rw [editRestoreEndings_append]
  exact List.append_ne_nil_of_right_ne_nil _ hb

end Letters

/-! ## The runs of an edit are those of its changes -/

theorem newLen_eq (items : List EditItem) (m : EditMatch) :
    newLen items m = (newText items m).length := by
  rw [newLen, newText]
  cases items[m.editIdx]? with
  | none => rfl
  | some item =>
    show editLineNormLen item.newStr.bytes = (editNormalizeLf item.newStr.bytes).length
    rw [editLineNormLen_eq, editNormalizeLf_eq, List.length_map]

section Refines

variable {crlf : Bool} {items : List EditItem} {text norm : List UInt8}

/-- The lines of a match are those of its change, for the letters `front` and the new bytes `put` in
front of it. -/
theorem editMatchRun_eq {m : EditMatch} {shift : Int} {front kept place rest : List Letter}
    {put rest' : List UInt8} (htext : letters text = front ++ (kept ++ (place ++ rest)))
    (hnorm : norm = put ++ (kept.map Letter.norm ++ (newText items m ++ rest'))) (h13 : 13 ∉ norm)
    (hindex : m.index = front.length + kept.length) (hlength : m.length = place.length)
    (hplace : place ≠ []) (hshift : (front.length : Int) + shift = put.length) :
    editMatchRun items (editNormMapBuild (editLinesBuild text))
        (editNormMapBuild (editLinesBuild (editRestoreEndings crlf norm))) shift m =
      Change.run 10 ⟨kept.flatMap Letter.raw, editRestoreEndings crlf (kept.map Letter.norm),
        place.flatMap Letter.raw, editRestoreEndings crlf (newText items m)⟩
        (front.flatMap Letter.raw) (editRestoreEndings crlf put) := by
  have hpn : (m.index + shift).toNat = put.length + kept.length := by omega
  have holdStart : editNormLineOf (editNormMapBuild (editLinesBuild text)) m.index =
      (front.flatMap Letter.raw ++ kept.flatMap Letter.raw).count 10 := by
    rw [editNormLineOf_eq, lineAt, htext, hindex, ← List.append_assoc, ← List.length_append,
      List.take_left, List.flatMap_append]
  have hnewStart : editNormLineOf (editNormMapBuild (editLinesBuild (editRestoreEndings crlf norm)))
      (put.length + kept.length) = (editRestoreEndings crlf put ++
        editRestoreEndings crlf (kept.map Letter.norm)).count 10 := by
    have hlen : put.length + kept.length = (put ++ kept.map Letter.norm).length := by
      rw [List.length_append, List.length_map]
    rw [editNormLineOf_eq, lineAt_editRestoreEndings h13, hnorm, ← List.append_assoc, hlen,
      List.take_left, editRestoreEndings_append]
  have holdEnd : editNormLineOf (editNormMapBuild (editLinesBuild text)) (m.index + m.length - 1) + 1 =
      lineEnd 10 false (front.flatMap Letter.raw ++ kept.flatMap Letter.raw ++
        place.flatMap Letter.raw) := by
    obtain ⟨place, t, rfl⟩ := (List.eq_nil_or_concat' place).resolve_left hplace
    have hoffset : m.index + m.length - 1 = (front ++ (kept ++ place)).length := by
      rw [hindex, hlength]
      simp only [List.length_append, List.length_singleton]
      omega
    have hsplit : letters text = front ++ (kept ++ place) ++ (t :: rest) := by
      rw [htext]
      simp only [List.append_assoc, List.singleton_append]
    rw [editNormLineOf_eq, lineAt, hsplit, hoffset, List.take_left, List.flatMap_append,
      List.flatMap_append, ← List.append_assoc, lineEnd_append_flatMap_raw]
  have hnewEnd : (if 0 < newLen items m then
        editNormLineOf (editNormMapBuild (editLinesBuild (editRestoreEndings crlf norm)))
          (put.length + kept.length + newLen items m - 1) + 1
      else (editRestoreEndings crlf put ++ editRestoreEndings crlf (kept.map Letter.norm)).count 10) =
      lineEnd 10 (editRestoreEndings crlf (newText items m) = []) (editRestoreEndings crlf put ++
        editRestoreEndings crlf (kept.map Letter.norm) ++
          editRestoreEndings crlf (newText items m)) := by
    rw [newLen_eq]
    rcases List.eq_nil_or_concat' (newText items m) with hnil | ⟨new, b, hnew⟩
    · have hempty : editRestoreEndings crlf (newText items m) = [] := by
        rw [hnil]
        rfl
      have hzero : ¬0 < (newText items m).length := by
        rw [hnil]
        exact Nat.lt_irrefl 0
      rw [if_neg hzero, hempty, List.append_nil, lineEnd, decide_eq_true rfl,
        skip_eq_zero_iff.2 (Or.inl rfl), Nat.add_zero]
    · have hne : newText items m ≠ [] := by simp [hnew]
      have hoffset : put.length + kept.length + (newText items m).length - 1 =
          (put ++ (kept.map Letter.norm ++ new)).length := by
        rw [hnew]
        simp only [List.length_append, List.length_singleton, List.length_map]
        omega
      have hsplit : norm = put ++ (kept.map Letter.norm ++ new) ++ (b :: rest') := by
        rw [hnorm, hnew]
        simp only [List.append_assoc, List.singleton_append]
      rw [if_pos (List.length_pos_of_ne_nil hne), decide_eq_false (editRestoreEndings_ne_nil hne),
        editNormLineOf_eq, lineAt_editRestoreEndings h13, hoffset, hsplit, List.take_left, hnew,
        lineEnd_append_editRestoreEndings, editRestoreEndings_append, editRestoreEndings_append,
        List.append_assoc]
  rw [editMatchRun, hpn, holdStart, hnewStart, holdEnd, hnewEnd]
  rfl

/-- The normalized text that an edit leaves behind `pos`. -/
def editedFrom (items : List EditItem) (pos : Nat) (ts : List Letter) (ms : List EditMatch) :
    List UInt8 :=
  assemble (fun t => [t.norm]) (segments pos ts (ms.map fun m => (m.toSpan, newText items m)))

theorem editedFrom_cons (items : List EditItem) {pos : Nat} (ts : List Letter) {m : EditMatch}
    (ms : List EditMatch) (hpos : pos ≤ m.index) :
    editedFrom items pos ts (m :: ms) = (ts.take (m.index - pos)).map Letter.norm ++
      (newText items m ++ editedFrom items (m.index + m.length)
        ((ts.drop (m.index - pos)).drop m.length) ms) := by
  rw [editedFrom, List.map_cons, segments_cons ts _ _ hpos, assemble_append, assemble_inl,
    assemble_inr, ← List.map_eq_flatMap]
  rfl

/-- The letters up to the end of a place. -/
theorem split_letters {α : Type*} (front ts : List α) {i len : Nat} (hi : front.length ≤ i)
    (hend : i + len ≤ (front ++ ts).length) :
    front ++ ts = front ++ (ts.take (i - front.length) ++
        ((ts.drop (i - front.length)).take len ++ (ts.drop (i - front.length)).drop len)) ∧
      (ts.take (i - front.length)).length = i - front.length ∧
      ((ts.drop (i - front.length)).take len).length = len := by
  rw [List.length_append] at hend
  refine ⟨?_, ?_, ?_⟩
  · rw [List.take_append_drop, List.take_append_drop]
  · rw [List.length_take]
    omega
  · rw [List.length_take, List.length_drop]
    omega

/-- The loop stands behind the letters `front` of the old text and the bytes `put` of the new one, with
the matches `ms` ahead. -/
structure Stands (items : List EditItem) (text norm : List UInt8) (front ts : List Letter)
    (put : List UInt8) (shift : Int) (ms : List EditMatch) : Prop where
  text_eq : letters text = front ++ ts
  norm_eq : norm = put ++ editedFrom items front.length ts ms
  ordered : Ordered (letters text).length front.length (ms.map fun m => (m.toSpan, newText items m))
  pos_length : ∀ m ∈ ms, 0 < m.length
  shift_eq : (front.length : Int) + shift = put.length

section Loop

variable {front ts : List Letter} {put : List UInt8} {shift : Int} {m : EditMatch}
  {ms : List EditMatch}

/-- The change of the next match. -/
def nextChange (crlf : Bool) (items : List EditItem) (front ts : List Letter) (m : EditMatch) :
    Change UInt8 where
  keptOld := (ts.take (m.index - front.length)).flatMap Letter.raw
  keptNew := editRestoreEndings crlf ((ts.take (m.index - front.length)).map Letter.norm)
  old := ((ts.drop (m.index - front.length)).take m.length).flatMap Letter.raw
  new := editRestoreEndings crlf (newText items m)

/-- One match: its run is that of its change, and the loop goes on behind it. -/
theorem Stands.step (crlf : Bool) (h13 : 13 ∉ norm) (h : Stands items text norm front ts put shift (m :: ms)) :
    let c := nextChange crlf items front ts m
    let front' := front ++ ts.take (m.index - front.length) ++
      (ts.drop (m.index - front.length)).take m.length
    let put' := put ++ (ts.take (m.index - front.length)).map Letter.norm ++ newText items m
    editMatchRun items (editNormMapBuild (editLinesBuild text))
        (editNormMapBuild (editLinesBuild (editRestoreEndings crlf norm))) shift m =
      c.run 10 (front.flatMap Letter.raw) (editRestoreEndings crlf put) ∧
    Stands items text norm front' ((ts.drop (m.index - front.length)).drop m.length) put'
      (shift + (newLen items m - m.length)) ms ∧
    front'.length = m.index + m.length ∧
    front'.flatMap Letter.raw = c.behindOld (front.flatMap Letter.raw) ∧
    editRestoreEndings crlf put' = c.behindNew (editRestoreEndings crlf put) := by
  intro c front' put'
  obtain ⟨htext, hnorm, ⟨hindex, hend, hrest⟩, hlong, hshift⟩ := h
  obtain ⟨hm, hms⟩ := List.forall_mem_cons.1 hlong
  dsimp only at hindex hend hrest
  rw [htext] at hend
  obtain ⟨hsplit, hkept, hplace⟩ := split_letters front ts hindex hend
  rw [editedFrom_cons items ts ms hindex] at hnorm
  have hfront : front'.length = m.index + m.length := by
    rw [List.length_append, List.length_append, hkept, hplace, Nat.add_sub_of_le hindex]
  have hput : put'.length = put.length + (m.index - front.length) + newLen items m := by
    rw [List.length_append, List.length_append, List.length_map, hkept, newLen_eq]
  refine ⟨?_, ⟨?_, ?_, hfront ▸ hrest, hms, ?_⟩, hfront, ?_, ?_⟩
  · exact editMatchRun_eq (htext.trans hsplit) hnorm h13
      (by rw [hkept]; exact (Nat.add_sub_of_le hindex).symm) hplace.symm
      (List.ne_nil_of_length_pos (by rwa [hplace])) hshift
  · rw [htext, List.append_assoc, List.append_assoc]
    exact hsplit
  · rw [hfront, List.append_assoc, List.append_assoc]
    exact hnorm
  · rw [hfront, hput]
    omega
  · rw [List.flatMap_append, List.flatMap_append]
    rfl
  · rw [editRestoreEndings_append, editRestoreEndings_append]
    rfl

/-- The loop over the matches finds the runs of the changes. -/
theorem editRunsFrom_eq (crlf : Bool) (h13 : 13 ∉ norm) (h : Stands items text norm front ts put shift ms)
    (last : EditRun) :
    editRunsFrom items (editNormMapBuild (editLinesBuild text))
        (editNormMapBuild (editLinesBuild (editRestoreEndings crlf norm))) last shift ms =
      runsBehind 10 (editDiffContext * 2) last (front.flatMap Letter.raw)
        (editRestoreEndings crlf put) (editChangesFrom crlf items front.length ts ms) := by
  induction ms generalizing front ts put shift last with
  | nil => rfl
  | cons m ms ih =>
    obtain ⟨hrun, hstands, hfront, hold, hnew⟩ := h.step crlf h13
    have hlater := fun last => ih hstands last
    rw [hfront, hold, hnew] at hlater
    rw [editRunsFrom, hrun, editChangesFrom, runsBehind]
    split
    · next hnear => exact (hlater _).trans (if_pos hnear).symm
    · next hnear => exact (congrArg (last :: ·) (hlater _)).trans (if_neg hnear).symm

end Loop

/-- The normalized text that an edit leaves, from the letters of the old one. -/
theorem editedNorm_eq {content : List UInt8} {ms : List EditMatch}
    (hordered : Ordered (editNormalizeLf (fileText content)).length 0
      (ms.map fun m => (m.toSpan, newText items m))) :
    editedNorm content items ms = editedFrom items 0 (letters (fileText content)) ms := by
  have hids : (ms.map fun m => (m.toSpan, newText items m)) =
      (ms.map fun m => (m.toSpan, newText items m)).map fun m => (m.1, id m.2) := by
    rw [List.map_map]
    rfl
  rw [editedNorm, applyFromRight_eq (Nat.zero_le _) hordered, List.take_zero, List.nil_append,
    List.drop_zero, editNormalizeLf_eq, hids, segments_map, assemble_map]
  rfl

theorem norm_ne (t : Letter) : t.norm ≠ 13 := by
  cases t with
  | crlf => decide
  | byte b =>
    rw [Letter.norm]
    split
    · decide
    · assumption

theorem notMem_editNormalizeLf (text : List UInt8) : 13 ∉ editNormalizeLf text := by
  rw [editNormalizeLf_eq]
  intro h
  obtain ⟨t, -, ht⟩ := List.mem_map.1 h
  exact norm_ne t ht

/-- No carriage return is left in a normalized text. -/
theorem notMem_editedNorm (content : List UInt8) (items : List EditItem) (ms : List EditMatch) :
    13 ∉ editedNorm content items ms := by
  intro h
  rcases mem_applyFromRight h with hkept | ⟨m, hm, hnew⟩
  · exact notMem_editNormalizeLf _ hkept
  · obtain ⟨place, -, rfl⟩ := List.mem_map.1 hm
    dsimp only at hnew
    rw [newText] at hnew
    split at hnew
    · exact notMem_editNormalizeLf _ hnew
    · exact absurd hnew List.not_mem_nil

/-- The runs of an accepted edit are those of its changes. -/
theorem editRuns_eq {content : List UInt8} {ms : List EditMatch} (hlong : ∀ m ∈ ms, 0 < m.length)
    (hordered : Ordered (editNormalizeLf (fileText content)).length 0
      (ms.map fun m => (m.toSpan, newText items m))) :
    editRuns items (fileText content) (editedText content items ms) ms =
      runsOf 10 (editDiffContext * 2) (editChanges content items ms) := by
  have hnorm := editedNorm_eq hordered
  have h13 := notMem_editedNorm content items ms
  have hstart : Stands items (fileText content) (editedNorm content items ms) []
      (letters (fileText content)) [] 0 ms := by
    refine ⟨rfl, hnorm, ?_, hlong, rfl⟩
    rw [editNormalizeLf_eq, List.length_map] at hordered
    exact hordered
  cases ms with
  | nil => rfl
  | cons m ms =>
    obtain ⟨hrun, hstands, hfront, hold, hnew⟩ := hstart.step (editDetectEnding (fileText content)) h13
    have hlater := fun last => editRunsFrom_eq (editDetectEnding (fileText content)) h13 hstands last
    rw [hfront, hold, hnew, zero_add] at hlater
    rw [editRuns, editMatchesToRuns, editedText, hrun]
    exact hlater _

end Refines

/-! ## The two texts in changes -/

section Texts

variable {crlf : Bool} {items : List EditItem} {n pos : Nat} {ts : List Letter} {ms : List EditMatch}
  {c : Change UInt8}

theorem wholeOld_editChangesFrom (crlf : Bool) (items : List EditItem) (pos : Nat) (ts : List Letter)
    (ms : List EditMatch) :
    wholeOld (editChangesFrom crlf items pos ts ms) ((editTailFrom pos ts ms).flatMap Letter.raw) =
      ts.flatMap Letter.raw := by
  induction ms generalizing pos ts with
  | nil => rfl
  | cons m ms ih =>
    rw [editChangesFrom, editTailFrom, wholeOld_cons, ih]
    dsimp only
    rw [← List.flatMap_append, List.take_append_drop, ← List.flatMap_append, List.take_append_drop]

theorem wholeNew_editChangesFrom (crlf : Bool) (items : List EditItem)
    (hordered : Ordered n pos (ms.map fun m => (m.toSpan, newText items m))) :
    wholeNew (editChangesFrom crlf items pos ts ms)
        (editRestoreEndings crlf ((editTailFrom pos ts ms).map Letter.norm)) =
      editRestoreEndings crlf (editedFrom items pos ts ms) := by
  induction ms generalizing pos ts with
  | nil =>
    have hall : editedFrom items pos ts [] = ts.map Letter.norm := by
      rw [editedFrom, List.map_nil, segments, assemble_inl, ← List.map_eq_flatMap]
    rw [hall]
    rfl
  | cons m ms ih =>
    obtain ⟨hindex, -, hrest⟩ := hordered
    rw [editChangesFrom, editTailFrom, wholeNew_cons, ih hrest, editedFrom_cons items ts ms hindex,
      editRestoreEndings_append, editRestoreEndings_append]

/-- What is kept in front of a change is kept by the edit. -/
theorem exists_kept_of_mem (hordered : Ordered n pos (ms.map fun m => (m.toSpan, newText items m)))
    (new : EditMatch → List UInt8) (hc : c ∈ editChangesFrom crlf items pos ts ms) :
    ∃ kept : List Letter, c.keptOld = kept.flatMap Letter.raw ∧
      c.keptNew = editRestoreEndings crlf (kept.map Letter.norm) ∧
      ∀ t ∈ kept, t ∈ keptOf (segments pos ts (ms.map fun m => (m.toSpan, new m))) := by
  induction ms generalizing pos ts with
  | nil => exact absurd hc List.not_mem_nil
  | cons m ms ih =>
    obtain ⟨hindex, -, hrest⟩ := hordered
    rw [List.map_cons, segments_cons ts (m.toSpan, new m) _ hindex]
    rw [editChangesFrom] at hc
    rcases List.mem_cons.1 hc with rfl | hc
    · refine ⟨_, rfl, rfl, fun t ht => mem_keptOf.2 ?_⟩
      exact List.mem_append_left _ (List.mem_map_of_mem ht)
    · obtain ⟨kept, hold, hnew, hmem⟩ := ih hrest hc
      refine ⟨kept, hold, hnew, fun t ht => mem_keptOf.2 ?_⟩
      exact List.mem_append_right _ (List.mem_cons_of_mem _ (mem_keptOf.1 (hmem t ht)))

theorem mem_keptOf_of_mem_editTailFrom
    (hordered : Ordered n pos (ms.map fun m => (m.toSpan, newText items m)))
    (new : EditMatch → List UInt8) {t : Letter} (ht : t ∈ editTailFrom pos ts ms) :
    t ∈ keptOf (segments pos ts (ms.map fun m => (m.toSpan, new m))) := by
  induction ms generalizing pos ts with
  | nil => exact mem_keptOf.2 (List.mem_map_of_mem ht)
  | cons m ms ih =>
    obtain ⟨hindex, -, hrest⟩ := hordered
    rw [List.map_cons, segments_cons ts (m.toSpan, new m) _ hindex]
    refine mem_keptOf.2 (List.mem_append_right _ (List.mem_cons_of_mem _ (mem_keptOf.1 ?_)))
    exact ih hrest ht

theorem count_raw_of_ne {t : Letter} (h : t ≠ .byte 13) : t.raw.count 10 = [t.norm].count 10 := by
  cases t with
  | crlf => rfl
  | byte b =>
    rw [Letter.raw, Letter.norm]
    split
    · next hb => exact absurd (congrArg Letter.byte hb) h
    · rfl

theorem count_raw_le (t : Letter) : t.raw.count 10 ≤ [t.norm].count 10 := by
  by_cases h : t = .byte 13
  · rw [h]
    decide
  · exact Nat.le_of_eq (count_raw_of_ne h)

theorem count_kept_new (crlf : Bool) (kept : List Letter) :
    (editRestoreEndings crlf (kept.map Letter.norm)).count 10 =
      (kept.map fun t => [t.norm].count 10).sum := by
  rw [count_editRestoreEndings, List.map_eq_flatMap, List.count_flatMap]
  rfl

/-- Every line of a kept text is a line of it in the new text. -/
theorem count_kept_le (crlf : Bool) (kept : List Letter) : (kept.flatMap Letter.raw).count 10 ≤
    (editRestoreEndings crlf (kept.map Letter.norm)).count 10 := by
  rw [count_kept_new, List.count_flatMap]
  exact List.sum_le_sum fun t _ => count_raw_le t

/-- Without lone carriage returns the kept text has the same lines in the new text. -/
theorem count_kept_eq (crlf : Bool) {kept : List Letter} (h : ∀ t ∈ kept, t ≠ .byte 13) :
    (kept.flatMap Letter.raw).count 10 =
      (editRestoreEndings crlf (kept.map Letter.norm)).count 10 := by
  rw [count_kept_new, List.count_flatMap]
  exact congrArg List.sum (List.map_congr_left fun t ht => count_raw_of_ne (h t ht))

/-- The first line of a kept text without lone carriage returns: the same bytes in both texts, with a
carriage return where the line ends with one. -/
theorem exists_first_line (crlf : Bool) {kept : List Letter} (h : ∀ t ∈ kept, t ≠ .byte 13) :
    ∃ w ending ending' : List UInt8, 13 ∉ w ∧
      (kept.flatMap Letter.raw).takeWhile (· ≠ 10) = w ++ ending ∧
      (editRestoreEndings crlf (kept.map Letter.norm)).takeWhile (· ≠ 10) = w ++ ending' ∧
      (ending = [] ∨ ending = [13]) ∧ (crlf = true → ending.length ≤ ending'.length) ∧
      (crlf = false → ending' = []) := by
  induction kept with
  | nil => exact ⟨[], [], [], List.not_mem_nil, rfl, rfl, Or.inl rfl, fun _ => Nat.le_refl _, fun _ => rfl⟩
  | cons t kept ih =>
    obtain ⟨ht, hkept⟩ := List.forall_mem_cons.1 h
    have hnew : editRestoreEndings crlf ((t :: kept).map Letter.norm) =
        restoreByte crlf t.norm ++ editRestoreEndings crlf (kept.map Letter.norm) := List.flatMap_cons
    rw [hnew, List.flatMap_cons]
    by_cases hend : t.norm = 10
    · -- the line ends here
      have hraw : (t.raw ++ kept.flatMap Letter.raw).takeWhile (· ≠ 10) = [] ∨
          (t.raw ++ kept.flatMap Letter.raw).takeWhile (· ≠ 10) = [13] := by
        cases t with
        | crlf => exact Or.inr rfl
        | byte b =>
          rw [Letter.norm, if_neg (fun hb => ht (congrArg Letter.byte hb))] at hend
          exact Or.inl (by rw [hend]; rfl)
      refine ⟨[], _, _, List.not_mem_nil, rfl, rfl, hraw, ?_, ?_⟩
      · rintro rfl
        have hnew' : (restoreByte true t.norm ++ editRestoreEndings true
            (kept.map Letter.norm)).takeWhile (· ≠ 10) = [13] := by
          rw [hend]
          rfl
        rw [hnew']
        rcases hraw with hraw | hraw
        · rw [hraw]
          decide
        · rw [hraw]
      · rintro rfl
        rw [hend]
        rfl
    · obtain ⟨w, ending, ending', hw, hold, hrestored, hrest⟩ := ih hkept
      obtain ⟨b, rfl, hb, hcr⟩ : ∃ b, t = .byte b ∧ b ≠ 10 ∧ b ≠ 13 := by
        cases t with
        | crlf => exact absurd rfl hend
        | byte b =>
          have hcr : b ≠ 13 := fun hb => ht (congrArg Letter.byte hb)
          rw [Letter.norm, if_neg hcr] at hend
          exact ⟨b, rfl, hend, hcr⟩
      have hnorm : restoreByte crlf (Letter.byte b).norm = [b] := by
        rw [Letter.norm, if_neg hcr, restoreByte, if_neg (fun h => hb h.2)]
      have hcons : ∀ xs : List UInt8, (b :: xs).takeWhile (· ≠ 10) = b :: xs.takeWhile (· ≠ 10) :=
        fun xs => List.takeWhile_cons_of_pos (decide_eq_true hb)
      refine ⟨b :: w, ending, ending', ?_, ?_, ?_, hrest⟩
      · rw [List.mem_cons, not_or]
        exact ⟨Ne.symm hcr, hw⟩
      · rw [Letter.raw, List.singleton_append, hcons, hold]
        rfl
      · rw [hnorm, List.singleton_append, hcons, hrestored]
        rfl

/-- The first line of a kept text is not that of the new text with something in front. -/
theorem first_line_ne {kept : List Letter} (h : ∀ t ∈ kept, t ≠ .byte 13) {x : List UInt8}
    (hne : x ≠ []) (hx : crlf = false → 13 ∉ x) :
    (kept.flatMap Letter.raw).takeWhile (· ≠ 10) ≠
      x ++ (editRestoreEndings crlf (kept.map Letter.norm)).takeWhile (· ≠ 10) := by
  obtain ⟨w, ending, ending', hw, hold, hnew, hending, htrue, hfalse⟩ := exists_first_line crlf h
  rw [hold, hnew]
  intro heq
  have hlen := congrArg List.length heq
  have hpos := List.length_pos_of_ne_nil hne
  rw [List.length_append, List.length_append, List.length_append] at hlen
  cases crlf with
  | true =>
    have hle := htrue rfl
    omega
  | false =>
    rw [hfalse rfl, List.append_nil] at heq
    rw [hfalse rfl, List.length_nil] at hlen
    rcases hending with rfl | rfl
    · rw [List.length_nil] at hlen
      omega
    · -- the carriage return of the old line is nowhere in the new text
      have hmem : 13 ∈ x ++ w := heq ▸ List.mem_append_right w (List.mem_singleton_self 13)
      exact (List.mem_append.1 hmem).elim (hx rfl) hw

end Texts

/-! ## When the diff is true -/

/-- The runs are in order, and with their lines replaced the old text is the new one; the lines that are
shown as removed and as added are those of the runs. -/
structure TrueDiff (items : List EditItem) (oldText newText : List UInt8) (ms : List EditMatch) :
    Prop where
  ordered : (editRuns items oldText newText ms).Pairwise LineRun.Before
  inside : ∀ run ∈ editRuns items oldText newText ms,
    run.Within (editLinesBuild oldText).length (editLinesBuild newText).length
  replaced : replaceLines (editLinesBuild oldText) (editLinesBuild newText) 0
    (editRuns items oldText newText ms) = editLinesBuild newText
  removed : shownAs .removed (editDiffLines items oldText newText ms) =
    (editRuns items oldText newText ms).flatMap fun run =>
      numbered (editLinesBuild oldText) run.oldStart run.oldEnd
  added : shownAs .added (editDiffLines items oldText newText ms) =
    (editRuns items oldText newText ms).flatMap fun run =>
      numbered (editLinesBuild newText) run.newStart run.newEnd

section Accepted

variable {maxFileSize : Nat} {path : String} {content written : List UInt8} {items : List EditItem}
  {ms : List EditMatch}

/-- The place of an accepted edit is not empty. -/
theorem pos_length_of_editContent
    (h : editContent maxFileSize path content items = .ok written)
    (hms : editMatches path (editNormalizeLf (fileText content)) items = .ok ms) :
    ∀ m ∈ ms, 0 < m.length := by
  obtain ⟨-, hne, -⟩ := editContent_eq_ok_iff.1 h
  intro m hm
  obtain ⟨item, hitem, hlen, -⟩ := (of_editMatches hms).1 m hm
  rw [hlen]
  exact List.length_pos_of_ne_nil (oldText_ne_nil (hne item (List.mem_of_getElem? hitem)))

/-- What is kept of an accepted edit, in letters. -/
theorem exists_kept_of_mem_editCuts
    (hms : editMatches path (editNormalizeLf (fileText content)) items = .ok ms) :
    (∀ c ∈ editChanges content items ms, ∃ kept : List Letter,
      c.keptOld = kept.flatMap Letter.raw ∧
      c.keptNew = editRestoreEndings (editDetectEnding (fileText content)) (kept.map Letter.norm) ∧
      ∀ t ∈ kept, t ∈ keptOf (editPieces content items ms)) ∧
    ∀ t ∈ editTailFrom 0 (letters (fileText content)) ms, t ∈ keptOf (editPieces content items ms) := by
  have hordered := (of_editMatches hms).2 (newText items)
  exact ⟨fun c hc => exists_kept_of_mem hordered _ hc,
    fun t ht => mem_keptOf_of_mem_editTailFrom hordered _ ht⟩

/-- The texts of an accepted edit are those of its changes. -/
theorem texts_of_editMatches
    (hms : editMatches path (editNormalizeLf (fileText content)) items = .ok ms) :
    wholeOld (editChanges content items ms)
        ((editTailFrom 0 (letters (fileText content)) ms).flatMap Letter.raw) = fileText content ∧
      wholeNew (editChanges content items ms) (editRestoreEndings (editDetectEnding (fileText content))
        ((editTailFrom 0 (letters (fileText content)) ms).map Letter.norm)) =
          editedText content items ms := by
  have hordered := (of_editMatches hms).2 (newText items)
  refine ⟨?_, ?_⟩
  · exact (wholeOld_editChangesFrom _ items 0 _ ms).trans (flatMap_raw_letters _)
  · rw [editedText, editedNorm_eq hordered]
    exact wholeNew_editChangesFrom _ items hordered

theorem trueDiff_of_editCuts (h : editContent maxFileSize path content items = .ok written)
    (hms : editMatches path (editNormalizeLf (fileText content)) items = .ok ms)
    (hcuts : ∀ cut ∈ editCuts content items ms, cut.Aligned 10) :
    TrueDiff items (fileText content) (editedText content items ms) ms := by
  have hruns := editRuns_eq (pos_length_of_editContent h hms) ((of_editMatches hms).2 (newText items))
  obtain ⟨hold, hnew⟩ := texts_of_editMatches hms
  have hcount : ∀ c ∈ editChanges content items ms, c.keptOld.count 10 ≤ c.keptNew.count 10 := by
    intro c hc
    obtain ⟨kept, holdKept, hnewKept, -⟩ := (exists_kept_of_mem_editCuts hms).1 c hc
    rw [holdKept, hnewKept]
    exact count_kept_le _ kept
  obtain ⟨hreplaced, hordered, hinside⟩ := replaceLines_of_aligned (by decide) hcount hcuts
  rw [hold, hnew, ← hruns] at hreplaced
  rw [← hruns] at hordered
  rw [hold, hnew, ← hruns] at hinside
  exact ⟨hordered, hinside, hreplaced, removed_editDiffLinesFrom hinside _ _,
    added_editDiffLinesFrom hinside _ _⟩

/-- A line of the new text has no carriage return when its lines end without. -/
theorem notMem_openLine_of_mem_editCuts
    (hms : editMatches path (editNormalizeLf (fileText content)) items = .ok ms) {cut : Cut UInt8}
    (hcut : cut ∈ editCuts content items ms) (hlf : editDetectEnding (fileText content) = false) :
    13 ∉ openLine 10 cut.new := by
  have hprefix := (of_mem_cutsOf hcut).2.2
  rw [(texts_of_editMatches hms).2] at hprefix
  intro hmem
  have hnew : 13 ∈ editedText content items ms :=
    hprefix.subset ((List.rtakeWhile_suffix _ _).subset hmem)
  rw [editedText, hlf] at hnew
  obtain ⟨b, hb, hrestore⟩ := List.mem_flatMap.1 hnew
  rw [restoreByte, if_neg (fun h => Bool.false_ne_true h.1)] at hrestore
  exact notMem_editedNorm content items ms (List.mem_singleton.1 hrestore ▸ hb)

theorem editCuts_of_trueDiff (h : editContent maxFileSize path content items = .ok written)
    (hms : editMatches path (editNormalizeLf (fileText content)) items = .ok ms)
    (hcr : ∀ t ∈ keptOf (editPieces content items ms), t ≠ .byte 13)
    (hshift : (∀ cut ∈ editCuts content items ms, ¬cut.Gains 10) ∨
      ∀ cut ∈ editCuts content items ms, ¬cut.Loses 10)
    (hdiff : TrueDiff items (fileText content) (editedText content items ms) ms) :
    ∀ cut ∈ editCuts content items ms, cut.Aligned 10 := by
  have hruns := editRuns_eq (pos_length_of_editContent h hms) ((of_editMatches hms).2 (newText items))
  obtain ⟨hold, hnew⟩ := texts_of_editMatches hms
  obtain ⟨hchanges, htail⟩ := exists_kept_of_mem_editCuts hms
  have hcount : ∀ c ∈ editChanges content items ms, c.keptOld.count 10 = c.keptNew.count 10 := by
    intro c hc
    obtain ⟨kept, holdKept, hnewKept, hmem⟩ := hchanges c hc
    rw [holdKept, hnewKept]
    exact count_kept_eq _ fun t ht => hcr t (hmem t ht)
  have hfirst : ∀ cut ∈ editCuts content items ms, openLine 10 cut.new ≠ [] →
      cut.keptOld.takeWhile (· ≠ 10) ≠ openLine 10 cut.new ++ cut.keptNew.takeWhile (· ≠ 10) := by
    intro cut hcut hne
    have hlf := notMem_openLine_of_mem_editCuts hms hcut
    rcases (of_mem_cutsOf hcut).2.1 with ⟨holdKept, hnewKept⟩ | ⟨c, hc, holdKept, hnewKept⟩
    · rw [holdKept, hnewKept]
      exact first_line_ne (fun t ht => hcr t (htail t ht)) hne hlf
    · obtain ⟨kept, holdKept', hnewKept', hmem⟩ := hchanges c hc
      rw [holdKept, hnewKept, holdKept', hnewKept']
      exact first_line_ne (fun t ht => hcr t (hmem t ht)) hne hlf
  have hreplaced := hdiff.replaced
  rw [editLinesBuild, editLinesBuild, ← hold, ← hnew] at hreplaced
  rw [hold, hnew, hruns, ← hold, ← hnew] at hreplaced
  exact (replaceLines_eq_iff (by decide) hcount (count_kept_eq _ fun t ht => hcr t (htail t ht)) hfirst
    hshift).1 hreplaced

/-- A single edit has one run, and no other one makes up for it. -/
theorem not_gains_or_not_loses_of_single (content : List UInt8) (items : List EditItem)
    (m : EditMatch) : (∀ cut ∈ editCuts content items [m], ¬cut.Gains 10) ∨
      ∀ cut ∈ editCuts content items [m], ¬cut.Loses 10 := by
  have hhead : ∀ keptOld keptNew : List UInt8,
      ¬Cut.Gains 10 ⟨[], [], true, keptOld, keptNew, false⟩ ∧
        ¬Cut.Loses 10 ⟨[], [], true, keptOld, keptNew, false⟩ := fun _ _ =>
    ⟨fun h => Bool.noConfusion h.2.1, fun h => h.1 rfl⟩
  obtain ⟨head, final, hcuts, hgains, hloses⟩ : ∃ head final, editCuts content items [m] =
      [head, final] ∧ ¬head.Gains 10 ∧ ¬head.Loses 10 :=
    ⟨_, _, rfl, (hhead _ _).1, (hhead _ _).2⟩
  rw [hcuts]
  by_cases hfinal : final.Gains 10
  · refine Or.inr (List.forall_mem_cons.2 ⟨hloses, List.forall_mem_singleton.2 ?_⟩)
    exact fun h => h.1 hfinal.1
  · exact Or.inl (List.forall_mem_cons.2 ⟨hgains, List.forall_mem_singleton.2 hfinal⟩)

/-- The diff of a single edit that keeps no lone carriage return is true just when its cuts are
aligned. -/
theorem trueDiff_iff_of_single {m : EditMatch}
    (h : editContent maxFileSize path content items = .ok written)
    (hms : editMatches path (editNormalizeLf (fileText content)) items = .ok [m])
    (hcr : ∀ t ∈ keptOf (editPieces content items [m]), t ≠ .byte 13) :
    TrueDiff items (fileText content) (editedText content items [m]) [m] ↔
      ∀ cut ∈ editCuts content items [m], cut.Aligned 10 :=
  ⟨editCuts_of_trueDiff h hms hcr (not_gains_or_not_loses_of_single content items m),
    trueDiff_of_editCuts h hms⟩

/-- **The diff of an edit** is true when behind every run the kept text begins alike in both texts and
keeps its whole lines.  Where no lone carriage return is kept and no two runs make up for each other, it
is true only then. -/
theorem trueDiff_of_aligned (h : editContent maxFileSize path content items = .ok written)
    (hms : editMatches path (editNormalizeLf (fileText content)) items = .ok ms) :
    written = content.take (bomLen content) ++ editedText content items ms ∧
    ((∀ cut ∈ editCuts content items ms, cut.Aligned 10) →
      TrueDiff items (fileText content) (editedText content items ms) ms) ∧
    ((∀ t ∈ keptOf (editPieces content items ms), t ≠ .byte 13) →
      ((∀ cut ∈ editCuts content items ms, ¬cut.Gains 10) ∨
        ∀ cut ∈ editCuts content items ms, ¬cut.Loses 10) →
      TrueDiff items (fileText content) (editedText content items ms) ms →
        ∀ cut ∈ editCuts content items ms, cut.Aligned 10) := by
  refine ⟨?_, trueDiff_of_editCuts h hms, editCuts_of_trueDiff h hms⟩
  obtain ⟨ms', hms', hwritten⟩ := of_editContent h
  obtain rfl := Except.ok.inj (hms.symm.trans hms')
  exact hwritten

/-- A word of one letter is replaced. -/
theorem trueDiff_of_aligned_letter :
    ([97, 88, 99] : List UInt8) = [97, 98, 99].take (bomLen [97, 98, 99]) ++
        editedText [97, 98, 99] [letterEdit 98 88 (by decide)] [⟨⟨1, 1⟩, 0⟩] ∧
      ((∀ cut ∈ editCuts [97, 98, 99] [letterEdit 98 88 (by decide)] [⟨⟨1, 1⟩, 0⟩], cut.Aligned 10) →
        TrueDiff [letterEdit 98 88 (by decide)] (fileText [97, 98, 99])
          (editedText [97, 98, 99] [letterEdit 98 88 (by decide)] [⟨⟨1, 1⟩, 0⟩]) [⟨⟨1, 1⟩, 0⟩]) ∧
      ((∀ t ∈ keptOf (editPieces [97, 98, 99] [letterEdit 98 88 (by decide)] [⟨⟨1, 1⟩, 0⟩]),
          t ≠ .byte 13) →
        ((∀ cut ∈ editCuts [97, 98, 99] [letterEdit 98 88 (by decide)] [⟨⟨1, 1⟩, 0⟩], ¬cut.Gains 10) ∨
          ∀ cut ∈ editCuts [97, 98, 99] [letterEdit 98 88 (by decide)] [⟨⟨1, 1⟩, 0⟩], ¬cut.Loses 10) →
        TrueDiff [letterEdit 98 88 (by decide)] (fileText [97, 98, 99])
          (editedText [97, 98, 99] [letterEdit 98 88 (by decide)] [⟨⟨1, 1⟩, 0⟩]) [⟨⟨1, 1⟩, 0⟩] →
        ∀ cut ∈ editCuts [97, 98, 99] [letterEdit 98 88 (by decide)] [⟨⟨1, 1⟩, 0⟩], cut.Aligned 10) :=
  @trueDiff_of_aligned 100 "f" [97, 98, 99] [97, 88, 99] _ _ (by decide) (by decide)

/-- Deleting a letter of a line: the line is shown as removed, and what is left of it is not shown. -/
def deleteLetter : EditItem where
  oldStr := ⟨[98], by decide⟩
  newStr := ⟨[], by decide⟩

theorem not_trueDiff_deleteLetter :
    ¬∀ (maxFileSize : Nat) (path : String) (content written : List UInt8) (items : List EditItem)
      (ms : List EditMatch), editContent maxFileSize path content items = .ok written →
        editMatches path (editNormalizeLf (fileText content)) items = .ok ms →
          TrueDiff items (fileText content) (editedText content items ms) ms := by
  intro hall
  have hreplaced := (hall 100 "f" [97, 98, 99] [97, 99] [deleteLetter] [⟨⟨1, 1⟩, 0⟩] (by decide)
    (by decide)).replaced
  exact absurd hreplaced (by decide)

end Accepted

end EchoAi
