import EchoAi.Splicing
import EchoAi.Splitting

/-!
# Runs of changed lines

Parts of a text are replaced.  The lines that the parts touch are taken together in runs, parts that
are near each other in one run.

* `openLine`: the line that a text ends in, with `take_splitOn_append` and `drop_splitOn_append`.
* `Change`, `LineRun`, `runsOf`: the parts and their runs.
* `replaceLines`: the lines of the old text with the runs replaced.
* `Cut`, `cutsOf`: the places where kept text stands behind a run, and the lines that are kept there.
* `replaceLines_of_aligned`, `replaceLines_eq_iff`: when the runs give the lines of the new text.
-/

namespace EchoAi.LineRuns

variable {α : Type*} [DecidableEq α] {a : α} {xs ys : List α}

/-! ## The lines of a text in two parts -/

/-- The line that a text ends in. -/
def openLine (a : α) (xs : List α) : List α := xs.rtakeWhile (· ≠ a)

theorem notMem_openLine (a : α) (xs : List α) : a ∉ openLine a xs := by
  intro h
  have hne := List.mem_rtakeWhile_imp (p := fun b => decide (b ≠ a)) h
  exact absurd rfl (of_decide_eq_true hne)

theorem openLine_of_notMem (h : a ∉ xs) : openLine a xs = xs :=
  List.rtakeWhile_eq_self_iff.2 fun _ hx => decide_eq_true fun heq => h (heq ▸ hx)

theorem openLine_append_cons (a : α) (xs ys : List α) :
    openLine a (xs ++ a :: ys) = openLine a ys := by
  have hnil : (a :: xs.reverse).takeWhile (· ≠ a) = [] := List.takeWhile_cons_of_neg (by simp)
  have hrev : (xs ++ a :: ys).reverse = ys.reverse ++ a :: xs.reverse := by simp
  rw [openLine, openLine, List.rtakeWhile, List.rtakeWhile, hrev, List.takeWhile_append, hnil]
  split
  · next hall => rw [List.append_nil, (List.takeWhile_prefix _).eq_of_length hall]
  · rfl

/-- A text ends in an empty line when it is empty or ends with the separator. -/
theorem openLine_eq_nil_iff : openLine a xs = [] ↔ ∀ b ∈ xs.getLast?, b = a := by
  rw [openLine, List.rtakeWhile_eq_nil_iff]
  constructor
  · intro h b hb
    obtain ⟨hne, rfl⟩ := List.mem_getLast?_eq_getLast hb
    by_contra hba
    exact h hne (decide_eq_true hba)
  · intro h hne hlast
    exact of_decide_eq_true hlast (h _ (List.getLast?_eq_some_getLast hne))

/-- The lines in front of the last one are those of the first part. -/
theorem exists_splitOn_append (a : α) (xs : List α) :
    ∃ lines : List (List α), lines.length = xs.count a ∧
      ∀ ys, (xs ++ ys).splitOn a = lines ++ (openLine a xs ++ ys).splitOn a := by
  induction xs using splitOn_induction a with
  | last xs hxs =>
    refine ⟨[], (List.count_eq_zero_of_not_mem hxs).symm, fun ys => ?_⟩
    rw [openLine_of_notMem hxs]
    rfl
  | cut item rest hitem ih =>
    obtain ⟨lines, hlen, hsplit⟩ := ih
    refine ⟨item :: lines, ?_, fun ys => ?_⟩
    · rw [List.count_append, List.count_eq_zero_of_not_mem hitem, List.count_cons_self,
        List.length_cons, hlen, Nat.zero_add]
    · rw [List.append_assoc, List.cons_append, List.splitOn_append_cons_self_of_not_mem hitem, hsplit,
        openLine_append_cons]
      rfl

theorem length_splitOn (a : α) (xs : List α) : (xs.splitOn a).length = xs.count a + 1 := by
  obtain ⟨lines, hlen, hsplit⟩ := exists_splitOn_append a xs
  have hwhole := hsplit []
  rw [List.append_nil, List.append_nil, List.splitOn_eq_singleton (notMem_openLine a xs)] at hwhole
  rw [hwhole, List.length_append, hlen]
  rfl

theorem take_splitOn_append (a : α) (xs ys : List α) :
    ((xs ++ ys).splitOn a).take (xs.count a) = (xs.splitOn a).dropLast := by
  obtain ⟨lines, hlen, hsplit⟩ := exists_splitOn_append a xs
  have hwhole := hsplit []
  rw [List.append_nil, List.append_nil, List.splitOn_eq_singleton (notMem_openLine a xs)] at hwhole
  rw [hsplit, ← hlen, List.take_left, hwhole, List.dropLast_concat]

theorem drop_splitOn_append (a : α) (xs ys : List α) :
    ((xs ++ ys).splitOn a).drop (xs.count a) = (openLine a xs ++ ys).splitOn a := by
  obtain ⟨lines, hlen, hsplit⟩ := exists_splitOn_append a xs
  rw [hsplit, ← hlen, List.drop_left]

/-- What stands in front of the first separator changes the first line only. -/
theorem tail_splitOn_append {item : List α} (hitem : a ∉ item) (ys : List α) :
    ((item ++ ys).splitOn a).tail = (ys.splitOn a).tail := by
  by_cases hys : a ∈ ys
  · obtain ⟨first, rest, rfl, hfirst⟩ := List.eq_append_cons_of_mem hys
    have hboth : a ∉ item ++ first := List.not_mem_append hitem hfirst
    rw [← List.append_assoc, List.splitOn_append_cons_self_of_not_mem hboth,
      List.splitOn_append_cons_self_of_not_mem hfirst]
    rfl
  · rw [List.splitOn_eq_singleton hys, List.splitOn_eq_singleton (List.not_mem_append hitem hys)]
    rfl

/-! ## Runs -/

/-- A part of the old text, what replaces it, and the text that is kept in front of it, as it is in both
texts. -/
structure Change (α : Type*) where
  keptOld : List α
  keptNew : List α
  old : List α
  new : List α

/-- Lines `[oldStart, oldEnd)` of the old text that become lines `[newStart, newEnd)` of the new one. -/
structure LineRun where
  oldStart : Nat
  oldEnd : Nat
  newStart : Nat
  newEnd : Nat
  deriving DecidableEq, Repr

/-- The next run is within `d` lines. -/
def LineRun.Near (d : Nat) (last run : LineRun) : Prop :=
  run.oldStart ≤ last.oldEnd + d ∧ run.newStart ≤ last.newEnd + d

instance (d : Nat) (last run : LineRun) : Decidable (last.Near d run) :=
  inferInstanceAs (Decidable (_ ∧ _))

/-- A run up to the end of another one. -/
def LineRun.upTo (last run : LineRun) : LineRun :=
  { last with oldEnd := run.oldEnd, newEnd := run.newEnd }

/-- Places where a run ends and kept text follows.  `old` and `new` are the texts in front of it, and
`emptied` says that nothing was put in last. -/
structure Cut (α : Type*) where
  old : List α
  new : List α
  emptied : Bool
  keptOld : List α
  keptNew : List α
  final : Bool

section Runs

variable (a : α) (d : Nat)

/-- Whether a text ends within a line.  A part that puts in nothing is taken to end in front of its
line. -/
def skip (emptied : Bool) (xs : List α) : Nat :=
  if emptied = true ∨ openLine a xs = [] then 0 else 1

/-- The line behind the last line that a part touches, for the text up to its end. -/
def lineEnd (emptied : Bool) (xs : List α) : Nat := xs.count a + skip a emptied xs

namespace Change

variable (c : Change α) (p q : List α)

/-- The old text up to the end of a part, for the text `p` in front. -/
def behindOld : List α := p ++ c.keptOld ++ c.old

/-- The new text up to the end of a part. -/
def behindNew : List α := q ++ c.keptNew ++ c.new

/-- The lines of one part. -/
def run : LineRun where
  oldStart := (p ++ c.keptOld).count a
  oldEnd := lineEnd a false (c.behindOld p)
  newStart := (q ++ c.keptNew).count a
  newEnd := lineEnd a (c.new = []) (c.behindNew q)

end Change

/-- The old text, for the text behind all parts. -/
def wholeOld (cs : List (Change α)) (tail : List α) : List α :=
  cs.flatMap (fun c => c.keptOld ++ c.old) ++ tail

/-- The new text. -/
def wholeNew (cs : List (Change α)) (tail : List α) : List α :=
  cs.flatMap (fun c => c.keptNew ++ c.new) ++ tail

/-- The runs from `last` on, for the texts up to its end. -/
def runsBehind : (last : LineRun) → (p q : List α) → List (Change α) → List LineRun
  | last, _, _, [] => [last]
  | last, p, q, c :: cs =>
    let run := c.run a p q
    if last.Near d run then runsBehind (last.upTo run) (c.behindOld p) (c.behindNew q) cs
    else last :: runsBehind run (c.behindOld p) (c.behindNew q) cs

/-- The runs of parts: those within `d` lines of each other are one. -/
def runsOf : List (Change α) → List LineRun
  | [] => []
  | c :: cs => runsBehind a d (c.run a [] []) (c.behindOld []) (c.behindNew []) cs

/-- The places behind `last` where a run ends. -/
def cutsBehind (tailOld tailNew : List α) :
    (last : LineRun) → (p q : List α) → (emptied : Bool) → List (Change α) → List (Cut α)
  | _, p, q, emptied, [] => [⟨p, q, emptied, tailOld, tailNew, true⟩]
  | last, p, q, emptied, c :: cs =>
    let run := c.run a p q
    let cuts := cutsBehind tailOld tailNew run (c.behindOld p) (c.behindNew q) (c.new = []) cs
    if last.Near d run then cuts else ⟨p, q, emptied, c.keptOld, c.keptNew, false⟩ :: cuts

/-- The places where kept text begins: at the front, and behind every run. -/
def cutsOf (tailOld tailNew : List α) : List (Change α) → List (Cut α)
  | [] => [⟨[], [], true, tailOld, tailNew, true⟩]
  | c :: cs => ⟨[], [], true, c.keptOld, c.keptNew, false⟩ ::
    cutsBehind a d tailOld tailNew (c.run a [] []) (c.behindOld []) (c.behindNew []) (c.new = []) cs

end Runs

/-- Lines `[i, j)` of a text. -/
def slice (lines : List (List α)) (i j : Nat) : List (List α) := (lines.take j).drop i

/-- The lines of the old text from `pos` on with each run replaced by lines of the new one. -/
def replaceLines (old new : List (List α)) : (pos : Nat) → List LineRun → List (List α)
  | pos, [] => old.drop pos
  | pos, run :: runs =>
    slice old pos run.oldStart ++ (slice new run.newStart run.newEnd ++
      replaceLines old new run.oldEnd runs)

/-! ## What is kept behind a run -/

/-- Whole lines of a text behind the first `skip`; the last one is not whole unless the text is the end
of all. -/
def stretch (a : α) (xs : List α) (skip : Nat) (final : Bool) : List (List α) :=
  let lines := (xs.splitOn a).drop skip
  if final then lines else lines.dropLast

namespace Cut

variable (a : α) (cut : Cut α)

/-- The lines of the old text that are kept. -/
def linesOld : List (List α) :=
  stretch a (openLine a cut.old ++ cut.keptOld) (skip a false cut.old) cut.final

/-- The lines of the new text that do not come from a run. -/
def linesNew : List (List α) :=
  stretch a (openLine a cut.new ++ cut.keptNew) (skip a cut.emptied cut.new) cut.final

/-- The run ends at a line in both texts, or within a line in both; where it puts in nothing it ends at
a line in both. -/
def Level : Prop :=
  (openLine a cut.old = [] ↔ openLine a cut.new = []) ∧
    (cut.emptied = true → openLine a cut.old = [])

/-- A cut that is level, with the same whole lines behind it. -/
def Aligned : Prop :=
  cut.Level a ∧ stretch a cut.keptOld (skip a false cut.old) cut.final =
    stretch a cut.keptNew (skip a false cut.old) cut.final

/-- The run ends at a line of the old text and within a line of the new one. -/
def Gains : Prop := openLine a cut.old = [] ∧ cut.emptied = false ∧ openLine a cut.new ≠ []

/-- The run ends within a line of the old text, and at a line of the new one or with nothing put in. -/
def Loses : Prop := openLine a cut.old ≠ [] ∧ (cut.emptied = true ∨ openLine a cut.new = [])

end Cut

/-! ## The lines of both texts, run by run -/

omit [DecidableEq α] in
theorem slice_append_drop (lines : List (List α)) {i j : Nat} (h : i ≤ j) :
    slice lines i j ++ lines.drop j = lines.drop i := by
  have hsplit : lines.drop i = (lines.take j ++ lines.drop j).drop i := by rw [List.take_append_drop]
  rw [hsplit, slice, List.drop_append]
  rcases Nat.le_total j lines.length with hj | hj
  · rw [List.length_take_of_le hj, Nat.sub_eq_zero_of_le h, List.drop_zero]
  · rw [List.drop_eq_nil_of_le hj, List.drop_nil]

theorem slice_splitOn (a : α) (xs kept rest : List α) (n : Nat) :
    slice ((xs ++ kept ++ rest).splitOn a) (xs.count a + n) ((xs ++ kept).count a) =
      stretch a (openLine a xs ++ kept) n false := by
  rw [slice, take_splitOn_append, ← List.dropLast_drop_eq_drop_dropLast, ← List.drop_drop,
    drop_splitOn_append, stretch]
  rfl

theorem drop_splitOn (a : α) (xs kept : List α) (n : Nat) :
    ((xs ++ kept).splitOn a).drop (xs.count a + n) = stretch a (openLine a xs ++ kept) n true := by
  rw [← List.drop_drop, drop_splitOn_append, stretch]
  rfl

/-- A run whose ends are those of these texts. -/
structure LineRun.Reaches (a : α) (run : LineRun) (p q : List α) (emptied : Bool) : Prop where
  oldStart : run.oldStart ≤ p.count a
  oldEnd : run.oldEnd = lineEnd a false p
  newStart : run.newStart ≤ q.count a
  newEnd : run.newEnd = lineEnd a emptied q

section Reaches

variable {d : Nat} {c : Change α} {cs : List (Change α)} {p q tailOld tailNew : List α}
  {last : LineRun} {emptied : Bool}

theorem skip_le_one (a : α) (emptied : Bool) (xs : List α) : skip a emptied xs ≤ 1 := by
  rw [skip]
  split <;> decide

theorem Change.reaches_run (a : α) (c : Change α) (p q : List α) :
    (c.run a p q).Reaches a (c.behindOld p) (c.behindNew q) (c.new = []) where
  oldStart := (List.sublist_append_left _ _).count_le _
  oldEnd := rfl
  newStart := (List.sublist_append_left _ _).count_le _
  newEnd := rfl

theorem LineRun.Reaches.upTo (h : last.Reaches a p q emptied) (c : Change α) :
    (last.upTo (c.run a p q)).Reaches a (c.behindOld p) (c.behindNew q) (c.new = []) where
  oldStart := by
    refine Nat.le_trans h.oldStart ?_
    rw [Change.behindOld, List.append_assoc]
    exact (List.sublist_append_left _ _).count_le _
  oldEnd := rfl
  newStart := by
    refine Nat.le_trans h.newStart ?_
    rw [Change.behindNew, List.append_assoc]
    exact (List.sublist_append_left _ _).count_le _
  newEnd := rfl

/-- A run that is not near begins behind the last one, and more than `d` lines are kept between them. -/
theorem LineRun.Reaches.far (h : last.Reaches a p q emptied) (hnear : ¬last.Near d (c.run a p q)) :
    d < c.keptOld.count a ∨ d < c.keptNew.count a := by
  rw [LineRun.Near, h.oldEnd, h.newEnd] at hnear
  unfold Change.run lineEnd at hnear
  dsimp only at hnear
  rw [List.count_append, List.count_append] at hnear
  omega

/-- Kept text and runs one behind the other, from the run `last` on. -/
def segsBehind (a : α) (d : Nat) (new : List (List α)) (tailOld tailNew : List α) :
    (last : LineRun) → (p q : List α) → (emptied : Bool) → List (Change α) →
      List (Cut α ⊕ List (List α))
  | last, p, q, emptied, [] =>
    [Sum.inr (slice new last.newStart last.newEnd), Sum.inl ⟨p, q, emptied, tailOld, tailNew, true⟩]
  | last, p, q, emptied, c :: cs =>
    let run := c.run a p q
    if last.Near d run then
      segsBehind a d new tailOld tailNew (last.upTo run) (c.behindOld p) (c.behindNew q) (c.new = []) cs
    else
      Sum.inr (slice new last.newStart last.newEnd) ::
        Sum.inl ⟨p, q, emptied, c.keptOld, c.keptNew, false⟩ ::
          segsBehind a d new tailOld tailNew run (c.behindOld p) (c.behindNew q) (c.new = []) cs

section Texts

omit [DecidableEq α]

theorem wholeOld_cons (c : Change α) (cs : List (Change α)) (tail : List α) :
    wholeOld (c :: cs) tail = c.keptOld ++ (c.old ++ wholeOld cs tail) := by
  rw [wholeOld, wholeOld, List.flatMap_cons, List.append_assoc, List.append_assoc]

theorem wholeNew_cons (c : Change α) (cs : List (Change α)) (tail : List α) :
    wholeNew (c :: cs) tail = c.keptNew ++ (c.new ++ wholeNew cs tail) := by
  rw [wholeNew, wholeNew, List.flatMap_cons, List.append_assoc, List.append_assoc]

theorem append_wholeOld_cons (c : Change α) (cs : List (Change α)) (p tail : List α) :
    p ++ wholeOld (c :: cs) tail = c.behindOld p ++ wholeOld cs tail := by
  rw [wholeOld_cons, Change.behindOld, List.append_assoc, List.append_assoc]

theorem append_wholeNew_cons (c : Change α) (cs : List (Change α)) (q tail : List α) :
    q ++ wholeNew (c :: cs) tail = c.behindNew q ++ wholeNew cs tail := by
  rw [wholeNew_cons, Change.behindNew, List.append_assoc, List.append_assoc]

end Texts

/-- The start of the last run does not matter for the places where runs end. -/
theorem cutsBehind_upTo (a : α) (d : Nat) (tailOld tailNew p q : List α) (last run : LineRun)
    (emptied : Bool) (cs : List (Change α)) :
    cutsBehind a d tailOld tailNew (last.upTo run) p q emptied cs =
      cutsBehind a d tailOld tailNew run p q emptied cs := by
  cases cs with
  | nil => rfl
  | cons c cs => rfl

theorem keptOf_segsBehind (a : α) (d : Nat) (new : List (List α)) (tailOld tailNew : List α)
    (last : LineRun) (p q : List α) (emptied : Bool) (cs : List (Change α)) :
    keptOf (segsBehind a d new tailOld tailNew last p q emptied cs) =
      cutsBehind a d tailOld tailNew last p q emptied cs := by
  induction cs generalizing last p q emptied with
  | nil => rfl
  | cons c cs ih =>
    rw [segsBehind, cutsBehind]
    split
    · rw [ih, cutsBehind_upTo]
    · rw [← ih]
      rfl

/-- The lines with the runs replaced are those that are kept of the old text and those of the runs. -/
theorem replaceLines_runsBehind (h : last.Reaches a p q emptied) (new : List (List α)) (pos : Nat) :
    replaceLines ((p ++ wholeOld cs tailOld).splitOn a) new pos (runsBehind a d last p q cs) =
      slice ((p ++ wholeOld cs tailOld).splitOn a) pos last.oldStart ++
        assemble (Cut.linesOld a) (segsBehind a d new tailOld tailNew last p q emptied cs) := by
  induction cs generalizing last p q emptied pos with
  | nil =>
    have hend := drop_splitOn a p tailOld (skip a false p)
    rw [runsBehind, replaceLines, replaceLines, h.oldEnd, segsBehind, assemble_inr]
    refine congrArg (slice _ pos last.oldStart ++ ·) (congrArg (slice new _ _ ++ ·) ?_)
    exact hend.trans (List.append_nil _).symm
  | cons c cs ih =>
    have hwhole := append_wholeOld_cons c cs p tailOld
    rw [runsBehind, segsBehind]
    split
    · rw [hwhole, ih (h.upTo c)]
      rfl
    · have hkept : slice ((p ++ wholeOld (c :: cs) tailOld).splitOn a) last.oldEnd
          (c.run a p q).oldStart = Cut.linesOld a ⟨p, q, emptied, c.keptOld, c.keptNew, false⟩ := by
        have hsplit : p ++ wholeOld (c :: cs) tailOld =
            p ++ c.keptOld ++ (c.old ++ wholeOld cs tailOld) := by
          rw [hwhole, Change.behindOld, List.append_assoc]
        rw [hsplit, h.oldEnd]
        exact slice_splitOn a p c.keptOld _ _
      rw [replaceLines, assemble_inr, hwhole, ih (c.reaches_run a p q), ← hwhole, hkept]
      rfl

/-- The lines of the new text are those of the runs and the others. -/
theorem drop_splitOn_wholeNew (h : last.Reaches a p q emptied)
    (hcount : ∀ c ∈ cs, c.keptOld.count a ≤ c.keptNew.count a) :
    ((q ++ wholeNew cs tailNew).splitOn a).drop last.newStart =
      assemble (Cut.linesNew a) (segsBehind a d ((q ++ wholeNew cs tailNew).splitOn a) tailOld tailNew
        last p q emptied cs) := by
  induction cs generalizing last p q emptied with
  | nil =>
    have hend := drop_splitOn a q tailNew (skip a emptied q)
    have hle : last.newStart ≤ last.newEnd :=
      Nat.le_trans h.newStart (h.newEnd ▸ Nat.le_add_right _ _)
    rw [segsBehind, assemble_inr, ← slice_append_drop _ hle, h.newEnd]
    refine congrArg (slice _ _ _ ++ ·) ?_
    exact hend.trans (List.append_nil _).symm
  | cons c cs ih =>
    obtain ⟨hc, hcs⟩ := List.forall_mem_cons.1 hcount
    have hwhole := append_wholeNew_cons c cs q tailNew
    rw [segsBehind]
    split
    · rw [hwhole]
      exact ih (h.upTo c) hcs
    · next hnear =>
      have hkept : slice ((q ++ wholeNew (c :: cs) tailNew).splitOn a) last.newEnd
          (c.run a p q).newStart = Cut.linesNew a ⟨p, q, emptied, c.keptOld, c.keptNew, false⟩ := by
        have hsplit : q ++ wholeNew (c :: cs) tailNew =
            q ++ c.keptNew ++ (c.new ++ wholeNew cs tailNew) := by
          rw [hwhole, Change.behindNew, List.append_assoc]
        rw [hsplit, h.newEnd]
        exact slice_splitOn a q c.keptNew _ _
      have hle : last.newStart ≤ last.newEnd :=
        Nat.le_trans h.newStart (h.newEnd ▸ Nat.le_add_right _ _)
      have hbehind : last.newEnd ≤ (c.run a p q).newStart := by
        have hfar := h.far hnear
        have hskip := skip_le_one a emptied q
        have hstart : (c.run a p q).newStart = q.count a + c.keptNew.count a := List.count_append
        rw [h.newEnd, lineEnd, hstart]
        omega
      rw [assemble_inr, ← slice_append_drop _ hle, ← slice_append_drop _ hbehind, hkept, hwhole,
        ih (c.reaches_run a p q) hcs]
      rfl

end Reaches

/-! ## Cuts -/

section Cuts

variable {d : Nat} {c : Change α} {cs : List (Change α)} {p q tailOld tailNew : List α}
  {last : LineRun} {emptied : Bool} {cut : Cut α}

theorem length_stretch (a : α) (xs : List α) (n : Nat) (final : Bool) :
    (stretch a xs n final).length = xs.count a + final.toNat - n := by
  rw [stretch]
  cases final with
  | false =>
    show ((xs.splitOn a).drop n).dropLast.length = xs.count a + 0 - n
    rw [List.length_dropLast, List.length_drop, length_splitOn]
    omega
  | true =>
    show ((xs.splitOn a).drop n).length = xs.count a + 1 - n
    rw [List.length_drop, length_splitOn]

theorem count_openLine_append (a : α) (xs kept : List α) :
    (openLine a xs ++ kept).count a = kept.count a := by
  rw [List.count_append, List.count_eq_zero_of_not_mem (notMem_openLine a xs), Nat.zero_add]

theorem Cut.length_linesOld (a : α) (cut : Cut α) : (cut.linesOld a).length =
    cut.keptOld.count a + cut.final.toNat - skip a false cut.old := by
  rw [linesOld, length_stretch, count_openLine_append]

theorem Cut.length_linesNew (a : α) (cut : Cut α) : (cut.linesNew a).length =
    cut.keptNew.count a + cut.final.toNat - skip a cut.emptied cut.new := by
  rw [linesNew, length_stretch, count_openLine_append]

/-- Behind the first line nothing depends on what stands in front. -/
theorem stretch_one {item : List α} (hitem : a ∉ item) (ys : List α) (final : Bool) :
    stretch a (item ++ ys) 1 final = stretch a ys 1 final := by
  rw [stretch, stretch, List.drop_one, List.drop_one, tail_splitOn_append hitem]

theorem skip_eq_zero_iff : skip a emptied xs = 0 ↔ emptied = true ∨ openLine a xs = [] := by
  rw [skip]
  split
  · next h => exact iff_of_true rfl h
  · next h => exact iff_of_false Nat.one_ne_zero h

theorem skip_false_eq_zero_iff : skip a false xs = 0 ↔ openLine a xs = [] := by
  rw [skip_eq_zero_iff]
  exact or_iff_right Bool.false_ne_true

theorem skip_eq_one (h : skip a emptied xs ≠ 0) : skip a emptied xs = 1 := by
  have hle := skip_le_one a emptied xs
  omega

theorem Cut.Level.skip_eq (h : cut.Level a) : skip a cut.emptied cut.new = skip a false cut.old := by
  obtain ⟨hiff, hemptied⟩ := h
  by_cases hold : openLine a cut.old = []
  · rw [skip_false_eq_zero_iff.2 hold, skip_eq_zero_iff.2 (Or.inr (hiff.1 hold))]
  · have hold' := mt skip_false_eq_zero_iff.1 hold
    have hnew' : skip a cut.emptied cut.new ≠ 0 := by
      rw [Ne, skip_eq_zero_iff]
      rintro (he | hnew)
      · exact hold (hemptied he)
      · exact hold (hiff.2 hnew)
    rw [skip_eq_one hold', skip_eq_one hnew']

/-- Behind an aligned cut the same lines are kept in both texts. -/
theorem Cut.Aligned.lines_eq (h : cut.Aligned a) : cut.linesOld a = cut.linesNew a := by
  obtain ⟨hlevel, hkept⟩ := h
  rw [linesOld, linesNew, hlevel.skip_eq]
  by_cases hold : openLine a cut.old = []
  · rw [hold, hlevel.1.1 hold]
    exact hkept
  · rw [skip_eq_one (mt skip_false_eq_zero_iff.1 hold)] at hkept ⊢
    rw [stretch_one (notMem_openLine a _), stretch_one (notMem_openLine a _), hkept]

theorem Cut.skip_le_of_not_gains (h : ¬cut.Gains a) :
    skip a cut.emptied cut.new ≤ skip a false cut.old := by
  by_contra hlt
  have hold : skip a false cut.old = 0 := by
    have hle := skip_le_one a cut.emptied cut.new
    omega
  have hnew := mt skip_eq_zero_iff.2 (Nat.ne_zero_of_lt (Nat.not_le.1 hlt))
  exact h ⟨skip_false_eq_zero_iff.1 hold, Bool.eq_false_iff.2 fun he => hnew (Or.inl he),
    fun hopen => hnew (Or.inr hopen)⟩

theorem Cut.skip_le_of_not_loses (h : ¬cut.Loses a) :
    skip a false cut.old ≤ skip a cut.emptied cut.new := by
  by_contra hlt
  have hnew : skip a cut.emptied cut.new = 0 := by
    have hle := skip_le_one a false cut.old
    omega
  have hold := mt skip_false_eq_zero_iff.2 (Nat.ne_zero_of_lt (Nat.not_le.1 hlt))
  exact h ⟨hold, skip_eq_zero_iff.1 hnew⟩

theorem head_splitOn (a : α) (xs : List α) :
    (xs.splitOn a).head? = some (xs.takeWhile (· ≠ a)) := by
  by_cases hxs : a ∈ xs
  · obtain ⟨first, rest, rfl, hfirst⟩ := List.eq_append_cons_of_mem hxs
    rw [List.splitOn_append_cons_self_of_not_mem hfirst, takeWhile_ne_append_cons hfirst]
    rfl
  · rw [List.splitOn_eq_singleton hxs, takeWhile_ne_of_notMem hxs]
    rfl

theorem head_stretch (final : Bool) (h : final = true ∨ 0 < xs.count a) :
    (stretch a xs 0 final).head? = some (xs.takeWhile (· ≠ a)) := by
  rw [← head_splitOn, stretch, List.drop_zero]
  cases final with
  | true => rfl
  | false =>
    have hlen := length_splitOn a xs
    have hpos := h.resolve_left Bool.false_ne_true
    show ((xs.splitOn a).dropLast).head? = _
    rw [List.head?_dropLast, if_pos (by omega)]

/-- A cut with the same lines behind it is aligned, when there are as many lines in both texts and the
first one is not the same with something in front. -/
theorem Cut.aligned_of_lines_eq (hcount : cut.keptOld.count a = cut.keptNew.count a)
    (hlong : cut.old = [] ∧ cut.new = [] ∨ cut.final = true ∨ 1 < cut.keptOld.count a)
    (hfirst : openLine a cut.new ≠ [] → cut.keptOld.takeWhile (· ≠ a) ≠
      openLine a cut.new ++ cut.keptNew.takeWhile (· ≠ a))
    (h : cut.linesOld a = cut.linesNew a) : cut.Aligned a := by
  have hskip : skip a cut.emptied cut.new = skip a false cut.old := by
    have hlen := congrArg List.length h
    rw [length_linesOld, length_linesNew, hcount] at hlen
    have hold := skip_le_one a false cut.old
    have hnew := skip_le_one a cut.emptied cut.new
    rcases hlong with ⟨hold', hnew'⟩ | hfinal | hlong
    · rw [hold', hnew', skip_false_eq_zero_iff.2 rfl, skip_eq_zero_iff.2 (Or.inr rfl)]
    · rw [hfinal, Bool.toNat_true] at hlen
      omega
    · omega
  rw [linesOld, linesNew, hskip] at h
  by_cases hold : openLine a cut.old = []
  · have hzero := skip_false_eq_zero_iff.2 hold
    have hnew : openLine a cut.new = [] := by
      by_contra hne
      have hnonempty : cut.final = true ∨ 0 < cut.keptOld.count a := by
        rcases hlong with ⟨-, hnew'⟩ | hfinal | hlong
        · exact absurd (by rw [hnew']; rfl) hne
        · exact Or.inl hfinal
        · exact Or.inr (Nat.zero_lt_of_lt hlong)
      rw [hold, hzero, List.nil_append] at h
      have hheads := congrArg List.head? h
      rw [head_stretch _ hnonempty, head_stretch _ (by rwa [count_openLine_append, ← hcount])] at hheads
      refine hfirst hne ((Option.some.inj hheads).trans ?_)
      exact List.takeWhile_append_of_pos fun b hb =>
        decide_eq_true fun heq => notMem_openLine a cut.new (heq ▸ hb)
    refine ⟨⟨iff_of_true hold hnew, fun _ => hold⟩, ?_⟩
    rwa [hold, hnew] at h
  · have hone := skip_eq_one (mt skip_false_eq_zero_iff.1 hold)
    have hboth := mt skip_eq_zero_iff.2 (hskip.trans hone ▸ Nat.one_ne_zero)
    refine ⟨⟨iff_of_false hold fun hnew => hboth (Or.inr hnew), fun he => absurd (Or.inl he) hboth⟩, ?_⟩
    rw [hone] at h ⊢
    rwa [stretch_one (notMem_openLine a _), stretch_one (notMem_openLine a _)] at h

/-- What stands behind a cut is what is kept in front of a part that is not near, or the end. -/
theorem of_mem_cutsBehind (h : last.Reaches a p q emptied)
    (hcut : cut ∈ cutsBehind a d tailOld tailNew last p q emptied cs) :
    (cut.final = true ∧ cut.keptOld = tailOld ∧ cut.keptNew = tailNew) ∨
      ∃ c ∈ cs, cut.final = false ∧ cut.keptOld = c.keptOld ∧ cut.keptNew = c.keptNew ∧
        (d < c.keptOld.count a ∨ d < c.keptNew.count a) := by
  induction cs generalizing last p q emptied with
  | nil =>
    obtain rfl := List.mem_singleton.1 hcut
    exact Or.inl ⟨rfl, rfl, rfl⟩
  | cons c cs ih =>
    rw [cutsBehind] at hcut
    split at hcut
    · exact (ih (c.reaches_run a p q) hcut).imp_right fun ⟨c', hc', hkept⟩ =>
        ⟨c', List.mem_cons_of_mem _ hc', hkept⟩
    next hnear =>
    rcases List.mem_cons.1 hcut with rfl | hmem
    · exact Or.inr ⟨c, List.mem_cons_self, rfl, rfl, rfl, h.far hnear⟩
    · exact (ih (c.reaches_run a p q) hmem).imp_right fun ⟨c', hc', hkept⟩ =>
        ⟨c', List.mem_cons_of_mem _ hc', hkept⟩

/-- The new text up to a cut. -/
theorem isPrefix_of_mem_cutsBehind
    (hcut : cut ∈ cutsBehind a d tailOld tailNew last p q emptied cs) :
    cut.new <+: q ++ wholeNew cs tailNew := by
  induction cs generalizing last p q emptied with
  | nil =>
    obtain rfl := List.mem_singleton.1 hcut
    exact List.prefix_append _ _
  | cons c cs ih =>
    have hwhole := append_wholeNew_cons c cs q tailNew
    rw [cutsBehind] at hcut
    split at hcut
    · exact hwhole ▸ ih hcut
    · rcases List.mem_cons.1 hcut with rfl | hmem
      · exact List.prefix_append _ _
      · exact hwhole ▸ ih hmem

/-! ## The order of the runs -/

/-- One run is in front of another in both texts. -/
def LineRun.Before (run run' : LineRun) : Prop :=
  run.oldEnd ≤ run'.oldStart ∧ run.newEnd ≤ run'.newStart

/-- The lines of a run are lines of the texts. -/
def LineRun.Within (m n : Nat) (run : LineRun) : Prop :=
  run.oldStart ≤ run.oldEnd ∧ run.oldEnd ≤ m ∧ run.newStart ≤ run.newEnd ∧ run.newEnd ≤ n

theorem lineEnd_le (a : α) (emptied : Bool) (xs ys : List α) :
    lineEnd a emptied xs ≤ ((xs ++ ys).splitOn a).length := by
  have hskip := skip_le_one a emptied xs
  rw [lineEnd, length_splitOn, List.count_append]
  omega

/-- Where as many lines are kept behind the last run in both texts, the next one begins behind it. -/
theorem LineRun.Reaches.before (h : last.Reaches a p q emptied) (hd : 0 < d)
    (hnear : ¬last.Near d (c.run a p q)) (hcount : c.keptOld.count a ≤ c.keptNew.count a)
    (hcut : (Cut.linesOld a ⟨p, q, emptied, c.keptOld, c.keptNew, false⟩).length =
      (Cut.linesNew a ⟨p, q, emptied, c.keptOld, c.keptNew, false⟩).length) :
    last.Before (c.run a p q) := by
  have hfar := h.far hnear
  have hold := skip_le_one a false p
  have hnew := skip_le_one a emptied q
  have holdStart : (c.run a p q).oldStart = p.count a + c.keptOld.count a := List.count_append
  have hnewStart : (c.run a p q).newStart = q.count a + c.keptNew.count a := List.count_append
  rw [Cut.length_linesOld, Cut.length_linesNew, Bool.toNat_false] at hcut
  dsimp only at hcut
  rw [LineRun.Before, h.oldEnd, h.newEnd, lineEnd, lineEnd, holdStart, hnewStart]
  omega

theorem LineRun.Reaches.within (h : last.Reaches a p q emptied) :
    last.Within ((p ++ wholeOld cs tailOld).splitOn a).length
      ((q ++ wholeNew cs tailNew).splitOn a).length :=
  ⟨Nat.le_trans h.oldStart (h.oldEnd ▸ Nat.le_add_right _ _), h.oldEnd ▸ lineEnd_le a _ p _,
    Nat.le_trans h.newStart (h.newEnd ▸ Nat.le_add_right _ _), h.newEnd ▸ lineEnd_le a _ q _⟩

/-- The runs are in order, where as many lines are kept between them in both texts. -/
theorem ordered_runsBehind (h : last.Reaches a p q emptied) (hd : 0 < d)
    (hcount : ∀ c ∈ cs, c.keptOld.count a ≤ c.keptNew.count a)
    (hcuts : ∀ cut ∈ cutsBehind a d tailOld tailNew last p q emptied cs,
      (cut.linesOld a).length = (cut.linesNew a).length) :
    (runsBehind a d last p q cs).Pairwise LineRun.Before ∧
      ∀ run ∈ runsBehind a d last p q cs, last.oldStart ≤ run.oldStart ∧
        last.newStart ≤ run.newStart ∧ run.Within ((p ++ wholeOld cs tailOld).splitOn a).length
          ((q ++ wholeNew cs tailNew).splitOn a).length := by
  induction cs generalizing last p q emptied with
  | nil =>
    refine ⟨List.pairwise_singleton _ _, fun run hrun => ?_⟩
    obtain rfl := List.mem_singleton.1 hrun
    exact ⟨Nat.le_refl _, Nat.le_refl _, h.within⟩
  | cons c cs ih =>
    obtain ⟨hc, hcs⟩ := List.forall_mem_cons.1 hcount
    have hwithin := @LineRun.Reaches.within α _ a (c :: cs) p q tailOld tailNew last emptied h
    rw [append_wholeOld_cons, append_wholeNew_cons] at hwithin ⊢
    rw [cutsBehind] at hcuts
    rw [runsBehind]
    split at hcuts
    · next hnear =>
      rw [if_pos hnear]
      exact ih (h.upTo c) hcs (by rwa [cutsBehind_upTo])
    · next hnear =>
      obtain ⟨hcut, hlater⟩ := List.forall_mem_cons.1 hcuts
      obtain ⟨hpairwise, hruns⟩ := ih (c.reaches_run a p q) hcs hlater
      obtain ⟨hold, hnew⟩ := h.before hd hnear hc hcut
      rw [if_neg hnear]
      refine ⟨List.pairwise_cons.2 ⟨fun run hrun => ?_, hpairwise⟩, List.forall_mem_cons.2 ⟨?_, ?_⟩⟩
      · obtain ⟨hrunOld, hrunNew, -⟩ := hruns run hrun
        exact ⟨Nat.le_trans hold hrunOld, Nat.le_trans hnew hrunNew⟩
      · exact ⟨Nat.le_refl _, Nat.le_refl _, hwithin⟩
      · intro run hrun
        obtain ⟨hrunOld, hrunNew, hrunWithin⟩ := hruns run hrun
        exact ⟨Nat.le_trans (Nat.le_trans hwithin.1 hold) hrunOld,
          Nat.le_trans (Nat.le_trans hwithin.2.2.1 hnew) hrunNew, hrunWithin⟩

end Cuts

/-! ## When the runs give the new text -/

section Whole

variable {d : Nat} {cs : List (Change α)} {tailOld tailNew : List α}

/-- Kept text and runs, one behind the other. -/
def segsOf (a : α) (d : Nat) (new : List (List α)) (tailOld tailNew : List α) :
    List (Change α) → List (Cut α ⊕ List (List α))
  | [] => [Sum.inl ⟨[], [], true, tailOld, tailNew, true⟩]
  | c :: cs => Sum.inl ⟨[], [], true, c.keptOld, c.keptNew, false⟩ ::
    segsBehind a d new tailOld tailNew (c.run a [] []) (c.behindOld []) (c.behindNew []) (c.new = []) cs

theorem keptOf_segsOf (a : α) (d : Nat) (new : List (List α)) (tailOld tailNew : List α)
    (cs : List (Change α)) :
    keptOf (segsOf a d new tailOld tailNew cs) = cutsOf a d tailOld tailNew cs := by
  cases cs with
  | nil => rfl
  | cons c cs =>
    rw [cutsOf, ← keptOf_segsBehind]
    rfl

theorem replaceLines_runsOf (a : α) (d : Nat) (new : List (List α)) (cs : List (Change α))
    (tailOld tailNew : List α) :
    replaceLines ((wholeOld cs tailOld).splitOn a) new 0 (runsOf a d cs) =
      assemble (Cut.linesOld a) (segsOf a d new tailOld tailNew cs) := by
  cases cs with
  | nil => exact (List.append_nil _).symm
  | cons c cs =>
    have hkept := slice_splitOn a [] c.keptOld (c.old ++ wholeOld cs tailOld) 0
    have hbehind := @replaceLines_runsBehind α _ a d cs (c.behindOld []) (c.behindNew []) tailOld
      tailNew _ _ (c.reaches_run a [] []) new 0
    have hwhole : wholeOld (c :: cs) tailOld = c.behindOld [] ++ wholeOld cs tailOld :=
      append_wholeOld_cons c cs [] tailOld
    have hsplit : c.behindOld [] ++ wholeOld cs tailOld =
        [] ++ c.keptOld ++ (c.old ++ wholeOld cs tailOld) := List.append_assoc _ _ _
    rw [hwhole, runsOf, hbehind, hsplit]
    exact congrArg (· ++ _) hkept

theorem splitOn_wholeNew (a : α) (d : Nat) (cs : List (Change α)) (tailOld tailNew : List α)
    (hcount : ∀ c ∈ cs, c.keptOld.count a ≤ c.keptNew.count a) :
    (wholeNew cs tailNew).splitOn a = assemble (Cut.linesNew a)
      (segsOf a d ((wholeNew cs tailNew).splitOn a) tailOld tailNew cs) := by
  cases cs with
  | nil => exact (List.append_nil _).symm
  | cons c cs =>
    have hkept := slice_splitOn a [] c.keptNew (c.new ++ wholeNew cs tailNew) 0
    have hbehind := @drop_splitOn_wholeNew α _ a d cs (c.behindOld []) (c.behindNew []) tailOld
      tailNew _ _ (c.reaches_run a [] []) (List.forall_mem_cons.1 hcount).2
    have hwhole : wholeNew (c :: cs) tailNew = c.behindNew [] ++ wholeNew cs tailNew :=
      append_wholeNew_cons c cs [] tailNew
    have hsplit : c.behindNew [] ++ wholeNew cs tailNew =
        [] ++ c.keptNew ++ (c.new ++ wholeNew cs tailNew) := List.append_assoc _ _ _
    have hwholeLines := slice_append_drop ((wholeNew (c :: cs) tailNew).splitOn a)
      (Nat.zero_le (c.run a [] []).newStart)
    rw [List.drop_zero] at hwholeLines
    rw [← hwhole] at hbehind
    rw [← hsplit, ← hwhole] at hkept
    rw [hbehind] at hwholeLines
    refine hwholeLines.symm.trans ?_
    exact congrArg (· ++ _) hkept

/-- The runs give the new text just when each cut keeps the same lines, where none keeps fewer in the
old text or none keeps more. -/
theorem replaceLines_eq_iff_lines (hcount : ∀ c ∈ cs, c.keptOld.count a ≤ c.keptNew.count a)
    (hlen : (∀ cut ∈ cutsOf a d tailOld tailNew cs, (cut.linesOld a).length ≤ (cut.linesNew a).length) ∨
      ∀ cut ∈ cutsOf a d tailOld tailNew cs, (cut.linesNew a).length ≤ (cut.linesOld a).length) :
    replaceLines ((wholeOld cs tailOld).splitOn a) ((wholeNew cs tailNew).splitOn a) 0
        (runsOf a d cs) = (wholeNew cs tailNew).splitOn a ↔
      ∀ cut ∈ cutsOf a d tailOld tailNew cs, cut.linesOld a = cut.linesNew a := by
  have hnew := splitOn_wholeNew a d cs tailOld tailNew hcount
  have hkept := keptOf_segsOf a d ((wholeNew cs tailNew).splitOn a) tailOld tailNew cs
  have hassemble : replaceLines ((wholeOld cs tailOld).splitOn a) ((wholeNew cs tailNew).splitOn a) 0
        (runsOf a d cs) = (wholeNew cs tailNew).splitOn a ↔
      assemble (Cut.linesOld a) (segsOf a d ((wholeNew cs tailNew).splitOn a) tailOld tailNew cs) =
        assemble (Cut.linesNew a)
          (segsOf a d ((wholeNew cs tailNew).splitOn a) tailOld tailNew cs) := by
    rw [← hnew, replaceLines_runsOf a d _ cs tailOld tailNew]
  rw [hassemble, ← hkept]
  rw [← hkept] at hlen
  rcases hlen with hle | hge
  · exact assemble_eq_iff_of_length_le hle
  · rw [eq_comm, assemble_eq_iff_of_length_le hge]
    exact forall₂_congr fun _ _ => eq_comm

/-- The runs give the new text and stand in order, when every cut is aligned. -/
theorem replaceLines_of_aligned (hd : 0 < d)
    (hcount : ∀ c ∈ cs, c.keptOld.count a ≤ c.keptNew.count a)
    (h : ∀ cut ∈ cutsOf a d tailOld tailNew cs, cut.Aligned a) :
    replaceLines ((wholeOld cs tailOld).splitOn a) ((wholeNew cs tailNew).splitOn a) 0
        (runsOf a d cs) = (wholeNew cs tailNew).splitOn a ∧
      (runsOf a d cs).Pairwise LineRun.Before ∧
      ∀ run ∈ runsOf a d cs, run.Within ((wholeOld cs tailOld).splitOn a).length
        ((wholeNew cs tailNew).splitOn a).length := by
  have hlines : ∀ cut ∈ cutsOf a d tailOld tailNew cs, cut.linesOld a = cut.linesNew a :=
    fun cut hcut => (h cut hcut).lines_eq
  refine ⟨?_, ?_⟩
  · exact (replaceLines_eq_iff_lines hcount (Or.inl fun cut hcut =>
      Nat.le_of_eq (congrArg List.length (hlines cut hcut)))).2 hlines
  · cases cs with
    | nil => exact ⟨List.Pairwise.nil, fun run hrun => absurd hrun List.not_mem_nil⟩
    | cons c cs =>
      obtain ⟨hpairwise, hruns⟩ := @ordered_runsBehind α _ a d cs (c.behindOld []) (c.behindNew [])
        tailOld tailNew _ _ (c.reaches_run a [] []) hd (List.forall_mem_cons.1 hcount).2
        fun cut hcut => congrArg List.length (hlines cut (List.mem_cons_of_mem _ hcut))
      refine ⟨hpairwise, fun run hrun => ?_⟩
      have hwithin := (hruns run hrun).2.2
      rwa [← append_wholeOld_cons, ← append_wholeNew_cons] at hwithin

theorem of_mem_cutsOf {cut : Cut α} (hcut : cut ∈ cutsOf a d tailOld tailNew cs) :
    (cut.old = [] ∧ cut.new = [] ∨ cut.final = true ∨
        d < cut.keptOld.count a ∨ d < cut.keptNew.count a) ∧
      (cut.keptOld = tailOld ∧ cut.keptNew = tailNew ∨
        ∃ c ∈ cs, cut.keptOld = c.keptOld ∧ cut.keptNew = c.keptNew) ∧
      cut.new <+: wholeNew cs tailNew := by
  cases cs with
  | nil =>
    obtain rfl := List.mem_singleton.1 hcut
    exact ⟨Or.inl ⟨rfl, rfl⟩, Or.inl ⟨rfl, rfl⟩, List.nil_prefix⟩
  | cons c cs =>
    rcases List.mem_cons.1 hcut with rfl | hmem
    · exact ⟨Or.inl ⟨rfl, rfl⟩, Or.inr ⟨c, List.mem_cons_self, rfl, rfl⟩, List.nil_prefix⟩
    have hprefix := isPrefix_of_mem_cutsBehind hmem
    rw [← append_wholeNew_cons] at hprefix
    rcases of_mem_cutsBehind (c.reaches_run a [] []) hmem with
      ⟨hfinal, hold, hnew⟩ | ⟨c', hc', -, hold, hnew, hfar⟩
    · exact ⟨Or.inr (Or.inl hfinal), Or.inl ⟨hold, hnew⟩, hprefix⟩
    · rw [← hold, ← hnew] at hfar
      exact ⟨Or.inr (Or.inr hfar), Or.inr ⟨c', List.mem_cons_of_mem _ hc', hold, hnew⟩, hprefix⟩

/-- **The runs give the new text** just when every cut is aligned, where the kept texts have as many
lines in both texts, no first line is one of the new text with something in front, and no run that ends
within a line too early makes up for one that ends too late. -/
theorem replaceLines_eq_iff (hd : 0 < d)
    (hcount : ∀ c ∈ cs, c.keptOld.count a = c.keptNew.count a)
    (htail : tailOld.count a = tailNew.count a)
    (hfirst : ∀ cut ∈ cutsOf a d tailOld tailNew cs, openLine a cut.new ≠ [] →
      cut.keptOld.takeWhile (· ≠ a) ≠ openLine a cut.new ++ cut.keptNew.takeWhile (· ≠ a))
    (hshift : (∀ cut ∈ cutsOf a d tailOld tailNew cs, ¬cut.Gains a) ∨
      ∀ cut ∈ cutsOf a d tailOld tailNew cs, ¬cut.Loses a) :
    replaceLines ((wholeOld cs tailOld).splitOn a) ((wholeNew cs tailNew).splitOn a) 0
        (runsOf a d cs) = (wholeNew cs tailNew).splitOn a ↔
      ∀ cut ∈ cutsOf a d tailOld tailNew cs, cut.Aligned a := by
  have hkept : ∀ cut ∈ cutsOf a d tailOld tailNew cs, cut.keptOld.count a = cut.keptNew.count a := by
    intro cut hcut
    rcases (of_mem_cutsOf hcut).2.1 with ⟨hold, hnew⟩ | ⟨c, hc, hold, hnew⟩
    · rw [hold, hnew, htail]
    · rw [hold, hnew, hcount c hc]
  have hlen : (∀ cut ∈ cutsOf a d tailOld tailNew cs,
        (cut.linesOld a).length ≤ (cut.linesNew a).length) ∨
      ∀ cut ∈ cutsOf a d tailOld tailNew cs,
        (cut.linesNew a).length ≤ (cut.linesOld a).length := by
    refine hshift.imp (fun h cut hcut => ?_) fun h cut hcut => ?_
    · rw [Cut.length_linesOld, Cut.length_linesNew, hkept cut hcut]
      exact Nat.sub_le_sub_left (Cut.skip_le_of_not_gains (h cut hcut)) _
    · rw [Cut.length_linesOld, Cut.length_linesNew, hkept cut hcut]
      exact Nat.sub_le_sub_left (Cut.skip_le_of_not_loses (h cut hcut)) _
  rw [replaceLines_eq_iff_lines (fun c hc => Nat.le_of_eq (hcount c hc)) hlen]
  refine forall₂_congr fun cut hcut => ⟨fun h => ?_, fun h => h.lines_eq⟩
  have hlong : cut.old = [] ∧ cut.new = [] ∨ cut.final = true ∨ 1 < cut.keptOld.count a := by
    refine (of_mem_cutsOf hcut).1.imp_right (Or.imp_right fun hfar => ?_)
    have hsame := hkept cut hcut
    omega
  exact cut.aligned_of_lines_eq (hkept cut hcut) hlong (hfirst cut hcut) h

end Whole

end EchoAi.LineRuns
