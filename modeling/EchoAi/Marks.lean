import Mathlib.Data.List.Infix

/-!
# Texts with marks

Some texts are marks: they are not shown, and they say what the text behind them is.

* `Marks`: marks that begin with a sign which no mark has elsewhere.
* `Marks.scan`: every symbol of a text that belongs to no mark, with what the mark before it says.
* `Marks.scan_append_of_free`, `Marks.scan_mark`: a text up to its first mark, and behind it.
* `Marks.free_of_first`: the first mark of a text is the first one also when the text goes on.
* `Marks.free_of_unfinished`: a mark that the end of a text does not begin does not reach back.
-/

namespace EchoAi

variable {α σ : Type*}

/-- Marks that begin with a sign which no mark has elsewhere. -/
structure Marks (α σ : Type*) where
  entries : List (List α × σ)
  sign : α
  begins : ∀ m ∈ entries, ∃ body, m.1 = sign :: body ∧ sign ∉ body
  apart : ∀ m ∈ entries, ∀ m' ∈ entries, m.1 <+: m'.1 → m = m'

namespace Marks

variable (marks : Marks α σ)

/-- No mark begins in the front of a text. -/
def Free (front rest : List α) : Prop :=
  ∀ i < front.length, ∀ m ∈ marks.entries, ¬m.1 <+: (front ++ rest).drop i

variable {marks}

theorem Free.tail {x : α} {front rest : List α} (h : marks.Free (x :: front) rest) :
    marks.Free front rest :=
  fun i hi => h (i + 1) (Nat.succ_lt_succ hi)

theorem ne_nil {m : List α × σ} (hm : m ∈ marks.entries) : m.1 ≠ [] := by
  obtain ⟨body, hbody, -⟩ := marks.begins m hm
  rw [hbody]
  exact List.cons_ne_nil _ _

/-- Without the sign there is no mark. -/
theorem free_of_sign_notMem {front : List α} (hsign : marks.sign ∉ front) (rest : List α) :
    marks.Free front rest := by
  intro i hi m hm hstand
  obtain ⟨body, hbody, -⟩ := marks.begins m hm
  rw [hbody, List.drop_append_of_le_length (Nat.le_of_lt hi), List.drop_eq_getElem_cons hi,
    List.cons_append, List.cons_prefix_cons] at hstand
  exact hsign (hstand.1 ▸ List.getElem_mem hi)

/-- The first mark of a text is the first one also when the text goes on. -/
theorem free_of_first {front rest : List α} {m : List α × σ} (hm : m ∈ marks.entries)
    (hfirst : marks.Free front (m.1 ++ rest)) (more : List α) :
    marks.Free front (m.1 ++ (rest ++ more)) := by
  intro i hi m' hm' hstand
  have hassoc : front ++ (m.1 ++ (rest ++ more)) = front ++ (m.1 ++ rest) ++ more := by
    simp only [List.append_assoc]
  rw [hassoc, List.drop_append_of_le_length (by rw [List.length_append]; omega)] at hstand
  rcases Nat.lt_or_ge ((front ++ (m.1 ++ rest)).drop i).length m'.1.length with hlong | hshort
  · -- the mark would hold the sign of the first one behind its own
    have hcover : front.drop i ++ m.1 <+: m'.1 := by
      have hin : front.drop i ++ m.1 <+: (front ++ (m.1 ++ rest)).drop i := by
        rw [List.drop_append_of_le_length (Nat.le_of_lt hi), ← List.append_assoc]
        exact List.prefix_append _ _
      exact hin.trans
        (List.prefix_of_prefix_length_le (List.prefix_append _ more) hstand (Nat.le_of_lt hlong))
    obtain ⟨body, hbody, hsign⟩ := marks.begins m' hm'
    obtain ⟨inner, hinner, -⟩ := marks.begins m hm
    rw [hbody, List.drop_eq_getElem_cons hi, List.cons_append, List.cons_prefix_cons] at hcover
    refine hsign (hcover.2.subset (List.mem_append_right _ ?_))
    rw [hinner]
    exact List.mem_cons_self
  · exact hfirst i hi m' hm'
      (List.prefix_of_prefix_length_le hstand (List.prefix_append _ more) hshort)

/-- A text holds no mark, and none of its ends that are longer than the rest begins one.  Then no
mark begins in front of the rest, also when the text goes on. -/
theorem free_of_unfinished {front rest : List α}
    (hnone : ∀ m ∈ marks.entries, ¬m.1 <:+: front ++ rest)
    (hends : ∀ i < front.length, ∀ m ∈ marks.entries, ¬(front ++ rest).drop i <+: m.1)
    (more : List α) : marks.Free front (rest ++ more) := by
  intro i hi m hm hstand
  rw [← List.append_assoc,
    List.drop_append_of_le_length (by rw [List.length_append]; omega)] at hstand
  rcases Nat.lt_or_ge ((front ++ rest).drop i).length m.1.length with hlong | hshort
  · exact hends i hi m hm
      (List.prefix_of_prefix_length_le (List.prefix_append _ more) hstand (Nat.le_of_lt hlong))
  · have hin := List.prefix_of_prefix_length_le hstand (List.prefix_append _ more) hshort
    exact hnone m hm (hin.isInfix.trans (List.drop_suffix i _).isInfix)

/-! ## What the text between the marks is -/

section Scan

variable [DecidableEq α] (marks)

/-- The mark that a text begins with. -/
def markAt (xs : List α) : Option (List α × σ) := marks.entries.find? fun m => m.1 <+: xs

/-- The symbols of a text behind its next `skip` ones. -/
def scanFrom : (skip : Nat) → (state : σ) → (xs : List α) → List (σ × α)
  | _, _, [] => []
  | skip + 1, state, _ :: xs => scanFrom skip state xs
  | 0, state, x :: xs =>
    match marks.markAt (x :: xs) with
    | some m => scanFrom (m.1.length - 1) m.2 xs
    | none => (state, x) :: scanFrom 0 state xs

/-- Every symbol that belongs to no mark, with what the mark before it says. -/
def scan (state : σ) (xs : List α) : List (σ × α) := marks.scanFrom 0 state xs

variable {marks} {state : σ}

theorem scanFrom_eq (skip : Nat) (xs : List α) :
    marks.scanFrom skip state xs = marks.scan state (xs.drop skip) := by
  induction xs generalizing skip with
  | nil => rw [List.drop_nil, scan, scanFrom, scanFrom]
  | cons x xs ih =>
    cases skip with
    | zero => rfl
    | succ skip => rw [scanFrom, List.drop_succ_cons, ih]

theorem markAt_mark {m : List α × σ} (hm : m ∈ marks.entries) (xs : List α) :
    marks.markAt (m.1 ++ xs) = some m := by
  obtain ⟨found, hfound⟩ : ∃ found, marks.markAt (m.1 ++ xs) = some found := by
    refine Option.isSome_iff_exists.1 (List.find?_isSome.2 ⟨m, hm, ?_⟩)
    exact decide_eq_true (List.prefix_append _ _)
  have hmem := List.mem_of_find?_eq_some hfound
  have hstand : found.1 <+: m.1 ++ xs := by
    rw [markAt] at hfound
    have hfinds := List.find?_some hfound
    exact of_decide_eq_true hfinds
  -- of two marks at one place one begins the other
  have hsame : found = m := by
    rcases Nat.le_total found.1.length m.1.length with hle | hle
    · exact marks.apart found hmem m hm
        (List.prefix_of_prefix_length_le hstand (List.prefix_append _ _) hle)
    · exact (marks.apart m hm found hmem
        (List.prefix_of_prefix_length_le (List.prefix_append _ _) hstand hle)).symm
  rw [hfound, hsame]

/-- A mark is not shown, and it says what follows. -/
theorem scan_mark {m : List α × σ} (hm : m ∈ marks.entries) (xs : List α) :
    marks.scan state (m.1 ++ xs) = marks.scan m.2 xs := by
  have hat := markAt_mark hm xs
  obtain ⟨body, hbody, -⟩ := marks.begins m hm
  rw [hbody, List.cons_append] at hat ⊢
  rw [scan, scanFrom, hat]
  show marks.scanFrom (m.1.length - 1) m.2 (body ++ xs) = marks.scan m.2 xs
  rw [scanFrom_eq, hbody, List.length_cons, Nat.add_sub_cancel, List.drop_left]

/-- In front of the first mark every symbol is shown. -/
theorem scan_append_of_free {front rest : List α} (h : marks.Free front rest) :
    marks.scan state (front ++ rest) = front.map (state, ·) ++ marks.scan state rest := by
  induction front with
  | nil => rfl
  | cons x front ih =>
    have hnone : marks.markAt (x :: (front ++ rest)) = none := by
      refine List.find?_eq_none.2 fun m hm => ?_
      rw [decide_eq_true_eq]
      exact h 0 (Nat.succ_pos _) m hm
    rw [List.cons_append, scan, scanFrom, hnone, List.map_cons, List.cons_append, ← ih h.tail]
    rfl

end Scan

end Marks

end EchoAi
