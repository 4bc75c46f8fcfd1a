import Mathlib.Data.List.Basic
import Mathlib.Data.List.TakeWhile
import Mathlib.Logic.Function.Basic
import Mathlib.Tactic.Common

/-!
# Undo and redo of file edits

A tracker keeps two stacks of file contents.  Before an edit the file is recorded on the undo stack;
undoing writes the recorded content back and records the current one on the redo stack; redoing writes
that content back and moves its entry to the undo stack.

* `ctSnapshot`, `ctUndo`, `ctRedo`: the three operations, where every file operation succeeds.
* `ChangeTracker.Reachable`: the states after any operations and any writes of other programs.
* `Tracked`: the two stacks together never exceed the size of one, so that undoing and redoing push
  nothing out.
* `undoRedoInverse_iff`: when undoing and redoing are inverse to each other.
-/

namespace EchoAi

/-! ## The tracker -/

/-- A recorded content; the first `contentLen` bytes of it are written back. -/
structure CTEntry where
  filePath : String
  previousContent : Option (List UInt8)
  contentLen : Nat
  deriving DecidableEq, Repr

/-- The files and the two stacks, the top of a stack first. -/
structure ChangeTracker where
  files : String → Option (List UInt8)
  undoStack : List CTEntry
  redoStack : List CTEntry

/-- `CT_MAX_STACK`. -/
def ctMaxStack : Nat := 64

/-- Push an entry; the oldest one is dropped from a full stack. -/
def pushEntry (e : CTEntry) (stack : List CTEntry) : List CTEntry :=
  e :: if ctMaxStack ≤ stack.length then stack.dropLast else stack

/-- The bytes of an entry that are written back. -/
def CTEntry.written (e : CTEntry) : List UInt8 := (e.previousContent.getD []).take e.contentLen

/-- The length of a byte string up to its first zero. -/
def strlen (bytes : List UInt8) : Nat := (bytes.takeWhile (· ≠ 0)).length

namespace ChangeTracker

/-- The tracker after a file was written. -/
def writeFile (ct : ChangeTracker) (path : String) (bytes : List UInt8) : ChangeTracker :=
  { ct with files := Function.update ct.files path (some bytes) }

/-- The content of a file as `ct_undo` reads it: nothing of an empty file. -/
def current (ct : ChangeTracker) (path : String) : Option (List UInt8) :=
  (ct.files path).filter (· ≠ [])

end ChangeTracker

/-- `ct_snapshot`: absent when there is no such file. -/
def ctSnapshot (path : String) (ct : ChangeTracker) : Option ChangeTracker := do
  let content ← ct.files path
  return { ct with
    undoStack := pushEntry ⟨path, some content, content.length⟩ ct.undoStack
    redoStack := [] }

/-- `ct_undo`: absent when there is nothing to undo. -/
def ctUndo (ct : ChangeTracker) : Option ChangeTracker :=
  match ct.undoStack with
  | [] => none
  | entry :: rest =>
    let current := ct.current entry.filePath
    some { ct.writeFile entry.filePath entry.written with
      undoStack := rest
      redoStack := pushEntry ⟨entry.filePath, current, (current.map strlen).getD 0⟩ ct.redoStack }

/-- `ct_redo`: absent when there is nothing to redo. -/
def ctRedo (ct : ChangeTracker) : Option ChangeTracker :=
  match ct.redoStack with
  | [] => none
  | entry :: rest =>
    some { ct.writeFile entry.filePath entry.written with
      undoStack := pushEntry entry ct.undoStack
      redoStack := rest }

/-! ## Reachable states -/

/-- One operation, or a write of another program. -/
inductive TrackerStep : ChangeTracker → ChangeTracker → Prop
  | snapshot {ct ct' : ChangeTracker} (path : String) (h : ctSnapshot path ct = some ct') :
      TrackerStep ct ct'
  | write (ct : ChangeTracker) (path : String) (bytes : List UInt8) :
      TrackerStep ct (ct.writeFile path bytes)
  | undo {ct ct' : ChangeTracker} (h : ctUndo ct = some ct') : TrackerStep ct ct'
  | redo {ct ct' : ChangeTracker} (h : ctRedo ct = some ct') : TrackerStep ct ct'

/-- The states that a new tracker can come to. -/
inductive ChangeTracker.Reachable : ChangeTracker → Prop
  | create (files : String → Option (List UInt8)) : Reachable ⟨files, [], []⟩
  | step {ct ct' : ChangeTracker} (h : ct.Reachable) (hstep : TrackerStep ct ct') : Reachable ct'

/-- What holds in every reachable state: the stacks have room for each other's entries, and the files
of the entries are there. -/
structure Tracked (ct : ChangeTracker) : Prop where
  counts : ct.undoStack.length + ct.redoStack.length ≤ ctMaxStack
  exist : ∀ e ∈ ct.undoStack ++ ct.redoStack, (ct.files e.filePath).isSome = true

theorem pushEntry_of_lt {e : CTEntry} {stack : List CTEntry} (h : stack.length < ctMaxStack) :
    pushEntry e stack = e :: stack := by
  rw [pushEntry, if_neg (Nat.not_le.mpr h)]

theorem length_pushEntry_le {e : CTEntry} {stack : List CTEntry} (h : stack.length ≤ ctMaxStack) :
    (pushEntry e stack).length ≤ ctMaxStack := by
  rw [pushEntry, List.length_cons]
  split
  · next hfull =>
    have hpos : 0 < ctMaxStack := by decide
    rw [List.length_dropLast]
    omega
  · omega

theorem mem_of_mem_pushEntry {e e' : CTEntry} {stack : List CTEntry} (h : e' ∈ pushEntry e stack) :
    e' = e ∨ e' ∈ stack := by
  rw [pushEntry, List.mem_cons] at h
  refine h.imp_right fun hmem => ?_
  split at hmem
  · exact List.dropLast_subset _ hmem
  · exact hmem

theorem isSome_update {files : String → Option (List UInt8)} {path path' : String}
    {bytes : List UInt8} (h : path' = path ∨ (files path').isSome = true) :
    (Function.update files path (some bytes) path').isSome = true := by
  by_cases heq : path' = path
  · rw [heq, Function.update_self]
    rfl
  · rw [Function.update_of_ne heq]
    exact h.resolve_left heq

variable {ct ct' : ChangeTracker}

theorem Tracked.step (h : Tracked ct) (hstep : TrackerStep ct ct') : Tracked ct' := by
  cases hstep with
  | snapshot path hs =>
    simp only [ctSnapshot, Option.bind_eq_bind, Option.bind_eq_some_iff, Option.pure_def,
      Option.some_inj] at hs
    obtain ⟨content, hcontent, rfl⟩ := hs
    have hcounts := h.counts
    have hroom : ct.undoStack.length ≤ ctMaxStack := by omega
    have hpushed : (pushEntry ⟨path, some content, content.length⟩ ct.undoStack).length ≤
        ctMaxStack := length_pushEntry_le hroom
    refine ⟨hpushed, fun e he => ?_⟩
    rw [List.append_nil] at he
    rcases mem_of_mem_pushEntry he with rfl | he
    · exact Option.isSome_iff_exists.mpr ⟨content, hcontent⟩
    · exact h.exist e (List.mem_append_left _ he)
  | write path bytes => exact ⟨h.counts, fun e he => isSome_update (Or.inr (h.exist e he))⟩
  | undo hu =>
    rw [ctUndo] at hu
    split at hu
    · exact absurd hu (by simp)
    · next entry rest hundo =>
      obtain rfl := Option.some.inj hu
      have hcounts := h.counts
      rw [hundo, List.length_cons] at hcounts
      refine ⟨?_, fun e he => isSome_update ?_⟩
      · rw [pushEntry_of_lt (by omega), List.length_cons]
        dsimp only
        omega
      · rw [List.mem_append] at he
        rcases he with he | he
        · refine Or.inr (h.exist e (List.mem_append_left _ ?_))
          rw [hundo]
          exact List.mem_cons_of_mem _ he
        · rcases mem_of_mem_pushEntry he with rfl | he
          · exact Or.inl rfl
          · exact Or.inr (h.exist e (List.mem_append_right _ he))
  | redo hr =>
    rw [ctRedo] at hr
    split at hr
    · exact absurd hr (by simp)
    · next entry rest hredo =>
      obtain rfl := Option.some.inj hr
      have hcounts := h.counts
      rw [hredo, List.length_cons] at hcounts
      refine ⟨?_, fun e he => isSome_update ?_⟩
      · rw [pushEntry_of_lt (by omega), List.length_cons]
        dsimp only
        omega
      · rw [List.mem_append] at he
        rcases he with he | he
        · rcases mem_of_mem_pushEntry he with rfl | he
          · exact Or.inl rfl
          · exact Or.inr (h.exist e (List.mem_append_left _ he))
        · refine Or.inr (h.exist e (List.mem_append_right _ ?_))
          rw [hredo]
          exact List.mem_cons_of_mem _ he

/-- **Every reachable state is tracked.** -/
theorem ChangeTracker.Reachable.tracked (h : ct.Reachable) : Tracked ct := by
  induction h with
  | create files => exact ⟨Nat.zero_le _, fun e he => absurd he List.not_mem_nil⟩
  | step _ hstep ih => exact ih.step hstep

/-! ## Undoing and redoing -/

/-- Redoing and then undoing restores the files and changes no other entry. -/
def RedoUndoRestores (ct : ChangeTracker) : Prop :=
  ∀ ct₁, ctRedo ct = some ct₁ → ∃ ct₂, ctUndo ct₁ = some ct₂ ∧ ct₂.files = ct.files ∧
    ct₂.undoStack = ct.undoStack ∧ ct₂.redoStack.tail = ct.redoStack.tail

/-- Undoing and then redoing restores the files and changes no other entry. -/
def UndoRedoRestores (ct : ChangeTracker) : Prop :=
  ∀ ct₁, ctUndo ct = some ct₁ → ∃ ct₂, ctRedo ct₁ = some ct₂ ∧ ct₂.files = ct.files ∧
    ct₂.undoStack.tail = ct.undoStack.tail ∧ ct₂.redoStack = ct.redoStack

/-- The file to be redone holds what is to be written. -/
def RedoIsCurrent (ct : ChangeTracker) : Prop :=
  ∀ e, ct.redoStack.head? = some e → ct.files e.filePath = some e.written

/-- The file to be undone has no zero byte. -/
def UndoIsText (ct : ChangeTracker) : Prop :=
  ∀ e bytes, ct.undoStack.head? = some e → ct.files e.filePath = some bytes → 0 ∉ bytes

/-- A redo when the undo stack has room. -/
theorem ctRedo_of_cons {e : CTEntry} {rest : List CTEntry} (h : ct.redoStack = e :: rest)
    (hroom : ct.undoStack.length < ctMaxStack) :
    ctRedo ct = some ⟨Function.update ct.files e.filePath (some e.written), e :: ct.undoStack, rest⟩ := by
  rw [ctRedo, h]
  dsimp only
  rw [pushEntry_of_lt hroom]
  rfl

/-- The entry that an undo of `e` records. -/
def ChangeTracker.undone (ct : ChangeTracker) (e : CTEntry) : CTEntry :=
  ⟨e.filePath, ct.current e.filePath, ((ct.current e.filePath).map strlen).getD 0⟩

/-- An undo when the redo stack has room. -/
theorem ctUndo_of_cons {e : CTEntry} {rest : List CTEntry} (h : ct.undoStack = e :: rest)
    (hroom : ct.redoStack.length < ctMaxStack) :
    ctUndo ct = some ⟨Function.update ct.files e.filePath (some e.written), rest,
      ct.undone e :: ct.redoStack⟩ := by
  rw [ctUndo, h]
  dsimp only
  rw [pushEntry_of_lt hroom]
  rfl

/-- An undone content is written back up to its first zero byte. -/
theorem written_undone {e : CTEntry} {bytes : List UInt8} (h : ct.files e.filePath = some bytes) :
    (ct.undone e).written = bytes.takeWhile (· ≠ 0) := by
  rw [CTEntry.written, ChangeTracker.undone, ChangeTracker.current, h]
  cases bytes with
  | nil => rfl
  | cons b bs =>
    change (b :: bs).take ((b :: bs).takeWhile (· ≠ 0)).length = _
    exact (List.prefix_iff_eq_take.mp (List.takeWhile_prefix _)).symm

theorem Tracked.redoUndoRestores_iff (h : Tracked ct) : RedoUndoRestores ct ↔ RedoIsCurrent ct := by
  have hcounts := h.counts
  cases hredo : ct.redoStack with
  | nil =>
    refine iff_of_true (fun ct₁ hr => ?_) fun e he => ?_
    · rw [ctRedo, hredo] at hr
      exact absurd hr (by simp)
    · rw [hredo] at he
      exact absurd he (by simp)
  | cons e rest =>
    rw [hredo, List.length_cons] at hcounts
    have hone : ctRedo ct = some ⟨Function.update ct.files e.filePath (some e.written),
        e :: ct.undoStack, rest⟩ := ctRedo_of_cons hredo (by omega)
    have hroom : rest.length < ctMaxStack := by omega
    have htwo : ctUndo ⟨Function.update ct.files e.filePath (some e.written), e :: ct.undoStack,
        rest⟩ = some _ := ctUndo_of_cons rfl hroom
    have hcurrent : RedoIsCurrent ct ↔
        Function.update ct.files e.filePath (some e.written) = ct.files := by
      rw [RedoIsCurrent, hredo, Function.update_eq_self_iff]
      constructor
      · exact fun hc => (hc e rfl).symm
      · rintro hc e' he
        rw [← Option.some.inj he, hc]
    rw [hcurrent, RedoUndoRestores, hone]
    constructor
    · intro hrestores
      obtain ⟨ct₂, hct₂, hfiles, -, -⟩ := hrestores _ rfl
      rw [htwo, Option.some_inj] at hct₂
      rw [← hct₂] at hfiles
      dsimp only at hfiles
      rwa [Function.update_idem] at hfiles
    · rintro hfiles ct₁ hct₁
      rw [← Option.some.inj hct₁]
      refine ⟨_, htwo, ?_, rfl, ?_⟩
      · dsimp only
        rw [Function.update_idem, hfiles]
      · rw [hredo]
        rfl

theorem Tracked.undoRedoRestores_iff (h : Tracked ct) : UndoRedoRestores ct ↔ UndoIsText ct := by
  have hcounts := h.counts
  cases hundo : ct.undoStack with
  | nil =>
    refine iff_of_true (fun ct₁ hu => ?_) fun e bytes he => ?_
    · rw [ctUndo, hundo] at hu
      exact absurd hu (by simp)
    · rw [hundo] at he
      exact absurd he (by simp)
  | cons e rest =>
    rw [hundo, List.length_cons] at hcounts
    obtain ⟨bytes, hbytes⟩ := Option.isSome_iff_exists.mp
      (h.exist e (List.mem_append_left _ (hundo ▸ List.mem_cons_self)))
    have hone : ctUndo ct = some ⟨Function.update ct.files e.filePath (some e.written), rest,
        ct.undone e :: ct.redoStack⟩ := ctUndo_of_cons hundo (by omega)
    have hroom : rest.length < ctMaxStack := by omega
    have htwo : ctRedo ⟨Function.update ct.files e.filePath (some e.written), rest,
        ct.undone e :: ct.redoStack⟩ = some _ := ctRedo_of_cons rfl hroom
    have hpath : (ct.undone e).filePath = e.filePath := rfl
    have htext : UndoIsText ct ↔ bytes.takeWhile (· ≠ 0) = bytes := by
      rw [UndoIsText, hundo, List.takeWhile_eq_self_iff]
      constructor
      · intro hu b hb
        rw [decide_eq_true_iff]
        rintro rfl
        exact hu e bytes rfl hbytes hb
      · intro hu e' bytes' he hbytes' hzero
        obtain rfl : e = e' := Option.some.inj he
        obtain rfl : bytes = bytes' := Option.some.inj (hbytes.symm.trans hbytes')
        exact absurd rfl (of_decide_eq_true (hu 0 hzero))
    rw [htext, UndoRedoRestores, hone]
    constructor
    · intro hrestores
      obtain ⟨ct₂, hct₂, hfiles, -, -⟩ := hrestores _ rfl
      rw [htwo, Option.some_inj] at hct₂
      rw [← hct₂] at hfiles
      dsimp only at hfiles
      rw [hpath, Function.update_idem, Function.update_eq_self_iff, written_undone hbytes, hbytes,
        Option.some_inj] at hfiles
      exact hfiles
    · rintro htake ct₁ hct₁
      rw [← Option.some.inj hct₁]
      refine ⟨_, htwo, ?_, ?_, rfl⟩
      · dsimp only
        rw [hpath, Function.update_idem, Function.update_eq_self_iff, written_undone hbytes, hbytes,
          htake]
      · rw [hundo]
        rfl

/-- **Undoing and redoing are inverse** in a reachable state exactly when the file to be redone holds
already what is to be written and the file to be undone has no zero byte. -/
theorem undoRedoInverse_iff (h : ct.Reachable) :
    RedoUndoRestores ct ∧ UndoRedoRestores ct ↔ RedoIsCurrent ct ∧ UndoIsText ct :=
  and_congr h.tracked.redoUndoRestores_iff h.tracked.undoRedoRestores_iff

/-! ## An example -/

/-- One file with one byte. -/
def oneFile : String → Option (List UInt8) := Function.update (fun _ => none) "a" (some [65])

/-- The tracker after the file was recorded and edited. -/
def edited : ChangeTracker :=
  ⟨Function.update oneFile "a" (some [66]), [⟨"a", some [65], 1⟩], []⟩

/-- The tracker after the edit was undone. -/
def undoneEdit : ChangeTracker :=
  ⟨Function.update (Function.update oneFile "a" (some [66])) "a" (some [65]), [],
    [⟨"a", some [66], 1⟩]⟩

theorem reachable_edited : edited.Reachable :=
  ((ChangeTracker.Reachable.create oneFile).step (TrackerStep.snapshot "a" rfl)).step (TrackerStep.write _ "a" [66])

theorem reachable_undoneEdit : undoneEdit.Reachable :=
  reachable_edited.step (TrackerStep.undo rfl)

/-- After the edit, undoing and redoing are inverse. -/
theorem undoRedoInverse_edited : RedoUndoRestores edited ∧ UndoRedoRestores edited := by
  refine (undoRedoInverse_iff reachable_edited).mpr ⟨fun e he => absurd he (by simp [edited]), ?_⟩
  intro e bytes he hbytes
  rw [← Option.some.inj he] at hbytes
  rw [← Option.some.inj hbytes]
  decide

/-- After the edit was undone, redoing it and undoing it again leaves the edit in place. -/
theorem not_undoRedoInverse_undoneEdit :
    ¬ ∀ ct : ChangeTracker, ct.Reachable → RedoUndoRestores ct ∧ UndoRedoRestores ct := by
  intro h
  have hcurrent := reachable_undoneEdit.tracked.redoUndoRestores_iff.mp
    (h undoneEdit reachable_undoneEdit).1
  have hbytes : some [65] = some [(66 : UInt8)] := hcurrent ⟨"a", some [66], 1⟩ rfl
  exact absurd hbytes (by decide)

end EchoAi
