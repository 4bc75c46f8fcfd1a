import EchoAi.Bytes
import EchoAi.Ctype
import EchoAi.Faults
import EchoAi.Splitting
import Mathlib.Data.List.Basic
import Mathlib.Data.List.Induction
import Mathlib.Tactic.Common

/-!
# Loading the configuration

* `confLoad`: the loading of a file, under any failing allocations.
* `Block`, `Reading`: the grammar of the file, where a key line has the continuation lines behind it.
* `Table.ofBlocks`: the entries in terms of the blocks.
* `simulates_lines`: lines that fit into the buffer are read as the grammar reads them.
-/

namespace EchoAi.ConfFile

/-! ## The loader -/

/-- `MAX_ENTRIES` -/
def maxEntries : Nat := 256

/-- The size of `line`; `fgets` leaves a byte for the end. -/
def lineSize : Nat := 4096

/-- The size of `section`. -/
def sectionSize : Nat := 256

/-- `Entry` -/
structure Entry where
  key : List UInt8
  value : List UInt8
  deriving DecidableEq, Repr

/-- The allocations of a call: for the `n`-th key line, and for the `c`-th line behind `n` of them. -/
inductive ConfAlloc where
  | conf
  | fullKey (n : Nat)
  | key (n : Nat)
  | value (n : Nat)
  | grow (n c : Nat)
  deriving DecidableEq, Repr

/-- The entries and `last_entry_idx`. -/
structure Table where
  entries : List Entry := []
  last : Option Nat := none
  deriving DecidableEq, Repr

/-- An entry for the `n`-th key line, where there is a place. -/
def Table.store (fail : Faults ConfAlloc) (n : Nat) (t : Table) (key value : List UInt8) : Table :=
  if fail (.fullKey n) then t
  else if t.entries.length < maxEntries then
    if fail (.key n) || fail (.value n) then { t with last := none }
    else { entries := t.entries ++ [{ key, value }], last := some t.entries.length }
  else t

/-- The value of an entry with a line more. -/
def Entry.extend (text : List UInt8) (e : Entry) : Entry := { e with value := e.value ++ 10 :: text }

/-- A continuation line. -/
def Table.grow (fail : Faults ConfAlloc) (n c : Nat) (t : Table) (text : List UInt8) : Table :=
  match t.last with
  | none => t
  | some i =>
    if fail (.grow n c) then t else { t with entries := t.entries.modify i (Entry.extend text) }

/-- The locals of `conf_load`, and how many key lines there were, and continuation lines behind the
last one. -/
structure Loading where
  table : Table := {}
  sectionName : List UInt8 := []
  keyLines : Nat := 0
  continuations : Nat := 0
  deriving DecidableEq, Repr

/-- `"%s.%s"`, or the key alone outside of the sections. -/
def fullKeyOf (sectionName key : List UInt8) : List UInt8 :=
  if sectionName = [] then key else sectionName ++ 46 :: key

/-- The line in the buffer without its newline and the blanks before it. -/
def rawOf (buffer : List UInt8) : List UInt8 :=
  let line := cString buffer
  (if line.getLast? = some 10 then line.dropLast else line).dropWhile isSpace

/-- The body of the loop, for what `fgets` has put into the buffer. -/
def readLine (fail : Faults ConfAlloc) (s : Loading) (buffer : List UInt8) : Loading :=
  match rawOf buffer with
  | [] => s
  | 35 :: _ => s
  | 91 :: name =>
    if 93 ∈ name then
      { s with
        sectionName := (name.takeWhile (· ≠ 93)).take (sectionSize - 1)
        table := { s.table with last := none } }
    else s
  | raw =>
    if 61 ∈ raw then
      let key := strip isSpace (raw.takeWhile (· ≠ 61))
      let value := strip isSpace ((raw.dropWhile (· ≠ 61)).drop 1)
      { s with
        table := s.table.store fail s.keyLines (fullKeyOf s.sectionName key) value
        keyLines := s.keyLines + 1
        continuations := 0 }
    else
      { s with
        table := s.table.grow fail s.keyLines s.continuations raw
        continuations := s.continuations + 1 }

/-- What the calls of `fgets` put into the buffer, when it holds `line` already. -/
def fgetsLines : (line content : List UInt8) → List (List UInt8)
  | line, [] => if line = [] then [] else [line]
  | line, c :: rest =>
    if c = 10 ∨ line.length + 2 = lineSize then (line ++ [c]) :: fgetsLines [] rest
    else fgetsLines (line ++ [c]) rest

/-- `conf_load`, for the content of the file. -/
def confLoad (fail : Faults ConfAlloc) (content : List UInt8) : Option (List Entry) :=
  if fail .conf then none
  else some ((fgetsLines [] content).foldl (readLine fail) {}).table.entries

/-! ## The grammar -/

/-- What a line is. -/
inductive LineKind where
  | blank
  | heading (name : List UInt8)
  | key (key value : List UInt8)
  | continuation (text : List UInt8)
  deriving DecidableEq, Repr

/-- A line of the file.  A heading that is not closed is malformed and skipped. -/
def kindOf (line : List UInt8) : LineKind :=
  match line.dropWhile isSpace with
  | [] => .blank
  | 35 :: _ => .blank
  | 91 :: name => if 93 ∈ name then .heading (name.takeWhile (· ≠ 93)) else .blank
  | text =>
    if 61 ∈ text then
      .key (strip isSpace (text.takeWhile (· ≠ 61)))
        (strip isSpace ((text.dropWhile (· ≠ 61)).drop 1))
    else .continuation text

/-- A key line with the continuation lines behind it: its number among the key lines, and the part of
the file, from one heading to the next, where it stands. -/
structure Block where
  number : Nat
  part : Nat
  sectionName : List UInt8
  key : List UInt8
  value : List UInt8
  continuations : List (List UInt8) := []
  deriving DecidableEq, Repr

/-- What has been read of a file; the newest block comes first. -/
structure Reading where
  blocks : List Block := []
  part : Nat := 0
  sectionName : List UInt8 := []
  deriving DecidableEq, Repr

/-- A line more.  A continuation line belongs to the last key line of its part. -/
def Reading.read (r : Reading) : LineKind → Reading
  | .blank => r
  | .heading name => { r with part := r.part + 1, sectionName := name }
  | .key key value =>
    { r with
      blocks := { number := r.blocks.length, part := r.part, sectionName := r.sectionName, key, value } ::
        r.blocks }
  | .continuation text =>
    match r.blocks with
    | [] => r
    | b :: older =>
      if b.part = r.part then
        { r with blocks := { b with continuations := b.continuations ++ [text] } :: older }
      else r

/-- Any lines. -/
def Reading.ofLines (lines : List (List UInt8)) : Reading := lines.foldl (fun r line => r.read (kindOf line)) {}

/-- The blocks of a file, which is split at newlines only. -/
def blocksOf (content : List UInt8) : List Block :=
  (Reading.ofLines (content.splitOn 10)).blocks.reverse

/-- A value with further lines. -/
def textOf (value : List UInt8) (texts : List (List UInt8)) : List UInt8 :=
  value ++ texts.flatMap fun text => 10 :: text

/-- The entry of a block. -/
def Block.entry (b : Block) : Entry :=
  { key := fullKeyOf b.sectionName b.key, value := textOf b.value b.continuations }

/-- The entries of a file: those of the first key lines. -/
def entriesOf (content : List UInt8) : List Entry :=
  ((blocksOf content).take maxEntries).map Block.entry

/-! ## The entries of the blocks -/

/-- The table in a part of the file: the last entry is forgotten at a heading. -/
def Table.enter (part : Nat) (blocks : List Block) (t : Table) : Table :=
  if blocks.head?.any fun b => b.part = part then t else { t with last := none }

/-- The continuation lines of a block. -/
def Table.growAll (fail : Faults ConfAlloc) (b : Block) (t : Table) : Table :=
  b.continuations.zipIdx.foldl (fun t text => t.grow fail (b.number + 1) text.2 text.1) t

/-- The key as the loader has it. -/
def Block.storedKey (b : Block) : List UInt8 :=
  fullKeyOf (b.sectionName.take (sectionSize - 1)) b.key

/-- The table of blocks, the newest of which comes first. -/
def Table.ofBlocks (fail : Faults ConfAlloc) : List Block → Table
  | [] => {}
  | b :: older =>
    (((ofBlocks fail older).enter b.part older).store fail b.number b.storedKey b.value).growAll fail b

/-! ## Lines that fit -/

section Lines

variable {fail : Faults ConfAlloc} {line : List UInt8}

theorem rawOf_line (hnewline : 10 ∉ line) (hnul : 0 ∉ line) :
    rawOf line = line.dropWhile isSpace := by
  rw [rawOf, cString_of_notMem hnul]
  refine congrArg (List.dropWhile isSpace) (if_neg fun hlast => hnewline ?_)
  exact List.mem_of_getLast? hlast

theorem rawOf_line_newline (hnul : 0 ∉ line) : rawOf (line ++ [10]) = line.dropWhile isSpace := by
  have hnul' : 0 ∉ line ++ [10] := by
    rw [List.mem_append, List.mem_singleton]
    exact not_or.2 ⟨hnul, by decide⟩
  rw [rawOf, cString_of_notMem hnul', List.dropLast_concat]
  exact congrArg (List.dropWhile isSpace) (if_pos List.getLast?_concat)

/-- A line of a kind. -/
def Loading.read (fail : Faults ConfAlloc) (s : Loading) : LineKind → Loading
  | .blank => s
  | .heading name =>
    { s with
      sectionName := name.take (sectionSize - 1)
      table := { s.table with last := none } }
  | .key key value =>
    { s with
      table := s.table.store fail s.keyLines (fullKeyOf s.sectionName key) value
      keyLines := s.keyLines + 1
      continuations := 0 }
  | .continuation text =>
    { s with
      table := s.table.grow fail s.keyLines s.continuations text
      continuations := s.continuations + 1 }

/-- The loader takes what is in the buffer for a line of the kind that it has. -/
theorem readLine_eq_read {buffer : List UInt8} (hraw : rawOf buffer = line.dropWhile isSpace)
    (s : Loading) : readLine fail s buffer = s.read fail (kindOf line) := by
  rw [readLine, kindOf, hraw]
  split
  · rfl
  · rfl
  · split <;> rfl
  · split <;> rfl

theorem readLine_blank {buffer : List UInt8} (hraw : rawOf buffer = []) (s : Loading) :
    readLine fail s buffer = s := by
  rw [readLine, hraw]

end Lines

/-- The locals of the loader are those of what has been read. -/
structure Simulates (fail : Faults ConfAlloc) (s : Loading) (r : Reading) : Prop where
  table : s.table = (Table.ofBlocks fail r.blocks).enter r.part r.blocks
  sectionName : s.sectionName = r.sectionName.take (sectionSize - 1)
  keyLines : s.keyLines = r.blocks.length
  continuations : ∀ b ∈ r.blocks.head?, b.part = r.part → s.continuations = b.continuations.length
  parts : ∀ b ∈ r.blocks, b.part ≤ r.part
  number : ∀ b ∈ r.blocks.head?, b.number + 1 = r.blocks.length

section Simulation

variable {fail : Faults ConfAlloc} {s : Loading} {r : Reading}

theorem simulates_empty (fail : Faults ConfAlloc) : Simulates fail {} {} where
  table := rfl
  sectionName := rfl
  keyLines := rfl
  continuations := nofun
  parts := nofun
  number := nofun

theorem Table.grow_of_last_none {t : Table} (h : t.last = none) (n c : Nat) (text : List UInt8) :
    t.grow fail n c text = t := by
  rw [Table.grow, h]

theorem Table.enter_of_eq {part : Nat} {b : Block} (h : b.part = part) (older : List Block)
    (t : Table) : t.enter part (b :: older) = t :=
  if_pos (decide_eq_true h)

theorem Table.enter_of_ne {part : Nat} {blocks : List Block}
    (h : ∀ b ∈ blocks.head?, b.part ≠ part) (t : Table) :
    t.enter part blocks = { t with last := none } := by
  rw [Table.enter, if_neg]
  rw [Option.any_eq_true]
  rintro ⟨b, hb, hpart⟩
  exact h b hb (of_decide_eq_true hpart)

theorem Table.entries_enter (part : Nat) (blocks : List Block) (t : Table) :
    (t.enter part blocks).entries = t.entries := by
  rw [Table.enter]
  split <;> rfl

/-- A block with a continuation line more. -/
theorem Table.ofBlocks_continuation (b : Block) (older : List Block) (text : List UInt8) :
    Table.ofBlocks fail ({ b with continuations := b.continuations ++ [text] } :: older) =
      (Table.ofBlocks fail (b :: older)).grow fail (b.number + 1) b.continuations.length text := by
  rw [Table.ofBlocks, Table.growAll, List.zipIdx_append, List.foldl_append]
  simp only [List.zipIdx_singleton, Nat.zero_add, List.foldl_cons, List.foldl_nil]
  rfl

/-- What the loader does with a line is what the grammar says. -/
theorem Simulates.read (h : Simulates fail s r) (kind : LineKind) :
    Simulates fail (s.read fail kind) (r.read kind) := by
  cases kind with
  | blank => exact h
  | heading name =>
    have hnew : ∀ b ∈ r.blocks.head?, b.part ≠ r.part + 1 := fun b hb => by
      have hle := h.parts b (List.mem_of_mem_head? hb)
      omega
    refine ⟨?_, rfl, h.keyLines, fun b hb hpart => absurd hpart (hnew b hb),
      fun b hb => Nat.le_succ_of_le (h.parts b hb), h.number⟩
    have hentries : s.table.entries = (Table.ofBlocks fail r.blocks).entries := by
      rw [h.table, Table.entries_enter]
    refine Eq.trans ?_ (Table.enter_of_ne hnew (Table.ofBlocks fail r.blocks)).symm
    show ({ entries := s.table.entries, last := none } : Table) = _
    rw [hentries]
  | key key value =>
    refine ⟨?_, h.sectionName, congrArg (· + 1) h.keyLines, ?_, ?_, ?_⟩
    · refine Eq.trans ?_ (Table.enter_of_eq rfl r.blocks _).symm
      show s.table.store fail s.keyLines (fullKeyOf s.sectionName key) value = _
      rw [h.table, h.keyLines, h.sectionName]
      rfl
    · rintro b hb -
      rw [← Option.some.inj hb]
      rfl
    · intro b hb
      rcases List.mem_cons.1 hb with rfl | hb
      · exact Nat.le_refl _
      · exact h.parts b hb
    · intro b hb
      rw [← Option.some.inj hb]
      rfl
  | continuation text =>
    obtain ⟨blocks, part, sectionName⟩ := r
    cases blocks with
    | nil =>
      refine ⟨?_, h.sectionName, h.keyLines, nofun, nofun, nofun⟩
      have hnone : s.table.last = none := by
        rw [h.table]
        rfl
      show s.table.grow fail s.keyLines s.continuations text = _
      rw [Table.grow_of_last_none hnone]
      exact h.table
    | cons b older =>
      by_cases hpart : b.part = part
      · have hread : Reading.read ⟨b :: older, part, sectionName⟩ (.continuation text) =
            ⟨{ b with continuations := b.continuations ++ [text] } :: older, part, sectionName⟩ :=
          if_pos hpart
        have hnumber : b.number + 1 = (b :: older).length := h.number b rfl
        rw [hread]
        refine ⟨?_, h.sectionName, h.keyLines, ?_, ?_, ?_⟩
        · refine Eq.trans ?_ (Table.enter_of_eq hpart older _).symm
          refine Eq.trans ?_ (Table.ofBlocks_continuation b older text).symm
          show s.table.grow fail s.keyLines s.continuations text = _
          rw [h.table, h.keyLines, h.continuations b rfl hpart, hnumber, Table.enter_of_eq hpart]
        · rintro b' hb' -
          rw [← Option.some.inj hb']
          show s.continuations + 1 = (b.continuations ++ [text]).length
          rw [List.length_append, h.continuations b rfl hpart, List.length_singleton]
        · intro b' hb'
          rcases List.mem_cons.1 hb' with rfl | hb'
          · exact h.parts b List.mem_cons_self
          · exact h.parts b' (List.mem_cons_of_mem b hb')
        · intro b' hb'
          rw [← Option.some.inj hb']
          exact hnumber
      · have hread : Reading.read ⟨b :: older, part, sectionName⟩ (.continuation text) =
            ⟨b :: older, part, sectionName⟩ := if_neg hpart
        have hother : ∀ b' ∈ (b :: older).head?, b'.part ≠ part := fun b' hb' =>
          Option.some.inj hb' ▸ hpart
        have hnone : s.table.last = none := by
          rw [h.table, Table.enter_of_ne hother]
        rw [hread]
        refine ⟨?_, h.sectionName, h.keyLines, fun b' hb' hpart' => absurd hpart' (hother b' hb'),
          h.parts, h.number⟩
        show s.table.grow fail s.keyLines s.continuations text = _
        rw [Table.grow_of_last_none hnone]
        exact h.table

/-- After any lines the loader is where the grammar is. -/
theorem simulates_lines (fail : Faults ConfAlloc) (lines : List (List UInt8)) :
    Simulates fail (lines.foldl (fun s line => s.read fail (kindOf line)) {})
      (Reading.ofLines lines) := by
  induction lines using List.reverseRecOn with
  | nil => exact simulates_empty fail
  | append_singleton lines line ih =>
    rw [Reading.ofLines, List.foldl_concat, List.foldl_concat]
    exact ih.read (kindOf line)

end Simulation

/-! ## What `fgets` reads -/

section Reads

variable {fail : Faults ConfAlloc}

/-- A line that fits is read up to its newline, or to the end of the file. -/
theorem fgetsLines_append {line rest : List UInt8} (hnewline : 10 ∉ line) (before : List UInt8)
    (hfits : before.length + line.length + 2 ≤ lineSize) :
    fgetsLines before (line ++ rest) = fgetsLines (before ++ line) rest := by
  induction line generalizing before with
  | nil => rw [List.nil_append, List.append_nil]
  | cons c line ih =>
    rw [List.length_cons] at hfits
    have hmore : ¬(c = 10 ∨ before.length + 2 = lineSize) := by
      rintro (rfl | hfull)
      · exact hnewline List.mem_cons_self
      · omega
    rw [List.cons_append, fgetsLines, if_neg hmore,
      ih (fun hmem => hnewline (List.mem_cons_of_mem c hmem)) (before ++ [c])
        (by rw [List.length_append, List.length_singleton]; omega),
      List.append_assoc, List.singleton_append]

/-- A line that fills the buffer is read, and what stands behind it is read next. -/
theorem fgetsLines_full {line rest : List UInt8} (hnewline : 10 ∉ line)
    (hfull : line.length + 1 = lineSize) :
    fgetsLines [] (line ++ rest) = line :: fgetsLines [] rest := by
  rcases List.eq_nil_or_concat line with rfl | ⟨front, c, hline⟩
  · exact absurd hfull (by decide)
  rw [List.concat_eq_append] at hline
  subst hline
  rw [List.length_append, List.length_singleton] at hfull
  have hfront : 10 ∉ front := fun hmem => hnewline (List.mem_append_left _ hmem)
  have hfits : ([] : List UInt8).length + front.length + 2 ≤ lineSize := by
    rw [List.length_nil]
    omega
  rw [List.append_assoc, fgetsLines_append hfront [] hfits, List.nil_append, List.singleton_append,
    fgetsLines, if_pos (Or.inr (by omega))]

theorem foldl_fgetsLines_line {line : List UInt8} (hnewline : 10 ∉ line) (hnul : 0 ∉ line)
    (hfits : line.length + 1 ≤ lineSize) (s : Loading) :
    (fgetsLines [] line).foldl (readLine fail) s = s.read fail (kindOf line) := by
  have hraw := rawOf_line hnewline hnul
  rcases Nat.lt_or_eq_of_le hfits with hshort | hfull
  · have hreads : fgetsLines [] line = if line = [] then [] else [line] := by
      have happend := @fgetsLines_append line [] hnewline [] (by rw [List.length_nil]; omega)
      rwa [List.append_nil, List.nil_append, fgetsLines] at happend
    rw [hreads]
    split
    · next hnil =>
      rw [hnil]
      rfl
    · exact readLine_eq_read hraw s
  · have hreads := @fgetsLines_full line [] hnewline hfull
    rw [List.append_nil] at hreads
    rw [hreads]
    exact readLine_eq_read hraw s

theorem foldl_fgetsLines_cut {line : List UInt8} (hnewline : 10 ∉ line) (hnul : 0 ∉ line)
    (hfits : line.length + 1 ≤ lineSize) (rest : List UInt8) (s : Loading) :
    (fgetsLines [] (line ++ 10 :: rest)).foldl (readLine fail) s =
      (fgetsLines [] rest).foldl (readLine fail) (s.read fail (kindOf line)) := by
  rcases Nat.lt_or_eq_of_le hfits with hshort | hfull
  · rw [fgetsLines_append hnewline [] (by rw [List.length_nil]; omega), List.nil_append, fgetsLines,
      if_pos (Or.inl rfl), List.foldl_cons, readLine_eq_read (rawOf_line_newline hnul)]
  · -- the newline comes with the next read and is a blank line
    rw [fgetsLines_full hnewline hfull, List.foldl_cons,
      readLine_eq_read (rawOf_line hnewline hnul), fgetsLines, if_pos (Or.inl rfl), List.foldl_cons,
      readLine_blank (by decide)]

/-- The lines of a file that fit are read as they are. -/
theorem foldl_fgetsLines {content : List UInt8} (hnul : 0 ∉ content)
    (hfits : ∀ line ∈ content.splitOn 10, line.length + 1 ≤ lineSize) (s : Loading) :
    (fgetsLines [] content).foldl (readLine fail) s =
      (content.splitOn 10).foldl (fun s line => s.read fail (kindOf line)) s := by
  induction content using splitOn_induction (10 : UInt8) generalizing s with
  | last line hline =>
    rw [List.splitOn_eq_singleton hline] at hfits ⊢
    exact foldl_fgetsLines_line hline hnul (hfits line List.mem_cons_self) s
  | cut line rest hline ih =>
    rw [List.splitOn_append_cons_self_of_not_mem hline] at hfits ⊢
    have hnul' : 0 ∉ line := fun hmem => hnul (List.mem_append_left _ hmem)
    have hrest := ih (fun hmem => hnul (List.mem_append_right _ (List.mem_cons_of_mem 10 hmem)))
      fun other hother => hfits other (List.mem_cons_of_mem line hother)
    rw [foldl_fgetsLines_cut hline hnul' (hfits line List.mem_cons_self), List.foldl_cons, hrest]

/-- The entries of a file whose lines fit are those of its blocks. -/
theorem confLoad_eq {content : List UInt8} (hnul : 0 ∉ content)
    (hfits : ∀ line ∈ content.splitOn 10, line.length + 1 ≤ lineSize) (hconf : fail .conf = false) :
    confLoad fail content = some (Table.ofBlocks fail (blocksOf content).reverse).entries := by
  have hsim := (simulates_lines fail (content.splitOn 10)).table
  rw [confLoad, hconf, foldl_fgetsLines hnul hfits, blocksOf, List.reverse_reverse, hsim,
    Table.entries_enter]
  rfl

end Reads

end EchoAi.ConfFile
