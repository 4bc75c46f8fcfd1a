import EchoAi.Bytes
import EchoAi.Ctype
import Mathlib.Data.List.GetD
import Mathlib.Logic.Function.Iterate

/-!
# Inline markdown

One line of text is cut into styled runs.  A delimiter opens when a search ahead finds a closer for it;
the loop decides later where it is closed.

* `findCloser`: the search ahead.
* `tokenAt`: what is read at a place, and `Inline.step` what is done with it.
* `mdParseInline`: the runs of a line.
-/

namespace EchoAi.Markdown

/-! ## Styles -/

/-- The bits of `MdStyle` that runs of a line carry. -/
structure MdStyle where
  bold : Bool := false
  italic : Bool := false
  code : Bool := false
  strike : Bool := false
  link : Bool := false
  deriving DecidableEq, Repr

/-- All bits of two styles. -/
def MdStyle.union (a b : MdStyle) : MdStyle where
  bold := a.bold || b.bold
  italic := a.italic || b.italic
  code := a.code || b.code
  strike := a.strike || b.strike
  link := a.link || b.link

/-- `MdRun`: some bytes of the line and their style. -/
structure MdRun where
  start : Nat
  len : Nat
  style : MdStyle
  deriving DecidableEq, Repr

/-- `MdDelim`: an open delimiter. -/
structure MdDelim where
  ch : UInt8
  bits : MdStyle
  deriving DecidableEq, Repr

/-- `MD_MAX_DEPTH` -/
def mdMaxDepth : Nat := 8

/-- `md_ispunct` -/
def mdIspunct (c : UInt8) : Bool :=
  (33 ≤ c ∧ c ≤ 47) ∨ (58 ≤ c ∧ c ≤ 64) ∨ (91 ≤ c ∧ c ≤ 96) ∨ (123 ≤ c ∧ c ≤ 126)

/-- `run_bits` -/
def runBits (n : Nat) : MdStyle :=
  if n ≥ 3 then { bold := true, italic := true }
  else if n = 2 then { bold := true }
  else { italic := true }

/-- The style of a delimiter of `n` characters. -/
def delimBits (ch : UInt8) (n : Nat) : MdStyle :=
  if ch = 126 then { strike := true } else runBits n

/-! ## The search ahead -/

section Line

variable (s : List UInt8)

/-- How often a character stands at a place in a row. -/
def runLength (i : Nat) (ch : UInt8) : Nat := ((s.drop i).takeWhile (· = ch)).length

/-- `flank_ok` -/
def flankOk (j n : Nat) (ch : UInt8) (closer : Bool) : Bool :=
  if closer then
    if j = 0 ∨ s[j - 1]? = some 32 then false
    else !(ch = 95 ∧ (s[j + n]?).any isAlnum)
  else
    if s.length ≤ j + n ∨ s[j + n]? = some 32 then false
    else !(ch = 95 ∧ 0 < j ∧ (s[j - 1]?).any isAlnum)

/-- The search of `find_closer` for the end of a code span: the place behind the next `m` backticks. -/
def closeTicks (m : Nat) : (fuel q : Nat) → Option Nat
  | 0, _ => none
  | fuel + 1, q =>
    if q < s.length then
      if s[q]? = some 96 then
        let mm := min 2 (runLength s q 96)
        if mm = m then some (q + mm) else closeTicks m fuel (q + mm)
      else closeTicks m fuel (q + 1)
    else none

/-- The loop of `find_closer`. -/
def findCloserFrom (ch : UInt8) (bits : MdStyle) : (fuel j : Nat) → Bool
  | 0, _ => false
  | fuel + 1, j =>
    if j < s.length then
      if s[j]? = some 96 then
        let m := min 2 (runLength s j 96)
        match closeTicks s m s.length (j + m) with
        | some j => findCloserFrom ch bits fuel j
        | none => false
      else if s[j]? = some ch then
        let n := min 3 (runLength s j ch)
        if delimBits ch n = bits ∧ flankOk s j n ch true then true
        else findCloserFrom ch bits fuel (j + n)
      else findCloserFrom ch bits fuel (j + 1)
    else false

/-- `find_closer` -/
def findCloser (start : Nat) (ch : UInt8) (bits : MdStyle) : Bool :=
  findCloserFrom s ch bits s.length start

/-! ## The loop -/

/-- What the loop reads at a place. -/
inductive Token where
  /-- a backslash with the punctuation behind it -/
  | escape
  /-- one or two backticks -/
  | ticks (n : Nat)
  /-- a link whose text ends at `j` and whose target ends at `k` -/
  | link (j k : Nat)
  /-- up to three characters of a delimiter -/
  | delim (ch : UInt8) (n : Nat)
  | plain
  deriving DecidableEq, Repr

/-- Where the text and the target of a link end that begins at a place. -/
def linkEnds (i : Nat) : Option (Nat × Nat) :=
  let j := i + 1 + ((s.drop (i + 1)).takeWhile fun c => c ≠ 93 ∧ c ≠ 10).length
  if s[j + 1]? = some 40 then
    let k := j + 2 + ((s.drop (j + 2)).takeWhile fun c => c ≠ 41 ∧ c ≠ 10).length
    if s[k]? = some 41 then some (j, k) else none
  else none

/-- The conditions of the loop of `md_parse_inline`, in a code span or not. -/
def tokenAt (code : Option Nat) (i : Nat) : Token :=
  if s[i]? = some 92 ∧ (s[i + 1]?).any mdIspunct then .escape
  else if s[i]? = some 96 then .ticks (min 2 (runLength s i 96))
  else if code.isSome then .plain
  else if s[i]? = some 91 then
    match linkEnds s i with
    | some (j, k) => .link j k
    | none => .plain
  else if s[i]? = some 42 ∨ s[i]? = some 95 ∨ s[i]? = some 126 then
    let ch := s.getD i 0
    .delim ch (min 3 (runLength s i ch))
  else .plain

/-- The place behind a token. -/
def Token.next (i : Nat) : Token → Nat
  | .escape => i + 2
  | .ticks n => i + n
  | .link _ k => k + 1
  | .delim _ n => i + n
  | .plain => i + 1

/-- The state of the loop.  `stack` has the open delimiters, the innermost first, and `code` the length of
the delimiter of the open code span. -/
structure Inline where
  runs : List MdRun := []
  start : Nat := 0
  cur : MdStyle := {}
  stack : List MdDelim := []
  code : Option Nat := none
  i : Nat := 0
  deriving DecidableEq, Repr

/-- `md_emit` -/
def mdEmit (cap : Nat) (runs : List MdRun) (start len : Nat) (style : MdStyle) : List MdRun :=
  if len = 0 ∨ cap ≤ runs.length then runs else runs ++ [⟨start, len, style⟩]

/-- The style of the open delimiters. -/
def stackBits (stack : List MdDelim) : MdStyle := stack.foldr (fun d cur => cur.union d.bits) {}

/-- What is left open when a delimiter is closed; those inside of it are closed along with it. -/
def popTo (d : MdDelim) (stack : List MdDelim) : List MdDelim := (stack.dropWhile (· ≠ d)).tail

/-- Whether a delimiter closes an open one. -/
def Inline.closes (st : Inline) (ch : UInt8) (n : Nat) : Bool :=
  flankOk s st.i n ch true && decide ({ ch, bits := delimBits ch n } ∈ st.stack)

/-- Whether a delimiter that closes none is opened. -/
def Inline.opens (st : Inline) (ch : UInt8) (n : Nat) : Bool :=
  flankOk s st.i n ch false && decide (st.stack.length < mdMaxDepth) &&
    findCloser s (st.i + n) ch (delimBits ch n)

/-- The run at hand is written, and the next one begins behind `next`. -/
def Inline.flush (cap : Nat) (st : Inline) (next : Nat) : Inline :=
  { st with
    runs := mdEmit cap st.runs st.start (st.i - st.start) st.cur
    start := next
    i := next }

/-- One round of the loop. -/
def Inline.step (cap : Nat) (st : Inline) : Inline :=
  match tokenAt s st.code st.i with
  | .escape =>
    let flushed := st.flush cap (st.i + 2)
    { flushed with runs := mdEmit cap flushed.runs (st.i + 1) 1 st.cur }
  | .ticks n =>
    match st.code with
    | some m =>
      if n = m then
        { st.flush cap (st.i + n) with code := none, cur := { st.cur with code := false } }
      else { st with i := st.i + n }
    | none =>
      { st.flush cap (st.i + n) with code := some n, cur := { st.cur with code := true } }
  | .link j k =>
    let flushed := st.flush cap (k + 1)
    { flushed with
      runs := mdEmit cap flushed.runs (st.i + 1) (j - st.i - 1) { st.cur with link := true } }
  | .delim ch n =>
    if st.closes s ch n then
      let stack := popTo { ch, bits := delimBits ch n } st.stack
      { st.flush cap (st.i + n) with stack, cur := stackBits stack }
    else if st.opens s ch n then
      { st.flush cap (st.i + n) with
        stack := { ch, bits := delimBits ch n } :: st.stack
        cur := st.cur.union (delimBits ch n) }
    else { st with i := st.i + n }
  | .plain => { st with i := st.i + 1 }

/-- The loop stops at the end of the line. -/
def Inline.round (cap : Nat) (st : Inline) : Inline :=
  if st.i < s.length then st.step s cap else st

end Line

/-! ## Every token takes a part of the line -/

section Progress

variable {s : List UInt8}

theorem add_runLength_le (i : Nat) (ch : UInt8) (h : i ≤ s.length) : i + runLength s i ch ≤ s.length := by
  have hle := (List.takeWhile_prefix (fun c => decide (c = ch)) (l := s.drop i)).length_le
  rw [List.length_drop] at hle
  rw [runLength]
  omega

theorem pos_runLength {i : Nat} {ch : UInt8} (h : s[i]? = some ch) : 0 < runLength s i ch := by
  obtain ⟨hi, heq⟩ := List.getElem?_eq_some_iff.1 h
  have hcons : (ch :: s.drop (i + 1)).takeWhile (· = ch) = ch :: (s.drop (i + 1)).takeWhile (· = ch) :=
    List.takeWhile_cons_of_pos (decide_eq_true rfl)
  rw [runLength, List.drop_eq_getElem_cons hi, heq, hcons, List.length_cons]
  exact Nat.succ_pos _

theorem linkEnds_bounds {i j k : Nat} (h : linkEnds s i = some (j, k)) :
    i < j ∧ j < k ∧ k < s.length := by
  rw [linkEnds] at h
  dsimp only at h
  split at h
  · split at h
    · next hk =>
      obtain ⟨hlt, -⟩ := List.getElem?_eq_some_iff.1 hk
      obtain ⟨rfl, rfl⟩ := Prod.mk.inj (Option.some.inj h)
      omega
    · exact absurd h (Option.some_ne_none _).symm
  · exact absurd h (Option.some_ne_none _).symm

/-- A token takes at least a byte, and no more than there are. -/
theorem next_bounds {code : Option Nat} {i : Nat} (h : i < s.length) :
    i < (tokenAt s code i).next i ∧ (tokenAt s code i).next i ≤ s.length := by
  rw [tokenAt]
  split
  · next hescape =>
    obtain ⟨c, hc, -⟩ := (Option.any_eq_true _ _).1 hescape.2
    obtain ⟨hlt, -⟩ := List.getElem?_eq_some_iff.1 hc
    exact ⟨Nat.lt_add_of_pos_right (by decide), hlt⟩
  split
  · next htick =>
    have hpos := pos_runLength htick
    have hle := add_runLength_le i 96 (Nat.le_of_lt h)
    rw [Token.next]
    omega
  split
  · exact ⟨Nat.lt_succ_self i, h⟩
  split
  · split
    · next j k hlink =>
      obtain ⟨hj, hk, hlt⟩ := linkEnds_bounds hlink
      rw [Token.next]
      omega
    · exact ⟨Nat.lt_succ_self i, h⟩
  split
  · have hget : s[i]? = some (s.getD i 0) := by
      rw [List.getD_eq_getElem _ _ h, List.getElem?_eq_getElem h]
    have hpos := pos_runLength hget
    have hle := add_runLength_le i (s.getD i 0) (Nat.le_of_lt h)
    rw [Token.next]
    omega
  · exact ⟨Nat.lt_succ_self i, h⟩

/-- More fuel changes nothing for the end of a code span. -/
theorem closeTicks_succ {m fuel q : Nat} (h : s.length ≤ fuel + q) :
    closeTicks s m (fuel + 1) q = closeTicks s m fuel q := by
  induction fuel generalizing q with
  | zero => simp only [closeTicks, if_neg (show ¬q < s.length by omega)]
  | succ fuel ih =>
    unfold closeTicks
    split
    · split
      · next htick =>
        have hpos := pos_runLength htick
        dsimp only
        split
        · rfl
        · exact ih (by omega)
      · exact ih (by omega)
    · rfl

theorem lt_of_closeTicks {m fuel q j : Nat} (h : closeTicks s m fuel q = some j) : q < j := by
  induction fuel generalizing q with
  | zero => exact absurd h (Option.some_ne_none j).symm
  | succ fuel ih =>
    rw [closeTicks] at h
    split at h
    · split at h
      · next htick =>
        have hpos := pos_runLength htick
        dsimp only at h
        split at h
        · rw [← Option.some.inj h]
          omega
        · exact Nat.lt_of_le_of_lt (Nat.le_add_right _ _) (ih h)
      · exact Nat.lt_of_succ_lt (ih h)
    · exact absurd h (Option.some_ne_none j).symm

/-- More fuel changes nothing for the search ahead. -/
theorem findCloserFrom_succ {ch : UInt8} {bits : MdStyle} {fuel j : Nat} (h : s.length ≤ fuel + j) :
    findCloserFrom s ch bits (fuel + 1) j = findCloserFrom s ch bits fuel j := by
  induction fuel generalizing j with
  | zero => simp only [findCloserFrom, if_neg (show ¬j < s.length by omega)]
  | succ fuel ih =>
    unfold findCloserFrom
    split
    · split
      · dsimp only
        split
        · next j' hclose =>
          have hlt := lt_of_closeTicks hclose
          exact ih (by omega)
        · rfl
      split
      · next hch =>
        have hpos := pos_runLength hch
        dsimp only
        split
        · rfl
        · exact ih (by omega)
      · exact ih (by omega)
    · rfl

end Progress

end EchoAi.Markdown
