import EchoAi.Bytes
import EchoAi.Double
import EchoAi.Json.Value
import EchoAi.Safety.LoadConf
import EchoAi.Splitting

/-!
# Reading a file in pages

The tool shows some lines of a file, and a hint where the next ones begin.

* `lineStarts`, `readLineLen`, `showLines`: the lines are cut out of the file, with sizes of a
  `size_t`.
* `readFileExecute`: the tool; absent where it reads behind the file or a size does not fit.
* `showLines_eq`: what is shown are lines of the file.
* `Follows`, `paging_exact`: the pages along the hints are the file.

Allocations succeed, and the file does not change while it is read.
-/

namespace EchoAi.ReadFile

open Double JsonValue

/-! ## Sizes -/

/-- The sum of two `size_t`, absent where it does not fit. -/
def addSize (a b : Nat) : Option Nat := if a + b < 2 ^ 64 then some (a + b) else none

/-- The difference of two `size_t`, absent where it does not fit. -/
def subSize (a b : Nat) : Option Nat := if b ≤ a then some (a - b) else none

/-- One less than a `size_t`, but not less than zero. -/
def lessOne (n : Nat) : Option Nat := if 0 < n then subSize n 1 else some 0

/-- A `size_t` as a `long`. -/
def longOfSize (n : Nat) : Int := if n < 2 ^ 63 then n else n - 2 ^ 64

/-- Bytes are put behind others into a buffer of a size; absent where they do not fit. -/
def putWithin (size : Nat) (out bytes : List UInt8) : Option (List UInt8) :=
  if out.length + bytes.length ≤ size then some (out ++ bytes) else none

/-- The bytes of a file from a place on; absent where they are not all of it. -/
def takeWithin (content : List UInt8) (place len : Nat) : Option (List UInt8) :=
  if place + len ≤ content.length then some ((content.drop place).take len) else none

/-! ## The lines of a file -/

/-- `READ_MAX_LINES` -/
def readMaxLines : Nat := 4000

/-- The starts of the lines behind the first one, where `cs` stands at the place `i`. -/
def startsFrom (i : Nat) : (cs : List UInt8) → List Nat
  | [] => []
  | c :: cs => if c = 10 then (i + 1) :: startsFrom (i + 1) cs else startsFrom (i + 1) cs

/-- The starts of the lines. -/
def lineStarts (content : List UInt8) : List Nat := 0 :: startsFrom 0 content

/-- `read_line_len` -/
def readLineLen (content : List UInt8) (lines : List Nat) (idx : Nat) : Option Nat :=
  if idx + 1 < lines.length then do
    let this ← lines[idx]?
    let next ← lines[idx + 1]?
    let gap ← subSize next this
    subSize gap 1
  else lines[idx]?.map fun this => (cString (content.drop this)).length

/-- The lengths of `n` lines. -/
def outLen (content : List UInt8) (lines : List Nat) (start : Nat) : (n : Nat) → Option Nat
  | 0 => some 0
  | n + 1 => do
    let sum ← outLen content lines start n
    let idx ← addSize start n
    let len ← readLineLen content lines idx
    addSize sum len

/-- The first `n` of `count` lines, with a newline between two of the `count`. -/
def joinLines (content : List UInt8) (lines : List Nat) (start count size : Nat) :
    (n : Nat) → Option (List UInt8)
  | 0 => some []
  | n + 1 => do
    let out ← joinLines content lines start count size n
    let idx ← addSize start n
    let len ← readLineLen content lines idx
    let place ← lines[idx]?
    let line ← takeWithin content place len
    let out ← putWithin size out line
    if n + 1 < count then putWithin size out [10] else some out

/-- Where the next lines begin. -/
structure Hint where
  first : Nat
  last : Nat
  total : Nat
  next : Nat

/-- The text of a hint. -/
def Hint.text (h : Hint) : List UInt8 :=
  ascii s!"\n\n[Showing lines {h.first}-{h.last} of {h.total}. Use offset={h.next} to continue.]"

/-- What a call shows of a file. -/
structure Page where
  shown : List UInt8
  hint : Option Hint

/-- The content of the result. -/
def Page.content (p : Page) : List UInt8 := p.shown ++ (p.hint.map Hint.text).getD []

/-- What a call reports instead. -/
structure ToolError where
  error : String
  category : String

/-- The lines from an offset on, at most as many as the limit; absent where something else is read
or a size does not fit. -/
def showLines (content : List UInt8) (offset limit : Int) : Option (Except ToolError Page) := do
  let _ ← addSize content.length 1
  let lines := lineStarts content
  let start ← lessOne (sizeOfInt offset)
  if lines.length ≤ start then
    some (.error ⟨s!"offset beyond end of file ({lines.length} lines total)", "validation_error"⟩)
  else
    let avail ← subSize lines.length start
    let wanted := if 0 < limit then sizeOfInt limit else readMaxLines
    let count := if avail < wanted then avail else wanted
    let sum ← outLen content lines start count
    let breaks ← lessOne count
    let len ← addSize sum breaks
    let size ← addSize len 1
    let out ← joinLines content lines start count size count
    let _ ← putWithin size out [0]
    if count < avail then
      let first ← addSize start 1
      let last ← addSize start count
      let next ← addSize last 1
      some (.ok ⟨out, some ⟨first, last, lines.length, next⟩⟩)
    else some (.ok ⟨out, none⟩)

/-! ## The tool -/

/-- What the policy and the file system say about paths. -/
structure FileWorld where
  /-- the configured `max_file_size` -/
  limit : Int
  limit_int : -2 ^ 31 ≤ limit ∧ limit < 2 ^ 31
  /-- `safety_check_path` -/
  allowed : String → Bool
  /-- `safety_resolve_path_alloc` -/
  resolve : String → Option String
  /-- `fopen`, and all bytes of the file -/
  file : String → Option (List UInt8)

/-- `max_file_size` -/
def FileWorld.maxFileSize (w : FileWorld) : Nat := sizeOfInt w.limit

/-- The rational that a JSON text spells. -/
def valueOf (x : Decimal) : ℚ := x.mantissa / 10 ^ x.scale

/-- A whole number of at least `least`, as a `long`. -/
def wholeOf (wild : Double → Int64) (least : ℚ) (x : Decimal) : Option Int :=
  let dv := toDouble (valueOf x)
  if dv.below least ∨ dv.above (2 ^ 63) ∨ dv ≠ toDouble (longOf wild dv) then none
  else some (longOf wild dv)

/-- A number of lines among the arguments, `0` when it is not there. -/
def linesArg (wild : Double → Int64) (name : String) (least : ℚ) (args : JsonValue) :
    Except ToolError Int :=
  match args.member name with
  | none => .ok 0
  | some j =>
    match j.numberValue.bind (wholeOf wild least) with
    | none => .error ⟨name ++ " must be a whole number of lines", "validation_error"⟩
    | some n => .ok n

/-- The offset and the limit. -/
def windowArgs (wild : Double → Int64) (args : JsonValue) : Except ToolError (Int × Int) :=
  match linesArg wild "offset" 0 args with
  | .error e => .error e
  | .ok offset =>
    match linesArg wild "limit" 1 args with
    | .error e => .error e
    | .ok limit => .ok (offset, limit)

/-- `read_file_execute` -/
def readFileExecute (w : FileWorld) (wild : Double → Int64) (args : Option JsonValue) :
    Option (Except ToolError Page) :=
  match args with
  | none => some (.error ⟨"invalid arguments JSON", "validation_error"⟩)
  | some args =>
    match (args.member "file_path").bind JsonValue.stringValue with
    | none => some (.error ⟨"missing 'file_path' argument", "validation_error"⟩)
    | some path =>
      match windowArgs wild args with
      | .error e => some (.error e)
      | .ok (offset, limit) =>
        if w.allowed path then
          match w.resolve path with
          | none => some (.error ⟨"path resolution failed", "execution_error"⟩)
          | some resolved =>
            match w.file resolved with
            | none => some (.error ⟨"file not found", "file_not_found"⟩)
            | some content =>
              if longOfSize w.maxFileSize < content.length then
                some (.error ⟨"file exceeds max size", "policy_denied"⟩)
              else showLines content offset limit
        else some (.error ⟨"path rejected by safety policy", "policy_denied"⟩)

/-! ## Lines and their starts -/

/-- The bytes of lines, with a newline behind each. -/
def weight (lines : List (List UInt8)) : Nat := (lines.map fun line => line.length + 1).sum

theorem weight_append (xs ys : List (List UInt8)) : weight (xs ++ ys) = weight xs + weight ys := by
  rw [weight, List.map_append, List.sum_append]
  rfl

theorem weight_cons (line : List UInt8) (lines : List (List UInt8)) :
    weight (line :: lines) = line.length + 1 + weight lines := by
  rw [weight, List.map_cons, List.sum_cons]
  rfl

theorem length_le_weight (lines : List (List UInt8)) : lines.length ≤ weight lines := by
  induction lines with
  | nil => exact Nat.le_refl 0
  | cons line lines ih =>
    rw [weight_cons, List.length_cons]
    omega

/-- Lines with a newline between two of them, one more at a time. -/
theorem intercalate_concat (xs : List (List UInt8)) (line : List UInt8) :
    [10].intercalate (xs ++ [line]) = xs.flatMap (· ++ [10]) ++ line := by
  induction xs with
  | nil => rw [List.nil_append, List.intercalate_singleton, List.flatMap_nil, List.nil_append]
  | cons x xs ih =>
    rw [List.cons_append, List.intercalate_cons_of_ne_nil (by simp), ih, List.flatMap_cons,
      List.append_assoc (x ++ [10])]

theorem intercalate_append {xs ys : List (List UInt8)} (hx : xs ≠ []) (hy : ys ≠ []) :
    [10].intercalate (xs ++ ys) = [10].intercalate xs ++ 10 :: [10].intercalate ys := by
  induction xs with
  | nil => exact absurd rfl hx
  | cons x xs ih =>
    rcases xs with _ | ⟨x', xs⟩
    · rw [List.singleton_append, List.intercalate_cons_of_ne_nil hy, List.intercalate_singleton,
        List.append_assoc, List.singleton_append]
    · have hne : x' :: xs ≠ [] := List.cons_ne_nil x' xs
      rw [List.cons_append, List.intercalate_cons_of_ne_nil (by simp), ih hne,
        List.intercalate_cons_of_ne_nil hne, List.append_assoc (x ++ [10])]

theorem length_flatMap (lines : List (List UInt8)) :
    (lines.flatMap (· ++ [10])).length = weight lines := by
  rw [List.length_flatMap, weight]
  simp only [List.length_append, List.length_singleton]

section Content

variable {content : List UInt8}

theorem startsFrom_last {cs : List UInt8} (h : 10 ∉ cs) (i : Nat) : startsFrom i cs = [] := by
  induction cs generalizing i with
  | nil => rfl
  | cons c cs ih =>
    obtain ⟨hc, hcs⟩ := List.ne_and_not_mem_of_not_mem_cons h
    rw [startsFrom, if_neg hc.symm]
    exact ih hcs (i + 1)

theorem startsFrom_cut {item : List UInt8} (h : 10 ∉ item) (i : Nat) (rest : List UInt8) :
    startsFrom i (item ++ 10 :: rest) =
      (i + item.length + 1) :: startsFrom (i + item.length + 1) rest := by
  induction item generalizing i with
  | nil => rfl
  | cons c item ih =>
    obtain ⟨hc, hitem⟩ := List.ne_and_not_mem_of_not_mem_cons h
    rw [List.cons_append, startsFrom, if_neg hc.symm, ih hitem (i + 1), List.length_cons,
      Nat.add_assoc i 1, Nat.add_comm 1]

theorem length_startsFrom (i : Nat) (content : List UInt8) :
    (i :: startsFrom i content).length = (content.splitOn 10).length := by
  induction content using splitOn_induction (10 : UInt8) generalizing i with
  | last xs hxs => rw [startsFrom_last hxs, List.splitOn_eq_singleton hxs]; rfl
  | cut item rest hitem ih =>
    rw [startsFrom_cut hitem, List.splitOn_append_cons_self_of_not_mem hitem, List.length_cons, ih,
      List.length_cons]

theorem length_lineStarts (content : List UInt8) :
    (lineStarts content).length = (content.splitOn 10).length := length_startsFrom 0 content

theorem weight_splitOn (content : List UInt8) :
    weight (content.splitOn 10) = content.length + 1 := by
  induction content using splitOn_induction (10 : UInt8) with
  | last xs hxs => rw [List.splitOn_eq_singleton hxs, weight_cons]; rfl
  | cut item rest hitem ih =>
    rw [List.splitOn_append_cons_self_of_not_mem hitem, weight_cons, ih, List.length_append,
      List.length_cons]
    omega

/-- From the start of a line on stands the rest of the lines. -/
theorem exists_startFrom (i : Nat) {k : Nat} (hk : k < (content.splitOn 10).length) :
    ∃ p ≤ content.length, (i :: startsFrom i content)[k]? = some (i + p) ∧
      content.drop p = [10].intercalate ((content.splitOn 10).drop k) := by
  induction content using splitOn_induction (10 : UInt8) generalizing i k with
  | last xs hxs =>
    rw [List.splitOn_eq_singleton hxs, List.length_singleton, Nat.lt_one_iff] at hk
    subst hk
    refine ⟨0, Nat.zero_le _, rfl, ?_⟩
    rw [List.drop_zero, List.drop_zero, List.intercalate_splitOn]
  | cut item rest hitem ih =>
    cases k with
    | zero =>
      refine ⟨0, Nat.zero_le _, rfl, ?_⟩
      rw [List.drop_zero, List.drop_zero, List.intercalate_splitOn]
    | succ k =>
      rw [List.splitOn_append_cons_self_of_not_mem hitem] at hk ⊢
      obtain ⟨p, hp, hget, hdrop⟩ := ih (i + item.length + 1) (Nat.lt_of_succ_lt_succ hk)
      refine ⟨item.length + 1 + p, ?_, ?_, ?_⟩
      · rw [List.length_append, List.length_cons]
        omega
      · rw [List.getElem?_cons_succ, startsFrom_cut hitem, hget]
        congr 1
        omega
      · rw [List.drop_succ_cons, ← hdrop, ← List.drop_drop, List.append_cons,
          List.drop_left' (by rw [List.length_append, List.length_singleton])]

theorem exists_start {k : Nat} (hk : k < (content.splitOn 10).length) :
    ∃ p ≤ content.length, (lineStarts content)[k]? = some p ∧
      content.drop p = [10].intercalate ((content.splitOn 10).drop k) := by
  obtain ⟨p, hp, hget, hdrop⟩ := exists_startFrom 0 hk
  exact ⟨p, hp, by rwa [Nat.zero_add] at hget, hdrop⟩

/-- **A line** is measured and taken as it is in the file. -/
theorem exists_line (hnul : 0 ∉ content) {k : Nat} {line : List UInt8}
    (hline : (content.splitOn 10)[k]? = some line) :
    readLineLen content (lineStarts content) k = some line.length ∧
      ∃ p, (lineStarts content)[k]? = some p ∧ takeWithin content p line.length = some line := by
  obtain ⟨hk, hget⟩ := List.getElem?_eq_some_iff.1 hline
  obtain ⟨p, hp, hstart, hdrop⟩ := exists_start hk
  have hlines : (content.splitOn 10).drop k = line :: (content.splitOn 10).drop (k + 1) := by
    rw [List.drop_eq_getElem_cons hk, hget]
  have htake (rest : List UInt8) (hrest : content.drop p = line ++ rest) :
      takeWithin content p line.length = some line := by
    have hlength := congrArg List.length hrest
    rw [List.length_drop, List.length_append] at hlength
    rw [takeWithin, if_pos (by omega), hrest, List.take_left]
  rw [readLineLen, length_lineStarts]
  by_cases hlast : k + 1 < (content.splitOn 10).length
  · obtain ⟨q, hq, hnext, hbehind⟩ := exists_start hlast
    have hne : (content.splitOn 10).drop (k + 1) ≠ [] := by
      rw [ne_eq, List.drop_eq_nil_iff]
      omega
    rw [hlines, List.intercalate_cons_of_ne_nil hne, ← hbehind, List.append_assoc] at hdrop
    refine ⟨?_, p, hstart, htake _ hdrop⟩
    have hlength := congrArg List.length hdrop
    simp only [List.length_drop, List.length_append, List.length_singleton] at hlength
    have hgap : subSize q p = some (q - p) := if_pos (by omega)
    have hlen : subSize (q - p) 1 = some line.length := by
      rw [subSize, if_pos (by omega)]
      congr 1
      omega
    rw [if_pos hlast, hstart, hnext]
    simp only [Option.bind_eq_bind, Option.bind_some, hgap, hlen]
  · have hnil : (content.splitOn 10).drop (k + 1) = [] := List.drop_eq_nil_iff.2 (Nat.le_of_not_lt hlast)
    rw [hlines, hnil, List.intercalate_singleton] at hdrop
    have hnul' : 0 ∉ content.drop p := fun hmem => hnul (List.mem_of_mem_drop hmem)
    refine ⟨?_, p, hstart, htake [] (by rw [hdrop, List.append_nil])⟩
    rw [if_neg hlast, hstart, Option.map_some, cString_of_notMem hnul', hdrop]

end Content

/-! ## What is shown -/

theorem addSize_eq {a b : Nat} (h : a + b < 2 ^ 64) : addSize a b = some (a + b) := if_pos h

theorem subSize_eq {a b : Nat} (h : b ≤ a) : subSize a b = some (a - b) := if_pos h

theorem lessOne_eq (n : Nat) : lessOne n = some (n - 1) := by
  rw [lessOne]
  split
  · exact subSize_eq (by omega)
  · congr 1
    omega

theorem putWithin_eq {size : Nat} {out bytes : List UInt8} (h : out.length + bytes.length ≤ size) :
    putWithin size out bytes = some (out ++ bytes) := if_pos h

section Window

variable {content : List UInt8} {start count : Nat}

/-- Some lines of a file. -/
def window (content : List UInt8) (start count : Nat) : List (List UInt8) :=
  ((content.splitOn 10).drop start).take count

theorem length_window (h : start + count ≤ (content.splitOn 10).length) :
    (window content start count).length = count := by
  rw [window, List.length_take, List.length_drop]
  omega

theorem window_succ {n : Nat} (h : start + n < (content.splitOn 10).length) :
    ∃ line, (content.splitOn 10)[start + n]? = some line ∧
      window content start (n + 1) = window content start n ++ [line] := by
  refine ⟨_, List.getElem?_eq_getElem h, ?_⟩
  have hn : n < ((content.splitOn 10).drop start).length := by
    rw [List.length_drop]
    omega
  rw [window, window, List.take_succ_eq_append_getElem hn, List.getElem_drop]

theorem weight_window_le (content : List UInt8) (start count : Nat) :
    weight (window content start count) ≤ content.length + 1 := by
  have htake := congrArg weight (List.take_append_drop count ((content.splitOn 10).drop start))
  have hdrop := congrArg weight (List.take_append_drop start (content.splitOn 10))
  rw [weight_append] at htake hdrop
  rw [weight_splitOn] at hdrop
  rw [window]
  omega

theorem weight_window_mono {n : Nat} (h : n ≤ count) :
    weight (window content start n) ≤ weight (window content start count) := by
  have htake := congrArg weight (List.take_append_drop n (window content start count))
  rw [weight_append, window, List.take_take, Nat.min_eq_left h] at htake
  rw [window, window]
  omega

variable (hnul : 0 ∉ content) (hsize : content.length < 2 ^ 63)
  (hin : start + count ≤ (content.splitOn 10).length)

include hnul hsize hin

theorem outLen_eq {n : Nat} (hn : n ≤ count) :
    outLen content (lineStarts content) start n = some (weight (window content start n) - n) := by
  induction n with
  | zero => rfl
  | succ n ih =>
    obtain ⟨line, hline, hwindow⟩ := window_succ (show start + n < (content.splitOn 10).length by omega)
    obtain ⟨hlen, -⟩ := exists_line hnul hline
    have hweight := weight_window_le content start (n + 1)
    have hcount := weight_splitOn content
    have hlines := length_le_weight (content.splitOn 10)
    have hlength := length_le_weight (window content start n)
    rw [length_window (by omega)] at hlength
    rw [hwindow, weight_append, weight_cons] at hweight ⊢
    rw [outLen, ih (Nat.le_of_succ_le hn)]
    simp only [Option.bind_eq_bind, Option.bind_some, addSize_eq (show start + n < 2 ^ 64 by omega),
      hlen]
    rw [addSize_eq (by omega)]
    congr 1
    have hnil : weight [] = 0 := rfl
    omega

theorem joinLines_eq {n : Nat} (hn : n < count) :
    joinLines content (lineStarts content) start count (weight (window content start count)) n =
      some ((window content start n).flatMap (· ++ [10])) := by
  induction n with
  | zero => rfl
  | succ n ih =>
    obtain ⟨line, hline, hwindow⟩ := window_succ (show start + n < (content.splitOn 10).length by omega)
    obtain ⟨hlen, p, hstart, htake⟩ := exists_line hnul hline
    have hmono := @weight_window_mono content start count (n + 1) (by omega)
    have hcount := weight_splitOn content
    have hlines := length_le_weight (content.splitOn 10)
    have hnil : weight [] = 0 := rfl
    rw [hwindow, weight_append, weight_cons] at hmono
    have hline' : ((window content start n).flatMap (· ++ [10])).length + line.length ≤
        weight (window content start count) := by
      rw [length_flatMap]
      omega
    have hbreak : ((window content start n).flatMap (· ++ [10]) ++ line).length + [(10 : UInt8)].length ≤
        weight (window content start count) := by
      rw [List.length_append, length_flatMap, List.length_singleton]
      omega
    rw [joinLines, ih (Nat.lt_of_succ_lt hn)]
    simp only [Option.bind_eq_bind, Option.bind_some, addSize_eq (show start + n < 2 ^ 64 by omega),
      hlen, hstart, htake, putWithin_eq hline', if_pos hn, putWithin_eq hbreak]
    rw [hwindow, List.flatMap_append, List.flatMap_singleton, List.append_assoc]

/-- All lines of the window are joined. -/
theorem joinLines_all (hpos : 0 < count) :
    joinLines content (lineStarts content) start count (weight (window content start count)) count =
        some ([10].intercalate (window content start count)) ∧
      ([10].intercalate (window content start count)).length + 1 =
        weight (window content start count) := by
  obtain ⟨n, rfl⟩ : ∃ n, count = n + 1 := ⟨count - 1, by omega⟩
  obtain ⟨line, hline, hwindow⟩ := window_succ (show start + n < (content.splitOn 10).length by omega)
  obtain ⟨hlen, p, hstart, htake⟩ := exists_line hnul hline
  have hcount := weight_splitOn content
  have hlines := length_le_weight (content.splitOn 10)
  have hnil : weight [] = 0 := rfl
  have hweight : weight (window content start (n + 1)) =
      weight (window content start n) + (line.length + 1) := by
    rw [hwindow, weight_append, weight_cons, hnil]
  have hline' : ((window content start n).flatMap (· ++ [10])).length + line.length ≤
      weight (window content start (n + 1)) := by
    rw [length_flatMap]
    omega
  constructor
  · rw [joinLines, joinLines_eq hnul hsize hin (Nat.lt_succ_self n)]
    simp only [Option.bind_eq_bind, Option.bind_some, addSize_eq (show start + n < 2 ^ 64 by omega),
      hlen, hstart, htake, putWithin_eq hline', if_neg (Nat.lt_irrefl (n + 1))]
    rw [hwindow, intercalate_concat]
  · rw [hweight, hwindow, intercalate_concat, List.length_append, length_flatMap, Nat.add_assoc]

end Window

/-- The line that an offset names first. -/
def firstLine (offset : Int) : Nat := offset.toNat - 1

/-- The lines that a limit allows. -/
def allowedLines (limit : Int) : Nat := if 0 < limit then limit.toNat else readMaxLines

/-- The page of some lines. -/
def pageOf (content : List UInt8) (start count : Nat) : Page where
  shown := [10].intercalate (window content start count)
  hint := if start + count < (content.splitOn 10).length then
      some ⟨start + 1, start + count, (content.splitOn 10).length, start + count + 1⟩
    else none

theorem sizeOfInt_eq {n : Int} (hlow : 0 ≤ n) (hhigh : n < 2 ^ 63) : sizeOfInt n = n.toNat := by
  rw [sizeOfInt]
  omega

/-- **What is shown** are lines of the file, and no size wraps. -/
theorem showLines_eq {content : List UInt8} (hnul : 0 ∉ content) (hsize : content.length < 2 ^ 63)
    {offset limit : Int} (hoffset : 0 ≤ offset ∧ offset < 2 ^ 63) (hlimit : 0 ≤ limit ∧ limit < 2 ^ 63) :
    showLines content offset limit = some (
      if (content.splitOn 10).length ≤ firstLine offset then
        .error ⟨s!"offset beyond end of file ({(content.splitOn 10).length} lines total)",
          "validation_error"⟩
      else .ok (pageOf content (firstLine offset)
        (min (allowedLines limit) ((content.splitOn 10).length - firstLine offset)))) := by
  have hcount := weight_splitOn content
  have hlines := length_le_weight (content.splitOn 10)
  have hfull : addSize content.length 1 = some (content.length + 1) := addSize_eq (by omega)
  have hstart : lessOne (sizeOfInt offset) = some (firstLine offset) := by
    rw [lessOne_eq, sizeOfInt_eq hoffset.1 hoffset.2]
    rfl
  have hwanted : (if 0 < limit then sizeOfInt limit else readMaxLines) = allowedLines limit := by
    rw [sizeOfInt_eq hlimit.1 hlimit.2]
    rfl
  have hallowed : 0 < allowedLines limit := by
    rw [allowedLines]
    split
    · omega
    · decide
  rw [showLines]
  simp only [Option.bind_eq_bind, hfull, Option.bind_some, hstart, hwanted, length_lineStarts]
  by_cases hbeyond : (content.splitOn 10).length ≤ firstLine offset
  · rw [if_pos hbeyond, if_pos hbeyond]
  rw [if_neg hbeyond, if_neg hbeyond]
  generalize firstLine offset = start at hbeyond
  generalize allowedLines limit = wanted at hallowed
  have hmin : (if (content.splitOn 10).length - start < wanted
      then (content.splitOn 10).length - start else wanted) =
      min wanted ((content.splitOn 10).length - start) := by
    split <;> omega
  rw [subSize_eq (Nat.le_of_not_le hbeyond), Option.bind_some, hmin]
  have hpos : 0 < min wanted ((content.splitOn 10).length - start) := by omega
  have hin : start + min wanted ((content.splitOn 10).length - start) ≤ (content.splitOn 10).length := by
    omega
  have hmore : min wanted ((content.splitOn 10).length - start) < (content.splitOn 10).length - start ↔
      start + min wanted ((content.splitOn 10).length - start) < (content.splitOn 10).length := by
    omega
  generalize min wanted ((content.splitOn 10).length - start) = count at hpos hin hmore
  have hweight := weight_window_le content start count
  have hwindow := length_le_weight (window content start count)
  rw [length_window hin] at hwindow
  obtain ⟨hjoin, hlength⟩ := joinLines_all hnul hsize hin hpos
  have hsum : addSize (weight (window content start count) - count) (count - 1) =
      some (weight (window content start count) - 1) := by
    rw [addSize_eq (by omega)]
    congr 1
    omega
  have hroom : addSize (weight (window content start count) - 1) 1 =
      some (weight (window content start count)) := by
    rw [addSize_eq (by omega)]
    congr 1
    omega
  have hend : putWithin (weight (window content start count))
      ([10].intercalate (window content start count)) [0] =
        some ([10].intercalate (window content start count) ++ [0]) := putWithin_eq hlength.le
  simp only [outLen_eq hnul hsize hin (Nat.le_refl count), Option.bind_some, lessOne_eq, hsum, hroom,
    hjoin, hend]
  rw [pageOf]
  by_cases hlast : start + count < (content.splitOn 10).length
  · rw [if_pos (hmore.2 hlast), if_pos hlast, addSize_eq (show start + 1 < 2 ^ 64 by omega),
      Option.bind_some, addSize_eq (show start + count < 2 ^ 64 by omega), Option.bind_some,
      addSize_eq (show start + count + 1 < 2 ^ 64 by omega), Option.bind_some]
  · rw [if_neg fun h => hlast (hmore.1 h), if_neg hlast]

/-! ## Arguments -/

section Arguments

variable {wild : Double → Int64}

theorem valueOf_int (n : Int) : valueOf ⟨n, 0⟩ = n := by
  rw [valueOf]
  norm_num

/-- A whole number that is accepted is a `long`, and not negative. -/
theorem wholeOf_bounds {least : ℚ} (hleast : 0 ≤ least) {x : Decimal} {n : Int}
    (h : wholeOf wild least x = some n) : 0 ≤ n ∧ n < 2 ^ 63 ∧ toDouble n = toDouble (valueOf x) ∧
      (toDouble n).below least = false := by
  rw [wholeOf] at h
  split at h
  · exact absurd h (by simp)
  · next hall =>
    simp only [not_or, not_not, Bool.not_eq_true] at hall
    obtain ⟨hbelow, habove, heq⟩ := hall
    obtain rfl := Option.some.inj h
    rw [← heq]
    refine ⟨?_, (longOf_bounds wild _).2, rfl, hbelow⟩
    generalize longOf wild (toDouble (valueOf x)) = n at heq
    rw [heq] at hbelow habove
    by_contra hneg
    cases hd : toDouble n with
    | finite y =>
      have hle : (n : ℚ) ≤ -1 := by exact_mod_cast (show n ≤ -1 by omega)
      have hy := neg_of_toDouble hle hd
      rw [hd, below] at hbelow
      exact absurd (hy.trans_le hleast) (of_decide_eq_false hbelow)
    | infinite negative =>
      rw [hd] at hbelow habove
      cases negative with
      | true => exact absurd hbelow (by simp [below])
      | false => exact absurd habove (by simp [above])

theorem one_le_of_wholeOf {x : Decimal} {n : Int} (h : wholeOf wild 1 x = some n) : 1 ≤ n := by
  obtain ⟨hlow, -, -, hbelow⟩ := wholeOf_bounds zero_le_one h
  by_contra hlt
  obtain rfl : n = 0 := by omega
  rw [toDouble_intCast (by norm_num), below] at hbelow
  exact absurd (of_decide_eq_false hbelow) (by norm_num)

/-- A small whole number is accepted as it is. -/
theorem wholeOf_int {n : Int} (hlow : 0 ≤ n) (hhigh : n < 2 ^ 53) : wholeOf wild 0 ⟨n, 0⟩ = some n := by
  have hdouble : toDouble n = .finite n := toDouble_intCast (by rwa [abs_of_nonneg hlow])
  have hlong : longOf wild (.finite n) = n := longOf_intCast wild (by omega) (by omega)
  rw [wholeOf, valueOf_int, hdouble, hlong, hdouble, if_neg]
  simp only [below, above, not_or, decide_eq_true_eq, not_lt, ne_eq, not_not, and_true]
  constructor
  · exact_mod_cast hlow
  · exact_mod_cast (show n ≤ 2 ^ 63 by omega)

theorem linesArg_bounds {name : String} {least : ℚ} (hleast : 0 ≤ least) {args : JsonValue} {n : Int}
    (h : linesArg wild name least args = .ok n) : 0 ≤ n ∧ n < 2 ^ 63 := by
  rw [linesArg] at h
  split at h
  · rw [← Except.ok.inj h]
    decide
  · next j _ =>
    cases hx : j.numberValue.bind (wholeOf wild least) with
    | none =>
      rw [hx] at h
      exact absurd h (by simp)
    | some m =>
      rw [hx] at h
      obtain ⟨x, -, hwhole⟩ := Option.bind_eq_some_iff.1 hx
      obtain ⟨hlow, hhigh, -⟩ := wholeOf_bounds hleast hwhole
      rw [← Except.ok.inj h]
      exact ⟨hlow, hhigh⟩

theorem windowArgs_bounds {args : JsonValue} {offset limit : Int}
    (h : windowArgs wild args = .ok (offset, limit)) :
    (0 ≤ offset ∧ offset < 2 ^ 63) ∧ 0 ≤ limit ∧ limit < 2 ^ 63 := by
  rw [windowArgs] at h
  cases hoffset : linesArg wild "offset" 0 args with
  | error e =>
    rw [hoffset] at h
    exact absurd h (by simp)
  | ok m =>
    cases hlimit : linesArg wild "limit" 1 args with
    | error e =>
      rw [hoffset, hlimit] at h
      exact absurd h (by simp)
    | ok n =>
      rw [hoffset, hlimit] at h
      obtain ⟨rfl, rfl⟩ := Prod.mk.inj (Except.ok.inj h)
      exact ⟨linesArg_bounds le_rfl hoffset, linesArg_bounds zero_le_one hlimit⟩

end Arguments

/-! ## Following the hints -/

/-- The arguments of a call. -/
def callArgs (path : String) (offset : Option Nat) (limit : Option Decimal) : JsonValue :=
  .object (("file_path", .string path) ::
    (offset.toList.map fun n => ("offset", .number ⟨n, 0⟩)) ++
      limit.toList.map fun x => ("limit", .number x))

/-- A limit that the tool accepts. -/
abbrev LimitArg (wild : Double → Int64) := { x : Decimal // (wholeOf wild 1 x).isSome }

/-- A file that the tool may read. -/
def FileWorld.Serves (w : FileWorld) (path : String) (content : List UInt8) : Prop :=
  w.allowed path = true ∧ ∃ resolved, w.resolve path = some resolved ∧ w.file resolved = some content ∧
    content.length ≤ longOfSize w.maxFileSize

/-- The pages of the calls from the `k`-th on, each of them at the offset of the hint before it,
until a page has no hint. -/
inductive Follows (w : FileWorld) (wild : Double → Int64) (path : String)
    (limits : Nat → Option (LimitArg wild)) : Nat → Option Nat → List Page → Prop where
  | last {k : Nat} {offset : Option Nat} {page : Page} :
      readFileExecute w wild (some (callArgs path offset ((limits k).map Subtype.val))) =
        some (.ok page) →
      page.hint = none → Follows w wild path limits k offset [page]
  | more {k : Nat} {offset : Option Nat} {page : Page} {hint : Hint} {pages : List Page} :
      readFileExecute w wild (some (callArgs path offset ((limits k).map Subtype.val))) =
        some (.ok page) →
      page.hint = some hint → Follows w wild path limits (k + 1) (some hint.next) pages →
      Follows w wild path limits k offset (page :: pages)

section Paging

variable {w : FileWorld} {wild : Double → Int64} {path : String} {content : List UInt8}

theorem sameName_file_path_offset : sameName "file_path" "offset" = false := by decide +kernel

theorem sameName_file_path_limit : sameName "file_path" "limit" = false := by decide +kernel

theorem sameName_offset_limit : sameName "offset" "limit" = false := by decide +kernel

theorem sameName_limit_offset : sameName "limit" "offset" = false := by decide +kernel

theorem member_path (path : String) (offset : Option Nat) (limit : Option Decimal) :
    (callArgs path offset limit).member "file_path" = some (.string path) :=
  findMember_pair_self _ _ _

theorem member_offset (path : String) (offset : Option Nat) (limit : Option Decimal) :
    (callArgs path offset limit).member "offset" =
      offset.map fun n : Nat => JsonValue.number ⟨n, 0⟩ := by
  rw [callArgs, member_object, List.cons_append, findMember_pair_of_other sameName_file_path_offset]
  cases offset with
  | none =>
    cases limit with
    | none => rfl
    | some x => exact findMember_pair_of_other sameName_limit_offset _ _
  | some n => exact findMember_pair_self _ _ _

theorem member_limit (path : String) (offset : Option Nat) (limit : Option Decimal) :
    (callArgs path offset limit).member "limit" = limit.map JsonValue.number := by
  have hlimit : findMember (limit.toList.map fun x => ("limit", JsonValue.number x)) "limit" =
      limit.map JsonValue.number := by
    cases limit with
    | none => rfl
    | some x => exact findMember_pair_self _ _ _
  rw [callArgs, member_object, List.cons_append, findMember_pair_of_other sameName_file_path_limit]
  cases offset with
  | none => exact hlimit
  | some n => exact (findMember_pair_of_other sameName_offset_limit _ _).trans hlimit

theorem windowArgs_callArgs {offset : Option Nat} (hoffset : ∀ n ∈ offset, n < 2 ^ 53)
    (limit : Option (LimitArg wild)) :
    ∃ lines : Int, 0 ≤ lines ∧ lines < 2 ^ 63 ∧
      windowArgs wild (callArgs path offset (limit.map Subtype.val)) =
        .ok ((offset.getD 0 : Nat), lines) := by
  have hfirst : linesArg wild "offset" 0 (callArgs path offset (limit.map Subtype.val)) =
      .ok (offset.getD 0 : Nat) := by
    rw [linesArg, member_offset]
    cases offset with
    | none => rfl
    | some n =>
      have hwhole : wholeOf wild 0 ⟨n, 0⟩ = some (n : Int) :=
        wholeOf_int (Int.natCast_nonneg n) (by exact_mod_cast hoffset n rfl)
      simp only [Option.map_some, JsonValue.numberValue, Option.bind_some, hwhole, Option.getD_some]
  obtain ⟨lines, hlines⟩ : ∃ lines,
      linesArg wild "limit" 1 (callArgs path offset (limit.map Subtype.val)) = .ok lines := by
    rw [linesArg, member_limit]
    cases limit with
    | none => exact ⟨0, rfl⟩
    | some x =>
      obtain ⟨lines, hwhole⟩ := Option.isSome_iff_exists.1 x.2
      refine ⟨lines, ?_⟩
      simp only [Option.map_some, JsonValue.numberValue, Option.bind_some, hwhole]
  obtain ⟨hlow, hhigh⟩ := linesArg_bounds zero_le_one hlines
  exact ⟨lines, hlow, hhigh, by rw [windowArgs, hfirst, hlines]⟩

theorem FileWorld.Serves.length_lt (h : w.Serves path content) : content.length < 2 ^ 31 := by
  obtain ⟨-, -, -, -, hle⟩ := h
  obtain ⟨hlow, hhigh⟩ := w.limit_int
  rw [FileWorld.maxFileSize, longOfSize, sizeOfInt] at hle
  split at hle <;> omega

/-- A call at a line of the file shows lines from there on. -/
theorem exists_page (h : w.Serves path content) (hnul : 0 ∉ content) {offset : Option Nat}
    (hoffset : ∀ n ∈ offset, n < 2 ^ 53)
    (hline : offset.getD 0 - 1 < (content.splitOn 10).length) (limit : Option (LimitArg wild)) :
    ∃ count, 0 < count ∧ offset.getD 0 - 1 + count ≤ (content.splitOn 10).length ∧
      readFileExecute w wild (some (callArgs path offset (limit.map Subtype.val))) =
        some (.ok (pageOf content (offset.getD 0 - 1) count)) := by
  obtain ⟨lines, hlow, hhigh, hwindow⟩ := @windowArgs_callArgs wild path offset hoffset limit
  have hsize := h.length_lt
  obtain ⟨hallowed, resolved, hresolve, hfile, hle⟩ := h
  have hfirst : firstLine ((offset.getD 0 : Nat) : Int) = offset.getD 0 - 1 := by
    rw [firstLine, Int.toNat_natCast]
  have hstart : (0 : Int) ≤ (offset.getD 0 : Nat) ∧ ((offset.getD 0 : Nat) : Int) < 2 ^ 63 := by
    cases offset with
    | none => decide
    | some n =>
      have hn := hoffset n rfl
      simp only [Option.getD_some]
      omega
  have hlines : 0 < allowedLines lines := by
    rw [allowedLines]
    split
    · omega
    · decide
  refine ⟨min (allowedLines lines) ((content.splitOn 10).length - (offset.getD 0 - 1)), by omega,
    by omega, ?_⟩
  rw [readFileExecute]
  simp only [member_path, Option.bind_some, JsonValue.stringValue, hwindow, hallowed, if_true, hresolve,
    hfile, if_neg (Int.not_lt.2 hle)]
  rw [showLines_eq hnul (by omega) hstart ⟨hlow, hhigh⟩, hfirst, if_neg (Nat.not_le.2 hline)]

/-- The pages from a line on are the lines from there on. -/
theorem exists_pages (h : w.Serves path content) (hnul : 0 ∉ content)
    (limits : Nat → Option (LimitArg wild)) {left : Nat} (k : Nat) {offset : Option Nat}
    (hleft : offset.getD 0 - 1 + left = (content.splitOn 10).length) (hpos : 0 < left)
    (hoffset : ∀ n ∈ offset, n < 2 ^ 53) :
    ∃ pages, pages ≠ [] ∧ Follows w wild path limits k offset pages ∧
      [10].intercalate (pages.map Page.shown) =
        [10].intercalate ((content.splitOn 10).drop (offset.getD 0 - 1)) := by
  induction left using Nat.strong_induction_on generalizing k offset with
  | _ left ih =>
    obtain ⟨count, hcount, hin, hpage⟩ := exists_page h hnul hoffset (by omega) (limits k)
    have hsplit : window content (offset.getD 0 - 1) count ++
        (content.splitOn 10).drop (offset.getD 0 - 1 + count) =
          (content.splitOn 10).drop (offset.getD 0 - 1) := by
      rw [window, ← List.drop_drop, List.take_append_drop]
    by_cases hmore : offset.getD 0 - 1 + count < (content.splitOn 10).length
    · have hlines := length_le_weight (content.splitOn 10)
      rw [weight_splitOn] at hlines
      have hlength := h.length_lt
      -- the next call begins at the line behind the last one that is shown
      obtain ⟨pages, hne, hfollows, hjoin⟩ := @ih (left - count) (by omega) (k + 1)
        (some (offset.getD 0 - 1 + count + 1)) (by rw [Option.getD_some]; omega) (by omega)
        (fun n hn => by
          rw [← Option.some.inj hn]
          omega)
      refine ⟨_, List.cons_ne_nil _ pages, .more hpage (if_pos hmore) hfollows, ?_⟩
      have hmap : pages.map Page.shown ≠ [] := fun hnil => hne (List.map_eq_nil_iff.1 hnil)
      have hwindow : window content (offset.getD 0 - 1) count ≠ [] := by
        rw [ne_eq, ← List.length_eq_zero_iff, length_window hin]
        omega
      have hrest : (content.splitOn 10).drop (offset.getD 0 - 1 + count) ≠ [] := by
        rw [ne_eq, List.drop_eq_nil_iff]
        omega
      rw [List.map_cons, List.intercalate_cons_of_ne_nil hmap, hjoin, Option.getD_some,
        Nat.add_sub_cancel, ← hsplit, intercalate_append hwindow hrest, pageOf, List.append_assoc,
        List.singleton_append]
    · refine ⟨_, List.cons_ne_nil _ [], .last hpage (if_neg hmore), ?_⟩
      have hnil : (content.splitOn 10).drop (offset.getD 0 - 1 + count) = [] := by
        rw [List.drop_eq_nil_iff]
        omega
      rw [hnil, List.append_nil] at hsplit
      rw [List.map_singleton, List.intercalate_singleton, pageOf, hsplit]

/-- **The pages of a file are the file**: every call along the hints succeeds, they end, and what
they show is the file.  Whatever offset and limit are accepted, no size wraps, and only lines of the
file are read.  -/
theorem paging_exact (h : w.Serves path content) (hnul : 0 ∉ content) :
    (∀ limits : Nat → Option (LimitArg wild), ∃ pages, Follows w wild path limits 0 none pages ∧
      [10].intercalate (pages.map Page.shown) = content) ∧
    ∀ args offset limit, windowArgs wild args = .ok (offset, limit) →
      (showLines content offset limit).isSome := by
  constructor
  · intro limits
    have hpos : 0 < (content.splitOn 10).length :=
      List.length_pos_iff.2 (List.splitOn_ne_nil 10 content)
    obtain ⟨pages, -, hfollows, hjoin⟩ := @exists_pages w wild path content h hnul limits _ 0 none
      (Nat.zero_add _) hpos nofun
    refine ⟨pages, hfollows, hjoin.trans ?_⟩
    exact List.intercalate_splitOn 10
  · intro args offset limit hargs
    obtain ⟨hoffset, hlimit⟩ := windowArgs_bounds hargs
    have hsize := h.length_lt
    rw [showLines_eq hnul (by omega) hoffset hlimit]
    rfl

end Paging

/-- A file of two lines, and limits of one line. -/
theorem paging_exact_two :
    ∃ pages, Follows ⟨10, by decide, fun _ => true, some, fun _ => some [97, 10, 98]⟩ (fun _ => 0) "a"
        (fun _ => some ⟨⟨1, 0⟩, by decide +kernel⟩) 0 none pages ∧
      [10].intercalate (pages.map Page.shown) = [97, 10, 98] :=
  (paging_exact ⟨rfl, "a", rfl, rfl, by decide⟩ (by decide)).1 _

end EchoAi.ReadFile
