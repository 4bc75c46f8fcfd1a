import Mathlib.Data.List.DropRight
import EchoAi.Memory

/-!
# The output of a command

The tool keeps the last bytes of the output in a window, and the whole output in a file as soon as it
is longer than the window.

* `takeChunk`, `trimTail`, `collect`: the loop that reads, and what is shown behind it.
* `Holds`: the window has the last bytes, and the file the whole output, whatever the chunks are.
* `Shows`: nothing is lost or hidden.
* `Swallowed`, `collect_shows_iff`: the trim hides everything just when the only newline of the window
  is its last byte.

Reading and writing succeed, and the command ends in time.
-/

namespace EchoAi.Bash

/-- `BASH_TAIL_BYTES` -/
def bashTailBytes : Nat := 8192

/-- What a `read` yields: some bytes, at most as many as its buffer holds, and no NUL. -/
abbrev Chunk := { bytes : List UInt8 // (0 < bytes.length ∧ bytes.length ≤ 4096) ∧ 0 ∉ bytes }

/-- The window and the file of a run. -/
structure Capture where
  tail : List UInt8
  tailLen : Nat
  total : Nat
  spill : Option (List UInt8)

/-- Nothing is read. -/
def Capture.start : Capture where
  tail := List.replicate (bashTailBytes + 1) 0
  tailLen := 0
  total := 0
  spill := none

/-- A chunk is read; absent where something else than the window is accessed. -/
def takeChunk (st : Capture) (chunk : List UInt8) : Option Capture :=
  let total := (st.total + chunk.length) % 2 ^ 64
  let spill :=
    if st.spill.isNone ∧ bashTailBytes < total then some (st.tail.take st.tailLen) else st.spill
  let spill := spill.map (· ++ chunk)
  if st.tailLen + chunk.length ≤ bashTailBytes then
    (writeAt st.tail st.tailLen chunk).map fun tail =>
      { tail, tailLen := st.tailLen + chunk.length, total, spill }
  else
    let keepOld := bashTailBytes - chunk.length
    (moveWithin st.tail 0 (st.tailLen - keepOld) keepOld).bind fun tail =>
      (writeAt tail keepOld chunk).map fun tail =>
        { tail, tailLen := bashTailBytes, total, spill }

/-- The chunks are read one after the other. -/
def takeChunks (st : Capture) : List Chunk → Option Capture
  | [] => some st
  | chunk :: chunks => (takeChunk st chunk.1).bind fun st => takeChunks st chunks

/-- The window is cut to the start of a line. -/
def trimTail (st : Capture) : Option Capture :=
  let firstNl := (st.tail.take st.tailLen).findIdx (· = 10)
  if firstNl < st.tailLen then
    let keep := st.tailLen - (firstNl + 1)
    (moveWithin st.tail 0 (firstNl + 1) keep).map fun tail => { st with tail, tailLen := keep }
  else some st

/-- What is shown of the output, and the file with all of it. -/
def collect (chunks : List Chunk) : Option (List UInt8 × Option (List UInt8)) := do
  let st ← takeChunks .start chunks
  let st ← if st.spill.isSome then trimTail st else some st
  let tail ← writeAt st.tail st.tailLen [0]
  some (cString tail, st.spill)

/-! ## The last bytes -/

section Rtake

variable {α : Type*}

theorem length_rtake (n : Nat) (xs : List α) : (xs.rtake n).length = min n xs.length := by
  rw [List.rtake, List.length_drop]
  omega

theorem rtake_append {n : Nat} (xs : List α) {ys : List α} (h : ys.length ≤ n) :
    (xs ++ ys).rtake n = xs.rtake (n - ys.length) ++ ys := by
  rw [List.rtake, List.rtake, List.length_append]
  rw [List.drop_append_of_le_length (by omega)]
  congr 2
  omega

theorem rtake_of_le {n : Nat} {xs : List α} (h : xs.length ≤ n) : xs.rtake n = xs := by
  rw [List.rtake, Nat.sub_eq_zero_of_le h, List.drop_zero]

theorem rtake_rtake {m n : Nat} (h : m ≤ n) (xs : List α) : (xs.rtake n).rtake m = xs.rtake m := by
  rw [List.rtake, length_rtake, List.rtake, List.rtake, List.drop_drop]
  congr 1
  omega

theorem rtake_isSuffix (n : Nat) (xs : List α) : xs.rtake n <:+ xs := List.drop_suffix _ _

end Rtake

/-! ## The window -/

/-- The window has the last bytes of the output, and the file all of it. -/
structure Holds (st : Capture) (out : List UInt8) : Prop where
  mem : ∃ rest, st.tail = out.rtake bashTailBytes ++ rest ∧
    st.tail.length = bashTailBytes + 1
  tailLen : st.tailLen = min bashTailBytes out.length
  total : st.spill = none → st.total = out.length
  spill : st.spill = if bashTailBytes < out.length then some out else none

theorem Holds.start : Holds .start [] where
  mem := ⟨_, rfl, List.length_replicate⟩
  tailLen := rfl
  total _ := rfl
  spill := rfl

theorem Holds.take_tail {st : Capture} {out : List UInt8} (h : Holds st out) :
    st.tail.take st.tailLen = out.rtake bashTailBytes := by
  obtain ⟨rest, hmem, -⟩ := h.mem
  rw [hmem, h.tailLen, ← length_rtake, List.take_left]

/-- The file has all of the output behind a chunk. -/
theorem Holds.spill_step {st : Capture} {out : List UInt8} (h : Holds st out) (chunk : Chunk) :
    ((if st.spill.isNone ∧ bashTailBytes < (st.total + chunk.1.length) % 2 ^ 64
        then some (st.tail.take st.tailLen) else st.spill).map (· ++ chunk.1)) =
      if bashTailBytes < (out ++ chunk.1).length then some (out ++ chunk.1) else none := by
  have hlength : (out ++ chunk.1).length = out.length + chunk.1.length := List.length_append
  obtain ⟨-, hchunk⟩ := chunk.2.1
  have hspill := h.spill
  by_cases hlong : bashTailBytes < out.length
  · rw [if_pos hlong] at hspill
    rw [hspill, if_neg (by simp), if_pos (by omega), Option.map_some]
  · rw [if_neg hlong] at hspill
    have hsmall : (st.total + chunk.1.length) % 2 ^ 64 = (out ++ chunk.1).length := by
      rw [h.total hspill, hlength]
      exact Nat.mod_eq_of_lt (by rw [bashTailBytes] at hlong; omega)
    rw [hsmall, hspill]
    split
    · next hnew =>
      rw [if_pos hnew.2, h.take_tail, rtake_of_le (Nat.le_of_not_lt hlong), Option.map_some]
    · next hold =>
      rw [if_neg fun hnew => hold ⟨rfl, hnew⟩, Option.map_none]

/-- Bytes that fit are put behind a window. -/
theorem exists_writeAt {front rest bytes : List UInt8} (h : bytes.length ≤ rest.length) :
    ∃ rest', writeAt (front ++ rest) front.length bytes = some (front ++ bytes ++ rest') ∧
      (front ++ bytes ++ rest').length = (front ++ rest).length := by
  refine ⟨rest.drop bytes.length, ?_, ?_⟩
  · have hwrite := @writeAt_append front (rest.take bytes.length) (rest.drop bytes.length) bytes
      (List.length_take_of_le h)
    rwa [List.append_assoc front, List.take_append_drop] at hwrite
  · simp only [List.length_append, List.length_drop]
    omega

/-- The last bytes of a window are moved to its front. -/
theorem exists_shift {window rest : List UInt8} {n : Nat} (h : n ≤ window.length) :
    ∃ rest', moveWithin (window ++ rest) 0 (window.length - n) n = some (window.rtake n ++ rest') ∧
      (window.rtake n ++ rest').length = (window ++ rest).length := by
  have hsplit : window = window.take (window.length - n) ++ window.rtake n :=
    (List.take_append_drop _ _).symm
  have hfront : (window.take (window.length - n)).length = window.length - n :=
    List.length_take_of_le (Nat.sub_le _ _)
  have hlast : (window.rtake n).length = n := by rw [length_rtake, Nat.min_eq_left h]
  have hmove := @moveWithin_append (window.take (window.length - n)) (window.rtake n) rest 0
  rw [hfront, hlast, ← hsplit] at hmove
  obtain ⟨rest', hwrite, hlength⟩ := @exists_writeAt [] (window ++ rest) (window.rtake n) (by
    rw [hlast, List.length_append]
    omega)
  exact ⟨rest', hmove.trans hwrite, hlength⟩

/-- **A chunk** is put behind the last bytes. -/
theorem Holds.step {st : Capture} {out : List UInt8} (h : Holds st out) (chunk : Chunk) :
    ∃ st', takeChunk st chunk.1 = some st' ∧ Holds st' (out ++ chunk.1) := by
  obtain ⟨hpos, hchunk⟩ := chunk.2.1
  obtain ⟨rest, hmem, hsize⟩ := h.mem
  have hlength : (out ++ chunk.1).length = out.length + chunk.1.length := List.length_append
  have hspill := h.spill_step chunk
  have htotal : (if bashTailBytes < (out ++ chunk.1).length then some (out ++ chunk.1) else none) =
      none → (st.total + chunk.1.length) % 2 ^ 64 = (out ++ chunk.1).length := by
    intro hnone
    have hshort : ¬bashTailBytes < (out ++ chunk.1).length := fun hlong => by
      rw [if_pos hlong] at hnone
      exact absurd hnone (Option.some_ne_none _)
    have hnot : ¬bashTailBytes < out.length := by omega
    rw [h.total (h.spill.trans (if_neg hnot)), hlength]
    exact Nat.mod_eq_of_lt (by rw [bashTailBytes] at hshort; omega)
  have hwindow : (out.rtake bashTailBytes).length = st.tailLen := by
    rw [length_rtake, h.tailLen]
  have hmin := h.tailLen
  rw [takeChunk]
  dsimp only
  rw [hspill]
  by_cases hfits : st.tailLen + chunk.1.length ≤ bashTailBytes
  · have hall : out.rtake bashTailBytes = out := rtake_of_le (by omega)
    rw [hall] at hmem hwindow
    rw [hmem, List.length_append] at hsize
    obtain ⟨rest', hwrite, hsize'⟩ := @exists_writeAt out rest chunk.1 (by omega)
    rw [if_pos hfits, hmem, ← hwindow, hwrite, Option.map_some]
    refine ⟨_, rfl, ⟨rest', ?_, ?_⟩, ?_, htotal, rfl⟩
    · rw [rtake_of_le (by omega)]
    · exact hsize'.trans (List.length_append.trans hsize)
    · show out.length + chunk.1.length = min bashTailBytes (out ++ chunk.1).length
      omega
  · have hbytes : bashTailBytes = 8192 := rfl
    obtain ⟨rest', hmove, hsize'⟩ := @exists_shift (out.rtake bashTailBytes) rest
      (bashTailBytes - chunk.1.length) (by omega)
    rw [hwindow, ← hmem, rtake_rtake (Nat.sub_le _ _)] at hmove
    rw [rtake_rtake (Nat.sub_le _ _), ← hmem, hsize] at hsize'
    have hkept : (out.rtake (bashTailBytes - chunk.1.length)).length =
        bashTailBytes - chunk.1.length := by
      rw [length_rtake]
      omega
    obtain ⟨rest'', hwrite, hsize''⟩ := @exists_writeAt
      (out.rtake (bashTailBytes - chunk.1.length)) rest' chunk.1 (by
        rw [List.length_append] at hsize'
        omega)
    rw [hkept] at hwrite
    rw [if_neg hfits, hmove, Option.bind_some, hwrite, Option.map_some]
    refine ⟨_, rfl, ⟨rest'', ?_, hsize''.trans hsize'⟩, ?_, htotal, rfl⟩
    · rw [rtake_append out (by omega)]
    · show bashTailBytes = min bashTailBytes (out ++ chunk.1).length
      omega

/-- **Whatever the chunks are**, the window has the last bytes of all of them. -/
theorem Holds.steps {st : Capture} {out : List UInt8} (h : Holds st out) (chunks : List Chunk) :
    ∃ st', takeChunks st chunks = some st' ∧
      Holds st' (out ++ (chunks.map Subtype.val).flatten) := by
  induction chunks generalizing st out with
  | nil =>
    refine ⟨st, rfl, ?_⟩
    rwa [List.map_nil, List.flatten_nil, List.append_nil]
  | cons chunk chunks ih =>
    obtain ⟨st', hstep, hholds⟩ := h.step chunk
    obtain ⟨st'', hsteps, hholds'⟩ := ih hholds
    refine ⟨st'', ?_, ?_⟩
    · rw [takeChunks, hstep, Option.bind_some, hsteps]
    · rwa [List.map_cons, List.flatten_cons, ← List.append_assoc]

/-! ## What is shown -/

/-- The output of a run. -/
def outputOf (chunks : List Chunk) : List UInt8 := (chunks.map Subtype.val).flatten

theorem nul_notMem_outputOf (chunks : List Chunk) : 0 ∉ outputOf chunks := by
  intro hmem
  obtain ⟨bytes, hbytes, hnul⟩ := List.mem_flatten.1 hmem
  obtain ⟨chunk, -, rfl⟩ := List.mem_map.1 hbytes
  exact chunk.2.2 hnul

/-- A window is cut behind its first newline. -/
theorem trimTail_cases {st : Capture} {window rest : List UInt8} (hmem : st.tail = window ++ rest)
    (hlen : st.tailLen = window.length) :
    (10 ∉ window ∧ trimTail st = some st) ∨
      ∃ front back rest', window = front ++ 10 :: back ∧ 10 ∉ front ∧
        trimTail st = some { st with tail := back ++ rest', tailLen := back.length } ∧
        (back ++ rest').length = (window ++ rest).length := by
  have htake : st.tail.take st.tailLen = window := by rw [hmem, hlen, List.take_left]
  rw [trimTail, htake]
  by_cases hline : 10 ∈ window
  · obtain ⟨front, back, rfl, hfront⟩ := List.eq_append_cons_of_mem hline
    have hidx : (front ++ 10 :: back).findIdx (fun b => decide (b = 10)) = front.length := by
      have hnone : front.findIdx (fun b => decide (b = 10)) = front.length :=
        List.findIdx_eq_length.2 fun b hb => decide_eq_false fun heq => hfront (heq ▸ hb)
      rw [List.findIdx_append, hnone, if_neg (Nat.lt_irrefl _), List.findIdx_cons]
      exact Nat.zero_add _
    have hlength : (front ++ 10 :: back).length = front.length + 1 + back.length := by
      simp only [List.length_append, List.length_cons]
      omega
    obtain ⟨rest', hmove, hsize⟩ := @exists_shift (front ++ 10 :: back) rest back.length (by omega)
    have hback : (front ++ 10 :: back).rtake back.length = back := by
      rw [List.rtake, hlength, Nat.add_sub_cancel, List.append_cons,
        List.drop_left' (by rw [List.length_append, List.length_singleton])]
    rw [hback] at hmove hsize
    have hkeep : (front ++ 10 :: back).length - (front.length + 1) = back.length := by omega
    have hplace : (front ++ 10 :: back).length - back.length = front.length + 1 := by omega
    rw [hplace] at hmove
    refine Or.inr ⟨front, back, rest', rfl, hfront, ?_, hsize⟩
    rw [hidx, hlen, if_pos (by omega), hkeep]
    dsimp only
    rw [hmem, hmove, Option.map_some]
  · refine Or.inl ⟨hline, ?_⟩
    have hidx : window.findIdx (fun b => decide (b = 10)) = window.length :=
      List.findIdx_eq_length.2 fun b hb => decide_eq_false fun heq => hline (heq ▸ hb)
    rw [hidx, hlen, if_neg (Nat.lt_irrefl _)]

/-- What stands in the window up to its NUL is shown. -/
theorem exists_end {shown rest : List UInt8} (hnul : 0 ∉ shown) (hrest : 0 < rest.length) :
    ∃ mem, writeAt (shown ++ rest) shown.length [0] = some mem ∧ cString mem = shown := by
  obtain ⟨rest', hwrite, -⟩ := @exists_writeAt shown rest [0] hrest
  refine ⟨_, hwrite, ?_⟩
  rw [List.append_assoc, cString_append_of_notMem hnul, List.singleton_append,
    show cString (0 :: rest') = [] from List.takeWhile_cons_of_neg (by decide), List.append_nil]

/-- What is shown of a long output: the last bytes, or what they have behind their first newline. -/
def Tail (out shown : List UInt8) : Prop :=
  (10 ∉ out.rtake bashTailBytes ∧ shown = out.rtake bashTailBytes) ∨
    ∃ front, out.rtake bashTailBytes = front ++ 10 :: shown ∧ 10 ∉ front

/-- The output is shown, or its tail, beside the file. -/
theorem collect_cases (chunks : List Chunk) :
    ((outputOf chunks).length ≤ bashTailBytes ∧
      collect chunks = some (outputOf chunks, none)) ∨
    bashTailBytes < (outputOf chunks).length ∧ ∃ shown,
      collect chunks = some (shown, some (outputOf chunks)) ∧
      Tail (outputOf chunks) shown := by
  obtain ⟨st, hsteps, hholds⟩ := Holds.start.steps chunks
  rw [List.nil_append] at hholds
  have hnul := nul_notMem_outputOf chunks
  change Holds st (outputOf chunks) at hholds
  generalize outputOf chunks = out at hholds hnul
  obtain ⟨rest, hmem, hsize⟩ := hholds.mem
  have hwindow := length_rtake bashTailBytes out
  have hnul' : 0 ∉ out.rtake bashTailBytes := fun h => hnul ((rtake_isSuffix _ _).subset h)
  rw [hmem, List.length_append] at hsize
  rw [← hholds.tailLen] at hwindow
  have hmin := hholds.tailLen
  have hspill := hholds.spill
  rw [collect]
  simp only [Option.bind_eq_bind, hsteps, Option.bind_some]
  by_cases hlong : bashTailBytes < out.length
  · rw [if_pos hlong] at hspill
    refine Or.inr ⟨hlong, ?_⟩
    rw [hspill, Option.isSome_some, if_pos rfl]
    rcases trimTail_cases hmem hwindow.symm with ⟨hline, htrim⟩ | ⟨front, back, rest', hsplit, hfront,
      htrim, hsize'⟩
    · obtain ⟨mem, hwrite, hend⟩ := @exists_end (out.rtake bashTailBytes) rest hnul' (by omega)
      refine ⟨_, ?_, Or.inl ⟨hline, rfl⟩⟩
      rw [htrim, Option.bind_some, hmem, ← hwindow, hwrite, Option.bind_some, hend, hspill]
    · have hback : 0 ∉ back := fun h => hnul' (hsplit ▸ List.mem_append_right _
        (List.mem_cons_of_mem _ h))
      have hrest : 0 < rest'.length := by
        have hlength := congrArg List.length hsplit
        simp only [List.length_append, List.length_cons] at hlength hsize'
        omega
      obtain ⟨mem, hwrite, hend⟩ := @exists_end back rest' hback hrest
      refine ⟨back, ?_, Or.inr ⟨front, hsplit, hfront⟩⟩
      rw [htrim, Option.bind_some, hwrite, Option.bind_some, hend, hspill]
  · rw [if_neg hlong] at hspill
    have hall : out.rtake bashTailBytes = out := rtake_of_le (Nat.le_of_not_lt hlong)
    rw [hall] at hmem hwindow hsize
    refine Or.inl ⟨Nat.le_of_not_lt hlong, ?_⟩
    obtain ⟨mem, hwrite, hend⟩ := @exists_end out rest hnul (by omega)
    rw [hspill, Option.isSome_none, if_neg Bool.false_ne_true, hmem, ← hwindow, hwrite,
      Option.bind_some, hend]

/-! ## Nothing is hidden -/

/-- A line starts at the place `p`. -/
def LineStart (out : List UInt8) (p : Nat) : Prop := p = 0 ∨ out[p - 1]? = some 10

/-- The last bytes contain the start of a line that is not empty. -/
def StartsLine (out : List UInt8) : Prop :=
  ∃ p b, out.length - bashTailBytes ≤ p ∧ LineStart out p ∧ out[p]? = some b ∧ b ≠ 10

/-- Nothing of the output is lost or hidden. -/
structure Shows (out shown : List UInt8) (spill : Option (List UInt8)) : Prop where
  spilled : spill.isSome ↔ bashTailBytes < out.length
  file : ∀ bytes ∈ spill, bytes = out
  short : spill = none → shown = out
  nonempty : spill ≠ none → shown ≠ []
  last : spill ≠ none → shown <:+ out ∧ shown.length ≤ bashTailBytes
  line : spill ≠ none → StartsLine out → LineStart out (out.length - shown.length)

/-- The window has one newline, behind all of its other bytes. -/
def Swallowed (out : List UInt8) : Prop :=
  bashTailBytes < out.length ∧ ∃ front, out.rtake bashTailBytes = front ++ [10] ∧ 10 ∉ front

/-- Behind the last newline nothing is shown. -/
theorem Tail.eq_nil {out shown : List UInt8} (h : Tail out shown) (hswallowed : Swallowed out) :
    shown = [] := by
  obtain ⟨-, front, hfront, hline⟩ := hswallowed
  rcases h with ⟨hnone, -⟩ | ⟨front', hfront', -⟩
  · exact absurd (hfront ▸ List.mem_append_right _ (List.mem_singleton_self 10)) hnone
  · obtain ⟨-, -, hnil⟩ := (List.append_cons_inj_of_notMem hline List.not_mem_nil).1
      (hfront.symm.trans hfront')
    exact hnil.symm

/-- **Nothing of a command's output is lost or hidden** just when the only newline of its last
`BASH_TAIL_BYTES` bytes is not the last of them. -/
theorem collect_shows_iff (chunks : List Chunk) :
    ∃ shown spill, collect chunks = some (shown, spill) ∧
      (Shows (outputOf chunks) shown spill ↔ ¬Swallowed (outputOf chunks)) := by
  rcases collect_cases chunks with ⟨hshort, hcollect⟩ | ⟨hlong, shown, hcollect, hshown⟩
  · refine ⟨_, _, hcollect, iff_of_true ?_ fun hswallowed => ?_⟩
    · refine ⟨?_, nofun, fun _ => rfl, fun h => absurd rfl h, fun h => absurd rfl h,
        fun h => absurd rfl h⟩
      exact iff_of_false (by simp) (Nat.not_lt.2 hshort)
    · exact absurd hswallowed.1 (Nat.not_lt.2 hshort)
  refine ⟨_, _, hcollect, ?_⟩
  generalize outputOf chunks = out at hlong hshown
  have hwindow : (out.rtake bashTailBytes).length = bashTailBytes := by
    rw [length_rtake]
    omega
  constructor
  · intro hshows hswallowed
    exact hshows.nonempty (Option.some_ne_none _) (Tail.eq_nil hshown hswallowed)
  · intro hswallowed
    have hsuffix : shown <:+ out.rtake bashTailBytes := by
      rcases hshown with ⟨-, hall⟩ | ⟨front, hfront, -⟩
      · exact hall ▸ List.suffix_rfl
      · exact ⟨front ++ [10], by rw [hfront, List.append_assoc, List.singleton_append]⟩
    refine ⟨iff_of_true rfl hlong, fun bytes hbytes => (Option.some.inj hbytes).symm, nofun, ?_, ?_, ?_⟩
    · rintro - hnil
      rw [hnil] at hshown
      rcases hshown with ⟨-, hall⟩ | ⟨front, hfront, hline⟩
      · have hbytes : bashTailBytes = 8192 := rfl
        rw [← hall, List.length_nil] at hwindow
        omega
      · exact hswallowed ⟨hlong, front, hfront, hline⟩
    · exact fun _ => ⟨hsuffix.trans (rtake_isSuffix _ _), hsuffix.length_le.trans hwindow.le⟩
    · rintro - ⟨p, b, hp, hstart, hbyte, hne⟩
      rcases hshown with ⟨hnone, hall⟩ | ⟨front, hfront, -⟩
      · -- a start behind the first byte of the window needs a newline in it
        rw [hall, hwindow]
        rcases hp.eq_or_lt with rfl | hlt
        · exact hstart
        · have hget : out[p - 1]? = some 10 := by
            rcases hstart with rfl | hget
            · omega
            · exact hget
          have hplace : out.length - bashTailBytes + (p - 1 - (out.length - bashTailBytes)) = p - 1 := by
            omega
          have hmem : (out.rtake bashTailBytes)[p - 1 - (out.length - bashTailBytes)]? = some 10 := by
            rw [List.rtake, List.getElem?_drop, hplace, hget]
          exact absurd (List.mem_of_getElem? hmem) hnone
      · refine Or.inr ?_
        have hlength := congrArg List.length hfront
        rw [hwindow, List.length_append, List.length_cons] at hlength
        have hmem : (out.rtake bashTailBytes)[front.length]? = some 10 := by
          rw [hfront, List.getElem?_append_right (Nat.le_refl _), Nat.sub_self]
          rfl
        have hplace : out.length - bashTailBytes + front.length = out.length - shown.length - 1 := by
          omega
        rwa [List.rtake, List.getElem?_drop, hplace] at hmem

/-- A long line. -/
def longLine : List Chunk :=
  List.replicate 3 ⟨List.replicate 4096 97, by rw [List.length_replicate]; omega,
    fun hmem => absurd (List.eq_of_mem_replicate hmem) (by decide)⟩ ++ [⟨[10], by decide⟩]

/-- Nothing of a long line is shown. -/
theorem not_shows_longLine : ¬∀ chunks, ∃ shown spill, collect chunks = some (shown, spill) ∧
    Shows (outputOf chunks) shown spill := by
  intro h
  obtain ⟨shown, spill, hcollect, hshows⟩ := h longLine
  have hout : outputOf longLine = List.replicate 12288 97 ++ [10] := by
    rw [outputOf, longLine, List.map_append, List.flatten_append, List.map_replicate,
      List.flatten_replicate_replicate]
    rfl
  have hswallowed : Swallowed (outputOf longLine) := by
    rw [hout]
    refine ⟨by rw [List.length_append, List.length_replicate]; decide, List.replicate 8191 97, ?_, ?_⟩
    · rw [List.rtake, List.length_append, List.length_replicate, List.length_singleton,
        List.drop_append_of_le_length (by rw [List.length_replicate]; decide), List.drop_replicate]
      rfl
    · exact fun hmem => absurd (List.eq_of_mem_replicate hmem) (by decide)
  rcases collect_cases longLine with ⟨hshort, -⟩ | ⟨-, shown', hcollect', htail⟩
  · exact absurd hswallowed.1 (Nat.not_lt.2 hshort)
  · obtain ⟨rfl, rfl⟩ := Prod.mk.inj (Option.some.inj (hcollect.symm.trans hcollect'))
    exact hshows.nonempty (Option.some_ne_none _) (htail.eq_nil hswallowed)

end EchoAi.Bash
