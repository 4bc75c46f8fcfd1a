import EchoAi.Bytes
import EchoAi.Utf8
import Mathlib.Data.List.GetD
import Mathlib.Tactic.Common

/-!
# Texts for the model

What is fetched reaches the model as text.  Bytes that are not UTF-8 are read as Windows-1252 and
written to a buffer of `2 * len + 1` bytes.

* `utf8EncodeCp`, `cp1252Cp`, `utf8Valid`, `strTruncateEllipsisDup`: the helpers.
* `textForLlm`: the text, and the places of the buffer that were written.
* `utf8Valid_iff`: `utf8_valid` accepts just the texts of UTF-8; `utf8_utf8EncodeCp`,
  `utf8_transcodeByte`: what is written is one.
* `within_transcodingBuffer_iff`: all of them lie in the buffer when at least as many bytes are ASCII as
  take three bytes.
-/

namespace EchoAi

/-- `utf8_encode_cp`, empty for what is not a scalar value. -/
def utf8EncodeCp (cp : Nat) : List UInt8 :=
  if cp ≤ 0x7F then [UInt8.ofNat cp]
  else if cp ≤ 0x7FF then
    [UInt8.ofNat (0xC0 ||| cp >>> 6), UInt8.ofNat (0x80 ||| cp &&& 0x3F)]
  else if 0xD800 ≤ cp ∧ cp ≤ 0xDFFF then []
  else if cp ≤ 0xFFFF then
    [UInt8.ofNat (0xE0 ||| cp >>> 12), UInt8.ofNat (0x80 ||| cp >>> 6 &&& 0x3F),
      UInt8.ofNat (0x80 ||| cp &&& 0x3F)]
  else if cp ≤ 0x10FFFF then
    [UInt8.ofNat (0xF0 ||| cp >>> 18), UInt8.ofNat (0x80 ||| cp >>> 12 &&& 0x3F),
      UInt8.ofNat (0x80 ||| cp >>> 6 &&& 0x3F), UInt8.ofNat (0x80 ||| cp &&& 0x3F)]
  else []

/-- The code points of the bytes from 0x80 to 0x9F in Windows-1252. -/
def cp1252Map : List Nat :=
  [0x20AC, 0x0081, 0x201A, 0x0192, 0x201E, 0x2026, 0x2020, 0x2021,
    0x02C6, 0x2030, 0x0160, 0x2039, 0x0152, 0x008D, 0x017D, 0x008F,
    0x0090, 0x2018, 0x2019, 0x201C, 0x201D, 0x2022, 0x2013, 0x2014,
    0x02DC, 0x2122, 0x0161, 0x203A, 0x0153, 0x009D, 0x017E, 0x0178]

/-- `cp1252_cp`. -/
def cp1252Cp (b : UInt8) : Nat :=
  if b < 0x80 then b.toNat
  else if b < 0xA0 then cp1252Map.getD (b.toNat - 0x80) 0
  else b.toNat

/-- How many bytes follow a lead byte, and the range of the first of them. -/
def utf8Lead (c : UInt8) : Option (Nat × UInt8 × UInt8) :=
  if 0xC2 ≤ c ∧ c ≤ 0xDF then some (1, 0x80, 0xBF)
  else if c = 0xE0 then some (2, 0xA0, 0xBF)
  else if 0xE1 ≤ c ∧ c ≤ 0xEC then some (2, 0x80, 0xBF)
  else if c = 0xED then some (2, 0x80, 0x9F)
  else if 0xEE ≤ c ∧ c ≤ 0xEF then some (2, 0x80, 0xBF)
  else if c = 0xF0 then some (3, 0x90, 0xBF)
  else if 0xF1 ≤ c ∧ c ≤ 0xF3 then some (3, 0x80, 0xBF)
  else if c = 0xF4 then some (3, 0x80, 0x8F)
  else none

/-- `utf8_valid`. -/
def utf8Valid (s : List UInt8) : Bool :=
  match s with
  | [] => true
  | c :: rest =>
    if c < 0x80 then utf8Valid rest
    else
      match utf8Lead c with
      | none => false
      | some (need, lo, hi) =>
        decide (need ≤ rest.length) && (rest.take need).all (fun cc => 0x80 ≤ cc && cc ≤ 0xBF) &&
          rest.head?.all (fun fc => lo ≤ fc && fc ≤ hi) && utf8Valid (rest.drop need)
  termination_by s.length
  decreasing_by
    · exact Nat.lt_succ_self rest.length
    · rw [List.length_drop, List.length_cons]
      omega

/-- The text that stands for what is cut off. -/
def omittedMarker (omitted : Nat) : List UInt8 :=
  (ascii ("[... truncated, " ++ toString omitted ++ " chars omitted ...]")).take 63

/-- The cut moves back over the continuation bytes in front of it. -/
def cutBack (text : List UInt8) : Nat → Nat
  | 0 => 0
  | keep + 1 => if text.getD (keep + 1) 0 &&& 0xC0 = 0x80 then cutBack text keep else keep + 1

/-- `str_truncate_ellipsis_dup` of a text, unless the copy cannot be allocated. -/
def strTruncateEllipsisDup (failed : Bool) (text : List UInt8) (maxChars : Nat) :
    Option (List UInt8) :=
  if failed then none
  else if text.length ≤ maxChars then some text
  else
    let marker := omittedMarker (text.length - maxChars)
    if marker.length + 1 < maxChars then
      some (text.take (cutBack text (maxChars - marker.length)) ++ marker)
    else some (text.take (cutBack text maxChars))

/-- A buffer with the places that were written, and what was written to them. -/
structure Transcoded where
  size : Nat
  written : List Nat := []
  bytes : List UInt8 := []
  deriving DecidableEq, Repr

/-- Bytes are written behind what is there. -/
def Transcoded.put (out : List UInt8) (buffer : Transcoded) : Transcoded :=
  { buffer with
    written := buffer.written ++ (List.range out.length).map (buffer.bytes.length + ·)
    bytes := buffer.bytes ++ out }

/-- A byte as UTF-8, read as Windows-1252; U+FFFD where that fails. -/
def transcodeByte (c : UInt8) : List UInt8 :=
  let out := if c < 0x80 then [c] else utf8EncodeCp (cp1252Cp c)
  if out.length = 0 then [0xEF, 0xBF, 0xBD] else out

/-- The buffer behind the loop over the bytes and the final NUL. -/
def transcode (data : List UInt8) : Transcoded :=
  let start : Transcoded := { size := data.length * 2 + 1 }
  let fixed := data.foldl (fun (buffer : Transcoded) c => buffer.put (transcodeByte c)) start
  { fixed with written := fixed.written ++ [fixed.bytes.length] }

/-- Which allocations of `text_for_llm` fail. -/
structure TextFaults where
  copy : Bool := false
  fixed : Bool := false
  result : Bool := false
  deriving DecidableEq, Repr

/-- The buffer in which `text_for_llm` transcodes, when it does. -/
def transcodingBuffer (sizeMax : Nat) (faults : TextFaults) (data : List UInt8) :
    Option Transcoded :=
  if faults.copy || utf8Valid data || faults.fixed || decide (sizeMax / 2 < data.length) then none
  else some (transcode data)

/-- `text_for_llm`. -/
def textForLlm (sizeMax : Nat) (faults : TextFaults) (data : List UInt8) (maxChars : Nat) :
    Option (List UInt8) :=
  if faults.copy then none
  else
    let nul := ((transcodingBuffer sizeMax faults data).map Transcoded.bytes).getD data
    strTruncateEllipsisDup faults.result (cString nul) maxChars

/-! ## Well-formedness -/

/-- The checks of `utf8_valid` behind a lead byte. -/
theorem utf8Char_of_utf8Lead {c : UInt8} {rest : List UInt8} {need : Nat} {lo hi : UInt8}
    (hlead : utf8Lead c = some (need, lo, hi)) (hlength : need ≤ rest.length)
    (htail : ∀ b ∈ rest.take need, Utf8Tail b) (hhead : ∀ b ∈ rest.head?, lo ≤ b ∧ b ≤ hi) :
    Utf8Char (c :: rest.take need) := by
  have hneed : need = 1 ∧ 0xC2 ≤ c ∧ c ≤ 0xDF ∨
      need = 2 ∧ 0xE0 ≤ c ∧ c ≤ 0xEF ∧ (c = 0xE0 → lo = 0xA0) ∧ (c = 0xED → hi = 0x9F) ∨
      need = 3 ∧ 0xF0 ≤ c ∧ c ≤ 0xF4 ∧ (c = 0xF0 → lo = 0x90) ∧ (c = 0xF4 → hi = 0x8F) := by
    rw [utf8Lead] at hlead
    split_ifs at hlead <;> grind
  rcases hneed with ⟨rfl, hlo, hhi⟩ | ⟨rfl, hlo, hhi, hfirst, hlast⟩ | ⟨rfl, hlo, hhi, hfirst, hlast⟩
  · match rest, hlength with
    | b :: rest, _ => exact Utf8Char.two hlo hhi (htail b List.mem_cons_self)
  · match rest, hlength with
    | b :: b' :: rest, _ =>
      obtain ⟨hb, hb', -⟩ : Utf8Tail b ∧ Utf8Tail b' ∧ True := by simpa using htail
      obtain ⟨hge, hle⟩ := hhead b rfl
      exact Utf8Char.three hlo hhi (fun h => hfirst h ▸ hge) (fun h => hlast h ▸ hle) hb hb'
  · match rest, hlength with
    | b :: b' :: b'' :: rest, _ =>
      obtain ⟨hb, hb', hb''⟩ : Utf8Tail b ∧ Utf8Tail b' ∧ Utf8Tail b'' := by simpa using htail
      obtain ⟨hge, hle⟩ := hhead b rfl
      exact Utf8Char.four hlo hhi (fun h => hfirst h ▸ hge) (fun h => hlast h ▸ hle) hb hb' hb''

/-- A character passes the checks of `utf8_valid`. -/
theorem exists_utf8Lead {a b : UInt8} {tail : List UInt8} (hc : Utf8Char (a :: b :: tail)) :
    ¬a < 0x80 ∧ ∃ lo hi, utf8Lead a = some (tail.length + 1, lo, hi) ∧ lo ≤ b ∧ b ≤ hi := by
  cases hc with
  | two hlo hhi hb => exact ⟨by grind, 0x80, 0xBF, by grind [utf8Lead], hb⟩
  | three hlo hhi hfirst hlast hb hc =>
    refine ⟨by grind, ?_⟩
    rw [utf8Lead]
    split_ifs <;> grind [Utf8Tail]
  | four hlo hhi hfirst hlast hb hc hd =>
    refine ⟨by grind, ?_⟩
    rw [utf8Lead]
    split_ifs <;> grind [Utf8Tail]

/-- `utf8_valid` accepts a character and then a text. -/
theorem utf8Valid_append {cs rest : List UInt8} (hc : Utf8Char cs) (hrest : utf8Valid rest = true) :
    utf8Valid (cs ++ rest) = true := by
  obtain ⟨a, tail, rfl, -, hwidth, htail⟩ := hc.exists_cons
  rw [List.cons_append, utf8Valid]
  cases tail with
  | nil =>
    cases hc with
    | one ha => rw [if_pos ha, List.nil_append, hrest]
  | cons b tail =>
    obtain ⟨hascii, lo, hi, hlead, hlo, hhi⟩ := exists_utf8Lead hc
    have htake : (b :: tail ++ rest).take (tail.length + 1) = b :: tail := by
      rw [List.cons_append, List.take_succ_cons, List.take_left]
    have hdrop : (b :: tail ++ rest).drop (tail.length + 1) = rest := by
      rw [List.cons_append, List.drop_succ_cons, List.drop_left]
    have hlength : tail.length + 1 ≤ (b :: tail ++ rest).length := by
      rw [List.length_append, List.length_cons]
      omega
    rw [if_neg hascii, hlead]
    simp only [htake, hdrop, hrest, hlength, decide_true, Bool.true_and, Bool.and_true,
      Bool.and_eq_true, List.all_eq_true, decide_eq_true_eq]
    refine ⟨fun c hmem => htail c hmem, ?_⟩
    simp [hlo, hhi]

/-- `utf8_valid` accepts just the texts. -/
theorem utf8Valid_iff {s : List UInt8} : utf8Valid s = true ↔ Utf8 s := by
  constructor
  · intro h
    induction s using utf8Valid.induct with
    | case1 => exact Utf8.nil
    | case2 c rest hascii ih =>
      rw [utf8Valid, if_pos hascii] at h
      exact (utf8_singleton hascii).append (ih h)
    | case3 c rest hascii hnone =>
      rw [utf8Valid, if_neg hascii, hnone] at h
      exact absurd h Bool.false_ne_true
    | case4 c rest hascii need lo hi hlead ih =>
      rw [utf8Valid, if_neg hascii, hlead] at h
      simp only [Bool.and_eq_true, decide_eq_true_eq, List.all_eq_true, Option.all_eq_true] at h
      obtain ⟨⟨⟨hlength, htail⟩, hhead⟩, hrest⟩ := h
      have hchar := utf8Char_of_utf8Lead hlead hlength htail hhead
      have hsplit := Utf8.cons hchar (ih hrest)
      rwa [List.cons_append, List.take_append_drop] at hsplit
  · intro h
    induction h with
    | nil => rw [utf8Valid]
    | cons hc _ ih => exact utf8Valid_append hc ih

/-- A byte of six bits of a code point. -/
theorem utf8Tail_ofNat (k : Nat) : Utf8Tail (UInt8.ofNat (0x80 ||| k &&& 0x3F)) := by
  have hall : ∀ k < 64, Utf8Tail (UInt8.ofNat (0x80 ||| k)) := by decide
  exact hall _ (Nat.lt_of_le_of_lt Nat.and_le_right (by decide))

/-- What `utf8_encode_cp` writes is a text. -/
theorem utf8_utf8EncodeCp (cp : Nat) : Utf8 (utf8EncodeCp cp) := by
  rw [utf8EncodeCp]
  split
  · next h =>
    have hascii : ∀ cp < 128, UInt8.ofNat cp < 0x80 := by decide
    exact utf8_singleton (hascii cp (by omega))
  split
  · next hone htwo =>
    have hlead : ∀ k < 32, 2 ≤ k →
        0xC2 ≤ UInt8.ofNat (0xC0 ||| k) ∧ UInt8.ofNat (0xC0 ||| k) ≤ 0xDF := by decide
    have hk : cp >>> 6 = cp / 64 := Nat.shiftRight_eq_div_pow cp 6
    obtain ⟨hlo, hhi⟩ := hlead (cp >>> 6) (by omega) (by omega)
    exact (Utf8Char.two hlo hhi (utf8Tail_ofNat cp)).utf8
  split
  · exact Utf8.nil
  next hone htwo hscalar =>
  have hmiddle : cp >>> 6 &&& 0x3F = cp / 64 % 64 := by
    rw [Nat.shiftRight_eq_div_pow, show (0x3F : Nat) = 2 ^ 6 - 1 from rfl,
      Nat.and_two_pow_sub_one_eq_mod]
  have hhigh : ∀ j < 64, 32 ≤ j → 0xA0 ≤ UInt8.ofNat (0x80 ||| j) := by decide
  have hlow : ∀ j < 64, j < 32 → UInt8.ofNat (0x80 ||| j) ≤ 0x9F := by decide
  split
  · next hthree =>
    have hlead : ∀ k < 16, 0xE0 ≤ UInt8.ofNat (0xE0 ||| k) ∧ UInt8.ofNat (0xE0 ||| k) ≤ 0xEF ∧
        (UInt8.ofNat (0xE0 ||| k) = 0xE0 → k = 0) ∧ (UInt8.ofNat (0xE0 ||| k) = 0xED → k = 13) := by
      decide
    have hk : cp >>> 12 = cp / 4096 := Nat.shiftRight_eq_div_pow cp 12
    obtain ⟨hlo, hhi, hfirst, hlast⟩ := hlead (cp >>> 12) (by omega)
    refine (Utf8Char.three hlo hhi (fun h => ?_) (fun h => ?_) (utf8Tail_ofNat _)
      (utf8Tail_ofNat _)).utf8
    · have hzero := hfirst h
      rw [hmiddle]
      exact hhigh _ (by omega) (by omega)
    · have hthirteen := hlast h
      rw [hmiddle]
      exact hlow _ (by omega) (by omega)
  split
  · next hthree hfour =>
    have hlead : ∀ k < 5, 0xF0 ≤ UInt8.ofNat (0xF0 ||| k) ∧ UInt8.ofNat (0xF0 ||| k) ≤ 0xF4 ∧
        (UInt8.ofNat (0xF0 ||| k) = 0xF0 → k = 0) ∧ (UInt8.ofNat (0xF0 ||| k) = 0xF4 → k = 4) := by
      decide
    have hk : cp >>> 18 = cp / 262144 := Nat.shiftRight_eq_div_pow cp 18
    have hnext : cp >>> 12 &&& 0x3F = cp / 4096 % 64 := by
      rw [Nat.shiftRight_eq_div_pow, show (0x3F : Nat) = 2 ^ 6 - 1 from rfl,
        Nat.and_two_pow_sub_one_eq_mod]
    have hninety : ∀ j < 64, 16 ≤ j → 0x90 ≤ UInt8.ofNat (0x80 ||| j) := by decide
    have heighty : ∀ j < 64, j < 16 → UInt8.ofNat (0x80 ||| j) ≤ 0x8F := by decide
    obtain ⟨hlo, hhi, hfirst, hlast⟩ := hlead (cp >>> 18) (by omega)
    refine (Utf8Char.four hlo hhi (fun h => ?_) (fun h => ?_) (utf8Tail_ofNat _) (utf8Tail_ofNat _)
      (utf8Tail_ofNat _)).utf8
    · have hzero := hfirst h
      rw [hnext]
      exact hninety _ (by omega) (by omega)
    · have hfour := hlast h
      rw [hnext]
      exact heighty _ (by omega) (by omega)
  · exact Utf8.nil

/-- Any byte becomes a text. -/
theorem utf8_transcodeByte (c : UInt8) : Utf8 (transcodeByte c) := by
  have hout : Utf8 (if c < 0x80 then [c] else utf8EncodeCp (cp1252Cp c)) := by
    split
    · next h => exact utf8_singleton h
    · exact utf8_utf8EncodeCp _
  unfold transcodeByte
  generalize (if c < 0x80 then [c] else utf8EncodeCp (cp1252Cp c)) = out at hout
  dsimp only
  split
  · have hreplacement : Utf8Char [0xEF, 0xBF, 0xBD] :=
      Utf8Char.three (by decide) (by decide) (by decide) (by decide) (by decide) (by decide)
    exact hreplacement.utf8
  · exact hout

/-! ## The places written -/

/-- A byte whose code point takes three bytes in UTF-8. -/
def wideByte (c : UInt8) : Bool := decide (0x7FF < cp1252Cp c)

/-- An ASCII byte. -/
def asciiByte (c : UInt8) : Bool := decide (c < 0x80)

/-- The table holds no surrogates and nothing above the basic plane. -/
theorem cp1252Map_bounds : ∀ cp ∈ cp1252Map, 0x80 ≤ cp ∧ cp ≤ 0x2122 := by decide

theorem cp1252Cp_bounds {c : UInt8} (h : ¬c < 0x80) :
    0x80 ≤ cp1252Cp c ∧ cp1252Cp c ≤ 0x2122 := by
  have hlow : 0x80 ≤ c.toNat := Nat.le_of_not_lt fun hlt => h (UInt8.lt_iff_toNat_lt.mpr hlt)
  have htop : c.toNat < 256 := c.toNat_lt
  rw [cp1252Cp, if_neg h]
  split
  · next hmapped =>
    have hindex : c.toNat - 0x80 < cp1252Map.length := by
      have hlt : c.toNat < 0xA0 := UInt8.lt_iff_toNat_lt.mp hmapped
      show c.toNat - 0x80 < 32
      omega
    rw [List.getD_eq_getElem _ _ hindex]
    exact cp1252Map_bounds _ (List.getElem_mem hindex)
  · omega

/-- Between ASCII and the surrogates a code point takes two bytes or three. -/
theorem length_utf8EncodeCp {cp : Nat} (hlow : 0x80 ≤ cp) (htop : cp ≤ 0x2122) :
    (utf8EncodeCp cp).length = 2 + if 0x7FF < cp then 1 else 0 := by
  have hascii : ¬cp ≤ 0x7F := by omega
  rw [utf8EncodeCp, if_neg hascii]
  split
  · next htwo => rw [if_neg (by omega)]; rfl
  · next hthree =>
    have hscalar : ¬(0xD800 ≤ cp ∧ cp ≤ 0xDFFF) := by omega
    have hplane : cp ≤ 0xFFFF := by omega
    rw [if_neg hscalar, if_pos hplane, if_pos (by omega)]
    rfl

/-- An ASCII byte stays one byte, a wide one takes three, any other one two. -/
theorem length_transcodeByte (c : UInt8) :
    (transcodeByte c).length + (if asciiByte c then 1 else 0) =
      2 + if wideByte c then 1 else 0 := by
  unfold transcodeByte asciiByte wideByte
  by_cases h : c < 0x80
  · have hnarrow : ¬0x7FF < cp1252Cp c := by
      have hlt : c.toNat < 0x80 := UInt8.lt_iff_toNat_lt.mp h
      rw [cp1252Cp, if_pos h]
      omega
    simp [h, hnarrow]
  · obtain ⟨hlow, htop⟩ := cp1252Cp_bounds h
    have hlength := length_utf8EncodeCp hlow htop
    have hsome : (utf8EncodeCp (cp1252Cp c)).length ≠ 0 := by omega
    simp only [h, if_false, hsome, decide_false, Bool.false_eq_true, decide_eq_true_eq]
    omega

/-- What the loop has written. -/
theorem length_transcode_foldl (data : List UInt8) (buffer : Transcoded)
    (hbuffer : buffer.written = List.range buffer.bytes.length) :
    let fixed := data.foldl (fun (buffer : Transcoded) c => buffer.put (transcodeByte c)) buffer
    fixed.size = buffer.size ∧ fixed.written = List.range fixed.bytes.length ∧
      fixed.bytes.length + data.countP asciiByte =
        buffer.bytes.length + 2 * data.length + data.countP wideByte := by
  induction data generalizing buffer with
  | nil => exact ⟨rfl, hbuffer, rfl⟩
  | cons c data ih =>
    have hput : (buffer.put (transcodeByte c)).written =
        List.range (buffer.put (transcodeByte c)).bytes.length := by
      show buffer.written ++ (List.range (transcodeByte c).length).map (buffer.bytes.length + ·) = _
      rw [hbuffer, ← List.range_add]
      exact congrArg List.range List.length_append.symm
    obtain ⟨hsize, hwritten, hlength⟩ := ih (buffer.put (transcodeByte c)) hput
    refine ⟨hsize, hwritten, ?_⟩
    have hone : (buffer.put (transcodeByte c)).bytes.length =
        buffer.bytes.length + (transcodeByte c).length := List.length_append
    have hbyte := length_transcodeByte c
    rw [List.foldl_cons, List.countP_cons, List.countP_cons, List.length_cons]
    omega

/-- All places written lie in the buffer. -/
def Transcoded.Within (buffer : Transcoded) : Prop := ∀ i ∈ buffer.written, i < buffer.size

/-- **The transcoding buffer.**  Everything is written inside it exactly when no more bytes take three
bytes in UTF-8 than there are ASCII bytes. -/
theorem within_transcodingBuffer_iff {sizeMax : Nat} {faults : TextFaults} {data : List UInt8}
    {buffer : Transcoded} (h : transcodingBuffer sizeMax faults data = some buffer) :
    buffer.Within ↔ data.countP wideByte ≤ data.countP asciiByte := by
  rw [transcodingBuffer, Option.ite_none_left_eq_some] at h
  obtain ⟨-, h⟩ := h
  obtain rfl := Option.some.inj h
  obtain ⟨hsize, hwritten, hlength⟩ :=
    length_transcode_foldl data { size := data.length * 2 + 1 } rfl
  unfold Transcoded.Within transcode
  dsimp only at hsize hwritten hlength ⊢
  generalize data.foldl (fun (buffer : Transcoded) c => buffer.put (transcodeByte c))
    { size := data.length * 2 + 1 } = fixed at hsize hwritten hlength ⊢
  rw [hsize, hwritten, ← List.range_succ]
  constructor
  · intro hwithin
    have hnul := hwithin fixed.bytes.length (List.mem_range.mpr (Nat.lt_succ_self _))
    rw [List.length_nil] at hlength
    omega
  · intro hcount i hi
    have hi' := List.mem_range.mp hi
    rw [List.length_nil] at hlength
    omega

/-- A word in Latin-1. -/
theorem within_transcodingBuffer_latin : ∃ buffer,
    transcodingBuffer (2 ^ 64 - 1) {} (ascii "caf" ++ [0xE9]) = some buffer ∧ buffer.Within := by
  have hinvalid : utf8Valid (ascii "caf" ++ [0xE9]) = false := by
    simp [ascii, utf8Valid, utf8Lead]
  have hbuffer : transcodingBuffer (2 ^ 64 - 1) {} (ascii "caf" ++ [0xE9]) =
      some (transcode (ascii "caf" ++ [0xE9])) := by
    rw [transcodingBuffer, hinvalid]
    rfl
  exact ⟨_, hbuffer, (within_transcodingBuffer_iff hbuffer).mpr (by decide)⟩

/-- The euro sign alone: three bytes and the NUL in a buffer of three. -/
theorem not_within_transcodingBuffer : ¬ ∀ (sizeMax : Nat) (faults : TextFaults)
    (data : List UInt8) (buffer : Transcoded),
      transcodingBuffer sizeMax faults data = some buffer → buffer.Within := by
  intro h
  have hinvalid : utf8Valid [0x80] = false := by simp [utf8Valid, utf8Lead]
  have hbuffer : transcodingBuffer (2 ^ 64 - 1) {} [0x80] = some (transcode [0x80]) := by
    rw [transcodingBuffer, hinvalid]
    rfl
  have hlast := h _ _ _ _ hbuffer 3 (by decide)
  exact absurd hlast (by decide)

end EchoAi
