import EchoAi.Memory
import EchoAi.Utils.HtmlAssembly

/-!
# Truncation on a memory

* `strTruncateEllipsisDupIn`: `str_truncate_ellipsis_dup`, with every access to the text and to the
  block that is allocated.  An access outside of them has no result.
* `omittedMarker_eq`: the marker fits its buffer.
* `strTruncateEllipsisDupIn_eq`: no access is outside, and the block holds what
  `strTruncateEllipsisDup` says.
* `truncation_bounded`: the laws of what is returned.
-/

namespace EchoAi

/-- `malloc`: a block of the size that is asked for, whatever it holds. -/
structure Malloc where
  block : Nat → Option (List UInt8)
  length_of_block : ∀ {size mem}, block size = some mem → mem.length = size

/-- The first bytes of a memory, absent when it has fewer. -/
def readIn (mem : List UInt8) (n : Nat) : Option (List UInt8) :=
  if n ≤ mem.length then some (mem.take n) else none

/-- `strlen`, absent when there is no NUL. -/
def strlenIn (mem : List UInt8) : Option Nat := mem.findIdx? (· == 0)

/-- `str_dup`. -/
def strDupIn (malloc : Malloc) (mem : List UInt8) : Option (Option (List UInt8)) :=
  (strlenIn mem).bind fun len =>
    match malloc.block (len + 1) with
    | none => some none
    | some copy => (readIn mem (len + 1)).bind fun bytes => (writeAt copy 0 bytes).map some

/-- The loop over the continuation bytes in front of the cut. -/
def cutBackIn (mem : List UInt8) : Nat → Option Nat
  | 0 => some 0
  | keep + 1 =>
    mem[keep + 1]?.bind fun b => if b &&& 0xC0 = 0x80 then cutBackIn mem keep else some (keep + 1)

/-- The bytes of the text, `mlen` bytes of the marker and a NUL are written to a new block. -/
def joinIn (malloc : Malloc) (mem marker : List UInt8) (keep mlen : Nat) :
    Option (Option (List UInt8)) :=
  match malloc.block (keep + mlen + 1) with
  | none => some none
  | some out =>
    (readIn mem keep).bind fun bytes => (writeAt out 0 bytes).bind fun out =>
      (if mlen = 0 then some out else writeAt out keep (marker.take mlen)).bind fun out =>
        (writeAt out (keep + mlen) [0]).map some

/-- `str_truncate_ellipsis_dup`: the block that is returned, or `NULL`. -/
def strTruncateEllipsisDupIn (malloc : Malloc) (mem : List UInt8) (maxChars : Nat) :
    Option (Option (List UInt8)) :=
  (strlenIn mem).bind fun len =>
    if len ≤ maxChars then strDupIn malloc mem
    else
      let marker := omittedMarker (len - maxChars)
      if marker.length + 1 < maxChars then
        (cutBackIn mem (maxChars - marker.length)).bind fun keep =>
          joinIn malloc mem marker keep marker.length
      else (cutBackIn mem maxChars).bind fun keep => joinIn malloc mem marker keep 0

/-! ## The marker -/

/-- The number of a `size_t` has at most twenty digits, so the marker is never cut. -/
theorem omittedMarker_eq {omitted : Nat} (h : omitted < 2 ^ 64) :
    omittedMarker omitted = ascii ("[... truncated, " ++ toString omitted ++ " chars omitted ...]") := by
  have hdigits : (toString omitted).length ≤ 20 :=
    (Nat.length_repr_le_iff (by decide)).mpr (Nat.lt_trans h (by decide))
  refine List.take_of_length_le ?_
  rw [ascii, List.length_map, String.length_toList, String.length_append, String.length_append]
  have hfront : "[... truncated, ".length = 16 := by decide +kernel
  have hback : " chars omitted ...]".length = 19 := by decide +kernel
  omega

theorem utf8_omittedMarker (omitted : Nat) : Utf8 (omittedMarker omitted) :=
  utf8_of_ascii fun c hc =>
    @forall_mem_ascii_number (· < 0x80) _ _ _ (forall_mem_ascii (by decide))
      (forall_mem_ascii (by decide)) (by grind) c (List.mem_of_mem_take hc)

theorem notMem_omittedMarker (omitted : Nat) : 0 ∉ omittedMarker omitted := fun h =>
  @forall_mem_ascii_number (· ≠ 0) _ _ _ (forall_mem_ascii (by decide))
    (forall_mem_ascii (by decide)) (by grind) 0 (List.mem_of_mem_take h) rfl

/-! ## The accesses -/

section Accesses

variable {text rest : List UInt8}

theorem strlenIn_eq (h : 0 ∉ text) : strlenIn (text ++ 0 :: rest) = some text.length := by
  refine List.findIdx?_eq_some_iff_getElem.mpr ⟨?_, ?_, fun i hi => ?_⟩
  · rw [List.length_append, List.length_cons]
    omega
  · simp
  · rw [List.getElem_append_left hi]
    have hmem := List.getElem_mem hi
    simp only [Bool.not_eq_true, beq_eq_false_iff_ne]
    exact fun hzero => h (hzero ▸ hmem)

/-- The first byte that is looked at lies in the text, or it is the NUL behind it. -/
theorem cutBackIn_eq {keep : Nat} (h : keep ≤ text.length) :
    cutBackIn (text ++ 0 :: rest) keep = some (cutBack text keep) := by
  induction keep with
  | zero => rfl
  | succ keep ih =>
    have hget : (text ++ 0 :: rest)[keep + 1]? = some (text.getD (keep + 1) 0) := by
      rcases Nat.lt_or_eq_of_le h with hlt | heq
      · rw [List.getElem?_append_left hlt, List.getD_eq_getElem _ _ hlt, List.getElem?_eq_getElem hlt]
      · rw [heq, List.getElem?_append_right (Nat.le_refl _), Nat.sub_self, List.getElem?_cons_zero,
          List.getD_eq_default _ _ (Nat.le_refl _)]
    rw [cutBackIn, cutBack, hget, Option.bind_some]
    split
    · exact ih (Nat.le_of_succ_le h)
    · rfl

theorem readIn_eq {keep : Nat} (h : keep ≤ text.length) :
    readIn (text ++ 0 :: rest) keep = some (text.take keep) := by
  rw [readIn, List.length_append, if_pos (by omega), List.take_append_of_le_length h]

/-- What is written right behind the part of a block that is in use. -/
theorem writeAt_behind {front old bytes : List UInt8} (h : bytes.length ≤ old.length) :
    writeAt (front ++ old) front.length bytes = some (front ++ bytes ++ old.drop bytes.length) := by
  have hwrite := @writeAt_append front (old.take bytes.length) (old.drop bytes.length) bytes
    (List.length_take_of_le h)
  rwa [List.append_assoc, List.take_append_drop] at hwrite

/-- The block is filled with the bytes of the text, those of the marker and the NUL. -/
theorem joinIn_eq (malloc : Malloc) {marker : List UInt8} {keep mlen : Nat}
    (hkeep : keep ≤ text.length) (hmarker : mlen ≤ marker.length) :
    joinIn malloc (text ++ 0 :: rest) marker keep mlen =
      some ((malloc.block (keep + mlen + 1)).map fun _ =>
        text.take keep ++ marker.take mlen ++ [0]) := by
  rw [joinIn]
  cases hblock : malloc.block (keep + mlen + 1) with
  | none => rfl
  | some out =>
    have hout : out.length = keep + mlen + 1 := malloc.length_of_block hblock
    have htext : (text.take keep).length = keep := List.length_take_of_le hkeep
    have hmlen : (marker.take mlen).length = mlen := List.length_take_of_le hmarker
    have hfirst : writeAt out 0 (text.take keep) = some (text.take keep ++ out.drop keep) := by
      have hwrite := @writeAt_behind [] out (text.take keep) (by omega)
      rwa [htext] at hwrite
    have hsecond : (if mlen = 0 then some (text.take keep ++ out.drop keep)
        else writeAt (text.take keep ++ out.drop keep) keep (marker.take mlen)) =
          some (text.take keep ++ marker.take mlen ++ out.drop (keep + mlen)) := by
      split
      · next hzero => rw [hzero, List.take_zero, List.append_nil, Nat.add_zero]
      · have hwrite := @writeAt_behind (text.take keep) (out.drop keep) (marker.take mlen) (by
          rw [hmlen, List.length_drop]
          omega)
        rwa [htext, hmlen, List.drop_drop] at hwrite
    have hthird : writeAt (text.take keep ++ marker.take mlen ++ out.drop (keep + mlen)) (keep + mlen)
        [0] = some (text.take keep ++ marker.take mlen ++ [0]) := by
      have hwrite := @writeAt_behind (text.take keep ++ marker.take mlen) (out.drop (keep + mlen)) [0]
        (by
          rw [List.length_drop, List.length_singleton]
          omega)
      have hall : out.drop (keep + mlen + 1) = [] := List.drop_eq_nil_of_le (Nat.le_of_eq hout)
      rwa [List.length_append, htext, hmlen, List.length_singleton, List.drop_drop, hall,
        List.append_nil] at hwrite
    dsimp only
    rw [readIn_eq hkeep, Option.bind_some, hfirst, Option.bind_some, hsecond, Option.bind_some, hthird]
    rfl

theorem strDupIn_eq (malloc : Malloc) (h : 0 ∉ text) :
    strDupIn malloc (text ++ 0 :: rest) =
      some ((malloc.block (text.length + 1)).map fun _ => text ++ [0]) := by
  rw [strDupIn, strlenIn_eq h, Option.bind_some]
  cases hblock : malloc.block (text.length + 1) with
  | none => rfl
  | some copy =>
    have hcopy : copy.length = text.length + 1 := malloc.length_of_block hblock
    have hsplit : text ++ 0 :: rest = text ++ [0] ++ rest := by
      rw [List.append_assoc, List.singleton_append]
    have hlength : (text ++ [0]).length = text.length + 1 := List.length_append
    have hread : readIn (text ++ 0 :: rest) (text.length + 1) = some (text ++ [0]) := by
      rw [readIn, hsplit, List.length_append, hlength, if_pos (Nat.le_add_right _ _), ← hlength,
        List.take_left]
    have hwrite := @writeAt_behind [] copy (text ++ [0]) (by omega)
    have hall : copy.drop (text ++ [0]).length = [] := List.drop_eq_nil_of_le (by omega)
    rw [hall, List.append_nil] at hwrite
    dsimp only
    rw [hread, Option.bind_some]
    exact congrArg (Option.map some) hwrite

/-- **No access is outside** of the text with its NUL, whatever stands behind it, or of the block: and
this is filled with the text that is returned and a NUL. -/
theorem strTruncateEllipsisDupIn_eq (malloc : Malloc) (h : 0 ∉ text) (maxChars : Nat) :
    ∃ out, strTruncateEllipsisDup false text maxChars = some out ∧
      strTruncateEllipsisDupIn malloc (text ++ 0 :: rest) maxChars =
        some ((malloc.block (out.length + 1)).map fun _ => out ++ [0]) := by
  rw [strTruncateEllipsisDupIn, strlenIn_eq h, Option.bind_some, strTruncateEllipsisDup,
    if_neg Bool.false_ne_true]
  by_cases hle : text.length ≤ maxChars
  · rw [if_pos hle, if_pos hle]
    exact ⟨text, rfl, strDupIn_eq malloc h⟩
  rw [if_neg hle, if_neg hle]
  generalize omittedMarker (text.length - maxChars) = marker
  dsimp only
  split
  · have hkeep : maxChars - marker.length ≤ text.length := by omega
    refine ⟨_, rfl, ?_⟩
    have hcut : cutBack text (maxChars - marker.length) ≤ text.length :=
      Nat.le_trans (Html.cutBack_le _ _) hkeep
    rw [cutBackIn_eq hkeep, Option.bind_some, joinIn_eq malloc hcut (Nat.le_refl _),
      List.take_length, List.length_append, List.length_take_of_le hcut]
  · have hkeep : maxChars ≤ text.length := by omega
    refine ⟨_, rfl, ?_⟩
    have hcut : cutBack text maxChars ≤ text.length := Nat.le_trans (Html.cutBack_le _ _) hkeep
    rw [cutBackIn_eq hkeep, Option.bind_some, joinIn_eq malloc hcut (Nat.zero_le _), List.take_zero,
      List.append_nil, List.length_take_of_le hcut, Nat.add_zero]

end Accesses

/-! ## What is returned -/

section Returned

variable {text out : List UInt8} {maxChars : Nat}

/-- A text that fits is returned as it is; of any other one a part, with the marker or without. -/
theorem strTruncateEllipsisDup_cases (h : strTruncateEllipsisDup false text maxChars = some out) :
    text.length ≤ maxChars ∧ out = text ∨
      maxChars < text.length ∧ ∃ keep marker, out = text.take (cutBack text keep) ++ marker ∧
        keep + marker.length ≤ maxChars ∧
        (marker = [] ∨ marker = omittedMarker (text.length - maxChars)) := by
  rw [strTruncateEllipsisDup, if_neg Bool.false_ne_true] at h
  split at h
  · next hle => exact Or.inl ⟨hle, (Option.some.inj h).symm⟩
  next hlong =>
  refine Or.inr ⟨Nat.not_le.mp hlong, ?_⟩
  dsimp only at h
  split at h
  · exact ⟨_, _, (Option.some.inj h).symm, by omega, Or.inr rfl⟩
  · refine ⟨maxChars, [], ?_, Nat.le_refl _, Or.inl rfl⟩
    rw [List.append_nil]
    exact (Option.some.inj h).symm

theorem length_strTruncateEllipsisDup_le (h : strTruncateEllipsisDup false text maxChars = some out) :
    out.length ≤ maxChars := by
  rcases strTruncateEllipsisDup_cases h with ⟨hle, rfl⟩ | ⟨-, keep, marker, rfl, hroom, -⟩
  · exact hle
  · have hcut := Html.cutBack_le text keep
    have htake := List.length_take_le (cutBack text keep) text
    rw [List.length_append]
    omega

theorem utf8_strTruncateEllipsisDup (htext : Utf8 text)
    (h : strTruncateEllipsisDup false text maxChars = some out) : Utf8 out := by
  rcases strTruncateEllipsisDup_cases h with ⟨-, rfl⟩ | ⟨-, keep, marker, rfl, -, hmarker⟩
  · exact htext
  refine (Html.utf8_take_cutBack htext keep).append ?_
  rcases hmarker with rfl | rfl
  · exact Utf8.nil
  · exact utf8_omittedMarker _

theorem notMem_strTruncateEllipsisDup (hnul : 0 ∉ text)
    (h : strTruncateEllipsisDup false text maxChars = some out) : 0 ∉ out := by
  rcases strTruncateEllipsisDup_cases h with ⟨-, rfl⟩ | ⟨-, keep, marker, rfl, -, hmarker⟩
  · exact hnul
  rw [List.mem_append, not_or]
  refine ⟨fun hmem => hnul (List.mem_of_mem_take hmem), ?_⟩
  rcases hmarker with rfl | rfl
  · exact List.not_mem_nil
  · exact notMem_omittedMarker _

/-- A text that is cut is longer than what is returned. -/
theorem strTruncateEllipsisDup_eq_iff (h : strTruncateEllipsisDup false text maxChars = some out) :
    out = text ↔ text.length ≤ maxChars := by
  constructor
  · rintro rfl
    exact length_strTruncateEllipsisDup_le h
  · intro hle
    rcases strTruncateEllipsisDup_cases h with ⟨-, rfl⟩ | ⟨hlong, -⟩
    · rfl
    · omega

theorem exists_front_strTruncateEllipsisDup
    (h : strTruncateEllipsisDup false text maxChars = some out) (hlong : maxChars < text.length) :
    ∃ front, front <+: text ∧
      (out = front ∨ out = front ++ omittedMarker (text.length - maxChars)) := by
  rcases strTruncateEllipsisDup_cases h with ⟨hle, -⟩ | ⟨-, keep, marker, rfl, -, hmarker⟩
  · omega
  refine ⟨text.take (cutBack text keep), List.take_prefix _ _, ?_⟩
  rcases hmarker with rfl | rfl
  · exact Or.inl (List.append_nil _)
  · exact Or.inr rfl

end Returned

/-- **Truncation is bounded and safe.**  Of a text with a NUL behind it nothing else is read; the block
is as long as the part of the text, the marker and a NUL, and holds just them.  What is returned is a text of at most
`maxChars` bytes, the same one when that fits, and otherwise the front of it, with the marker or
without. -/
theorem truncation_bounded (malloc : Malloc) {text : List UInt8} (htext : Utf8 text)
    (hnul : 0 ∉ text) (rest : List UInt8) (maxChars : Nat) :
    ∃ out, strTruncateEllipsisDupIn malloc (text ++ 0 :: rest) maxChars =
        some ((malloc.block (out.length + 1)).map fun _ => out ++ [0]) ∧
      0 ∉ out ∧ out.length ≤ maxChars ∧ Utf8 out ∧ (out = text ↔ text.length ≤ maxChars) ∧
      (maxChars < text.length → ∃ front, front <+: text ∧
        (out = front ∨ out = front ++ omittedMarker (text.length - maxChars))) := by
  obtain ⟨out, hout, hblock⟩ := @strTruncateEllipsisDupIn_eq text rest malloc hnul maxChars
  exact ⟨out, hblock, notMem_strTruncateEllipsisDup hnul hout, length_strTruncateEllipsisDup_le hout,
    utf8_strTruncateEllipsisDup htext hout, strTruncateEllipsisDup_eq_iff hout,
    exists_front_strTruncateEllipsisDup hout⟩

/-- `malloc` with zeroed blocks. -/
def zeroedMalloc : Malloc where
  block size := some (List.replicate size 0)
  length_of_block h := Option.some.inj h ▸ List.length_replicate

/-- Two characters of two bytes, and room for three bytes. -/
theorem truncation_bounded_two : ∃ out,
    strTruncateEllipsisDupIn zeroedMalloc [0xC3, 0xA9, 0xC3, 0xA9, 0] 3 = some (some (out ++ [0])) ∧
      out.length ≤ 3 ∧ out ≠ [0xC3, 0xA9, 0xC3, 0xA9] := by
  have hchar : Utf8 [0xC3, 0xA9] := (Utf8Char.two (by decide) (by decide) (by decide)).utf8
  obtain ⟨out, hblock, -, hlength, -, hsame, -⟩ :=
    truncation_bounded zeroedMalloc (hchar.append hchar) (by decide) [] 3
  exact ⟨out, hblock, hlength, fun h => absurd (hsame.mp h) (by decide)⟩

end EchoAi
