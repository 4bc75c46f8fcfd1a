import EchoAi.Ctype
import EchoAi.Splitting
import EchoAi.Utils.Transcode

/-!
# The text of a page

What is read of a page is written with its blanks collapsed.

* `decodeEntity`: a character reference.
* `Writer`: the output with the blanks that are pending; `writerNewline`, `writerPreflush`,
  `writerText`, `writerSyncState`.
* `emitTextRun`: a run of text, read as Windows-1252 when it is not UTF-8.
* `appendTitleText`: the text of the title.
* `Writes`: what is written is behind what was there, and a text of UTF-8.

Allocations succeed.
-/

namespace EchoAi.Html

/-! ## Character references -/

/-- `ENTITY_TABLE` -/
def entityTable : List (String × UInt8) :=
  [("amp", 38), ("lt", 60), ("gt", 62),
    ("quot", 34), ("apos", 39), ("nbsp", 0xA0),
    ("copy", 0xA9), ("reg", 0xAE), ("trade", 0x99),
    ("hellip", 0x85), ("mdash", 0x97), ("ndash", 0x96),
    ("lsquo", 0x91), ("rsquo", 0x92), ("ldquo", 0x93),
    ("rdquo", 0x94), ("middot", 0xB7), ("bull", 0x95),
    ("deg", 0xB0), ("plusmn", 0xB1), ("times", 0xD7),
    ("divide", 0xF7), ("frac12", 0xBD), ("frac14", 0xBC),
    ("frac34", 0xBE), ("sup2", 0xB2), ("sup3", 0xB3),
    ("para", 0xB6), ("sect", 0xA7), ("permil", 0x89),
    ("euro", 0x80), ("pound", 0xA3), ("cent", 0xA2),
    ("yen", 0xA5), ("micro", 0xB5),
    ("eacute", 0xE9), ("agrave", 0xE0), ("ntilde", 0xF1),
    ("ccedil", 0xE7), ("szlig", 0xDF), ("uuml", 0xFC),
    ("aacute", 0xE1), ("iacute", 0xED), ("oacute", 0xF3),
    ("uacute", 0xFA), ("auml", 0xE4), ("igrave", 0xEC),
    ("ograve", 0xF2), ("ugrave", 0xF9), ("acirc", 0xE2),
    ("ecirc", 0xEA), ("icirc", 0xEE), ("ocirc", 0xF4),
    ("ucirc", 0xFB), ("atilde", 0xE3), ("otilde", 0xF5)]

/-- `entity_lookup` -/
def entityLookup (name : List UInt8) : Option UInt8 :=
  (entityTable.find? fun entry => ascii entry.1 = name).map Prod.snd

/-- The value of a digit. -/
def digitOf (isHex : Bool) (c : UInt8) : Option Nat :=
  if 48 ≤ c ∧ c ≤ 57 then some (c.toNat - 48)
  else if isHex ∧ 97 ≤ c ∧ c ≤ 102 then some (c.toNat - 97 + 10)
  else if isHex ∧ 65 ≤ c ∧ c ≤ 70 then some (c.toNat - 65 + 10)
  else none

/-- The number that at most `limit` digits stand for and how many there are, unless it gets too
large. -/
def entityDigits (isHex : Bool) : (limit : Nat) → (v digits : Nat) → List UInt8 → Option (Nat × Nat)
  | 0, v, digits, _ => some (v, digits)
  | _ + 1, v, digits, [] => some (v, digits)
  | limit + 1, v, digits, c :: s =>
    let base := if isHex then 16 else 10
    match digitOf isHex c with
    | none => some (v, digits)
    | some d =>
      if (0x10FFFF - d) / base < v then none
      else entityDigits isHex limit (v * base + d) (digits + 1) s

/-- How many bytes a semicolon at this place takes. -/
def semicolon (s : List UInt8) : Nat := if s.head? = some 59 then 1 else 0

/-- `decode_entity`: the bytes of a character reference at the beginning of a text, and how many bytes
it takes there. -/
def decodeEntity (s : List UInt8) : Option (List UInt8 × Nat) :=
  match s with
  | 38 :: 35 :: s =>
    let isHex := s.head? = some 120 ∨ s.head? = some 88
    let s' := if isHex then s.drop 1 else s
    match entityDigits isHex 8 0 0 s' with
    | none => none
    | some (v, digits) =>
      let bytes := utf8EncodeCp v
      if digits = 0 ∨ bytes.length = 0 then none
      else some (bytes, 2 + (if isHex then 1 else 0) + digits + semicolon (s'.drop digits))
  | 38 :: s =>
    let name := (s.take 11).takeWhile isAlnum
    match entityLookup name with
    | none => none
    | some ch => some (utf8EncodeCp (cp1252Cp ch), 1 + name.length + semicolon (s.drop name.length))
  | _ => none

/-! ## The writer -/

/-- `Writer` -/
structure Writer where
  out : List UInt8 := []
  /-- a block boundary has been asked for -/
  needNewline : Bool := false
  /-- a blank has been seen -/
  wsPending : Bool := false
  hasLast : Bool := false
  last : UInt8 := 0
  deriving DecidableEq, Repr

/-- `writer_newline` -/
def writerNewline (w : Writer) : Writer := { w with needNewline := true }

/-- `writer_preflush` -/
def writerPreflush (w : Writer) : Writer :=
  if w.needNewline then
    { out := if w.out.length > 0 then w.out ++ [10] else w.out
      needNewline := false
      wsPending := false
      hasLast := true
      last := 10 }
  else if w.wsPending ∧ w.hasLast ∧ w.last ≠ 10 then
    { w with out := w.out ++ [32], wsPending := false, hasLast := true, last := 32 }
  else w

/-- `writer_text` on one byte; the bytes that are not blank have the same in front of them as with
`writer_preflush`. -/
def writerByte (w : Writer) (c : UInt8) : Writer :=
  if isSpace c then (if w.needNewline then w else { w with wsPending := true })
  else
    let w := writerPreflush w
    { w with out := w.out ++ [c], wsPending := false, hasLast := true, last := c }

/-- `writer_text` -/
def writerText (w : Writer) (s : List UInt8) : Writer := s.foldl writerByte w

/-- `writer_sync_state` -/
def writerSyncState (w : Writer) : Writer :=
  { w with hasLast := w.out.length > 0, last := w.out.getLast?.getD 0, wsPending := false }

/-- `outbuf_truncate` and then `writer_sync_state`. -/
def writerTruncate (w : Writer) (len : Nat) : Writer :=
  writerSyncState { w with out := w.out.take len }

/-- `emit_text_run` -/
def emitTextRun (w : Writer) (s : List UInt8) (isPre : Bool) : Writer :=
  if s = [] then w
  else
    let bytes := if utf8Valid s then s else s.flatMap transcodeByte
    if isPre then
      { w with out := w.out ++ bytes, hasLast := true, last := bytes.getLast?.getD 0 }
    else writerText w bytes

/-- `count_words` -/
def countWords (s : List UInt8) : Nat :=
  (s.splitOnP isSpace).countP fun word => word ≠ []

/-- `run_has_nonws` -/
def runHasNonws (s : List UInt8) : Bool := s.any fun c => !isSpace c

/-! ## The title -/

/-- `title_append_byte`, with the pending blank. -/
def titleAppendByte (title : List UInt8 × Bool) (c : UInt8) : List UInt8 × Bool :=
  if isSpace c then (title.1, true)
  else ((if title.2 ∧ title.1.length > 0 then title.1 ++ [32] else title.1) ++ [c], false)

/-- What a piece of the title is decoded to; each piece takes at least one of the `fuel`. -/
def titleBytes : (fuel : Nat) → (s : List UInt8) → List UInt8
  | 0, _ => []
  | fuel + 1, s =>
    let run := s.takeWhile (· ≠ 38)
    let bytes := if utf8Valid run then run else run.flatMap transcodeByte
    bytes ++
      match s.dropWhile (· ≠ 38) with
      | [] => []
      | c :: rest =>
        match decodeEntity (c :: rest) with
        | some (ebuf, consumed) => ebuf ++ titleBytes fuel ((c :: rest).drop consumed)
        | none => c :: titleBytes fuel rest

/-- `append_title_text` -/
def appendTitleText (title : List UInt8) (s : List UInt8) : List UInt8 :=
  ((titleBytes (s.length + 1) s).foldl titleAppendByte (title, false)).1

/-! ## What is written -/

/-- What is written is behind what was there, and a text of UTF-8. -/
def Writes (before after : List UInt8) : Prop := ∃ piece, Utf8 piece ∧ after = before ++ piece

theorem Writes.refl (out : List UInt8) : Writes out out := ⟨[], Utf8.nil, (List.append_nil out).symm⟩

theorem Writes.trans {xs ys zs : List UInt8} (hxy : Writes xs ys) (hyz : Writes ys zs) :
    Writes xs zs := by
  obtain ⟨piece, hpiece, rfl⟩ := hxy
  obtain ⟨more, hmore, rfl⟩ := hyz
  exact ⟨piece ++ more, hpiece.append hmore, List.append_assoc _ _ _⟩

/-- What may stand in front of a word. -/
def IsGap (gap : List UInt8) : Prop := gap = [] ∨ gap = [10] ∨ gap = [32]

theorem IsGap.utf8 {gap : List UInt8} (h : IsGap gap) : Utf8 gap := by
  rcases h with rfl | rfl | rfl
  · exact Utf8.nil
  · exact utf8_singleton (by decide)
  · exact utf8_singleton (by decide)

section Writing

variable {w : Writer} {s : List UInt8} {c : UInt8}

theorem exists_gap_writerPreflush (w : Writer) :
    ∃ gap, IsGap gap ∧ (writerPreflush w).out = w.out ++ gap := by
  rw [writerPreflush]
  split
  · by_cases hout : w.out.length > 0
    · exact ⟨[10], Or.inr (Or.inl rfl), if_pos hout⟩
    · exact ⟨[], Or.inl rfl, (if_neg hout).trans (List.append_nil _).symm⟩
  split
  · exact ⟨[32], Or.inr (Or.inr rfl), rfl⟩
  · exact ⟨[], Or.inl rfl, (List.append_nil _).symm⟩

theorem needNewline_writerPreflush (w : Writer) : (writerPreflush w).needNewline = false := by
  rw [writerPreflush]
  split
  · rfl
  next h =>
  split
  · exact Bool.eq_false_iff.2 h
  · exact Bool.eq_false_iff.2 h

/-- Behind a byte that is not blank nothing is pending. -/
theorem writerByte_of_not_isSpace (h : isSpace c = false) :
    ∃ gap, IsGap gap ∧ (writerByte w c).out = w.out ++ (gap ++ [c]) ∧
      (writerByte w c).needNewline = false ∧ (writerByte w c).wsPending = false := by
  obtain ⟨gap, hgap, hout⟩ := exists_gap_writerPreflush w
  refine ⟨gap, hgap, ?_⟩
  rw [writerByte, h, if_neg Bool.false_ne_true]
  refine ⟨?_, needNewline_writerPreflush w, rfl⟩
  show (writerPreflush w).out ++ [c] = _
  rw [hout, List.append_assoc]

theorem writerByte_of_isSpace (h : isSpace c = true) : (writerByte w c).out = w.out := by
  rw [writerByte, if_pos h]
  split <;> rfl

/-- Where nothing is pending, what is not blank is written as it is. -/
theorem out_writerText (hs : ∀ c ∈ s, isSpace c = false) (hnewline : w.needNewline = false)
    (hws : w.wsPending = false) : (writerText w s).out = w.out ++ s := by
  induction s generalizing w with
  | nil => exact (List.append_nil _).symm
  | cons c s ih =>
    have hsame : writerPreflush w = w := by
      rw [writerPreflush, hnewline, hws, if_neg Bool.false_ne_true]
      exact if_neg fun h => Bool.false_ne_true h.1
    have hbyte : writerByte w c =
        { w with out := w.out ++ [c], wsPending := false, hasLast := true, last := c } := by
      rw [writerByte, hs c List.mem_cons_self, if_neg Bool.false_ne_true, hsame]
    rw [writerText, List.foldl_cons, hbyte]
    have hrest : ∀ b ∈ s, isSpace b = false := fun b hb => hs b (List.mem_cons_of_mem c hb)
    have hout := ih (w := { w with out := w.out ++ [c], wsPending := false, hasLast := true, last := c })
      hrest hnewline rfl
    exact hout.trans (List.append_assoc _ _ _)

/-- A word is written behind a gap. -/
theorem exists_gap_writerText (hc : isSpace c = false) (hs : ∀ c ∈ s, isSpace c = false) :
    ∃ gap, IsGap gap ∧ (writerText w (c :: s)).out = w.out ++ gap ++ (c :: s) := by
  obtain ⟨gap, hgap, hout, hnewline, hws⟩ := writerByte_of_not_isSpace (w := w) hc
  refine ⟨gap, hgap, ?_⟩
  rw [writerText, List.foldl_cons]
  refine (out_writerText hs hnewline hws).trans ?_
  rw [hout]
  simp only [List.append_assoc, List.cons_append, List.nil_append]

theorem isSpace_of_utf8Tail (h : Utf8Tail c) : isSpace c = false := by
  grind [isSpace, Utf8Tail]

theorem lt_of_isSpace (h : isSpace c = true) : c < 0x80 := by
  grind [isSpace]

/-- A blank is a character of its own. -/
theorem tail_eq_nil_of_isSpace {tail : List UInt8} (h : Utf8Char (c :: tail))
    (hspace : isSpace c = true) : tail = [] := by
  have hlt := lt_of_isSpace hspace
  cases h with
  | one _ => rfl
  | two hle | three hle | four hle =>
    exact absurd (UInt8.lt_of_lt_of_le hlt (UInt8.le_trans (by decide) hle)) (UInt8.lt_irrefl c)

/-- What is written of a text is one. -/
theorem writes_writerText (hs : Utf8 s) : Writes w.out (writerText w s).out := by
  induction hs generalizing w with
  | nil => exact Writes.refl _
  | @cons cs rest hc _ ih =>
    have hfirst : Writes w.out (writerText w cs).out := by
      obtain ⟨a, tail, rfl, -, -, htail⟩ := hc.exists_cons
      cases hspace : isSpace a with
      | false =>
        have htail' : ∀ b ∈ tail, isSpace b = false := fun b hb => isSpace_of_utf8Tail (htail b hb)
        obtain ⟨gap, hgap, hout⟩ := exists_gap_writerText (w := w) hspace htail'
        refine ⟨gap ++ (a :: tail), hgap.utf8.append hc.utf8, ?_⟩
        rw [hout, List.append_assoc]
      | true =>
        obtain rfl := tail_eq_nil_of_isSpace hc hspace
        have hout : (writerText w [a]).out = w.out := writerByte_of_isSpace hspace
        exact hout ▸ Writes.refl _
    rw [writerText, List.foldl_append]
    exact hfirst.trans ih

theorem utf8_flatMap_transcodeByte (s : List UInt8) : Utf8 (s.flatMap transcodeByte) := by
  induction s with
  | nil => exact Utf8.nil
  | cons c s ih => exact (utf8_transcodeByte c).append ih

/-- A run that is not UTF-8 is transcoded. -/
theorem utf8_ite_utf8Valid (s : List UInt8) :
    Utf8 (if utf8Valid s = true then s else s.flatMap transcodeByte) := by
  split
  · next h => exact utf8Valid_iff.1 h
  · exact utf8_flatMap_transcodeByte s

theorem writes_emitTextRun (w : Writer) (s : List UInt8) (isPre : Bool) :
    Writes w.out (emitTextRun w s isPre).out := by
  rw [emitTextRun]
  split
  · exact Writes.refl _
  dsimp only
  split
  · exact ⟨_, utf8_ite_utf8Valid s, rfl⟩
  · exact writes_writerText (utf8_ite_utf8Valid s)

theorem writes_writerPreflush (w : Writer) : Writes w.out (writerPreflush w).out := by
  obtain ⟨gap, hgap, hout⟩ := exists_gap_writerPreflush w
  exact ⟨gap, hgap.utf8, hout⟩

end Writing

/-! ## What is decoded -/

theorem utf8_decodeEntity {s bytes : List UInt8} {consumed : Nat}
    (h : decodeEntity s = some (bytes, consumed)) : Utf8 bytes := by
  unfold decodeEntity at h
  split at h
  · dsimp only at h
    split at h
    · exact absurd h nofun
    split at h
    · exact absurd h nofun
    · obtain ⟨rfl, -⟩ := Prod.mk.inj (Option.some.inj h)
      exact utf8_utf8EncodeCp _
  · dsimp only at h
    split at h
    · exact absurd h nofun
    · obtain ⟨rfl, -⟩ := Prod.mk.inj (Option.some.inj h)
      exact utf8_utf8EncodeCp _
  · exact absurd h nofun

/-- A character reference takes at least one byte. -/
theorem pos_of_decodeEntity {s bytes : List UInt8} {consumed : Nat}
    (h : decodeEntity s = some (bytes, consumed)) : 0 < consumed := by
  unfold decodeEntity at h
  split at h
  · dsimp only at h
    split at h
    · exact absurd h nofun
    split at h
    · exact absurd h nofun
    · obtain ⟨-, rfl⟩ := Prod.mk.inj (Option.some.inj h)
      omega
  · dsimp only at h
    split at h
    · exact absurd h nofun
    · obtain ⟨-, rfl⟩ := Prod.mk.inj (Option.some.inj h)
      omega
  · exact absurd h nofun

/-- More fuel changes nothing for a title. -/
theorem titleBytes_succ {fuel : Nat} {s : List UInt8} (h : s.length < fuel) :
    titleBytes (fuel + 1) s = titleBytes fuel s := by
  induction fuel generalizing s with
  | zero => exact absurd h (Nat.not_lt_zero _)
  | succ fuel ih =>
    rw [titleBytes, titleBytes]
    refine congrArg _ ?_
    split
    · rfl
    next c rest hrest =>
    have hle := length_dropWhile_le (· ≠ 38) s
    rw [hrest, List.length_cons] at hle
    split
    · next ebuf consumed hentity =>
      have hpos := pos_of_decodeEntity hentity
      refine congrArg _ (ih ?_)
      rw [List.length_drop, List.length_cons]
      omega
    · exact congrArg _ (ih (by omega))

theorem utf8_titleBytes (fuel : Nat) (s : List UInt8) : Utf8 (titleBytes fuel s) := by
  induction fuel generalizing s with
  | zero => exact Utf8.nil
  | succ fuel ih =>
    rw [titleBytes]
    refine (utf8_ite_utf8Valid _).append ?_
    split
    · exact Utf8.nil
    next c rest hrest =>
    split
    · next ebuf consumed hentity => exact (utf8_decodeEntity hentity).append (ih _)
    · have hc : c = 38 := by simpa using eq_false_of_dropWhile_eq_cons hrest
      rw [hc]
      exact (utf8_singleton (by decide)).append (ih _)

theorem writes_foldl_titleAppendByte {s : List UInt8} (hs : Utf8 s) (title : List UInt8 × Bool) :
    Writes title.1 (s.foldl titleAppendByte title).1 := by
  induction hs generalizing title with
  | nil => exact Writes.refl _
  | @cons cs rest hc _ ih =>
    have hsolid : ∀ (tail : List UInt8) (title : List UInt8), (∀ b ∈ tail, isSpace b = false) →
        tail.foldl titleAppendByte (title, false) = (title ++ tail, false) := by
      intro tail
      induction tail with
      | nil => exact fun title _ => by rw [List.foldl_nil, List.append_nil]
      | cons b tail ih =>
        intro title htail
        have hbyte : titleAppendByte (title, false) b = (title ++ [b], false) := by
          rw [titleAppendByte, htail b List.mem_cons_self]
          rfl
        rw [List.foldl_cons, hbyte, ih _ fun b hb => htail b (List.mem_cons_of_mem _ hb),
          List.append_assoc]
        rfl
    have hfirst : Writes title.1 (cs.foldl titleAppendByte title).1 := by
      obtain ⟨a, tail, rfl, -, -, htail⟩ := hc.exists_cons
      cases hspace : isSpace a with
      | false =>
        have hgap : Writes title.1
            (if title.2 ∧ title.1.length > 0 then title.1 ++ [32] else title.1) := by
          split
          · exact ⟨[32], utf8_singleton (by decide), rfl⟩
          · exact Writes.refl _
        rw [List.foldl_cons, titleAppendByte, hspace, if_neg Bool.false_ne_true,
          hsolid tail _ fun b hb => isSpace_of_utf8Tail (htail b hb), List.append_assoc]
        exact hgap.trans ⟨a :: tail, hc.utf8, rfl⟩
      | true =>
        obtain rfl := tail_eq_nil_of_isSpace hc hspace
        rw [List.foldl_cons, List.foldl_nil, titleAppendByte, if_pos hspace]
        exact Writes.refl _
    rw [List.foldl_append]
    exact hfirst.trans (ih _)

theorem writes_appendTitleText (title s : List UInt8) : Writes title (appendTitleText title s) :=
  writes_foldl_titleAppendByte (utf8_titleBytes _ s) (title, false)

end EchoAi.Html
