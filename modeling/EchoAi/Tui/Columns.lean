import EchoAi.Tui.Wrap
import EchoAi.Utf8

/-!
# Text in columns

* `utf8DecodeCp_append`: a character in front of anything is decoded as it is by itself.
* `displayWidth`: the columns of a text, and `displayWidth_append`.
* `tuiChatTruncateWidth`: a text cut to columns and to a buffer.
* `TruncatesRight`, `Overfull`, `truncatesRight_iff`: the cut keeps to both limits except where the
  columns are used up in front of the end.

Texts are the bytes of C strings.
-/

namespace EchoAi.Tui

/-! ## Characters -/

/-- The length of a sequence is known from its lead byte. -/
theorem leadByte_snd {c : UInt8} (h : 0xC0 ≤ c) : (leadByte c).2 = utf8Width c := by
  have hbytes : ∀ n < 256, 0xC0 ≤ UInt8.ofNat n →
      (leadByte (UInt8.ofNat n)).2 = utf8Width (UInt8.ofNat n) := by decide +kernel
  rw [← UInt8.ofNat_toNat (x := c)] at h ⊢
  exact hbytes _ c.toNat_lt h

/-- A character in front of anything is decoded as it is by itself. -/
theorem utf8DecodeCp_append {a : UInt8} {tail : List UInt8} (h : Utf8Char (a :: tail))
    (rest : List UInt8) :
    utf8DecodeCp a (tail ++ rest) = (tail.length + 1, (utf8DecodeCp a tail).2) := by
  obtain ⟨a', tail', heq, hlead, hwidth, -⟩ := h.exists_cons
  obtain ⟨rfl, rfl⟩ := List.cons.inj heq
  rw [List.length_cons] at hwidth
  unfold utf8DecodeCp
  by_cases hascii : a < 0x80
  · have hone : utf8Width a = 1 := if_pos hascii
    rw [if_pos hascii, if_pos hascii, hwidth, hone]
  · have hlow : 0xC0 ≤ a := by
      unfold Utf8Tail at hlead
      rw [UInt8.lt_iff_toNat_lt] at hascii
      rw [UInt8.le_iff_toNat_le, UInt8.le_iff_toNat_le] at hlead
      rw [UInt8.le_iff_toNat_le]
      change ¬ a.toNat < 128 at hascii
      change ¬ (128 ≤ a.toNat ∧ a.toNat ≤ 191) at hlead
      change 192 ≤ a.toNat
      omega
    have hlength : (leadByte a).2 = tail.length + 1 := (leadByte_snd hlow).trans hwidth.symm
    rw [if_neg hascii, if_neg hascii, hlength, if_neg, if_neg (Nat.lt_irrefl _),
      Nat.add_sub_cancel, List.take_left, List.take_length]
    rw [List.length_append]
    omega

/-- `tui_chat_display_width` -/
def displayWidth : List UInt8 → Nat
  | [] => 0
  | c :: rest =>
    cpDisplayWidth (utf8DecodeCp c rest).2 + displayWidth (rest.drop ((utf8DecodeCp c rest).1 - 1))
termination_by text => text.length
decreasing_by
  simp only [List.length_cons, List.length_drop]
  omega

@[simp] theorem displayWidth_nil : displayWidth [] = 0 := displayWidth.eq_1

/-- The columns of one character are those of its codepoint. -/
theorem displayWidth_char {a : UInt8} {tail : List UInt8} (h : Utf8Char (a :: tail)) :
    displayWidth (a :: tail) = cpDisplayWidth (utf8DecodeCp a tail).2 := by
  have hself := utf8DecodeCp_append h []
  rw [List.append_nil] at hself
  have hlength : (utf8DecodeCp a tail).1 = tail.length + 1 := congrArg Prod.fst hself
  rw [displayWidth, hlength, Nat.add_sub_cancel, List.drop_length, displayWidth_nil, Nat.add_zero]

/-- The columns of one character, with anything behind it. -/
theorem displayWidth_char_append {cs : List UInt8} (h : Utf8Char cs) (rest : List UInt8) :
    displayWidth (cs ++ rest) = displayWidth cs + displayWidth rest := by
  obtain ⟨a, tail, rfl, -⟩ := h.exists_cons
  rw [displayWidth_char h, List.cons_append, displayWidth, utf8DecodeCp_append h rest]
  simp only [Nat.add_sub_cancel, List.drop_left]

/-- The columns of a text, with anything behind it. -/
theorem displayWidth_append {xs : List UInt8} (h : Utf8 xs) (ys : List UInt8) :
    displayWidth (xs ++ ys) = displayWidth xs + displayWidth ys := by
  induction h with
  | nil => rw [List.nil_append, displayWidth_nil, Nat.zero_add]
  | cons hc _ ih =>
    rw [List.append_assoc, displayWidth_char_append hc, displayWidth_char_append hc, ih,
      Nat.add_assoc]

/-! ## Truncating -/

/-- "…" -/
def ellipsis : List UInt8 := [0xE2, 0x80, 0xA6]

section Truncate

variable (maxW outCap : Nat)

/-- The loop of `tui_chat_truncate_width`: how many bytes are kept. -/
def truncateLoop (rest : List UInt8) (w i : Nat) : Nat :=
  match rest with
  | [] => i
  | c :: rest =>
    let n := (utf8DecodeCp c rest).1
    let cw := cpDisplayWidth (utf8DecodeCp c rest).2
    if maxW < w + cw then i
    else if outCap < i + n + 1 then i
    else if maxW ≤ w + cw then i + n
    else truncateLoop (rest.drop (n - 1)) (w + cw) (i + n)
termination_by rest.length
decreasing_by
  simp only [List.length_cons, List.length_drop]
  omega

/-- `tui_chat_truncate_width`: what it returns, and what it writes to the buffer. -/
def tuiChatTruncateWidth (text : List UInt8) : Nat × List UInt8 :=
  if outCap < 1 then (0, [])
  else if maxW < 1 then (0, [0])
  else
    let last := truncateLoop maxW outCap text 0 0
    if last < text.length then
      if 4 ≤ outCap - last then (last + 3, text.take last ++ ellipsis ++ [0])
      else (last, text.take last ++ [0])
    else (last, text.take last ++ [0])

end Truncate

/-- What a cut of the text to columns and to a buffer has to be. -/
structure Truncation (text : List UInt8) (maxW outCap : Nat) (result : List UInt8) : Prop where
  bytes : result.length + 1 ≤ outCap
  columns : displayWidth result ≤ maxW
  whole : displayWidth text ≤ maxW → text.length + 1 ≤ outCap → result = text
  cut : ¬(displayWidth text ≤ maxW ∧ text.length + 1 ≤ outCap) →
    ∃ kept behind, text = kept ++ behind ∧ Utf8 kept ∧ (result = kept ∨ result = kept ++ ellipsis)

/-- The function writes such a cut, with its NUL, and returns its length. -/
def TruncatesRight (text : List UInt8) (maxW outCap : Nat) : Prop :=
  ∃ result, tuiChatTruncateWidth maxW outCap text = (result.length, result ++ [0]) ∧
    Truncation text maxW outCap result

/-- The columns, from the `w`th on, are used up in front of the end, at a place with room for the
marker or in a text that fits. -/
def OverfullFrom (maxW outCap : Nat) (rest : List UInt8) (w i : Nat) : Prop :=
  ∃ kept behind, rest = kept ++ behind ∧ Utf8 kept ∧ behind ≠ [] ∧ w + displayWidth kept = maxW ∧
    (0 < maxW ∧ i + kept.length + 4 ≤ outCap ∨
      displayWidth behind = 0 ∧ i + rest.length + 1 ≤ outCap)

/-- A proper prefix of the text has all the columns, and the marker has room behind it or the whole
text fits. -/
def Overfull (text : List UInt8) (maxW outCap : Nat) : Prop := OverfullFrom maxW outCap text 0 0

/-- Why the loop stops: the text is at its end, the columns are used up, or the next character does
not fit. -/
inductive Stopped (maxW outCap : Nat) (behind : List UInt8) (w i : Nat) : Prop
  | done (h : behind = [])
  | full (hbehind : behind ≠ []) (hw : w = maxW)
  | noRoom (cs rest : List UInt8) (h : behind = cs ++ rest) (hc : Utf8Char cs) (hw : w < maxW)
      (hnext : maxW < w + displayWidth cs ∨ outCap < i + cs.length + 1)

section Truncate

variable {maxW outCap w i : Nat} {cs rest behind : List UInt8}

/-- The loop at one character. -/
theorem truncateLoop_append (h : Utf8Char cs) :
    truncateLoop maxW outCap (cs ++ rest) w i =
      if maxW < w + displayWidth cs then i
      else if outCap < i + cs.length + 1 then i
      else if maxW ≤ w + displayWidth cs then i + cs.length
      else truncateLoop maxW outCap rest (w + displayWidth cs) (i + cs.length) := by
  obtain ⟨a, tail, rfl, -⟩ := h.exists_cons
  rw [List.cons_append, truncateLoop]
  simp only [utf8DecodeCp_append h rest, displayWidth_char h, Nat.add_sub_cancel, List.drop_left,
    List.length_cons]

/-- Beyond the columns nothing is used up. -/
theorem not_overfullFrom_of_lt (h : maxW < w) : ¬ OverfullFrom maxW outCap rest w i := by
  rintro ⟨kept, behind, -, -, -, hw, -⟩
  omega

/-- Where the buffer is full there is no room, and the text does not fit. -/
theorem not_overfullFrom_of_full (h : outCap < i + 1) : ¬ OverfullFrom maxW outCap rest w i := by
  rintro ⟨kept, behind, -, -, -, -, hroom⟩
  omega

theorem not_overfullFrom_nil : ¬ OverfullFrom maxW outCap [] w i := by
  rintro ⟨kept, behind, heq, -, hbehind, -⟩
  exact hbehind (List.append_eq_nil_iff.1 heq.symm).2

/-- A character goes by before the columns are used up. -/
theorem overfullFrom_append (hc : Utf8Char cs) (hw : w < maxW) :
    OverfullFrom maxW outCap (cs ++ rest) w i ↔
      OverfullFrom maxW outCap rest (w + displayWidth cs) (i + cs.length) := by
  constructor
  · rintro ⟨kept, behind, heq, hkept, hbehind, hwidth, hroom⟩
    cases hkept with
    | nil =>
      rw [displayWidth_nil] at hwidth
      omega
    | @cons cs' kept hc' hkept =>
      obtain ⟨rfl, hrest⟩ : cs = cs' ∧ rest = kept ++ behind := by
        obtain ⟨a, tail, rfl, -, hlength, -⟩ := hc.exists_cons
        obtain ⟨a', tail', rfl, -, hlength', -⟩ := hc'.exists_cons
        rw [List.append_assoc] at heq
        obtain rfl : a = a' := (List.cons.inj heq).1
        exact List.append_inj heq (hlength.trans hlength'.symm)
      rw [displayWidth_char_append hc] at hwidth
      rw [List.length_append, List.length_append] at hroom
      exact ⟨kept, behind, hrest, hkept, hbehind, by omega, by omega⟩
  · rintro ⟨kept, behind, rfl, hkept, hbehind, hwidth, hroom⟩
    refine ⟨cs ++ kept, behind, by rw [List.append_assoc], .cons hc hkept, hbehind, ?_, ?_⟩
    · rw [displayWidth_char_append hc]
      omega
    · rw [List.length_append, List.length_append]
      omega

/-- Where the columns are used up, just the place counts. -/
theorem overfullFrom_of_eq (hbehind : behind ≠ []) (hw : w = maxW) :
    OverfullFrom maxW outCap behind w i ↔ 0 < maxW ∧ i + 4 ≤ outCap ∨
      displayWidth behind = 0 ∧ i + behind.length + 1 ≤ outCap := by
  constructor
  · rintro ⟨kept, rest, rfl, hkept, -, hwidth, hroom⟩
    rw [displayWidth_append hkept]
    omega
  · intro hroom
    refine ⟨[], behind, rfl, .nil, hbehind, ?_, ?_⟩
    · rw [displayWidth_nil, Nat.add_zero, hw]
    · rw [List.length_nil]
      omega

/-- **The loop** keeps characters within both limits until it stops. -/
theorem exists_truncateLoop (h : Utf8 rest) (hw : w < maxW) (hi : i + 1 ≤ outCap) :
    ∃ kept behind, rest = kept ++ behind ∧ Utf8 kept ∧
      truncateLoop maxW outCap rest w i = i + kept.length ∧ w + displayWidth kept ≤ maxW ∧
      i + kept.length + 1 ≤ outCap ∧
      Stopped maxW outCap behind (w + displayWidth kept) (i + kept.length) ∧
      (OverfullFrom maxW outCap rest w i ↔
        OverfullFrom maxW outCap behind (w + displayWidth kept) (i + kept.length)) := by
  induction h generalizing w i with
  | nil =>
    exact ⟨[], [], rfl, .nil, by rw [truncateLoop]; rfl, by rw [displayWidth_nil]; omega, hi,
      .done rfl, iff_of_false not_overfullFrom_nil not_overfullFrom_nil⟩
  | @cons cs rest hc hrest ih =>
    rw [truncateLoop_append hc, overfullFrom_append hc hw]
    by_cases hnext : maxW < w + displayWidth cs ∨ outCap < i + cs.length + 1
    · have hstop : Stopped maxW outCap (cs ++ rest) w i := .noRoom cs rest rfl hc hw hnext
      refine ⟨[], cs ++ rest, rfl, .nil, ?_, ?_, hi, ?_, ?_⟩
      · rcases hnext with hnext | hnext
        · exact if_pos hnext
        · rw [if_pos hnext, ite_self]
          rfl
      · rw [displayWidth_nil]
        omega
      · rw [displayWidth_nil]
        exact hstop
      · rw [displayWidth_nil]
        exact (overfullFrom_append hc hw).symm
    · obtain ⟨hcolumns, hbytes⟩ := not_or.1 hnext
      rw [if_neg hcolumns, if_neg hbytes]
      by_cases hfull : maxW ≤ w + displayWidth cs
      · rw [if_pos hfull]
        refine ⟨cs, rest, rfl, hc.utf8, rfl, Nat.le_of_not_lt hcolumns, Nat.le_of_not_lt hbytes,
          ?_, Iff.rfl⟩
        by_cases hend : rest = []
        · exact .done hend
        · exact .full hend (by omega)
      · rw [if_neg hfull]
        obtain ⟨kept, behind, rfl, hkept, heq, hle, hroom, hstop, hover⟩ :=
          ih (Nat.lt_of_not_le hfull) (Nat.le_of_not_lt hbytes)
        refine ⟨cs ++ kept, behind, by rw [List.append_assoc], .cons hc hkept, ?_⟩
        rw [displayWidth_char_append hc, List.length_append, ← Nat.add_assoc, ← Nat.add_assoc]
        exact ⟨heq, hle, hroom, hstop, hover⟩

/-! ## What is written -/

variable {text kept result : List UInt8}

/-- What is written, by what the loop keeps. -/
theorem tuiChatTruncateWidth_eq (hmax : 0 < maxW) (hcap : 1 ≤ outCap)
    (h : truncateLoop maxW outCap (kept ++ behind) 0 0 = kept.length) :
    tuiChatTruncateWidth maxW outCap (kept ++ behind) =
      if behind ≠ [] ∧ kept.length + 4 ≤ outCap then
        ((kept ++ ellipsis).length, kept ++ ellipsis ++ [0])
      else (kept.length, kept ++ [0]) := by
  rw [tuiChatTruncateWidth, if_neg (Nat.not_lt.2 hcap), if_neg (Nat.not_lt.2 hmax)]
  simp only [h, List.take_left, List.length_append]
  by_cases hbehind : behind = []
  · rw [hbehind, List.length_nil, Nat.add_zero, if_neg (Nat.lt_irrefl _),
      if_neg fun hne => hne.1 rfl]
  · have hpos := List.length_pos_iff.2 hbehind
    rw [if_pos (Nat.lt_add_of_pos_right hpos)]
    by_cases hroom : kept.length + 4 ≤ outCap
    · rw [if_pos (by omega), if_pos ⟨hbehind, hroom⟩]
      rfl
    · rw [if_neg (by omega), if_neg fun hne => hroom hne.2]

/-- Only what is written counts. -/
theorem truncatesRight_iff_of_eq
    (h : tuiChatTruncateWidth maxW outCap text = (result.length, result ++ [0])) :
    TruncatesRight text maxW outCap ↔ Truncation text maxW outCap result := by
  constructor
  · rintro ⟨result', heq, htruncation⟩
    rw [h] at heq
    rw [List.append_cancel_right (congrArg Prod.snd heq)]
    exact htruncation
  · exact fun htruncation => ⟨result, h, htruncation⟩

theorem displayWidth_ellipsis : displayWidth ellipsis = 1 := by decide +kernel

/-- Without columns nothing is written. -/
theorem truncatesRight_zero_iff (hcap : 1 ≤ outCap) :
    TruncatesRight text 0 outCap ↔ ¬ Overfull text 0 outCap := by
  have heq : tuiChatTruncateWidth 0 outCap text = (([] : List UInt8).length, [] ++ [0]) := by
    rw [tuiChatTruncateWidth, if_neg (Nat.not_lt.2 hcap)]
    rfl
  rw [truncatesRight_iff_of_eq heq]
  by_cases hnil : text = []
  · subst hnil
    exact iff_of_true ⟨hcap, Nat.le_of_eq displayWidth_nil, fun _ _ => rfl,
      fun _ => ⟨[], [], rfl, .nil, .inl rfl⟩⟩ not_overfullFrom_nil
  · rw [Overfull, overfullFrom_of_eq hnil rfl]
    constructor
    · rintro h (⟨hlt, -⟩ | ⟨hwidth, hbytes⟩)
      · exact Nat.lt_irrefl _ hlt
      · rw [Nat.zero_add] at hbytes
        exact hnil (h.whole (Nat.le_of_eq hwidth) hbytes).symm
    · intro h
      refine ⟨hcap, Nat.le_of_eq displayWidth_nil, fun hwidth hbytes => absurd ?_ h,
        fun _ => ⟨[], text, rfl, .nil, .inl rfl⟩⟩
      refine .inr ⟨Nat.le_zero.1 hwidth, ?_⟩
      rw [Nat.zero_add]
      exact hbytes

/-- **A cut keeps to both limits** just when the columns are not used up in front of the end, at a
place with room for the marker or in a text that fits. -/
theorem truncatesRight_iff (htext : Utf8 text) (hcap : 1 ≤ outCap) :
    TruncatesRight text maxW outCap ↔ ¬ Overfull text maxW outCap := by
  rcases Nat.eq_zero_or_pos maxW with rfl | hmax
  · exact truncatesRight_zero_iff hcap
  obtain ⟨kept, behind, rfl, hkept, hloop, hle, hroom, hstop, hover⟩ :=
    @exists_truncateLoop maxW outCap 0 0 text htext hmax hcap
  simp only [Nat.zero_add] at hloop hle hroom hstop hover
  have heq := tuiChatTruncateWidth_eq hmax hcap hloop
  rw [Overfull, hover]
  cases hstop with
  | done hnil =>
    subst hnil
    rw [if_neg fun hne => hne.1 rfl] at heq
    rw [truncatesRight_iff_of_eq heq]
    refine iff_of_true ⟨hroom, hle, fun _ _ => (List.append_nil kept).symm, ?_⟩
      not_overfullFrom_nil
    exact fun _ => ⟨kept, [], rfl, hkept, .inl rfl⟩
  | full hbehind hw =>
    rw [overfullFrom_of_eq hbehind hw]
    by_cases hmarker : kept.length + 4 ≤ outCap
    · -- the marker is one column too much
      rw [if_pos ⟨hbehind, hmarker⟩] at heq
      rw [truncatesRight_iff_of_eq heq]
      refine iff_of_false (fun h => ?_) (not_not_intro (.inl ⟨hmax, hmarker⟩))
      have hcolumns := h.columns
      rw [displayWidth_append hkept, displayWidth_ellipsis] at hcolumns
      omega
    · rw [if_neg fun hne => hmarker hne.2] at heq
      rw [truncatesRight_iff_of_eq heq]
      constructor
      · rintro h (⟨-, hlt⟩ | ⟨hwidth, hbytes⟩)
        · exact hmarker hlt
        · have hwhole := h.whole (by rw [displayWidth_append hkept]; omega)
            (by rw [List.length_append]; exact hbytes)
          exact hbehind (List.append_cancel_left ((List.append_nil kept).trans hwhole)).symm
      · intro h
        refine ⟨hroom, hle, fun hwidth hbytes => absurd (.inr ⟨?_, ?_⟩) h,
          fun _ => ⟨kept, behind, rfl, hkept, .inl rfl⟩⟩
        · rw [displayWidth_append hkept] at hwidth
          omega
        · rw [List.length_append] at hbytes
          exact hbytes
  | noRoom cs rest hsplit hc hw hnext =>
    subst hsplit
    have hlong : ¬(displayWidth (kept ++ (cs ++ rest)) ≤ maxW ∧
        (kept ++ (cs ++ rest)).length + 1 ≤ outCap) := by
      rw [displayWidth_append hkept, displayWidth_char_append hc, List.length_append,
        List.length_append]
      omega
    have hover' : ¬ OverfullFrom maxW outCap (cs ++ rest) (displayWidth kept) kept.length := by
      rw [overfullFrom_append hc hw]
      rcases hnext with hnext | hnext
      · exact not_overfullFrom_of_lt hnext
      · exact not_overfullFrom_of_full hnext
    refine iff_of_true ?_ hover'
    by_cases hmarker : cs ++ rest ≠ [] ∧ kept.length + 4 ≤ outCap
    · rw [if_pos hmarker] at heq
      rw [truncatesRight_iff_of_eq heq]
      refine ⟨?_, ?_, fun hwidth hbytes => absurd ⟨hwidth, hbytes⟩ hlong,
        fun _ => ⟨kept, cs ++ rest, rfl, hkept, .inr rfl⟩⟩
      · rw [List.length_append]
        exact hmarker.2
      · rw [displayWidth_append hkept, displayWidth_ellipsis]
        exact hw
    · rw [if_neg hmarker] at heq
      rw [truncatesRight_iff_of_eq heq]
      exact ⟨hroom, hle, fun hwidth hbytes => absurd ⟨hwidth, hbytes⟩ hlong,
        fun _ => ⟨kept, cs ++ rest, rfl, hkept, .inl rfl⟩⟩

end Truncate

/-- Two letters in five columns. -/
theorem truncatesRight_iff_short : TruncatesRight [97, 98] 5 10 ↔ ¬ Overfull [97, 98] 5 10 :=
  truncatesRight_iff ((utf8_singleton (by decide)).append (utf8_singleton (by decide)))
    (by decide)

/-- A letter with an accent has one column, but it loses the accent and gets the marker. -/
theorem not_truncatesRight_accent :
    Utf8 [0x65, 0xCC, 0x81] ∧ displayWidth [0x65, 0xCC, 0x81] = 1 ∧
      ¬ TruncatesRight [0x65, 0xCC, 0x81] 1 64 := by
  have hletter : Utf8Char [0x65] := .one (by decide)
  have heq : tuiChatTruncateWidth 1 64 [0x65, 0xCC, 0x81] =
      (([0x65] ++ ellipsis).length, [0x65] ++ ellipsis ++ [0]) := by decide +kernel
  refine ⟨.cons hletter (Utf8Char.two (by decide) (by decide) (by decide)).utf8,
    by decide +kernel, fun h => ?_⟩
  have hcolumns := ((truncatesRight_iff_of_eq heq).1 h).columns
  rw [displayWidth_char_append hletter, displayWidth_ellipsis] at hcolumns
  exact absurd hcolumns (by decide +kernel)

end EchoAi.Tui
