import EchoAi.Tui.Columns
import Mathlib.Data.List.DropRight

/-!
# The lines of a wrapped text

The loop of `tui_chat_wrap` counts columns; here it is compared with the lines themselves.

* `Layout`, `Layout.put`: a text in lines, and one more character.
* `run_flatten`: the loop counts what the lines hold.
* `Laid`: what holds of the lines, by each of the characters: `Laid.put`.
* `WrapsRight`, `Uncrowded`, `wrapsRight_iff`: the lines are within the width just when no codepoint
  that is wider than the width is put behind others.

Texts are the bytes of C strings.
-/

namespace EchoAi.Tui

/-! ## Lines and their places -/

/-- The places where lines begin. -/
def offsets (lines : List (List UInt8)) : List Nat :=
  (List.range lines.length).map fun k => (lines.take k).flatten.length

theorem length_offsets (lines : List (List UInt8)) : (offsets lines).length = lines.length := by
  rw [offsets, List.length_map, List.length_range]

/-- One more line begins where the others end. -/
theorem offsets_concat (lines : List (List UInt8)) (line : List UInt8) :
    offsets (lines ++ [line]) = offsets lines ++ [lines.flatten.length] := by
  rw [offsets, List.length_append, List.length_singleton, List.range_succ, List.map_append,
    List.map_singleton, List.take_left]
  congr 1
  refine List.map_congr_left fun k hk => ?_
  rw [List.take_append_of_le_length (Nat.le_of_lt (List.mem_range.1 hk))]

/-- A text in lines: those that are closed, what stands in front of the word on the last one, and
the word. -/
structure Layout where
  closed : List (List UInt8)
  before : List UInt8
  word : List UInt8
  col : Nat

namespace Layout

variable (s : Layout) (width cap : Nat)

/-- All of the text. -/
def total : List UInt8 := s.closed.flatten ++ s.before ++ s.word

/-- The places where the lines begin. -/
def starts : List Nat := offsets s.closed ++ [s.closed.flatten.length]

/-- What the loop knows of the lines. -/
def state : WrapState where
  lines := s.closed.length + 1
  starts := s.starts.take cap
  col := s.col
  wordStart := (s.closed.flatten ++ s.before).length
  wordLen := displayWidth s.word

/-- A line is closed, and the next one begins with a word. -/
def close (line word : List UInt8) : Layout where
  closed := s.closed ++ [line]
  before := []
  word := word
  col := 0

/-- A character that is no newline and no space. -/
def putGlyph (cs : List UInt8) : Layout :=
  if width < s.col + (displayWidth s.word + displayWidth cs) then
    if 0 < s.col ∧ displayWidth s.word + displayWidth cs ≤ width then
      s.close s.before (s.word ++ cs)
    else if width < displayWidth s.word + displayWidth cs ∧
        ¬(s.col = 0 ∧ width < displayWidth cs) then
      s.close (s.before ++ s.word) cs
    else if s.col = 0 then
      { s with word := s.word ++ cs, col := displayWidth s.word + displayWidth cs }
    else { s with word := s.word ++ cs }
  else { s with word := s.word ++ cs }

/-- One more character. -/
def put (cs : List UInt8) : Layout :=
  if cs = [10] then s.close (s.before ++ s.word ++ [10]) []
  else if cs = [32] then
    if width < s.col + displayWidth s.word + 1 ∧ 0 < s.col then
      s.close (s.before ++ s.word ++ [32]) []
    else
      { s with
        before := s.before ++ s.word ++ [32]
        word := []
        col := s.col + displayWidth s.word + 1 }
  else s.putGlyph width cs

variable {s width cap} {cs line word rest : List UInt8}

theorem starts_close :
    (s.close line word).starts = s.starts ++ [(s.closed.flatten ++ line).length] := by
  rw [starts, close, offsets_concat, List.flatten_append, List.flatten_singleton]
  rfl

theorem length_starts : s.starts.length = s.closed.length + 1 := by
  rw [starts, List.length_append, length_offsets, List.length_singleton]

/-- The loop breaks where a line is closed. -/
theorem breakAt_state {start : Nat} (h : start = (s.closed.flatten ++ line).length) :
    { (s.state cap).breakAt cap start with
      wordStart := start, wordLen := displayWidth word } = (s.close line word).state cap := by
  have hstarts : (if s.closed.length + 1 < cap then s.starts.take cap ++ [start]
      else s.starts.take cap) = (s.starts ++ [start]).take cap := by
    rw [List.take_append, length_starts]
    split
    · next hlt => rw [List.take_of_length_le (Nat.le_sub_of_add_le' hlt)]
    · next hge => rw [Nat.sub_eq_zero_of_le (Nat.le_of_not_lt hge), List.take_zero, List.append_nil]
  have hlines : s.closed.length + 1 + 1 = (s.closed ++ [line]).length + 1 := by
    rw [List.length_append, List.length_singleton]
  have hplace : start = ((s.closed ++ [line]).flatten ++ []).length := by
    rw [h, List.append_nil, List.flatten_append, List.flatten_singleton]
  refine WrapState.mk.injEq .. |>.mpr ⟨hlines, ?_, rfl, hplace, rfl⟩
  rw [starts_close, ← h]
  exact hstarts

/-- A character that is no newline and no space, for the loop. -/
theorem codepoint_state (h : Utf8 s.word) :
    (s.state cap).codepoint width cap s.total.length (displayWidth cs) =
      (s.putGlyph width cs).state cap := by
  have hword : displayWidth (s.word ++ cs) = displayWidth s.word + displayWidth cs :=
    displayWidth_append h cs
  unfold WrapState.codepoint putGlyph
  simp only [show (s.state cap).col = s.col from rfl,
    show (s.state cap).wordLen = displayWidth s.word from rfl]
  split
  · split
    · rw [← @breakAt_state s cap s.before (s.word ++ cs) _ rfl, hword]
      rfl
    split
    · have hplace : s.total.length = (s.closed.flatten ++ (s.before ++ s.word)).length := by
        rw [total, List.append_assoc]
      rw [← breakAt_state hplace]
    split
    · simp only [state, hword]
      rfl
    · simp only [state, hword]
      rfl
  · simp only [state, hword]
    rfl

/-- Nothing is lost. -/
theorem total_put : (s.put width cs).total = s.total ++ cs := by
  have hclose (line word : List UInt8) :
      (s.close line word).total = s.closed.flatten ++ line ++ word := by
    rw [total, close, List.flatten_append, List.flatten_singleton, List.append_nil]
  unfold put putGlyph
  split
  · next h =>
    rw [hclose, h, List.append_nil]
    simp only [total, List.append_assoc]
  split
  · next h =>
    split
    · rw [hclose, h, List.append_nil]
      simp only [total, List.append_assoc]
    · simp only [total, h, List.append_nil, List.append_assoc]
  · repeat' split
    all_goals
      try rw [hclose]
      simp only [total, List.append_assoc]

/-- The word is a text. -/
theorem utf8_word_put (h : Utf8 s.word) (hc : Utf8Char cs) : Utf8 (s.put width cs).word := by
  unfold put putGlyph
  repeat' split
  all_goals first | exact .nil | exact h.append hc.utf8 | exact hc.utf8

/-- The loop does with a character what is done with the lines. -/
theorem run_append (h : Utf8 s.word) (hc : Utf8Char cs) :
    WrapState.run width cap (cs ++ rest) s.total.length (s.state cap) =
      WrapState.run width cap rest (s.put width cs).total.length ((s.put width cs).state cap) := by
  rw [total_put]
  obtain ⟨c, tail, rfl, -, hwidth, -⟩ := hc.exists_cons
  rw [List.cons_append, WrapState.run]
  by_cases hnewline : c = 10
  · subst hnewline
    obtain rfl : tail = [] := List.length_eq_zero_iff.1 (Nat.succ.inj hwidth)
    have hplace : s.total.length + 1 =
        (s.closed.flatten ++ (s.before ++ s.word ++ [10])).length := by
      simp only [total, List.length_append, List.length_singleton, Nat.add_assoc]
    rw [if_pos rfl, put, if_pos rfl, ← breakAt_state hplace, displayWidth_nil, List.length_append]
    rfl
  rw [if_neg hnewline]
  by_cases hspace : c = 32
  · subst hspace
    obtain rfl : tail = [] := List.length_eq_zero_iff.1 (Nat.succ.inj hwidth)
    have hplace : s.total.length + 1 =
        (s.closed.flatten ++ (s.before ++ s.word ++ [32])).length := by
      simp only [total, List.length_append, List.length_singleton, Nat.add_assoc]
    have hnot : ¬[(32 : UInt8)] = [10] := by decide
    rw [if_pos rfl, put, if_neg hnot, if_pos rfl]
    have hspace : (s.state cap).space width cap s.total.length =
        (if width < s.col + displayWidth s.word + 1 ∧ 0 < s.col then
          s.close (s.before ++ s.word ++ [32]) []
        else { s with
          before := s.before ++ s.word ++ [32], word := [],
          col := s.col + displayWidth s.word + 1 }).state cap := by
      unfold WrapState.space
      simp only [show (s.state cap).col = s.col from rfl,
        show (s.state cap).wordLen = displayWidth s.word from rfl]
      split
      · rw [← breakAt_state hplace, displayWidth_nil]
      · simp only [state, hplace, displayWidth_nil]
        rfl
    rw [hspace, List.length_append, List.length_singleton]
    rfl
  · have hwide : utf8DecodeCp c (tail ++ rest) = (tail.length + 1, (utf8DecodeCp c tail).2) :=
      utf8DecodeCp_append hc rest
    have hcolumns : cpDisplayWidth (utf8DecodeCp c tail).2 = displayWidth (c :: tail) := by
      rw [displayWidth_char hc]
    rw [if_neg hspace, put, if_neg fun h => hnewline (List.cons.inj h).1,
      if_neg fun h => hspace (List.cons.inj h).1, ← codepoint_state h, hwide]
    simp only [Nat.add_sub_cancel, List.drop_left, List.length_append, List.length_cons, hcolumns]

/-- **The loop counts what the lines hold.** -/
theorem run_flatten {chars : List (List UInt8)} (hchars : ∀ cs ∈ chars, Utf8Char cs)
    (h : Utf8 s.word) :
    WrapState.run width cap chars.flatten s.total.length (s.state cap) =
      (chars.foldl (put · width) s).state cap := by
  induction chars generalizing s with
  | nil =>
    rw [List.flatten_nil, WrapState.run]
    rfl
  | cons cs chars ih =>
    obtain ⟨hc, hchars⟩ := List.forall_mem_cons.1 hchars
    rw [List.flatten_cons, run_append h hc, ih hchars (utf8_word_put h hc)]
    rfl

theorem total_foldl (chars : List (List UInt8)) :
    (chars.foldl (put · width) s).total = s.total ++ chars.flatten := by
  induction chars generalizing s with
  | nil => rw [List.flatten_nil, List.append_nil]; rfl
  | cons cs chars ih => rw [List.foldl_cons, ih, total_put, List.flatten_cons, List.append_assoc]

/-- No text. -/
def empty : Layout where
  closed := []
  before := []
  word := []
  col := 0

end Layout

/-- A text in characters. -/
theorem exists_chars {text : List UInt8} (h : Utf8 text) :
    ∃ chars : List (List UInt8), (∀ cs ∈ chars, Utf8Char cs) ∧ text = chars.flatten := by
  induction h with
  | nil => exact ⟨[], by simp, rfl⟩
  | @cons cs rest hc _ ih =>
    obtain ⟨chars, hchars, rfl⟩ := ih
    exact ⟨cs :: chars, List.forall_mem_cons.2 ⟨hc, hchars⟩, rfl⟩

/-- What the function gives are the lines of the layout, for every capacity. -/
theorem tuiChatWrap_flatten {chars : List (List UInt8)} (hchars : ∀ cs ∈ chars, Utf8Char cs)
    {width : Nat} (hwidth : 1 ≤ width) (cap : Nat) :
    tuiChatWrap chars.flatten width cap =
      ((chars.foldl (Layout.put · width) Layout.empty).starts.length,
        (chars.foldl (Layout.put · width) Layout.empty).starts.take cap) := by
  have hstart : WrapState.mk 1 (if 0 < cap then [0] else []) 0 0 0 = Layout.empty.state cap := by
    cases cap with
    | zero =>
      simp only [Layout.state, Layout.empty, displayWidth_nil]
      rfl
    | succ cap =>
      have htake : Layout.empty.starts.take (cap + 1) = [0] := by
        rw [List.take_of_length_le (by rw [Layout.length_starts]; exact Nat.le_add_left 1 cap)]
        rfl
      rw [if_pos (Nat.succ_pos cap), Layout.state, htake]
      simp only [Layout.empty, displayWidth_nil]
      rfl
  rw [tuiChatWrap, if_neg (Nat.not_lt.2 hwidth), hstart]
  have hrun := @Layout.run_flatten Layout.empty width cap chars hchars .nil
  rw [show Layout.empty.total.length = 0 from rfl] at hrun
  simp only [hrun, Layout.length_starts]
  rfl

/-! ## What is seen of a line -/

/-- A space or a newline. -/
def isGap (c : UInt8) : Bool := c == 10 || c == 32

/-- A line without the spaces at its end. -/
def seen (line : List UInt8) : List UInt8 := line.rdropWhile isGap

/-- A single codepoint wider than the width, with codepoints without columns around it. -/
def Lone (width : Nat) (line : List UInt8) : Prop :=
  ∃ front cs back, line = front ++ cs ++ back ∧ Utf8 front ∧ displayWidth front = 0 ∧
    Utf8Char cs ∧ width < displayWidth cs ∧ Utf8 back ∧ displayWidth back = 0

/-- The line is within the width, or its only codepoint with columns is wider. -/
def Fits (width : Nat) (line : List UInt8) : Prop :=
  displayWidth (seen line) ≤ width ∨ Lone width (seen line)

section Lines

variable {width : Nat} {line word rest cs : List UInt8} {c : UInt8}

theorem seen_concat (h : isGap c = true) : seen (line ++ [c]) = seen line :=
  List.rdropWhile_concat_pos _ _ _ h

/-- What has no spaces is seen, and what is seen behind it. -/
theorem seen_append (h : ∀ c ∈ word, isGap c = false) :
    seen (word ++ rest) = word ++ seen rest := by
  induction rest using List.reverseRecOn with
  | nil =>
    rw [List.append_nil, seen, seen, List.rdropWhile_nil, List.append_nil]
    exact List.rdropWhile_eq_self_iff.2 fun hne => by rw [h _ (List.getLast_mem hne)]; decide
  | append_singleton rest c ih =>
    rw [← List.append_assoc]
    by_cases hc : isGap c = true
    · rw [seen_concat hc, seen_concat hc, ih]
    · rw [seen, seen, List.rdropWhile_concat_neg _ _ _ hc,
        List.rdropWhile_concat_neg _ _ _ hc, List.append_assoc]

theorem isGap_lt (h : isGap c = true) : c < 0x80 := by
  rw [isGap, Bool.or_eq_true, beq_iff_eq, beq_iff_eq] at h
  rcases h with rfl | rfl <;> decide

/-- What is seen has no more columns. -/
theorem displayWidth_seen_le (h : Utf8 line) :
    displayWidth (seen line) ≤ displayWidth line := by
  induction line using List.reverseRecOn with
  | nil => exact Nat.le_refl _
  | append_singleton line c ih =>
    by_cases hc : isGap c = true
    · have hline : Utf8 line := ((utf8_append_cons_iff (isGap_lt hc)).1 h).1
      rw [seen_concat hc, displayWidth_append hline]
      exact Nat.le_add_right_of_le (ih hline)
    · rw [seen, List.rdropWhile_concat_neg _ _ _ hc]

theorem fits_of_le (h : Utf8 line) (hle : displayWidth line ≤ width) : Fits width line :=
  .inl ((displayWidth_seen_le h).trans hle)

theorem fits_nil : Fits width [] := fits_of_le .nil (by rw [displayWidth_nil]; exact Nat.zero_le _)

theorem fits_concat_iff (h : isGap c = true) : Fits width (line ++ [c]) ↔ Fits width line := by
  rw [Fits, Fits, seen_concat h]

/-- A lone codepoint is no more than two columns wide. -/
theorem Lone.displayWidth_le (h : Lone width line) : displayWidth line ≤ 2 := by
  obtain ⟨front, cs, back, rfl, hfront, hzero, hc, -, hback, hzero'⟩ := h
  obtain ⟨a, tail, rfl, -⟩ := hc.exists_cons
  rw [List.append_assoc, displayWidth_append hfront, displayWidth_char_append hc, hzero, hzero',
    displayWidth_char hc, cpDisplayWidth]
  split
  · decide
  split <;> decide

theorem Lone.fits (h : Lone width word) (hword : ∀ c ∈ word, isGap c = false) :
    Fits width word := by
  have hseen := @seen_append word [] hword
  rw [List.append_nil] at hseen
  refine .inr ?_
  rw [hseen, seen, List.rdropWhile_nil, List.append_nil]
  exact h

/-- A character that is no newline and no space has none of them. -/
theorem plain_of_ne (h : Utf8Char cs) (hnewline : cs ≠ [10]) (hspace : cs ≠ [32]) :
    ∀ c ∈ cs, isGap c = false := by
  refine fun c hmem => Bool.eq_false_iff.2 fun hgap => ?_
  have heq := h.eq_of_mem (isGap_lt hgap) hmem
  rw [isGap, Bool.or_eq_true, beq_iff_eq, beq_iff_eq] at hgap
  rcases hgap with rfl | rfl
  · exact hnewline heq
  · exact hspace heq

theorem displayWidth_newline : displayWidth [10] = 0 := by decide +kernel

theorem displayWidth_space : displayWidth [32] = 1 := by decide +kernel

end Lines

/-! ## The lines by each of the characters -/

/-- A codepoint that is wider than the width, behind others at the front of a line. -/
def Layout.Crowds (s : Layout) (width : Nat) (cs : List UInt8) : Prop :=
  width < displayWidth cs ∧ s.col = 0 ∧ 0 < displayWidth s.word

/-- What holds of the lines after any characters.  The columns of the last line are those in front
of the word, and the word has room behind them; or the word is a single codepoint wider than the
width. -/
structure Laid (width : Nat) (s : Layout) : Prop where
  closed : ∀ line ∈ s.closed, line ≠ [] ∧ Utf8 line ∧ Fits width line
  before : Utf8 s.before
  gap : s.before = [] ∨ 0 < displayWidth s.before
  word : Utf8 s.word
  plain : ∀ c ∈ s.word, isGap c = false
  newline : ∀ i, s.total[i]? = some 10 → i + 1 ∈ s.starts
  room : s.col = displayWidth s.before ∧ Fits width s.before ∧
      (s.word = [] ∨ s.col + displayWidth s.word ≤ width) ∨
    s.before = [] ∧ Lone width s.word ∧ (s.col = 0 ∨ s.col = displayWidth s.word)

namespace Laid

variable {width : Nat} {s : Layout} {cs line word : List UInt8}

/-- The last line fits as far as it is there. -/
theorem fits (h : Laid width s) : Fits width (s.before ++ s.word) := by
  rcases h.room with ⟨hcol, hfits, hword | hroom⟩ | ⟨hbefore, hlone, -⟩
  · rw [hword, List.append_nil]
    exact hfits
  · refine fits_of_le (h.before.append h.word) ?_
    rw [displayWidth_append h.before, ← hcol]
    exact hroom
  · rw [hbefore]
    exact hlone.fits h.plain

/-- A line that is closed. -/
theorem closed_close (h : Laid width s) (hne : line ≠ []) (hline : Utf8 line)
    (hfits : Fits width line) :
    ∀ line' ∈ (s.close line word).closed, line' ≠ [] ∧ Utf8 line' ∧ Fits width line' := by
  intro line' hmem
  rcases List.mem_append.1 hmem with hmem | hmem
  · exact h.closed line' hmem
  · rw [List.mem_singleton.1 hmem]
    exact ⟨hne, hline, hfits⟩

/-- Lines that have begun stay. -/
theorem mem_starts_put {a : Nat} (ha : a ∈ s.starts) : a ∈ (s.put width cs).starts := by
  have hclose (line word : List UInt8) : a ∈ (s.close line word).starts := by
    rw [Layout.starts_close]
    exact List.mem_append_left _ ha
  unfold Layout.put Layout.putGlyph
  repeat' split
  all_goals first | exact hclose _ _ | exact ha

/-- A line begins behind every newline. -/
theorem newline_put (h : Laid width s) (hc : Utf8Char cs) (i : Nat)
    (hi : (s.put width cs).total[i]? = some 10) : i + 1 ∈ (s.put width cs).starts := by
  rw [Layout.total_put] at hi
  rcases Nat.lt_or_ge i s.total.length with hlt | hge
  · rw [List.getElem?_append_left hlt] at hi
    exact mem_starts_put (h.newline i hi)
  · rw [List.getElem?_append_right hge] at hi
    obtain rfl : cs = [10] := hc.eq_of_mem (by decide) (List.mem_of_getElem? hi)
    have hlast : i - s.total.length < 1 := (List.getElem?_eq_some_iff.1 hi).1
    have hplace : i + 1 = (s.closed.flatten ++ (s.before ++ s.word ++ [10])).length := by
      have hlength : s.total.length = (s.closed.flatten ++ (s.before ++ s.word)).length := by
        rw [Layout.total, List.append_assoc]
      rw [← List.append_assoc, List.length_append, ← hlength, List.length_singleton]
      omega
    rw [Layout.put, if_pos rfl, Layout.starts_close, ← hplace]
    exact List.mem_append_right _ (List.mem_singleton_self _)

/-- What a newline has to do is done. -/
def Broken (s : Layout) : Prop := ∀ i, s.total[i]? = some 10 → i + 1 ∈ s.starts

/-- A line that ends with a newline or with a space that has no room. -/
theorem close_gap (h : Laid width s) {c : UInt8} (hgap : isGap c = true)
    (hnewline : Broken (s.close (s.before ++ s.word ++ [c]) [])) :
    Laid width (s.close (s.before ++ s.word ++ [c]) []) where
  closed := h.closed_close (by simp)
    ((h.before.append h.word).append (utf8_singleton (isGap_lt hgap)))
    ((fits_concat_iff hgap).2 h.fits)
  before := .nil
  gap := .inl rfl
  word := .nil
  plain := by simp [Layout.close]
  newline := hnewline
  room := .inl ⟨displayWidth_nil.symm, fits_nil, .inl rfl⟩

/-- A space behind the word. -/
theorem space (h : Laid width s)
    (hroom : ¬(width < s.col + displayWidth s.word + 1 ∧ 0 < s.col))
    (hnewline : Broken { s with
      before := s.before ++ s.word ++ [32], word := [], col := s.col + displayWidth s.word + 1 }) :
    Laid width { s with
      before := s.before ++ s.word ++ [32], word := [],
      col := s.col + displayWidth s.word + 1 } := by
  have hline : Utf8 (s.before ++ s.word) := h.before.append h.word
  have hspace : displayWidth (s.before ++ s.word ++ [32]) =
      displayWidth s.before + displayWidth s.word + 1 := by
    rw [displayWidth_append hline, displayWidth_append h.before, displayWidth_space]
  have hcol : s.col = displayWidth s.before := by
    rcases h.room with ⟨hcol, -⟩ |
      ⟨hbefore, ⟨front, cs, back, hword, hfront, -, hc, hwide, -⟩, hcol⟩
    · exact hcol
    · -- a word that is too wide has its columns counted twice, and no space behind it on its line
      have hpos : width < displayWidth s.word := by
        rw [hword, List.append_assoc, displayWidth_append hfront, displayWidth_char_append hc]
        omega
      rw [hbefore, displayWidth_nil]
      omega
  exact {
    closed := h.closed
    before := hline.append (utf8_singleton (by decide))
    gap := .inr (by rw [hspace]; exact Nat.succ_pos _)
    word := .nil
    plain := by simp
    newline := hnewline
    room := .inl ⟨by rw [hspace, hcol], (fits_concat_iff (by decide)).2 h.fits, .inl rfl⟩ }

/-- The word moves to a line of its own. -/
theorem close_before (h : Laid width s) (hc : Utf8Char cs) (hplain : ∀ c ∈ cs, isGap c = false)
    (hcol : 0 < s.col) (hword : displayWidth s.word + displayWidth cs ≤ width)
    (hnewline : Broken (s.close s.before (s.word ++ cs))) :
    Laid width (s.close s.before (s.word ++ cs)) := by
  have hordinary : s.col = displayWidth s.before ∧ Fits width s.before := by
    rcases h.room with ⟨hcol, hfits, -⟩ | ⟨-, ⟨front, cs, back, heq, hfront, -, hc, hwide, -⟩, -⟩
    · exact ⟨hcol, hfits⟩
    · rw [heq, List.append_assoc, displayWidth_append hfront, displayWidth_char_append hc] at hword
      omega
  have hne : s.before ≠ [] := by
    intro hnil
    rw [hordinary.1, hnil, displayWidth_nil] at hcol
    exact Nat.lt_irrefl _ hcol
  exact {
    closed := h.closed_close hne h.before hordinary.2
    before := .nil
    gap := .inl rfl
    word := h.word.append hc.utf8
    plain := fun c hmem => (List.mem_append.1 hmem).elim (h.plain c) (hplain c)
    newline := hnewline
    room := .inl ⟨displayWidth_nil.symm, fits_nil, .inr (by
      rw [Layout.close, displayWidth_append h.word, Nat.zero_add]
      exact hword)⟩ }

/-- The word is broken in front of the codepoint. -/
theorem close_word (h : Laid width s) (hc : Utf8Char cs) (hplain : ∀ c ∈ cs, isGap c = false)
    (hwide : width < displayWidth s.word + displayWidth cs)
    (hplace : ¬(s.col = 0 ∧ width < displayWidth cs))
    (hnewline : Broken (s.close (s.before ++ s.word) cs)) :
    Laid width (s.close (s.before ++ s.word) cs) := by
  have hne : s.before ++ s.word ≠ [] := by
    intro hnil
    obtain ⟨hbefore, hword⟩ := List.append_eq_nil_iff.1 hnil
    rw [hword, displayWidth_nil] at hwide
    rcases h.room with ⟨hcol, -⟩ | ⟨-, -, hcol⟩
    · rw [hbefore, displayWidth_nil] at hcol
      omega
    · rw [hword, displayWidth_nil] at hcol
      omega
  refine {
    closed := h.closed_close hne (h.before.append h.word) h.fits
    before := .nil
    gap := .inl rfl
    word := hc.utf8
    plain := hplain
    newline := hnewline
    room := ?_ }
  by_cases hroom : displayWidth cs ≤ width
  · exact .inl ⟨displayWidth_nil.symm, fits_nil, .inr (by
      rw [Layout.close, Nat.zero_add]
      exact hroom)⟩
  · exact .inr ⟨rfl, ⟨[], cs, [], (List.append_nil cs).symm, .nil, displayWidth_nil, hc,
      Nat.lt_of_not_le hroom, .nil, displayWidth_nil⟩, .inl rfl⟩

/-- The codepoint has room behind the word. -/
theorem stay (h : Laid width s) (hc : Utf8Char cs) (hplain : ∀ c ∈ cs, isGap c = false)
    (hroom : ¬ width < s.col + (displayWidth s.word + displayWidth cs))
    (hnewline : Broken { s with word := s.word ++ cs }) :
    Laid width { s with word := s.word ++ cs } := by
  have hword : displayWidth (s.word ++ cs) = displayWidth s.word + displayWidth cs :=
    displayWidth_append h.word cs
  exact {
    closed := h.closed
    before := h.before
    gap := h.gap
    word := h.word.append hc.utf8
    plain := fun c hmem => (List.mem_append.1 hmem).elim (h.plain c) (hplain c)
    newline := hnewline
    room := by
      rcases h.room with ⟨hcol, hfits, -⟩ |
        ⟨-, ⟨front, cs', back, heq, hfront, -, hc', hwide, -⟩, -⟩
      · refine .inl ⟨hcol, hfits, .inr ?_⟩
        rw [hword]
        exact Nat.le_of_not_lt hroom
      · rw [heq, List.append_assoc, displayWidth_append hfront,
          displayWidth_char_append hc'] at hroom
        omega }

/-- Nothing stands in front of the word where the columns are zero. -/
theorem before_eq_nil (h : Laid width s) (hcol : s.col = 0) : s.before = [] := by
  rcases h.room with ⟨hsum, -⟩ | ⟨hbefore, -⟩
  · rw [hcol] at hsum
    exact h.gap.resolve_right (by rw [← hsum]; exact Nat.lt_irrefl 0)
  · exact hbefore

/-- A codepoint that is wider than the width at the front of a line. -/
theorem alone (h : Laid width s) (hc : Utf8Char cs) (hplain : ∀ c ∈ cs, isGap c = false)
    (hcol : s.col = 0) (hwide : width < displayWidth cs) (hzero : displayWidth s.word = 0)
    (hnewline : Broken { s with
      word := s.word ++ cs, col := displayWidth s.word + displayWidth cs }) :
    Laid width { s with word := s.word ++ cs, col := displayWidth s.word + displayWidth cs } where
  closed := h.closed
  before := h.before
  gap := h.gap
  word := h.word.append hc.utf8
  plain c hmem := (List.mem_append.1 hmem).elim (h.plain c) (hplain c)
  newline := hnewline
  room := .inr ⟨h.before_eq_nil hcol, ⟨s.word, cs, [], (List.append_nil _).symm, h.word, hzero, hc,
    hwide, .nil, displayWidth_nil⟩, .inr (displayWidth_append h.word cs).symm⟩

/-- **One more character**, unless it is wider than the width and put behind others. -/
theorem put (h : Laid width s) (hc : Utf8Char cs) (huncrowded : ¬ s.Crowds width cs) :
    Laid width (s.put width cs) := by
  have hbroken : Broken (s.put width cs) := h.newline_put hc
  by_cases hnewline : cs = [10]
  · rw [Layout.put, if_pos hnewline] at hbroken ⊢
    exact h.close_gap (by decide) hbroken
  by_cases hspace : cs = [32]
  · rw [Layout.put, if_neg hnewline, if_pos hspace] at hbroken ⊢
    split at hbroken
    · next hfull =>
      rw [if_pos hfull]
      exact h.close_gap (by decide) hbroken
    · next hroom =>
      rw [if_neg hroom]
      exact h.space hroom hbroken
  have hplain := plain_of_ne hc hnewline hspace
  rw [Layout.put, if_neg hnewline, if_neg hspace, Layout.putGlyph] at hbroken ⊢
  split at hbroken
  · next hfull =>
    rw [if_pos hfull]
    split at hbroken
    · next hmove =>
      rw [if_pos hmove]
      exact h.close_before hc hplain hmove.1 hmove.2 hbroken
    · next hmove =>
      rw [if_neg hmove]
      split at hbroken
      · next hbreak =>
        rw [if_pos hbreak]
        exact h.close_word hc hplain hbreak.1 hbreak.2 hbroken
      · next hbreak =>
        rw [if_neg hbreak]
        have hcol : s.col = 0 := by omega
        have hwide : width < displayWidth cs := by omega
        rw [if_pos hcol] at hbroken ⊢
        have hzero : displayWidth s.word = 0 :=
          Nat.eq_zero_of_not_pos fun hpos => huncrowded ⟨hwide, hcol, hpos⟩
        exact h.alone hc hplain hcol hwide hzero hbroken
  · next hroom =>
    rw [if_neg hroom]
    exact h.stay hc hplain hroom hbroken

theorem empty : Laid width .empty where
  closed := by simp [Layout.empty]
  before := .nil
  gap := .inl rfl
  word := .nil
  plain := by simp [Layout.empty]
  newline := by simp [Layout.empty, Layout.total]
  room := .inl ⟨displayWidth_nil.symm, fits_nil, .inl rfl⟩

end Laid

/-! ## What a wrapped text is -/

/-- The `k`th line, from its start to the next one or to the end. -/
def lineAt (text : List UInt8) (starts : List Nat) (k : Nat) : List UInt8 :=
  (text.take (starts.getD (k + 1) text.length)).drop (starts.getD k 0)

/-- What the starts of the lines have to be. -/
structure GoodStarts (text : List UInt8) (width : Nat) (starts : List Nat) : Prop where
  first : starts[0]? = some 0
  increasing : starts.Pairwise (· < ·)
  aligned : ∀ start ∈ starts, start ≤ text.length ∧ Utf8 (text.take start)
  newline : ∀ i, text[i]? = some 10 → i + 1 ∈ starts
  fits : ∀ k < starts.length, Fits width (lineAt text starts k)

/-- There are such starts, and every capacity gives their number and the first of them. -/
def WrapsRight (text : List UInt8) (width : Nat) : Prop :=
  ∃ starts, (∀ cap, tuiChatWrap text width cap = (starts.length, starts.take cap)) ∧
    GoodStarts text width starts

section Offsets

variable {lines : List (List UInt8)} {k : Nat}

theorem getD_offsets (h : k < lines.length) (d : Nat) :
    (offsets lines).getD k d = (lines.take k).flatten.length := by
  rw [List.getD_eq_getElem?_getD, offsets, List.getElem?_map, List.getElem?_range h]
  rfl

/-- What stands in front of a later place is longer. -/
theorem length_flatten_take_le {j : Nat} (h : j ≤ k) :
    (lines.take j).flatten.length ≤ (lines.take k).flatten.length := by
  obtain ⟨behind, hbehind⟩ := List.take_prefix_take_left (l := lines) h
  rw [← hbehind, List.flatten_append, List.length_append]
  exact Nat.le_add_right _ _

/-- What stands in front of a line. -/
theorem take_offset (k : Nat) :
    lines.flatten.take (lines.take k).flatten.length = (lines.take k).flatten := by
  have hsplit : lines.flatten = (lines.take k).flatten ++ (lines.drop k).flatten := by
    rw [← List.flatten_append, List.take_append_drop]
  rw [hsplit, List.take_left]

/-- The lines that the starts mark. -/
theorem lineAt_offsets (h : k < lines.length) :
    lineAt lines.flatten (offsets lines) k = lines[k] := by
  have hnext : (offsets lines).getD (k + 1) lines.flatten.length =
      (lines.take (k + 1)).flatten.length := by
    rcases Nat.lt_or_ge (k + 1) lines.length with hlt | hge
    · exact getD_offsets hlt _
    · rw [List.getD_eq_getElem?_getD, List.getElem?_eq_none (by rw [length_offsets]; exact hge),
        List.take_of_length_le hge]
      rfl
  rw [lineAt, hnext, getD_offsets h, take_offset, List.take_succ_eq_append_getElem h,
    List.flatten_append, List.drop_left, List.flatten_singleton]

theorem utf8_flatten (h : ∀ line ∈ lines, Utf8 line) : Utf8 lines.flatten := by
  induction lines with
  | nil => exact .nil
  | cons line lines ih =>
    obtain ⟨hline, hlines⟩ := List.forall_mem_cons.1 h
    exact hline.append (ih hlines)

end Offsets

namespace Layout

/-- All lines. -/
def lines (s : Layout) : List (List UInt8) := s.closed ++ [s.before ++ s.word]

theorem flatten_lines (s : Layout) : s.lines.flatten = s.total := by
  rw [lines, List.flatten_append, List.flatten_singleton, total, List.append_assoc]

theorem starts_eq (s : Layout) : s.starts = offsets s.lines := by
  rw [lines, offsets_concat, starts]

end Layout

/-- The starts mark the lines of the layout. -/
theorem goodStarts_fits {s : Layout} {width : Nat} (h : GoodStarts s.total width s.starts) :
    ∀ line ∈ s.lines, Fits width line := by
  intro line hmem
  obtain ⟨k, hk, rfl⟩ := List.getElem_of_mem hmem
  have hfits := h.fits k (by rw [s.starts_eq, length_offsets]; exact hk)
  rw [s.starts_eq, ← s.flatten_lines, lineAt_offsets hk] at hfits
  exact hfits

/-- The lines of a layout as it has to be. -/
theorem Laid.goodStarts {s : Layout} {width : Nat} (h : Laid width s) :
    GoodStarts s.total width s.starts := by
  have hutf8 : ∀ line ∈ s.lines, Utf8 line := by
    intro line hmem
    rcases List.mem_append.1 hmem with hmem | hmem
    · exact (h.closed line hmem).2.1
    · rw [List.mem_singleton.1 hmem]
      exact h.before.append h.word
  have hfits : ∀ line ∈ s.lines, Fits width line := by
    intro line hmem
    rcases List.mem_append.1 hmem with hmem | hmem
    · exact (h.closed line hmem).2.2
    · rw [List.mem_singleton.1 hmem]
      exact h.fits
  rw [s.starts_eq, ← s.flatten_lines]
  refine ⟨?_, ?_, ?_, ?_, ?_⟩
  · have hpos : 0 < s.lines.length := by
      rw [Layout.lines, List.length_append]
      exact Nat.succ_pos _
    rw [offsets, List.getElem?_map, List.getElem?_range hpos]
    rfl
  · refine List.pairwise_map.2 (List.pairwise_lt_range.imp_of_mem fun {j k} _ hk hlt => ?_)
    -- a line that another one follows is not empty
    have hlength : s.lines.length = s.closed.length + 1 := List.length_append
    have hk' := List.mem_range.1 hk
    have hclosed : j < s.closed.length := by omega
    have hj : j < s.lines.length := by omega
    have hline : s.lines[j] = s.closed[j] := List.getElem_append_left hclosed
    have hpos : 0 < s.lines[j].length := by
      rw [hline]
      exact List.length_pos_iff.2 (h.closed _ (List.getElem_mem hclosed)).1
    have hle := @length_flatten_take_le s.lines k (j + 1) hlt
    rw [List.take_succ_eq_append_getElem hj, List.flatten_append, List.flatten_singleton,
      List.length_append] at hle
    omega
  · intro start hmem
    obtain ⟨k, hk, rfl⟩ := List.mem_map.1 hmem
    rw [take_offset]
    refine ⟨?_, utf8_flatten fun line hline => hutf8 line (List.mem_of_mem_take hline)⟩
    have hk' := Nat.le_of_lt (List.mem_range.1 hk)
    have hle := @length_flatten_take_le s.lines s.lines.length k hk'
    rwa [List.take_length] at hle
  · rw [s.flatten_lines, ← s.starts_eq]
    exact h.newline
  · intro k hk
    rw [length_offsets] at hk
    rw [lineAt_offsets hk]
    exact hfits _ (List.getElem_mem hk)

/-! ## Crowded lines -/

/-- The loop of `tui_chat_wrap` at the end of a text. -/
def stateAfter (width : Nat) (text : List UInt8) : WrapState :=
  WrapState.run width 0 text 0 { lines := 1, starts := [], col := 0, wordStart := 0, wordLen := 0 }

/-- No codepoint that is wider than the width comes where the line has no columns in front of the
word, and the word has some. -/
def Uncrowded (text : List UInt8) (width : Nat) : Prop :=
  ∀ front cs back, text = front ++ cs ++ back → Utf8 front → Utf8Char cs →
    ¬(width < displayWidth cs ∧ (stateAfter width front).col = 0 ∧
      0 < (stateAfter width front).wordLen)

section Crowded

variable {width : Nat} {s t : Layout} {cs word : List UInt8} {closed : List (List UInt8)}

/-- The loop behind some characters. -/
theorem stateAfter_flatten {chars : List (List UInt8)} (hchars : ∀ cs ∈ chars, Utf8Char cs) :
    stateAfter width chars.flatten = (chars.foldl (Layout.put · width) .empty).state 0 := by
  have hrun := @Layout.run_flatten Layout.empty width 0 chars hchars .nil
  rw [← hrun, stateAfter]
  simp only [Layout.state, Layout.empty, displayWidth_nil, List.take_zero]
  rfl

/-- The lines are as they have to be, or there is a first codepoint that crowds others. -/
theorem laid_or_crowds {chars : List (List UInt8)} (hchars : ∀ cs ∈ chars, Utf8Char cs)
    (h : Laid width s) :
    (Laid width (chars.foldl (Layout.put · width) s) ∧ ∀ front cs back,
      chars = front ++ cs :: back → ¬(front.foldl (Layout.put · width) s).Crowds width cs) ∨
    ∃ front cs back, chars = front ++ cs :: back ∧
      Laid width (front.foldl (Layout.put · width) s) ∧
      (front.foldl (Layout.put · width) s).Crowds width cs := by
  induction chars generalizing s with
  | nil => exact .inl ⟨h, fun front cs back heq => absurd heq (by simp)⟩
  | cons cs chars ih =>
    obtain ⟨hc, hchars⟩ := List.forall_mem_cons.1 hchars
    by_cases hcrowds : s.Crowds width cs
    · exact .inr ⟨[], cs, chars, rfl, h, hcrowds⟩
    rcases ih hchars (h.put hc hcrowds) with ⟨hlaid, huncrowded⟩ |
      ⟨front, cs', back, rfl, hlaid, hcrowds'⟩
    · refine .inl ⟨hlaid, fun front cs' back heq => ?_⟩
      cases front with
      | nil =>
        rw [← (List.cons.inj heq).1]
        exact hcrowds
      | cons cs'' front =>
        obtain ⟨rfl, htail⟩ := List.cons.inj heq
        exact huncrowded front cs' back htail
    · exact .inr ⟨cs :: front, cs', back, rfl, hlaid, hcrowds'⟩

/-- A line begins with a word that is wider than the width: the last one, with the word or in front
of it, or one that is closed. -/
inductive Crowded (closed : List (List UInt8)) (word : List UInt8) (t : Layout) : Prop
  | word (hclosed : t.closed = closed) (hbefore : t.before = []) (hword : word <+: t.word)
  | before (hclosed : t.closed = closed) (hbefore : word <+: t.before)
  | closed (line : List UInt8) (more : List (List UInt8))
      (hclosed : t.closed = closed ++ line :: more) (hline : word <+: line)

/-- A line that is closed with the word on it. -/
theorem Crowded.close (h : Crowded closed word t) {rest next : List UInt8} :
    Crowded closed word (t.close (t.before ++ t.word ++ rest) next) := by
  have hsingle (heq : t.closed = closed) (hpre : word <+: t.before ++ t.word) :
      Crowded closed word (t.close (t.before ++ t.word ++ rest) next) :=
    .closed _ [] (by rw [Layout.close, heq]) (hpre.trans (List.prefix_append _ _))
  cases h with
  | word hclosed hbefore hword =>
    refine hsingle hclosed ?_
    rw [hbefore]
    exact hword
  | before hclosed hbefore => exact hsingle hclosed (hbefore.trans (List.prefix_append _ _))
  | closed line more hclosed hline =>
    refine .closed line (more ++ [t.before ++ t.word ++ rest]) ?_ hline
    rw [Layout.close, hclosed, List.append_assoc, List.cons_append]

/-- The columns of a word that begins with another one. -/
theorem displayWidth_le_of_begins {xs ys : List UInt8} (h : xs <+: ys) (hx : Utf8 xs) :
    displayWidth xs ≤ displayWidth ys := by
  obtain ⟨rest, rfl⟩ := h
  rw [displayWidth_append hx]
  exact Nat.le_add_right _ _

/-- The line stays crowded. -/
theorem Crowded.put (h : Crowded closed word t) (hword : Utf8 word)
    (hwide : width < displayWidth word) : Crowded closed word (t.put width cs) := by
  have hstay (col : Nat) : Crowded closed word { t with word := t.word ++ cs, col := col } := by
    cases h with
    | word hclosed hbefore hpre =>
      exact .word hclosed hbefore (hpre.trans (List.prefix_append _ _))
    | before hclosed hbefore => exact .before hclosed hbefore
    | closed line more hclosed hline => exact .closed line more hclosed hline
  unfold Layout.put Layout.putGlyph
  split
  · exact h.close
  split
  · split
    · exact h.close
    · cases h with
      | word hclosed hbefore hpre =>
        refine .before hclosed ?_
        rw [hbefore]
        exact hpre.trans (List.prefix_append _ _)
      | before hclosed hbefore =>
        refine .before hclosed (hbefore.trans ?_)
        rw [List.append_assoc]
        exact List.prefix_append _ _
      | closed line more hclosed hline => exact .closed line more hclosed hline
  split
  · split
    · next hmove =>
      -- the word itself is too wide to move
      cases h with
      | word hclosed hbefore hpre =>
        have hle := displayWidth_le_of_begins hpre hword
        omega
      | before hclosed hbefore =>
        exact .closed t.before [] (by rw [Layout.close, hclosed]) hbefore
      | closed line more hclosed hline =>
        refine .closed line (more ++ [t.before]) ?_ hline
        rw [Layout.close, hclosed, List.append_assoc, List.cons_append]
    split
    · have hclose := @Crowded.close t word closed h [] cs
      rwa [List.append_nil] at hclose
    split
    · exact hstay _
    · exact hstay _
  · exact hstay _

/-- Such a line does not fit. -/
theorem Crowded.exists_line (h : Crowded closed word t) :
    ∃ line ∈ t.lines, word <+: line := by
  cases h with
  | word hclosed hbefore hpre =>
    refine ⟨t.before ++ t.word, List.mem_append_right _ (List.mem_singleton_self _), ?_⟩
    rw [hbefore]
    exact hpre
  | before hclosed hbefore =>
    exact ⟨t.before ++ t.word, List.mem_append_right _ (List.mem_singleton_self _),
      hbefore.trans (List.prefix_append _ _)⟩
  | closed line more hclosed hline =>
    refine ⟨line, List.mem_append_left _ ?_, hline⟩
    rw [hclosed]
    exact List.mem_append_right _ List.mem_cons_self

/-- A word of more than two columns and more than the width is on no line that fits. -/
theorem not_fits_of_begins {line : List UInt8} (hword : Utf8 word)
    (hplain : ∀ c ∈ word, isGap c = false) (hwide : width < displayWidth word)
    (htwo : 2 < displayWidth word) (h : word <+: line) : ¬ Fits width line := by
  obtain ⟨rest, rfl⟩ := h
  rw [Fits, seen_append hplain]
  have hle : displayWidth word ≤ displayWidth (word ++ seen rest) := by
    rw [displayWidth_append hword]
    exact Nat.le_add_right _ _
  rintro (hfits | hlone)
  · omega
  · have htwo' := hlone.displayWidth_le
    omega

theorem Crowded.foldl (h : Crowded closed word t) (hword : Utf8 word)
    (hwide : width < displayWidth word) (chars : List (List UInt8)) :
    Crowded closed word (chars.foldl (Layout.put · width) t) := by
  induction chars generalizing t with
  | nil => exact h
  | cons cs chars ih => exact ih (h.put hword hwide)

/-- Where a codepoint has crowded others, the starts are not as they have to be. -/
theorem not_goodStarts_of_crowds {back : List (List UInt8)} (hwidth : 1 ≤ width) (h : Laid width s)
    (hc : Utf8Char cs) (hcrowds : s.Crowds width cs) :
    ¬ GoodStarts ((cs :: back).foldl (Layout.put · width) s).total width
      ((cs :: back).foldl (Layout.put · width) s).starts := by
  obtain ⟨hwide, hcol, hpos⟩ := hcrowds
  have hnewline : cs ≠ [10] := by
    rintro rfl
    rw [displayWidth_newline] at hwide
    omega
  have hspace : cs ≠ [32] := by
    rintro rfl
    rw [displayWidth_space] at hwide
    omega
  have hput : s.put width cs =
      { s with word := s.word ++ cs, col := displayWidth s.word + displayWidth cs } := by
    rw [Layout.put, if_neg hnewline, if_neg hspace, Layout.putGlyph, if_pos (by omega),
      if_neg (by omega), if_neg (by omega), if_pos hcol]
  have hword : Utf8 (s.word ++ cs) := h.word.append hc.utf8
  have hcolumns : displayWidth (s.word ++ cs) = displayWidth s.word + displayWidth cs :=
    displayWidth_append h.word cs
  have hcrowded : Crowded s.closed (s.word ++ cs) (s.put width cs) := by
    rw [hput]
    exact .word rfl (h.before_eq_nil hcol) (List.prefix_refl _)
  have hwide' : width < displayWidth (s.word ++ cs) := by omega
  have htwo : 2 < displayWidth (s.word ++ cs) := by omega
  obtain ⟨line, hline, hpre⟩ := (hcrowded.foldl hword hwide' back).exists_line
  refine fun hgood => not_fits_of_begins hword ?_ hwide' htwo hpre
    (goodStarts_fits hgood line hline)
  exact fun c hmem => (List.mem_append.1 hmem).elim (h.plain c) (plain_of_ne hc hnewline hspace c)

/-- The starts that every capacity gives are those of the layout. -/
theorem wrapsRight_flatten {chars : List (List UInt8)} (hchars : ∀ cs ∈ chars, Utf8Char cs)
    (hwidth : 1 ≤ width) :
    WrapsRight chars.flatten width ↔
      GoodStarts (chars.foldl (Layout.put · width) .empty).total width
        (chars.foldl (Layout.put · width) .empty).starts := by
  have htotal : (chars.foldl (Layout.put · width) .empty).total = chars.flatten :=
    Layout.total_foldl chars
  rw [htotal]
  constructor
  · rintro ⟨starts, hstarts, hgood⟩
    have hlength : (chars.foldl (Layout.put · width) .empty).starts.length = starts.length := by
      have hzero := congrArg Prod.fst (hstarts 0)
      rwa [tuiChatWrap_flatten hchars hwidth] at hzero
    have heq : (chars.foldl (Layout.put · width) .empty).starts = starts := by
      have hall := congrArg Prod.snd (hstarts starts.length)
      rw [tuiChatWrap_flatten hchars hwidth, List.take_length, ← hlength] at hall
      exact List.take_length.symm.trans hall
    rw [heq]
    exact hgood
  · exact fun hgood => ⟨_, tuiChatWrap_flatten hchars hwidth, hgood⟩

/-- **Wrapping** is right just when no codepoint that is wider than the width is put behind others
at the front of a line. -/
theorem wrapsRight_iff {text : List UInt8} (htext : Utf8 text) (hwidth : 1 ≤ width) :
    WrapsRight text width ↔ Uncrowded text width := by
  constructor
  · rintro hright front cs back rfl hfront hc ⟨hwide, hcol, hpos⟩
    obtain ⟨pre, hpre, rfl⟩ := exists_chars hfront
    obtain ⟨post, hpost, rfl⟩ := exists_chars ((hfront.append hc.utf8).append_iff.1 htext)
    rw [stateAfter_flatten hpre] at hcol hpos
    have hchars : ∀ cs' ∈ pre ++ cs :: post, Utf8Char cs' :=
      List.forall_mem_append.2 ⟨hpre, List.forall_mem_cons.2 ⟨hc, hpost⟩⟩
    have htotal : pre.flatten ++ cs ++ post.flatten = (pre ++ cs :: post).flatten := by
      rw [List.flatten_append, List.flatten_cons, List.append_assoc]
    rw [htotal, wrapsRight_flatten hchars hwidth] at hright
    rcases laid_or_crowds hchars Laid.empty with ⟨-, huncrowded⟩ |
      ⟨front, cs', back, heq, hlaid, hcrowds⟩
    · exact huncrowded pre cs post rfl ⟨hwide, hcol, hpos⟩
    · have hmem : cs' ∈ front ++ cs' :: back := List.mem_append_right _ List.mem_cons_self
      have hc' : Utf8Char cs' := hchars cs' (by rw [heq]; exact hmem)
      rw [heq, List.foldl_append] at hright
      exact not_goodStarts_of_crowds hwidth hlaid hc' hcrowds hright
  · intro huncrowded
    obtain ⟨chars, hchars, rfl⟩ := exists_chars htext
    rw [wrapsRight_flatten hchars hwidth]
    rcases laid_or_crowds hchars Laid.empty with ⟨hlaid, -⟩ |
      ⟨front, cs, back, rfl, -, hwide, hcol, hpos⟩
    · exact hlaid.goodStarts
    · obtain ⟨hfront, hback⟩ := List.forall_mem_append.1 hchars
      have hc := (List.forall_mem_cons.1 hback).1
      have htotal : (front ++ cs :: back).flatten = front.flatten ++ cs ++ back.flatten := by
        rw [List.flatten_append, List.flatten_cons, List.append_assoc]
      refine absurd ⟨hwide, ?_, ?_⟩ (huncrowded front.flatten cs back.flatten htotal
        (utf8_flatten fun cs' hmem => (hfront cs' hmem).utf8) hc)
      · rw [stateAfter_flatten hfront]
        exact hcol
      · rw [stateAfter_flatten hfront]
        exact hpos

end Crowded

/-- With two columns there is always room. -/
theorem uncrowded_of_two_le {text : List UInt8} {width : Nat} (h : 2 ≤ width) : Uncrowded text width := by
  rintro front cs back - - hc ⟨hwide, -⟩
  obtain ⟨a, tail, rfl, -⟩ := hc.exists_cons
  rw [displayWidth_char hc, cpDisplayWidth] at hwide
  split at hwide
  · omega
  split at hwide <;> omega

/-- A letter in one column. -/
theorem wrapsRight_iff_letter : WrapsRight [97] 1 ↔ Uncrowded [97] 1 :=
  wrapsRight_iff (utf8_singleton (by decide)) (by decide)

/-- A letter and a character of two columns stay on one line of one column. -/
theorem not_wrapsRight_wide : Utf8 [0x61, 0xE4, 0xB8, 0x96] ∧
    ¬ WrapsRight [0x61, 0xE4, 0xB8, 0x96] 1 := by
  have htext : Utf8 [0x61, 0xE4, 0xB8, 0x96] :=
    .cons (.one (by decide)) (Utf8Char.three (by decide) (by decide) (by decide) (by decide)
      (by decide) (by decide)).utf8
  have hwrap : tuiChatWrap [0x61, 0xE4, 0xB8, 0x96] 1 1 = (1, [0]) := by decide +kernel
  refine ⟨htext, ?_⟩
  rintro ⟨starts, hstarts, hgood⟩
  have hone := (hstarts 1).symm.trans hwrap
  have hlength : starts.length = 1 := congrArg Prod.fst hone
  have hline : lineAt [0x61, 0xE4, 0xB8, 0x96] starts 0 = [0x61, 0xE4, 0xB8, 0x96] := by
    have hstart : starts = [0] :=
      (List.take_of_length_le (Nat.le_of_eq hlength)).symm.trans (congrArg Prod.snd hone)
    rw [hstart]
    rfl
  have hfits := hgood.fits 0 (by rw [hlength]; decide)
  rw [hline] at hfits
  exact not_fits_of_begins htext (by decide +kernel) (by decide +kernel) (by decide +kernel)
    (List.prefix_refl _) hfits

end EchoAi.Tui
