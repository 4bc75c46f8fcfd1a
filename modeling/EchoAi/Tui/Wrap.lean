import EchoAi.Bytes

/-!
# Wrapping text to columns

* `cpDisplayWidth`: the columns of a codepoint.
* `utf8DecodeCp`: the codepoint at the front of a text.
* `tuiChatWrap`: the places where the lines of a text begin.

Texts are the bytes of C strings.
-/

namespace EchoAi.Tui

/-- Codepoints without columns: controls, combining marks and variation selectors. -/
def isZeroWidth (cp : Nat) : Bool :=
  cp < 0x20 || (0x7f ≤ cp && cp < 0xa0) || (0x0300 ≤ cp && cp ≤ 0x036f) ||
    (0x1ab0 ≤ cp && cp ≤ 0x1aff) || (0x1dc0 ≤ cp && cp ≤ 0x1dff) ||
    (0x20d0 ≤ cp && cp ≤ 0x20ff) || (0xfe00 ≤ cp && cp ≤ 0xfe0f) || (0xfe20 ≤ cp && cp ≤ 0xfe2f)

/-- Codepoints of two columns. -/
def isWide (cp : Nat) : Bool :=
  (0x1100 ≤ cp && cp ≤ 0x115f) || (0x2e80 ≤ cp && cp ≤ 0x303e) || (0x3041 ≤ cp && cp ≤ 0x33ff) ||
    (0x3400 ≤ cp && cp ≤ 0x4dbf) || (0x4e00 ≤ cp && cp ≤ 0x9fff) ||
    (0xa000 ≤ cp && cp ≤ 0xa4cf) || (0xac00 ≤ cp && cp ≤ 0xd7a3) ||
    (0xf900 ≤ cp && cp ≤ 0xfaff) || (0xfe30 ≤ cp && cp ≤ 0xfe4f) ||
    (0xff00 ≤ cp && cp ≤ 0xff60) || (0xffe0 ≤ cp && cp ≤ 0xffe6) ||
    (0x1f300 ≤ cp && cp ≤ 0x1f64f) || (0x1f680 ≤ cp && cp ≤ 0x1f6ff) ||
    (0x1f900 ≤ cp && cp ≤ 0x1f9ff) || (0x20000 ≤ cp && cp ≤ 0x2fffd) ||
    (0x30000 ≤ cp && cp ≤ 0x3fffd)

/-- `cp_display_width` -/
def cpDisplayWidth (cp : Nat) : Nat := if isZeroWidth cp then 0 else if isWide cp then 2 else 1

/-- The bits of a lead byte, and the length of its sequence. -/
def leadByte (c : UInt8) : UInt8 × Nat :=
  if c &&& 0xe0 = 0xc0 then (c &&& 0x1f, 2)
  else if c &&& 0xf0 = 0xe0 then (c &&& 0x0f, 3)
  else (c &&& 0x07, 4)

/-- `utf8_decode_cp`: the length of the sequence at the front, and its codepoint. -/
def utf8DecodeCp (c : UInt8) (rest : List UInt8) : Nat × Nat :=
  if c < 0x80 then (1, c.toNat)
  else if rest.length + 1 < (leadByte c).2 then (1, c.toNat)
  else
    ((leadByte c).2, (rest.take ((leadByte c).2 - 1)).foldl
      (fun cp b => cp <<< 6 ||| (b &&& 0x3f).toNat) (leadByte c).1.toNat)

/-- Where the loop of `tui_chat_wrap` stands. -/
structure WrapState where
  lines : Nat
  starts : List Nat
  col : Nat
  wordStart : Nat
  wordLen : Nat
  deriving DecidableEq, Repr

namespace WrapState

variable (width cap : Nat)

/-- A line begins at a place. -/
def breakAt (start : Nat) (st : WrapState) : WrapState :=
  { st with
    lines := st.lines + 1
    starts := if st.lines < cap then st.starts ++ [start] else st.starts
    col := 0 }

/-- A newline at `i`. -/
def newline (i : Nat) (st : WrapState) : WrapState :=
  { st.breakAt cap (i + 1) with wordStart := i + 1, wordLen := 0 }

/-- A space at `i`. -/
def space (i : Nat) (st : WrapState) : WrapState :=
  if width < st.col + st.wordLen + 1 ∧ 0 < st.col then
    { st.breakAt cap (i + 1) with wordStart := i + 1, wordLen := 0 }
  else { st with col := st.col + st.wordLen + 1, wordStart := i + 1, wordLen := 0 }

/-- A codepoint of `cw` columns at `i`. -/
def codepoint (i cw : Nat) (st : WrapState) : WrapState :=
  let wordLen := st.wordLen + cw
  if width < st.col + wordLen then
    if 0 < st.col ∧ wordLen ≤ width then { st.breakAt cap st.wordStart with wordLen }
    else if width < wordLen ∧ ¬(st.col = 0 ∧ width < cw) then
      { st.breakAt cap i with wordStart := i, wordLen := cw }
    else if st.col = 0 then { st with col := wordLen, wordLen }
    else { st with wordLen }
  else { st with wordLen }

/-- The loop of `tui_chat_wrap`, with the place of what is left of the text. -/
def run (rest : List UInt8) (i : Nat) (st : WrapState) : WrapState :=
  match rest with
  | [] => st
  | c :: rest =>
    if c = 10 then run rest (i + 1) (st.newline cap i)
    else if c = 32 then run rest (i + 1) (st.space width cap i)
    else
      let n := (utf8DecodeCp c rest).1
      run (rest.drop (n - 1)) (i + n)
        (st.codepoint width cap i (cpDisplayWidth (utf8DecodeCp c rest).2))
termination_by rest.length
decreasing_by
  all_goals
    simp only [List.length_cons, List.length_drop]
    omega

end WrapState

/-- `tui_chat_wrap`: the number of lines, and the places of the first `cap` of them. -/
def tuiChatWrap (text : List UInt8) (width cap : Nat) : Nat × List Nat :=
  let st := WrapState.run (if width < 1 then 1 else width) cap text 0
    { lines := 1, starts := if 0 < cap then [0] else [], col := 0, wordStart := 0, wordLen := 0 }
  (st.lines, st.starts)

end EchoAi.Tui
