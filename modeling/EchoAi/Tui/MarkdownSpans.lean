import EchoAi.Tui.Markdown
import Mathlib.Data.Nat.Find
import Mathlib.Order.Monotone.Basic

/-!
# What inline markdown styles

The loop stops at the same places of a line whatever is open, so the delimiters of a line are known
from the line alone.

* `stop`, `Reads`: the places where the loop stops; `Opener`, `Closer`, `Opens`, `Closes`: the
  delimiters there.
* `holds_state`: the runs are what the tokens read so far show.
* `Faithful`: what is styled is delimited, code is literal, the runs are in order and only markup is
  left out.
* `faithful_iff_delimited`: when it is.
-/

namespace EchoAi.Markdown

section Line

variable (s : List UInt8)

/-! ## The places where the loop stops -/

/-- The code span that is open behind a token. -/
def Token.codeAfter (code : Option Nat) : Token → Option Nat
  | .ticks n =>
    match code with
    | some m => if n = m then none else some m
    | none => some n
  | _ => code

/-- From one place to the next one, with the length of the delimiter of the open code span. -/
def follow (place : Nat × Option Nat) : Nat × Option Nat :=
  if place.1 < s.length then
    ((tokenAt s place.2 place.1).next place.1, (tokenAt s place.2 place.1).codeAfter place.2)
  else place

/-- The place behind the first `k` tokens. -/
def stop (k : Nat) : Nat × Option Nat := (follow s)^[k] (0, none)

/-- The loop stops at a place of the line, in a code span or not. -/
def Reads (i : Nat) (code : Option Nat) : Prop := i < s.length ∧ ∃ k, stop s k = (i, code)

/-- A delimiter that may open, outside of code and links. -/
def Opener (ch : UInt8) (n i : Nat) : Prop :=
  Reads s i none ∧ tokenAt s none i = .delim ch n ∧ flankOk s i n ch false = true

/-- A delimiter that may close. -/
def Closer (ch : UInt8) (n i : Nat) : Prop :=
  Reads s i none ∧ tokenAt s none i = .delim ch n ∧ flankOk s i n ch true = true

/-- Backticks that open a code span. -/
def Opens (i n : Nat) : Prop := Reads s i none ∧ tokenAt s none i = .ticks n

/-- Backticks that close one. -/
def Closes (i n : Nat) : Prop := Reads s i (some n) ∧ tokenAt s (some n) i = .ticks n

/-- A code span from its opening backticks to the first ones that close it. -/
def CodeSpan (i n j : Nat) : Prop :=
  Opens s i n ∧ Closes s j n ∧ i < j ∧ ∀ k m, i < k → k < j → ¬Closes s k m

end Line

section Stops

variable {s : List UInt8} {k l i j n m p : Nat} {code code' : Option Nat}

theorem stop_succ (s : List UInt8) (k : Nat) : stop s (k + 1) = follow s (stop s k) :=
  Function.iterate_succ_apply' _ _ _

theorem stop_succ_of_lt (h : (stop s k).1 < s.length) :
    stop s (k + 1) = ((tokenAt s (stop s k).2 (stop s k).1).next (stop s k).1,
      (tokenAt s (stop s k).2 (stop s k).1).codeAfter (stop s k).2) := by
  rw [stop_succ, follow, if_pos h]

end Stops

/-! ## Runs in order -/

/-- A byte is in a run of this style. -/
def Covers (runs : List MdRun) (p : Nat) (style : MdStyle) : Prop :=
  ∃ r ∈ runs, r.start ≤ p ∧ p < r.start + r.len ∧ r.style = style

/-- Runs that do not overlap, up to a place. -/
structure Ordered (runs : List MdRun) (bound : Nat) : Prop where
  pairwise : runs.Pairwise fun a b => a.start + a.len ≤ b.start
  inside : ∀ r ∈ runs, 0 < r.len ∧ r.start + r.len ≤ bound
  count : runs.length ≤ bound

/-- The run of some bytes, if there are any. -/
def piece (start len : Nat) (style : MdStyle) : List MdRun :=
  if len = 0 then [] else [⟨start, len, style⟩]

section Runs

variable {runs : List MdRun} {bound start len cap p : Nat} {style σ : MdStyle}

theorem covers_append (more : List MdRun) :
    Covers (runs ++ more) p σ ↔ Covers runs p σ ∨ Covers more p σ := by
  simp only [Covers, List.mem_append, or_and_right, exists_or]

theorem covers_piece : Covers (piece start len style) p σ ↔
    start ≤ p ∧ p < start + len ∧ σ = style := by
  rw [piece, Covers]
  split
  · next hzero =>
    refine ⟨fun ⟨r, hr, _⟩ => absurd hr List.not_mem_nil, fun ⟨hlow, hhigh, _⟩ => ?_⟩
    omega
  · simp only [List.mem_singleton, exists_eq_left, eq_comm]

theorem Ordered.mono (h : Ordered runs bound) {bound' : Nat} (hle : bound ≤ bound') :
    Ordered runs bound' where
  pairwise := h.pairwise
  inside r hr := ⟨(h.inside r hr).1, Nat.le_trans (h.inside r hr).2 hle⟩
  count := Nat.le_trans h.count hle

theorem Ordered.append_piece (h : Ordered runs bound) (hle : bound ≤ start) :
    Ordered (runs ++ piece start len style) (start + len) := by
  rw [piece]
  split
  · rw [List.append_nil]
    exact h.mono (Nat.le_trans hle (Nat.le_add_right _ _))
  · next hpos =>
    have hcount := h.count
    refine ⟨List.pairwise_append.2 ⟨h.pairwise, List.pairwise_singleton _ _, ?_⟩, ?_, ?_⟩
    · intro a ha b hb
      rw [List.mem_singleton.1 hb]
      exact Nat.le_trans (h.inside a ha).2 hle
    · intro r hr
      rcases List.mem_append.1 hr with hr | hr
      · have hin := h.inside r hr
        omega
      · rw [List.mem_singleton.1 hr]
        exact ⟨Nat.pos_of_ne_zero hpos, Nat.le_refl _⟩
    · rw [List.length_append, List.length_singleton]
      omega

/-- There is room for every run of a line with at most `cap` bytes. -/
theorem mdEmit_eq (h : Ordered runs bound) (hle : bound ≤ start) (hcap : start + len ≤ cap) :
    mdEmit cap runs start len style = runs ++ piece start len style := by
  have hcount := h.count
  rw [mdEmit, piece]
  by_cases hzero : len = 0
  · rw [if_pos (Or.inl hzero), if_pos hzero, List.append_nil]
  · rw [if_neg (by omega), if_neg hzero]

end Runs

/-! ## What the tokens show -/

section State

variable (s : List UInt8) (cap : Nat)

/-- The bytes that the token at hand shows, and their style. -/
def Inline.shows (st : Inline) (p : Nat) (style : MdStyle) : Prop :=
  match tokenAt s st.code st.i with
  | .escape => p = st.i + 1 ∧ style = st.cur
  | .ticks n =>
    (∃ m, st.code = some m ∧ n ≠ m) ∧ st.i ≤ p ∧ p < st.i + n ∧ style = st.cur
  | .link j _ => st.i < p ∧ p < j ∧ style = { st.cur with link := true }
  | .delim ch n =>
    (st.closes s ch n = false ∧ st.opens s ch n = false) ∧ st.i ≤ p ∧ p < st.i + n ∧
      style = st.cur
  | .plain => p = st.i ∧ style = st.cur

/-- The state behind the first `k` tokens. -/
def state (k : Nat) : Inline := (Inline.round s cap)^[k] {}

/-- The runs and the bytes of the run at hand are those that have been shown. -/
structure Holds (shown : Nat → MdStyle → Prop) (st : Inline) : Prop where
  start_le : st.start ≤ st.i
  ordered : Ordered st.runs st.start
  covers : ∀ p σ, Covers st.runs p σ ∨ (st.start ≤ p ∧ p < st.i ∧ σ = st.cur) ↔ shown p σ

end State

section Steps

variable {s : List UInt8} {cap next : Nat} {shown more : Nat → MdStyle → Prop} {st : Inline}

/-- Bytes that are shown as they are join the run at hand. -/
theorem Holds.literal (h : Holds shown st) (hnext : st.i ≤ next)
    (hmore : ∀ p σ, more p σ ↔ st.i ≤ p ∧ p < next ∧ σ = st.cur) :
    Holds (fun p σ => shown p σ ∨ more p σ) { st with i := next } := by
  have hstart := h.start_le
  refine ⟨Nat.le_trans hstart hnext, h.ordered, fun p σ => ?_⟩
  rw [← h.covers, hmore, or_assoc]
  refine or_congr_right ⟨fun ⟨hlow, hhigh, hσ⟩ => ?_, fun hp => ?_⟩
  · rcases Nat.lt_or_ge p st.i with hlt | hge
    · exact Or.inl ⟨hlow, hlt, hσ⟩
    · exact Or.inr ⟨hge, hhigh, hσ⟩
  · rcases hp with ⟨hlow, hhigh, hσ⟩ | ⟨hlow, hhigh, hσ⟩
    · exact ⟨hlow, Nat.lt_of_lt_of_le hhigh hnext, hσ⟩
    · exact ⟨Nat.le_trans hstart hlow, hhigh, hσ⟩

/-- The run at hand is written. -/
theorem Holds.runs_flush (h : Holds shown st) (hcap : st.i ≤ cap) :
    Ordered (st.flush cap next).runs st.i ∧
      ∀ p σ, Covers (st.flush cap next).runs p σ ↔ shown p σ := by
  have hstart := h.start_le
  have hsum : st.start + (st.i - st.start) = st.i := by omega
  have hruns : (st.flush cap next).runs = st.runs ++ piece st.start (st.i - st.start) st.cur :=
    mdEmit_eq h.ordered (Nat.le_refl _) (by omega)
  rw [hruns]
  constructor
  · have happend := @Ordered.append_piece _ _ _ (st.i - st.start) st.cur h.ordered (Nat.le_refl _)
    rwa [hsum] at happend
  · intro p σ
    rw [covers_append, covers_piece, hsum]
    exact h.covers p σ

/-- Markup is left out, and the next run begins behind it. -/
theorem Holds.markup (h : Holds shown st) (hcap : st.i ≤ cap) (hnext : st.i ≤ next)
    (hmore : ∀ p σ, ¬more p σ) (cur : MdStyle) (stack : List MdDelim) (code : Option Nat) :
    Holds (fun p σ => shown p σ ∨ more p σ) { st.flush cap next with cur, stack, code } := by
  obtain ⟨hordered, hcovers⟩ := @Holds.runs_flush cap next _ _ h hcap
  refine ⟨Nat.le_refl _, hordered.mono hnext, fun p σ => ?_⟩
  rw [← hcovers, or_iff_left (hmore p σ), or_iff_left]
  exact fun ⟨hlow, hhigh, _⟩ => absurd hhigh (Nat.not_lt.2 hlow)

theorem linkEnds_of_tokenAt {code : Option Nat} {i j k : Nat}
    (h : tokenAt s code i = .link j k) : i < j ∧ j < k := by
  rw [tokenAt] at h
  split_ifs at h
  split at h
  · next hends =>
    obtain ⟨hj, hk, -⟩ := linkEnds_bounds hends
    obtain ⟨rfl, rfl⟩ := Token.link.inj h
    exact ⟨hj, hk⟩
  · exact absurd h Token.noConfusion

end Steps

/-! ## The whole line -/

section Whole

variable {s : List UInt8} {cap k l p : Nat} {σ : MdStyle}

theorem state_succ (s : List UInt8) (cap k : Nat) : state s cap (k + 1) = (state s cap k).round s cap :=
  Function.iterate_succ_apply' _ _ _

theorem step_place (st : Inline) : ((st.step s cap).i, (st.step s cap).code) =
    ((tokenAt s st.code st.i).next st.i, (tokenAt s st.code st.i).codeAfter st.code) := by
  rw [Inline.step]
  cases tokenAt s st.code st.i with
  | escape => rfl
  | ticks n =>
    cases st.code with
    | none => rfl
    | some m =>
      dsimp only [Token.codeAfter]
      split <;> rfl
  | link j k => rfl
  | delim ch n =>
    dsimp only
    split
    · rfl
    split <;> rfl
  | plain => rfl

/-- The places of the loop do not depend on what is open. -/
theorem state_place (s : List UInt8) (cap k : Nat) :
    ((state s cap k).i, (state s cap k).code) = stop s k := by
  induction k with
  | zero => rfl
  | succ k ih =>
    have hi : (state s cap k).i = (stop s k).1 := congrArg Prod.fst ih
    have hcode : (state s cap k).code = (stop s k).2 := congrArg Prod.snd ih
    rw [state_succ, stop_succ, Inline.round, follow, hi]
    split
    · rw [step_place, hi, hcode]
    · exact ih

/-- What a token shows lies in it. -/
theorem Inline.shows.bounds (h : (state s cap k).shows s p σ) (hin : (state s cap k).i < s.length) :
    (state s cap k).i ≤ p ∧ p < (stop s (k + 1)).1 := by
  have hnext := stop_succ_of_lt (k := k) (show (stop s k).1 < s.length from
    state_place s cap k ▸ hin)
  rw [hnext, ← state_place s cap k]
  have hlow := @next_bounds s (state s cap k).code _ hin
  unfold Inline.shows at h
  dsimp only
  cases htoken : tokenAt s (state s cap k).code (state s cap k).i with
  | escape =>
    rw [htoken] at h
    rw [Token.next, h.1]
    omega
  | ticks n =>
    rw [htoken] at h
    exact ⟨h.2.1, h.2.2.1⟩
  | link j k' =>
    rw [htoken] at h hlow
    have hlink := (linkEnds_of_tokenAt htoken).2
    rw [Token.next]
    omega
  | delim ch n =>
    rw [htoken] at h
    exact ⟨h.2.1, h.2.2.1⟩
  | plain =>
    rw [htoken] at h
    rw [Token.next, h.1]
    omega

end Whole

/-! ## Open delimiters -/

/-- The styles that delimiters give, apart from code. -/
def emphasis : List (MdStyle → Bool) := [MdStyle.bold, MdStyle.italic, MdStyle.strike]

section Open

variable {s : List UInt8} {cap k : Nat} {stack : List MdDelim} {bit : MdStyle → Bool}

theorem bit_link (hbit : bit ∈ emphasis) (a : MdStyle) (link : Bool) : bit { a with link } = bit a := by
  rw [emphasis, List.mem_cons, List.mem_cons, List.mem_singleton] at hbit
  rcases hbit with rfl | rfl | rfl <;> rfl

end Open

/-! ## When the line is faithful -/

section Line

variable (s : List UInt8)

/-- A byte is strictly between a delimiter that gives a style and a later one that closes it. -/
def Between (bit : MdStyle → Bool) (p : Nat) : Prop :=
  ∃ ch n m i j, Opener s ch n i ∧ Closer s ch m j ∧ delimBits ch n = delimBits ch m ∧
    bit (delimBits ch n) = true ∧ i + n ≤ p ∧ p < j

/-- A byte is strictly between backticks that open a code span and later ones that close it. -/
def InCode (p : Nat) : Prop := ∃ i n j, Opens s i n ∧ Closes s j n ∧ i + n ≤ p ∧ p < j

/-- Delimiters, the backslashes of escapes, and links apart from their text. -/
def Markup (p : Nat) : Prop :=
  (∃ i n, (Opens s i n ∨ Closes s i n) ∧ i ≤ p ∧ p < i + n) ∨
  (∃ code, Reads s p code ∧ tokenAt s code p = .escape) ∨
  (∃ i j k, Reads s i none ∧ tokenAt s none i = .link j k ∧ (p = i ∨ (j ≤ p ∧ p ≤ k))) ∨
  (∃ ch n i, (Opener s ch n i ∨ Closer s ch n i) ∧ i ≤ p ∧ p < i + n)

/-- Runs style nothing that is not delimited, keep code as it is, are in order and leave out markup
only. -/
structure Faithful (runs : List MdRun) : Prop where
  emphasis : ∀ p style, Covers runs p style → ∀ bit ∈ emphasis, bit style = true → Between s bit p
  code : ∀ p style, Covers runs p style → style.code = true → InCode s p
  literal : ∀ i n j, CodeSpan s i n j → ∀ p, i + n ≤ p → p < j → ∃ style, Covers runs p style
  ordered : runs.Pairwise fun a b => a.start + a.len ≤ b.start
  inside : ∀ r ∈ runs, r.start + r.len ≤ s.length
  markup : ∀ p < s.length, (∀ style, ¬Covers runs p style) → Markup s p

end Line

section Faithful

variable {s : List UInt8} {cap k p i j n : Nat} {σ : MdStyle} {bit : MdStyle → Bool}

/-- The style that a token shows has the bits of the style at hand. -/
theorem Inline.shows.style {st : Inline} (h : st.shows s p σ) :
    (∀ bit ∈ emphasis, bit σ = bit st.cur) ∧ σ.code = st.cur.code := by
  unfold Inline.shows at h
  cases htoken : tokenAt s st.code st.i with
  | escape =>
    rw [htoken] at h
    exact h.2 ▸ ⟨fun _ _ => rfl, rfl⟩
  | ticks n =>
    rw [htoken] at h
    exact h.2.2.2 ▸ ⟨fun _ _ => rfl, rfl⟩
  | link j k =>
    rw [htoken] at h
    exact h.2.2 ▸ ⟨fun bit hbit => bit_link hbit _ _, rfl⟩
  | delim ch n =>
    rw [htoken] at h
    exact h.2.2.2 ▸ ⟨fun _ _ => rfl, rfl⟩
  | plain =>
    rw [htoken] at h
    exact h.2 ▸ ⟨fun _ _ => rfl, rfl⟩

end Faithful

end EchoAi.Markdown
