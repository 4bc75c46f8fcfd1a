import EchoAi.Config.ConfLoad
import EchoAi.Splitting

/-!
# Lines through a buffer of fixed size

A file is read in pieces that fit into a buffer, and every piece counts as a line.

* `textLines`, `pieces`: the lines of a file, and what the loop takes for them.
* `hitsFrom`: the lines that contain a pattern, with their numbers.
* `ReadWhole`, `hits_eq_iff`: the hits among the pieces are those among the lines just when no line in
  or in front of a hit is cut.

Files and patterns have no NUL.  The buffer has the size of the one for the configuration.
-/

namespace EchoAi.Grep

open ConfFile

/-! ## Lines and pieces -/

/-- The lines of a file, without their newlines. -/
def textLines (content : List UInt8) : List (List UInt8) :=
  if (content.splitOn 10).getLast? = some [] then (content.splitOn 10).dropLast
  else content.splitOn 10

/-- A line of the buffer without its newline. -/
def chompLine (line : List UInt8) : List UInt8 :=
  if line.getLast? = some 10 then line.dropLast else line

/-- What the loop takes for the lines of a file. -/
def pieces (content : List UInt8) : List (List UInt8) := (fgetsLines [] content).map chompLine

/-- A line that is reported. -/
structure Hit where
  path : List UInt8
  number : Nat
  line : List UInt8
  deriving DecidableEq

/-- The lines that contain a pattern, where the first one has the number `n`. -/
def hitsFrom (path pattern : List UInt8) (n : Nat) : (lines : List (List UInt8)) → List Hit
  | [] => []
  | line :: lines =>
    if pattern <:+: line then ⟨path, n, line⟩ :: hitsFrom path pattern (n + 1) lines
    else hitsFrom path pattern (n + 1) lines

/-! ## Reading -/

section Reading

variable {item rest : List UInt8}

theorem chompLine_of_notMem {line : List UInt8} (h : 10 ∉ line) : chompLine line = line := by
  rw [chompLine, if_neg]
  exact fun hlast => h (List.mem_of_getLast? hlast)

theorem chompLine_concat (line : List UInt8) : chompLine (line ++ [10]) = line := by
  rw [chompLine, List.getLast?_concat, if_pos rfl, List.dropLast_concat]

theorem textLines_nil : textLines [] = [] := rfl

theorem textLines_last (h : 10 ∉ item) (hne : item ≠ []) : textLines item = [item] := by
  rw [textLines, List.splitOn_eq_singleton h, if_neg]
  exact fun hlast => hne (Option.some.inj hlast)

theorem textLines_cut (h : 10 ∉ item) (rest : List UInt8) :
    textLines (item ++ 10 :: rest) = item :: textLines rest := by
  have hne : rest.splitOn 10 ≠ [] := List.splitOn_ne_nil 10 rest
  rw [textLines, textLines, List.splitOn_append_cons_self_of_not_mem h, List.getLast?_cons,
    List.dropLast_cons_of_ne_nil hne]
  obtain ⟨last, hlast⟩ := Option.ne_none_iff_exists'.1 fun hnone => hne (List.getLast?_eq_none_iff.1 hnone)
  rw [hlast, Option.getD_some]
  split <;> rfl

theorem pieces_nil : pieces [] = [] := rfl

theorem pieces_short (h : 10 ∉ item) (hfits : item.length + 1 < lineSize) (rest : List UInt8) :
    pieces (item ++ 10 :: rest) = item :: pieces rest := by
  rw [pieces, fgetsLines_append h [] (by rw [List.length_nil]; omega), List.nil_append, fgetsLines,
    if_pos (Or.inl rfl), List.map_cons, chompLine_concat]
  rfl

theorem pieces_full (h : 10 ∉ item) (hfull : item.length + 1 = lineSize) (rest : List UInt8) :
    pieces (item ++ rest) = item :: pieces rest := by
  rw [pieces, fgetsLines_full h hfull, List.map_cons, chompLine_of_notMem h]
  rfl

theorem pieces_last (h : 10 ∉ item) (hne : item ≠ []) (hfits : item.length + 1 ≤ lineSize) :
    pieces item = [item] := by
  rcases hfits.lt_or_eq with hshort | hfull
  · have happend := @fgetsLines_append item [] h [] (by rw [List.length_nil]; omega)
    rw [List.append_nil, List.nil_append, fgetsLines, if_neg hne] at happend
    rw [pieces, happend, List.map_singleton, chompLine_of_notMem h]
  · have hpieces := pieces_full h hfull []
    rwa [List.append_nil, pieces_nil] at hpieces

/-- A line is read in pieces of it; more than one where it does not fit. -/
theorem exists_pieces (h : 10 ∉ item) (rest : List UInt8) :
    ∃ parts, pieces (item ++ 10 :: rest) = parts ++ pieces rest ∧
      (∀ part ∈ parts, part <:+: item ∧ part.length + 1 ≤ lineSize) ∧ 0 < parts.length ∧
      (lineSize ≤ item.length + 1 → 1 < parts.length) := by
  obtain ⟨n, hn⟩ : ∃ n, item.length = n := ⟨_, rfl⟩
  induction n using Nat.strong_induction_on generalizing item with
  | _ n ih =>
    by_cases hfits : item.length + 1 < lineSize
    · refine ⟨[item], pieces_short h hfits rest, ?_, Nat.one_pos, fun hlong => by omega⟩
      intro part hpart
      rw [List.mem_singleton.1 hpart]
      exact ⟨List.infix_rfl, hfits.le⟩
    · have hsize : lineSize = 4096 := rfl
      have hsplit := List.take_append_drop (lineSize - 1) item
      have hfront : 10 ∉ item.take (lineSize - 1) := fun hmem => h (List.mem_of_mem_take hmem)
      have hback : 10 ∉ item.drop (lineSize - 1) := fun hmem => h (List.mem_of_mem_drop hmem)
      have hfull : (item.take (lineSize - 1)).length + 1 = lineSize := by
        rw [List.length_take]
        omega
      obtain ⟨parts, hparts, hall, hpos, -⟩ := ih (item.drop (lineSize - 1)).length
        (by rw [List.length_drop]; omega) hback rfl
      refine ⟨item.take (lineSize - 1) :: parts, ?_, ?_, Nat.succ_pos _, fun _ => ?_⟩
      · have hcut := pieces_full hfront hfull (item.drop (lineSize - 1) ++ 10 :: rest)
        rw [← List.append_assoc, hsplit] at hcut
        rw [hcut, hparts, List.cons_append]
      · intro part hpart
        rcases List.mem_cons.1 hpart with rfl | hpart
        · exact ⟨(List.take_prefix _ _).isInfix, hfull.le⟩
        · obtain ⟨hinside, hlength⟩ := hall part hpart
          exact ⟨hinside.trans (List.drop_suffix _ _).isInfix, hlength⟩
      · rw [List.length_cons]
        omega

/-- The last line is read in pieces of it. -/
theorem pieces_of_last (h : 10 ∉ item) :
    ∀ part ∈ pieces item, part <:+: item ∧ part.length + 1 ≤ lineSize := by
  obtain ⟨n, hn⟩ : ∃ n, item.length = n := ⟨_, rfl⟩
  induction n using Nat.strong_induction_on generalizing item with
  | _ n ih =>
    intro part hpart
    rcases eq_or_ne item [] with rfl | hne
    · exact absurd hpart List.not_mem_nil
    by_cases hfits : item.length + 1 ≤ lineSize
    · rw [pieces_last h hne hfits] at hpart
      rw [List.mem_singleton.1 hpart]
      exact ⟨List.infix_rfl, hfits⟩
    · have hsize : lineSize = 4096 := rfl
      have hfront : 10 ∉ item.take (lineSize - 1) := fun hmem => h (List.mem_of_mem_take hmem)
      have hback : 10 ∉ item.drop (lineSize - 1) := fun hmem => h (List.mem_of_mem_drop hmem)
      have hfull : (item.take (lineSize - 1)).length + 1 = lineSize := by
        rw [List.length_take]
        omega
      have hcut := pieces_full hfront hfull (item.drop (lineSize - 1))
      rw [List.take_append_drop] at hcut
      rw [hcut] at hpart
      rcases List.mem_cons.1 hpart with rfl | hpart
      · exact ⟨(List.take_prefix _ _).isInfix, hfull.le⟩
      · obtain ⟨hinside, hlength⟩ := ih (item.drop (lineSize - 1)).length
          (by rw [List.length_drop]; omega) hback rfl part hpart
        exact ⟨hinside.trans (List.drop_suffix _ _).isInfix, hlength⟩

end Reading

/-! ## Hits -/

section Hits

variable {path pattern item rest : List UInt8} {m n : Nat}

theorem hitsFrom_append (xs ys : List (List UInt8)) :
    hitsFrom path pattern n (xs ++ ys) =
      hitsFrom path pattern n xs ++ hitsFrom path pattern (n + xs.length) ys := by
  induction xs generalizing n with
  | nil => rfl
  | cons x xs ih =>
    rw [List.cons_append, hitsFrom, hitsFrom, ih, List.length_cons, Nat.add_assoc n 1,
      Nat.add_comm 1]
    split <;> rfl

theorem le_number_of_mem {lines : List (List UInt8)} {hit : Hit}
    (h : hit ∈ hitsFrom path pattern n lines) :
    n ≤ hit.number ∧ hit.path = path ∧ hit.line ∈ lines := by
  induction lines generalizing n with
  | nil => exact absurd h List.not_mem_nil
  | cons line lines ih =>
    rw [hitsFrom] at h
    have hrest (h : hit ∈ hitsFrom path pattern (n + 1) lines) :
        n ≤ hit.number ∧ hit.path = path ∧ hit.line ∈ line :: lines := by
      obtain ⟨hle, hpath, hmem⟩ := ih h
      exact ⟨Nat.le_of_succ_le hle, hpath, List.mem_cons_of_mem _ hmem⟩
    split at h
    · rcases List.mem_cons.1 h with rfl | h
      · exact ⟨Nat.le_refl n, rfl, List.mem_cons_self⟩
      · exact hrest h
    · exact hrest h

theorem hitsFrom_eq_nil {lines : List (List UInt8)} (h : ∀ line ∈ lines, ¬pattern <:+: line) :
    hitsFrom path pattern n lines = [] := by
  induction lines generalizing n with
  | nil => rfl
  | cons line lines ih =>
    rw [hitsFrom, if_neg (h line List.mem_cons_self)]
    exact ih fun line hline => h line (List.mem_cons_of_mem _ hline)

/-- Every piece is part of a line. -/
theorem exists_line_of_piece (content : List UInt8) :
    ∀ piece ∈ pieces content, piece.length + 1 ≤ lineSize ∧
      ∃ line ∈ textLines content, piece <:+: line := by
  induction content using splitOn_induction (10 : UInt8) with
  | last xs hxs =>
    intro piece hpiece
    obtain ⟨hinside, hlength⟩ := pieces_of_last hxs piece hpiece
    rcases eq_or_ne xs [] with rfl | hne
    · exact absurd hpiece List.not_mem_nil
    · rw [textLines_last hxs hne]
      exact ⟨hlength, xs, List.mem_singleton_self xs, hinside⟩
  | cut item rest hitem ih =>
    intro piece hpiece
    obtain ⟨parts, hparts, hall, -⟩ := exists_pieces hitem rest
    rw [hparts, List.mem_append] at hpiece
    rw [textLines_cut hitem]
    rcases hpiece with hpiece | hpiece
    · obtain ⟨hinside, hlength⟩ := hall piece hpiece
      exact ⟨hlength, item, List.mem_cons_self, hinside⟩
    · obtain ⟨hlength, line, hline, hinside⟩ := ih piece hpiece
      exact ⟨hlength, line, List.mem_cons_of_mem _ hline, hinside⟩

/-- Where no line has the pattern, no piece has it. -/
theorem hits_pieces_eq_nil {content : List UInt8}
    (h : ∀ line ∈ textLines content, ¬pattern <:+: line) :
    hitsFrom path pattern n (pieces content) = [] := by
  refine hitsFrom_eq_nil fun piece hpiece hinside => ?_
  obtain ⟨-, line, hline, hpart⟩ := exists_line_of_piece content piece hpiece
  exact h line hline (hinside.trans hpart)

/-- With numbers that are too large, only nothing is reported as it should be. -/
theorem hits_eq_iff_of_lt (h : n < m) (content : List UInt8) :
    hitsFrom path pattern m (pieces content) = hitsFrom path pattern n (textLines content) ↔
      ∀ line ∈ textLines content, ¬pattern <:+: line := by
  refine ⟨fun heq => ?_, fun hnone => by rw [hits_pieces_eq_nil hnone, hitsFrom_eq_nil hnone]⟩
  induction content using splitOn_induction (10 : UInt8) generalizing m n with
  | last xs hxs =>
    rcases eq_or_ne xs [] with rfl | hne
    · exact fun line hline => absurd hline List.not_mem_nil
    intro line hline hmatch
    rw [textLines_last hxs hne] at heq hline
    rw [List.mem_singleton.1 hline] at hmatch
    have hmem : ⟨path, n, xs⟩ ∈ hitsFrom path pattern m (pieces xs) := by
      rw [heq, hitsFrom, if_pos hmatch]
      exact List.mem_cons_self
    exact absurd (le_number_of_mem hmem).1 (Nat.not_le.2 h)
  | cut item rest hitem ih =>
    rw [textLines_cut hitem] at heq ⊢
    by_cases hmatch : pattern <:+: item
    · have hmem : ⟨path, n, item⟩ ∈ hitsFrom path pattern m (pieces (item ++ 10 :: rest)) := by
        rw [heq, hitsFrom, if_pos hmatch]
        exact List.mem_cons_self
      exact absurd (le_number_of_mem hmem).1 (Nat.not_le.2 h)
    · obtain ⟨parts, hparts, hall, hpos, -⟩ := exists_pieces hitem rest
      have hnone : hitsFrom path pattern m parts = [] :=
        hitsFrom_eq_nil fun part hpart hinside => hmatch (hinside.trans (hall part hpart).1)
      rw [hparts, hitsFrom_append, hnone, List.nil_append, hitsFrom, if_neg hmatch] at heq
      intro line hline
      rcases List.mem_cons.1 hline with rfl | hline
      · exact hmatch
      · exact ih (by omega) heq line hline

end Hits

/-! ## Lines that are not cut -/

/-- The hits of a file are read whole: no line in or in front of a hit is cut, and where every line
is a hit no newline stands alone. -/
structure ReadWhole (pattern content : List UInt8) : Prop where
  whole : ∀ line ∈ textLines content, pattern <:+: line → line.length < lineSize
  behind : ∀ front line back, textLines content = front ++ line :: back → pattern <:+: line →
    ∀ before ∈ front, before.length + 1 < lineSize
  blank : pattern = [] → ∀ line ∈ (content.splitOn 10).dropLast, line.length + 1 < lineSize

section ReadWhole

variable {path pattern item : List UInt8} {n : Nat}

theorem readWhole_of_none {content : List UInt8} (hpattern : pattern ≠ [])
    (h : ∀ line ∈ textLines content, ¬pattern <:+: line) : ReadWhole pattern content where
  whole line hline hmatch := absurd hmatch (h line hline)
  behind front line back hsplit hmatch := by
    refine absurd hmatch (h line ?_)
    rw [hsplit]
    exact List.mem_append_right _ List.mem_cons_self
  blank hnil := absurd hnil hpattern

theorem readWhole_last (h : 10 ∉ item) :
    ReadWhole pattern item ↔ (item ≠ [] → pattern <:+: item → item.length < lineSize) := by
  constructor
  · intro hread hne hmatch
    refine hread.whole item ?_ hmatch
    rw [textLines_last h hne]
    exact List.mem_singleton_self item
  · intro hfits
    rcases eq_or_ne item [] with rfl | hne
    · refine ⟨fun line hline => absurd hline List.not_mem_nil, fun front line back hsplit => ?_,
        fun _ line hline => absurd hline List.not_mem_nil⟩
      exact absurd hsplit.symm (by simp [textLines_nil])
    · refine ⟨fun line hline hmatch => ?_, fun front line back hsplit hmatch => ?_, fun _ => ?_⟩
      · rw [textLines_last h hne] at hline
        rw [List.mem_singleton.1 hline] at hmatch ⊢
        exact hfits hne hmatch
      · rw [textLines_last h hne] at hsplit
        cases front with
        | nil => exact fun before hbefore => absurd hbefore List.not_mem_nil
        | cons first front => exact absurd (List.cons.inj hsplit).2 (by simp)
      · rw [List.splitOn_eq_singleton h]
        exact fun line hline => absurd hline List.not_mem_nil

theorem readWhole_cut (h : 10 ∉ item) (rest : List UInt8) :
    ReadWhole pattern (item ++ 10 :: rest) ↔
      (pattern <:+: item → item.length < lineSize) ∧ (pattern = [] → item.length + 1 < lineSize) ∧
        (item.length + 1 < lineSize ∨ ∀ line ∈ textLines rest, ¬pattern <:+: line) ∧
        ReadWhole pattern rest := by
  have hlines := textLines_cut h rest
  have hdrop : ((item ++ 10 :: rest).splitOn 10).dropLast = item :: (rest.splitOn 10).dropLast := by
    rw [List.splitOn_append_cons_self_of_not_mem h,
      List.dropLast_cons_of_ne_nil (List.splitOn_ne_nil 10 rest)]
  constructor
  · rintro ⟨hwhole, hbehind, hblank⟩
    rw [hlines] at hwhole hbehind
    rw [hdrop] at hblank
    refine ⟨hwhole item List.mem_cons_self, fun hnil => hblank hnil item List.mem_cons_self, ?_,
      fun line hline => hwhole line (List.mem_cons_of_mem _ hline), fun front line back hsplit hmatch => ?_,
      fun hnil line hline => hblank hnil line (List.mem_cons_of_mem _ hline)⟩
    · by_cases hfits : item.length + 1 < lineSize
      · exact Or.inl hfits
      · refine Or.inr fun line hline hmatch => ?_
        obtain ⟨front, back, hsplit⟩ := List.append_of_mem hline
        refine hfits (hbehind (item :: front) line back ?_ hmatch item List.mem_cons_self)
        rw [hsplit, List.cons_append]
    · refine fun before hbefore => hbehind (item :: front) line back ?_ hmatch before
        (List.mem_cons_of_mem _ hbefore)
      rw [hsplit, List.cons_append]
  · rintro ⟨hitem, hnewline, hfits, hwhole, hbehind, hblank⟩
    refine ⟨fun line hline hmatch => ?_, fun front line back hsplit hmatch => ?_,
      fun hnil line hline => ?_⟩
    · rw [hlines] at hline
      rcases List.mem_cons.1 hline with rfl | hline
      · exact hitem hmatch
      · exact hwhole line hline hmatch
    · rw [hlines] at hsplit
      cases front with
      | nil => exact fun before hbefore => absurd hbefore List.not_mem_nil
      | cons first front =>
        obtain ⟨rfl, hrest⟩ := List.cons.inj hsplit
        intro before hbefore
        rcases List.mem_cons.1 hbefore with rfl | hbefore
        · refine hfits.resolve_right fun hnone => hnone line ?_ hmatch
          rw [hrest]
          exact List.mem_append_right _ List.mem_cons_self
        · exact hbehind front line back hrest hmatch before hbefore
    · rw [hdrop] at hline
      rcases List.mem_cons.1 hline with rfl | hline
      · exact hnewline hnil
      · exact hblank hnil line hline

/-- There are at least as many pieces as lines. -/
theorem length_textLines_le (content : List UInt8) :
    (textLines content).length ≤ (pieces content).length := by
  induction content using splitOn_induction (10 : UInt8) with
  | last xs hxs =>
    rcases eq_or_ne xs [] with rfl | hne
    · exact Nat.le_refl 0
    · rw [textLines_last hxs hne]
      refine List.length_pos_iff.2 fun hnil => ?_
      by_cases hfits : xs.length + 1 ≤ lineSize
      · rw [pieces_last hxs hne hfits] at hnil
        exact absurd hnil (List.cons_ne_nil xs [])
      · have hfull : (xs.take (lineSize - 1)).length + 1 = lineSize := by
          have hsize : lineSize = 4096 := rfl
          rw [List.length_take]
          omega
        have hcut := pieces_full (fun hmem => hxs (List.mem_of_mem_take hmem)) hfull
          (xs.drop (lineSize - 1))
        rw [List.take_append_drop, hnil] at hcut
        exact absurd hcut.symm (List.cons_ne_nil _ _)
  | cut item rest hitem ih =>
    obtain ⟨parts, hparts, -, hpos, -⟩ := exists_pieces hitem rest
    rw [textLines_cut hitem, hparts, List.length_cons, List.length_append]
    omega

theorem length_hitsFrom_nil (lines : List (List UInt8)) :
    (hitsFrom path [] n lines).length = lines.length := by
  induction lines generalizing n with
  | nil => rfl
  | cons line lines ih =>
    rw [hitsFrom, if_pos List.nil_infix, List.length_cons, ih, List.length_cons]

/-- **The pieces give the hits of the lines** just when the hits are read whole. -/
theorem hits_eq_iff (content : List UInt8) :
    hitsFrom path pattern n (pieces content) = hitsFrom path pattern n (textLines content) ↔
      ReadWhole pattern content := by
  have hsize : lineSize = 4096 := rfl
  -- a line that is longer than any piece is not reported
  have hlong (n : Nat) (content line : List UInt8) (hlength : ¬line.length < lineSize)
      (hmem : ⟨path, n, line⟩ ∈ hitsFrom path pattern n (pieces content)) : False := by
    have hpiece := (le_number_of_mem hmem).2.2
    have hshort := (exists_line_of_piece content line hpiece).1
    omega
  induction content using splitOn_induction (10 : UInt8) generalizing n with
  | last xs hxs =>
    rw [readWhole_last hxs]
    rcases eq_or_ne xs [] with rfl | hne
    · exact iff_of_true rfl fun h => absurd rfl h
    by_cases hmatch : pattern <:+: xs
    · by_cases hfits : xs.length < lineSize
      · rw [pieces_last hxs hne hfits, textLines_last hxs hne]
        exact iff_of_true rfl fun _ _ => hfits
      · refine iff_of_false (fun heq => hlong n xs xs hfits ?_) fun h => hfits (h hne hmatch)
        rw [heq, textLines_last hxs hne, hitsFrom, if_pos hmatch]
        exact List.mem_cons_self
    · have hnone : ∀ line ∈ textLines xs, ¬pattern <:+: line := by
        intro line hline
        rw [textLines_last hxs hne] at hline
        rwa [List.mem_singleton.1 hline]
      rw [hits_pieces_eq_nil hnone, hitsFrom_eq_nil hnone]
      exact iff_of_true rfl fun _ h => absurd h hmatch
  | cut item rest hitem ih =>
    rw [readWhole_cut hitem, textLines_cut hitem]
    by_cases hfits : item.length + 1 < lineSize
    · rw [pieces_short hitem hfits, hitsFrom, hitsFrom]
      have hrest : (pattern <:+: item → item.length < lineSize) ∧
          (pattern = [] → item.length + 1 < lineSize) ∧
          (item.length + 1 < lineSize ∨ ∀ line ∈ textLines rest, ¬pattern <:+: line) ∧
          ReadWhole pattern rest ↔ ReadWhole pattern rest :=
        ⟨fun h => h.2.2.2, fun h => ⟨fun _ => by omega, fun _ => hfits, Or.inl hfits, h⟩⟩
      rw [hrest]
      split
      · rw [List.cons.injEq]
        exact (and_iff_right rfl).trans ih
      · exact ih
    by_cases hmatch : pattern <:+: item
    · by_cases hwhole : item.length < lineSize
      · -- the newline of the line is a piece of its own
        have hpieces : pieces (item ++ 10 :: rest) = item :: [] :: pieces rest := by
          rw [pieces_full hitem (by omega)]
          exact congrArg _ (pieces_short List.not_mem_nil (by decide) rest)
        rw [hpieces, hitsFrom, if_pos hmatch, hitsFrom, hitsFrom, if_pos hmatch, List.cons.injEq,
          and_iff_right rfl]
        rcases eq_or_ne pattern [] with rfl | hne
        · refine iff_of_false (fun heq => ?_) fun h => hfits (h.2.1 rfl)
          have hlength := congrArg List.length heq
          have hle := length_textLines_le rest
          rw [if_pos List.nil_infix, List.length_cons, length_hitsFrom_nil, length_hitsFrom_nil] at hlength
          omega
        · have hblank : ¬pattern <:+: [] := fun h => hne (List.infix_nil.1 h)
          rw [if_neg hblank, hits_eq_iff_of_lt (Nat.lt_succ_self (n + 1))]
          exact ⟨fun h => ⟨fun _ => hwhole, fun hnil => absurd hnil hne, Or.inr h,
            readWhole_of_none hne h⟩, fun h => h.2.2.1.resolve_left hfits⟩
      · refine iff_of_false (fun heq => hlong n (item ++ 10 :: rest) item hwhole ?_) fun h => hwhole (h.1 hmatch)
        rw [heq, hitsFrom, if_pos hmatch]
        exact List.mem_cons_self
    · have hne : pattern ≠ [] := fun hnil => hmatch (hnil ▸ List.nil_infix)
      obtain ⟨parts, hparts, hall, -, hmore⟩ := exists_pieces hitem rest
      have hnone : hitsFrom path pattern n parts = [] :=
        hitsFrom_eq_nil fun part hpart hinside => hmatch (hinside.trans (hall part hpart).1)
      have hlt : n + 1 < n + parts.length := Nat.add_lt_add_left (hmore (by omega)) n
      rw [hparts, hitsFrom_append, hnone, List.nil_append, hitsFrom, if_neg hmatch,
        hits_eq_iff_of_lt hlt]
      exact ⟨fun h => ⟨fun hinside => absurd hinside hmatch, fun hnil => absurd hnil hne, Or.inr h,
        readWhole_of_none hne h⟩, fun h => h.2.2.1.resolve_left hfits⟩

end ReadWhole

end EchoAi.Grep
