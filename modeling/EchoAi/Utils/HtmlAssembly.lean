import EchoAi.Utils.HtmlCitations

/-!
# What is returned of a page

The title, the text and the links are put together within a limit; the text is cut where it is too
long, and the links and the title are left out where there is no room for them.

* `buildFooter`, `assembleCut`, `assemble`: the parts.
* `htmlExtractTextAlloc`: the text of a page.
* `utf8_htmlExtractTextAlloc_iff`: it is within the limit, and UTF-8 just when the links that it shows
  are.
-/

namespace EchoAi.Html

/-- `MARKER_ROOM` -/
def markerRoom : Nat := 46

/-- A line of `build_footer`. -/
def footerLine (i : Nat) (url : List UInt8) : List UInt8 :=
  ascii (toString (i + 1)) ++ ascii ". " ++ cString url ++ [10]

/-- `build_footer` -/
def buildFooter (links : List (List UInt8)) : List UInt8 :=
  if links = [] then [] else ascii "\n\nLinks:\n" ++ (links.mapIdx footerLine).flatten

/-- The title with what stands around it. -/
def titlePart (title : List UInt8) : List UInt8 :=
  if title = [] then [] else ascii "Title: " ++ title ++ [10, 10]

/-- `assemble_copy_parts` -/
def assembleCopyParts (title body footer marker : List UInt8) : List UInt8 :=
  titlePart title ++ body ++ marker ++ footer

/-- The place behind the last byte of this value, zero if there is none. -/
def behindLast (b : UInt8) (xs : List UInt8) : Nat :=
  xs.length - (xs.reverse.takeWhile (· ≠ b)).length

/-- `assemble_cut`: how much of the text is kept. -/
def assembleCut (out : List UInt8) (budget : Nat) : Nat :=
  if out.length ≤ budget then out.length
  else
    let k := behindLast 10 (out.take budget)
    let cut :=
      if 0 < k ∧ k ≠ budget then k
      else if k = 0 then
        let k := behindLast 32 (out.take budget)
        if 0 < k then k else budget
      else budget
    cutBack out cut

/-- The marker for what is cut off. -/
def truncatedMarker (omitted : Nat) : List UInt8 :=
  (10 :: ascii ("[... truncated, " ++ toString omitted ++ " chars omitted ...]")).take 63

/-- The marker, when it is wanted and fits behind as much as is used. -/
def shownMarker (wanted : Bool) (omitted used maxChars : Nat) : List UInt8 :=
  let marker := truncatedMarker omitted
  if wanted ∧ 0 < omitted ∧ used + marker.length ≤ maxChars then marker else []

/-- Whether everything fits. -/
def fitsWhole (x : Extract) (maxChars : Nat) : Bool :=
  x.w.out.length + (titlePart x.title).length + (buildFooter x.links).length ≤ maxChars

/-- The links that are shown behind a text that is cut. -/
def keptFooter (x : Extract) (maxChars : Nat) : List UInt8 :=
  if maxChars < (titlePart x.title).length + (buildFooter x.links).length + markerRoom then []
  else buildFooter x.links

/-- The title that is shown in front of it. -/
def keptTitle (x : Extract) (maxChars : Nat) : List UInt8 :=
  if maxChars < (titlePart x.title).length + (keptFooter x maxChars).length + markerRoom then []
  else x.title

/-- What is left for the text, and whether there is room for a marker. -/
def bodyBudget (overhead maxChars : Nat) : Nat × Bool :=
  if overhead + markerRoom < maxChars then (maxChars - overhead - markerRoom, true)
  else (maxChars - overhead, false)

/-- How much of the text is kept. -/
def keptLength (x : Extract) (maxChars : Nat) : Nat :=
  if fitsWhole x maxChars then x.w.out.length
  else
    let overhead := (titlePart (keptTitle x maxChars)).length + (keptFooter x maxChars).length
    assembleCut x.w.out (bodyBudget overhead maxChars).1

/-- `assemble` -/
def assemble (x : Extract) (maxChars : Nat) : List UInt8 :=
  if fitsWhole x maxChars then assembleCopyParts x.title x.w.out (buildFooter x.links) []
  else
    let footer := keptFooter x maxChars
    let title := keptTitle x maxChars
    let overhead := (titlePart title).length + footer.length
    let (budget, markerOk) := bodyBudget overhead maxChars
    let cut := assembleCut x.w.out budget
    let omitted := x.w.out.length - cut
    let wanted := markerOk && budget < x.w.out.length
    let marker := shownMarker wanted omitted (overhead + cut) maxChars
    assembleCopyParts title (x.w.out.take cut) footer marker

/-- `html_extract_text_alloc`, as C reads what it returns. -/
def htmlExtractTextAlloc (low : Frame → Bool) (raw : Option (List UInt8)) (maxChars : Nat) :
    List UInt8 :=
  match raw with
  | none => []
  | some raw => if maxChars = 0 then [] else cString (assemble (Extract.parse low raw) maxChars)

/-! ## Lengths -/

theorem cutBack_le (text : List UInt8) (keep : Nat) : cutBack text keep ≤ keep := by
  induction keep with
  | zero => exact Nat.le_refl 0
  | succ keep ih =>
    rw [cutBack]
    split
    · exact Nat.le_succ_of_le ih
    · exact Nat.le_refl _

theorem behindLast_le (b : UInt8) (xs : List UInt8) : behindLast b xs ≤ xs.length := Nat.sub_le _ _

/-- What is kept of the text is within the budget. -/
theorem assembleCut_le (out : List UInt8) (budget : Nat) : assembleCut out budget ≤ budget := by
  rw [assembleCut]
  split
  · assumption
  have htake : (out.take budget).length ≤ budget := List.length_take_le _ _
  have hnewline := behindLast_le 10 (out.take budget)
  have hblank := behindLast_le 32 (out.take budget)
  refine Nat.le_trans (cutBack_le _ _) ?_
  dsimp only
  split
  · omega
  split
  · split <;> omega
  · exact Nat.le_refl _

theorem length_shownMarker_le {used maxChars : Nat} (h : used ≤ maxChars) (wanted : Bool)
    (omitted : Nat) : used + (shownMarker wanted omitted used maxChars).length ≤ maxChars := by
  rw [shownMarker]
  split
  · next hmarker => exact hmarker.2.2
  · exact h

/-- The title and the links leave room, or both are left out. -/
theorem kept_room (x : Extract) (maxChars : Nat) :
    (titlePart (keptTitle x maxChars)).length + (keptFooter x maxChars).length ≤ maxChars := by
  rw [keptTitle]
  split
  · next htitle =>
    have hfooter : keptFooter x maxChars = [] := by
      rw [keptFooter] at htitle ⊢
      split at htitle
      · next h => rw [if_pos h]
      · next h => exact absurd htitle h
    rw [hfooter]
    exact Nat.zero_le _
  · omega

theorem length_assemble_le (x : Extract) (maxChars : Nat) :
    (assemble x maxChars).length ≤ maxChars := by
  rw [assemble]
  split
  · next h =>
    have hfits := of_decide_eq_true h
    simp only [assembleCopyParts, List.length_append, List.length_nil]
    omega
  have hroom := kept_room x maxChars
  dsimp only
  generalize hover : (titlePart (keptTitle x maxChars)).length + (keptFooter x maxChars).length = used
    at hroom ⊢
  have hbudget : (bodyBudget used maxChars).1 ≤ maxChars - used := by
    rw [bodyBudget]
    split
    · exact Nat.sub_le _ _
    · exact Nat.le_refl _
  have hcut := assembleCut_le x.w.out (bodyBudget used maxChars).1
  have htake := List.length_take_le (assembleCut x.w.out (bodyBudget used maxChars).1) x.w.out
  have hmarker := length_shownMarker_le (show used + assembleCut x.w.out (bodyBudget used maxChars).1 ≤
    maxChars by omega) ((bodyBudget used maxChars).2 && (bodyBudget used maxChars).1 < x.w.out.length)
      (x.w.out.length - assembleCut x.w.out (bodyBudget used maxChars).1)
  simp only [assembleCopyParts, List.length_append]
  omega

/-! ## The parts are texts -/

/-- A text that is cut by `utf8_cut_boundary`. -/
theorem utf8_take_cutBack {text : List UInt8} (h : Utf8 text) (keep : Nat) :
    Utf8 (text.take (cutBack text keep)) := by
  induction keep with
  | zero => exact Utf8.nil
  | succ keep ih =>
    rw [cutBack]
    split
    · exact ih
    next hstop =>
    refine h.take fun b hb htail => hstop ?_
    have hall : ∀ n < 64, UInt8.ofNat (0x80 + n) &&& 0xC0 = 0x80 := by decide
    have hlow : 0x80 ≤ b.toNat := UInt8.le_iff_toNat_le.1 htail.1
    have hhigh : b.toNat ≤ 0xBF := UInt8.le_iff_toNat_le.1 htail.2
    have hsplit : b = UInt8.ofNat (0x80 + (b.toNat - 0x80)) := by
      rw [Nat.add_sub_cancel' hlow, UInt8.ofNat_toNat]
    rw [List.getD_eq_getElem?_getD, hb, Option.getD_some, hsplit]
    exact hall _ (by omega)

theorem utf8_take_assembleCut {out : List UInt8} (h : Utf8 out) (budget : Nat) :
    Utf8 (out.take (assembleCut out budget)) := by
  rw [assembleCut]
  split
  · rw [List.take_length]
    exact h
  · exact utf8_take_cutBack h _

theorem utf8_titlePart {title : List UInt8} (h : Utf8 title) : Utf8 (titlePart title) := by
  rw [titlePart]
  split
  · exact Utf8.nil
  · have hfront : Utf8 (ascii "Title: ") := utf8_of_ascii (forall_mem_ascii (by decide))
    exact (hfront.append h).append
      ((utf8_singleton (by decide)).append (utf8_singleton (by decide)))

theorem utf8_truncatedMarker (omitted : Nat) : Utf8 (truncatedMarker omitted) := by
  refine utf8_of_ascii fun c hc => ?_
  rcases List.mem_cons.1 (List.mem_of_mem_take hc) with rfl | hc
  · decide
  · exact @forall_mem_ascii_number (· < 0x80) _ _ _ (forall_mem_ascii (by decide))
      (forall_mem_ascii (by decide)) (by grind) c hc

/-- Up to a NUL a text stays one. -/
theorem utf8_cString {text : List UInt8} (h : Utf8 text) : Utf8 (cString text) := by
  by_cases hzero : 0 ∈ text
  · obtain ⟨front, rest, rfl, hfront⟩ := List.eq_append_cons_of_mem hzero
    have hstop : cString (0 :: rest) = [] := List.takeWhile_cons_of_neg (by decide)
    rw [cString_append_of_notMem hfront, hstop, List.append_nil]
    exact ((utf8_append_cons_iff (by decide)).1 h).1
  · rw [cString_of_notMem hzero]
    exact h

section Footer

variable {links : List (List UInt8)} {num : Nat → List UInt8}

/-- Lines are texts just when what stands behind their numbers is. -/
theorem utf8_lines_iff (hnum : ∀ i, Utf8 (num i)) :
    Utf8 (links.mapIdx fun i url => num i ++ cString url ++ [10]).flatten ↔
      ∀ link ∈ links, Utf8 (cString link) := by
  induction links generalizing num with
  | nil => exact ⟨fun _ => nofun, fun _ => Utf8.nil⟩
  | cons link links ih =>
    rw [List.mapIdx_cons, List.flatten_cons, List.append_assoc, List.append_assoc,
      (hnum 0).append_iff, List.singleton_append, utf8_append_cons_iff (by decide),
      ih fun i => hnum (i + 1), List.forall_mem_cons]

theorem notMem_lines (hnum : ∀ i, 0 ∉ num i) :
    0 ∉ (links.mapIdx fun i url => num i ++ cString url ++ [10]).flatten := by
  induction links generalizing num with
  | nil => exact List.not_mem_nil
  | cons link links ih =>
    rw [List.mapIdx_cons, List.flatten_cons]
    have hrest := ih fun i => hnum (i + 1)
    simp only [List.mem_append, not_or]
    exact ⟨⟨⟨hnum 0, noNul_cString link⟩, by decide⟩, hrest⟩

/-- The number of a line is ASCII without a NUL. -/
theorem of_mem_lineNumber {i : Nat} {c : UInt8} (h : c ∈ ascii (toString (i + 1)) ++ ascii ". ") :
    c < 0x80 ∧ c ≠ 0 := by
  have hdot : ∀ c ∈ ascii ". ", c < 0x80 ∧ c ≠ 0 := forall_mem_ascii (by decide)
  rcases List.mem_append.1 h with h | h
  · have hdigit := digit_of_mem_ascii_toString h
    grind
  · exact hdot c h

theorem utf8_buildFooter_iff :
    Utf8 (buildFooter links) ↔ ∀ link ∈ links, Utf8 (cString link) := by
  rw [buildFooter]
  split
  · next h =>
    subst h
    exact ⟨fun _ => nofun, fun _ => Utf8.nil⟩
  · have hheading : Utf8 (ascii "\n\nLinks:\n") := utf8_of_ascii (forall_mem_ascii (by decide))
    rw [hheading.append_iff]
    exact utf8_lines_iff fun i => utf8_of_ascii fun _ hc => (of_mem_lineNumber hc).1

theorem notMem_buildFooter : 0 ∉ buildFooter links := by
  rw [buildFooter]
  split
  · exact List.not_mem_nil
  · rw [List.mem_append, not_or]
    exact ⟨by decide, notMem_lines fun i hzero => (of_mem_lineNumber hzero).2 rfl⟩

end Footer

/-! ## The whole -/

/-- Whether the links are shown: there is room for them, and no NUL in front of them. -/
def ShowsFooter (x : Extract) (maxChars : Nat) : Prop :=
  (fitsWhole x maxChars = true ∨
    (titlePart x.title).length + (buildFooter x.links).length + markerRoom ≤ maxChars) ∧
  0 ∉ x.title ∧ 0 ∉ x.w.out.take (keptLength x maxChars)

theorem zero_mem_titlePart {title : List UInt8} : 0 ∈ titlePart title ↔ 0 ∈ title := by
  rw [titlePart]
  split
  · next h => rw [h]
  · rw [List.mem_append, List.mem_append, or_assoc, or_iff_right (by decide)]
    exact or_iff_left (by decide)

theorem notMem_truncatedMarker (omitted : Nat) : 0 ∉ truncatedMarker omitted := by
  intro h
  rcases List.mem_cons.1 (List.mem_of_mem_take h) with h | h
  · exact absurd h (by decide)
  · exact @forall_mem_ascii_number (· ≠ 0) _ _ _ (forall_mem_ascii (by decide))
      (forall_mem_ascii (by decide)) (by grind) 0 h rfl

/-- The text in front of the links, and the links where they are shown. -/
theorem exists_assemble {x : Extract} (hout : Utf8 x.w.out) (htitle : Utf8 x.title)
    (maxChars : Nat) : ∃ front footer, assemble x maxChars = front ++ footer ∧ Utf8 front ∧
      (ShowsFooter x maxChars ∧ 0 ∉ front ∧ footer = buildFooter x.links ∨
        ¬ShowsFooter x maxChars ∧ (0 ∈ front ∨ footer = [])) := by
  rw [assemble]
  split
  · next hfits =>
    refine ⟨titlePart x.title ++ x.w.out ++ [], buildFooter x.links, rfl,
      ((utf8_titlePart htitle).append hout).append Utf8.nil, ?_⟩
    have hshown : ShowsFooter x maxChars ↔ 0 ∉ titlePart x.title ++ x.w.out ++ [] := by
      rw [ShowsFooter, keptLength, if_pos hfits, List.take_length, List.append_nil, List.mem_append,
        zero_mem_titlePart, not_or]
      exact and_iff_right (Or.inl hfits)
    by_cases hshows : ShowsFooter x maxChars
    · exact Or.inl ⟨hshows, hshown.1 hshows, rfl⟩
    · exact Or.inr ⟨hshows, Or.inl (not_not.1 fun h => hshows (hshown.2 h))⟩
  next hfits =>
  dsimp only
  generalize hmarker : shownMarker _ _ _ _ = marker
  have hmarker' : Utf8 marker ∧ 0 ∉ marker := by
    rw [← hmarker, shownMarker]
    split
    · exact ⟨utf8_truncatedMarker _, notMem_truncatedMarker _⟩
    · exact ⟨Utf8.nil, List.not_mem_nil⟩
  have hkept : assembleCut x.w.out (bodyBudget ((titlePart (keptTitle x maxChars)).length +
      (keptFooter x maxChars).length) maxChars).1 = keptLength x maxChars := (if_neg hfits).symm
  have hlength : Utf8 (x.w.out.take (keptLength x maxChars)) := by
    rw [← hkept]
    exact utf8_take_assembleCut hout _
  have hkeptTitle : Utf8 (keptTitle x maxChars) := by
    rw [keptTitle]
    split
    · exact Utf8.nil
    · exact htitle
  rw [hkept]
  refine ⟨titlePart (keptTitle x maxChars) ++ x.w.out.take (keptLength x maxChars) ++ marker,
    keptFooter x maxChars, rfl, ((utf8_titlePart hkeptTitle).append hlength).append hmarker'.1, ?_⟩
  by_cases hroom : maxChars < (titlePart x.title).length + (buildFooter x.links).length + markerRoom
  · refine Or.inr ⟨fun h => ?_, Or.inr (if_pos hroom)⟩
    rcases h.1 with hwhole | hroom'
    · exact hfits hwhole
    · omega
  · -- where the links are shown, the title is too
    have hfooter : keptFooter x maxChars = buildFooter x.links := if_neg hroom
    have hsame : keptTitle x maxChars = x.title := by
      rw [keptTitle, hfooter, if_neg hroom]
    have hshown : ShowsFooter x maxChars ↔
        0 ∉ titlePart x.title ++ x.w.out.take (keptLength x maxChars) ++ marker := by
      rw [ShowsFooter, List.mem_append, List.mem_append, zero_mem_titlePart, or_iff_left hmarker'.2,
        not_or]
      exact and_iff_right (Or.inr (Nat.le_of_not_lt hroom))
    rw [hsame]
    by_cases hshows : ShowsFooter x maxChars
    · exact Or.inl ⟨hshows, hshown.1 hshows, hfooter⟩
    · exact Or.inr ⟨hshows, Or.inl (not_not.1 fun h => hshows (hshown.2 h))⟩

/-- **The text of a page is UTF-8 within the limit just when the links that it shows are UTF-8.**  They
are the links of the anchors with a marker in the text, each cut to the size of its buffer. -/
theorem utf8_htmlExtractTextAlloc_iff (low : Frame → Bool) (raw : List UInt8) (maxChars : Nat) :
    (Utf8 (htmlExtractTextAlloc low (some raw) maxChars) ∧
        (htmlExtractTextAlloc low (some raw) maxChars).length ≤ maxChars) ↔
      (ShowsFooter (Extract.parse low raw) maxChars →
        ∀ m ∈ (Extract.parse low raw).cites, Utf8 (cString ((hrefOf m.tag).take 2047))) := by
  rw [← Extract.forall_links_iff low raw, ← utf8_buildFooter_iff, htmlExtractTextAlloc]
  obtain ⟨front, footer, hparts, hfront, hcases⟩ := exists_assemble
    (Extract.utf8_out_parse low raw) (Extract.utf8_title_parse low raw) maxChars
  have hlength := length_assemble_le (Extract.parse low raw) maxChars
  generalize Extract.parse low raw = x at hparts hcases hlength ⊢
  split
  · next hzero =>
    subst hzero
    refine iff_of_true ⟨Utf8.nil, Nat.le_refl 0⟩ fun hshows => ?_
    -- there is no room for links
    have hempty : (buildFooter x.links).length = 0 := by
      rcases hshows.1 with hwhole | hroom
      · have hfits := of_decide_eq_true hwhole
        omega
      · rw [markerRoom] at hroom
        omega
    rw [List.length_eq_zero_iff.1 hempty]
    exact Utf8.nil
  have hshort : (cString (assemble x maxChars)).length ≤ maxChars :=
    Nat.le_trans (cString_isPrefix_self _).length_le hlength
  rw [and_iff_left hshort, hparts]
  rcases hcases with ⟨hshows, hnul, rfl⟩ | ⟨hhides, hend⟩
  · rw [cString_append_of_notMem hnul, cString_of_notMem notMem_buildFooter, hfront.append_iff]
    exact ⟨fun h _ => h, fun h => h hshows⟩
  · refine iff_of_true ?_ fun hshows => absurd hshows hhides
    rcases hend with hnul | rfl
    · rw [cString_append_of_mem hnul]
      exact utf8_cString hfront
    · rw [List.append_nil]
      exact utf8_cString hfront

/-- A page with a link in Latin-1. -/
def latinHrefPage : List UInt8 := ascii "<a href='/caf" ++ [0xE9] ++ ascii "'>x</a>"

/-- Its text is not UTF-8. -/
theorem not_utf8_latinHref : ¬∀ (low : Frame → Bool) (raw : List UInt8) (maxChars : Nat),
    Utf8 (htmlExtractTextAlloc low (some raw) maxChars) ∧
      (htmlExtractTextAlloc low (some raw) maxChars).length ≤ maxChars := by
  intro h
  have htext : htmlExtractTextAlloc (fun _ => false) (some latinHrefPage) 100 =
      ascii "x [1]\n\nLinks:\n1. /caf" ++ 0xE9 :: [10] := by
    decide +kernel
  have hutf8 := (h (fun _ => false) latinHrefPage 100).1
  have hvalid : utf8Valid [0xE9, 10] = false := by simp [utf8Valid, utf8Lead]
  rw [htext, (utf8_of_ascii (forall_mem_ascii (by decide))).append_iff, ← utf8Valid_iff, hvalid] at hutf8
  exact Bool.false_ne_true hutf8

end EchoAi.Html
