import EchoAi.Tools.MultiEdit

/-!
# Texts that occur once

The text of an accepted edit occurs in the file, and what else of it occurs there overlaps the first
occurrence.

* `editCountOccurrences_eq_one_iff`: occurrences are counted apart from each other.
* `foundOnce_iff`: a text is found once just when all its places lie within the first.
* `editContent_apart`: the places of the texts of accepted edits.
* `not_editContent_unique`: an accepted text that has two places.
-/

namespace EchoAi

theorem editCountOccurrences_eq_zero_iff {needle haystack : List UInt8} (hne : needle ≠ [])
    {fuel : Nat} (hfuel : haystack.length ≤ fuel) :
    editCountOccurrences needle fuel haystack = 0 ↔ placesOf needle haystack = ∅ := by
  rw [← firstInfix_eq_none_iff]
  cases fuel with
  | zero =>
    have hnil : haystack = [] := List.eq_nil_of_length_eq_zero (Nat.le_zero.mp hfuel)
    rw [hnil, firstInfix, if_neg hne]
    exact iff_of_true rfl rfl
  | succ fuel =>
    rw [editCountOccurrences]
    cases firstInfix needle haystack with
    | none => exact iff_of_true rfl rfl
    | some i => exact iff_of_false (Nat.succ_ne_zero _) (Option.some_ne_none i)

/-- Occurrences are counted apart from each other: just one is found when every place begins within
the first. -/
theorem editCountOccurrences_eq_one_iff {needle haystack : List UInt8} (hne : needle ≠ [])
    {fuel : Nat} (hfuel : haystack.length ≤ fuel) :
    editCountOccurrences needle fuel haystack = 1 ↔
      ∃ i, IsLeast (placesOf needle haystack) i ∧
        ∀ j ∈ placesOf needle haystack, j < i + needle.length := by
  have hpos := List.length_pos_of_ne_nil hne
  cases hfirst : firstInfix needle haystack with
  | none =>
    have hnone := firstInfix_eq_none_iff.mp hfirst
    rw [(editCountOccurrences_eq_zero_iff hne hfuel).mpr hnone]
    refine iff_of_false (by omega) ?_
    rintro ⟨i, hleast, -⟩
    rw [hnone] at hleast
    exact hleast.1
  | some i =>
    have hleast := isLeast_firstInfix hfirst
    have hle := firstInfix_le hfirst
    cases fuel with
    | zero => omega
    | succ fuel =>
      have hrest : (haystack.drop (i + needle.length)).length ≤ fuel := by
        rw [List.length_drop]
        omega
      rw [editCountOccurrences, hfirst]
      dsimp only
      rw [Nat.add_eq_right, editCountOccurrences_eq_zero_iff hne hrest,
        Set.eq_empty_iff_forall_notMem]
      constructor
      · intro hempty
        refine ⟨i, hleast, fun j hj => ?_⟩
        by_contra hbehind
        refine hempty (j - (i + needle.length)) ?_
        have hsum : i + needle.length + (j - (i + needle.length)) = j := by omega
        show needle <+: (haystack.drop (i + needle.length)).drop (j - (i + needle.length))
        rw [List.drop_drop, hsum]
        exact hj
      · rintro ⟨i', hleast', hwithin⟩ k hk
        have hplace : i + needle.length + k ∈ placesOf needle haystack := by
          show needle <+: haystack.drop (i + needle.length + k)
          rw [← List.drop_drop]
          exact hk
        have hlt := hwithin _ hplace
        rw [hleast'.unique hleast] at hlt
        omega

/-- The text of an edit is found once just when all its places begin within the first. -/
theorem foundOnce_iff {norm : List UInt8} {item : EditItem} (hne : item.oldStr.bytes ≠ []) :
    FoundOnce norm item ↔ ∃ i, IsLeast (placesOf (oldText item) norm) i ∧
      ∀ j ∈ placesOf (oldText item) norm, j < i + (oldText item).length :=
  editCountOccurrences_eq_one_iff (oldText_ne_nil hne) (Nat.le_refl _)

/-- **The text of an accepted edit occurs once up to overlaps**: the first of its places is replaced,
the others begin within it, and there are no others when the text does not overlap itself. -/
theorem editContent_apart {maxFileSize : Nat} {path : String} {content : List UInt8}
    {items : List EditItem} {written : List UInt8}
    (h : editContent maxFileSize path content items = .ok written) :
    ∃ ms, editMatches path (editNormalizeLf (fileText content)) items = .ok ms ∧
      written = editedContent content items ms ∧
      ∀ i item, items[i]? = some item → ∃ m ∈ ms, m.editIdx = i ∧
        m.length = (oldText item).length ∧
        IsLeast (placesOf (oldText item) (editNormalizeLf (fileText content))) m.index ∧
        (∀ j ∈ placesOf (oldText item) (editNormalizeLf (fileText content)),
          j < m.index + m.length) ∧
        (Unbordered (oldText item) →
          placesOf (oldText item) (editNormalizeLf (fileText content)) = {m.index}) := by
  obtain ⟨-, hne, -, ms, hms, hwritten, -⟩ := editContent_eq_ok_iff.mp h
  refine ⟨ms, hms, hwritten, fun i item hitem => ?_⟩
  obtain ⟨hfounds, -, rfl⟩ := editMatches_eq_ok_iff.mp hms
  have hmem : item ∈ items := List.mem_of_getElem? hitem
  have hfound := hfounds item hmem
  have hleast := isLeast_firstInfix hfound.firstInfix_eq
  have hwithin : ∀ j ∈ placesOf (oldText item) (editNormalizeLf (fileText content)),
      j < (placeOf (editNormalizeLf (fileText content)) item).index + (oldText item).length := by
    obtain ⟨first, hfirst, hwithin⟩ := (foundOnce_iff (hne item hmem)).mp hfound
    rwa [hfirst.unique hleast] at hwithin
  refine ⟨{ toSpan := placeOf (editNormalizeLf (fileText content)) item, editIdx := 0 + i }, ?_,
    Nat.zero_add i, rfl, hleast, hwithin, fun hborder => ?_⟩
  · obtain ⟨hi, rfl⟩ := List.getElem?_eq_some_iff.mp hitem
    exact (sortMatches_perm _).mem_iff.mpr (List.mem_mapIdx.mpr ⟨i, hi, rfl⟩)
  · refine Set.eq_singleton_iff_unique_mem.mpr ⟨hleast.1, fun j hj => ?_⟩
    -- a place behind the first would begin behind its end
    by_contra hother
    have hlt := lt_of_le_of_ne (hleast.2 hj) (Ne.symm hother)
    have hapart := hborder.apart hleast.1 hj hlt
    have hover := hwithin j hj
    omega

/-- A text of one letter, which occurs once. -/
theorem editContent_apart_oneLine :
    ∃ ms, editMatches "f" (editNormalizeLf (fileText [97, 13, 10])) [letterEdit 97 98 (by decide)] =
        .ok ms ∧
      [98, 13, 10] = editedContent [97, 13, 10] [letterEdit 97 98 (by decide)] ms ∧
      ∀ i item, [letterEdit 97 98 (by decide)][i]? = some item → ∃ m ∈ ms, m.editIdx = i ∧
        m.length = (oldText item).length ∧
        IsLeast (placesOf (oldText item) (editNormalizeLf (fileText [97, 13, 10]))) m.index ∧
        (∀ j ∈ placesOf (oldText item) (editNormalizeLf (fileText [97, 13, 10])),
          j < m.index + m.length) ∧
        (Unbordered (oldText item) →
          placesOf (oldText item) (editNormalizeLf (fileText [97, 13, 10])) = {m.index}) :=
  @editContent_apart 100 _ _ _ _ (by decide)

theorem noNul_letter : (0 : UInt8) ∉ [98] := by decide

/-- Replacing two equal letters. -/
def twinEdit : EditItem where
  oldStr := ⟨[97, 97], by decide⟩
  newStr := ⟨[98], noNul_letter⟩

/-- Among three equal letters two of them have two places, and the edit is accepted. -/
theorem not_editContent_unique :
    ¬∀ (maxFileSize : Nat) (path : String) (content : List UInt8) (items : List EditItem)
      (written : List UInt8), editContent maxFileSize path content items = .ok written →
        ∀ item ∈ items, ∃! j, j ∈ placesOf (oldText item) (editNormalizeLf (fileText content)) := by
  intro hall
  obtain ⟨j, -, hunique⟩ := hall 100 "f" [97, 97, 97] [twinEdit] [98, 97] (by decide) twinEdit
    List.mem_cons_self
  have hfirst : 0 ∈ placesOf (oldText twinEdit) (editNormalizeLf (fileText [97, 97, 97])) :=
    show [97, 97] <+: [97, 97, 97] by decide
  have hsecond : 1 ∈ placesOf (oldText twinEdit) (editNormalizeLf (fileText [97, 97, 97])) :=
    show [97, 97] <+: [97, 97] by decide
  exact absurd ((hunique 0 hfirst).trans (hunique 1 hsecond).symm) (by decide)

end EchoAi
