import EchoAi.Tools.Edit
import Mathlib.Data.List.Pairwise

/-!
# Several edits at the same time

Accepted edits are carried out together: each text is sought in the file as it was.

* `oldText`, `replacement`, `placeOf`: an edit with uniform line endings, and its place.
* `ReplacedTogether`: a text and what comes of it, with the same texts between the edits.
* `editMatches_eq_ok_iff`: the places that are accepted.
* `placed`: the places with their edits, the same for every order of the edits (`placed_perm`).
* `editContent_together`: what is written, in whatever order the edits are listed.
-/

namespace EchoAi

/-! ## Edits and places -/

/-- The text that an edit replaces, normalized. -/
def oldText (item : EditItem) : List UInt8 := editNormalizeLf item.oldStr.bytes

/-- The text that an edit puts in, normalized. -/
def replacement (item : EditItem) : List UInt8 := editNormalizeLf item.newStr.bytes

/-- The text of an edit is found once. -/
def FoundOnce (norm : List UInt8) (item : EditItem) : Prop :=
  editCountOccurrences (oldText item) norm.length norm = 1

/-- The place of an edit: where its text first occurs. -/
def placeOf (norm : List UInt8) (item : EditItem) : Span where
  index := (firstInfix (oldText item) norm).getD 0
  length := (oldText item).length

/-- Edits carried out together: what comes of the text has the replacements where the text has the
old texts, each at its first occurrence, and between them it is the same. -/
def ReplacedTogether (norm : List UInt8) (items : List EditItem) (out : List UInt8) : Prop :=
  ∃ pieces last, (pieces.map Prod.snd).Perm items ∧ norm = weave oldText pieces last ∧
    out = weave replacement pieces last ∧
    ∀ before kept item after, pieces = before ++ (kept, item) :: after →
      firstInfix (oldText item) norm = some (weave oldText before kept).length

theorem oldText_ne_nil {item : EditItem} (h : item.oldStr.bytes ≠ []) : oldText item ≠ [] := by
  obtain ⟨b, bs, hbytes⟩ := List.exists_cons_of_ne_nil h
  rw [oldText, editNormalizeLf_eq, hbytes]
  intro hnil
  have hletters := flatMap_raw_letters (b :: bs)
  rw [List.map_eq_nil_iff.mp hnil] at hletters
  exact List.cons_ne_nil b bs hletters.symm

/-- A text that is found once occurs first at the place of its edit. -/
theorem FoundOnce.firstInfix_eq {norm : List UInt8} {item : EditItem} (h : FoundOnce norm item) :
    firstInfix (oldText item) norm = some (placeOf norm item).index := by
  rw [FoundOnce] at h
  cases hfirst : firstInfix (oldText item) norm with
  | some index => rw [placeOf, hfirst, Option.getD_some]
  | none =>
    have hzero : editCountOccurrences (oldText item) norm.length norm = 0 := by
      cases norm.length with
      | zero => rfl
      | succ fuel => rw [editCountOccurrences, hfirst]
    omega

theorem editMatch_eq_ok_iff {path : String} {norm : List UInt8} {n i : Nat} {item : EditItem}
    {m : EditMatch} :
    editMatch path norm n i item = .ok m ↔
      FoundOnce norm item ∧ m = { toSpan := placeOf norm item, editIdx := i } := by
  constructor
  · intro h
    obtain ⟨hidx, hlen, hfirst⟩ := of_editMatch h
    have hfound : FoundOnce norm item := by
      simp only [editMatch] at h
      split at h
      · exact absurd h (by simp)
      split at h
      · exact absurd h (by simp)
      · rw [FoundOnce, oldText]
        omega
    refine ⟨hfound, ?_⟩
    have hindex : m.index = (placeOf norm item).index :=
      Option.some.inj (hfirst.symm.trans hfound.firstInfix_eq)
    obtain ⟨⟨index, length⟩, editIdx⟩ := m
    dsimp only at hidx hlen hindex
    rw [hidx, hlen, hindex]
    rfl
  · rintro ⟨hfound, rfl⟩
    have hfirst := hfound.firstInfix_eq
    rw [FoundOnce] at hfound
    rw [oldText] at hfirst hfound
    simp only [editMatch, hfound, hfirst]
    rfl

theorem matchesFrom_eq_ok_iff {path : String} {norm : List UInt8} {n i : Nat}
    {items : List EditItem} {ms : List EditMatch} :
    matchesFrom path norm n i items = .ok ms ↔ (∀ item ∈ items, FoundOnce norm item) ∧
      ms = items.mapIdx fun j item => { toSpan := placeOf norm item, editIdx := i + j } := by
  induction items generalizing i ms with
  | nil =>
    rw [matchesFrom, List.mapIdx_nil, Except.ok.injEq, eq_comm]
    exact (and_iff_right (by simp)).symm
  | cons item items ih =>
    have hshift : (fun (j : Nat) (item : EditItem) =>
          ({ toSpan := placeOf norm item, editIdx := i + (j + 1) } : EditMatch)) =
        fun j item => { toSpan := placeOf norm item, editIdx := i + 1 + j } := by
      funext j item
      rw [Nat.add_assoc, Nat.add_comm 1 j]
    rw [matchesFrom, List.forall_mem_cons, List.mapIdx_cons, hshift]
    constructor
    · intro h
      split at h
      · exact absurd h (by simp)
      next m hm =>
      split at h
      · exact absurd h (by simp)
      next ms' hms' =>
      obtain ⟨hfound, rfl⟩ := editMatch_eq_ok_iff.mp hm
      obtain ⟨hfounds, rfl⟩ := ih.mp hms'
      exact ⟨⟨hfound, hfounds⟩, (Except.ok.inj h).symm⟩
    · rintro ⟨⟨hfound, hfounds⟩, rfl⟩
      rw [editMatch_eq_ok_iff.mpr ⟨hfound, rfl⟩, ih.mpr ⟨hfounds, rfl⟩]
      rfl

/-! ## The order of the places -/

theorem insertMatch_perm (m : EditMatch) (ms : List EditMatch) : (insertMatch m ms).Perm (m :: ms) := by
  induction ms with
  | nil => exact List.Perm.refl _
  | cons a ms ih =>
    rw [insertMatch]
    split
    · exact (ih.cons a).trans (List.Perm.swap m a ms)
    · exact List.Perm.refl _

theorem sortMatches_perm (ms : List EditMatch) : (sortMatches ms).Perm ms := by
  have hfold : ∀ (ms sorted : List EditMatch),
      (ms.foldl (fun sorted m => insertMatch m sorted) sorted).Perm (sorted ++ ms) := by
    intro ms
    induction ms with
    | nil =>
      intro sorted
      rw [List.foldl_nil, List.append_nil]
    | cons m ms ih =>
      intro sorted
      have hinsert := (insertMatch_perm m sorted).append_right ms
      exact (ih _).trans (hinsert.trans List.perm_middle.symm)
  exact hfold ms []

theorem pairwise_insertMatch {m : EditMatch} {ms : List EditMatch}
    (h : ms.Pairwise fun a b => a.index ≤ b.index) :
    (insertMatch m ms).Pairwise fun a b => a.index ≤ b.index := by
  induction ms with
  | nil => exact List.pairwise_singleton _ m
  | cons a ms ih =>
    obtain ⟨ha, hms⟩ := List.pairwise_cons.mp h
    rw [insertMatch]
    split
    · next hle =>
      refine List.pairwise_cons.mpr ⟨fun b hb => ?_, ih hms⟩
      rcases mem_insertMatch hb with rfl | hb
      · exact hle
      · exact ha b hb
    · next hlt =>
      refine List.pairwise_cons.mpr ⟨fun b hb => ?_, h⟩
      rcases List.mem_cons.mp hb with rfl | hb
      · omega
      · have hab := ha b hb
        omega

theorem pairwise_sortMatches (ms : List EditMatch) :
    (sortMatches ms).Pairwise fun a b => a.index ≤ b.index := by
  have hfold : ∀ (ms sorted : List EditMatch), (sorted.Pairwise fun a b => a.index ≤ b.index) →
      (ms.foldl (fun sorted m => insertMatch m sorted) sorted).Pairwise
        fun a b => a.index ≤ b.index := by
    intro ms
    induction ms with
    | nil => exact fun sorted h => h
    | cons m ms ih => exact fun sorted h => ih _ (pairwise_insertMatch h)
  exact hfold ms [] List.Pairwise.nil

/-- One place ends before another one begins. -/
def Span.Before (a b : Span) : Prop := a.index + a.length ≤ b.index

/-- Whether places overlap is about where they are, not about whose they are. -/
theorem overlap?_eq_none_iff {ms : List EditMatch} :
    overlap? ms = none ↔ (ms.map (·.toSpan)).IsChain Span.Before := by
  induction ms with
  | nil => exact iff_of_true rfl List.IsChain.nil
  | cons a ms ih =>
    cases ms with
    | nil => exact iff_of_true rfl (List.IsChain.singleton _)
    | cons b ms =>
      rw [List.map_cons, List.map_cons, List.isChain_cons_cons, ← List.map_cons, ← ih, overlap?]
      split
      · next hover =>
        refine iff_of_false (Option.some_ne_none _) fun h => ?_
        have hbefore : a.index + a.length ≤ b.index := h.1
        omega
      · next hapart => exact (and_iff_right (not_lt.mp hapart)).symm

instance : IsTrans Span Span.Before where
  trans a b c hab hbc := by
    rw [Span.Before] at hab hbc ⊢
    omega

/-! ## The places with their edits -/

/-- The places with the edits that they belong to. -/
def placed (items : List EditItem) (ms : List EditMatch) : List (Span × EditItem) :=
  ms.filterMap fun m => items[m.editIdx]?.map fun item => (m.toSpan, item)

theorem map_placed {γ : Type*} (f : Span × EditItem → γ) {items : List EditItem}
    {ms : List EditMatch} (g : EditMatch → γ)
    (h : ∀ m ∈ ms, ∃ item, items[m.editIdx]? = some item ∧ f (m.toSpan, item) = g m) :
    (placed items ms).map f = ms.map g := by
  rw [placed, List.map_filterMap, ← List.filterMap_eq_map]
  refine List.filterMap_congr fun m hm => ?_
  obtain ⟨item, hitem, heq⟩ := h m hm
  rw [hitem, Option.map_some, Option.map_some, heq]
  rfl

theorem placed_mapIdx (norm : List UInt8) (items : List EditItem) :
    placed items (items.mapIdx fun j item => { toSpan := placeOf norm item, editIdx := 0 + j }) =
      items.map fun item => (placeOf norm item, item) := by
  rw [placed, List.mapIdx_eq_zipIdx_map, List.filterMap_map]
  have hlabel : ∀ p ∈ items.zipIdx,
      ((fun m : EditMatch => items[m.editIdx]?.map fun item => (m.toSpan, item)) ∘
        fun p : EditItem × Nat => { toSpan := placeOf norm p.1, editIdx := 0 + p.2 }) p =
      some (placeOf norm p.1, p.1) := by
    intro p hp
    have hitem := List.mem_zipIdx_iff_getElem?.mp hp
    rw [Function.comp_apply, Nat.zero_add, hitem, Option.map_some]
  rw [List.filterMap_congr hlabel, List.filterMap_eq_map']
  have hfst : (fun p : EditItem × Nat => (placeOf norm p.1, p.1)) =
      (fun item => (placeOf norm item, item)) ∘ Prod.fst := rfl
  rw [hfst, ← List.map_map, List.zipIdx_map_fst]

theorem editMatches_eq_ok_iff {path : String} {norm : List UInt8} {items : List EditItem}
    {ms : List EditMatch} :
    editMatches path norm items = .ok ms ↔ (∀ item ∈ items, FoundOnce norm item) ∧
      overlap? ms = none ∧ ms = sortMatches
        (items.mapIdx fun j item => { toSpan := placeOf norm item, editIdx := 0 + j }) := by
  rw [editMatches]
  constructor
  · intro h
    split at h
    · exact absurd h (by simp)
    next found hfound =>
    split at h
    · exact absurd h (by simp)
    next hover =>
    obtain ⟨hfounds, rfl⟩ := matchesFrom_eq_ok_iff.mp hfound
    obtain rfl := Except.ok.inj h
    exact ⟨hfounds, hover, rfl⟩
  · rintro ⟨hfounds, hover, rfl⟩
    rw [matchesFrom_eq_ok_iff.mpr ⟨hfounds, rfl⟩]
    dsimp only
    rw [hover]

/-- The places of edits are the same in whatever order the edits are listed. -/
theorem placed_sortMatches (norm : List UInt8) (items : List EditItem) :
    (placed items (sortMatches
      (items.mapIdx fun j item => { toSpan := placeOf norm item, editIdx := 0 + j }))).Perm
      (items.map fun item => (placeOf norm item, item)) := by
  rw [← placed_mapIdx]
  exact (sortMatches_perm _).filterMap _

theorem exists_item_of_mem_sortMatches {norm : List UInt8} {items : List EditItem} {m : EditMatch}
    (h : m ∈ sortMatches
      (items.mapIdx fun j item => { toSpan := placeOf norm item, editIdx := 0 + j })) :
    ∃ item, items[m.editIdx]? = some item := by
  obtain ⟨i, hi, rfl⟩ := List.mem_mapIdx.mp (mem_sortMatches h)
  dsimp only
  rw [Nat.zero_add]
  exact ⟨items[i], List.getElem?_eq_getElem hi⟩

theorem map_fst_placed {norm : List UInt8} {items : List EditItem} {ms : List EditMatch}
    (h : ms = sortMatches
      (items.mapIdx fun j item => { toSpan := placeOf norm item, editIdx := 0 + j })) :
    (placed items ms).map Prod.fst = ms.map (·.toSpan) := by
  refine map_placed Prod.fst _ fun m hm => ?_
  rw [h] at hm
  obtain ⟨item, hitem⟩ := exists_item_of_mem_sortMatches hm
  exact ⟨item, hitem, rfl⟩

/-- The edits in another order are accepted as well, and they are at the same places. -/
theorem placed_perm {path : String} {norm : List UInt8} {items items' : List EditItem}
    {ms : List EditMatch} (hperm : items'.Perm items)
    (hne : ∀ item ∈ items, item.oldStr.bytes ≠ []) (h : editMatches path norm items = .ok ms) :
    ∃ ms', editMatches path norm items' = .ok ms' ∧ placed items' ms' = placed items ms := by
  obtain ⟨hfounds, hover, hms⟩ := editMatches_eq_ok_iff.mp h
  obtain ⟨ms', hms'⟩ : ∃ ms', ms' = sortMatches
      (items'.mapIdx fun j item => { toSpan := placeOf norm item, editIdx := 0 + j }) := ⟨_, rfl⟩
  have hspans := map_fst_placed hms
  have hspans' := map_fst_placed hms'
  have hplaced : (placed items ms).Perm (items.map fun item => (placeOf norm item, item)) := by
    rw [hms]
    exact placed_sortMatches norm items
  have hplaced' : (placed items' ms').Perm (placed items ms) := by
    rw [hms']
    exact (placed_sortMatches norm items').trans ((hperm.map _).trans hplaced.symm)
  -- no two places begin together
  have hapart : (placed items ms).Pairwise fun a b => a.1.index ≠ b.1.index := by
    have hbefore : (placed items ms).Pairwise fun a b => a.1.Before b.1 := by
      rw [← List.pairwise_map, hspans]
      exact List.isChain_iff_pairwise.mp (overlap?_eq_none_iff.mp hover)
    refine hbefore.imp_of_mem fun {a b} ha _ hab => ?_
    obtain ⟨item, hitem, rfl⟩ := List.mem_map.mp (hplaced.mem_iff.mp ha)
    have hpos : 0 < (placeOf norm item).length :=
      List.length_pos_of_ne_nil (oldText_ne_nil (hne item hitem))
    rw [Span.Before] at hab
    dsimp only at hab ⊢
    omega
  have hsorted : (placed items ms).Pairwise fun a b => a.1.index ≤ b.1.index := by
    rw [← List.pairwise_map (R := fun a b : Span => a.index ≤ b.index), hspans, List.pairwise_map,
      hms]
    exact pairwise_sortMatches _
  have hsorted' : (placed items' ms').Pairwise fun a b => a.1.index ≤ b.1.index := by
    rw [← List.pairwise_map (R := fun a b : Span => a.index ≤ b.index), hspans', List.pairwise_map,
      hms']
    exact pairwise_sortMatches _
  have hsame : placed items' ms' = placed items ms := by
    refine List.Perm.eq_of_pairwise (fun a b ha hb hab hba => ?_) hsorted' hsorted hplaced'
    by_contra hne
    have : Std.Symm fun a b : Span × EditItem => a.1.index ≠ b.1.index := ⟨fun _ _ h => h.symm⟩
    exact hapart.forall (hplaced'.mem_iff.mp ha) hb hne (Nat.le_antisymm hab hba)
  refine ⟨ms', editMatches_eq_ok_iff.mpr ⟨fun item hitem => ?_, ?_, hms'⟩, hsame⟩
  · exact hfounds item (hperm.mem_iff.mp hitem)
  · rw [overlap?_eq_none_iff, ← hspans', hsame, hspans]
    exact overlap?_eq_none_iff.mp hover

/-! ## What is written -/

/-- The normalized content with the replacements, before its line endings are put back. -/
def editedNorm (content : List UInt8) (items : List EditItem) (ms : List EditMatch) : List UInt8 :=
  applyFromRight (editNormalizeLf (fileText content)) (ms.map fun m => (m.toSpan, newText items m))

theorem map_replacement_placed {path : String} {norm : List UInt8} {items : List EditItem}
    {ms : List EditMatch} (h : editMatches path norm items = .ok ms) :
    (placed items ms).map (fun p => (p.1, replacement p.2)) =
      ms.map fun m => (m.toSpan, newText items m) := by
  obtain ⟨-, -, hms⟩ := editMatches_eq_ok_iff.mp h
  refine map_placed _ _ fun m hm => ?_
  rw [hms] at hm
  obtain ⟨item, hitem⟩ := exists_item_of_mem_sortMatches hm
  refine ⟨item, hitem, ?_⟩
  rw [newText, hitem]
  rfl

/-- Accepted edits are carried out together. -/
theorem replacedTogether_of_editMatches {path : String} {content : List UInt8}
    {items : List EditItem} {ms : List EditMatch}
    (h : editMatches path (editNormalizeLf (fileText content)) items = .ok ms) :
    ReplacedTogether (editNormalizeLf (fileText content)) items (editedNorm content items ms) := by
  let norm := editNormalizeLf (fileText content)
  have hmap := map_replacement_placed h
  obtain ⟨hfounds, -, hms⟩ := editMatches_eq_ok_iff.mp h
  have hplaced : (placed items ms).Perm (items.map fun item => (placeOf norm item, item)) := by
    rw [hms]
    exact placed_sortMatches norm items
  have hfirst : ∀ p ∈ placed items ms, p.1.length = (oldText p.2).length ∧
      firstInfix (oldText p.2) norm = some p.1.index := by
    intro p hp
    obtain ⟨item, hitem, rfl⟩ := List.mem_map.mp (hplaced.mem_iff.mp hp)
    exact ⟨rfl, (hfounds item hitem).firstInfix_eq⟩
  have hordered := (of_editMatches h).2 (newText items)
  rw [← hmap] at hordered
  obtain ⟨pieces, last, hsnd, htext, hout, hplaces⟩ := exists_weave oldText replacement hordered
    fun p hp => ⟨(hfirst p hp).1, isPrefix_of_firstInfix (hfirst p hp).2⟩
  have hedited := applyFromRight_eq (Nat.zero_le _) hordered
  rw [hout, List.take_zero, List.nil_append, hmap] at hedited
  refine ⟨pieces, last, ?_, htext, hedited, fun before kept item after hpieces => ?_⟩
  · rw [hsnd]
    have hitems := hplaced.map Prod.snd
    rw [List.map_map] at hitems
    have hid : (Prod.snd ∘ fun item => (placeOf norm item, item)) = (id : EditItem → EditItem) := rfl
    rwa [hid, List.map_id] at hitems
  · have hplace := (hfirst _ (hplaces before kept item after hpieces)).2
    rwa [Nat.zero_add] at hplace

/-- The places do not depend on the texts that are put in. -/
theorem editMatches_congr {path : String} {norm : List UInt8} {items items' : List EditItem}
    (h : items'.map (·.oldStr) = items.map (·.oldStr)) :
    editMatches path norm items' = editMatches path norm items := by
  have hfrom : ∀ (n i : Nat) (items items' : List EditItem),
      items'.map (·.oldStr) = items.map (·.oldStr) →
      matchesFrom path norm n i items' = matchesFrom path norm n i items := by
    intro n i items
    induction items generalizing i with
    | nil =>
      intro items' h
      rw [List.map_eq_nil_iff.mp h]
    | cons item items ih =>
      intro items' h
      obtain ⟨item', items', rfl, hitem, hitems⟩ := List.map_eq_cons_iff.mp h
      have hmatch : editMatch path norm n i item' = editMatch path norm n i item := by
        simp only [editMatch, hitem]
      rw [matchesFrom, matchesFrom, hmatch, ih (i + 1) items' hitems]
  have hlength : items'.length = items.length := by
    have hboth := congrArg List.length h
    rwa [List.length_map, List.length_map] at hboth
  rw [editMatches, editMatches, hlength, hfrom items.length 0 items items' h]

theorem emptyOld?_eq_none_iff {items : List EditItem} :
    emptyOld? items = none ↔ ∀ item ∈ items, item.oldStr.bytes ≠ [] := by
  rw [emptyOld?, List.findIdx?_eq_none_iff]
  simp only [beq_eq_false_iff_ne]

theorem editContent_eq_ok_iff {maxFileSize : Nat} {path : String} {content : List UInt8}
    {items : List EditItem} {written : List UInt8} :
    editContent maxFileSize path content items = .ok written ↔
      items ≠ [] ∧ (∀ item ∈ items, item.oldStr.bytes ≠ []) ∧
      ¬(content = [] ∨ maxFileSize < content.length) ∧
      ∃ ms, editMatches path (editNormalizeLf (fileText content)) items = .ok ms ∧
        written = editedContent content items ms ∧ written ≠ content := by
  rw [← emptyOld?_eq_none_iff, editContent]
  constructor
  · intro h
    split at h
    · exact absurd h (by simp)
    next hitems =>
    split at h
    · exact absurd h (by simp)
    next hempty =>
    split at h
    · exact absurd h (by simp)
    next hsize =>
    split at h
    · exact absurd h (by simp)
    next ms hms =>
    dsimp only at h
    split at h
    · exact absurd h (by simp)
    next hchanged =>
    obtain rfl := Except.ok.inj h
    exact ⟨hitems, hempty, hsize, ms, hms, rfl, hchanged⟩
  · rintro ⟨hitems, hempty, hsize, ms, hms, rfl, hchanged⟩
    rw [if_neg hitems, hempty]
    dsimp only
    rw [if_neg hsize, hms]
    dsimp only
    rw [if_neg hchanged]

/-- **Several edits are carried out at the same time**, each on the text as it was: in whatever order
they are listed they come to the same, and their places do not depend on what is put in. -/
theorem editContent_together {maxFileSize : Nat} {path : String} {content : List UInt8}
    {items : List EditItem} {written : List UInt8}
    (h : editContent maxFileSize path content items = .ok written) :
    ∃ ms, editMatches path (editNormalizeLf (fileText content)) items = .ok ms ∧
      written = content.take (bomLen content) ++
        editRestoreEndings (editDetectEnding (fileText content)) (editedNorm content items ms) ∧
      ReplacedTogether (editNormalizeLf (fileText content)) items (editedNorm content items ms) ∧
      (∀ items', items'.Perm items → editContent maxFileSize path content items' = .ok written) ∧
      ∀ items', items'.map (·.oldStr) = items.map (·.oldStr) →
        editMatches path (editNormalizeLf (fileText content)) items' = .ok ms := by
  obtain ⟨hitems, hne, hsize, ms, hms, hwritten, hchanged⟩ := editContent_eq_ok_iff.mp h
  refine ⟨ms, hms, hwritten, replacedTogether_of_editMatches hms, fun items' hperm => ?_,
    fun items' holds => (editMatches_congr holds).trans hms⟩
  obtain ⟨ms', hms', hsame⟩ := placed_perm hperm hne hms
  have hedited : editedContent content items' ms' = editedContent content items ms := by
    rw [editedContent, editedContent, ← map_replacement_placed hms', ← map_replacement_placed hms,
      hsame]
  refine editContent_eq_ok_iff.mpr ⟨?_, fun item hitem => hne item (hperm.mem_iff.mp hitem), hsize,
    ms', hms', hwritten.trans hedited.symm, hchanged⟩
  rintro rfl
  exact hitems hperm.symm.eq_nil

/-- Two edits, each of which puts in what the other one replaces. -/
theorem editContent_together_swap :
    ∃ ms, editMatches "f" (editNormalizeLf (fileText [97, 98]))
        [letterEdit 97 98 (by decide), letterEdit 98 97 (by decide)] = .ok ms ∧
      [98, 97] = List.take (bomLen [97, 98]) [97, 98] ++
        editRestoreEndings (editDetectEnding (fileText [97, 98])) (editedNorm [97, 98]
          [letterEdit 97 98 (by decide), letterEdit 98 97 (by decide)] ms) ∧
      ReplacedTogether (editNormalizeLf (fileText [97, 98]))
        [letterEdit 97 98 (by decide), letterEdit 98 97 (by decide)] (editedNorm [97, 98]
          [letterEdit 97 98 (by decide), letterEdit 98 97 (by decide)] ms) ∧
      (∀ items', items'.Perm [letterEdit 97 98 (by decide), letterEdit 98 97 (by decide)] →
        editContent 100 "f" [97, 98] items' = .ok [98, 97]) ∧
      ∀ items', items'.map (·.oldStr) =
          [letterEdit 97 98 (by decide), letterEdit 98 97 (by decide)].map (·.oldStr) →
        editMatches "f" (editNormalizeLf (fileText [97, 98])) items' = .ok ms :=
  @editContent_together 100 "f" [97, 98] _ [98, 97] (by decide)

end EchoAi
