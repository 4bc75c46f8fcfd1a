import EchoAi.Agent.ContextSelection
import Mathlib.Algebra.Order.BigOperators.Group.List
import Mathlib.Algebra.Order.Group.Nat

/-!
# Head and tail of the conversation

* `windowKept`: the positions of the messages that the window keeps.
* `last_mem_trimKept_iff`: the second cut keeps the last message exactly when it is a system message or
  fits the token budget.
* `exact_and_last_mem_smartSelected_iff`: when the first cut keeps the last message.
* `keepsHeadAndTail_iff`: when the window keeps every system message and the most recent message.
* `charsFit_iff`, `trimmed_iff_over`: the list is cut exactly when it is over a budget.
-/

namespace EchoAi

variable {msgs : List Message} {keepCount maxTokens : Nat}

/-! ## The second cut -/

theorem subset_keepRecent (n : Nat) (kept : Finset Nat) (budget : Nat) :
    kept ⊆ keepRecent msgs n kept budget := by
  induction n generalizing kept budget with
  | zero => exact Finset.Subset.refl _
  | succ n ih =>
    rw [keepRecent]
    split_ifs
    · exact ih _ _
    · exact (Finset.subset_insert _ _).trans (ih _ _)
    · exact Finset.Subset.refl _

theorem subset_unorphan (kept : Finset Nat) (i : Nat) : kept ⊆ unorphan msgs kept i := by
  have hinsert : ∀ (b : Bool) (x : Nat) (s : Finset Nat), s ⊆ if b then insert x s else s := by
    intro b x s
    split
    · exact Finset.subset_insert _ _
    · exact Finset.Subset.refl _
  exact (hinsert _ _ _).trans (hinsert _ _ _)

theorem subset_unorphanPass (kept : Finset Nat) : kept ⊆ unorphanPass msgs kept := by
  rw [unorphanPass]
  generalize List.range' 1 (msgs.length - 1) = is
  induction is generalizing kept with
  | nil => exact Finset.Subset.refl _
  | cons i is ih => exact (subset_unorphan kept i).trans (ih _)

theorem mem_flagged {kept : Finset Nat} {i : Nat} :
    i ∈ flagged msgs kept ↔ i < msgs.length ∧ i ∈ kept := by
  rw [flagged, List.mem_filter, List.mem_range, decide_eq_true_iff]

theorem flagged_sublist (msgs : List Message) (kept : Finset Nat) :
    (flagged msgs kept).Sublist (List.range msgs.length) := List.filter_sublist

theorem trimKept_sublist (msgs : List Message) (maxTokens : Nat) :
    (trimKept msgs maxTokens).Sublist (List.range msgs.length) := by
  rw [trimKept]
  split
  · exact List.Sublist.refl _
  · exact List.filter_sublist

/-- The positions of the system messages, as a set. -/
theorem mem_systemSet {i : Nat} :
    i ∈ (Finset.range msgs.length).filter (fun i => isSystem msgs i = true) ↔
      isSystem msgs i = true := by
  rw [Finset.mem_filter, Finset.mem_range]
  exact ⟨fun h => h.2, fun h => ⟨lt_length_of_hasRole h, h⟩⟩

/-- System messages alone need no repair. -/
theorem unorphaned_systemSet :
    Unorphaned msgs ((Finset.range msgs.length).filter fun i => isSystem msgs i = true) := by
  refine ⟨fun i hi hfollows => ?_, fun i hi hcalls => ?_⟩
  · rw [mem_systemSet] at hi
    have htool := (followsAssistant_iff.mp hfollows).1
    rw [not_isToolRole_of_isSystem hi] at htool
    exact Bool.noConfusion htool
  · rw [mem_systemSet] at hi
    have hother := (mem_others.mp (mem_others_of_callsNext hcalls)).2.1
    rw [hi] at hother
    exact Bool.noConfusion hother

/-- The second cut keeps every system message. -/
theorem mem_trimKept_of_isSystem {i : Nat} (h : isSystem msgs i = true) :
    i ∈ trimKept msgs maxTokens := by
  rw [trimKept]
  split
  · exact List.mem_range.mpr (lt_length_of_hasRole h)
  · rw [mem_flagged]
    refine ⟨lt_length_of_hasRole h, subset_unorphanPass _ (subset_keepRecent _ _ _ ?_)⟩
    exact mem_systemSet.mpr h

theorem tokensAt_le_totalTokens (msgs : List Message) (i : Nat) :
    tokensAt msgs i ≤ totalTokens msgs := by
  rw [tokensAt, totalTokens]
  cases hm : msgs[i]? with
  | none => exact Nat.zero_le _
  | some m =>
    have hmem : estimateTokens m.content ∈ msgs.map fun m => estimateTokens m.content :=
      List.mem_map_of_mem (List.mem_of_getElem? hm)
    exact List.single_le_sum (fun _ _ => Nat.zero_le _) _ hmem

/-- **The second cut keeps the last message** exactly when it is a system message or fits the token
budget. -/
theorem last_mem_trimKept_iff (h : 0 < msgs.length) :
    msgs.length - 1 ∈ trimKept msgs maxTokens ↔
      isSystem msgs (msgs.length - 1) = true ∨ tokensAt msgs (msgs.length - 1) ≤ maxTokens := by
  obtain ⟨n, hn⟩ : ∃ n, msgs.length = n + 1 := ⟨msgs.length - 1, by omega⟩
  cases hs : isSystem msgs (msgs.length - 1) with
  | true => exact iff_of_true (mem_trimKept_of_isSystem hs) (Or.inl rfl)
  | false =>
    rw [or_iff_right Bool.false_ne_true, trimKept]
    split
    · next hfit =>
      refine iff_of_true (List.mem_range.mpr (by omega)) ?_
      exact (tokensAt_le_totalTokens msgs _).trans hfit
    · rw [mem_flagged]
      rw [hn, Nat.add_sub_cancel] at hs ⊢
      have hnew : n ∉ (Finset.range (n + 1)).filter fun i => isSystem msgs i = true := by
        rw [Finset.mem_filter, hs]
        exact fun hmem => Bool.noConfusion hmem.2
      rw [keepRecent, if_neg hnew]
      constructor
      · rintro ⟨-, hmem⟩
        by_contra hfit
        rw [if_neg hfit, ← hn, unorphaned_systemSet.unorphanPass_eq, mem_systemSet, hs] at hmem
        exact Bool.noConfusion hmem
      · intro hfit
        rw [if_pos hfit]
        refine ⟨Nat.lt_succ_self n, subset_unorphanPass _ (subset_keepRecent _ _ _ ?_)⟩
        exact Finset.mem_insert_self _ _

/-! ## The first cut -/

section FirstCut

variable (q : Qsort)

/-- The walk reaches all system messages when there is a budget for more than them. -/
theorem walked_of_systems_lt (h : (systems msgs).length < keepCount) :
    ∃ sys, sys.Perm (systems msgs) ∧ walked q msgs keepCount =
      sys ++ Budget.reach (positionWeight msgs) (keepCount - (systems msgs).length)
        ((tools msgs).reverse ++ (others msgs).reverse) := by
  obtain ⟨sys, hsys, horder⟩ := priorityOrder_eq q msgs keepCount
  have hone : ∀ i ∈ sys, positionWeight msgs i = 1 := fun i hi =>
    positionWeight_eq_one (not_isToolRole_of_isSystem (mem_systems.mp (hsys.subset hi)))
  have hweight : Budget.weight (positionWeight msgs) sys = (systems msgs).length := by
    rw [Budget.weight_eq_length hone, hsys.length_eq]
  refine ⟨sys, hsys, ?_⟩
  rw [walked, horder, Budget.reach_append_of_le (fun i _ => positionWeight_pos i)
    (by rw [hweight]; omega), hweight]

theorem mem_walked_of_isSystem (h : (systems msgs).length < keepCount) {i : Nat}
    (hi : isSystem msgs i = true) : i ∈ walked q msgs keepCount := by
  obtain ⟨sys, hsys, hwalked⟩ := walked_of_systems_lt q h
  rw [hwalked]
  exact List.mem_append_left _ (hsys.symm.subset (mem_systems.mpr hi))

/-- The last position of a class is the first to be reached. -/
theorem reverse_filter_range_succ {p : Nat → Bool} {n : Nat} (h : p n = true) :
    ((List.range (n + 1)).filter p).reverse = n :: ((List.range n).filter p).reverse := by
  rw [List.range_succ, List.filter_append, List.filter_cons_of_pos h, List.filter_nil,
    List.reverse_append, List.reverse_singleton, List.singleton_append]

theorem last_mem_walked_iff (hlt : (systems msgs).length < keepCount) (h : 0 < msgs.length) :
    msgs.length - 1 ∈ walked q msgs keepCount ↔
      demand msgs < keepCount ∨ msgs.length - 1 ∉ others msgs := by
  obtain ⟨n, hn⟩ : ∃ n, msgs.length = n + 1 := ⟨msgs.length - 1, by omega⟩
  rw [hn, Nat.add_sub_cancel]
  by_cases hother : n ∈ others msgs
  · rw [or_iff_left (not_not.mpr hother)]
    constructor
    · intro hmem
      by_contra hle
      rcases walked_cases q msgs keepCount with ⟨sys, hsys, -, hwalked⟩ | ⟨-, -, hgt, -⟩
      · rw [hwalked] at hmem
        exact not_mem_others_of_front hsys ((Budget.reach_prefix _ _ _).subset hmem) hother
      · exact hle hgt
    · intro hgt
      rcases walked_cases q msgs keepCount with ⟨-, -, hle, -⟩ | ⟨sys, -, -, hwalked⟩
      · omega
      · obtain ⟨r, hr⟩ : ∃ r, keepCount - demand msgs = r + 1 := ⟨_, (Nat.sub_add_cancel (by omega)).symm⟩
        have hp := (List.mem_filter.mp hother).2
        rw [hwalked, hr, others, hn, reverse_filter_range_succ hp, List.take_succ_cons]
        exact List.mem_append_right _ (List.mem_append_right _ List.mem_cons_self)
  · refine iff_of_true ?_ (Or.inr hother)
    cases hs : isSystem msgs n with
    | true => exact mem_walked_of_isSystem q hlt hs
    | false =>
      have htool : isToolRole msgs n = true := by
        by_contra ht
        rw [Bool.not_eq_true] at ht
        exact hother (mem_others.mpr ⟨by omega, hs, ht⟩)
      obtain ⟨sys, -, hwalked⟩ := walked_of_systems_lt q hlt
      rw [hwalked, tools, hn, reverse_filter_range_succ htool, List.cons_append,
        Budget.reach_cons_of_pos (by omega)]
      exact List.mem_append_right _ List.mem_cons_self

/-- Some number of tool messages, counted from the last one, uses up what the system messages leave of
the budget. -/
def MetExactly (msgs : List Message) (keepCount : Nat) : Prop :=
  ∃ k, (systems msgs).length + Budget.weight (positionWeight msgs) ((tools msgs).reverse.take k) =
    keepCount

/-- The walk meets its budget exactly when it reaches some of the others or stops right after a tool
message that brings none along. -/
theorem weight_walked_eq_iff (hlt : (systems msgs).length < keepCount)
    (h : keepCount < msgs.length) :
    Budget.weight (positionWeight msgs) (walked q msgs keepCount) = keepCount ↔
      demand msgs < keepCount ∨ MetExactly msgs keepCount := by
  by_cases hdemand : demand msgs < keepCount
  · exact iff_of_true ((weight_walked q h).2 hdemand) (Or.inl hdemand)
  · rw [or_iff_right hdemand]
    rcases walked_cases q msgs keepCount with ⟨sys, hsys, hle, hwalked⟩ | ⟨-, -, hgt, -⟩
    · have hone : ∀ i ∈ sys, positionWeight msgs i = 1 := fun i hi =>
        positionWeight_eq_one (not_isToolRole_of_isSystem (mem_systems.mp (hsys.subset hi)))
      have hweight : Budget.weight (positionWeight msgs) sys = (systems msgs).length := by
        rw [Budget.weight_eq_length hone, hsys.length_eq]
      have happend : Budget.reach (positionWeight msgs) keepCount (sys ++ (tools msgs).reverse) =
          sys ++ Budget.reach (positionWeight msgs) (keepCount - (systems msgs).length)
            (tools msgs).reverse := by
        rw [← hweight]
        exact Budget.reach_append_of_le (fun i _ => positionWeight_pos i) (by omega)
      rw [hwalked, happend, Budget.weight_append, hweight, MetExactly]
      have hexact : Budget.weight (positionWeight msgs) (Budget.reach (positionWeight msgs)
          (keepCount - (systems msgs).length) (tools msgs).reverse) =
            keepCount - (systems msgs).length ↔
          ∃ k, Budget.weight (positionWeight msgs) ((tools msgs).reverse.take k) =
            keepCount - (systems msgs).length :=
        Budget.weight_reach_eq_iff fun i _ => positionWeight_pos i
      constructor
      · intro heq
        obtain ⟨k, hk⟩ := hexact.mp (by omega)
        exact ⟨k, by omega⟩
      · rintro ⟨k, hk⟩
        have heq := hexact.mpr ⟨k, by omega⟩
        omega
    · exact absurd hgt hdemand

theorem length_flagged_passed (honce : CountedOnce msgs keepCount) :
    (flagged msgs (passed q msgs keepCount)).length =
      Budget.weight (positionWeight msgs) (walked q msgs keepCount) := by
  have hnodup : (broughtList msgs (walked q msgs keepCount)).Nodup :=
    (nodup_broughtList_iff q).mpr ((countedOnce_iff q).mp honce)
  have hset : passed q msgs keepCount = (broughtList msgs (walked q msgs keepCount)).toFinset := by
    ext x
    rw [mem_passed, List.mem_toFinset, mem_broughtList]
  rw [card_passed, hset, List.toFinset_card_of_nodup hnodup, length_broughtList]

theorem last_mem_passed_iff : msgs.length - 1 ∈ passed q msgs keepCount ↔
    msgs.length - 1 ∈ walked q msgs keepCount := by
  rw [mem_passed]
  refine or_iff_left ?_
  rintro ⟨hnext, -⟩
  have hlt := lt_length_of_mem_walked q hnext
  omega

/-- In increasing positions below `n` the last one below `n` is cut off with everything that is cut
off at the end. -/
theorem last_mem_take_iff {l : List Nat} {n k : Nat} (hl : l.Sublist (List.range n)) :
    n - 1 ∈ l.take k ↔ l.length ≤ k ∧ n - 1 ∈ l := by
  constructor
  · intro hmem
    refine ⟨?_, List.mem_of_mem_take hmem⟩
    by_contra hlong
    obtain ⟨a, rest, hdrop⟩ : ∃ a rest, l.drop k = a :: rest := by
      cases hd : l.drop k with
      | nil =>
        rw [List.drop_eq_nil_iff] at hd
        exact absurd hd hlong
      | cons a rest => exact ⟨a, rest, rfl⟩
    have hsorted : (l.take k ++ l.drop k).Pairwise (· < ·) := by
      rw [List.take_append_drop]
      exact List.pairwise_lt_range.sublist hl
    have ha : a ∈ l.drop k := hdrop ▸ List.mem_cons_self
    have hlt : n - 1 < a := (List.pairwise_append.mp hsorted).2.2 _ hmem a ha
    have hbound : a < n := List.mem_range.mp (hl.subset (List.mem_of_mem_drop ha))
    omega
  · rintro ⟨hle, hmem⟩
    rwa [List.take_of_length_le hle]

/-- **The first cut keeps the announced number of messages with the last one among them** exactly when
no assistant message is counted twice and the walk reaches the last message and meets its budget. -/
theorem length_and_last_mem_smartSelected_iff (hlt : (systems msgs).length < keepCount)
    (h : keepCount < msgs.length) :
    (smartSelected q msgs keepCount).length = keepCount ∧
        msgs.length - 1 ∈ smartSelected q msgs keepCount ↔
      CountedOnce msgs keepCount ∧ (demand msgs < keepCount ∨
        msgs.length - 1 ∉ others msgs ∧ MetExactly msgs keepCount) := by
  rw [length_smartSelected q h]
  refine and_congr_right fun honce => ?_
  have hweight := weight_walked_eq_iff q hlt h
  have hlast := last_mem_walked_iff q hlt (by omega)
  have hreach := (weight_walked q h).1
  rw [smartSelected_of_lt q h, last_mem_take_iff (flagged_sublist msgs _), mem_flagged,
    length_flagged_passed q honce, last_mem_passed_iff, hlast]
  have hle : Budget.weight (positionWeight msgs) (walked q msgs keepCount) ≤ keepCount ↔
      Budget.weight (positionWeight msgs) (walked q msgs keepCount) = keepCount :=
    ⟨fun hle => Nat.le_antisymm hle hreach, Nat.le_of_eq⟩
  rw [hle, hweight]
  constructor
  · rintro ⟨hmet, -, hreached⟩
    rcases hmet with hdemand | hmet
    · exact Or.inl hdemand
    · exact hreached.imp_right fun hother => ⟨hother, hmet⟩
  · rintro (hdemand | ⟨hother, hmet⟩)
    · exact ⟨Or.inl hdemand, by omega, Or.inl hdemand⟩
    · exact ⟨Or.inr hmet, by omega, Or.inr hother⟩

/-- When the last message is kept, so are all system messages. -/
theorem mem_smartSelected_of_isSystem (hlt : (systems msgs).length < keepCount)
    (h : keepCount < msgs.length) (hlast : msgs.length - 1 ∈ smartSelected q msgs keepCount) {i : Nat}
    (hi : isSystem msgs i = true) : i ∈ smartSelected q msgs keepCount := by
  rw [smartSelected_of_lt q h] at hlast ⊢
  rw [last_mem_take_iff (flagged_sublist msgs _)] at hlast
  rw [List.take_of_length_le hlast.1, mem_flagged, mem_passed]
  exact ⟨lt_length_of_hasRole hi, Or.inl (mem_walked_of_isSystem q hlt hi)⟩

end FirstCut

/-! ## The window -/

/-- The positions of the messages that the window keeps; absent when it reads past the selected
messages. -/
def windowKept (q : Qsort) (msgs : List Message) (maxMessages : Nat) (maxChars : Int) :
    Option (List Nat) :=
  let selected := smartSelected q msgs maxMessages
  if windowFits msgs maxMessages maxChars = true ∨ maxMessages < msgs.length ∧ selected = [] then
    some (List.range msgs.length)
  else if selected.length < min msgs.length maxMessages then none
  else some (pick selected (trimKept (pick msgs selected) (approxTokens maxChars)))

/-- Copies of copies. -/
theorem pick_pick {α : Type} {l : List α} {positions : List Nat}
    (h : ∀ i ∈ positions, i < l.length) (kept : List Nat) :
    pick (pick l positions) kept = pick l (pick positions kept) := by
  change kept.filterMap ((pick l positions)[·]?) =
    (kept.filterMap (positions[·]?)).filterMap (l[·]?)
  rw [List.filterMap_filterMap]
  exact List.filterMap_congr fun j _ => getElem?_pick h j

theorem lt_length_of_mem_smartSelected (q : Qsort) {i : Nat}
    (h : i ∈ smartSelected q msgs keepCount) : i < msgs.length :=
  List.mem_range.mp ((smartSelected_sublist q msgs keepCount).subset h)

theorem length_smartSelected_le (q : Qsort) (msgs : List Message) (keepCount : Nat) :
    (smartSelected q msgs keepCount).length ≤ min msgs.length keepCount := by
  have hsub := (smartSelected_sublist q msgs keepCount).length_le
  rw [List.length_range] at hsub
  rw [smartSelected] at hsub ⊢
  split
  · next h =>
    rw [List.length_range]
    omega
  · next h =>
    rw [if_neg h] at hsub
    have htake := List.length_take_le keepCount (flagged msgs (unorphanPass msgs
      (selectPass msgs keepCount (priorityOrder q msgs keepCount) ∅ 0)))
    omega

/-- The window copies the messages at the kept positions. -/
theorem applyContextWindow_eq (q : Qsort) (msgs : List Message) (maxMessages : Nat)
    (maxChars : Int) : applyContextWindow q msgs maxMessages maxChars =
      (windowKept q msgs maxMessages maxChars).map (pick msgs) := by
  unfold applyContextWindow windowKept smartSelectAlloc
  by_cases hfits : windowFits msgs maxMessages maxChars = true
  · rw [if_pos hfits, if_pos (Or.inl hfits), Option.map_some, pick_range]
  · rw [if_neg hfits]
    by_cases hnil : maxMessages < msgs.length ∧ smartSelected q msgs maxMessages = []
    · rw [if_pos hnil, if_pos (Or.inr hnil), Option.map_some, pick_range]
    · have hle := length_smartSelected_le q msgs maxMessages
      have hlength : (pick msgs (smartSelected q msgs maxMessages)).length =
          (smartSelected q msgs maxMessages).length := length_pick_smartSelected q
      rw [if_neg hnil, if_neg (by tauto)]
      dsimp only
      rw [trimMessagesByTokensNew, hlength]
      split
      · rfl
      · rw [List.take_of_length_le (by omega), Option.map_some,
          pick_pick fun i hi => lt_length_of_mem_smartSelected q hi]

/-! ## Head and tail -/

/-- The last position stands at the end of a list of positions. -/
theorem index_of_last {l : List Nat} {n j : Nat} (hl : l.Sublist (List.range n))
    (h : l[j]? = some (n - 1)) : j = l.length - 1 := by
  obtain ⟨hj, hget⟩ := List.getElem?_eq_some_iff.mp h
  by_contra hne
  have hj' : j + 1 < l.length := by omega
  have hsorted : l.Pairwise (· < ·) := List.pairwise_lt_range.sublist hl
  have hlt : l[j] < l[j + 1] := List.pairwise_iff_getElem.mp hsorted j (j + 1) hj hj' (Nat.lt_succ_self j)
  have hbound : l[j + 1] < n := List.mem_range.mp (hl.subset (List.getElem_mem hj'))
  omega

section Copies

variable {selected : List Nat} {i j : Nat}

theorem hasRole_pick (h : ∀ i ∈ selected, i < msgs.length) (hj : selected[j]? = some i)
    (role : String) : hasRole (pick msgs selected) role j = hasRole msgs role i := by
  rw [hasRole, hasRole, getElem?_pick h, hj, Option.bind_some]

theorem tokensAt_pick (h : ∀ i ∈ selected, i < msgs.length) (hj : selected[j]? = some i) :
    tokensAt (pick msgs selected) j = tokensAt msgs i := by
  rw [tokensAt, tokensAt, getElem?_pick h, hj, Option.bind_some]

theorem mem_pick {α : Type} {l : List α} {kept : List Nat} {a : α} :
    a ∈ pick l kept ↔ ∃ j ∈ kept, l[j]? = some a :=
  List.mem_filterMap

end Copies

/-- When the window keeps head and tail: the list is within both budgets, or the last message fits the
second one and the first cut selects as announced and reaches it. -/
def HeadAndTailFit (msgs : List Message) (maxMessages : Nat) (maxChars : Int) : Prop :=
  windowFits msgs maxMessages maxChars = true ∨
    (isSystem msgs (msgs.length - 1) = true ∨
      tokensAt msgs (msgs.length - 1) ≤ approxTokens maxChars) ∧
    (msgs.length ≤ maxMessages ∨ CountedOnce msgs maxMessages ∧ (demand msgs < maxMessages ∨
      msgs.length - 1 ∉ others msgs ∧ MetExactly msgs maxMessages))

/-- The window keeps a sublist, and when it drops anything it keeps every system message and the most
recent message. -/
def KeepsHeadAndTail (q : Qsort) (msgs : List Message) (maxMessages : Nat) (maxChars : Int) : Prop :=
  ∃ kept, windowKept q msgs maxMessages maxChars = some kept ∧
    applyContextWindow q msgs maxMessages maxChars = some (pick msgs kept) ∧
    kept.Sublist (List.range msgs.length) ∧
    (kept ≠ List.range msgs.length →
      (∀ i, isSystem msgs i = true → i ∈ kept) ∧ msgs.length - 1 ∈ kept)

theorem keepsHeadAndTail_iff_kept (q : Qsort) (msgs : List Message) (maxMessages : Nat)
    (maxChars : Int) : KeepsHeadAndTail q msgs maxMessages maxChars ↔
      ∃ kept, windowKept q msgs maxMessages maxChars = some kept ∧
        kept.Sublist (List.range msgs.length) ∧ (kept ≠ List.range msgs.length →
          (∀ i, isSystem msgs i = true → i ∈ kept) ∧ msgs.length - 1 ∈ kept) := by
  refine exists_congr fun kept => and_congr_right fun hkept => ?_
  rw [applyContextWindow_eq, hkept, Option.map_some]
  exact and_iff_right rfl

theorem pos_length_of_not_windowFits {maxMessages : Nat} {maxChars : Int}
    (h : windowFits msgs maxMessages maxChars ≠ true) : 0 < msgs.length := by
  cases msgs with
  | nil => exact absurd (by simp [windowFits, charsFit]) h
  | cons m ms => exact Nat.succ_pos _

/-- A budget selects something. -/
theorem smartSelected_ne_nil (q : Qsort) (hpos : 0 < keepCount) (h : 0 < msgs.length) :
    smartSelected q msgs keepCount ≠ [] := by
  by_cases hle : msgs.length ≤ keepCount
  · rw [smartSelected, if_pos hle, ne_eq, List.range_eq_nil]
    omega
  · obtain ⟨i, is, horder⟩ : ∃ i is, priorityOrder q msgs keepCount = i :: is := by
      cases ho : priorityOrder q msgs keepCount with
      | nil =>
        have hlength := (priorityOrder_perm q msgs keepCount).length_eq
        rw [ho, List.length_range, List.length_nil] at hlength
        omega
      | cons i is => exact ⟨i, is, rfl⟩
    have hwalked : i ∈ walked q msgs keepCount := by
      rw [walked, horder, Budget.reach_cons_of_pos hpos]
      exact List.mem_cons_self
    have hflagged : i ∈ flagged msgs (passed q msgs keepCount) :=
      mem_flagged.mpr ⟨lt_length_of_mem_walked q hwalked, (mem_passed q).mpr (Or.inl hwalked)⟩
    rw [smartSelected_of_lt q (Nat.not_le.mp hle), ne_eq, List.take_eq_nil_iff]
    rintro (hzero | hnil)
    · omega
    · rw [hnil] at hflagged
      exact absurd hflagged List.not_mem_nil

/-- What the window keeps when the list is over a budget. -/
theorem windowKept_of_not_windowFits (q : Qsort) {maxMessages : Nat} {maxChars : Int}
    (hpos : 0 < maxMessages) (h : windowFits msgs maxMessages maxChars ≠ true) :
    windowKept q msgs maxMessages maxChars =
      if (smartSelected q msgs maxMessages).length < min msgs.length maxMessages then none
      else some (pick (smartSelected q msgs maxMessages)
        (trimKept (pick msgs (smartSelected q msgs maxMessages)) (approxTokens maxChars))) := by
  have hnil := smartSelected_ne_nil q hpos (pos_length_of_not_windowFits h)
  rw [windowKept, if_neg (not_or.mpr ⟨h, fun hn => hnil hn.2⟩)]

theorem pick_range_self {n : Nat} {kept : List Nat} (h : kept.Sublist (List.range n)) :
    pick (List.range n) kept = kept := by
  have hself : ∀ i ∈ kept, (List.range n)[i]? = some i := fun i hi =>
    List.getElem?_range (List.mem_range.mp (h.subset hi))
  rw [pick, List.filterMap_congr hself, List.filterMap_some]

/-- The second cut keeps the last message of a selection when it fits. -/
theorem last_mem_pick_trimKept_iff {selected : List Nat}
    (hsub : selected.Sublist (List.range msgs.length)) :
    msgs.length - 1 ∈ pick selected (trimKept (pick msgs selected) maxTokens) ↔
      msgs.length - 1 ∈ selected ∧ (isSystem msgs (msgs.length - 1) = true ∨
        tokensAt msgs (msgs.length - 1) ≤ maxTokens) := by
  have hbound : ∀ i ∈ selected, i < msgs.length := fun i hi => List.mem_range.mp (hsub.subset hi)
  have hlength : (pick msgs selected).length = selected.length := length_pick hbound
  constructor
  · intro hmem
    obtain ⟨j, hj, hget⟩ := mem_pick.mp hmem
    have hlast := index_of_last hsub hget
    obtain ⟨hjlt, -⟩ := List.getElem?_eq_some_iff.mp hget
    refine ⟨List.mem_of_getElem? hget, ?_⟩
    rw [isSystem, ← hasRole_pick hbound hget, ← tokensAt_pick hbound hget]
    rw [hlast, ← hlength, last_mem_trimKept_iff (by omega)] at hj
    rwa [hlast, ← hlength]
  · rintro ⟨hmem, hfit⟩
    obtain ⟨j, hjlt, hget⟩ := List.getElem_of_mem hmem
    have hget' : selected[j]? = some (msgs.length - 1) := List.getElem?_eq_some_iff.mpr ⟨hjlt, hget⟩
    have hlast := index_of_last hsub hget'
    refine mem_pick.mpr ⟨j, ?_, hget'⟩
    rw [isSystem, ← hasRole_pick hbound hget', ← tokensAt_pick hbound hget'] at hfit
    rw [hlast, ← hlength] at hfit ⊢
    exact (last_mem_trimKept_iff (by omega)).mpr hfit

theorem mem_pick_trimKept_of_isSystem {selected : List Nat}
    (hbound : ∀ i ∈ selected, i < msgs.length) {i : Nat} (hi : i ∈ selected)
    (hs : isSystem msgs i = true) :
    i ∈ pick selected (trimKept (pick msgs selected) maxTokens) := by
  obtain ⟨j, hjlt, hget⟩ := List.getElem_of_mem hi
  have hget' : selected[j]? = some i := List.getElem?_eq_some_iff.mpr ⟨hjlt, hget⟩
  refine mem_pick.mpr ⟨j, mem_trimKept_of_isSystem ?_, hget'⟩
  rw [isSystem, hasRole_pick hbound hget']
  exact hs

/-- **The window keeps head and tail** of a list with fewer system messages than the budget exactly
when they fit. -/
theorem keepsHeadAndTail_iff (q : Qsort) (msgs : List Message) {maxMessages : Nat}
    (h : (systems msgs).length < maxMessages) (maxChars : Int) :
    KeepsHeadAndTail q msgs maxMessages maxChars ↔ HeadAndTailFit msgs maxMessages maxChars := by
  rw [keepsHeadAndTail_iff_kept, HeadAndTailFit]
  by_cases hfits : windowFits msgs maxMessages maxChars = true
  · refine iff_of_true ⟨List.range msgs.length, ?_, List.Sublist.refl _, fun hne => absurd rfl hne⟩
      (Or.inl hfits)
    rw [windowKept, if_pos (Or.inl hfits)]
  · have hlength := pos_length_of_not_windowFits hfits
    rw [or_iff_right hfits, windowKept_of_not_windowFits q (by omega) hfits]
    by_cases hle : msgs.length ≤ maxMessages
    · have hselected : smartSelected q msgs maxMessages = List.range msgs.length := if_pos hle
      have hsub := trimKept_sublist msgs (approxTokens maxChars)
      rw [hselected, List.length_range, Nat.min_eq_left hle, if_neg (Nat.lt_irrefl _), pick_range,
        pick_range_self hsub, and_iff_left (Or.inl hle), ← last_mem_trimKept_iff hlength]
      constructor
      · rintro ⟨kept, hkept, -, hdrop⟩
        rw [Option.some.inj hkept]
        by_cases hall : kept = List.range msgs.length
        · rw [hall, List.mem_range]
          omega
        · exact (hdrop hall).2
      · intro hlast
        exact ⟨_, rfl, hsub, fun _ => ⟨fun i hi => mem_trimKept_of_isSystem hi, hlast⟩⟩
    · have hlt := Nat.not_le.mp hle
      have hsub := smartSelected_sublist q msgs maxMessages
      have hshort := length_smartSelected_le q msgs maxMessages
      have hfirst := length_and_last_mem_smartSelected_iff q h hlt
      have htrim := trimKept_sublist (pick msgs (smartSelected q msgs maxMessages))
        (approxTokens maxChars)
      rw [length_pick_smartSelected] at htrim
      have hsecond : msgs.length - 1 ∈ pick (smartSelected q msgs maxMessages)
          (trimKept (pick msgs (smartSelected q msgs maxMessages)) (approxTokens maxChars)) ↔ _ :=
        last_mem_pick_trimKept_iff hsub
      rw [Nat.min_eq_right (Nat.le_of_lt hlt)] at hshort ⊢
      rw [or_iff_right hle, ← hfirst]
      constructor
      · rintro ⟨kept, hkept, -, hdrop⟩
        split at hkept
        · exact absurd hkept (by simp)
        · next hexact =>
          have hdropped : kept ≠ List.range msgs.length := by
            rintro rfl
            have hcopied := (pick_sublist htrim).length_le
            rw [Option.some.inj hkept, List.length_range] at hcopied
            omega
          rw [← Option.some.inj hkept] at hdrop hdropped
          obtain ⟨hlast, hfit⟩ := hsecond.mp (hdrop hdropped).2
          exact ⟨hfit, by omega, hlast⟩
      · rintro ⟨hfit, hexact, hlast⟩
        rw [if_neg (by omega)]
        refine ⟨_, rfl, (pick_sublist htrim).trans hsub, fun _ => ⟨fun i hi => ?_,
          hsecond.mpr ⟨hlast, hfit⟩⟩⟩
        exact mem_pick_trimKept_of_isSystem (fun i hi => lt_length_of_mem_smartSelected q hi)
          (mem_smartSelected_of_isSystem q h hlt hlast hi) hi

/-! ## The check of the budgets -/

/-- The number of characters of a message. -/
def messageChars (m : Message) : Nat := (m.content.map String.utf8ByteSize).getD 0

/-- The number of characters of a list. -/
def totalChars (msgs : List Message) : Nat := (msgs.map messageChars).sum

/-- The loop decides exactly as long as the sum is below `sizeMax`.  The difference wraps around at a
message that exceeds the bound by itself: it is then above every total, and the sum that is followed
stays above the bound. -/
theorem charsFit_iff {maxChars total : Nat} (hchars : maxChars < sizeMax)
    (hsum : total + totalChars msgs < sizeMax) :
    charsFit maxChars total msgs = true ↔ total + totalChars msgs ≤ maxChars := by
  induction msgs generalizing total with
  | nil => exact decide_eq_true_iff
  | cons m ms ih =>
    have hcons : totalChars (m :: ms) = messageChars m + totalChars ms := List.sum_cons
    rw [hcons] at hsum ⊢
    rw [charsFit]
    cases hcontent : m.content with
    | none =>
      have hnone : messageChars m = 0 := by rw [messageChars, hcontent, Option.map_none, Option.getD_none]
      rw [hnone, Nat.zero_add] at hsum ⊢
      exact ih hsum
    | some text =>
      have hsome : messageChars m = text.utf8ByteSize := by
        rw [messageChars, hcontent, Option.map_some, Option.getD_some]
      dsimp only
      rw [← hsome]
      have hnext : (total + messageChars m) % sizeMax = total + messageChars m :=
        Nat.mod_eq_of_lt (by omega)
      rw [← Nat.add_assoc] at hsum ⊢
      rw [hnext]
      by_cases hlong : maxChars < messageChars m
      · have hwrap : (maxChars + sizeMax - messageChars m) % sizeMax =
            maxChars + sizeMax - messageChars m := Nat.mod_eq_of_lt (by omega)
        rw [hwrap, if_neg (by omega)]
        exact ih hsum
      · have hroom : (maxChars + sizeMax - messageChars m) % sizeMax = maxChars - messageChars m := by
          rw [Nat.sub_add_comm (Nat.not_lt.mp hlong), Nat.add_mod_right]
          exact Nat.mod_eq_of_lt (Nat.lt_of_le_of_lt (Nat.sub_le _ _) hchars)
        rw [hroom]
        split
        · next hover => exact iff_of_false Bool.false_ne_true (by omega)
        · exact ih hsum

/-- What `apply_context_window` does with a list that does not pass the check. -/
def trimWindow (q : Qsort) (msgs : List Message) (maxMessages : Nat) (maxChars : Int) :
    Option (List Message) :=
  match smartSelectAlloc q msgs maxMessages with
  | none => some msgs
  | some selected =>
    trimMessagesByTokensNew selected (min msgs.length maxMessages) (approxTokens maxChars)

/-- **A list is cut exactly when it is over a budget.**  The check holds just for the lists within both
of them; such a list is returned as it is, and any other one is cut. -/
theorem trimmed_iff_over (q : Qsort) (msgs : List Message) (maxMessages : Nat) {maxChars : Int}
    (hsum : totalChars msgs < sizeMax) (hchars : 0 ≤ maxChars) (hint : maxChars < 2 ^ 31) :
    (windowFits msgs maxMessages maxChars = true ↔
      msgs.length ≤ maxMessages ∧ totalChars msgs ≤ maxChars) ∧
    applyContextWindow q msgs maxMessages maxChars =
      if msgs.length ≤ maxMessages ∧ totalChars msgs ≤ maxChars then some msgs
      else trimWindow q msgs maxMessages maxChars := by
  have hsize : (maxChars % sizeMax).toNat = maxChars.toNat := by
    rw [Int.emod_eq_of_lt hchars (Int.lt_trans hint (by decide))]
  have hbound : maxChars.toNat < sizeMax := by
    have hlarge : 2 ^ 31 < sizeMax := by decide
    omega
  have hfits : windowFits msgs maxMessages maxChars = true ↔
      msgs.length ≤ maxMessages ∧ totalChars msgs ≤ maxChars := by
    have hexact := charsFit_iff hbound ((Nat.zero_add (totalChars msgs)).symm ▸ hsum)
    rw [windowFits, Bool.and_eq_true, decide_eq_true_iff, hsize, hexact, Nat.zero_add,
      Int.le_toNat hchars]
  refine ⟨hfits, ?_⟩
  rw [applyContextWindow, trimWindow]
  exact if_congr hfits rfl rfl

/-! ## An example -/

/-- A question, a call with its result and the next question. -/
def nextQuestion : List Message :=
  [roleMessage "user", roleMessage "assistant", roleMessage "tool", roleMessage "user"]

/-- A budget of three messages keeps the next question. -/
theorem keepsHeadAndTail_nextQuestion : KeepsHeadAndTail insertionQsort nextQuestion 3 100 := by
  refine (keepsHeadAndTail_iff insertionQsort nextQuestion (by decide +kernel) 100).mpr (Or.inr ⟨?_, ?_⟩)
  · exact Or.inr (by decide +kernel)
  · refine Or.inr ⟨?_, Or.inl (by decide +kernel)⟩
    unfold CountedOnce
    decide +kernel

/-- A question of more characters than the budget allows. -/
def longQuestion : Message := { role := some "user", content := some "a long question" }

/-- Its characters alone exceed a bound of eight, of which they are subtracted. -/
theorem trimmed_iff_over_longQuestion : windowFits [longQuestion] 2 8 ≠ true := by
  have hover := (trimmed_iff_over insertionQsort [longQuestion] 2 (by decide +kernel)
    (show (0 : Int) ≤ 8 by decide) (by decide)).1
  rw [Ne, hover]
  decide +kernel

theorem windowKept_longQuestion : windowKept insertionQsort [longQuestion] 2 8 = some [] := by
  decide +kernel

/-- A question that does not fit the token budget is dropped, and nothing is left. -/
theorem not_keepsHeadAndTail_longQuestion :
    ¬ ∀ (q : Qsort) (msgs : List Message) (maxMessages : Nat) (maxChars : Int),
        (systems msgs).length < maxMessages → KeepsHeadAndTail q msgs maxMessages maxChars := by
  intro h
  obtain ⟨kept, hkept, -, -, hdrop⟩ := h insertionQsort [longQuestion] 2 8 (by decide +kernel)
  obtain rfl : [] = kept := Option.some.inj (windowKept_longQuestion.symm.trans hkept)
  exact absurd (hdrop (by decide)).2 List.not_mem_nil

end EchoAi
