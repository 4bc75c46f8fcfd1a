import EchoAi.Agent.Context
import EchoAi.Budget

/-!
# What the first cut selects

The positions fall into three classes: system messages, tool messages and the others.  In the order of
priority the system messages come first, then the tool messages from the last one on, then the others
from the last one on; a tool message right after an assistant message counts twice, since it brings
that message along.  The selection walks this order until the budget is reached.

* `priorityOrder_eq`: the order of priority.
* `selectPass_eq`: the walk, as `Budget.reach`.
* `unorphanPass_selected`: the second pass has nothing left to do.
* `selectsExactly_iff`: the selection has the announced length exactly when no assistant message that
  a tool message has brought along is counted once more.
-/

namespace EchoAi

/-! ## Classes -/

section Classes

variable (msgs : List Message)

/-- The positions of the system messages. -/
def systems : List Nat := (List.range msgs.length).filter (isSystem msgs)

/-- The positions of the tool messages. -/
def tools : List Nat := (List.range msgs.length).filter (isToolRole msgs)

/-- The positions of all other messages. -/
def others : List Nat :=
  (List.range msgs.length).filter fun i => !isSystem msgs i && !isToolRole msgs i

end Classes

section Roles

variable {msgs : List Message}

theorem hasRole_unique {role role' : String} {i : Nat} (h : hasRole msgs role i = true)
    (h' : hasRole msgs role' i = true) : role = role' := by
  rw [hasRole, Option.any_eq_true] at h h'
  obtain ⟨m, hm, hrole⟩ := h
  obtain ⟨m', hm', hrole'⟩ := h'
  obtain rfl : m = m' := Option.some.inj (hm.symm.trans hm')
  rw [beq_iff_eq] at hrole hrole'
  exact Option.some.inj (hrole.symm.trans hrole')

theorem lt_length_of_hasRole {role : String} {i : Nat} (h : hasRole msgs role i = true) :
    i < msgs.length := by
  rw [hasRole, Option.any_eq_true] at h
  obtain ⟨m, hm, -⟩ := h
  exact (List.getElem?_eq_some_iff.mp hm).1

theorem not_isToolRole_of_isSystem {i : Nat} (h : isSystem msgs i = true) :
    isToolRole msgs i = false := by
  rw [Bool.eq_false_iff]
  exact fun h' => absurd (hasRole_unique h h') (by decide)

theorem not_isToolRole_of_isAssistantRole {i : Nat} (h : isAssistantRole msgs i = true) :
    isToolRole msgs i = false := by
  rw [Bool.eq_false_iff]
  exact fun h' => absurd (hasRole_unique h h') (by decide)

theorem not_isSystem_of_isAssistantRole {i : Nat} (h : isAssistantRole msgs i = true) :
    isSystem msgs i = false := by
  rw [Bool.eq_false_iff]
  exact fun h' => absurd (hasRole_unique h h') (by decide)

theorem followsAssistant_iff {i : Nat} : followsAssistant msgs i = true ↔
    isToolRole msgs i = true ∧ 0 < i ∧ isAssistantRole msgs (i - 1) = true := by
  rw [followsAssistant, Bool.and_eq_true, Bool.and_eq_true, decide_eq_true_iff, and_assoc]

theorem mem_systems {i : Nat} : i ∈ systems msgs ↔ isSystem msgs i = true := by
  rw [systems, List.mem_filter, List.mem_range]
  exact ⟨fun h => h.2, fun h => ⟨lt_length_of_hasRole h, h⟩⟩

theorem mem_tools {i : Nat} : i ∈ tools msgs ↔ isToolRole msgs i = true := by
  rw [tools, List.mem_filter, List.mem_range]
  exact ⟨fun h => h.2, fun h => ⟨lt_length_of_hasRole h, h⟩⟩

theorem mem_others {i : Nat} : i ∈ others msgs ↔
    i < msgs.length ∧ isSystem msgs i = false ∧ isToolRole msgs i = false := by
  rw [others, List.mem_filter, List.mem_range, Bool.and_eq_true, Bool.not_eq_true',
    Bool.not_eq_true']

/-- An assistant message is one of the others. -/
theorem mem_others_of_isAssistantRole {i : Nat} (h : isAssistantRole msgs i = true) :
    i ∈ others msgs :=
  mem_others.mpr ⟨lt_length_of_hasRole h, not_isSystem_of_isAssistantRole h,
    not_isToolRole_of_isAssistantRole h⟩

/-! ## The order of priority -/

variable {keepCount : Nat}

theorem scoreCmp_le_iff {a b : MsgScore} : scoreCmp a b ≤ 0 ↔
    a.priorityGroup < b.priorityGroup ∨ a.priorityGroup = b.priorityGroup ∧ b.score ≤ a.score := by
  unfold scoreCmp
  split_ifs <;> omega

theorem origIndex_msgScore (i : Nat) : (msgScore msgs keepCount i).origIndex = i := by
  unfold msgScore
  split_ifs <;> rfl

/-- The class of a position: system messages, tool messages, others. -/
def positionClass (msgs : List Message) (i : Nat) : Nat :=
  if isSystem msgs i then 0 else if isToolRole msgs i then 1 else 2

theorem positionClass_eq_zero_iff {i : Nat} : positionClass msgs i = 0 ↔ isSystem msgs i = true := by
  unfold positionClass
  split_ifs with hs ht
  · exact iff_of_true rfl hs
  · exact iff_of_false (by decide) hs
  · exact iff_of_false (by decide) hs

theorem positionClass_eq_one_iff {i : Nat} :
    positionClass msgs i = 1 ↔ isToolRole msgs i = true := by
  unfold positionClass
  split_ifs with hs ht
  · rw [not_isToolRole_of_isSystem hs]
    exact iff_of_false (by decide) Bool.false_ne_true
  · exact iff_of_true rfl ht
  · exact iff_of_false (by decide) ht

/-- What stands before what in the order of priority. -/
theorem before_of_scoreCmp_le {i j : Nat}
    (h : scoreCmp (msgScore msgs keepCount i) (msgScore msgs keepCount j) ≤ 0) :
    positionClass msgs i < positionClass msgs j ∨
      positionClass msgs i = positionClass msgs j ∧ (positionClass msgs i ≠ 0 → j ≤ i) := by
  rw [scoreCmp_le_iff] at h
  unfold positionClass
  unfold msgScore at h
  split_ifs at h ⊢ <;> simp only at h <;> omega

theorem priorityOrder_perm (q : Qsort) (msgs : List Message) (keepCount : Nat) :
    (priorityOrder q msgs keepCount).Perm (List.range msgs.length) := by
  have hsame : ((List.range msgs.length).map (msgScore msgs keepCount)).map MsgScore.origIndex =
      List.range msgs.length := by
    rw [List.map_map]
    exact List.map_id'' (fun i => origIndex_msgScore i) _
  have hmap := (q.perm ((List.range msgs.length).map (msgScore msgs keepCount))).map
    MsgScore.origIndex
  rwa [hsame] at hmap

theorem priorityOrder_pairwise (q : Qsort) (msgs : List Message) (keepCount : Nat) :
    (priorityOrder q msgs keepCount).Pairwise fun i j =>
      positionClass msgs i < positionClass msgs j ∨
        positionClass msgs i = positionClass msgs j ∧ (positionClass msgs i ≠ 0 → j ≤ i) := by
  rw [priorityOrder, List.pairwise_map]
  refine (q.sorted _).imp_of_mem ?_
  intro a b ha hb hab
  have hscore : ∀ sc ∈ q.sort ((List.range msgs.length).map (msgScore msgs keepCount)),
      msgScore msgs keepCount sc.origIndex = sc := by
    intro sc hsc
    obtain ⟨i, -, rfl⟩ := List.mem_map.mp ((q.perm _).subset hsc)
    rw [origIndex_msgScore]
  rw [← hscore a ha, ← hscore b hb] at hab
  exact before_of_scoreCmp_le hab

/-- A class of an ordered list that is walked from its last position on. -/
theorem filter_eq_reverse {l : List Nat} {n : Nat} {p : Nat → Bool} (hperm : l.Perm (List.range n))
    (hsorted : l.Pairwise fun i j => p i = true → p j = true → j ≤ i) :
    l.filter p = ((List.range n).filter p).reverse := by
  have hfilter : (l.filter p).Pairwise fun i j => j ≤ i := by
    refine (hsorted.filter p).imp_of_mem fun {i j} hi hj hij => ?_
    exact hij (List.mem_filter.mp hi).2 (List.mem_filter.mp hj).2
  refine List.Perm.eq_of_pairwise (fun i j _ _ hji hij => Nat.le_antisymm hij hji) hfilter ?_
    ((hperm.filter p).trans (List.reverse_perm _).symm)
  rw [List.pairwise_reverse]
  exact List.pairwise_le_range.filter p

/-- **The order of priority**: the system messages, then the tool messages from the last one on, then
the others from the last one on. -/
theorem priorityOrder_eq (q : Qsort) (msgs : List Message) (keepCount : Nat) :
    ∃ sys, sys.Perm (systems msgs) ∧
      priorityOrder q msgs keepCount = sys ++ ((tools msgs).reverse ++ (others msgs).reverse) := by
  have hperm := priorityOrder_perm q msgs keepCount
  have hsorted := priorityOrder_pairwise q msgs keepCount
  have hsys : (priorityOrder q msgs keepCount).Pairwise fun i j =>
      isSystem msgs j = true → isSystem msgs i = true := by
    refine hsorted.imp fun {i j} hij hj => ?_
    rw [← positionClass_eq_zero_iff] at hj ⊢
    omega
  have htools : ((priorityOrder q msgs keepCount).filter fun i => !isSystem msgs i).Pairwise
      fun i j => isToolRole msgs j = true → isToolRole msgs i = true := by
    refine (hsorted.filter _).imp_of_mem fun {i j} hi hj hij htool => ?_
    have hi' : isSystem msgs i ≠ true := by simpa using (List.mem_filter.mp hi).2
    rw [← positionClass_eq_one_iff] at htool ⊢
    rw [ne_eq, ← positionClass_eq_zero_iff] at hi'
    omega
  have htool : (priorityOrder q msgs keepCount).filter (isToolRole msgs) = (tools msgs).reverse := by
    refine filter_eq_reverse hperm (hsorted.imp fun {i j} hij hi hj => ?_)
    rw [← positionClass_eq_one_iff] at hi hj
    omega
  have hother : (priorityOrder q msgs keepCount).filter
      (fun i => !isSystem msgs i && !isToolRole msgs i) = (others msgs).reverse := by
    refine filter_eq_reverse hperm (hsorted.imp fun {i j} hij hi hj => ?_)
    rw [Bool.and_eq_true, Bool.not_eq_true', Bool.not_eq_true', ← Bool.not_eq_true,
      ← Bool.not_eq_true, ← positionClass_eq_zero_iff, ← positionClass_eq_one_iff] at hi hj
    have hle : ∀ k, positionClass msgs k ≤ 2 := fun k => by
      unfold positionClass
      split_ifs <;> omega
    have hi2 := hle i
    have hj2 := hle j
    omega
  refine ⟨(priorityOrder q msgs keepCount).filter (isSystem msgs), hperm.filter _, ?_⟩
  rw [← htool, ← hother]
  calc
    priorityOrder q msgs keepCount
        = (priorityOrder q msgs keepCount).filter (isSystem msgs) ++
          (priorityOrder q msgs keepCount).filter fun i => !isSystem msgs i :=
      Budget.eq_filter_append_filter hsys
    _ = _ := by
      have hfilter : ∀ i, (isToolRole msgs i && !isSystem msgs i) = isToolRole msgs i := by
        intro i
        cases hs : isSystem msgs i with
        | true => rw [not_isToolRole_of_isSystem hs, Bool.false_and]
        | false => rw [Bool.not_false, Bool.and_true]
      rw [Budget.eq_filter_append_filter htools, List.filter_filter, List.filter_filter]
      simp only [hfilter, Bool.and_comm]

/-! ## The walk -/

/-- What a position counts for: a tool message that brings an assistant message along counts twice. -/
def positionWeight (msgs : List Message) (i : Nat) : Nat := if followsAssistant msgs i then 2 else 1

theorem positionWeight_pos (i : Nat) : 0 < positionWeight msgs i := by
  unfold positionWeight
  split_ifs <;> decide

theorem positionWeight_le (i : Nat) : positionWeight msgs i ≤ 1 + 1 := by
  unfold positionWeight
  split_ifs <;> decide

theorem positionWeight_eq_one {i : Nat} (h : isToolRole msgs i = false) :
    positionWeight msgs i = 1 := by
  rw [positionWeight, followsAssistant, h]
  rfl

/-- Whether an assistant message is followed by a tool message directly. -/
def callsNext (msgs : List Message) (i : Nat) : Bool :=
  isAssistantRole msgs i && isToolRole msgs (i + 1)

theorem followsAssistant_succ (i : Nat) : followsAssistant msgs (i + 1) = callsNext msgs i := by
  rw [followsAssistant, callsNext, Nat.add_sub_cancel, decide_eq_true (Nat.succ_pos i),
    Bool.and_true, Bool.and_comm]

/-- A position is flagged for itself or for the tool message after it. -/
def BroughtBy (msgs : List Message) (walked : List Nat) (x : Nat) : Prop :=
  x ∈ walked ∨ x + 1 ∈ walked ∧ callsNext msgs x = true

instance (walked : List Nat) (x : Nat) : Decidable (BroughtBy msgs walked x) :=
  inferInstanceAs (Decidable (_ ∨ _ ∧ _))

theorem broughtBy_cons {walked : List Nat} {i x : Nat} : BroughtBy msgs (i :: walked) x ↔
    (x = i ∨ followsAssistant msgs i = true ∧ x = i - 1) ∨ BroughtBy msgs walked x := by
  have hbefore : x + 1 = i ∧ callsNext msgs x = true ↔
      followsAssistant msgs i = true ∧ x = i - 1 := by
    constructor
    · rintro ⟨rfl, hcalls⟩
      exact ⟨(followsAssistant_succ x).trans hcalls, rfl⟩
    · rintro ⟨hfollows, rfl⟩
      have hpos : 0 < i := (followsAssistant_iff.mp hfollows).2.1
      rw [← followsAssistant_succ, Nat.sub_add_cancel hpos]
      exact ⟨rfl, hfollows⟩
  rw [BroughtBy, BroughtBy, List.mem_cons, List.mem_cons, or_and_right, hbefore]
  tauto

/-- **The first pass** flags what the walk reaches and what this brings along, as long as no assistant
message is reached before the tool message after it. -/
theorem mem_selectPass {is : List Nat} {selected : Finset Nat} {n x : Nat} (hnodup : is.Nodup)
    (hfirst : is.Pairwise fun i j => followsAssistant msgs j = true → i ≠ j - 1)
    (hfree : ∀ j ∈ is, followsAssistant msgs j = true → j - 1 ∉ selected) :
    x ∈ selectPass msgs keepCount is selected n ↔
      x ∈ selected ∨ BroughtBy msgs (Budget.reach (positionWeight msgs) (keepCount - n) is) x := by
  induction is generalizing selected n with
  | nil => simp [selectPass, Budget.reach, BroughtBy]
  | cons i is ih =>
    rw [List.nodup_cons] at hnodup
    rw [List.pairwise_cons] at hfirst
    have hrest : ∀ j ∈ is, followsAssistant msgs j = true → j - 1 ∉ insert i selected := by
      intro j hj hfollows
      rw [Finset.mem_insert, not_or]
      exact ⟨fun heq => hfirst.1 j hj hfollows heq.symm, hfree j (List.mem_cons_of_mem i hj) hfollows⟩
    rw [selectPass]
    split
    · next hn =>
      rw [Budget.reach_cons_of_pos (by omega), broughtBy_cons, Nat.sub_sub, positionWeight]
      cases hfollows : followsAssistant msgs i with
      | true =>
        have hpos : 0 < i := (followsAssistant_iff.mp hfollows).2.1
        have hnew : i - 1 ∉ insert i selected := by
          rw [Finset.mem_insert, not_or]
          exact ⟨by omega, hfree i List.mem_cons_self hfollows⟩
        have hrest' : ∀ j ∈ is, followsAssistant msgs j = true →
            j - 1 ∉ insert (i - 1) (insert i selected) := by
          intro j hj hfollows'
          rw [Finset.mem_insert, not_or]
          refine ⟨fun heq => hnodup.1 ?_, hrest j hj hfollows'⟩
          have hpos' : 0 < j := (followsAssistant_iff.mp hfollows').2.1
          have hij : j = i := by omega
          exact hij ▸ hj
        rw [decide_eq_true hnew, Bool.and_self, if_pos rfl, if_pos rfl, ih hnodup.2 hfirst.2 hrest',
          Finset.mem_insert, Finset.mem_insert]
        tauto
      | false =>
        rw [Bool.false_and, if_neg Bool.false_ne_true, if_neg Bool.false_ne_true,
          ih hnodup.2 hfirst.2 hrest, Finset.mem_insert]
        tauto
    · next hn =>
      rw [Nat.sub_eq_zero_of_le (Nat.not_lt.mp hn), Budget.reach_zero]
      simp [BroughtBy]

/-! ## What the walk reaches -/

/-- What the system messages and the tool messages with those they bring along count for. -/
def demand (msgs : List Message) : Nat :=
  (systems msgs).length + Budget.weight (positionWeight msgs) (tools msgs)

/-- The positions that the walk reaches. -/
def walked (q : Qsort) (msgs : List Message) (keepCount : Nat) : List Nat :=
  Budget.reach (positionWeight msgs) keepCount (priorityOrder q msgs keepCount)

theorem selectPass_priorityOrder (q : Qsort) {x : Nat} :
    x ∈ selectPass msgs keepCount (priorityOrder q msgs keepCount) ∅ 0 ↔
      BroughtBy msgs (walked q msgs keepCount) x := by
  have hnodup : (priorityOrder q msgs keepCount).Nodup :=
    (priorityOrder_perm q msgs keepCount).nodup_iff.mpr List.nodup_range
  have hfirst : (priorityOrder q msgs keepCount).Pairwise fun i j =>
      followsAssistant msgs j = true → i ≠ j - 1 := by
    refine (priorityOrder_pairwise q msgs keepCount).imp ?_
    rintro i j hij hfollows rfl
    obtain ⟨htool, -, hassistant⟩ := followsAssistant_iff.mp hfollows
    have hone : positionClass msgs j = 1 := positionClass_eq_one_iff.mpr htool
    have hnzero : positionClass msgs (j - 1) ≠ 0 := fun h => by
      rw [positionClass_eq_zero_iff, not_isSystem_of_isAssistantRole hassistant] at h
      exact Bool.noConfusion h
    have hnone : positionClass msgs (j - 1) ≠ 1 := fun h => by
      rw [positionClass_eq_one_iff, not_isToolRole_of_isAssistantRole hassistant] at h
      exact Bool.noConfusion h
    omega
  rw [mem_selectPass hnodup hfirst fun j _ _ => Finset.notMem_empty _, walked, Nat.sub_zero]
  exact or_iff_right (Finset.notMem_empty x)

theorem weight_front {sys : List Nat} (h : sys.Perm (systems msgs)) :
    Budget.weight (positionWeight msgs) (sys ++ (tools msgs).reverse) = demand msgs := by
  have hone : ∀ i ∈ sys, positionWeight msgs i = 1 := fun i hi =>
    positionWeight_eq_one (not_isToolRole_of_isSystem (mem_systems.mp (h.subset hi)))
  rw [Budget.weight_append, Budget.weight_eq_length hone, h.length_eq,
    Budget.weight_perm (List.reverse_perm _), demand]

theorem positionWeight_of_mem_others {i : Nat} (h : i ∈ (others msgs).reverse) :
    positionWeight msgs i = 1 :=
  positionWeight_eq_one (mem_others.mp (List.mem_reverse.mp h)).2.2

/-- **What the walk reaches**: with a small budget only system and tool messages, with a large one all
of them and the last of the others. -/
theorem walked_cases (q : Qsort) (msgs : List Message) (keepCount : Nat) :
    (∃ sys, sys.Perm (systems msgs) ∧ keepCount ≤ demand msgs ∧ walked q msgs keepCount =
        Budget.reach (positionWeight msgs) keepCount (sys ++ (tools msgs).reverse)) ∨
      ∃ sys, sys.Perm (systems msgs) ∧ demand msgs < keepCount ∧ walked q msgs keepCount =
        sys ++ ((tools msgs).reverse ++ (others msgs).reverse.take (keepCount - demand msgs)) := by
  obtain ⟨sys, hsys, horder⟩ := priorityOrder_eq q msgs keepCount
  have hweight := weight_front hsys
  rw [walked, horder, ← List.append_assoc]
  by_cases hle : keepCount ≤ demand msgs
  · refine Or.inl ⟨sys, hsys, hle, ?_⟩
    exact Budget.reach_append_of_ge (hweight ▸ hle)
  · refine Or.inr ⟨sys, hsys, Nat.not_le.mp hle, ?_⟩
    rw [Budget.reach_append_of_le (fun i _ => positionWeight_pos i) (by rw [hweight]; omega), hweight,
      Budget.reach_eq_take fun i hi => positionWeight_of_mem_others hi, List.append_assoc]

theorem nodup_walked (q : Qsort) : (walked q msgs keepCount).Nodup :=
  ((priorityOrder_perm q msgs keepCount).nodup_iff.mpr List.nodup_range).sublist
    (Budget.reach_prefix _ _ _).sublist

theorem lt_length_of_mem_walked (q : Qsort) {i : Nat} (h : i ∈ walked q msgs keepCount) :
    i < msgs.length :=
  List.mem_range.mp ((priorityOrder_perm q msgs keepCount).subset
    ((Budget.reach_prefix _ _ _).subset h))

/-- None of the others is among the positions that come first. -/
theorem not_mem_others_of_front {sys : List Nat} (hsys : sys.Perm (systems msgs)) {i : Nat}
    (h : i ∈ sys ++ (tools msgs).reverse) : i ∉ others msgs := by
  rw [mem_others]
  rintro ⟨-, hsystem, htool⟩
  rw [List.mem_append, List.mem_reverse, mem_tools] at h
  rcases h with h | h
  · rw [mem_systems.mp (hsys.subset h)] at hsystem
    exact Bool.noConfusion hsystem
  · rw [h] at htool
    exact Bool.noConfusion htool

theorem mem_others_of_callsNext {i : Nat} (h : callsNext msgs i = true) : i ∈ others msgs := by
  rw [callsNext, Bool.and_eq_true] at h
  exact mem_others_of_isAssistantRole h.1

/-- A walk that reaches one of the others has reached all tool messages. -/
theorem mem_walked_of_other (q : Qsort) {i j : Nat} (hi : i ∈ walked q msgs keepCount)
    (hother : i ∈ others msgs) (hj : isToolRole msgs j = true) : j ∈ walked q msgs keepCount := by
  rcases walked_cases q msgs keepCount with ⟨sys, hsys, -, hwalked⟩ | ⟨sys, -, -, hwalked⟩
  · rw [hwalked] at hi
    exact absurd hother (not_mem_others_of_front hsys ((Budget.reach_prefix _ _ _).subset hi))
  · rw [hwalked, List.mem_append, List.mem_append, List.mem_reverse, mem_tools]
    exact Or.inr (Or.inl hj)

/-! ## The second pass -/

/-- A set of positions with which every tool message has the assistant message right before it, and
the other way round. -/
structure Unorphaned (msgs : List Message) (kept : Finset Nat) : Prop where
  caller : ∀ i ∈ kept, followsAssistant msgs i = true → i - 1 ∈ kept
  result : ∀ i ∈ kept, callsNext msgs i = true → i + 1 ∈ kept

theorem Unorphaned.unorphan_eq {kept : Finset Nat} (h : Unorphaned msgs kept) (i : Nat) :
    unorphan msgs kept i = kept := by
  have hcaller : (if (followsAssistant msgs i && decide (i ∈ kept)) = true
      then insert (i - 1) kept else kept) = kept := by
    split
    · next hi =>
      rw [Bool.and_eq_true, decide_eq_true_iff] at hi
      exact Finset.insert_eq_self.mpr (h.caller i hi.2 hi.1)
    · rfl
  unfold unorphan
  simp only [hcaller]
  split
  · next hi =>
    rw [Bool.and_eq_true, decide_eq_true_iff] at hi
    exact Finset.insert_eq_self.mpr (h.result i hi.2 hi.1)
  · rfl

theorem Unorphaned.unorphanPass_eq {kept : Finset Nat} (h : Unorphaned msgs kept) :
    unorphanPass msgs kept = kept := by
  rw [unorphanPass]
  generalize List.range' 1 (msgs.length - 1) = is
  induction is with
  | nil => rfl
  | cons i is ih => rw [List.foldl_cons, h.unorphan_eq, ih]

/-- The positions that the first pass flags. -/
def passed (q : Qsort) (msgs : List Message) (keepCount : Nat) : Finset Nat :=
  selectPass msgs keepCount (priorityOrder q msgs keepCount) ∅ 0

theorem mem_passed (q : Qsort) {x : Nat} :
    x ∈ passed q msgs keepCount ↔ BroughtBy msgs (walked q msgs keepCount) x :=
  selectPass_priorityOrder q

/-- **The second pass has nothing left to do** after the first. -/
theorem unorphaned_passed (q : Qsort) : Unorphaned msgs (passed q msgs keepCount) := by
  refine ⟨fun i hi hfollows => ?_, fun i hi hcalls => ?_⟩
  · rw [mem_passed] at hi ⊢
    obtain ⟨htool, hpos, hassistant⟩ := followsAssistant_iff.mp hfollows
    have hcalls : callsNext msgs (i - 1) = true := by
      rw [← followsAssistant_succ, Nat.sub_add_cancel hpos, hfollows]
    rcases hi with hi | ⟨-, hi⟩
    · exact Or.inr ⟨by rwa [Nat.sub_add_cancel hpos], hcalls⟩
    · rw [callsNext, Bool.and_eq_true] at hi
      rw [not_isToolRole_of_isAssistantRole hi.1] at htool
      exact Bool.noConfusion htool
  · rw [mem_passed] at hi ⊢
    rcases hi with hi | ⟨hi, -⟩
    · rw [callsNext, Bool.and_eq_true] at hcalls
      exact Or.inl (mem_walked_of_other q hi (mem_others_of_isAssistantRole hcalls.1) hcalls.2)
    · exact Or.inl hi

theorem smartSelected_of_lt (q : Qsort) (h : keepCount < msgs.length) :
    smartSelected q msgs keepCount = (flagged msgs (passed q msgs keepCount)).take keepCount := by
  rw [smartSelected, if_neg (Nat.not_le.mpr h)]
  exact congrArg (fun kept => (flagged msgs kept).take keepCount)
    (unorphaned_passed q).unorphanPass_eq

/-! ## The number of selected messages -/

/-- The flagged positions in the order of the walk, those brought along at the end. -/
def broughtList (msgs : List Message) (walked : List Nat) : List Nat :=
  walked ++ (walked.filter (followsAssistant msgs)).map (· - 1)

theorem length_broughtList (l : List Nat) :
    (broughtList msgs l).length = Budget.weight (positionWeight msgs) l := by
  rw [broughtList, List.length_append, List.length_map]
  induction l with
  | nil => rfl
  | cons i l ih =>
    rw [List.length_cons, List.filter_cons, Budget.weight_cons, positionWeight, ← ih]
    split
    · rw [List.length_cons]
      omega
    · omega

theorem mem_broughtList {l : List Nat} {x : Nat} : x ∈ broughtList msgs l ↔ BroughtBy msgs l x := by
  induction l with
  | nil => simp [broughtList, BroughtBy]
  | cons i l ih =>
    rw [broughtBy_cons, ← ih, broughtList, broughtList, List.cons_append, List.mem_cons,
      List.mem_append, List.mem_append, List.filter_cons]
    split
    · next h =>
      rw [List.map_cons, List.mem_cons]
      tauto
    · next h => tauto

theorem card_passed (q : Qsort) :
    (flagged msgs (passed q msgs keepCount)).length = (passed q msgs keepCount).card := by
  have hsubset : passed q msgs keepCount = (flagged msgs (passed q msgs keepCount)).toFinset := by
    ext x
    rw [List.mem_toFinset, flagged, List.mem_filter, List.mem_range, decide_eq_true_iff]
    refine ⟨fun hx => ⟨?_, hx⟩, fun hx => hx.2⟩
    rw [mem_passed] at hx
    rcases hx with hx | ⟨hx, -⟩
    · exact lt_length_of_mem_walked q hx
    · exact Nat.lt_of_succ_lt (lt_length_of_mem_walked q hx)
  nth_rewrite 2 [hsubset]
  exact (List.toFinset_card_of_nodup (List.nodup_range.filter _)).symm

theorem lengths_add (msgs : List Message) :
    (systems msgs).length + (tools msgs).length + (others msgs).length = msgs.length := by
  have htools : ((List.range msgs.length).filter fun i => !isSystem msgs i).filter
      (isToolRole msgs) = tools msgs := by
    rw [List.filter_filter, tools]
    refine List.filter_congr fun i _ => ?_
    cases ht : isToolRole msgs i with
    | true =>
      cases hs : isSystem msgs i with
      | true =>
        rw [not_isToolRole_of_isSystem hs] at ht
        exact Bool.noConfusion ht
      | false => rfl
    | false => rfl
  have hothers : ((List.range msgs.length).filter fun i => !isSystem msgs i).filter
      (fun i => !isToolRole msgs i) = others msgs := by
    rw [List.filter_filter, others]
    exact List.filter_congr fun i _ => Bool.and_comm _ _
  have hsplit : (List.range msgs.length).length = _ :=
    List.length_eq_length_filter_add (isSystem msgs)
  have hsplit' : ((List.range msgs.length).filter fun i => !isSystem msgs i).length = _ :=
    List.length_eq_length_filter_add (isToolRole msgs)
  rw [htools, hothers] at hsplit'
  rw [List.length_range] at hsplit
  rw [systems]
  omega

theorem length_le_demand (msgs : List Message) :
    (systems msgs).length + (tools msgs).length ≤ demand msgs := by
  have hlength : ∀ l : List Nat, l.length ≤ Budget.weight (positionWeight msgs) l := by
    intro l
    rw [← length_broughtList, broughtList, List.length_append]
    exact Nat.le_add_right _ _
  exact Nat.add_le_add_left (hlength _) _

/-- The walk reaches its budget, exactly when it reaches some of the others. -/
theorem weight_walked (q : Qsort) (h : keepCount < msgs.length) :
    keepCount ≤ Budget.weight (positionWeight msgs) (walked q msgs keepCount) ∧
      (demand msgs < keepCount →
        Budget.weight (positionWeight msgs) (walked q msgs keepCount) = keepCount) := by
  rcases walked_cases q msgs keepCount with ⟨sys, hsys, hle, hwalked⟩ | ⟨sys, hsys, hlt, hwalked⟩
  · rw [hwalked]
    refine ⟨Budget.le_weight_reach ?_, fun hlt => absurd hle (Nat.not_le.mpr hlt)⟩
    rw [weight_front hsys]
    exact hle
  · have hexact : Budget.weight (positionWeight msgs) (walked q msgs keepCount) = keepCount := by
      have hlength := lengths_add msgs
      have hdemand := length_le_demand msgs
      rw [hwalked, ← List.append_assoc, Budget.weight_append, weight_front hsys,
        Budget.weight_eq_length fun i hi => positionWeight_of_mem_others (List.mem_of_mem_take hi),
        List.length_take, List.length_reverse]
      omega
    exact ⟨Nat.le_of_eq hexact.symm, fun _ => hexact⟩

/-- A small budget reaches none of the others. -/
theorem not_callsNext_of_le_demand (q : Qsort) (h : keepCount ≤ demand msgs) {i : Nat}
    (hi : i ∈ walked q msgs keepCount) : callsNext msgs i = false := by
  rw [Bool.eq_false_iff]
  intro hcalls
  rcases walked_cases q msgs keepCount with ⟨sys, hsys, -, hwalked⟩ | ⟨-, -, hlt, -⟩
  · rw [hwalked] at hi
    exact not_mem_others_of_front hsys ((Budget.reach_prefix _ _ _).subset hi)
      (mem_others_of_callsNext hcalls)
  · omega

/-- The flagged positions are counted once each exactly when no assistant message is reached whose
tool message has brought it along before. -/
theorem nodup_broughtList_iff (q : Qsort) : (broughtList msgs (walked q msgs keepCount)).Nodup ↔
    ∀ i ∈ walked q msgs keepCount, callsNext msgs i = false := by
  rw [broughtList, List.nodup_append]
  constructor
  · rintro ⟨-, -, hdisjoint⟩ i hi
    rw [Bool.eq_false_iff]
    intro hcalls
    have hassistant := (Bool.and_eq_true _ _ ▸ hcalls : _ ∧ _)
    have hnext : i + 1 ∈ walked q msgs keepCount :=
      mem_walked_of_other q hi (mem_others_of_isAssistantRole hassistant.1) hassistant.2
    refine hdisjoint i hi i (List.mem_map.mpr ⟨i + 1, List.mem_filter.mpr ⟨hnext, ?_⟩, rfl⟩) rfl
    rw [followsAssistant_succ, hcalls]
  · intro h
    refine ⟨nodup_walked q, ?_, ?_⟩
    · refine ((nodup_walked q).filter _).map_on ?_
      intro i hi j hj hij
      have hipos := (followsAssistant_iff.mp (List.mem_filter.mp hi).2).2.1
      have hjpos := (followsAssistant_iff.mp (List.mem_filter.mp hj).2).2.1
      omega
    · rintro i hi j hj rfl
      obtain ⟨k, hk, rfl⟩ := List.mem_map.mp hj
      have hpos := (followsAssistant_iff.mp (List.mem_filter.mp hk).2).2.1
      have hcalls := h _ hi
      rw [← followsAssistant_succ, Nat.sub_add_cancel hpos, (List.mem_filter.mp hk).2] at hcalls
      exact Bool.noConfusion hcalls

theorem card_passed_le_iff (q : Qsort) (h : keepCount < msgs.length) :
    keepCount ≤ (passed q msgs keepCount).card ↔
      ∀ i ∈ walked q msgs keepCount, callsNext msgs i = false := by
  have hset : passed q msgs keepCount = (broughtList msgs (walked q msgs keepCount)).toFinset := by
    ext x
    rw [mem_passed, List.mem_toFinset, mem_broughtList]
  obtain ⟨hreach, hexact⟩ := weight_walked q h
  rw [← nodup_broughtList_iff, hset]
  constructor
  · intro hcard
    by_cases hdemand : demand msgs < keepCount
    · rw [List.card_toFinset] at hcard
      have hlength : _ = Budget.weight (positionWeight msgs) _ :=
        length_broughtList (walked q msgs keepCount)
      rw [hexact hdemand] at hlength
      have hle := (List.dedup_sublist (broughtList msgs (walked q msgs keepCount))).length_le
      rw [← List.dedup_eq_self]
      exact (List.dedup_sublist _).eq_of_length (by omega)
    · rw [nodup_broughtList_iff]
      exact fun i hi => not_callsNext_of_le_demand q (Nat.not_lt.mp hdemand) hi
  · intro hnodup
    rw [List.toFinset_card_of_nodup hnodup, length_broughtList]
    exact hreach

/-! ## The length of the selection -/

/-- The last of the other messages that a large budget reaches are not followed by a tool message,
where they are assistant messages. -/
def CountedOnce (msgs : List Message) (keepCount : Nat) : Prop :=
  ∀ i ∈ (others msgs).reverse.take (keepCount - demand msgs), callsNext msgs i = false

theorem countedOnce_iff (q : Qsort) : CountedOnce msgs keepCount ↔
    ∀ i ∈ walked q msgs keepCount, callsNext msgs i = false := by
  rw [CountedOnce]
  rcases walked_cases q msgs keepCount with ⟨-, -, hle, -⟩ | ⟨sys, hsys, hlt, hwalked⟩
  · rw [Nat.sub_eq_zero_of_le hle, List.take_zero]
    exact iff_of_true (fun i hi => absurd hi List.not_mem_nil)
      fun i hi => not_callsNext_of_le_demand q hle hi
  · rw [hwalked, ← List.append_assoc]
    constructor
    · intro h i hi
      rcases List.mem_append.mp hi with hi | hi
      · rw [Bool.eq_false_iff]
        exact fun hcalls => not_mem_others_of_front hsys hi (mem_others_of_callsNext hcalls)
      · exact h i hi
    · exact fun h i hi => h i (List.mem_append_right _ hi)

theorem length_smartSelected (q : Qsort) (h : keepCount < msgs.length) :
    (smartSelected q msgs keepCount).length = keepCount ↔ CountedOnce msgs keepCount := by
  rw [countedOnce_iff q, ← card_passed_le_iff q h, smartSelected_of_lt q h, List.length_take,
    card_passed]
  omega

/-! ## Copies -/

section Pick

variable {α : Type}

theorem pick_range (l : List α) : pick l (List.range l.length) = l := by
  induction l using List.reverseRecOn with
  | nil => rfl
  | append_singleton l a ih =>
    have hfront : (List.range l.length).filterMap ((l ++ [a])[·]?) =
        (List.range l.length).filterMap (l[·]?) := by
      refine List.filterMap_congr fun i hi => ?_
      rw [List.getElem?_append_left (List.mem_range.mp hi)]
    rw [pick, List.length_append, List.length_singleton, List.range_succ, List.filterMap_append,
      hfront, ← pick, ih, List.filterMap_cons, List.getElem?_concat_length, List.filterMap_nil]

/-- The copies of positions in order are a sublist. -/
theorem pick_sublist {l : List α} {positions : List Nat}
    (h : positions.Sublist (List.range l.length)) : (pick l positions).Sublist l := by
  have hsub := h.filterMap (l[·]?)
  rwa [show (List.range l.length).filterMap (l[·]?) = l from pick_range l] at hsub

/-- Positions within a list are all copied. -/
theorem getElem?_pick {l : List α} {positions : List Nat} (h : ∀ i ∈ positions, i < l.length)
    (j : Nat) : (pick l positions)[j]? = positions[j]?.bind (l[·]?) := by
  induction positions generalizing j with
  | nil => rfl
  | cons i is ih =>
    have hi := h i List.mem_cons_self
    rw [pick, List.filterMap_cons, List.getElem?_eq_getElem hi]
    cases j with
    | zero => exact (List.getElem?_eq_getElem hi).symm
    | succ j => exact ih (fun k hk => h k (List.mem_cons_of_mem i hk)) j

theorem length_pick {l : List α} {positions : List Nat} (h : ∀ i ∈ positions, i < l.length) :
    (pick l positions).length = positions.length := by
  induction positions with
  | nil => rfl
  | cons i is ih =>
    have hi := h i List.mem_cons_self
    rw [pick, List.filterMap_cons, List.getElem?_eq_getElem hi]
    exact congrArg (· + 1) (ih fun j hj => h j (List.mem_cons_of_mem i hj))

end Pick

theorem smartSelected_sublist (q : Qsort) (msgs : List Message) (keepCount : Nat) :
    (smartSelected q msgs keepCount).Sublist (List.range msgs.length) := by
  rw [smartSelected]
  split
  · exact List.Sublist.refl _
  · exact (List.take_sublist _ _).trans List.filter_sublist

theorem length_pick_smartSelected (q : Qsort) :
    (pick msgs (smartSelected q msgs keepCount)).length =
      (smartSelected q msgs keepCount).length :=
  length_pick fun _ hi => List.mem_range.mp ((smartSelected_sublist q msgs keepCount).subset hi)

/-! ## The announced length -/

/-- The selection is a sublist of the announced length, and the window reads no message past it. -/
def SelectsExactly (q : Qsort) (msgs : List Message) (keepCount : Nat) : Prop :=
  ∃ selected, smartSelectAlloc q msgs keepCount = some selected ∧
    selected.length = min msgs.length keepCount ∧ selected.Sublist msgs ∧
    ∀ maxChars, (applyContextWindow q msgs keepCount maxChars).isSome = true

theorem length_smartSelected_eq_min_iff (q : Qsort) (msgs : List Message) (keepCount : Nat) :
    (smartSelected q msgs keepCount).length = min msgs.length keepCount ↔
      msgs.length ≤ keepCount ∨ CountedOnce msgs keepCount := by
  by_cases hle : msgs.length ≤ keepCount
  · rw [smartSelected, if_pos hle, List.length_range, Nat.min_eq_left hle]
    exact iff_of_true rfl (Or.inl hle)
  · have hlt := Nat.not_le.mp hle
    rw [Nat.min_eq_right (Nat.le_of_lt hlt), length_smartSelected q hlt, or_iff_right hle]

theorem SelectsExactly.length_eq_min {q : Qsort} (h : SelectsExactly q msgs keepCount) :
    (smartSelected q msgs keepCount).length = min msgs.length keepCount := by
  obtain ⟨selected, hselected, hcount, -, -⟩ := h
  rw [smartSelectAlloc] at hselected
  split at hselected
  · exact absurd hselected (by simp)
  · rw [← Option.some.inj hselected, length_pick_smartSelected] at hcount
    exact hcount

/-- A selection of the announced length is never empty. -/
theorem smartSelectAlloc_eq (q : Qsort) (hpos : 1 ≤ keepCount)
    (h : (smartSelected q msgs keepCount).length = min msgs.length keepCount) :
    smartSelectAlloc q msgs keepCount = some (pick msgs (smartSelected q msgs keepCount)) := by
  rw [smartSelectAlloc, if_neg]
  rintro ⟨hlt, hnil⟩
  rw [hnil, List.length_nil] at h
  omega

/-- **The selection has the announced length** exactly when it takes the whole list, or counts no
assistant message twice. -/
theorem selectsExactly_iff (q : Qsort) (msgs : List Message) {keepCount : Nat} (hpos : 1 ≤ keepCount) :
    SelectsExactly q msgs keepCount ↔ msgs.length ≤ keepCount ∨ CountedOnce msgs keepCount := by
  rw [← length_smartSelected_eq_min_iff q]
  constructor
  · exact SelectsExactly.length_eq_min
  · intro hcount
    have hselected := smartSelectAlloc_eq q hpos hcount
    refine ⟨_, hselected, ?_, pick_sublist (smartSelected_sublist q msgs keepCount), ?_⟩
    · rw [length_pick_smartSelected, hcount]
    · intro maxChars
      rw [applyContextWindow]
      split
      · rfl
      · rw [hselected]
        dsimp only
        rw [trimMessagesByTokensNew, if_neg]
        · rfl
        · rw [length_pick_smartSelected, hcount]
          exact Nat.lt_irrefl _

end Roles

/-! ## An example -/

instance : DecidableRel fun a b : MsgScore => scoreCmp a b ≤ 0 :=
  fun a b => inferInstanceAs (Decidable (scoreCmp a b ≤ 0))

instance : Std.Total fun a b : MsgScore => scoreCmp a b ≤ 0 where
  total a b := by
    rw [scoreCmp_le_iff, scoreCmp_le_iff]
    omega

instance : IsTrans MsgScore fun a b => scoreCmp a b ≤ 0 where
  trans a b c hab hbc := by
    rw [scoreCmp_le_iff] at hab hbc ⊢
    omega

/-- Sorting by insertion. -/
def insertionQsort : Qsort where
  sort l := l.insertionSort fun a b => scoreCmp a b ≤ 0
  perm l := List.perm_insertionSort _ l
  sorted l := List.pairwise_insertionSort _ l

/-- A message of a role, of four characters. -/
def roleMessage (role : String) : Message := { role := some role, content := some "text" }

/-- Three questions and a call with its result. -/
def calledConversation : List Message :=
  [roleMessage "user", roleMessage "user", roleMessage "user", roleMessage "assistant",
    roleMessage "tool"]

/-- Two of the five messages are selected as announced. -/
theorem selectsExactly_calledConversation : SelectsExactly insertionQsort calledConversation 2 :=
  (selectsExactly_iff insertionQsort calledConversation (by decide)).mpr
    (Or.inr (by unfold CountedOnce; decide +kernel))

/-- With a budget of four the assistant message is counted twice, and three messages are selected. -/
theorem not_selectsExactly_calledConversation :
    ¬ ∀ (q : Qsort) (msgs : List Message) (keepCount : Nat), 1 ≤ keepCount →
        SelectsExactly q msgs keepCount := by
  intro h
  have hcount := (h insertionQsort calledConversation 4 (by decide)).length_eq_min
  rw [length_smartSelected_eq_min_iff] at hcount
  rcases hcount with hle | honce
  · exact absurd hle (by decide)
  · revert honce
    unfold CountedOnce
    decide +kernel

end EchoAi
