import EchoAi.Agent.ContextWindow

/-!
# Calls and their results in the window

A tool message answers a call of the assistant message before it; an assistant message with several
calls is followed by several tool messages.  The passes that repair a cut look at the neighbouring
message only, so a cut inside such a row of tool messages stays.

* `Paired`: every tool message stands in the row directly after the assistant message that made its
  call, and every call has its answer there.
* `mem_trimKept_iff`: what the second cut keeps.
* `keepsPairs_pick_trimKept_iff`: when both cuts together keep the rows whole.
* `nonSystem_smartSelected`: what the first cut leaves to the second, from the classes of positions.
* `windowKeepsPairs_iff`: when the window keeps calls and results together.
-/

namespace EchoAi

variable {msgs : List Message} {keepCount maxTokens : Nat}

/-! ## Rows of tool messages -/

section Rows

variable (msgs : List Message)

/-- A position in the row of tool messages directly after another one. -/
def DirectlyAfter (a i : Nat) : Prop := a < i ∧ ∀ k, a < k → k ≤ i → isToolRole msgs k = true

/-- The ids of the calls of the message at a position. -/
def callIds (a : Nat) : List String :=
  (msgs[a]?.map fun m => m.toolCalls.filterMap ToolCall.id).getD []

/-- The id of the call that the message at a position answers. -/
def answeredId (i : Nat) : Option String := msgs[i]?.bind Message.toolCallId

/-- Every tool message answers a call of the assistant message that its row follows, and every call of
an assistant message is answered in the row after it. -/
structure Paired : Prop where
  called : ∀ i, isToolRole msgs i = true → ∃ a, isAssistantRole msgs a = true ∧
    DirectlyAfter msgs a i ∧ ∃ id ∈ callIds msgs a, answeredId msgs i = some id
  answered : ∀ a, isAssistantRole msgs a = true → ∀ id ∈ callIds msgs a,
    ∃ i, DirectlyAfter msgs a i ∧ answeredId msgs i = some id

/-- Some positions hold an assistant message exactly when they hold the tool messages directly after
it. -/
def KeepsPairs (kept : List Nat) : Prop :=
  ∀ a i, isAssistantRole msgs a = true → DirectlyAfter msgs a i → (a ∈ kept ↔ i ∈ kept)

end Rows

theorem DirectlyAfter.tool {a i : Nat} (h : DirectlyAfter msgs a i) :
    isToolRole msgs i = true := h.2 i h.1 (Nat.le_refl i)

theorem DirectlyAfter.pred {a i : Nat} (h : DirectlyAfter msgs a (i + 1)) :
    a = i ∨ DirectlyAfter msgs a i := by
  rcases Nat.lt_succ_iff_lt_or_eq.mp h.1 with hlt | heq
  · exact Or.inr ⟨hlt, fun k hk hki => h.2 k hk (Nat.le_succ_of_le hki)⟩
  · exact Or.inl heq

theorem DirectlyAfter.succ {a i : Nat} (h : DirectlyAfter msgs a i)
    (hi : isToolRole msgs (i + 1) = true) : DirectlyAfter msgs a (i + 1) := by
  refine ⟨Nat.lt_succ_of_lt h.1, fun k hk hki => ?_⟩
  rcases Nat.lt_or_eq_of_le hki with hlt | rfl
  · exact h.2 k hk (Nat.lt_succ_iff.mp hlt)
  · exact hi

theorem directlyAfter_self {a : Nat} (h : isToolRole msgs (a + 1) = true) :
    DirectlyAfter msgs a (a + 1) :=
  ⟨Nat.lt_succ_self a, fun _ hk hki => Nat.le_antisymm hki hk ▸ h⟩

/-- In front of a tool message stands the caller or another tool message. -/
theorem Paired.before {i : Nat} (h : Paired msgs) (hi : isToolRole msgs i = true) :
    0 < i ∧ (isAssistantRole msgs (i - 1) = true ∨ isToolRole msgs (i - 1) = true) := by
  obtain ⟨a, hassistant, hafter, -⟩ := h.called i hi
  obtain ⟨n, rfl⟩ : ∃ n, i = n + 1 := ⟨i - 1, by have := hafter.1; omega⟩
  refine ⟨Nat.succ_pos n, ?_⟩
  rw [Nat.add_sub_cancel]
  rcases hafter.pred with rfl | hafter
  · exact Or.inl hassistant
  · exact Or.inr hafter.tool

theorem Paired.not_isSystem_before {i : Nat} (h : Paired msgs) (hi : isToolRole msgs i = true) :
    isSystem msgs (i - 1) = false := by
  rcases (h.before hi).2 with hassistant | htool
  · exact not_isSystem_of_isAssistantRole hassistant
  · rw [Bool.eq_false_iff]
    intro hsystem
    rw [not_isToolRole_of_isSystem hsystem] at htool
    exact Bool.noConfusion htool

/-- Rows are kept whole when each tool message is kept with the message in front of it. -/
theorem Paired.keepsPairs_iff (h : Paired msgs) {kept : List Nat} : KeepsPairs msgs kept ↔
    ∀ i, isToolRole msgs i = true → (i - 1 ∈ kept ↔ i ∈ kept) := by
  constructor
  · intro hkept i hi
    obtain ⟨a, hassistant, hafter, -⟩ := h.called i hi
    have hcaller := hkept a i hassistant hafter
    obtain ⟨n, rfl⟩ : ∃ n, i = n + 1 := ⟨i - 1, by have := hafter.1; omega⟩
    rw [Nat.add_sub_cancel]
    rcases hafter.pred with rfl | hpred
    · exact hcaller
    · exact (hkept a n hassistant hpred).symm.trans hcaller
  · intro hkept a i hassistant hafter
    induction i with
    | zero => exact absurd hafter.1 (Nat.not_lt_zero a)
    | succ i ih =>
      have hlast := hkept (i + 1) hafter.tool
      rw [Nat.add_sub_cancel] at hlast
      rcases hafter.pred with rfl | hpred
      · exact hlast
      · exact (ih hpred).trans hlast

/-- **A list copied with its rows whole** is paired again. -/
theorem Paired.copied (h : Paired msgs) {kept : List Nat}
    (hsub : kept.Sublist (List.range msgs.length)) (hkept : KeepsPairs msgs kept) :
    Paired (pick msgs kept) := by
  have hbound : ∀ i ∈ kept, i < msgs.length := fun i hi => List.mem_range.mp (hsub.subset hi)
  have hsorted : kept.Pairwise (· < ·) := List.pairwise_lt_range.sublist hsub
  have hlength : (pick msgs kept).length = kept.length := length_pick hbound
  have hget : ∀ {role : String} {j : Nat}, hasRole (pick msgs kept) role j = true →
      ∃ i, kept[j]? = some i := by
    intro role j hj
    have hlt := lt_length_of_hasRole hj
    rw [hlength] at hlt
    exact ⟨kept[j], List.getElem?_eq_getElem hlt⟩
  -- The copies of a row follow the copy of its caller: what lies between them lies in the row.
  have hafter : ∀ {a i j k : Nat}, kept[j]? = some a → kept[k]? = some i → DirectlyAfter msgs a i →
      DirectlyAfter (pick msgs kept) j k := by
    intro a i j k hj hk hai
    obtain ⟨hjlt, hja⟩ := List.getElem?_eq_some_iff.mp hj
    obtain ⟨hklt, hki⟩ := List.getElem?_eq_some_iff.mp hk
    have hmono : ∀ {m m' : Nat} (hm : m < kept.length) (hm' : m' < kept.length), m < m' →
        kept[m] < kept[m'] := fun hm hm' hlt => List.pairwise_iff_getElem.mp hsorted _ _ hm hm' hlt
    refine ⟨?_, fun m hjm hmk => ?_⟩
    · by_contra hle
      rcases Nat.lt_or_eq_of_le (Nat.not_lt.mp hle) with hkj | hkj
      · have hlt := hmono hklt hjlt hkj
        rw [hja, hki] at hlt
        exact absurd hai.1 (Nat.not_lt.mpr (Nat.le_of_lt hlt))
      · subst hkj
        exact absurd hai.1 (by omega)
    · have hmlt : m < kept.length := Nat.lt_of_le_of_lt hmk hklt
      rw [isToolRole, hasRole_pick hbound (List.getElem?_eq_getElem hmlt)]
      refine hai.2 _ (hja ▸ hmono hjlt hmlt hjm) ?_
      rcases Nat.lt_or_eq_of_le hmk with hlt | rfl
      · exact Nat.le_of_lt (hki ▸ hmono hmlt hklt hlt)
      · exact Nat.le_of_eq hki
  have hids : ∀ {a j : Nat}, kept[j]? = some a →
      callIds (pick msgs kept) j = callIds msgs a := by
    intro a j hj
    rw [callIds, callIds, getElem?_pick hbound, hj, Option.bind_some]
  have hanswer : ∀ {i k : Nat}, kept[k]? = some i →
      answeredId (pick msgs kept) k = answeredId msgs i := by
    intro i k hk
    rw [answeredId, answeredId, getElem?_pick hbound, hk, Option.bind_some]
  refine ⟨fun k htool => ?_, fun j hassistant id hid => ?_⟩
  · obtain ⟨i, hk⟩ := hget htool
    rw [isToolRole, hasRole_pick hbound hk] at htool
    obtain ⟨a, hassistant, hrow, id, hid, hanswered⟩ := h.called i htool
    obtain ⟨j, hjlt, hja⟩ := List.getElem_of_mem
      ((hkept a i hassistant hrow).mpr (List.mem_of_getElem? hk))
    have hj : kept[j]? = some a := List.getElem?_eq_some_iff.mpr ⟨hjlt, hja⟩
    refine ⟨j, ?_, hafter hj hk hrow, id, (hids hj).symm ▸ hid, (hanswer hk).trans hanswered⟩
    rw [isAssistantRole, hasRole_pick hbound hj]
    exact hassistant
  · obtain ⟨a, hj⟩ := hget hassistant
    rw [isAssistantRole, hasRole_pick hbound hj] at hassistant
    rw [hids hj] at hid
    obtain ⟨i, hrow, hanswered⟩ := h.answered a hassistant id hid
    obtain ⟨k, hklt, hki⟩ := List.getElem_of_mem
      ((hkept a i hassistant hrow).mp (List.mem_of_getElem? hj))
    have hk : kept[k]? = some i := List.getElem?_eq_some_iff.mpr ⟨hklt, hki⟩
    exact ⟨k, hafter hj hk hrow, (hanswer hk).trans hanswered⟩

/-! ## What the second cut keeps -/

/-- The positions that do not hold a system message. -/
def nonSystems (msgs : List Message) : List Nat :=
  (List.range msgs.length).filter fun i => !isSystem msgs i

theorem mem_nonSystems {i : Nat} :
    i ∈ nonSystems msgs ↔ i < msgs.length ∧ isSystem msgs i = false := by
  rw [nonSystems, List.mem_filter, List.mem_range, Bool.not_eq_true']

/-- The last positions, apart from system messages, that fit a token budget together. -/
def recentFit (msgs : List Message) (maxTokens : Nat) : List Nat :=
  Budget.fitting (tokensAt msgs) maxTokens (nonSystems msgs).reverse

theorem reverse_nonSystems_pairwise : (nonSystems msgs).reverse.Pairwise fun i j => j < i := by
  rw [List.pairwise_reverse]
  exact List.pairwise_lt_range.filter _

theorem not_isSystem_of_mem_recentFit {i : Nat} (h : i ∈ recentFit msgs maxTokens) :
    isSystem msgs i = false :=
  (mem_nonSystems.mp (List.mem_reverse.mp ((Budget.fitting_prefix _ _ _).subset h))).2

/-- What comes after a recent message is recent. -/
theorem mem_recentFit_of_le {i j : Nat} (hi : i ∈ recentFit msgs maxTokens) (hij : i ≤ j)
    (hj : j ∈ nonSystems msgs) : j ∈ recentFit msgs maxTokens :=
  Budget.mem_prefix (Budget.fitting_prefix _ _ _) reverse_nonSystems_pairwise hi
    (List.mem_reverse.mpr hj) (Nat.not_lt.mpr hij)

theorem mem_keepRecent {n : Nat} {kept : Finset Nat} {budget x : Nat} :
    x ∈ keepRecent msgs n kept budget ↔ x ∈ kept ∨
      x ∈ Budget.fitting (tokensAt msgs) budget
        ((List.range n).filter fun i => decide (i ∉ kept)).reverse := by
  induction n generalizing kept budget with
  | zero => simp [keepRecent, Budget.fitting]
  | succ n ih =>
    rw [keepRecent, List.range_succ, List.filter_append, List.reverse_append]
    split
    · next hn =>
      rw [ih, List.filter_cons_of_neg (by simpa using hn), List.filter_nil, List.reverse_nil,
        List.nil_append]
    · next hn =>
      have hrest : ((List.range n).filter fun i => decide (i ∉ insert n kept)) =
          (List.range n).filter fun i => decide (i ∉ kept) := by
        refine List.filter_congr fun i hi => ?_
        have hne : i ≠ n := Nat.ne_of_lt (List.mem_range.mp hi)
        rw [decide_eq_decide, Finset.mem_insert, or_iff_right hne]
      rw [List.filter_cons_of_pos (by simpa using hn), List.filter_nil, List.reverse_singleton,
        List.singleton_append, Budget.fitting]
      split
      · rw [ih, hrest, Finset.mem_insert, List.mem_cons]
        tauto
      · rw [or_iff_left List.not_mem_nil]

/-- The recent messages flagged after the system messages. -/
theorem mem_keepRecent_systemSet {x : Nat} :
    x ∈ keepRecent msgs msgs.length ((Finset.range msgs.length).filter fun i =>
        isSystem msgs i = true) maxTokens ↔
      isSystem msgs x = true ∨ x ∈ recentFit msgs maxTokens := by
  have hrest : ((List.range msgs.length).filter fun i => decide (i ∉ (Finset.range
      msgs.length).filter fun i => isSystem msgs i = true)) = nonSystems msgs := by
    refine List.filter_congr fun i _ => ?_
    rw [decide_not, Bool.eq_iff_iff, Bool.not_eq_true', Bool.not_eq_true', ← Bool.not_eq_true,
      ← Bool.not_eq_true, decide_eq_true_iff, mem_systemSet]
  rw [mem_keepRecent, mem_systemSet, hrest, recentFit]

theorem unorphan_mono {kept kept' : Finset Nat} (h : kept ⊆ kept') (i : Nat) :
    unorphan msgs kept i ⊆ unorphan msgs kept' i := by
  have hstep : ∀ (b : Bool) (x : Nat) {s s' : Finset Nat}, s ⊆ s' →
      (if (b && decide (i ∈ s)) = true then insert x s else s) ⊆
        if (b && decide (i ∈ s')) = true then insert x s' else s' := by
    intro b x s s' hsub
    by_cases hs : (b && decide (i ∈ s)) = true
    · have hs' : (b && decide (i ∈ s')) = true := by
        rw [Bool.and_eq_true, decide_eq_true_iff] at hs ⊢
        exact ⟨hs.1, hsub hs.2⟩
      rw [if_pos hs, if_pos hs']
      exact Finset.insert_subset_insert x hsub
    · rw [if_neg hs]
      split
      · exact hsub.trans (Finset.subset_insert _ _)
      · exact hsub
  exact hstep _ _ (hstep _ _ h)

theorem unorphanPass_mono {kept kept' : Finset Nat} (h : kept ⊆ kept') :
    unorphanPass msgs kept ⊆ unorphanPass msgs kept' := by
  rw [unorphanPass, unorphanPass]
  generalize List.range' 1 (msgs.length - 1) = is
  induction is generalizing kept kept' with
  | nil => exact h
  | cons i is ih => exact ih (unorphan_mono h i)

/-- The repair brings the assistant message right before a flagged tool message along. -/
theorem mem_unorphanPass_of_callsNext {kept : Finset Nat} {x : Nat} (h : callsNext msgs x = true)
    (hx : x + 1 ∈ kept) : x ∈ unorphanPass msgs kept := by
  have hmem : x + 1 ∈ List.range' 1 (msgs.length - 1) := by
    rw [callsNext, Bool.and_eq_true] at h
    have hlt := lt_length_of_hasRole h.2
    rw [List.mem_range'_1]
    omega
  rw [unorphanPass]
  generalize List.range' 1 (msgs.length - 1) = is at hmem
  induction is generalizing kept with
  | nil => exact absurd hmem List.not_mem_nil
  | cons i is ih =>
    rw [List.foldl_cons]
    rcases List.mem_cons.mp hmem with rfl | hmem
    · have hrest : ∀ {s : Finset Nat}, x ∈ s → x ∈ is.foldl (unorphan msgs) s := by
        clear ih hmem
        induction is with
        | nil => exact fun hs => hs
        | cons i is ih => exact fun hs => ih (subset_unorphan _ i hs)
      have hfirst : (followsAssistant msgs (x + 1) && decide (x + 1 ∈ kept)) = true := by
        rw [followsAssistant_succ, h, decide_eq_true hx, Bool.and_self]
      refine hrest ?_
      unfold unorphan
      simp only [hfirst, if_true, Nat.add_sub_cancel]
      split
      · exact Finset.mem_insert_of_mem (Finset.mem_insert_self _ _)
      · exact Finset.mem_insert_self _ _
    · exact ih (subset_unorphan kept i hx) hmem

theorem totalTokens_eq_weight (msgs : List Message) :
    totalTokens msgs = Budget.weight (tokensAt msgs) (List.range msgs.length) := by
  have hmap : msgs.map (fun m => estimateTokens m.content) =
      (List.range msgs.length).map (tokensAt msgs) := by
    refine List.ext_getElem (by simp) fun i hi _ => ?_
    rw [List.length_map] at hi
    rw [List.getElem_map, List.getElem_map, List.getElem_range, tokensAt,
      List.getElem?_eq_getElem hi, Option.bind_some]
  rw [totalTokens, hmap, Budget.weight]

/-- All messages are recent when they fit the budget. -/
theorem recentFit_of_totalTokens_le (h : totalTokens msgs ≤ maxTokens) :
    recentFit msgs maxTokens = (nonSystems msgs).reverse := by
  refine Budget.fitting_of_le ?_
  rw [Budget.weight_perm (List.reverse_perm _)]
  refine le_trans ?_ (totalTokens_eq_weight msgs ▸ h)
  exact (List.filter_sublist.map _).sum_le_sum fun _ _ => Nat.zero_le _

/-- The flags after the second cut. -/
def recentFlags (msgs : List Message) (maxTokens : Nat) : Finset Nat :=
  (Finset.range msgs.length).filter fun x =>
    isSystem msgs x = true ∨ BroughtBy msgs (recentFit msgs maxTokens) x

theorem lt_length_of_mem_recentFit {x : Nat} (h : x ∈ recentFit msgs maxTokens) :
    x < msgs.length :=
  (mem_nonSystems.mp (List.mem_reverse.mp ((Budget.fitting_prefix _ _ _).subset h))).1

theorem mem_recentFlags {x : Nat} : x ∈ recentFlags msgs maxTokens ↔
    isSystem msgs x = true ∨ BroughtBy msgs (recentFit msgs maxTokens) x := by
  rw [recentFlags, Finset.mem_filter, Finset.mem_range]
  refine ⟨fun h => h.2, fun h => ⟨?_, h⟩⟩
  rcases h with hsystem | hmem | ⟨hmem, -⟩
  · exact lt_length_of_hasRole hsystem
  · exact lt_length_of_mem_recentFit hmem
  · exact Nat.lt_of_succ_lt (lt_length_of_mem_recentFit hmem)

theorem not_isSystem_of_isToolRole {i : Nat} (h : isToolRole msgs i = true) :
    isSystem msgs i = false := by
  rw [Bool.eq_false_iff]
  exact fun h' => absurd (hasRole_unique h h') (by decide)

/-- A tool message is never brought along. -/
theorem mem_of_broughtBy {l : List Nat} {i : Nat} (h : BroughtBy msgs l i)
    (htool : isToolRole msgs i = true) : i ∈ l := by
  rcases h with hmem | ⟨-, hcalls⟩
  · exact hmem
  · rw [callsNext, Bool.and_eq_true] at hcalls
    rw [not_isToolRole_of_isAssistantRole hcalls.1] at htool
    exact Bool.noConfusion htool

/-- The repair has nothing left to do at the flags after it. -/
theorem unorphaned_recentFlags : Unorphaned msgs (recentFlags msgs maxTokens) := by
  refine ⟨fun i hi hfollows => ?_, fun i hi hcalls => ?_⟩
  · obtain ⟨htool, hpos, -⟩ := followsAssistant_iff.mp hfollows
    rw [mem_recentFlags] at hi ⊢
    rcases hi with hsystem | hbrought
    · rw [not_isSystem_of_isToolRole htool] at hsystem
      exact Bool.noConfusion hsystem
    · refine Or.inr (Or.inr ⟨?_, ?_⟩)
      · rw [Nat.sub_add_cancel hpos]
        exact mem_of_broughtBy hbrought htool
      · rw [← followsAssistant_succ, Nat.sub_add_cancel hpos, hfollows]
  · have hother := mem_others.mp (mem_others_of_callsNext hcalls)
    have htool := (Bool.and_eq_true _ _ ▸ hcalls : _ ∧ _).2
    have hnext : i + 1 ∈ nonSystems msgs :=
      mem_nonSystems.mpr ⟨lt_length_of_hasRole htool, not_isSystem_of_isToolRole htool⟩
    rw [mem_recentFlags] at hi ⊢
    refine Or.inr (Or.inl ?_)
    rcases hi with hsystem | hmem | ⟨hmem, -⟩
    · rw [hsystem] at hother
      exact Bool.noConfusion hother.2.1
    · exact mem_recentFit_of_le hmem (Nat.le_succ i) hnext
    · exact hmem

/-- **What the second cut keeps**: the system messages, the recent messages that fit, and the assistant
message right before the first of these when it is a tool message. -/
theorem mem_trimKept_iff {x : Nat} : x ∈ trimKept msgs maxTokens ↔
    isSystem msgs x = true ∨ BroughtBy msgs (recentFit msgs maxTokens) x := by
  rw [← mem_recentFlags, trimKept]
  split
  · next hfit =>
    rw [List.mem_range]
    constructor
    · intro hx
      rw [mem_recentFlags, recentFit_of_totalTokens_le hfit]
      cases hsystem : isSystem msgs x with
      | true => exact Or.inl rfl
      | false => exact Or.inr (Or.inl (List.mem_reverse.mpr (mem_nonSystems.mpr ⟨hx, hsystem⟩)))
    · intro hx
      exact Finset.mem_range.mp (Finset.mem_filter.mp hx).1
  · rw [mem_flagged]
    constructor
    · rintro ⟨-, hx⟩
      have hsub : keepRecent msgs msgs.length ((Finset.range msgs.length).filter fun i =>
          isSystem msgs i = true) maxTokens ⊆ recentFlags msgs maxTokens := by
        intro y hy
        exact mem_recentFlags.mpr ((mem_keepRecent_systemSet.mp hy).imp_right Or.inl)
      have hmem := unorphanPass_mono hsub hx
      rwa [unorphaned_recentFlags.unorphanPass_eq] at hmem
    · intro hx
      refine ⟨Finset.mem_range.mp (Finset.mem_filter.mp hx).1, ?_⟩
      rcases mem_recentFlags.mp hx with hsystem | hmem | ⟨hmem, hcalls⟩
      · exact subset_unorphanPass _ (mem_keepRecent_systemSet.mpr (Or.inl hsystem))
      · exact subset_unorphanPass _ (mem_keepRecent_systemSet.mpr (Or.inr hmem))
      · exact mem_unorphanPass_of_callsNext hcalls (mem_keepRecent_systemSet.mpr (Or.inr hmem))

/-! ## The second cut on a selection -/

section Selection

variable {selected : List Nat}

/-- The positions of a selection that do not hold a system message. -/
def nonSystemsOf (msgs : List Message) (selected : List Nat) : List Nat :=
  selected.filter fun i => !isSystem msgs i

theorem mem_nonSystemsOf {i : Nat} :
    i ∈ nonSystemsOf msgs selected ↔ i ∈ selected ∧ isSystem msgs i = false := by
  rw [nonSystemsOf, List.mem_filter, Bool.not_eq_true']

/-- The last positions of a list that fit a token budget together. -/
def recentOf (msgs : List Message) (maxTokens : Nat) (candidates : List Nat) : List Nat :=
  Budget.fitting (tokensAt msgs) maxTokens candidates.reverse

theorem nonSystemsOf_pairwise (hsub : selected.Sublist (List.range msgs.length)) :
    (nonSystemsOf msgs selected).Pairwise (· < ·) :=
  (List.pairwise_lt_range.sublist hsub).filter _

theorem mem_of_mem_recentOf {candidates : List Nat} {i : Nat}
    (h : i ∈ recentOf msgs maxTokens candidates) : i ∈ candidates :=
  List.mem_reverse.mp ((Budget.fitting_prefix _ _ _).subset h)

/-- What comes after a recent position is recent. -/
theorem mem_recentOf_of_le {candidates : List Nat} (hsorted : candidates.Pairwise (· < ·)) {i j : Nat}
    (hi : i ∈ recentOf msgs maxTokens candidates) (hij : i ≤ j) (hj : j ∈ candidates) :
    j ∈ recentOf msgs maxTokens candidates :=
  Budget.mem_prefix (Budget.fitting_prefix _ _ _) (List.pairwise_reverse.mpr hsorted) hi
    (List.mem_reverse.mpr hj) (Nat.not_lt.mpr hij)

/-- The recent messages of a copy are the copies of the recent messages. -/
theorem mem_recentFit_pick_iff (hsub : selected.Sublist (List.range msgs.length)) {i j : Nat}
    (hj : selected[j]? = some i) :
    j ∈ recentFit (pick msgs selected) maxTokens ↔
      i ∈ recentOf msgs maxTokens (nonSystemsOf msgs selected) := by
  have hbound : ∀ i ∈ selected, i < msgs.length := fun i hi => List.mem_range.mp (hsub.subset hi)
  have hnodup : selected.Nodup := List.nodup_range.sublist hsub
  have hlength : (pick msgs selected).length = selected.length := length_pick hbound
  have hgetD : ∀ {k : Nat} (hk : k < selected.length), selected.getD k 0 = selected[k] := by
    intro k hk
    rw [List.getD_eq_getElem?_getD, List.getElem?_eq_getElem hk, Option.getD_some]
  have hat : ∀ k ∈ List.range selected.length, selected[k]? = some (selected.getD k 0) := by
    intro k hk
    rw [hgetD (List.mem_range.mp hk), List.getElem?_eq_getElem]
  have hcandidates : nonSystemsOf msgs selected =
      (nonSystems (pick msgs selected)).map (selected.getD · 0) := by
    have hself : (List.range selected.length).map (selected.getD · 0) = selected := by
      refine List.ext_getElem (by simp) fun k hk hk' => ?_
      rw [List.getElem_map, List.getElem_range, hgetD hk']
    rw [nonSystems, hlength, nonSystemsOf]
    nth_rewrite 1 [← hself]
    rw [List.filter_map]
    refine congrArg _ (List.filter_congr fun k hk => ?_)
    rw [Function.comp_apply, isSystem, isSystem, hasRole_pick hbound (hat k hk)]
  have htokens : ∀ k ∈ (nonSystems (pick msgs selected)).reverse,
      tokensAt msgs (selected.getD k 0) = tokensAt (pick msgs selected) k := by
    intro k hk
    have hlt := (mem_nonSystems.mp (List.mem_reverse.mp hk)).1
    rw [hlength] at hlt
    rw [tokensAt_pick hbound (hat k (List.mem_range.mpr hlt))]
  rw [recentOf, hcandidates, ← List.map_reverse, Budget.fitting_map, Budget.fitting_congr htokens,
    ← recentFit, List.mem_map]
  obtain ⟨hjlt, hget⟩ := List.getElem?_eq_some_iff.mp hj
  constructor
  · intro hmem
    exact ⟨j, hmem, by rw [hgetD hjlt, hget]⟩
  · rintro ⟨k, hmem, hk⟩
    have hklt := lt_length_of_mem_recentFit hmem
    rw [hlength] at hklt
    rw [hgetD hklt, ← hget] at hk
    rwa [← hnodup.getElem_inj_iff.mp hk]

/-- Neighbouring positions stand side by side in a selection. -/
theorem getElem?_succ_of_mem (hsorted : selected.Pairwise (· < ·)) {i j : Nat}
    (hj : selected[j]? = some i) (hnext : i + 1 ∈ selected) : selected[j + 1]? = some (i + 1) := by
  obtain ⟨hjlt, hget⟩ := List.getElem?_eq_some_iff.mp hj
  obtain ⟨k, hklt, hk⟩ := List.getElem_of_mem hnext
  have hmono : ∀ {m m' : Nat} (hm : m < selected.length) (hm' : m' < selected.length), m < m' →
      selected[m] < selected[m'] := fun hm hm' hlt =>
    List.pairwise_iff_getElem.mp hsorted _ _ hm hm' hlt
  have hjk : j < k := by
    by_contra hle
    rcases Nat.lt_or_eq_of_le (Nat.not_lt.mp hle) with hkj | rfl
    · have hlt := hmono hklt hjlt hkj
      omega
    · omega
  have hkj : k = j + 1 := by
    by_contra hne
    have hbetween : j + 1 < k := by omega
    have hlow := hmono hjlt (by omega : j + 1 < selected.length) (Nat.lt_succ_self j)
    have hhigh := hmono (by omega : j + 1 < selected.length) hklt hbetween
    omega
  subst hkj
  exact List.getElem?_eq_some_iff.mpr ⟨hklt, hk⟩

/-- Where a token cut leaves rows whole: its first message is not a tool message after another one,
and after its last message no tool message was left out. -/
structure CutsBetweenPairs (msgs : List Message) (recent : List Nat) : Prop where
  first : ∀ e ∈ recent, (∀ x ∈ recent, e ≤ x) → isToolRole msgs e = true →
    isToolRole msgs (e - 1) = false
  last : ∀ l ∈ recent, (∀ x ∈ recent, x ≤ l) → isToolRole msgs (l + 1) = false

/-- Kept are the recent messages and, right before a recent tool message, an assistant message. -/
theorem mem_pick_trimKept_iff (hsub : selected.Sublist (List.range msgs.length)) {x : Nat}
    (hx : isSystem msgs x = false) :
    x ∈ pick selected (trimKept (pick msgs selected) maxTokens) ↔
      x ∈ recentOf msgs maxTokens (nonSystemsOf msgs selected) ∨
        isAssistantRole msgs x = true ∧ ∃ j y, selected[j]? = some x ∧ selected[j + 1]? = some y ∧
          isToolRole msgs y = true ∧ y ∈ recentOf msgs maxTokens (nonSystemsOf msgs selected) := by
  have hbound : ∀ i ∈ selected, i < msgs.length := fun i hi => List.mem_range.mp (hsub.subset hi)
  rw [mem_pick]
  constructor
  · rintro ⟨j, hj, hget⟩
    rw [mem_trimKept_iff, isSystem, hasRole_pick hbound hget, ← isSystem, hx,
      or_iff_right Bool.false_ne_true] at hj
    rcases hj with hmem | ⟨hmem, hcalls⟩
    · exact Or.inl ((mem_recentFit_pick_iff hsub hget).mp hmem)
    · have hnext := lt_length_of_mem_recentFit hmem
      rw [length_pick hbound] at hnext
      have hget' := List.getElem?_eq_getElem hnext
      rw [callsNext, Bool.and_eq_true, isAssistantRole, isToolRole, hasRole_pick hbound hget,
        hasRole_pick hbound hget'] at hcalls
      exact Or.inr ⟨hcalls.1, j, _, hget, hget', hcalls.2,
        (mem_recentFit_pick_iff hsub hget').mp hmem⟩
  · rintro (hmem | ⟨hassistant, j, y, hget, hget', htool, hmem⟩)
    · have hx' := (mem_nonSystemsOf.mp (mem_of_mem_recentOf hmem)).1
      obtain ⟨j, hjlt, hj⟩ := List.getElem_of_mem hx'
      have hget : selected[j]? = some x := List.getElem?_eq_some_iff.mpr ⟨hjlt, hj⟩
      exact ⟨j, mem_trimKept_iff.mpr (Or.inr (Or.inl ((mem_recentFit_pick_iff hsub hget).mpr hmem))),
        hget⟩
    · refine ⟨j, mem_trimKept_iff.mpr (Or.inr (Or.inr ⟨?_, ?_⟩)), hget⟩
      · exact (mem_recentFit_pick_iff hsub hget').mpr hmem
      · rw [callsNext, Bool.and_eq_true, isAssistantRole, isToolRole, hasRole_pick hbound hget,
          hasRole_pick hbound hget']
        exact ⟨hassistant, htool⟩

theorem tool_mem_pick_trimKept_iff (hsub : selected.Sublist (List.range msgs.length)) {x : Nat}
    (hx : isToolRole msgs x = true) :
    x ∈ pick selected (trimKept (pick msgs selected) maxTokens) ↔
      x ∈ recentOf msgs maxTokens (nonSystemsOf msgs selected) := by
  rw [mem_pick_trimKept_iff hsub (not_isSystem_of_isToolRole hx)]
  refine or_iff_left ?_
  rintro ⟨hassistant, -⟩
  rw [not_isToolRole_of_isAssistantRole hassistant] at hx
  exact Bool.noConfusion hx

/-- **Both cuts keep the rows whole** exactly when the token cut does, for a selection that breaks at
most its first and its last row. -/
theorem keepsPairs_pick_trimKept_iff (h : Paired msgs)
    (hsub : selected.Sublist (List.range msgs.length))
    (hfirst : ∀ i ∈ selected, isToolRole msgs i = true → i - 1 ∉ selected →
      isToolRole msgs (i - 1) = true ∧ ∀ x ∈ nonSystemsOf msgs selected, i ≤ x)
    (hlast : ∀ i, isToolRole msgs i = true → i ∉ selected → i - 1 ∈ selected →
      ∀ x ∈ nonSystemsOf msgs selected, x ≤ i - 1) :
    KeepsPairs msgs (pick selected (trimKept (pick msgs selected) maxTokens)) ↔
      CutsBetweenPairs msgs (recentOf msgs maxTokens (nonSystemsOf msgs selected)) := by
  have hsorted : selected.Pairwise (· < ·) := List.pairwise_lt_range.sublist hsub
  have hupward : ∀ {x y : Nat}, x ∈ recentOf msgs maxTokens (nonSystemsOf msgs selected) → x ≤ y →
      y ∈ nonSystemsOf msgs selected → y ∈ recentOf msgs maxTokens (nonSystemsOf msgs selected) :=
    fun hx hxy hy => mem_recentOf_of_le (nonSystemsOf_pairwise hsub) hx hxy hy
  rw [h.keepsPairs_iff]
  constructor
  · intro hclosed
    refine ⟨fun e he hmin htool => ?_, fun l hl hmax => ?_⟩
    · rw [Bool.eq_false_iff]
      intro htool'
      have hprev := (hclosed e htool).mpr ((tool_mem_pick_trimKept_iff hsub htool).mpr he)
      have hle := hmin _ ((tool_mem_pick_trimKept_iff hsub htool').mp hprev)
      have hpos := (h.before htool).1
      omega
    · rw [Bool.eq_false_iff]
      intro htool
      have hsystem : isSystem msgs l = false := (mem_nonSystemsOf.mp (mem_of_mem_recentOf hl)).2
      have hnext := (hclosed (l + 1) htool).mp ((mem_pick_trimKept_iff hsub hsystem).mpr (Or.inl hl))
      have hle := hmax _ ((tool_mem_pick_trimKept_iff hsub htool).mp hnext)
      omega
  · intro hcut i htool
    obtain ⟨hpos, hbefore⟩ := h.before htool
    have hsystem := h.not_isSystem_before htool
    rw [tool_mem_pick_trimKept_iff hsub htool, mem_pick_trimKept_iff hsub hsystem]
    constructor
    · intro hprev
      have hprevSelected : i - 1 ∈ selected := by
        rcases hprev with hmem | ⟨-, j, y, hget, -⟩
        · exact (mem_nonSystemsOf.mp (mem_of_mem_recentOf hmem)).1
        · exact List.mem_of_getElem? hget
      by_cases hi : i ∈ selected
      · have hcandidate := mem_nonSystemsOf.mpr ⟨hi, not_isSystem_of_isToolRole htool⟩
        rcases hprev with hmem | ⟨-, j, y, hget, hget', -, hmem⟩
        · exact hupward hmem (Nat.sub_le i 1) hcandidate
        · have hside := getElem?_succ_of_mem hsorted hget (by rwa [Nat.sub_add_cancel hpos])
          rw [hget', Nat.sub_add_cancel hpos] at hside
          exact Option.some.inj hside ▸ hmem
      · -- The row is cut off after `i - 1`, which is then the last message kept.
        have hmax := hlast i htool hi hprevSelected
        have hlatest : i - 1 ∈ recentOf msgs maxTokens (nonSystemsOf msgs selected) := by
          rcases hprev with hmem | ⟨-, j, y, hget, hget', -, hmem⟩
          · exact hmem
          · obtain ⟨hjlt, hj⟩ := List.getElem?_eq_some_iff.mp hget
            obtain ⟨hjlt', hj'⟩ := List.getElem?_eq_some_iff.mp hget'
            have hlt := List.pairwise_iff_getElem.mp hsorted j (j + 1) hjlt hjlt' (Nat.lt_succ_self j)
            have hle := hmax y (mem_of_mem_recentOf hmem)
            omega
        have hnone := hcut.last (i - 1) hlatest fun x hx => hmax x (mem_of_mem_recentOf hx)
        rw [Nat.sub_add_cancel hpos, htool] at hnone
        exact Bool.noConfusion hnone
    · intro hmem
      have hi := (mem_nonSystemsOf.mp (mem_of_mem_recentOf hmem)).1
      by_cases hprev : i - 1 ∈ selected
      · by_cases hrecent : i - 1 ∈ recentOf msgs maxTokens (nonSystemsOf msgs selected)
        · exact Or.inl hrecent
        · have hmin : ∀ x ∈ recentOf msgs maxTokens (nonSystemsOf msgs selected), i ≤ x := by
            intro x hx
            by_contra hlt
            exact hrecent (hupward hx (by omega) (mem_nonSystemsOf.mpr ⟨hprev, hsystem⟩))
          have hassistant := hbefore.resolve_right (by
            rw [hcut.first i hmem hmin htool]
            exact Bool.false_ne_true)
          obtain ⟨j, hjlt, hj⟩ := List.getElem_of_mem hprev
          have hget : selected[j]? = some (i - 1) := List.getElem?_eq_some_iff.mpr ⟨hjlt, hj⟩
          have hside := getElem?_succ_of_mem hsorted hget (by rwa [Nat.sub_add_cancel hpos])
          rw [Nat.sub_add_cancel hpos] at hside
          exact Or.inr ⟨hassistant, j, i, hget, hside, htool, hmem⟩
      · -- The row is cut off before `i`, which is then the first message kept.
        obtain ⟨htool', hmin⟩ := hfirst i hi htool hprev
        have hnone := hcut.first i hmem (fun x hx => hmin x (mem_of_mem_recentOf hx)) htool
        rw [htool'] at hnone
        exact Bool.noConfusion hnone

end Selection

/-! ## The first cut -/

section FirstCut

variable (q : Qsort)

/-- The walk over the tool messages starts at the last one. -/
theorem mem_walked_of_tool_le {i j : Nat} (hi : i ∈ walked q msgs keepCount)
    (hitool : isToolRole msgs i = true) (hjtool : isToolRole msgs j = true) (hij : i ≤ j) :
    j ∈ walked q msgs keepCount := by
  rcases Nat.lt_or_eq_of_le hij with hlt | rfl
  · have hj : j ∈ priorityOrder q msgs keepCount := (priorityOrder_perm q msgs keepCount).symm.subset
      (List.mem_range.mpr (lt_length_of_hasRole hjtool))
    refine Budget.mem_prefix (Budget.reach_prefix _ _ _) (priorityOrder_pairwise q msgs keepCount) hi
      hj ?_
    rw [← positionClass_eq_one_iff] at hitool hjtool
    omega
  · exact hi

/-- A tool message is flagged with everything before it that is no system message. -/
theorem mem_passed_of_lt {i j : Nat} (hi : i ∈ passed q msgs keepCount)
    (hsystem : isSystem msgs i = false) (hjtool : isToolRole msgs j = true) (hij : i < j) :
    j ∈ passed q msgs keepCount := by
  rw [mem_passed] at hi ⊢
  refine Or.inl ?_
  rcases hi with hi | ⟨hi, hcalls⟩
  · cases htool : isToolRole msgs i with
    | true => exact mem_walked_of_tool_le q hi htool hjtool (Nat.le_of_lt hij)
    | false =>
      have hother := mem_others.mpr ⟨lt_length_of_mem_walked q hi, hsystem, htool⟩
      exact mem_walked_of_other q hi hother hjtool
  · rw [callsNext, Bool.and_eq_true] at hcalls
    exact mem_walked_of_tool_le q hi hcalls.2 hjtool hij

/-- What stands before a selected position and is flagged is selected. -/
theorem mem_take_flagged_of_lt {kept : Finset Nat} {i j : Nat}
    (hj : j ∈ (flagged msgs kept).take keepCount) (hi : i ∈ flagged msgs kept) (hij : i < j) :
    i ∈ (flagged msgs kept).take keepCount :=
  Budget.mem_prefix (List.take_prefix _ _)
    (List.pairwise_lt_range.sublist (flagged_sublist msgs kept)) hj hi (Nat.lt_asymm hij)

/-- A selected tool message without the message in front of it is the first of its selection. -/
theorem first_of_smartSelected (h : Paired msgs) {i : Nat} (hi : i ∈ smartSelected q msgs keepCount)
    (htool : isToolRole msgs i = true) (hprev : i - 1 ∉ smartSelected q msgs keepCount) :
    isToolRole msgs (i - 1) = true ∧
      ∀ x ∈ nonSystemsOf msgs (smartSelected q msgs keepCount), i ≤ x := by
  obtain ⟨hpos, hbefore⟩ := h.before htool
  have hbound := lt_length_of_hasRole htool
  by_cases hle : msgs.length ≤ keepCount
  · rw [smartSelected, if_pos hle, List.mem_range] at hprev
    omega
  · rw [smartSelected_of_lt q (Nat.not_le.mp hle)] at hi hprev ⊢
    have hpassed : i ∈ passed q msgs keepCount := (mem_flagged.mp (List.mem_of_mem_take hi)).2
    have hnot : i - 1 ∉ passed q msgs keepCount := by
      intro hmem
      exact hprev (mem_take_flagged_of_lt hi (mem_flagged.mpr ⟨by omega, hmem⟩) (by omega))
    have htool' : isToolRole msgs (i - 1) = true := by
      refine hbefore.resolve_left fun hassistant => hnot ?_
      exact (unorphaned_passed q).caller i hpassed (followsAssistant_iff.mpr ⟨htool, hpos, hassistant⟩)
    refine ⟨htool', fun x hx => ?_⟩
    obtain ⟨hxmem, hxsystem⟩ := mem_nonSystemsOf.mp hx
    have hxpassed := (mem_flagged.mp (List.mem_of_mem_take hxmem)).2
    by_contra hlt
    by_cases heq : x = i - 1
    · exact hprev (heq ▸ hxmem)
    · exact hnot (mem_passed_of_lt q hxpassed hxsystem htool' (by omega))

/-- A selected message without the tool message after it is the last of its selection. -/
theorem last_of_smartSelected (h : Paired msgs) {i : Nat} (htool : isToolRole msgs i = true)
    (hi : i ∉ smartSelected q msgs keepCount) (hprev : i - 1 ∈ smartSelected q msgs keepCount) :
    ∀ x ∈ nonSystemsOf msgs (smartSelected q msgs keepCount), x ≤ i - 1 := by
  have hpos := (h.before htool).1
  have hbound := lt_length_of_hasRole htool
  by_cases hle : msgs.length ≤ keepCount
  · rw [smartSelected, if_pos hle, List.mem_range] at hi
    exact absurd hbound hi
  · rw [smartSelected_of_lt q (Nat.not_le.mp hle)] at hi hprev ⊢
    intro x hx
    have hxmem := (mem_nonSystemsOf.mp hx).1
    have hpassed : i ∈ passed q msgs keepCount :=
      mem_passed_of_lt q (mem_flagged.mp (List.mem_of_mem_take hprev)).2
        (h.not_isSystem_before htool) htool (by omega)
    by_contra hlt
    by_cases heq : x = i
    · exact hi (heq ▸ hxmem)
    · exact hi (mem_take_flagged_of_lt hxmem (mem_flagged.mpr ⟨hbound, hpassed⟩) (by omega))

/-! ## What the first cut leaves -/

/-- The positions that the walk reaches after the system messages. -/
def reached (msgs : List Message) (keepCount : Nat) : List Nat :=
  Budget.reach (positionWeight msgs) (keepCount - (systems msgs).length)
    ((tools msgs).reverse ++ (others msgs).reverse)

/-- The positions that the walk reaches after the system messages and those that these bring along, in
the order of the list. -/
def found (msgs : List Message) (keepCount : Nat) : List Nat :=
  (nonSystems msgs).filter fun i => BroughtBy msgs (reached msgs keepCount) i

/-- What a budget of messages leaves of a list, its system messages apart.  A tool message that counts
twice may exceed the budget by one; then the last message is left out, unless it is a system
message. -/
def candidates (msgs : List Message) (keepCount : Nat) : List Nat :=
  if msgs.length ≤ keepCount then nonSystems msgs
  else if (systems msgs).length + (found msgs keepCount).length ≤ keepCount ∨
      ∃ s ∈ systems msgs, ∀ i ∈ found msgs keepCount, i < s then found msgs keepCount
  else (found msgs keepCount).dropLast

variable (msgs keepCount) in
theorem walked_eq_append_reached : ∃ sys, (∀ i ∈ sys, isSystem msgs i = true) ∧
    walked q msgs keepCount = sys ++ reached msgs keepCount := by
  by_cases hlt : (systems msgs).length < keepCount
  · obtain ⟨sys, hsys, hwalked⟩ := walked_of_systems_lt q hlt
    exact ⟨sys, fun i hi => mem_systems.mp (hsys.subset hi), hwalked⟩
  · obtain ⟨sys, hsys, horder⟩ := priorityOrder_eq q msgs keepCount
    have hone : ∀ i ∈ sys, positionWeight msgs i = 1 := fun i hi =>
      positionWeight_eq_one (not_isToolRole_of_isSystem (mem_systems.mp (hsys.subset hi)))
    refine ⟨Budget.reach (positionWeight msgs) keepCount sys, fun i hi => ?_, ?_⟩
    · exact mem_systems.mp (hsys.subset ((Budget.reach_prefix _ _ _).subset hi))
    · rw [walked, horder, reached, Nat.sub_eq_zero_of_le (Nat.not_lt.mp hlt), Budget.reach_zero,
        List.append_nil]
      refine Budget.reach_append_of_ge ?_
      rw [Budget.weight_eq_length hone, hsys.length_eq]
      exact Nat.not_lt.mp hlt

theorem mem_passed_iff_reached {x : Nat} (hx : isSystem msgs x = false) :
    x ∈ passed q msgs keepCount ↔ BroughtBy msgs (reached msgs keepCount) x := by
  obtain ⟨sys, hsys, hwalked⟩ := walked_eq_append_reached msgs keepCount q
  have hself : x ∉ sys := fun hmem => by
    rw [hsys x hmem] at hx
    exact Bool.noConfusion hx
  have hnext : callsNext msgs x = true → x + 1 ∉ sys := by
    intro hcalls hmem
    rw [callsNext, Bool.and_eq_true] at hcalls
    have hsystem := not_isSystem_of_isToolRole hcalls.2
    rw [hsys _ hmem] at hsystem
    exact Bool.noConfusion hsystem
  rw [mem_passed, hwalked, BroughtBy, BroughtBy, List.mem_append, List.mem_append]
  tauto

variable (msgs keepCount) in
theorem nonSystemsOf_flagged :
    nonSystemsOf msgs (flagged msgs (passed q msgs keepCount)) = found msgs keepCount := by
  rw [nonSystemsOf, flagged, found, nonSystems, List.filter_filter, List.filter_filter]
  refine List.filter_congr fun x _ => ?_
  cases hx : isSystem msgs x with
  | true => rw [Bool.not_true, Bool.false_and, Bool.and_false]
  | false =>
    rw [Bool.not_false, Bool.true_and, Bool.and_true, decide_eq_decide]
    exact mem_passed_iff_reached q hx

variable (msgs keepCount) in
theorem length_flagged_passed_le :
    (flagged msgs (passed q msgs keepCount)).length ≤ keepCount + 1 := by
  have hset : passed q msgs keepCount = (broughtList msgs (walked q msgs keepCount)).toFinset := by
    ext x
    rw [mem_passed, List.mem_toFinset, mem_broughtList]
  have hcard := List.toFinset_card_le (broughtList msgs (walked q msgs keepCount))
  rw [length_broughtList] at hcard
  rw [card_passed, hset]
  exact hcard.trans (Budget.weight_reach_le positionWeight_le _ _)

theorem length_flagged_passed_eq (h : (systems msgs).length < keepCount) :
    (flagged msgs (passed q msgs keepCount)).length =
      (systems msgs).length + (found msgs keepCount).length := by
  have hsystems : (flagged msgs (passed q msgs keepCount)).filter (isSystem msgs) = systems msgs := by
    rw [flagged, systems, List.filter_filter]
    refine List.filter_congr fun x _ => ?_
    cases hx : isSystem msgs x with
    | true =>
      rw [Bool.true_and, decide_eq_true_iff, mem_passed]
      exact Or.inl (mem_walked_of_isSystem q h hx)
    | false => rw [Bool.false_and]
  have hsplit := List.length_eq_length_filter_add (l := flagged msgs (passed q msgs keepCount))
    (isSystem msgs)
  rw [hsystems] at hsplit
  rw [hsplit, ← nonSystemsOf_flagged msgs keepCount q, nonSystemsOf]

/-- Without the last flagged position one message less is left, unless that is a system message. -/
theorem nonSystemsOf_dropLast (hlt : (systems msgs).length < keepCount)
    (hpos : 0 < (flagged msgs (passed q msgs keepCount)).length) :
    nonSystemsOf msgs (flagged msgs (passed q msgs keepCount)).dropLast =
      if ∃ s ∈ systems msgs, ∀ i ∈ found msgs keepCount, i < s then found msgs keepCount
      else (found msgs keepCount).dropLast := by
  have hfound := nonSystemsOf_flagged msgs keepCount q
  have hsorted : (flagged msgs (passed q msgs keepCount)).Pairwise (· < ·) :=
    List.pairwise_lt_range.sublist (flagged_sublist msgs _)
  have hsystems : ∀ s ∈ systems msgs, s ∈ flagged msgs (passed q msgs keepCount) := fun s hs =>
    mem_flagged.mpr ⟨lt_length_of_hasRole (mem_systems.mp hs),
      (mem_passed q).mpr (Or.inl (mem_walked_of_isSystem q hlt (mem_systems.mp hs)))⟩
  obtain ⟨front, a, hfront⟩ : ∃ front a, flagged msgs (passed q msgs keepCount) = front ++ [a] := by
    refine ⟨_, _, (List.dropLast_append_getLast ?_).symm⟩
    exact List.ne_nil_of_length_pos hpos
  rw [hfront] at hfound hsorted hsystems ⊢
  have hbelow : ∀ i ∈ front, i < a := fun i hi =>
    (List.pairwise_append.mp hsorted).2.2 i hi a (List.mem_singleton_self a)
  rw [nonSystemsOf, List.filter_append] at hfound
  rw [List.dropLast_concat, nonSystemsOf]
  cases ha : isSystem msgs a with
  | true =>
    rw [List.filter_cons_of_neg (by simp [ha]), List.filter_nil, List.append_nil] at hfound
    have hafter : ∀ i ∈ found msgs keepCount, i < a := fun i hi =>
      hbelow i (List.mem_filter.mp (hfound.symm ▸ hi)).1
    rw [if_pos ⟨a, mem_systems.mpr ha, hafter⟩, hfound]
  | false =>
    rw [List.filter_cons_of_pos (by simp [ha]), List.filter_nil] at hfound
    rw [if_neg, ← hfound, List.dropLast_concat]
    rintro ⟨s, hs, hafter⟩
    have has : a < s := hafter a (hfound ▸ List.mem_append_right _ (List.mem_singleton_self a))
    rcases List.mem_append.mp (hsystems s hs) with hmem | hmem
    · exact absurd (hbelow s hmem) (Nat.lt_asymm has)
    · rw [List.mem_singleton.mp hmem] at has
      exact absurd has (Nat.lt_irrefl a)

/-- **What the first cut leaves**, its system messages apart. -/
theorem nonSystemsOf_smartSelected :
    nonSystemsOf msgs (smartSelected q msgs keepCount) = candidates msgs keepCount := by
  rw [candidates]
  split
  · next hle => rw [smartSelected, if_pos hle, nonSystemsOf, nonSystems]
  · next hle =>
    rw [smartSelected_of_lt q (Nat.not_le.mp hle)]
    by_cases hlt : (systems msgs).length < keepCount
    · have hlength := length_flagged_passed_eq q hlt
      have hover := length_flagged_passed_le msgs keepCount q
      rw [← hlength]
      by_cases hfit : (flagged msgs (passed q msgs keepCount)).length ≤ keepCount
      · rw [if_pos (Or.inl hfit), List.take_of_length_le hfit, nonSystemsOf_flagged]
      · have hdrop : (flagged msgs (passed q msgs keepCount)).take keepCount =
            (flagged msgs (passed q msgs keepCount)).dropLast := by
          have hcount : keepCount = (flagged msgs (passed q msgs keepCount)).length - 1 := by omega
          rw [List.dropLast_eq_take, ← hcount]
        simp only [hdrop, hfit, false_or]
        exact nonSystemsOf_dropLast q hlt (by omega)
    · have hnone : found msgs keepCount = [] := by
        rw [found, List.filter_eq_nil_iff]
        intro x _
        rw [reached, Nat.sub_eq_zero_of_le (Nat.not_lt.mp hlt), Budget.reach_zero,
          decide_eq_true_iff, BroughtBy]
        simp
      have hsub : (nonSystemsOf msgs ((flagged msgs (passed q msgs keepCount)).take
          keepCount)).Sublist (found msgs keepCount) := by
        rw [← nonSystemsOf_flagged msgs keepCount q]
        exact (List.take_sublist _ _).filter _
      rw [hnone, List.sublist_nil] at hsub
      rw [hsub, hnone, List.dropLast_nil, ite_self]

end FirstCut

/-! ## The window -/

/-- The window keeps an assistant message exactly when it keeps the tool messages directly after it,
so its copy is paired again. -/
def WindowKeepsPairs (q : Qsort) (msgs : List Message) (maxMessages : Nat) (maxChars : Int) : Prop :=
  ∃ kept, applyContextWindow q msgs maxMessages maxChars = some (pick msgs kept) ∧
    windowKept q msgs maxMessages maxChars = some kept ∧ KeepsPairs msgs kept ∧
    Paired (pick msgs kept)

/-- When the window keeps rows whole: the list is within both budgets, or the first cut selects as
announced and the token cut through what it leaves falls between two rows. -/
def PairsFit (msgs : List Message) (maxMessages : Nat) (maxChars : Int) : Prop :=
  windowFits msgs maxMessages maxChars = true ∨
    (msgs.length ≤ maxMessages ∨ CountedOnce msgs maxMessages) ∧
      CutsBetweenPairs msgs (recentOf msgs (approxTokens maxChars) (candidates msgs maxMessages))

theorem windowKept_sublist {q : Qsort} {maxMessages : Nat} {maxChars : Int} {kept : List Nat}
    (h : windowKept q msgs maxMessages maxChars = some kept) :
    kept.Sublist (List.range msgs.length) := by
  unfold windowKept at h
  dsimp only at h
  split at h
  · rw [← Option.some.inj h]
  · split at h
    · exact absurd h (by simp)
    · have htrim := trimKept_sublist (pick msgs (smartSelected q msgs maxMessages))
        (approxTokens maxChars)
      rw [length_pick_smartSelected] at htrim
      rw [← Option.some.inj h]
      exact (pick_sublist htrim).trans (smartSelected_sublist q msgs maxMessages)

theorem Paired.windowKeepsPairs_iff_kept (h : Paired msgs) (q : Qsort) (maxMessages : Nat)
    (maxChars : Int) : WindowKeepsPairs q msgs maxMessages maxChars ↔
      ∃ kept, windowKept q msgs maxMessages maxChars = some kept ∧ KeepsPairs msgs kept := by
  constructor
  · rintro ⟨kept, -, hkept, hpairs, -⟩
    exact ⟨kept, hkept, hpairs⟩
  · rintro ⟨kept, hkept, hpairs⟩
    refine ⟨kept, ?_, hkept, hpairs, h.copied (windowKept_sublist hkept) hpairs⟩
    rw [applyContextWindow_eq, hkept, Option.map_some]

/-- **The window keeps calls and results together** exactly when they fit. -/
theorem windowKeepsPairs_iff (q : Qsort) (msgs : List Message) (h : Paired msgs) {maxMessages : Nat}
    (hpos : 1 ≤ maxMessages) (maxChars : Int) :
    WindowKeepsPairs q msgs maxMessages maxChars ↔ PairsFit msgs maxMessages maxChars := by
  rw [h.windowKeepsPairs_iff_kept, PairsFit]
  by_cases hfits : windowFits msgs maxMessages maxChars = true
  · refine iff_of_true ⟨List.range msgs.length, ?_, ?_⟩ (Or.inl hfits)
    · rw [windowKept, if_pos (Or.inl hfits)]
    · intro a i hassistant hafter
      have ha := lt_length_of_hasRole hassistant
      have hi := lt_length_of_hasRole hafter.tool
      rw [List.mem_range, List.mem_range]
      exact iff_of_true ha hi
  · have hsub := smartSelected_sublist q msgs maxMessages
    have hcut : KeepsPairs msgs (pick (smartSelected q msgs maxMessages)
        (trimKept (pick msgs (smartSelected q msgs maxMessages)) (approxTokens maxChars))) ↔ _ :=
      keepsPairs_pick_trimKept_iff h hsub (fun i => first_of_smartSelected q h)
        fun i => last_of_smartSelected q h
    rw [nonSystemsOf_smartSelected] at hcut
    rw [or_iff_right hfits, windowKept_of_not_windowFits q hpos hfits,
      ← length_smartSelected_eq_min_iff q, ← hcut]
    have hle := length_smartSelected_le q msgs maxMessages
    constructor
    · rintro ⟨kept, hkept, hpairs⟩
      split at hkept
      · exact absurd hkept (by simp)
      · next hexact =>
        rw [← Option.some.inj hkept] at hpairs
        exact ⟨by omega, hpairs⟩
    · rintro ⟨hexact, hpairs⟩
      rw [if_neg (by omega)]
      exact ⟨_, rfl, hpairs⟩

/-! ## An example -/

/-- An assistant message with calls. -/
def callingMessage (ids : List String) : Message :=
  { role := some "assistant", content := some "text",
    toolCalls := ids.map fun id => { id := some id, name := some "shell" } }

/-- The answer to a call. -/
def answerMessage (id : String) : Message :=
  { role := some "tool", content := some "text", toolCallId := some id }

/-- A question and a call with its answer. -/
def answeredQuestion : List Message :=
  [roleMessage "user", callingMessage ["a"], answerMessage "a"]

/-- Two calls in one message, with their answers. -/
def answeredTwice : List Message :=
  [callingMessage ["a", "b"], answerMessage "a", answerMessage "b"]

theorem paired_answeredQuestion : Paired answeredQuestion := by
  refine ⟨fun i hi => ?_, fun a ha id hid => ?_⟩
  · have hlt := lt_length_of_hasRole hi
    match i, hlt with
    | 0, _ => exact absurd hi (by decide)
    | 1, _ => exact absurd hi (by decide)
    | 2, _ => exact ⟨1, by decide, directlyAfter_self hi, "a", by decide, by decide⟩
  · have hlt := lt_length_of_hasRole ha
    match a, hlt with
    | 0, _ => exact absurd ha (by decide)
    | 1, _ =>
      obtain rfl : id = "a" := List.mem_singleton.mp hid
      exact ⟨2, directlyAfter_self (by decide), by decide⟩
    | 2, _ => exact absurd ha (by decide)

theorem paired_answeredTwice : Paired answeredTwice := by
  refine ⟨fun i hi => ?_, fun a ha id hid => ?_⟩
  · have hlt := lt_length_of_hasRole hi
    match i, hlt with
    | 0, _ => exact absurd hi (by decide)
    | 1, _ => exact ⟨0, by decide, directlyAfter_self hi, "a", by decide, by decide⟩
    | 2, _ =>
      exact ⟨0, by decide, (directlyAfter_self (by decide)).succ hi, "b", by decide, by decide⟩
  · have hlt := lt_length_of_hasRole ha
    match a, hlt with
    | 0, _ =>
      rcases List.mem_cons.mp hid with rfl | hid
      · exact ⟨1, directlyAfter_self (by decide), by decide⟩
      · obtain rfl : id = "b" := List.mem_singleton.mp hid
        exact ⟨2, (directlyAfter_self (by decide)).succ (by decide), by decide⟩
    | 1, _ => exact absurd ha (by decide)
    | 2, _ => exact absurd ha (by decide)

/-- A budget of eight characters drops the question and keeps the call with its answer. -/
theorem windowKeepsPairs_answeredQuestion :
    WindowKeepsPairs insertionQsort answeredQuestion 3 8 :=
  (windowKeepsPairs_iff insertionQsort answeredQuestion paired_answeredQuestion (by decide) 8).mpr
    (Or.inr ⟨Or.inl (by decide), ⟨by decide +kernel, by decide +kernel⟩⟩)

/-- The same budget keeps the second answer of two and drops the calls. -/
theorem not_windowKeepsPairs_answeredTwice :
    ¬ ∀ (q : Qsort) (msgs : List Message) (maxMessages : Nat) (maxChars : Int), Paired msgs →
        1 ≤ maxMessages → 0 ≤ maxChars → WindowKeepsPairs q msgs maxMessages maxChars := by
  intro h
  obtain ⟨kept, -, hkept, hpairs, -⟩ :=
    h insertionQsort answeredTwice 3 8 paired_answeredTwice (by decide) (by decide)
  have honly : windowKept insertionQsort answeredTwice 3 8 = some [2] := by decide +kernel
  obtain rfl : [2] = kept := Option.some.inj (honly.symm.trans hkept)
  have hrow : DirectlyAfter answeredTwice 0 2 := (directlyAfter_self (by decide)).succ (by decide)
  exact absurd ((hpairs 0 2 (by decide) hrow).mpr (List.mem_singleton_self 2)) (by decide)

end EchoAi
