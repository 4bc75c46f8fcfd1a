import Mathlib.Algebra.BigOperators.Group.List.Lemmas
import Mathlib.Algebra.GroupWithZero.Nat
import Mathlib.Data.List.Induction
import Mathlib.Data.List.Nodup

/-!
# Tallies

Distinct labels are counted among items; the labels grow as new ones are met.

* `tally`: how often each label occurs.
* `tally_concat`: an item more is counted at its label.
* `tally_of_notMem`, `tally_concat_label`: labels that are not among the items.
* `sum_tally`: all items are counted once.
-/

namespace EchoAi

variable {α : Type*} [DecidableEq α] {labels items : List α} {a : α}

/-- How often each label occurs among the items. -/
def tally (labels items : List α) : List Nat := labels.map fun label => items.count label

theorem length_tally (labels items : List α) : (tally labels items).length = labels.length :=
  List.length_map _

theorem tally_append (labels labels' items : List α) :
    tally (labels ++ labels') items = tally labels items ++ tally labels' items :=
  List.map_append

/-- Labels that no item has. -/
theorem tally_of_notMem (h : ∀ label ∈ labels, label ∉ items) :
    tally labels items = List.replicate labels.length 0 := by
  refine List.eq_replicate_iff.mpr ⟨length_tally labels items, fun n hn => ?_⟩
  obtain ⟨label, hlabel, rfl⟩ := List.mem_map.mp hn
  exact List.count_eq_zero_of_not_mem (h label hlabel)

theorem tally_nil (labels : List α) : tally labels [] = List.replicate labels.length 0 :=
  tally_of_notMem fun _ _ => List.not_mem_nil

/-- An item more is counted at its label, and only there. -/
theorem tally_concat {i : Nat} (hnodup : labels.Nodup) (hi : labels[i]? = some a) :
    tally labels (items ++ [a]) = (tally labels items).modify i (· + 1) := by
  refine List.ext_getElem? fun j => ?_
  obtain ⟨hlt, hai⟩ := List.getElem?_eq_some_iff.mp hi
  rw [List.getElem?_modify, tally, tally, List.getElem?_map, List.getElem?_map]
  cases hj : labels[j]? with
  | none => rfl
  | some b =>
    obtain ⟨hjlt, hbj⟩ := List.getElem?_eq_some_iff.mp hj
    rw [Option.map_some, Option.map_some, Option.map_eq_map, Option.map_some, List.count_append]
    by_cases hij : i = j
    · have hba : b = a := by rw [← hbj, ← hai]; exact (getElem_congr_idx hij).symm
      rw [if_pos hij, hba, List.count_singleton_self]
    · have hba : a ≠ b := by
        rw [← hbj, ← hai]
        exact fun heq => hij ((List.Nodup.getElem_inj_iff hnodup).mp heq)
      have hzero : [a].count b = 0 :=
        List.count_eq_zero_of_not_mem fun h => hba (List.mem_singleton.mp h).symm
      rw [if_neg hij, hzero, Nat.add_zero]

/-- A label that no item has. -/
theorem tally_concat_label (ha : a ∉ items) :
    tally (labels ++ [a]) items = tally labels items ++ [0] := by
  rw [tally_append, tally, tally, List.map_singleton, List.count_eq_zero_of_not_mem ha]

/-- Every item is counted at one label. -/
theorem sum_tally (hnodup : labels.Nodup) (hitems : ∀ x ∈ items, x ∈ labels) :
    (tally labels items).sum = items.length := by
  induction items with
  | nil => rw [tally_nil, List.sum_replicate_nat, Nat.mul_zero, List.length_nil]
  | cons x items ih =>
    obtain ⟨hx, hrest⟩ := List.forall_mem_cons.mp hitems
    have hone : (labels.map fun label => if x == label then 1 else 0).sum = 1 := by
      rw [List.sum_map_eq_nsmul_single x _ fun label hne _ => if_neg (by simpa using hne.symm),
        List.count_eq_one_of_mem hnodup hx, one_nsmul, beq_self_eq_true, if_pos rfl]
    rw [tally]
    simp only [List.count_cons]
    rw [List.sum_map_add, hone, List.length_cons, ← ih hrest, tally]

end EchoAi
