import Mathlib.Algebra.BigOperators.Group.List.Basic
import Mathlib.Algebra.GroupWithZero.Nat
import Mathlib.Data.List.Sort

/-!
# Taking items up to a budget

A list of weighted items is walked from its front until a budget is reached or would be exceeded.

* `weight`: the weight of a list.
* `reach`: the shortest prefix whose weight reaches the budget; the last item may exceed it.
* `fitting`: the longest prefix within the budget; the walk stops at the first item that does not fit.
* `reach_append_of_le`, `reach_append_of_ge`: walks over a list in two parts.
* `weight_reach_eq_iff`: the budget is met exactly when some prefix has exactly its weight.
* `eq_filter_append_filter`: a list ordered by classes is the concatenation of its classes.
-/

namespace Budget

variable {α : Type} {w : α → Nat}

/-- The weight of a list. -/
def weight (w : α → Nat) (l : List α) : Nat := (l.map w).sum

@[simp] theorem weight_nil : weight w [] = 0 := rfl

@[simp] theorem weight_cons (a : α) (l : List α) : weight w (a :: l) = w a + weight w l := by
  rw [weight, List.map_cons, List.sum_cons, weight]

@[simp] theorem weight_append (l l' : List α) :
    weight w (l ++ l') = weight w l + weight w l' := by
  rw [weight, List.map_append, List.sum_append, weight, weight]

theorem weight_perm {l l' : List α} (h : l.Perm l') : weight w l = weight w l' :=
  (h.map w).sum_eq

theorem weight_eq_length {l : List α} (h : ∀ a ∈ l, w a = 1) : weight w l = l.length := by
  induction l with
  | nil => rfl
  | cons a l ih =>
    rw [weight_cons, h a List.mem_cons_self, ih fun b hb => h b (List.mem_cons_of_mem a hb),
      List.length_cons, Nat.add_comm]

/-! ## Reaching a budget -/

/-- The shortest prefix whose weight reaches the budget, or the whole list. -/
def reach (w : α → Nat) : Nat → List α → List α
  | _, [] => []
  | 0, _ :: _ => []
  | n + 1, a :: as => a :: reach w (n + 1 - w a) as

@[simp] theorem reach_zero (l : List α) : reach w 0 l = [] := by
  cases l <;> rfl

theorem reach_cons_of_pos {n : Nat} (hn : 0 < n) (a : α) (l : List α) :
    reach w n (a :: l) = a :: reach w (n - w a) l := by
  cases n with
  | zero => exact absurd hn (Nat.lt_irrefl 0)
  | succ n => rfl

theorem reach_prefix (w : α → Nat) (n : Nat) (l : List α) : reach w n l <+: l := by
  induction l generalizing n with
  | nil => exact List.prefix_refl _
  | cons a l ih =>
    cases n with
    | zero => exact List.nil_prefix
    | succ n => exact List.cons_prefix_cons.mpr ⟨rfl, ih _⟩

theorem le_weight_reach {n : Nat} {l : List α} (h : n ≤ weight w l) :
    n ≤ weight w (reach w n l) := by
  induction l generalizing n with
  | nil => exact h
  | cons a l ih =>
    cases n with
    | zero => exact Nat.zero_le _
    | succ n =>
      rw [weight_cons] at h
      have hrest := ih (show n + 1 - w a ≤ weight w l by omega)
      rw [reach, weight_cons]
      omega

/-- The last item exceeds the budget by less than its weight. -/
theorem weight_reach_le {c : Nat} (hc : ∀ a, w a ≤ c + 1) (n : Nat) (l : List α) :
    weight w (reach w n l) ≤ n + c := by
  induction l generalizing n with
  | nil => exact Nat.zero_le _
  | cons a l ih =>
    cases n with
    | zero => exact Nat.zero_le _
    | succ n =>
      have ha := hc a
      have hrest := ih (n + 1 - w a)
      rw [reach, weight_cons]
      by_cases hle : w a ≤ n + 1
      · omega
      · have hzero : n + 1 - w a = 0 := by omega
        rw [hzero, reach_zero, weight_nil]
        omega

/-- A first part within the budget is taken whole. -/
theorem reach_append_of_le {n : Nat} {l l' : List α} (hpos : ∀ a ∈ l, 0 < w a)
    (h : weight w l ≤ n) : reach w n (l ++ l') = l ++ reach w (n - weight w l) l' := by
  induction l generalizing n with
  | nil => rfl
  | cons a l ih =>
    rw [weight_cons] at h
    have ha : 0 < w a := hpos a List.mem_cons_self
    rw [List.cons_append, reach_cons_of_pos (by omega),
      ih (fun b hb => hpos b (List.mem_cons_of_mem a hb)) (by omega), weight_cons, Nat.sub_sub,
      List.cons_append]

/-- A first part that reaches the budget leaves nothing for the second. -/
theorem reach_append_of_ge {n : Nat} {l l' : List α} (h : n ≤ weight w l) :
    reach w n (l ++ l') = reach w n l := by
  induction l generalizing n with
  | nil =>
    rw [Nat.le_zero.mp h, reach_zero, reach_zero]
  | cons a l ih =>
    cases n with
    | zero => rw [reach_zero, reach_zero]
    | succ n =>
      rw [weight_cons] at h
      rw [List.cons_append, reach, reach, ih (by omega)]

/-- With items of weight one the walk counts. -/
theorem reach_eq_take {n : Nat} {l : List α} (h : ∀ a ∈ l, w a = 1) :
    reach w n l = l.take n := by
  induction l generalizing n with
  | nil => rw [List.take_nil, reach]
  | cons a l ih =>
    cases n with
    | zero => rfl
    | succ n =>
      rw [reach, List.take_succ_cons, h a List.mem_cons_self, Nat.add_sub_cancel,
        ih fun b hb => h b (List.mem_cons_of_mem a hb)]

/-- **The budget is met exactly** when some prefix has exactly its weight. -/
theorem weight_reach_eq_iff {n : Nat} {l : List α} (hpos : ∀ a ∈ l, 0 < w a) :
    weight w (reach w n l) = n ↔ ∃ k, weight w (l.take k) = n := by
  constructor
  · intro h
    obtain ⟨l', hl'⟩ := reach_prefix w n l
    refine ⟨(reach w n l).length, ?_⟩
    nth_rewrite 2 [← hl']
    rw [List.take_left]
    exact h
  · rintro ⟨k, rfl⟩
    have htake : reach w (weight w (l.take k)) (l.take k ++ l.drop k) = l.take k := by
      rw [reach_append_of_le (fun a ha => hpos a (List.mem_of_mem_take ha)) (Nat.le_refl _),
        Nat.sub_self, reach_zero, List.append_nil]
    rw [List.take_append_drop] at htake
    rw [htake]

/-! ## Staying within a budget -/

/-- The longest prefix within the budget. -/
def fitting (w : α → Nat) : Nat → List α → List α
  | _, [] => []
  | n, a :: as => if w a ≤ n then a :: fitting w (n - w a) as else []

theorem fitting_prefix (w : α → Nat) (n : Nat) (l : List α) : fitting w n l <+: l := by
  induction l generalizing n with
  | nil => exact List.prefix_refl _
  | cons a l ih =>
    rw [fitting]
    split
    · exact List.cons_prefix_cons.mpr ⟨rfl, ih _⟩
    · exact List.nil_prefix

/-- A list within the budget is taken whole. -/
theorem fitting_of_le {n : Nat} {l : List α} (h : weight w l ≤ n) : fitting w n l = l := by
  induction l generalizing n with
  | nil => rfl
  | cons a l ih =>
    rw [weight_cons] at h
    rw [fitting, if_pos (by omega), ih (by omega)]

theorem fitting_congr {w' : α → Nat} {l : List α} (h : ∀ a ∈ l, w a = w' a) (n : Nat) :
    fitting w n l = fitting w' n l := by
  induction l generalizing n with
  | nil => rfl
  | cons a l ih =>
    rw [fitting, fitting, h a List.mem_cons_self, ih fun b hb => h b (List.mem_cons_of_mem a hb)]

theorem fitting_map {β : Type} (f : β → α) (n : Nat) (l : List β) :
    fitting w n (l.map f) = (fitting (fun b => w (f b)) n l).map f := by
  induction l generalizing n with
  | nil => rfl
  | cons b l ih =>
    rw [List.map_cons, fitting, fitting]
    split
    · rw [List.map_cons, ih]
    · rfl

/-! ## Lists ordered by classes -/

/-- What comes no later than an item of a prefix is in the prefix. -/
theorem mem_prefix {r : α → α → Prop} {l l' : List α} (hinitial : l' <+: l) (hl : l.Pairwise r)
    {a b : α} (ha : a ∈ l') (hb : b ∈ l) (hab : ¬ r a b) : b ∈ l' := by
  obtain ⟨rest, rfl⟩ := hinitial
  rcases List.mem_append.mp hb with hb | hb
  · exact hb
  · exact absurd ((List.pairwise_append.mp hl).2.2 a ha b hb) hab


/-- A list in which no item of the class comes after one outside it. -/
theorem eq_filter_append_filter {p : α → Bool} {l : List α}
    (h : l.Pairwise fun a b => p b = true → p a = true) :
    l = l.filter p ++ l.filter fun a => !p a := by
  induction l with
  | nil => rfl
  | cons a l ih =>
    rw [List.pairwise_cons] at h
    cases hp : p a with
    | true =>
      rw [List.filter_cons_of_pos hp, List.filter_cons_of_neg (by simp [hp]), List.cons_append]
      exact congrArg (a :: ·) (ih h.2)
    | false =>
      have hnone : l.filter p = [] := by
        rw [List.filter_eq_nil_iff]
        intro b hb hpb
        rw [h.1 b hb hpb] at hp
        exact Bool.noConfusion hp
      have hall : l.filter (fun a => !p a) = l := by
        rw [List.filter_eq_self]
        intro b hb
        rw [List.filter_eq_nil_iff] at hnone
        rw [Bool.eq_false_iff.mpr (hnone b hb)]
        rfl
      rw [List.filter_cons_of_neg (by simp [hp]), List.filter_cons_of_pos (by simp [hp]), hnone,
        hall, List.nil_append]

end Budget
