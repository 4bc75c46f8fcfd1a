import Mathlib.Data.List.Basic
import Mathlib.Tactic.Common

/-!
# Places in a list

A loop from the back finds the last entry of a kind, and one entry of a list is changed in place.

* `lastIndex`: the last place of a kind, with `lastIndex_eq_some_iff` and `lastIndex_eq_none_iff`.
* `map_modify`, `forall_mem_modify`: a change at a place, seen through a function and a property.
* `modify_congr_iff`: changes at one place that come to the same.
* `modify_eq_modify_iff`: changes at two places that come to the same change nothing.
-/

namespace EchoAi

variable {α β : Type*}

/-- The last place before the `n`-th whose entry satisfies `p`, as a loop from the back finds it. -/
def lastIndex (p : α → Bool) (xs : List α) : (n : Nat) → Option Nat
  | 0 => none
  | n + 1 => if (xs[n]?).any p then some n else lastIndex p xs n

variable {p q : α → Bool} {f g : α → α} {xs : List α} {i j n : Nat}

theorem lastIndex_eq_some_iff :
    lastIndex p xs n = some i ↔
      i < n ∧ (xs[i]?).any p = true ∧ ∀ k, i < k → k < n → (xs[k]?).any p = false := by
  induction n with
  | zero =>
    refine iff_of_false nofun fun h => ?_
    exact absurd h.1 (Nat.not_lt_zero i)
  | succ n ih =>
    rw [lastIndex]
    split
    · next hn =>
      constructor
      · intro h
        rw [← Option.some.inj h]
        exact ⟨Nat.lt_succ_self n, hn, fun k hk hkn => by omega⟩
      · rintro ⟨hi, -, hlast⟩
        rcases Nat.lt_or_ge i n with hin | hin
        · exact absurd (hlast n hin (Nat.lt_succ_self n)) (by rw [hn]; exact Bool.noConfusion)
        · exact congrArg some (by omega)
    · next hn =>
      rw [ih]
      constructor
      · rintro ⟨hi, hpi, hlast⟩
        refine ⟨by omega, hpi, fun k hk hkn => ?_⟩
        rcases Nat.lt_or_ge k n with hkn' | hkn'
        · exact hlast k hk hkn'
        · have hk : k = n := by omega
          rw [hk]
          exact Bool.eq_false_iff.2 hn
      · rintro ⟨hi, hpi, hlast⟩
        refine ⟨?_, hpi, fun k hk hkn => hlast k hk (by omega)⟩
        rcases Nat.lt_or_ge i n with hin | hin
        · exact hin
        · have hi : i = n := by omega
          exact absurd (hi ▸ hpi) hn

theorem lastIndex_eq_none_iff :
    lastIndex p xs n = none ↔ ∀ k < n, (xs[k]?).any p = false := by
  induction n with
  | zero => exact iff_of_true rfl nofun
  | succ n ih =>
    rw [lastIndex]
    split
    · next hn =>
      refine iff_of_false nofun fun h => ?_
      rw [h n (Nat.lt_succ_self n)] at hn
      exact Bool.noConfusion hn
    · next hn =>
      rw [ih]
      constructor
      · intro h k hk
        rcases Nat.lt_or_ge k n with hkn | hkn
        · exact h k hkn
        · have hk : k = n := by omega
          rw [hk]
          exact Bool.eq_false_iff.2 hn
      · exact fun h k hk => h k (by omega)

/-- A loop sees the entries through a function. -/
theorem lastIndex_map (h : β → α) (xs : List β) (n : Nat) :
    lastIndex p (xs.map h) n = lastIndex (fun x => p (h x)) xs n := by
  induction n with
  | zero => rfl
  | succ n ih =>
    rw [lastIndex, lastIndex, ih, List.getElem?_map, Option.any_map]

/-- A change that a function lets through. -/
theorem map_modify {view : α → β} {change : β → β} (h : ∀ x ∈ xs, view (f x) = change (view x))
    (i : Nat) : (xs.modify i f).map view = (xs.map view).modify i change := by
  induction xs generalizing i with
  | nil => rw [List.modify_nil, List.map_nil, List.modify_nil]
  | cons x xs ih =>
    cases i with
    | zero =>
      rw [List.modify_zero_cons, List.map_cons, List.map_cons, List.modify_zero_cons,
        h x List.mem_cons_self]
    | succ i =>
      rw [List.modify_succ_cons, List.map_cons, List.map_cons, List.modify_succ_cons,
        ih fun y hy => h y (List.mem_cons_of_mem x hy)]

theorem forall_mem_modify {P : α → Prop} (h : ∀ x ∈ xs, P x) (hf : ∀ x, P x → P (f x)) (i : Nat) :
    ∀ x ∈ xs.modify i f, P x := by
  induction xs generalizing i with
  | nil => rwa [List.modify_nil]
  | cons x xs ih =>
    rw [List.forall_mem_cons] at h
    cases i with
    | zero => exact List.forall_mem_cons.2 ⟨hf x h.1, h.2⟩
    | succ i => exact List.forall_mem_cons.2 ⟨h.1, ih h.2 i⟩

/-- A change in the first of two parts. -/
theorem modify_append_of_lt (h : i < xs.length) (ys : List α) (f : α → α) :
    (xs ++ ys).modify i f = xs.modify i f ++ ys := by
  induction xs generalizing i with
  | nil => exact absurd h (Nat.not_lt_zero i)
  | cons x xs ih =>
    cases i with
    | zero => rfl
    | succ i =>
      rw [List.cons_append, List.modify_succ_cons, List.modify_succ_cons,
        ih (Nat.lt_of_succ_lt_succ h), List.cons_append]

/-- A change to the last entry. -/
theorem modify_concat (xs : List α) (x : α) (f : α → α) :
    (xs ++ [x]).modify xs.length f = xs ++ [f x] := by
  induction xs with
  | nil => rfl
  | cons y xs ih => rw [List.cons_append, List.length_cons, List.modify_succ_cons, ih,
      List.cons_append]

/-- Two changes at one place. -/
theorem modify_congr_iff {x : α} (hx : xs[i]? = some x) :
    xs.modify i f = xs.modify i g ↔ f x = g x := by
  constructor
  · intro h
    have hi := congrArg (fun ys => ys[i]?) h
    simp only [List.getElem?_modify_eq, hx] at hi
    exact Option.some.inj hi
  · intro h
    refine List.ext_getElem? fun k => ?_
    by_cases hk : i = k
    · rw [← hk, List.getElem?_modify_eq, List.getElem?_modify_eq, hx]
      exact congrArg some h
    · rw [List.getElem?_modify_ne f xs hk, List.getElem?_modify_ne g xs hk]

theorem modify_eq_self_iff {x : α} (hx : xs[i]? = some x) : xs.modify i f = xs ↔ f x = x := by
  have h := @modify_congr_iff α f id xs i x hx
  rwa [List.modify_id] at h

/-- Changes at two places that come to the same change nothing. -/
theorem modify_eq_modify_iff {x y : α} (hij : i ≠ j) (hx : xs[i]? = some x) (hy : xs[j]? = some y) :
    xs.modify i f = xs.modify j g ↔ f x = x ∧ g y = y := by
  constructor
  · intro h
    have hi := congrArg (fun ys => ys[i]?) h
    have hj := congrArg (fun ys => ys[j]?) h
    simp only [List.getElem?_modify_eq, List.getElem?_modify_ne f xs hij,
      List.getElem?_modify_ne g xs hij.symm, hx, hy] at hi hj
    exact ⟨Option.some.inj hi, (Option.some.inj hj).symm⟩
  · rintro ⟨hf, hg⟩
    rw [(modify_eq_self_iff hx).2 hf, (modify_eq_self_iff hy).2 hg]

end EchoAi
