import Mathlib.Data.Multiset.Basic
import Mathlib.Algebra.Order.Group.Multiset
import Mathlib.Data.Multiset.MapFold

/-!
# Chains of which one is live

Work that is kept as a chain of steps may be forked: the chain is stored as it was, up to a mark that
the fork leaves in it, and a new chain goes live that starts like it.  Later any stored chain may be
exchanged with the live one.

* `Chains`: a live chain and the stored ones; `all` is the multiset of them.
* `Chains.Step`: one step, which is a fork or not.
* `Chains.Run`: any number of steps, with the number of forks among them.
* `Chains.Run.card_all`, `Chains.Run.map_all_le`: a run adds one chain for each fork, and what a mark
  does not change is never lost.
-/

/-- A live chain and the stored ones. -/
structure Chains (α : Type) where
  live : α
  stored : List α

namespace Chains

variable {α β : Type}

/-- All chains, the live one and the stored ones. -/
def all (c : Chains α) : Multiset α := c.live ::ₘ (c.stored : Multiset α)

/-- A step that is a fork or is none.  `marked a b` says that `b` is `a` with the mark of a fork. -/
inductive Step (marked : α → α → Prop) : Bool → Chains α → Chains α → Prop
  | fork {c c' : Chains α} {old : α} (hmark : marked c.live old)
      (hstored : c'.stored = c.stored ++ [old]) : Step marked true c c'
  | exchange {c c' : Chains α} (h : c'.all = c.all) : Step marked false c c'

variable {marked : α → α → Prop} {c c' : Chains α} {forked : Bool}

/-- A fork adds one chain and an exchange none. -/
theorem Step.card_all (h : Step marked forked c c') :
    Multiset.card c'.all = Multiset.card c.all + forked.toNat := by
  cases h with
  | fork hmark hstored =>
    rw [all, all, hstored, Multiset.card_cons, Multiset.card_cons, Multiset.coe_card,
      Multiset.coe_card, List.length_append]
    rfl
  | exchange h =>
    rw [h]
    rfl

/-- What the mark of a fork does not change stays. -/
theorem Step.map_all_le {f : α → β} (hf : ∀ a b, marked a b → f b = f a)
    (h : Step marked forked c c') : c.all.map f ≤ c'.all.map f := by
  cases h with
  | @fork c c' old hmark hstored =>
    have hperm : (c'.stored : Multiset α) = old ::ₘ (c.stored : Multiset α) := by
      rw [hstored, Multiset.cons_coe]
      exact Multiset.coe_eq_coe.mpr (List.perm_append_singleton _ _)
    rw [all, all, hperm, Multiset.map_cons, Multiset.map_cons, Multiset.map_cons, hf _ _ hmark]
    exact Multiset.le_cons_self _ _
  | exchange h => rw [h]

/-- Any number of steps, `n` of which are forks. -/
inductive Run (marked : α → α → Prop) (c₀ : Chains α) : Nat → Chains α → Prop
  | refl : Run marked c₀ 0 c₀
  | step {n : Nat} {forked : Bool} {c c' : Chains α} (hrun : Run marked c₀ n c)
      (hstep : Step marked forked c c') : Run marked c₀ (n + forked.toNat) c'

variable {c₀ : Chains α} {n : Nat}

/-- A run adds one chain for each fork. -/
theorem Run.card_all (h : Run marked c₀ n c) :
    Multiset.card c.all = Multiset.card c₀.all + n := by
  induction h with
  | refl => rfl
  | step _ hstep ih => rw [hstep.card_all, ih, Nat.add_assoc]

/-- **No chain is lost in a run**: what the mark of a fork does not change stays. -/
theorem Run.map_all_le {f : α → β} (hf : ∀ a b, marked a b → f b = f a)
    (h : Run marked c₀ n c) : c₀.all.map f ≤ c.all.map f := by
  induction h with
  | refl => exact le_refl _
  | step _ hstep ih => exact le_trans ih (hstep.map_all_le hf)

end Chains
