import Mathlib.Algebra.Order.Group.Defs
import Mathlib.Algebra.Order.Sub.Defs
import Mathlib.Data.List.Basic
import Mathlib.Tactic.Common

/-!
# Rolling windows

Something may be done when it was not done too often during the time of length `len` before.

* `Sparse`: no window of that length, wherever it begins, holds more than `cap` times.
* `Sparse.concat`: so it stays when the times since `now - len` are counted before another is added.
* `Sparse.countP_le`: what is counted then.
-/

namespace EchoAi

variable {τ : Type*} [AddCommGroup τ] [LinearOrder τ] {len now later : τ} {cap : Nat} {times : List τ}

/-- At most `cap` of the times lie in any window of length `len`. -/
def Sparse (len : τ) (cap : Nat) (times : List τ) : Prop :=
  ∀ s, times.countP (fun t => decide (s < t ∧ t ≤ s + len)) ≤ cap

/-- One time more, when there was room for it a moment before. -/
theorem Sparse.concat [IsOrderedAddMonoid τ] (h : Sparse len cap times) (hle : now ≤ later)
    (hroom : times.countP (fun t => decide (now - len < t)) < cap) :
    Sparse len cap (times ++ [later]) := by
  intro s
  rw [List.countP_append, List.countP_singleton]
  split
  · next hlater =>
    obtain ⟨-, hend⟩ := of_decide_eq_true hlater
    have hsub : times.countP (fun t => decide (s < t ∧ t ≤ s + len)) ≤
        times.countP (fun t => decide (now - len < t)) := by
      refine List.countP_mono_left fun t _ ht => decide_eq_true ?_
      have hstart : now - len ≤ s := sub_le_iff_le_add.mpr (hle.trans hend)
      exact hstart.trans_lt (of_decide_eq_true ht).1
    omega
  · exact h s

/-- When no time lies ahead, the times that are counted lie in one window. -/
theorem Sparse.countP_le (h : Sparse len cap times) (hpast : ∀ t ∈ times, t ≤ now) :
    times.countP (fun t => decide (now - len < t)) ≤ cap := by
  refine le_trans (List.countP_mono_left fun t ht hlt => decide_eq_true ?_) (h (now - len))
  refine ⟨of_decide_eq_true hlt, ?_⟩
  rw [sub_add_cancel]
  exact hpast t ht

end EchoAi
