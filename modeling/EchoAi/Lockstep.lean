import Mathlib.Data.List.Induction
import Mathlib.Data.List.Infix

/-!
# Machines step by step

A machine does what it should in one step just when the step meets a condition.  Then the same is
so of whole runs.

* `stateAfter`: the state after some operations.
* `stateAfter_invariant`: what every step keeps holds after a run.
* `stepwise_iff`: in a run all steps are right just when all of them meet the condition.
* `forall_steps_nil`, `forall_steps_cons`: all steps of a run, from its first one on.
-/

namespace EchoAi

variable {σ ω : Type*} {step : σ → ω → σ} {start : σ}

/-- The state after some operations. -/
def stateAfter (step : σ → ω → σ) (start : σ) (ops : List ω) : σ := ops.foldl step start

theorem stateAfter_nil : stateAfter step start [] = start := rfl

theorem stateAfter_concat (front : List ω) (op : ω) :
    stateAfter step start (front ++ [op]) = step (stateAfter step start front) op :=
  List.foldl_concat ..

/-- What every step keeps holds after a run. -/
theorem stateAfter_invariant {inv : σ → Prop} (hstart : inv start)
    (hstep : ∀ s op, inv s → inv (step s op)) (ops : List ω) : inv (stateAfter step start ops) := by
  induction ops using List.reverseRecOn with
  | nil => exact hstart
  | append_singleton front op ih =>
    rw [stateAfter_concat]
    exact hstep _ op ih

/-- What the steps that meet a condition keep holds as long as all steps meet it. -/
theorem stateAfter_invariant_of {inv : σ → Prop} {meets : σ → ω → Prop} (hstart : inv start)
    (hstep : ∀ s op, inv s → meets s op → inv (step s op)) {ops : List ω}
    (h : ∀ front op, front ++ [op] <+: ops → meets (stateAfter step start front) op) :
    inv (stateAfter step start ops) := by
  induction ops using List.reverseRecOn with
  | nil => exact hstart
  | append_singleton front op ih =>
    rw [stateAfter_concat]
    refine hstep _ op (ih fun front' op' hfront => ?_) (h front op List.prefix_rfl)
    exact h front' op' (hfront.trans (List.prefix_append front [op]))

/-- In a run all steps are right just when all of them meet the condition. -/
theorem stepwise_iff {inv : σ → Prop} {right meets : σ → ω → Prop} (hstart : inv start)
    (hiff : ∀ s op, inv s → (right s op ↔ meets s op))
    (hstep : ∀ s op, inv s → meets s op → inv (step s op)) (ops : List ω) :
    (∀ front op, front ++ [op] <+: ops → right (stateAfter step start front) op) ↔
      ∀ front op, front ++ [op] <+: ops → meets (stateAfter step start front) op := by
  have hinv : ∀ front,
      (∀ front' op, front' ++ [op] <+: front → meets (stateAfter step start front') op) →
      inv (stateAfter step start front) :=
    fun front hmeets => stateAfter_invariant_of hstart hstep hmeets
  constructor
  · intro h
    -- every prefix is met by induction, since the steps before it are right
    suffices hall : ∀ front, front <+: ops →
        ∀ front' op, front' ++ [op] <+: front → meets (stateAfter step start front') op from
      hall ops List.prefix_rfl
    intro front hfront
    induction front using List.reverseRecOn with
    | nil => exact fun front' op hnil => absurd (List.prefix_nil.1 hnil) (by simp)
    | append_singleton front op ih =>
      have hbefore := ih ((List.prefix_append front [op]).trans hfront)
      intro front' op' hstep'
      rcases List.prefix_concat_iff.1 hstep' with heq | hstep'
      · obtain ⟨rfl, hop⟩ := List.append_inj' heq rfl
        obtain rfl := List.singleton_inj.1 hop
        exact (hiff _ op' (hinv front' hbefore)).1 (h front' op' hfront)
      · exact hbefore front' op' hstep'
  · intro h front op hfront
    refine (hiff _ op (hinv front ?_)).2 (h front op hfront)
    exact fun front' op' hstep' =>
      h front' op' (hstep'.trans ((List.prefix_append front [op]).trans hfront))

section Steps

variable {P : List ω → ω → Prop}

theorem forall_steps_nil : ∀ front op, front ++ [op] <+: [] → P front op :=
  fun front op h => absurd (List.prefix_nil.1 h) (by simp)

/-- All steps of a run: its first one, and those behind it. -/
theorem forall_steps_cons {first : ω} {ops : List ω} :
    (∀ front op, front ++ [op] <+: first :: ops → P front op) ↔
      P [] first ∧ ∀ front op, front ++ [op] <+: ops → P (first :: front) op := by
  constructor
  · intro h
    refine ⟨h [] first ⟨ops, rfl⟩, fun front op hfront => h (first :: front) op ?_⟩
    rw [List.cons_append]
    exact List.cons_prefix_cons.2 ⟨rfl, hfront⟩
  · rintro ⟨hfirst, hrest⟩ front op hfront
    cases front with
    | nil =>
      obtain ⟨rfl, -⟩ := List.cons_prefix_cons.1 (show op :: [] <+: first :: ops from hfront)
      exact hfirst
    | cons a front =>
      rw [List.cons_append] at hfront
      obtain ⟨rfl, hbehind⟩ := List.cons_prefix_cons.1 hfront
      exact hrest front op hbehind

end Steps

end EchoAi
