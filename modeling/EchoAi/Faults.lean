import Mathlib.Data.List.Basic
import Mathlib.Tactic.Common

/-!
# Computations whose operations may fail

A program allocates, writes and calls out, and each of these may fail.  A run is described by the
set of its operations that fail, and a computation under such a set is a function into `Option`
that is absent when it gave up.

* `Faults σ`: which of the operations named by `σ` fail.
* `attempt`: one operation whose failure is checked.
* `AbortsOr x y`: the computation `x` gave up or has the result of `y`.  This is the order in which
  a program with checked failures stands below the same program without failures, and it passes
  through binds and loops: `AbortsOr.bind`, `AbortsOr.traverseFrom`.
* `traverseFrom`: a loop that gives up at the first failure; `collectFrom`: a loop that leaves out
  the items it fails on; `stopFrom`: a loop that stops at the first failure.
-/

/-- Which of the operations named by `σ` fail in a run. -/
abbrev Faults (σ : Type) := σ → Bool

namespace Faults

variable {σ τ : Type}

/-- The run in which nothing fails. -/
def none : Faults σ := fun _ => false

/-- The failures that a component sees whose operations the whole program names by `site`. -/
def within (fail : Faults σ) (site : τ → σ) : Faults τ := fun t => fail (site t)

/-- All failures of the run are among the operations in `sites`. -/
def OnlyIn (fail : Faults σ) (sites : σ → Bool) : Prop := ∀ s, fail s = true → sites s = true

theorem OnlyIn.eq_false {fail : Faults σ} {sites : σ → Bool} (h : fail.OnlyIn sites) {s : σ}
    (hs : sites s = false) : fail s = false := by
  rw [Bool.eq_false_iff]
  intro hfail
  rw [h s hfail] at hs
  exact Bool.noConfusion hs

theorem onlyIn_none (sites : σ → Bool) : (Faults.none : Faults σ).OnlyIn sites :=
  fun _ h => Bool.noConfusion h

@[simp] theorem none_apply (s : σ) : (Faults.none : Faults σ) s = false := rfl

@[simp] theorem within_apply (fail : Faults σ) (site : τ → σ) (t : τ) :
    fail.within site t = fail (site t) := rfl

@[simp] theorem within_none (site : τ → σ) : (Faults.none : Faults σ).within site = Faults.none :=
  rfl

end Faults

/-- One operation with a checked failure. -/
def attempt (failed : Bool) : Option Unit := if failed then none else some ()

@[simp] theorem attempt_false : attempt false = some () := rfl

@[simp] theorem attempt_true : attempt true = none := rfl

/-- A check that stops the computation when `p` holds. -/
theorem attempt_decide_bind {β : Type} (p : Prop) [Decidable p] (f : Unit → Option β) :
    ((attempt (decide p)).bind f) = if p then none else f () := by
  by_cases h : p
  · rw [decide_eq_true h, if_pos h]
    rfl
  · rw [decide_eq_false h, if_neg h]
    rfl

/-! ## Giving up -/

section AbortsOr

variable {α β : Type}

/-- The computation `x` gave up, or it has the result of `y`. -/
def AbortsOr (x y : Option α) : Prop := x = none ∨ x = y

namespace AbortsOr

theorem refl (x : Option α) : AbortsOr x x := Or.inr rfl

theorem none_left (y : Option α) : AbortsOr none y := Or.inl rfl

theorem trans {x y z : Option α} (hxy : AbortsOr x y) (hyz : AbortsOr y z) : AbortsOr x z := by
  rcases hxy with hx | hx
  · exact Or.inl hx
  · rw [hx]
    exact hyz

theorem of_eq {x y : Option α} (h : x = y) : AbortsOr x y := Or.inr h

/-- A result of the first computation is the result of the second. -/
theorem eq_some {x y : Option α} (h : AbortsOr x y) {a : α} (hx : x = some a) : y = some a := by
  rcases h with h | h
  · rw [h] at hx
    exact absurd hx (by simp)
  · rw [← h, hx]

theorem bind {x y : Option α} {f g : α → Option β} (h : AbortsOr x y)
    (hf : ∀ a, AbortsOr (f a) (g a)) : AbortsOr (x >>= f) (y >>= g) := by
  rcases h with rfl | rfl
  · exact none_left _
  · cases x with
    | none => exact none_left _
    | some a => exact hf a

/-- The first part of a computation gave up or yields `a`, and so the rest starts at `a`. -/
theorem bind_some {x : Option α} {a : α} {f : α → Option β} {y : Option β}
    (h : AbortsOr x (some a)) (hf : AbortsOr (f a) y) : AbortsOr (x >>= f) y := by
  rcases h with rfl | rfl
  · exact none_left _
  · exact hf

/-- A checked operation, next to the same operation when it does not fail. -/
theorem of_attempt (failed : Bool) : AbortsOr (attempt failed) (attempt false) := by
  cases failed with
  | true => exact none_left _
  | false => exact refl _

/-- A value that is there only when its operation did not fail. -/
theorem ite_none (failed : Bool) (x : Option α) :
    AbortsOr (if failed = true then none else x) x := by
  cases failed with
  | true => exact none_left _
  | false => exact refl _

/-- An operation that may fail before a computation. -/
theorem attempt_bind (failed : Bool) {x y : Option β} (h : AbortsOr x y) :
    AbortsOr (attempt failed >>= fun _ => x) y := by
  cases failed with
  | true => exact none_left _
  | false => exact h

end AbortsOr

end AbortsOr

/-! ## Loops -/

section Loops

variable {α β : Type}

/-- Apply a fallible function to every item and its position, counted from `i`; give up at the first
failure. -/
def traverseFrom (f : Nat → α → Option β) : Nat → List α → Option (List β)
  | _, [] => some []
  | i, a :: as => do
    let b ← f i a
    let bs ← traverseFrom f (i + 1) as
    return b :: bs

/-- Apply a fallible function to every item and its position, counted from `i`; leave out the items
it fails on. -/
def collectFrom (f : Nat → α → Option β) : Nat → List α → List β
  | _, [] => []
  | i, a :: as => (f i a).toList ++ collectFrom f (i + 1) as

theorem traverseFrom_total {f : Nat → α → Option β} {g : α → β} (h : ∀ i a, f i a = some (g a))
    (i : Nat) (as : List α) : traverseFrom f i as = some (as.map g) := by
  induction as generalizing i with
  | nil => rfl
  | cons a as ih =>
    rw [traverseFrom, h, ih]
    rfl

theorem collectFrom_total {f : Nat → α → Option β} {g : α → β} (h : ∀ i a, f i a = some (g a))
    (i : Nat) (as : List α) : collectFrom f i as = as.map g := by
  induction as generalizing i with
  | nil => rfl
  | cons a as ih =>
    rw [collectFrom, h, ih]
    rfl

/-- Apply a fallible function to every item and its position, counted from `i`; stop at the first
failure and keep what was done before. -/
def stopFrom (f : Nat → α → Option β) : Nat → List α → List β
  | _, [] => []
  | i, a :: as =>
    match f i a with
    | none => []
    | some b => b :: stopFrom f (i + 1) as

theorem length_stopFrom_le (f : Nat → α → Option β) (i : Nat) (as : List α) :
    (stopFrom f i as).length ≤ as.length := by
  induction as generalizing i with
  | nil => exact Nat.le_refl _
  | cons a as ih =>
    rw [stopFrom]
    cases f i a with
    | none => exact Nat.zero_le _
    | some b => exact Nat.succ_le_succ (ih (i + 1))

/-- A loop that copies items and stops has copied the first of them. -/
theorem stopFrom_prefix {f : Nat → α → Option α} (h : ∀ i a b, f i a = some b → b = a) (i : Nat)
    (as : List α) : stopFrom f i as <+: as := by
  induction as generalizing i with
  | nil => exact List.prefix_refl _
  | cons a as ih =>
    rw [stopFrom]
    cases hf : f i a with
    | none => exact List.nil_prefix
    | some b => exact List.cons_prefix_cons.mpr ⟨h i a b hf, ih (i + 1)⟩

/-- A loop that stops has done its work on all items exactly when it has failed on none. -/
theorem length_stopFrom_eq_iff {f : Nat → α → Option β} {i : Nat} {as : List α} :
    (stopFrom f i as).length = as.length ↔ ∀ j a, as[j]? = some a → (f (i + j) a).isSome = true := by
  induction as generalizing i with
  | nil => exact iff_of_true rfl fun j a h => absurd h (by simp)
  | cons a as ih =>
    rw [stopFrom]
    cases hf : f i a with
    | none =>
      refine iff_of_false (fun h => absurd h (by simp)) fun h => ?_
      have hhead := h 0 a rfl
      rw [Nat.add_zero, hf] at hhead
      exact Bool.noConfusion hhead
    | some b =>
      rw [List.length_cons, List.length_cons, Nat.add_right_cancel_iff, ih]
      constructor
      · intro h j c hc
        cases j with
        | zero =>
          rw [← Option.some.inj hc, Nat.add_zero, hf]
          rfl
        | succ j =>
          rw [← Nat.add_assoc, Nat.add_right_comm]
          exact h j c hc
      · intro h j c hc
        have htail := h (j + 1) c hc
        rwa [← Nat.add_assoc, Nat.add_right_comm] at htail

/-- A loop gives up or yields every result, as soon as each of its steps does. -/
theorem AbortsOr.traverseFrom {f : Nat → α → Option β} {g : α → β}
    (h : ∀ i a, AbortsOr (f i a) (some (g a))) (i : Nat) (as : List α) :
    AbortsOr (traverseFrom f i as) (some (as.map g)) := by
  induction as generalizing i with
  | nil => exact AbortsOr.refl _
  | cons a as ih => exact AbortsOr.bind_some (h i a) (AbortsOr.bind_some (ih (i + 1)) (refl _))

theorem length_collectFrom_le (f : Nat → α → Option β) (i : Nat) (as : List α) :
    (collectFrom f i as).length ≤ as.length := by
  induction as generalizing i with
  | nil => exact Nat.le_refl _
  | cons a as ih =>
    have hhead : (f i a).toList.length ≤ 1 := by
      cases f i a <;> simp
    rw [collectFrom, List.length_append, List.length_cons]
    have := ih (i + 1)
    omega

/-- A loop that leaves items out has done its work on all of them exactly when it has failed on
none. -/
theorem collectFrom_eq_map_iff {f : Nat → α → Option β} {g : α → β} {i : Nat} {as : List α} :
    collectFrom f i as = as.map g ↔ ∀ j a, as[j]? = some a → f (i + j) a = some (g a) := by
  induction as generalizing i with
  | nil => exact iff_of_true rfl fun j a h => absurd h (by simp)
  | cons a as ih =>
    have hcons : (∀ j b, (a :: as)[j]? = some b → f (i + j) b = some (g b)) ↔
        f i a = some (g a) ∧ ∀ j b, as[j]? = some b → f (i + 1 + j) b = some (g b) := by
      constructor
      · refine fun h => ⟨h 0 a rfl, fun j b hb => ?_⟩
        rw [Nat.add_assoc, Nat.add_comm 1]
        exact h (j + 1) b hb
      · rintro ⟨hhead, htail⟩ j b hb
        cases j with
        | zero => exact Option.some.inj hb ▸ hhead
        | succ j =>
          rw [← Nat.add_assoc, Nat.add_right_comm]
          exact htail j b hb
    rw [hcons, ← ih, collectFrom, List.map_cons]
    cases hf : f i a with
    | none =>
      refine iff_of_false (fun h => ?_) fun h => absurd h.1 (by simp)
      have hlength := length_collectFrom_le f (i + 1) as
      rw [Option.toList_none, List.nil_append] at h
      rw [h, List.length_cons, List.length_map] at hlength
      omega
    | some b => rw [Option.toList_some, List.singleton_append, List.cons.injEq, Option.some_inj]

theorem map_collectFrom {γ : Type} (f : Nat → α → Option β) (g : β → γ) (i : Nat) (as : List α) :
    (collectFrom f i as).map g = collectFrom (fun j a => (f j a).map g) i as := by
  induction as generalizing i with
  | nil => rfl
  | cons a as ih =>
    rw [collectFrom, collectFrom, List.map_append, ih]
    cases f i a <;> rfl

/-- What a loop that gives up has done when it did not. -/
theorem map_traverseFrom {γ : Type} {f : Nat → α → Option β} {g : β → γ} {h : Nat → α → γ}
    (hstep : ∀ i a b, f i a = some b → g b = h i a) {i : Nat} {as : List α} {bs : List β}
    (hf : traverseFrom f i as = some bs) : bs.map g = as.mapIdx fun j a => h (i + j) a := by
  induction as generalizing i bs with
  | nil =>
    rw [← Option.some.inj hf]
    rfl
  | cons a as ih =>
    simp only [traverseFrom, Option.bind_eq_bind, Option.bind_eq_some_iff, Option.pure_def,
      Option.some_inj] at hf
    obtain ⟨b, hb, bs', hbs, rfl⟩ := hf
    rw [List.map_cons, List.mapIdx_cons, hstep i a b hb, ih hbs]
    congr 1
    exact List.mapIdx_eq_mapIdx_iff.mpr fun j _ => by rw [Nat.add_assoc, Nat.add_comm 1]

/-- A loop whose steps all yield a given value of their item has yielded these values. -/
theorem eq_map_of_traverseFrom {f : Nat → α → Option β} {g : α → β}
    (h : ∀ i a b, f i a = some b → b = g a) {i : Nat} {as : List α} {bs : List β}
    (hf : traverseFrom f i as = some bs) : bs = as.map g := by
  induction as generalizing i bs with
  | nil => exact (Option.some.inj hf).symm
  | cons a as ih =>
    simp only [traverseFrom, Option.bind_eq_bind, Option.bind_eq_some_iff, Option.pure_def,
      Option.some_inj] at hf
    obtain ⟨b, hb, bs', hbs, rfl⟩ := hf
    rw [List.map_cons, h i a b hb, ih hbs]

/-- A loop that did not give up has done its step on every item. -/
theorem exists_step_of_traverseFrom {f : Nat → α → Option β} {i : Nat} {as : List α} {bs : List β}
    (hf : traverseFrom f i as = some bs) {before after : List α} {a : α}
    (has : as = before ++ a :: after) : ∃ b, f (i + before.length) a = some b := by
  subst has
  induction before generalizing i bs with
  | nil =>
    simp only [List.nil_append, traverseFrom, Option.bind_eq_bind, Option.bind_eq_some_iff] at hf
    obtain ⟨b, hb, -⟩ := hf
    exact ⟨b, hb⟩
  | cons c before ih =>
    simp only [List.cons_append, traverseFrom, Option.bind_eq_bind, Option.bind_eq_some_iff,
      Option.pure_def] at hf
    obtain ⟨-, -, cs, hcs, -⟩ := hf
    obtain ⟨b, hb⟩ := ih hcs
    refine ⟨b, ?_⟩
    rw [List.length_cons, ← Nat.add_assoc, Nat.add_right_comm]
    exact hb

end Loops
