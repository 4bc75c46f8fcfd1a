import Mathlib.Tactic.Common

/-!
# Programs that may be cut off

A program acts on a state in atomic steps and may be cut off between any two of them.  What holds of
a run therefore has two parts: what holds of every state in which the run may be cut off, and what
holds of its result.

* `Program σ α`: a sequence of atomic steps on `σ` that ends with a value of `α`; each step may look
  at the state it has reached.
* `run`: the value and the state at the end; `Cut p s s'`: a run of `p` from `s` may be cut off at
  `s'`.
* `wp p C Q s`: the weakest condition on `s` under which a run of `p` is cut off in states of `C`
  only and ends with `Q`.  `wp_iff` says that this is what it is.
* `wp_bind`, `wp_mono`, `wp_bind_of`, `wp_andThen_of`: the rules for composing programs.
* `Keeps f p`: a run of `p` leaves `f` of the state as it was, with one rule for each way of composing
  programs.
-/

/-- A sequence of atomic steps on a state. -/
inductive Program (σ α : Type) where
  | ret (a : α)
  | act (f : σ → σ) (k : σ → Program σ α)

namespace Program

variable {σ α β : Type}

/-- One program after another. -/
def bind : Program σ α → (α → Program σ β) → Program σ β
  | ret a, k => k a
  | act f j, k => act f fun s => bind (j s) k

instance : Monad (Program σ) where
  pure := ret
  bind := bind

/-- Look at the state. -/
def get : Program σ σ := act id ret

/-- Change the state in one step. -/
def modify (f : σ → σ) : Program σ Unit := act f fun _ => ret ()

/-- Do the second program when the first one succeeds. -/
def andThen (p q : Program σ Bool) : Program σ Bool := do
  if ← p then q else return false

/-- The value and the state at the end of a run. -/
def run : Program σ α → σ → α × σ
  | ret a, s => (a, s)
  | act f k, s => run (k (f s)) (f s)

@[simp] theorem run_pure (a : α) (s : σ) : run (pure a) s = (a, s) := rfl

@[simp] theorem run_bind (p : Program σ α) (k : α → Program σ β) (s : σ) :
    run (p >>= k) s = run (k (run p s).1) (run p s).2 := by
  induction p generalizing s with
  | ret a => rfl
  | act f j ih => exact ih (f s) (f s)

@[simp] theorem run_get (s : σ) : run get s = (s, s) := rfl

@[simp] theorem run_modify (f : σ → σ) (s : σ) : run (modify f) s = ((), f s) := rfl

@[simp] theorem run_andThen (p q : Program σ Bool) (s : σ) :
    run (andThen p q) s = if (run p s).1 then run q (run p s).2 else (false, (run p s).2) := by
  rw [andThen, run_bind]
  split <;> rfl

/-- The state after the first `n` steps of a run. -/
def after : Nat → Program σ α → σ → σ
  | 0, _, s => s
  | _ + 1, ret _, s => s
  | n + 1, act f k, s => after n (k (f s)) (f s)

/-- A run from `s` may be cut off at `s'`: before its first step, between two steps or after the
last one. -/
def Cut : Program σ α → σ → σ → Prop
  | ret _, s, s' => s' = s
  | act f k, s, s' => s' = s ∨ Cut (k (f s)) (f s) s'

/-- A run may be cut off after any number of steps. -/
theorem cut_after (n : Nat) (p : Program σ α) (s : σ) : Cut p s (after n p s) := by
  induction n generalizing p s with
  | zero =>
    cases p with
    | ret a => rfl
    | act f k => exact Or.inl rfl
  | succ n ih =>
    cases p with
    | ret a => rfl
    | act f k => exact Or.inr (ih (k (f s)) (f s))

/-- The weakest condition under which a run is cut off in `C` only and ends in `Q`. -/
def wp (C : σ → Prop) : Program σ α → (α → σ → Prop) → σ → Prop
  | ret a, Q, s => C s ∧ Q a s
  | act f k, Q, s => C s ∧ wp C (k (f s)) Q (f s)

section Rules

variable {C C' : σ → Prop} {p : Program σ α} {k : α → Program σ β} {Q Q' : α → σ → Prop} {s : σ}

/-- A run may be cut off before it starts. -/
theorem wp_start (h : wp C p Q s) : C s := by
  cases p with
  | ret a => exact h.1
  | act f k => exact h.1

theorem wp_mono (hC : ∀ s, C s → C' s) (hQ : ∀ a s, Q a s → Q' a s) (h : wp C p Q s) :
    wp C' p Q' s := by
  induction p generalizing s with
  | ret a => exact ⟨hC s h.1, hQ a s h.2⟩
  | act f k ih => exact ⟨hC s h.1, ih (f s) h.2⟩

/-- **The weakest condition is what it should be.** -/
theorem wp_iff : wp C p Q s ↔ (∀ s', Cut p s s' → C s') ∧ Q (run p s).1 (run p s).2 := by
  induction p generalizing s with
  | ret a =>
    constructor
    · rintro ⟨hC, hQ⟩
      refine ⟨?_, hQ⟩
      rintro s' rfl
      exact hC
    · exact fun h => ⟨h.1 s rfl, h.2⟩
  | act f k ih =>
    rw [wp, ih]
    constructor
    · rintro ⟨hC, hcut, hQ⟩
      refine ⟨?_, hQ⟩
      rintro s' (rfl | hs')
      · exact hC
      · exact hcut s' hs'
    · exact fun h => ⟨h.1 s (Or.inl rfl), fun s' hs' => h.1 s' (Or.inr hs'), h.2⟩

theorem wp_bind {Q : β → σ → Prop} :
    wp C (p >>= k) Q s ↔ wp C p (fun a s' => wp C (k a) Q s') s := by
  induction p generalizing s with
  | ret a =>
    constructor
    · exact fun h => ⟨wp_start h, h⟩
    · exact fun h => h.2
  | act f j ih => exact and_congr_right fun _ => ih (f s)

/-- The rule for a program after another, with what holds in between. -/
theorem wp_bind_of {R : α → σ → Prop} {Q : β → σ → Prop} (hp : wp C p R s)
    (hk : ∀ a s', R a s' → wp C (k a) Q s') : wp C (p >>= k) Q s :=
  wp_bind.mpr (wp_mono (fun _ h => h) hk hp)

theorem wp_pure {a : α} (hC : C s) (hQ : Q a s) : wp C (pure a : Program σ α) Q s := ⟨hC, hQ⟩

theorem wp_get_bind {k : σ → Program σ β} {Q : β → σ → Prop} (h : wp C (k s) Q s) :
    wp C (get >>= k) Q s :=
  ⟨wp_start h, h⟩

theorem wp_modify_bind {f : σ → σ} {k : Unit → Program σ β} {Q : β → σ → Prop} (hC : C s)
    (h : wp C (k ()) Q (f s)) : wp C (modify f >>= k) Q s :=
  ⟨hC, h⟩

/-- The states in which a run ends are among those in which it may be cut off. -/
theorem wp_end (h : wp C p Q s) : wp C p (fun a s' => C s' ∧ Q a s') s := by
  induction p generalizing s with
  | ret a => exact ⟨h.1, h.1, h.2⟩
  | act f k ih => exact ⟨h.1, ih (f s) h.2⟩

/-- The rule for a second program that runs when the first one succeeds. -/
theorem wp_andThen_of {p q : Program σ Bool} {R Q : Bool → σ → Prop} (hp : wp C p R s)
    (hfalse : ∀ s', R false s' → Q false s') (htrue : ∀ s', R true s' → wp C q Q s') :
    wp C (andThen p q) Q s := by
  refine wp_bind_of (wp_end hp) fun a s' h => ?_
  cases a with
  | true => exact htrue s' h.2
  | false => exact wp_pure h.1 (hfalse s' h.2)

end Rules

/-! ## Frames -/

/-- A run of the program leaves `f` of the state as it was. -/
def Keeps {τ : Type} (f : σ → τ) (p : Program σ α) : Prop := ∀ s, f (run p s).2 = f s

section Frames

variable {τ : Type} {f : σ → τ} {p : Program σ α} {k : α → Program σ β}

theorem keeps_pure (a : α) : Keeps f (pure a : Program σ α) := fun _ => rfl

theorem keeps_get : Keeps f (get : Program σ σ) := fun _ => rfl

theorem keeps_modify {g : σ → σ} (h : ∀ s, f (g s) = f s) : Keeps f (modify g) := h

theorem keeps_bind (hp : Keeps f p) (hk : ∀ a, Keeps f (k a)) : Keeps f (p >>= k) := by
  intro s
  rw [run_bind, hk, hp]

theorem keeps_andThen {p q : Program σ Bool} (hp : Keeps f p) (hq : Keeps f q) :
    Keeps f (andThen p q) := by
  refine keeps_bind hp fun ok => ?_
  split
  · exact hq
  · exact keeps_pure false

theorem keeps_ite {c : Prop} [Decidable c] {p q : Program σ α} (hp : Keeps f p)
    (hq : Keeps f q) : Keeps f (if c then p else q) := by
  split
  · exact hp
  · exact hq

end Frames

end Program
