import Mathlib.Data.List.Basic
import Mathlib.Tactic.Common

/-!
# Thoughts in an answer

Thoughts and answers come one after the other, and the thoughts stand between marks.

* `Said`: a text or a mark; `Balanced`: the marks open and close in turn, and all is closed.
* `Talk`, `Talk.think`, `Talk.speak`, `Talk.close`: a talk as it goes on.
* `Talk.Regular`: the marks of a talk so far; `Talk.Regular.balanced_iff`: they are balanced just
  outside of thoughts.
* `Tells`: the texts that some reader passes on are those of a talk.
-/

namespace EchoAi

/-- A part of what is passed on. -/
inductive Said where
  | opening
  | closing
  | text (s : String)
  deriving DecidableEq, Repr

/-- The part as a text. -/
def Said.render : Said → String
  | .opening => "<think>\n"
  | .closing => "\n</think>\n\n"
  | .text s => s

/-- Whether the part is a mark. -/
def Said.isMark : Said → Bool
  | .text _ => false
  | _ => true

/-- The marks alternate, begin with an opening one and end with a closing one. -/
def Balanced (said : List Said) : Prop :=
  ∃ n, said.filter Said.isMark = (List.replicate n [Said.opening, Said.closing]).flatten

/-- What was said, and whether it ends within thoughts. -/
structure Talk where
  thinking : Bool := false
  said : List Said := []
  deriving DecidableEq, Repr

namespace Talk

/-- A thought; an empty one is none. -/
def think (t : Talk) (s : String) : Talk :=
  if s = "" then t
  else
    { thinking := true
      said := t.said ++ (if t.thinking then [] else [.opening]) ++ [.text s] }

/-- The end of the thoughts. -/
def close (t : Talk) : Talk :=
  if t.thinking then { thinking := false, said := t.said ++ [.closing] } else t

/-- An answer, behind the thoughts. -/
def speak (t : Talk) (s : String) : Talk := { t.close with said := t.close.said ++ [.text s] }

/-- An answer that may be empty, and is none then. -/
def speakSome (t : Talk) (s : String) : Talk := if s = "" then t else t.speak s

/-- The marks so far alternate, and the last one is closed outside of thoughts. -/
def Regular (t : Talk) : Prop :=
  ∃ n, t.said.filter Said.isMark = (List.replicate n [Said.opening, Said.closing]).flatten ++
    if t.thinking then [.opening] else []

variable {t : Talk}

theorem regular_start : Regular {} := ⟨0, rfl⟩

theorem thinking_close (t : Talk) : t.close.thinking = false := by
  rw [close]
  split
  · rfl
  · next hclosed => exact Bool.eq_false_iff.2 hclosed

theorem Regular.think (h : t.Regular) (s : String) : (t.think s).Regular := by
  rw [Talk.think]
  split
  · exact h
  · obtain ⟨n, hn⟩ := h
    refine ⟨n, ?_⟩
    dsimp only
    rw [List.filter_append, List.filter_append, hn, if_pos rfl]
    cases t.thinking with
    | true => exact (List.append_nil _).trans (List.append_nil _)
    | false =>
      rw [if_neg Bool.false_ne_true, if_neg Bool.false_ne_true, List.append_nil]
      exact List.append_nil _

theorem Regular.close (h : t.Regular) : t.close.Regular := by
  rw [Talk.close]
  split
  · next hopen =>
    obtain ⟨n, hn⟩ := h
    refine ⟨n + 1, ?_⟩
    rw [hopen, if_pos rfl] at hn
    rw [List.filter_append, hn, if_neg Bool.false_ne_true, List.append_nil, List.replicate_succ',
      List.flatten_append, List.append_assoc]
    rfl
  · exact h

theorem Regular.speak (h : t.Regular) (s : String) : (t.speak s).Regular := by
  obtain ⟨n, hn⟩ := h.close
  refine ⟨n, ?_⟩
  rw [Talk.speak, List.filter_append, hn]
  exact List.append_nil _

theorem Regular.speakSome (h : t.Regular) (s : String) : (t.speakSome s).Regular := by
  rw [Talk.speakSome]
  split
  · exact h
  · exact h.speak s

theorem length_marks (n : Nat) :
    (List.replicate n [Said.opening, Said.closing]).flatten.length = 2 * n := by
  induction n with
  | zero => rfl
  | succ n ih =>
    rw [List.replicate_succ, List.flatten_cons, List.length_append, ih, List.length_cons,
      List.length_singleton]
    omega

/-- **The marks of a talk** are balanced just outside of thoughts. -/
theorem Regular.balanced_iff (h : t.Regular) : Balanced t.said ↔ t.thinking = false := by
  obtain ⟨n, hn⟩ := h
  constructor
  · rintro ⟨m, hm⟩
    rw [hm] at hn
    cases hthinking : t.thinking with
    | false => rfl
    | true =>
      -- within thoughts the number of marks is odd
      have hlength := congrArg List.length hn
      rw [hthinking, if_pos rfl, List.length_append, length_marks, length_marks,
        List.length_singleton] at hlength
      omega
  · intro hthinking
    rw [hthinking, if_neg Bool.false_ne_true, List.append_nil] at hn
    exact ⟨n, hn⟩

theorem Regular.balanced_close (h : t.Regular) : Balanced t.close.said :=
  h.close.balanced_iff.2 (thinking_close t)

end Talk

/-- A reader is within thoughts when a talk is, and has passed on what was said. -/
structure Tells (t : Talk) (thinking : Bool) (chunks : List String) : Prop where
  thinking : thinking = t.thinking
  chunks : chunks = t.said.map Said.render

theorem tells_start : Tells {} false [] := ⟨rfl, rfl⟩

end EchoAi
