import Mathlib.Data.List.Basic
import Mathlib.Data.List.Induction
import Mathlib.Logic.Relation
import Mathlib.Tactic.Common

/-!
# Chronicles

A machine that takes one step after the other writes down what happens.  A law says which entry may
follow which past.

* `Lawful`: every entry of a chronicle stands behind a past that the law allows.
* `Runs`: the runs of a machine whose steps all meet a condition on the state and the event.
* `Runs.invariant`: what every step keeps holds after a run.
* `countP_set_add`, `countP_concat`, `forall_mem_set`, `forall_getElem?_set`, `filterMap_set_perm`:
  lists of parties when one of them goes on or joins.
-/

namespace EchoAi

section Laws

variable {α : Type*} {law : List α → α → Prop} {log : List α}

/-- Every entry stands behind a past that the law allows. -/
def Lawful (law : List α → α → Prop) (log : List α) : Prop :=
  ∀ before entry after, log = before ++ entry :: after → law before entry

theorem lawful_nil : Lawful law [] := by
  intro before entry after h
  exact absurd h (by simp)

theorem lawful_concat {a : α} : Lawful law (log ++ [a]) ↔ Lawful law log ∧ law log a := by
  constructor
  · intro h
    refine ⟨fun before entry after heq => h before entry (after ++ [a]) ?_, h log a [] rfl⟩
    rw [heq, List.append_assoc, List.cons_append]
  · rintro ⟨hlog, ha⟩ before entry after heq
    rcases List.eq_nil_or_concat after with rfl | ⟨init, last, rfl⟩
    · obtain ⟨rfl, hlast⟩ := List.append_inj' heq rfl
      obtain rfl : a = entry := (List.cons.inj hlast).1
      exact ha
    · rw [List.concat_eq_append, ← List.cons_append, ← List.append_assoc] at heq
      exact hlog before entry init (List.append_inj' heq rfl).1

/-- Entries that the law allows where they come to stand. -/
theorem Lawful.extend {added : List α} (h : Lawful law log)
    (hnew : ∀ past a rest, added = past ++ a :: rest → law (log ++ past) a) :
    Lawful law (log ++ added) := by
  induction added using List.reverseRecOn with
  | nil => rwa [List.append_nil]
  | append_singleton added a ih =>
    rw [← List.append_assoc]
    refine lawful_concat.mpr ⟨ih fun past b rest heq => hnew past b (rest ++ [a]) ?_, ?_⟩
    · rw [heq, List.append_assoc, List.cons_append]
    · exact hnew added a [] rfl

/-- Entries that the law allows everywhere. -/
theorem Lawful.append {added : List α} (h : Lawful law log)
    (hfree : ∀ a ∈ added, ∀ past, law past a) : Lawful law (log ++ added) := by
  refine h.extend fun past a rest heq => hfree a ?_ (log ++ past)
  rw [heq]
  exact List.mem_append_right past List.mem_cons_self

/-- The law at a position. -/
theorem Lawful.at {a : α} {n : Nat} (h : Lawful law log) (hn : log[n]? = some a) :
    law (log.take n) a := by
  obtain ⟨hlt, rfl⟩ := List.getElem?_eq_some_iff.mp hn
  refine h _ _ (log.drop (n + 1)) ?_
  rw [← List.drop_eq_getElem_cons hlt, List.take_append_drop]

/-- What the law says of an entry and each one before it. -/
theorem Lawful.pairwise {r : α → α → Prop} (h : Lawful law log)
    (hr : ∀ past b, law past b → ∀ a ∈ past, r a b) : log.Pairwise r := by
  induction log using List.reverseRecOn with
  | nil => exact List.Pairwise.nil
  | append_singleton log b ih =>
    obtain ⟨hlog, hb⟩ := lawful_concat.mp h
    refine List.pairwise_append.mpr ⟨ih hlog, List.pairwise_singleton r b, fun a ha c hc => ?_⟩
    obtain rfl : c = b := List.mem_singleton.mp hc
    exact hr log c hb a ha

/-- An entry that is allowed only where it does not stand yet. -/
theorem Lawful.count_le_one [DecidableEq α] {a : α} (h : Lawful law log)
    (honce : ∀ past, law past a → a ∉ past) : log.count a ≤ 1 := by
  induction log using List.reverseRecOn with
  | nil => exact Nat.zero_le 1
  | append_singleton log b ih =>
    obtain ⟨hlog, hb⟩ := lawful_concat.mp h
    rw [List.count_append, List.count_singleton]
    split
    · next heq =>
      obtain rfl : b = a := eq_of_beq heq
      exact Nat.succ_le_succ (Nat.le_of_eq (List.count_eq_zero.mpr (honce log hb)))
    · exact ih hlog

end Laws

section Runs

variable {σ ε : Type*} {step : σ → ε → Option σ} {ok : σ → ε → Prop} {start last : σ}

/-- A step under an event that meets the condition. -/
def Stepping (step : σ → ε → Option σ) (ok : σ → ε → Prop) (before after : σ) : Prop :=
  ∃ event, ok before event ∧ step before event = some after

/-- A run whose steps all meet the condition. -/
def Runs (step : σ → ε → Option σ) (ok : σ → ε → Prop) : σ → σ → Prop :=
  Relation.ReflTransGen (Stepping step ok)

/-- **What every step keeps holds after a run.** -/
theorem Runs.invariant {I : σ → Prop} (hstart : I start)
    (hstep : ∀ before event after, ok before event → I before → step before event = some after →
      I after) (h : Runs step ok start last) : I last := by
  induction h with
  | refl => exact hstart
  | tail _ hlast ih =>
    obtain ⟨event, hok, hafter⟩ := hlast
    exact hstep _ event _ hok ih hafter

/-- The run of a list of events, each with its condition checked. -/
theorem runs_of_foldlM [∀ state event, Decidable (ok state event)] {events : List ε}
    (h : events.foldlM (fun state event => if ok state event then step state event else none)
      start = some last) : Runs step ok start last := by
  induction events generalizing start with
  | nil =>
    obtain rfl : start = last := Option.some.inj h
    exact Relation.ReflTransGen.refl
  | cons event events ih =>
    rw [List.foldlM_cons, Option.bind_eq_bind, Option.bind_eq_some_iff] at h
    obtain ⟨next, hnext, hrest⟩ := h
    split at hnext
    · next hok => exact Relation.ReflTransGen.head ⟨event, hok, hnext⟩ (ih hrest)
    · exact absurd hnext (by simp)

/-- A run of a list of events, with what is seen of its last state. -/
theorem exists_runs_of_foldlM (step : σ → ε → Option σ) (ok : σ → ε → Prop)
    [∀ state event, Decidable (ok state event)] {β : Type*} (view : σ → β) (start : σ)
    (events : List ε) (seen : β)
    (h : (events.foldlM (fun state event => if ok state event then step state event else none)
      start).map view = some seen) : ∃ last, Runs step ok start last ∧ view last = seen := by
  obtain ⟨last, hlast, hview⟩ := Option.map_eq_some_iff.mp h
  exact ⟨last, runs_of_foldlM hlast, hview⟩

end Runs

/-! ## Lists of parties -/

section Counting

variable {α : Type*} {p : α → Bool} {l : List α} {i : Nat} {a : α}

/-- The number of those with a property when one of them is replaced. -/
theorem countP_set_add {old : α} (h : l[i]? = some old) :
    (l.set i a).countP p + (p old).toNat = l.countP p + (p a).toNat := by
  obtain ⟨hlt, rfl⟩ := List.getElem?_eq_some_iff.1 h
  have hpos : (p l[i]).toNat ≤ l.countP p := by
    cases hp : p l[i] with
    | true => exact List.countP_pos_iff.2 ⟨l[i], List.getElem_mem hlt, hp⟩
    | false => exact Nat.zero_le _
  rw [List.countP_set hlt]
  have hone : (if p l[i] = true then 1 else 0) = (p l[i]).toNat := by cases p l[i] <;> rfl
  have hnew : (if p a = true then 1 else 0) = (p a).toNat := by cases p a <;> rfl
  rw [hone, hnew]
  omega

theorem countP_concat : (l ++ [a]).countP p = l.countP p + (p a).toNat := by
  rw [List.countP_append, List.countP_singleton]
  cases p a <;> rfl

theorem toNat_le_toNat {b c : Bool} (h : b = true → c = true) : b.toNat ≤ c.toNat := by
  cases b with
  | false => exact Nat.zero_le _
  | true => exact Nat.le_of_eq (congrArg Bool.toNat (h rfl).symm)

/-- What holds of all still does when one of them is replaced. -/
theorem forall_mem_set {q : α → Prop} (h : ∀ b ∈ l, q b) (ha : q a) : ∀ b ∈ l.set i a, q b := by
  intro b hb
  rcases List.mem_or_eq_of_mem_set hb with hb | rfl
  · exact h b hb
  · exact ha

/-- What holds of all at their places still does when one of them is replaced. -/
theorem forall_getElem?_set {q : Nat → α → Prop} (h : ∀ j b, l[j]? = some b → q j b)
    (ha : q i a) : ∀ j b, (l.set i a)[j]? = some b → q j b := by
  intro j b hj
  rw [List.getElem?_set] at hj
  split at hj
  · next hij =>
    subst hij
    split at hj
    · obtain rfl := Option.some.inj hj
      exact ha
    · exact absurd hj (by simp)
  · exact h j b hj

/-- What holds of all at their places still does when one joins. -/
theorem forall_getElem?_concat {q : Nat → α → Prop} (h : ∀ j b, l[j]? = some b → q j b)
    (ha : q l.length a) : ∀ j b, (l ++ [a])[j]? = some b → q j b := by
  intro j b hj
  rw [List.getElem?_append] at hj
  split at hj
  · exact h j b hj
  · next hge =>
    rw [List.getElem?_singleton] at hj
    split at hj
    · next hzero =>
      obtain rfl := Option.some.inj hj
      rwa [show j = l.length by omega]
    · exact absurd hj (by simp)

/-- What is collected from all when one of them is replaced by one that gives the same. -/
theorem filterMap_set_of_eq {β : Type*} {f : α → Option β} {old : α} (h : l[i]? = some old)
    (hsame : f a = f old) : (l.set i a).filterMap f = l.filterMap f := by
  obtain ⟨hlt, rfl⟩ := List.getElem?_eq_some_iff.1 h
  have hl : l = l.take i ++ l[i] :: l.drop (i + 1) := by
    rw [← List.drop_eq_getElem_cons hlt, List.take_append_drop]
  rw [List.set_eq_take_append_cons_drop, if_pos hlt]
  conv_rhs => rw [hl]
  simp only [List.filterMap_append, List.filterMap_cons, hsame]

/-- What is collected from all when one of them gives something for the first time. -/
theorem filterMap_set_perm {β : Type*} {f : α → Option β} {old : α} {b : β} (h : l[i]? = some old)
    (hold : f old = none) (hnew : f a = some b) :
    ((l.set i a).filterMap f).Perm (l.filterMap f ++ [b]) := by
  obtain ⟨hlt, rfl⟩ := List.getElem?_eq_some_iff.1 h
  have hl : l = l.take i ++ l[i] :: l.drop (i + 1) := by
    rw [← List.drop_eq_getElem_cons hlt, List.take_append_drop]
  rw [List.set_eq_take_append_cons_drop, if_pos hlt]
  conv_rhs => rw [hl]
  simp only [List.filterMap_append, List.filterMap_cons, hold, hnew, List.append_assoc]
  exact (List.perm_append_singleton b _).symm.append_left _

end Counting

end EchoAi
