import Mathlib.Data.List.Perm.Subperm
import Mathlib.Tactic.Common

/-!
# A bounded mailbox

Letters are put into a box that holds `cap` of them, and a full box loses its oldest letter to the
next one.  A caller takes the oldest letter that is meant for it.

* `deposit`: the box with one letter more.
* `Accounts`: every letter that ever came is in the box, with one caller, or has `cap` others behind
  it.
* `Accounts.deposit`, `Accounts.take`: both operations keep the accounts.
* `Accounts.subperm`, `Accounts.find?_eq`: no letter is there twice, and none is lost too early.
-/

namespace EchoAi

namespace Mailbox

variable {α κ : Type*}

/-- One letter more, for which a full box gives up its oldest. -/
def deposit (cap : Nat) (a : α) (box : List α) : List α :=
  (if box.length = cap then box.tail else box) ++ [a]

theorem length_deposit_le {cap : Nat} {a : α} {box : List α} (hcap : 0 < cap)
    (h : box.length ≤ cap) : (deposit cap a box).length ≤ cap := by
  rw [deposit]
  split
  · next hfull =>
    simp only [List.length_append, List.length_tail, List.length_singleton]
    omega
  · next hroom =>
    simp only [List.length_append, List.length_singleton]
    omega

/-! ## What became of the letters -/

/-- What has become of a letter. -/
inductive Fate (κ : Type*) where
  | held
  | taken (caller : κ)
  | dropped

namespace Fate

/-- Whether the letter is in the box. -/
def isHeld : Fate κ → Bool
  | .held => true
  | _ => false

/-- Who has the letter. -/
def caller? : Fate κ → Option κ
  | .taken caller => some caller
  | _ => none

end Fate

/-- The letters of the box. -/
def heldOf (log : List (α × Fate κ)) : List α := (log.filter (·.2.isHeld)).map Prod.fst

/-- The letters that callers have. -/
def takenOf (log : List (α × Fate κ)) : List (κ × α) :=
  log.filterMap fun e => e.2.caller?.map (·, e.1)

variable {log : List (α × Fate κ)} {a : α}

@[simp] theorem heldOf_nil : heldOf ([] : List (α × Fate κ)) = [] := rfl

@[simp] theorem takenOf_nil : takenOf ([] : List (α × Fate κ)) = [] := rfl

@[simp] theorem heldOf_held : heldOf ((a, .held) :: log) = a :: heldOf log := rfl

@[simp] theorem heldOf_taken (k : κ) : heldOf ((a, .taken k) :: log) = heldOf log := rfl

@[simp] theorem heldOf_dropped : heldOf ((a, .dropped) :: log) = heldOf log := rfl

@[simp] theorem takenOf_held : takenOf ((a, .held) :: log) = takenOf log := rfl

@[simp] theorem takenOf_taken (k : κ) : takenOf ((a, .taken k) :: log) = (k, a) :: takenOf log := rfl

@[simp] theorem takenOf_dropped : takenOf ((a, .dropped) :: log) = takenOf log := rfl

@[simp] theorem heldOf_append (log log' : List (α × Fate κ)) :
    heldOf (log ++ log') = heldOf log ++ heldOf log' := by
  simp [heldOf]

@[simp] theorem takenOf_append (log log' : List (α × Fate κ)) :
    takenOf (log ++ log') = takenOf log ++ takenOf log' := by
  simp [takenOf]

theorem length_heldOf_le (log : List (α × Fate κ)) : (heldOf log).length ≤ log.length := by
  rw [heldOf, List.length_map]
  exact List.length_filter_le _ _

theorem heldOf_subset (log : List (α × Fate κ)) : heldOf log ⊆ log.map Prod.fst :=
  List.map_subset _ (List.filter_subset_self log)

/-- The place of the oldest letter of the box that is meant. -/
theorem exists_split {p : α → Bool} (h : (heldOf log).find? p = some a) :
    ∃ before after, log = before ++ (a, .held) :: after ∧
      (∀ b ∈ heldOf before, p b = false) ∧
      heldOf before ++ heldOf after = (heldOf log).eraseP p := by
  induction log with
  | nil => simp at h
  | cons e log ih =>
    obtain ⟨b, fate⟩ := e
    have hskip (hsame : heldOf ((b, fate) :: log) = heldOf log) :
        ∃ before after, (b, fate) :: log = before ++ (a, Fate.held) :: after ∧
          (∀ b ∈ heldOf before, p b = false) ∧
          heldOf before ++ heldOf after = (heldOf ((b, fate) :: log)).eraseP p := by
      rw [hsame] at h ⊢
      obtain ⟨before, after, hlog, hbefore, herase⟩ := ih h
      have hnone : heldOf [(b, fate)] = [] := by
        have happend := heldOf_append [(b, fate)] log
        rw [List.singleton_append, hsame] at happend
        exact List.self_eq_append_left.mp happend
      have hcons : heldOf ((b, fate) :: before) = heldOf before := by
        rw [← List.singleton_append, heldOf_append, hnone, List.nil_append]
      refine ⟨(b, fate) :: before, after, ?_, ?_, ?_⟩
      · rw [hlog, List.cons_append]
      · rwa [hcons]
      · rw [hcons, herase]
    cases fate with
    | held =>
      rw [heldOf_held, List.find?_cons] at h
      cases hp : p b with
      | true =>
        rw [hp] at h
        obtain rfl : b = a := Option.some.inj h
        exact ⟨[], log, rfl, by simp, by simp [hp]⟩
      | false =>
        rw [hp] at h
        obtain ⟨before, after, hlog, hbefore, herase⟩ := ih h
        refine ⟨(b, .held) :: before, after, by rw [hlog, List.cons_append], ?_, ?_⟩
        · simpa [hp] using hbefore
        · simp [hp, herase]
    | taken k => exact hskip rfl
    | dropped => exact hskip rfl

/-! ## Accounts -/

/-- Every letter that was dropped has `cap` others behind it. -/
def Aged (cap : Nat) (log : List (α × Fate κ)) : Prop :=
  ∀ before a after, log = before ++ (a, .dropped) :: after → cap ≤ after.length

/-- A log of the letters that came, of those in the box and of those that callers have. -/
structure Kept (cap : Nat) (arrivals box : List α) (answers : List (κ × α))
    (log : List (α × Fate κ)) : Prop where
  letters : log.map Prod.fst = arrivals
  held : heldOf log = box
  taken : (takenOf log).Perm answers
  aged : Aged cap log

/-- Every letter is in the box, with a caller, or lost behind `cap` others. -/
def Accounts (cap : Nat) (arrivals box : List α) (answers : List (κ × α)) : Prop :=
  ∃ log, Kept cap arrivals box answers log

variable {cap : Nat} {arrivals box : List α} {answers : List (κ × α)}

theorem Aged.concat (h : Aged cap log) : Aged cap (log ++ [(a, .held)]) := by
  intro before b after heq
  rcases List.eq_nil_or_concat after with rfl | ⟨init, last, rfl⟩
  · have hlast := (List.append_inj' heq rfl).2
    simp at hlast
  · rw [List.concat_eq_append, ← List.cons_append, ← List.append_assoc] at heq
    have hold := h before b init (List.append_inj' heq rfl).1
    rw [List.length_concat]
    omega

/-- Another fate for one letter. -/
theorem Aged.settle {before after : List (α × Fate κ)} {fate : Fate κ}
    (h : Aged cap (before ++ (a, .held) :: after))
    (hfate : fate = .dropped → cap ≤ after.length) : Aged cap (before ++ (a, fate) :: after) := by
  intro front b back heq
  rcases List.append_eq_append_iff.mp heq with ⟨middle, rfl, hback⟩ | ⟨middle, rfl, hfront⟩
  · cases middle with
    | nil =>
      rw [List.nil_append, List.cons.injEq, Prod.mk.injEq] at hback
      obtain ⟨⟨-, hdropped⟩, rfl⟩ := hback
      exact hfate hdropped
    | cons e middle =>
      rw [List.cons_append, List.cons.injEq] at hback
      obtain ⟨-, rfl⟩ := hback
      exact h (before ++ (a, .held) :: middle) b back (by simp)
  · cases middle with
    | nil =>
      rw [List.nil_append, List.cons.injEq, Prod.mk.injEq] at hfront
      obtain ⟨⟨-, hdropped⟩, rfl⟩ := hfront
      exact hfate hdropped.symm
    | cons e middle =>
      rw [List.cons_append, List.cons.injEq] at hfront
      obtain ⟨rfl, rfl⟩ := hfront
      have hold := h front b (middle ++ (a, .held) :: after) (by simp)
      simpa using hold

theorem Accounts.nil (cap : Nat) : Accounts (κ := κ) cap ([] : List α) [] [] :=
  ⟨[], rfl, rfl, List.Perm.nil, fun before b after h => absurd h (by simp)⟩

/-- **A letter more keeps the accounts.** -/
theorem Accounts.deposit (h : Accounts cap arrivals box answers) (a : α) :
    Accounts cap (arrivals ++ [a]) (deposit cap a box) answers := by
  obtain ⟨log, rfl, rfl, htaken, haged⟩ := h
  rw [Mailbox.deposit]
  split
  · next hfull =>
    cases hheld : heldOf log with
    | nil => exact ⟨log ++ [(a, .held)], by simp, by simp [hheld], by simpa using htaken, haged.concat⟩
    | cons b rest =>
      have hfind : (heldOf log).find? (fun _ => true) = some b := by simp [hheld]
      obtain ⟨before, after, rfl, hbefore, herase⟩ := exists_split hfind
      have hnone : heldOf before = [] := by
        rw [List.eq_nil_iff_forall_not_mem]
        intro c hc
        exact absurd (hbefore c hc) (by simp)
      -- The box is full of `b` and of what came behind it.
      have hroom : cap ≤ (after ++ [(a, Fate.held (κ := κ))]).length := by
        have hle := length_heldOf_le after
        simp only [heldOf_append, heldOf_held, hnone, List.nil_append, List.length_cons] at hfull
        simp only [List.length_append, List.length_singleton]
        omega
      refine ⟨before ++ (b, .dropped) :: (after ++ [(a, .held)]), by simp, ?_, ?_, ?_⟩
      · rw [heldOf_append, heldOf_held, hnone, List.nil_append, List.cons.injEq] at hheld
        simp [hnone, hheld.2]
      · simpa using htaken
      · have hconcat := haged.concat (a := a)
        rw [List.append_assoc, List.cons_append] at hconcat
        exact hconcat.settle fun _ => hroom
  · exact ⟨log ++ [(a, .held)], by simp, by simp, by simpa using htaken, haged.concat⟩

/-- **A letter that is taken stays on the accounts.** -/
theorem Accounts.take {p : α → Bool} (h : Accounts cap arrivals box answers)
    (hfind : box.find? p = some a) (k : κ) :
    Accounts cap arrivals (box.eraseP p) (answers ++ [(k, a)]) := by
  obtain ⟨log, rfl, rfl, htaken, haged⟩ := h
  obtain ⟨before, after, rfl, -, herase⟩ := exists_split hfind
  refine ⟨before ++ (a, .taken k) :: after, by simp, ?_, ?_, ?_⟩
  · rw [heldOf_append, heldOf_taken, herase]
  · rw [takenOf_append, takenOf_taken]
    rw [takenOf_append, takenOf_held] at htaken
    exact (List.perm_middle.trans (htaken.cons _)).trans (List.perm_append_singleton _ _).symm
  · exact haged.settle fun hdropped => absurd hdropped (by simp)

theorem Accounts.perm {answers' : List (κ × α)} (h : Accounts cap arrivals box answers)
    (hperm : answers.Perm answers') : Accounts cap arrivals box answers' := by
  obtain ⟨log, hletters, hheld, htaken, haged⟩ := h
  exact ⟨log, hletters, hheld, htaken.trans hperm, haged⟩

theorem subperm_map_fst (log : List (α × Fate κ)) :
    (heldOf log ++ (takenOf log).map Prod.snd).Subperm (log.map Prod.fst) := by
  induction log with
  | nil => simp
  | cons e log ih =>
    obtain ⟨b, fate⟩ := e
    cases fate with
    | held => simpa using (List.subperm_cons b).mpr ih
    | taken k =>
      rw [heldOf_taken, takenOf_taken, List.map_cons, List.map_cons]
      exact List.perm_middle.subperm.trans ((List.subperm_cons b).mpr ih)
    | dropped =>
      have hsub : (log.map Prod.fst).Sublist (b :: log.map Prod.fst) := List.sublist_cons_self _ _
      simpa using ih.trans hsub.subperm

/-- The letters of the box and of the callers came, each as often as it is there. -/
theorem Accounts.subperm (h : Accounts cap arrivals box answers) :
    (box ++ answers.map Prod.snd).Subperm arrivals := by
  obtain ⟨log, rfl, rfl, htaken, -⟩ := h
  have hperm := (htaken.map Prod.snd).append_left (heldOf log)
  exact hperm.symm.subperm.trans (subperm_map_fst log)

/-- The first letter that is meant, when nobody has such a letter yet and fewer than `cap` others
are behind it, is what is taken next. -/
theorem Accounts.find?_eq {p : α → Bool} {before after : List α}
    (h : Accounts cap arrivals box answers) (harrivals : arrivals = before ++ a :: after)
    (hafter : after.length < cap) (ha : p a = true) (hbefore : ∀ b ∈ before, p b = false)
    (hanswers : ∀ k b, (k, b) ∈ answers → p b = false) : box.find? p = some a := by
  obtain ⟨log, hletters, rfl, htaken, haged⟩ := h
  rw [harrivals] at hletters
  obtain ⟨front, rest, rfl, hfront, hrest⟩ := List.map_eq_append_iff.mp hletters
  obtain ⟨e, back, rfl, rfl, rfl⟩ := List.map_eq_cons_iff.mp hrest
  obtain ⟨b, fate⟩ := e
  cases fate with
  | held =>
    have hskip : (heldOf front).find? p = none := by
      rw [List.find?_eq_none]
      intro c hc
      rw [hbefore c (hfront ▸ heldOf_subset front hc)]
      exact Bool.false_ne_true
    rw [heldOf_append, heldOf_held, List.find?_append, hskip, Option.none_or,
      List.find?_cons_of_pos ha]
  | taken k =>
    have hnone := hanswers k b (htaken.subset (by simp))
    exact absurd (ha.symm.trans hnone) (by simp)
  | dropped =>
    have hold := haged front b back rfl
    rw [List.length_map] at hafter
    omega

end Mailbox

end EchoAi
