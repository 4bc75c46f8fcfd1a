import Mathlib.Order.Lattice
import EchoAi.Chronicle

/-!
# Fixed windows

Calls at times that never go back are counted in windows of a fixed length: the first call opens a
window, and the first call that comes too late for the open window opens the next one.  In every
window as many calls are admitted as the capacity says.

* `knock`, `knocks`: one call and a sequence of calls, with what is admitted.
* `Windowed`, `verdictsFor`: times cut into windows, and the verdicts in one window.
* `exists_windowed`: the verdicts are those of the windows.
* `Refusal`, `refusal_of_knocks`: a call is refused only behind a full window.
-/

namespace EchoAi

/-! ## The verdicts in one window -/

section Admit

variable {τ : Type*}

/-- The verdicts where so many calls more have room. -/
def verdictsFor (room : Nat) (w : List τ) : List Bool :=
  List.replicate (min room w.length) true ++ List.replicate (w.length - room) false

theorem verdictsFor_nil (room : Nat) : verdictsFor room ([] : List τ) = [] := by
  rw [verdictsFor, List.length_nil, Nat.min_zero, Nat.zero_sub]
  rfl

theorem verdictsFor_zero_cons (t : τ) (w : List τ) : verdictsFor 0 (t :: w) = false :: verdictsFor 0 w := by
  rw [verdictsFor, verdictsFor, Nat.zero_min, Nat.zero_min, Nat.sub_zero, Nat.sub_zero, List.length_cons,
    List.replicate_succ, List.replicate_zero, List.nil_append, List.nil_append]

theorem verdictsFor_succ_cons (room : Nat) (t : τ) (w : List τ) :
    verdictsFor (room + 1) (t :: w) = true :: verdictsFor room w := by
  rw [verdictsFor, verdictsFor, List.length_cons, Nat.add_min_add_right, Nat.add_sub_add_right,
    List.replicate_succ, List.cons_append]

end Admit

section Windows

variable {τ : Type*} [LinearOrder τ] [Add τ] {len : τ} {cap : Nat}

/-- The open window: the time that opened it and the calls that were admitted in it. -/
structure Window (τ : Type*) where
  opened : τ
  used : Nat
  deriving DecidableEq

/-- A call at a time: whether it is admitted, and the window that is open then. -/
def knock (len : τ) (cap : Nat) (t : τ) : Option (Window τ) → Bool × Window τ
  | none => (true, ⟨t, 1⟩)
  | some w =>
    if w.opened + len ≤ t then (true, ⟨t, 1⟩)
    else if cap ≤ w.used then (false, w)
    else (true, ⟨w.opened, w.used + 1⟩)

/-- No window counts more calls than it admits. -/
theorem used_knock_le (hcap : 1 ≤ cap) (t : τ) {w : Option (Window τ)}
    (h : ∀ w' ∈ w, w'.used ≤ cap) : (knock len cap t w).2.used ≤ cap := by
  cases w with
  | none => exact hcap
  | some w =>
    rw [knock]
    split
    · exact hcap
    · split
      · exact h w rfl
      · next hroom => exact Nat.succ_le_of_lt (Nat.lt_of_not_le hroom)

/-- Calls one after the other, each with its verdict. -/
def knocks (len : τ) (cap : Nat) : Option (Window τ) → List τ → List (τ × Bool)
  | _, [] => []
  | w, t :: ts => (t, (knock len cap t w).1) :: knocks len cap (some (knock len cap t w).2) ts

/-! ## The windows of a sequence of calls -/

/-- Times cut into windows: each holds the times from the one that opened it up to the length of a
window later. -/
inductive Windowed (len : τ) : List τ → List (List τ) → Prop
  | nil : Windowed len [] []
  | cons {opened : τ} {inside later : List τ} {ws : List (List τ)}
      (hinside : ∀ t ∈ inside, opened ≤ t ∧ t < opened + len)
      (hlater : ∀ t ∈ later, opened + len ≤ t) (hrest : Windowed len later ws) :
      Windowed len (opened :: inside ++ later) ((opened :: inside) :: ws)

/-- The calls behind an open window: those that still fall into it, and the later ones. -/
theorem knocks_window {ts : List τ} (hts : ts.Pairwise (· ≤ ·)) {w : Window τ}
    (hopened : ∀ t ∈ ts, w.opened ≤ t) :
    ∃ inside later, ts = inside ++ later ∧
      (∀ t ∈ inside, w.opened ≤ t ∧ t < w.opened + len) ∧
      (∀ t ∈ later, w.opened + len ≤ t) ∧
      (knocks len cap (some w) ts).map Prod.snd =
        verdictsFor (cap - w.used) inside ++ (knocks len cap none later).map Prod.snd := by
  induction ts generalizing w with
  | nil => exact ⟨[], [], rfl, nofun, nofun, by rw [verdictsFor_nil]; rfl⟩
  | cons t ts ih =>
    obtain ⟨htail, hts⟩ := List.pairwise_cons.mp hts
    by_cases hlate : w.opened + len ≤ t
    · refine ⟨[], t :: ts, rfl, nofun, ?_, ?_⟩
      · intro t' ht'
        rcases List.mem_cons.mp ht' with rfl | ht'
        · exact hlate
        · exact le_trans hlate (htail t' ht')
      · rw [verdictsFor_nil, List.nil_append, knocks, knocks, knock, knock, if_pos hlate]
    · have hin : w.opened ≤ t ∧ t < w.opened + len :=
        ⟨hopened t List.mem_cons_self, not_le.mp hlate⟩
      have hrest : ∀ t' ∈ ts, w.opened ≤ t' := fun t' ht' => hopened t' (List.mem_cons_of_mem t ht')
      by_cases hfull : cap ≤ w.used
      · obtain ⟨inside, later, hsplit, hinside, hlater, hverdicts⟩ := ih hts hrest
        refine ⟨t :: inside, later, by rw [hsplit, List.cons_append], ?_, hlater, ?_⟩
        · exact List.forall_mem_cons.mpr ⟨hin, hinside⟩
        · rw [knocks, knock, if_neg hlate, if_pos hfull, List.map_cons, hverdicts,
            Nat.sub_eq_zero_of_le hfull, verdictsFor_zero_cons, List.cons_append]
      · obtain ⟨inside, later, hsplit, hinside, hlater, hverdicts⟩ :=
          ih (w := ⟨w.opened, w.used + 1⟩) hts hrest
        have hroom : cap - w.used = cap - (w.used + 1) + 1 := by omega
        refine ⟨t :: inside, later, by rw [hsplit, List.cons_append], ?_, hlater, ?_⟩
        · exact List.forall_mem_cons.mpr ⟨hin, hinside⟩
        · rw [knocks, knock, if_neg hlate, if_neg hfull, List.map_cons, hverdicts, hroom,
            verdictsFor_succ_cons, List.cons_append]

/-- **The verdicts are those of the windows.** -/
theorem exists_windowed (hcap : 1 ≤ cap) {ts : List τ} (hts : ts.Pairwise (· ≤ ·)) :
    ∃ ws, Windowed len ts ws ∧
      (knocks len cap none ts).map Prod.snd = ws.flatMap (verdictsFor cap) := by
  induction hlen : ts.length using Nat.strongRecOn generalizing ts with
  | ind n ih =>
    cases ts with
    | nil => exact ⟨[], Windowed.nil, rfl⟩
    | cons t ts =>
      obtain ⟨htail, hts⟩ := List.pairwise_cons.mp hts
      obtain ⟨inside, later, rfl, hinside, hlater, hverdicts⟩ :=
        knocks_window hts (w := ⟨t, 1⟩) htail
      have hshort : later.length < n := by
        rw [← hlen, List.length_cons, List.length_append]
        omega
      obtain ⟨ws, hws, hrest⟩ := ih later.length hshort (List.pairwise_append.mp hts).2.1 rfl
      have hroom : cap = cap - 1 + 1 := by omega
      refine ⟨(t :: inside) :: ws, Windowed.cons hinside hlater hws, ?_⟩
      rw [knocks, knock, List.map_cons, hverdicts, hrest, List.flatMap_cons]
      nth_rewrite 3 [hroom]
      rw [verdictsFor_succ_cons, List.cons_append]

/-! ## Behind a full window -/

/-- What stands before a refused call: the time that opened the window it falls into, and as many
admitted calls from there on as the capacity says. -/
def Refusal (len : τ) (cap : Nat) (before : List (τ × Bool)) (call : τ × Bool) : Prop :=
  call.2 = false → ∃ opened ∈ before.map Prod.fst, opened ≤ call.1 ∧ call.1 < opened + len ∧
    before.countP (fun e => decide (opened ≤ e.1) && e.2) = cap

/-- The window counts the calls that were admitted since it was opened. -/
inductive Counted (len : τ) (cap : Nat) : List (τ × Bool) → Option (Window τ) → Prop
  | start : Counted len cap [] none
  | counted {log : List (τ × Bool)} {w : Window τ} (hopened : w.opened ∈ log.map Prod.fst)
      (hbefore : ∀ e ∈ log, e.1 < w.opened + len)
      (hused : log.countP (fun e => decide (w.opened ≤ e.1) && e.2) = w.used)
      (hfits : w.used ≤ cap) : Counted len cap log (some w)

/-- A call that opens a window is the first one of it. -/
theorem counted_opening (hlen : ∀ t : τ, t < t + len) (hcap : 1 ≤ cap) {log : List (τ × Bool)}
    {t : τ} (hlog : ∀ e ∈ log, e.1 < t) :
    Counted len cap (log ++ [(t, true)]) (some ⟨t, 1⟩) := by
  refine Counted.counted ?_ ?_ ?_ hcap
  · rw [List.map_append]
    exact List.mem_append_right _ List.mem_cons_self
  · intro e he
    rcases List.mem_append.mp he with he | he
    · exact lt_trans (hlog e he) (hlen t)
    · rw [List.mem_singleton.mp he]
      exact hlen t
  · have hnone : log.countP (fun e => decide (t ≤ e.1) && e.2) = 0 := by
      rw [List.countP_eq_zero]
      intro e he
      rw [decide_eq_false (not_le.mpr (hlog e he)), Bool.false_and]
      exact Bool.false_ne_true
    rw [countP_concat, hnone, decide_eq_true (le_refl t)]
    rfl

theorem counted_knock (hlen : ∀ t : τ, t < t + len) (hcap : 1 ≤ cap) {log : List (τ × Bool)}
    {w : Option (Window τ)} (h : Counted len cap log w) {t : τ} (hlog : ∀ e ∈ log, e.1 ≤ t) :
    Refusal len cap log (t, (knock len cap t w).1) ∧
      Counted len cap (log ++ [(t, (knock len cap t w).1)])
        (some (knock len cap t w).2) := by
  cases h with
  | start => exact ⟨nofun, counted_opening hlen hcap nofun⟩
  | @counted log w hopened hbefore hused hfits =>
    rw [knock]
    by_cases hlate : w.opened + len ≤ t
    · rw [if_pos hlate]
      exact ⟨nofun, counted_opening hlen hcap fun e he => lt_of_lt_of_le (hbefore e he) hlate⟩
    · have hin : t < w.opened + len := not_le.mp hlate
      have hsince : w.opened ≤ t := by
        obtain ⟨e, he, heq⟩ := List.mem_map.mp hopened
        rw [← heq]
        exact hlog e he
      have hbefore' : ∀ v : Bool, ∀ e ∈ log ++ [(t, v)], e.1 < w.opened + len := by
        intro v e he
        rcases List.mem_append.mp he with he | he
        · exact hbefore e he
        · rw [List.mem_singleton.mp he]
          exact hin
      have hopened' : ∀ v : Bool, w.opened ∈ (log ++ [(t, v)]).map Prod.fst := by
        intro v
        rw [List.map_append]
        exact List.mem_append_left _ hopened
      rw [if_neg hlate]
      by_cases hfull : cap ≤ w.used
      · rw [if_pos hfull]
        refine ⟨fun _ => ⟨w.opened, hopened, hsince, hin, ?_⟩, ?_⟩
        · rw [hused]
          exact Nat.le_antisymm hfits hfull
        · refine Counted.counted (hopened' false) (hbefore' false) ?_ hfits
          rw [countP_concat, hused, Bool.and_false, Bool.toNat_false, Nat.add_zero]
      · rw [if_neg hfull]
        refine ⟨nofun, Counted.counted (hopened' true) (hbefore' true) ?_
          (Nat.succ_le_of_lt (Nat.lt_of_not_le hfull))⟩
        rw [countP_concat, hused, decide_eq_true hsince]
        rfl

/-- **A call is refused only behind a full window.** -/
theorem refusal_of_knocks (hlen : ∀ t : τ, t < t + len) (hcap : 1 ≤ cap) {ts : List τ}
    (hts : ts.Pairwise (· ≤ ·)) : Lawful (Refusal len cap) (knocks len cap none ts) := by
  suffices hall : ∀ (log : List (τ × Bool)) (w : Option (Window τ)), Counted len cap log w →
      (∀ e ∈ log, ∀ t ∈ ts, e.1 ≤ t) → Lawful (Refusal len cap) log →
      Lawful (Refusal len cap) (log ++ knocks len cap w ts) from
    hall [] none Counted.start nofun lawful_nil
  induction ts with
  | nil =>
    intro log w _ _ hlaw
    rwa [knocks, List.append_nil]
  | cons t ts ih =>
    intro log w hcounted hlog hlaw
    obtain ⟨htail, hts⟩ := List.pairwise_cons.mp hts
    obtain ⟨hrefusal, hnext⟩ :=
      counted_knock hlen hcap hcounted fun e he => hlog e he t List.mem_cons_self
    rw [knocks, List.append_cons]
    refine ih hts _ _ hnext ?_ (lawful_concat.mpr ⟨hlaw, hrefusal⟩)
    intro e he t' ht'
    rcases List.mem_append.mp he with he | he
    · exact hlog e he t' (List.mem_cons_of_mem t ht')
    · rw [List.mem_singleton.mp he]
      exact htail t' ht'

end Windows

end EchoAi
