import Mathlib.Algebra.Order.BigOperators.Group.List
import Mathlib.Algebra.Order.Group.Nat
import Mathlib.Data.List.Basic

/-!
# Replacing parts of a list

Parts of a list are replaced from right to left; in between the list stays.

* `flatten_map_eq_iff_of_length_le`: two ways of writing out a list, one of them never longer, agree
  on the whole only if they agree everywhere.
* `Span`, `Ordered`: parts that stand one behind the other.
* `segments`, `assemble`: what is kept and what is put in, one behind the other.
* `applyFromRight`, `applyFromRight_eq`: the replacement from right to left.
* `weave`, `exists_weave`: texts with parts between them, before and after the replacement.
-/

namespace EchoAi

variable {α β γ : Type*}

/-! ## Writing out a list in two ways -/

/-- Two ways of writing out a list, the first never longer: they give the same whole only if they
agree everywhere. -/
theorem flatten_map_eq_iff_of_length_le {f g : α → List β} {xs : List α}
    (hlen : ∀ x ∈ xs, (f x).length ≤ (g x).length) :
    (xs.map f).flatten = (xs.map g).flatten ↔ ∀ x ∈ xs, f x = g x := by
  have hshort : ∀ ys : List α, (∀ y ∈ ys, (f y).length ≤ (g y).length) →
      (ys.map f).flatten.length ≤ (ys.map g).flatten.length := by
    intro ys hys
    rw [List.length_flatten, List.length_flatten, List.map_map, List.map_map]
    exact List.sum_le_sum hys
  constructor
  · induction xs with
    | nil => simp
    | cons x xs ih =>
      intro h
      rw [List.forall_mem_cons] at hlen
      have hwhole := congrArg List.length h
      have hrest := hshort xs hlen.2
      have hx := hlen.1
      rw [List.map_cons, List.map_cons, List.flatten_cons, List.flatten_cons] at h
      simp only [List.map_cons, List.flatten_cons, List.length_append] at hwhole
      obtain ⟨hfirst, hmore⟩ := List.append_inj h (by omega)
      exact List.forall_mem_cons.2 ⟨hfirst, ih hlen.2 hmore⟩
  · intro h
    rw [List.map_congr_left h]

/-! ## Parts and what replaces them -/

/-- A part of a list: where it begins, and how long it is. -/
structure Span where
  index : Nat
  length : Nat
  deriving DecidableEq, Repr

/-- Parts of a list of length `n`, one behind the other and behind `pos`. -/
def Ordered (n : Nat) : (pos : Nat) → List (Span × List β) → Prop
  | _, [] => True
  | pos, m :: ms =>
    pos ≤ m.1.index ∧ m.1.index + m.1.length ≤ n ∧ Ordered n (m.1.index + m.1.length) ms

/-- What is kept of a list that begins at `pos`, and what is put in, one behind the other. -/
def segments : (pos : Nat) → List α → List (Span × List β) → List (α ⊕ List β)
  | _, xs, [] => xs.map Sum.inl
  | pos, xs, m :: ms =>
    (xs.take (m.1.index - pos)).map Sum.inl ++ Sum.inr m.2 ::
      segments (m.1.index + m.1.length) (xs.drop (m.1.index + m.1.length - pos)) ms

/-- The segments written out. -/
def assemble (f : α → List β) (segs : List (α ⊕ List β)) : List β :=
  (segs.map (Sum.elim f id)).flatten

/-- What is kept. -/
def keptOf (segs : List (α ⊕ List β)) : List α := segs.filterMap Sum.getLeft?

/-- Replacement from right to left. -/
def applyFromRight (xs : List β) (ms : List (Span × List β)) : List β :=
  ms.foldr (fun m acc => acc.take m.1.index ++ m.2 ++ acc.drop (m.1.index + m.1.length)) xs

/-- The first part, in a list that begins in front of it. -/
theorem segments_cons {pos : Nat} (xs : List α) (m : Span × List β) (ms : List (Span × List β))
    (hpos : pos ≤ m.1.index) :
    segments pos xs (m :: ms) = (xs.take (m.1.index - pos)).map Sum.inl ++ Sum.inr m.2 ::
      segments (m.1.index + m.1.length) ((xs.drop (m.1.index - pos)).drop m.1.length) ms := by
  have hdrop : m.1.index + m.1.length - pos = m.1.index - pos + m.1.length := by omega
  rw [segments, hdrop, List.drop_drop]

theorem mem_keptOf {a : α} {segs : List (α ⊕ List β)} : a ∈ keptOf segs ↔ Sum.inl a ∈ segs := by
  rw [keptOf, List.mem_filterMap]
  constructor
  · rintro ⟨seg, hseg, hleft⟩
    rwa [← Sum.getLeft?_eq_some_iff.1 hleft]
  · exact fun h => ⟨_, h, rfl⟩

theorem assemble_append (f : α → List β) (as bs : List (α ⊕ List β)) :
    assemble f (as ++ bs) = assemble f as ++ assemble f bs := by
  rw [assemble, List.map_append, List.flatten_append, ← assemble, ← assemble]

theorem assemble_inr (f : α → List β) (new : List β) (segs : List (α ⊕ List β)) :
    assemble f (Sum.inr new :: segs) = new ++ assemble f segs := rfl

theorem assemble_inl (f : α → List β) (xs : List α) :
    assemble f (xs.map Sum.inl) = xs.flatMap f := by
  rw [assemble, List.map_map, List.flatMap]
  rfl

/-- From right to left is from left to right. -/
theorem applyFromRight_eq {xs : List β} {ms : List (Span × List β)} {pos : Nat}
    (hpos : pos ≤ xs.length) (h : Ordered xs.length pos ms) :
    applyFromRight xs ms =
      xs.take pos ++ assemble (fun b => [b]) (segments pos (xs.drop pos) ms) := by
  induction ms generalizing pos with
  | nil =>
    rw [segments, assemble_inl, List.flatMap_singleton', List.take_append_drop]
    rfl
  | cons m ms ih =>
    obtain ⟨hindex, hend, hms⟩ := h
    have hlen : (xs.take (m.1.index + m.1.length)).length = m.1.index + m.1.length :=
      List.length_take_of_le hend
    have hbefore : (xs.take (m.1.index + m.1.length)).take m.1.index = xs.take m.1.index := by
      rw [List.take_take, Nat.min_eq_left (by omega)]
    have hsplit : xs.take m.1.index = xs.take pos ++ (xs.drop pos).take (m.1.index - pos) := by
      rw [← List.take_add, Nat.add_sub_cancel' hindex]
    have hdrop : (xs.drop pos).drop (m.1.index + m.1.length - pos) =
        xs.drop (m.1.index + m.1.length) := by
      rw [List.drop_drop, Nat.add_sub_cancel' (by omega)]
    have hbehind : (xs.take (m.1.index + m.1.length)).drop (m.1.index + m.1.length) = [] :=
      List.drop_eq_nil_of_le (le_of_eq hlen)
    rw [applyFromRight, List.foldr_cons, ← applyFromRight, ih hend hms,
      List.take_append_of_le_length (by omega), hbefore, hsplit,
      List.drop_append_of_le_length (le_of_eq hlen.symm), hbehind, List.nil_append, segments,
      assemble_append, assemble_inl, assemble_inr, List.flatMap_singleton', hdrop]
    simp only [List.append_assoc]

/-! ## Segments of images -/

theorem segments_map (g : α → γ) (h : List β → List β) (pos : Nat) (xs : List α)
    (ms : List (Span × List β)) :
    segments pos (xs.map g) (ms.map fun m => (m.1, h m.2)) =
      (segments pos xs ms).map (Sum.map g h) := by
  induction ms generalizing pos xs with
  | nil =>
    rw [List.map_nil, segments, segments, List.map_map, List.map_map]
    rfl
  | cons m ms ih =>
    rw [List.map_cons, segments, segments, ← List.map_take, ← List.map_drop, ih, List.map_append,
      List.map_cons, List.map_map, List.map_map]
    rfl

theorem assemble_map (f : γ → List β) (g : α → γ) (segs : List (α ⊕ List β)) :
    assemble f (segs.map (Sum.map g id)) = assemble (fun a => f (g a)) segs := by
  rw [assemble, assemble, List.map_map]
  refine congrArg List.flatten (List.map_congr_left fun seg _ => ?_)
  cases seg with
  | inl a => rfl
  | inr new => rfl

/-- What stands in the result stood in the list or was put in. -/
theorem mem_applyFromRight {xs : List β} {ms : List (Span × List β)} {b : β}
    (h : b ∈ applyFromRight xs ms) : b ∈ xs ∨ ∃ m ∈ ms, b ∈ m.2 := by
  induction ms with
  | nil => exact Or.inl h
  | cons m ms ih =>
    rw [applyFromRight, List.foldr_cons, ← applyFromRight] at h
    have hrest : b ∈ applyFromRight xs ms → b ∈ xs ∨ ∃ m' ∈ m :: ms, b ∈ m'.2 := by
      intro hb
      rcases ih hb with hb | ⟨m', hm', hb⟩
      · exact Or.inl hb
      · exact Or.inr ⟨m', List.mem_cons_of_mem _ hm', hb⟩
    rcases List.mem_append.1 h with h | h
    · rcases List.mem_append.1 h with h | h
      · exact hrest (List.mem_of_mem_take h)
      · exact Or.inr ⟨m, List.mem_cons_self .., h⟩
    · exact hrest (List.mem_of_mem_drop h)

/-- A text written out and then replaced letter by letter. -/
theorem flatMap_assemble (f : α → List β) (h : β → List β) (segs : List (α ⊕ List β)) :
    (assemble f segs).flatMap h =
      assemble (fun a => (f a).flatMap h) (segs.map (Sum.map id (·.flatMap h))) := by
  induction segs with
  | nil => rfl
  | cons seg segs ih =>
    cases seg with
    | inl a =>
      show (f a ++ assemble f segs).flatMap h = _
      rw [List.flatMap_append, ih]
      rfl
    | inr new =>
      show (new ++ assemble f segs).flatMap h = _
      rw [List.flatMap_append, ih]
      rfl

/-- Two ways of writing out the same segments, one of them never longer, agree just when they agree
on everything that is kept. -/
theorem assemble_eq_iff_of_length_le {f g : α → List β} {segs : List (α ⊕ List β)}
    (hlen : ∀ a ∈ keptOf segs, (f a).length ≤ (g a).length) :
    assemble f segs = assemble g segs ↔ ∀ a ∈ keptOf segs, f a = g a := by
  rw [assemble, assemble, flatten_map_eq_iff_of_length_le]
  · constructor
    · exact fun h a ha => h _ (mem_keptOf.1 ha)
    · intro h seg hseg
      cases seg with
      | inl a => exact h a (mem_keptOf.2 hseg)
      | inr new => rfl
  · intro seg hseg
    cases seg with
    | inl a => exact hlen a (mem_keptOf.2 hseg)
    | inr new => exact Nat.le_refl _

/-! ## Texts with parts between them -/

section Weave

variable {ι : Type*}

/-- Texts with a part behind each, and a text at the end. -/
def weave (part : ι → List β) (pieces : List (List β × ι)) (last : List β) : List β :=
  pieces.flatMap (fun piece => piece.1 ++ part piece.2) ++ last

theorem weave_cons (part : ι → List β) (kept : List β) (i : ι) (pieces : List (List β × ι))
    (last : List β) :
    weave part ((kept, i) :: pieces) last = kept ++ (part i ++ weave part pieces last) := by
  rw [weave, List.flatMap_cons, List.append_assoc, List.append_assoc, ← weave]

/-- A list is the texts between its parts with the old parts, and what comes of it is the same texts
with the new parts. -/
theorem exists_weave (old new : ι → List β) {xs : List β} {ps : List (Span × ι)} {pos : Nat}
    (h : Ordered xs.length pos (ps.map fun p => (p.1, new p.2)))
    (hold : ∀ p ∈ ps, p.1.length = (old p.2).length ∧ old p.2 <+: xs.drop p.1.index) :
    ∃ pieces last, pieces.map Prod.snd = ps.map Prod.snd ∧ xs.drop pos = weave old pieces last ∧
      assemble (fun b => [b]) (segments pos (xs.drop pos) (ps.map fun p => (p.1, new p.2))) =
        weave new pieces last ∧
      ∀ before kept i after, pieces = before ++ (kept, i) :: after →
        ({ index := pos + (weave old before kept).length, length := (old i).length }, i) ∈ ps := by
  induction ps generalizing pos with
  | nil =>
    refine ⟨[], xs.drop pos, rfl, rfl, ?_, fun before kept i after hnil => ?_⟩
    · rw [List.map_nil, segments, assemble_inl, List.flatMap_singleton']
      rfl
    · exact absurd hnil.symm (by simp)
  | cons p ps ih =>
    obtain ⟨s, i⟩ := p
    obtain ⟨hindex, hend, hps⟩ := h
    obtain ⟨⟨hlen, rest, hrest⟩, hold⟩ := List.forall_mem_cons.mp hold
    dsimp only at hindex hend hps hlen hrest
    obtain ⟨pieces, last, hsnd, htext, hout, hplaces⟩ := ih hps hold
    have hkept : ((xs.drop pos).take (s.index - pos)).length = s.index - pos := by
      rw [List.length_take, List.length_drop]
      omega
    have hbehind : (xs.drop pos).drop (s.index + s.length - pos) = xs.drop (s.index + s.length) := by
      rw [List.drop_drop, Nat.add_sub_cancel' (by omega)]
    have hpart : xs.drop s.index = old i ++ xs.drop (s.index + s.length) := by
      rw [← List.drop_drop, ← hrest, hlen, List.drop_left]
    have hsplit : xs.drop pos =
        (xs.drop pos).take (s.index - pos) ++ (old i ++ xs.drop (s.index + s.length)) := by
      have hdrop : (xs.drop pos).drop (s.index - pos) = xs.drop s.index := by
        rw [List.drop_drop, Nat.add_sub_cancel' hindex]
      rw [← hpart, ← hdrop, List.take_append_drop]
    refine ⟨((xs.drop pos).take (s.index - pos), i) :: pieces, last, ?_, ?_, ?_, ?_⟩
    · rw [List.map_cons, List.map_cons, hsnd]
    · rw [weave_cons, ← htext, ← hsplit]
    · rw [List.map_cons, segments, assemble_append, assemble_inl, assemble_inr,
        List.flatMap_singleton', hbehind, hout, weave_cons]
    · intro before kept j after hpieces
      cases before with
      | nil =>
        obtain ⟨hpiece, -⟩ := List.cons.inj hpieces
        obtain ⟨rfl, rfl⟩ := Prod.mk.inj hpiece
        have hsame : pos + (weave old [] ((xs.drop pos).take (s.index - pos))).length = s.index := by
          rw [weave, List.flatMap_nil, List.nil_append, hkept, Nat.add_sub_cancel' hindex]
        rw [hsame, ← hlen]
        exact List.mem_cons_self
      | cons piece before =>
        obtain ⟨rfl, hbehindPiece⟩ := List.cons.inj hpieces
        have hmem := hplaces before kept j after hbehindPiece
        have hsame : pos + (weave old (((xs.drop pos).take (s.index - pos), i) :: before) kept).length =
            s.index + s.length + (weave old before kept).length := by
          rw [weave_cons, List.length_append, List.length_append, hkept, ← hlen]
          omega
        rw [hsame]
        exact List.mem_cons_of_mem _ hmem

end Weave

end EchoAi
