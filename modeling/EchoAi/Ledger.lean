import Mathlib.Data.List.Basic
import Mathlib.Logic.Relation
import Mathlib.Tactic.Common

/-!
# Ledgers that are rolled back

A text grows together with a table, and marks in the text stand for rows of the table.  Frames are
opened and closed, one inside the other; a frame that is dropped takes back what has come since it was
opened, from the text and from the table.

* `Ledger`: the text, the table, the marks and the open frames.
* `Ledger.Step`: what can be done: `write`, `cite`, `note`, `enter`, `keep`, `drop`.
* `Ledger.Sound`: every mark is in the text and stands for a row, and every row has a mark.
* `Ledger.Made`: the text is made of pieces of one kind, up to each frame.
* `Ledger.sound_of_steps`, `Ledger.made_of_steps`: steps keep both.
-/

namespace EchoAi

/-- A mark in a text: from where to where it goes, its row, and what it is for. -/
structure Mark (γ : Type*) where
  start : Nat
  stop : Nat
  row : Nat
  tag : γ
  deriving DecidableEq, Repr

/-- A text with its table and its marks.  `frames` has the lengths of the text and of the table when
each open frame was opened, the innermost first. -/
structure Ledger (α β γ : Type*) where
  text : List α := []
  table : List β := []
  marks : List (Mark γ) := []
  frames : List (Nat × Nat) := []

namespace Ledger

variable {α β γ : Type*} {piece : List α → Prop} {label : Nat → List α} {fits : β → γ → Prop}

/-- The mark of a row at the end of a text. -/
def markAt (label : Nat → List α) (text : List α) (row : Nat) (tag : γ) : Mark γ :=
  { start := text.length, stop := text.length + (label row).length, row, tag }

/-- What can be done. -/
inductive Step (piece : List α → Prop) (label : Nat → List α) (fits : β → γ → Prop) :
    Ledger α β γ → Ledger α β γ → Prop where
  | write {l : Ledger α β γ} {xs : List α} (h : piece xs) :
    Step piece label fits l { l with text := l.text ++ xs }
  /-- a mark for a row that is there -/
  | cite {l : Ledger α β γ} {row : Nat} {b : β} {tag : γ} (hrow : l.table[row]? = some b)
      (hfits : fits b tag) :
    Step piece label fits l
      { l with text := l.text ++ label row, marks := l.marks ++ [markAt label l.text row tag] }
  /-- a mark for a new row -/
  | note {l : Ledger α β γ} {b : β} {tag : γ} (hfits : fits b tag) :
    Step piece label fits l
      { l with
        text := l.text ++ label l.table.length
        table := l.table ++ [b]
        marks := l.marks ++ [markAt label l.text l.table.length tag] }
  | enter {l : Ledger α β γ} :
    Step piece label fits l { l with frames := (l.text.length, l.table.length) :: l.frames }
  | keep {l : Ledger α β γ} {frame : Nat × Nat} {rest : List (Nat × Nat)}
      (h : l.frames = frame :: rest) :
    Step piece label fits l { l with frames := rest }
  | drop {l : Ledger α β γ} {frame : Nat × Nat} {rest : List (Nat × Nat)}
      (h : l.frames = frame :: rest) :
    Step piece label fits l
      { text := l.text.take frame.1
        table := l.table.take frame.2
        marks := l.marks.filter fun m => m.stop ≤ frame.1
        frames := rest }

/-- Any number of steps. -/
abbrev Steps (piece : List α → Prop) (label : Nat → List α) (fits : β → γ → Prop) :
    Ledger α β γ → Ledger α β γ → Prop :=
  Relation.ReflTransGen (Step piece label fits)

/-! ## Frames -/

/-- Every frame was opened behind those around it, and not behind the end. -/
structure Framed (l : Ledger α β γ) : Prop where
  within : ∀ f ∈ l.frames, f.1 ≤ l.text.length ∧ f.2 ≤ l.table.length
  nested : l.frames.Pairwise fun inner outer => outer.1 ≤ inner.1 ∧ outer.2 ≤ inner.2

theorem Framed.step {l l' : Ledger α β γ} (h : l.Framed) (hstep : Step piece label fits l l') :
    l'.Framed := by
  have hgrow : ∀ {text : List α} {table : List β}, l.text.length ≤ text.length →
      l.table.length ≤ table.length → ∀ f ∈ l.frames, f.1 ≤ text.length ∧ f.2 ≤ table.length :=
    fun htext htable f hf => (h.within f hf).imp (Nat.le_trans · htext) (Nat.le_trans · htable)
  cases hstep with
  | write hxs => exact ⟨hgrow (by simp) (Nat.le_refl _), h.nested⟩
  | cite hrow hfits => exact ⟨hgrow (by simp) (Nat.le_refl _), h.nested⟩
  | note hfits => exact ⟨hgrow (by simp) (by simp), h.nested⟩
  | enter =>
    refine ⟨fun f hf => ?_, List.pairwise_cons.2 ⟨h.within, h.nested⟩⟩
    rcases List.mem_cons.1 hf with rfl | hf
    · exact ⟨Nat.le_refl _, Nat.le_refl _⟩
    · exact h.within f hf
  | keep hframes =>
    have hin := h.within
    have hnested := h.nested
    rw [hframes] at hin hnested
    exact ⟨fun f hf => hin f (List.mem_cons_of_mem _ hf), (List.pairwise_cons.1 hnested).2⟩
  | @drop frame rest hframes =>
    have hin := h.within
    have hnested := h.nested
    rw [hframes] at hin hnested
    obtain ⟨hinner, hrest⟩ := List.pairwise_cons.1 hnested
    refine ⟨fun f hf => ?_, hrest⟩
    rw [List.length_take, List.length_take]
    have hf' := hin f (List.mem_cons_of_mem _ hf)
    have houter := hinner f hf
    omega

/-! ## Marks and rows -/

/-- Every mark stands in the text and for a row that fits it, and every row has a mark; frames hold
marks as a whole, and each row together with one of its marks. -/
structure Sound (label : Nat → List α) (fits : β → γ → Prop) (l : Ledger α β γ) : Prop where
  framed : l.Framed
  label : ∀ m ∈ l.marks, m.stop = m.start + (label m.row).length ∧
    label m.row <+: l.text.drop m.start
  fits : ∀ m ∈ l.marks, ∃ b, l.table[m.row]? = some b ∧ fits b m.tag
  cited : ∀ row < l.table.length, ∃ m ∈ l.marks, m.row = row ∧
    ∀ f ∈ l.frames, row < f.2 → m.stop ≤ f.1
  apart : ∀ m ∈ l.marks, ∀ f ∈ l.frames, m.stop ≤ f.1 ∧ m.row < f.2 ∨ f.1 ≤ m.start

/-- A mark ends inside the text. -/
theorem Sound.stop_le {l : Ledger α β γ} (h : l.Sound label fits) {m : Mark γ} (hm : m ∈ l.marks)
    (hlabel : label m.row ≠ []) : m.start < m.stop ∧ m.stop ≤ l.text.length := by
  obtain ⟨hstop, hin⟩ := h.label m hm
  have hle := hin.length_le
  rw [List.length_drop] at hle
  have hpos := List.length_pos_iff.2 hlabel
  omega

theorem isPrefix_drop_append {xs ys zs : List α} {n : Nat} (h : xs <+: ys.drop n) :
    xs <+: (ys ++ zs).drop n := by
  rw [List.drop_append]
  exact h.trans (List.prefix_append _ _)

/-- More text changes nothing for the marks. -/
theorem Sound.grow {l : Ledger α β γ} (h : l.Sound label fits) (xs : List α) :
    ({ l with text := l.text ++ xs } : Ledger α β γ).Sound label fits where
  framed := h.framed.step (@Step.write α β γ (fun _ => True) label fits l xs trivial)
  label m hm := (h.label m hm).imp id isPrefix_drop_append
  fits := h.fits
  cited := h.cited
  apart := h.apart

/-- **A step keeps marks and rows together.** -/
theorem Sound.step {l l' : Ledger α β γ} (hlabel : ∀ row, label row ≠ []) (h : l.Sound label fits)
    (hstep : Step piece label fits l l') : l'.Sound label fits := by
  have hframed := h.framed.step hstep
  have hnew : ∀ row (tag : γ), (markAt label l.text row tag).stop =
        (markAt label l.text row tag).start + (label row).length ∧
      label row <+: (l.text ++ label row).drop (markAt label l.text row tag).start := by
    refine fun row tag => ⟨rfl, ?_⟩
    show label row <+: (l.text ++ label row).drop l.text.length
    exact List.drop_left.symm ▸ List.prefix_rfl
  cases hstep with
  | write hxs => exact h.grow _
  | @cite row b tag hrow hfits =>
    have hgrow := h.grow (label row)
    refine ⟨hframed, fun m hm => ?_, fun m hm => ?_, fun r hr => ?_, fun m hm f hf => ?_⟩
    · rcases List.mem_append.1 hm with hm | hm
      · exact hgrow.label m hm
      · rw [List.mem_singleton.1 hm]
        exact hnew row tag
    · rcases List.mem_append.1 hm with hm | hm
      · exact h.fits m hm
      · rw [List.mem_singleton.1 hm]
        exact ⟨b, hrow, hfits⟩
    · obtain ⟨m, hm, hrow, hstop⟩ := h.cited r hr
      exact ⟨m, List.mem_append_left _ hm, hrow, hstop⟩
    · rcases List.mem_append.1 hm with hm | hm
      · exact h.apart m hm f hf
      · rw [List.mem_singleton.1 hm]
        exact Or.inr (h.framed.within f hf).1
  | @note b tag hfits =>
    have hgrow := h.grow (label l.table.length)
    refine ⟨hframed, fun m hm => ?_, fun m hm => ?_, fun r hr => ?_, fun m hm f hf => ?_⟩
    · rcases List.mem_append.1 hm with hm | hm
      · exact hgrow.label m hm
      · rw [List.mem_singleton.1 hm]
        exact hnew l.table.length tag
    · rcases List.mem_append.1 hm with hm | hm
      · obtain ⟨b', hb', hfits'⟩ := h.fits m hm
        exact ⟨b', (List.getElem?_append_left (List.getElem?_eq_some_iff.1 hb').1).trans hb', hfits'⟩
      · rw [List.mem_singleton.1 hm]
        exact ⟨b, List.getElem?_concat_length, hfits⟩
    · rcases Nat.lt_or_ge r l.table.length with hlt | hge
      · obtain ⟨m, hm, hrow, hstop⟩ := h.cited r hlt
        exact ⟨m, List.mem_append_left _ hm, hrow, hstop⟩
      · -- the row that has just been added is behind every frame
        rw [List.length_append, List.length_singleton] at hr
        obtain rfl : r = l.table.length := by omega
        refine ⟨_, List.mem_append_right _ List.mem_cons_self, rfl, fun f hf hlt => ?_⟩
        exact absurd hlt (Nat.not_lt.2 (h.framed.within f hf).2)
    · rcases List.mem_append.1 hm with hm | hm
      · exact h.apart m hm f hf
      · rw [List.mem_singleton.1 hm]
        exact Or.inr (h.framed.within f hf).1
  | enter =>
    have hrow : ∀ m ∈ l.marks, m.row < l.table.length := by
      intro m hm
      obtain ⟨b, hb, -⟩ := h.fits m hm
      exact (List.getElem?_eq_some_iff.1 hb).1
    refine ⟨hframed, h.label, h.fits, fun r hr => ?_, fun m hm f hf => ?_⟩
    · obtain ⟨m, hm, hmr, hstop⟩ := h.cited r hr
      refine ⟨m, hm, hmr, fun f hf hlt => ?_⟩
      rcases List.mem_cons.1 hf with rfl | hf
      · exact (h.stop_le hm (hlabel _)).2
      · exact hstop f hf hlt
    · rcases List.mem_cons.1 hf with rfl | hf
      · exact Or.inl ⟨(h.stop_le hm (hlabel _)).2, hrow m hm⟩
      · exact h.apart m hm f hf
  | @keep frame rest hframes =>
    have hrest : ∀ f ∈ rest, f ∈ l.frames := fun f hf => hframes ▸ List.mem_cons_of_mem _ hf
    refine ⟨hframed, h.label, h.fits, fun r hr => ?_, fun m hm f hf => h.apart m hm f (hrest f hf)⟩
    obtain ⟨m, hm, hmr, hstop⟩ := h.cited r hr
    exact ⟨m, hm, hmr, fun f hf => hstop f (hrest f hf)⟩
  | @drop frame rest hframes =>
    have hframe : frame ∈ l.frames := hframes ▸ List.mem_cons_self
    have hrest : ∀ f ∈ rest, f ∈ l.frames := fun f hf => hframes ▸ List.mem_cons_of_mem _ hf
    -- what is left of the marks has its row before the frame
    have hbefore : ∀ m ∈ l.marks, m.stop ≤ frame.1 → m.row < frame.2 := by
      intro m hm hle
      rcases h.apart m hm frame hframe with ⟨-, hrow⟩ | hge
      · exact hrow
      · have hpos := (h.stop_le hm (hlabel _)).1
        omega
    have hmem : ∀ {m}, m ∈ l.marks.filter (fun m => m.stop ≤ frame.1) ↔
        m ∈ l.marks ∧ m.stop ≤ frame.1 := by
      intro m
      rw [List.mem_filter, decide_eq_true_iff]
    refine ⟨hframed, fun m hm => ?_, fun m hm => ?_, fun r hr => ?_, fun m hm f hf => ?_⟩
    · obtain ⟨hm, hle⟩ := hmem.1 hm
      obtain ⟨hstop, hin⟩ := h.label m hm
      refine ⟨hstop, ?_⟩
      show label m.row <+: (l.text.take frame.1).drop m.start
      rw [List.drop_take]
      refine List.prefix_take_iff.2 ⟨hin, ?_⟩
      omega
    · obtain ⟨hm, hle⟩ := hmem.1 hm
      obtain ⟨b, hb, hfits⟩ := h.fits m hm
      exact ⟨b, (List.getElem?_take_of_lt (hbefore m hm hle)).trans hb, hfits⟩
    · obtain ⟨hlt, hle⟩ : r < frame.2 ∧ r < l.table.length := by
        change r < (l.table.take frame.2).length at hr
        rw [List.length_take] at hr
        omega
      obtain ⟨m, hm, hmr, hstop⟩ := h.cited r hle
      exact ⟨m, hmem.2 ⟨hm, hstop frame hframe hlt⟩, hmr, fun f hf => hstop f (hrest f hf)⟩
    · exact h.apart m (hmem.1 hm).1 f (hrest f hf)

theorem sound_empty : ({} : Ledger α β γ).Sound label fits where
  framed := ⟨nofun, List.Pairwise.nil⟩
  label := nofun
  fits := nofun
  cited := nofun
  apart := nofun

/-- **After any steps marks and rows belong together.** -/
theorem sound_of_steps {l l' : Ledger α β γ} (hlabel : ∀ row, label row ≠ [])
    (h : l.Sound label fits) (hsteps : Steps piece label fits l l') : l'.Sound label fits := by
  induction hsteps with
  | refl => exact h
  | tail _ hstep ih => exact ih.step hlabel hstep

/-! ## The kind of a text -/

/-- The text is of a kind, and so it was when each frame was opened. -/
structure Made (kind : List α → Prop) (l : Ledger α β γ) : Prop where
  framed : l.Framed
  text : kind l.text
  prefixes : ∀ f ∈ l.frames, kind (l.text.take f.1)

/-- A step keeps the kind of a text when what it writes does. -/
theorem Made.step {kind : List α → Prop} {l l' : Ledger α β γ}
    (hpiece : ∀ xs ys, kind xs → piece ys → kind (xs ++ ys))
    (hlabel : ∀ xs row, kind xs → kind (xs ++ label row)) (h : l.Made kind)
    (hstep : Step piece label fits l l') : l'.Made kind := by
  have hframed := h.framed.step hstep
  have hold : ∀ (xs : List α), ∀ f ∈ l.frames, kind ((l.text ++ xs).take f.1) := by
    intro xs f hf
    rw [List.take_append_of_le_length (h.framed.within f hf).1]
    exact h.prefixes f hf
  cases hstep with
  | write hxs => exact ⟨hframed, hpiece _ _ h.text hxs, hold _⟩
  | cite hrow hfits => exact ⟨hframed, hlabel _ _ h.text, hold _⟩
  | note hfits => exact ⟨hframed, hlabel _ _ h.text, hold _⟩
  | enter =>
    refine ⟨hframed, h.text, fun f hf => ?_⟩
    rcases List.mem_cons.1 hf with rfl | hf
    · rw [List.take_length]
      exact h.text
    · exact h.prefixes f hf
  | keep hframes =>
    exact ⟨hframed, h.text, fun f hf => h.prefixes f (hframes ▸ List.mem_cons_of_mem _ hf)⟩
  | @drop frame rest hframes =>
    have hnested := h.framed.nested
    rw [hframes] at hnested
    refine ⟨hframed, h.prefixes frame (hframes ▸ List.mem_cons_self), fun f hf => ?_⟩
    have houter := (List.pairwise_cons.1 hnested).1 f hf
    show kind ((l.text.take frame.1).take f.1)
    rw [List.take_take, Nat.min_eq_left houter.1]
    exact h.prefixes f (hframes ▸ List.mem_cons_of_mem _ hf)

theorem made_empty {kind : List α → Prop} (h : kind []) : ({} : Ledger α β γ).Made kind :=
  ⟨⟨nofun, List.Pairwise.nil⟩, h, nofun⟩

/-- **After any steps the text is of the kind.** -/
theorem made_of_steps {kind : List α → Prop} {l l' : Ledger α β γ}
    (hpiece : ∀ xs ys, kind xs → piece ys → kind (xs ++ ys))
    (hlabel : ∀ xs row, kind xs → kind (xs ++ label row)) (h : l.Made kind)
    (hsteps : Steps piece label fits l l') : l'.Made kind := by
  induction hsteps with
  | refl => exact h
  | tail _ hstep ih => exact ih.step hpiece hlabel hstep

end Ledger

end EchoAi
