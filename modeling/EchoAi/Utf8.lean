import Mathlib.Data.List.Basic
import Mathlib.Tactic.Common

/-!
# Well-formed UTF-8

* `Utf8Char`, `Utf8`: the byte sequences of a character and of a text.
* `Utf8.append`, `Utf8.append_iff`: texts behind each other.
* `Utf8.take`: a text that is cut in front of a byte that begins a character.
* `utf8_append_cons_iff`: a text around an ASCII byte.
-/

namespace EchoAi

/-- A byte that continues a character. -/
def Utf8Tail (b : UInt8) : Prop := 0x80 ≤ b ∧ b ≤ 0xBF

instance (b : UInt8) : Decidable (Utf8Tail b) := inferInstanceAs (Decidable (_ ∧ _))

/-- The bytes of one character. -/
inductive Utf8Char : List UInt8 → Prop where
  | one {a : UInt8} : a < 0x80 → Utf8Char [a]
  | two {a b : UInt8} : 0xC2 ≤ a → a ≤ 0xDF → Utf8Tail b → Utf8Char [a, b]
  | three {a b c : UInt8} : 0xE0 ≤ a → a ≤ 0xEF → (a = 0xE0 → 0xA0 ≤ b) → (a = 0xED → b ≤ 0x9F) →
      Utf8Tail b → Utf8Tail c → Utf8Char [a, b, c]
  | four {a b c d : UInt8} : 0xF0 ≤ a → a ≤ 0xF4 → (a = 0xF0 → 0x90 ≤ b) → (a = 0xF4 → b ≤ 0x8F) →
      Utf8Tail b → Utf8Tail c → Utf8Tail d → Utf8Char [a, b, c, d]

/-- The bytes of a text. -/
inductive Utf8 : List UInt8 → Prop where
  | nil : Utf8 []
  | cons {cs rest : List UInt8} : Utf8Char cs → Utf8 rest → Utf8 (cs ++ rest)

section Texts

variable {cs xs ys : List UInt8} {a b : UInt8}

theorem Utf8Char.utf8 (h : Utf8Char cs) : Utf8 cs := by
  have hcons := Utf8.cons h Utf8.nil
  rwa [List.append_nil] at hcons

theorem utf8_singleton (h : a < 0x80) : Utf8 [a] := (Utf8Char.one h).utf8

/-- A text behind a text. -/
theorem Utf8.append (hx : Utf8 xs) (hy : Utf8 ys) : Utf8 (xs ++ ys) := by
  induction hx with
  | nil => exact hy
  | cons hc _ ih =>
    rw [List.append_assoc]
    exact Utf8.cons hc ih

/-- ASCII bytes are a text. -/
theorem utf8_of_ascii (h : ∀ a ∈ xs, a < 0x80) : Utf8 xs := by
  induction xs with
  | nil => exact Utf8.nil
  | cons a xs ih =>
    have hxs : Utf8 xs := ih fun b hb => h b (List.mem_cons_of_mem a hb)
    exact (utf8_singleton (h a List.mem_cons_self)).append hxs

/-! ## Where a character begins -/

/-- How many bytes a character has that begins with this byte. -/
def utf8Width (a : UInt8) : Nat :=
  if a < 0x80 then 1 else if a ≤ 0xDF then 2 else if a ≤ 0xEF then 3 else 4

/-- A character is its first byte, which does not continue another, and bytes that continue it. -/
theorem Utf8Char.exists_cons (h : Utf8Char cs) : ∃ a tail, cs = a :: tail ∧ ¬Utf8Tail a ∧
    cs.length = utf8Width a ∧ ∀ b ∈ tail, Utf8Tail b := by
  cases h with
  | one ha => exact ⟨_, [], rfl, by grind [Utf8Tail], by grind [utf8Width], nofun⟩
  | two hlo hhi hb => exact ⟨_, _, rfl, by grind [Utf8Tail], by grind [utf8Width], by simpa using hb⟩
  | three hlo hhi _ _ hb hc =>
    exact ⟨_, _, rfl, by grind [Utf8Tail], by grind [utf8Width], by simpa using ⟨hb, hc⟩⟩
  | four hlo hhi _ _ hb hc hd =>
    exact ⟨_, _, rfl, by grind [Utf8Tail], by grind [utf8Width], by simpa using ⟨hb, hc, hd⟩⟩

/-- An ASCII byte is a character of its own. -/
theorem Utf8Char.eq_of_mem (h : Utf8Char cs) (ha : a < 0x80) (hmem : a ∈ cs) : cs = [a] := by
  obtain ⟨b, tail, rfl, -, hwidth, htail⟩ := h.exists_cons
  rcases List.mem_cons.1 hmem with rfl | hmem
  · rw [utf8Width, if_pos ha] at hwidth
    rw [List.length_eq_zero_iff.1 (Nat.succ.inj hwidth)]
  · exact absurd ha (UInt8.not_lt.2 (htail a hmem).1)

/-- A text that is cut in front of a byte that begins a character, or at its end. -/
theorem Utf8.take (h : Utf8 xs) {cut : Nat} (hcut : ∀ b, xs[cut]? = some b → ¬Utf8Tail b) :
    Utf8 (xs.take cut) := by
  induction h generalizing cut with
  | nil =>
    rw [List.take_nil]
    exact Utf8.nil
  | @cons cs rest hc _ ih =>
    obtain ⟨a, tail, rfl, -, -, htail⟩ := hc.exists_cons
    rcases Nat.lt_or_ge cut (a :: tail).length with hlt | hge
    · cases cut with
      | zero => exact Utf8.nil
      | succ cut =>
        have hin : cut < tail.length := Nat.lt_of_succ_lt_succ hlt
        have hget : (a :: tail ++ rest)[cut + 1]? = some tail[cut] := by
          rw [List.getElem?_append_left hlt, List.getElem?_cons_succ, List.getElem?_eq_getElem hin]
        exact absurd (htail _ (List.getElem_mem hin)) (hcut _ hget)
    · rw [List.take_append, List.take_of_length_le hge]
      refine Utf8.cons hc (ih fun b hb => hcut b ?_)
      rw [List.getElem?_append_right hge]
      exact hb

/-- What follows a character is a text. -/
theorem Utf8Char.utf8_of_append (hc : Utf8Char cs) (h : Utf8 (cs ++ ys)) : Utf8 ys := by
  generalize hzs : cs ++ ys = zs at h
  cases h with
  | nil =>
    obtain ⟨a, tail, rfl, -⟩ := hc.exists_cons
    exact absurd hzs nofun
  | @cons cs' rest hc' hrest =>
    obtain ⟨a, tail, rfl, -, hwidth, -⟩ := hc.exists_cons
    obtain ⟨a', tail', rfl, -, hwidth', -⟩ := hc'.exists_cons
    obtain rfl : a = a' := (List.cons.inj hzs).1
    have hlength : (a :: tail).length = (a :: tail').length := hwidth.trans hwidth'.symm
    obtain ⟨-, rfl⟩ := List.append_inj hzs hlength
    exact hrest

/-- What follows a text is a text just when both together are. -/
theorem Utf8.append_iff (hx : Utf8 xs) : Utf8 (xs ++ ys) ↔ Utf8 ys := by
  refine ⟨fun h => ?_, hx.append⟩
  induction hx with
  | nil => exact h
  | cons hc _ ih =>
    rw [List.append_assoc] at h
    exact ih (hc.utf8_of_append h)

/-- Around an ASCII byte there are texts on both sides. -/
theorem utf8_append_cons_iff (ha : a < 0x80) : Utf8 (xs ++ a :: ys) ↔ Utf8 xs ∧ Utf8 ys := by
  constructor
  · intro h
    have hx : Utf8 xs := by
      have htake : Utf8 ((xs ++ a :: ys).take xs.length) := h.take fun b hb => by
        rw [List.getElem?_append_right (Nat.le_refl _), Nat.sub_self] at hb
        obtain rfl : a = b := Option.some.inj hb
        exact fun htail => absurd ha (UInt8.not_lt.2 htail.1)
      rwa [List.take_left] at htake
    exact ⟨hx, (utf8_singleton ha).append_iff.1 (hx.append_iff.1 h)⟩
  · rintro ⟨hx, hy⟩
    exact hx.append ((utf8_singleton ha).append hy)

end Texts

end EchoAi
