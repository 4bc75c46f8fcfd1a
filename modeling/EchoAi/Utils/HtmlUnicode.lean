import EchoAi.Utils.HtmlAssembly

/-!
# The validation of UTF-8 on a memory

* `tailsValid`, `utf8ValidFrom`, `utf8ValidIn`: `utf8_valid`, with every byte that it reads.
* `utf8ValidIn_eq`: it reads bytes of its text only, and decides what `utf8Valid` decides.
* `cutBack_append`, `le_cutBack_add`: a cut moves back within one character.
* `utf8_exact`: validation, encoding and cutting together.
-/

namespace EchoAi

section Model

variable (mem : Nat → Option UInt8)

/-- The loop over the bytes behind a lead byte; there is no answer when a byte is not there. -/
def tailsValid : (i k : Nat) → Option Bool
  | _, 0 => some true
  | i, k + 1 =>
    (mem i).bind fun cc => if 0x80 ≤ cc ∧ cc ≤ 0xBF then tailsValid (i + 1) k else some false

/-- The loop of `utf8_valid`. -/
def utf8ValidFrom (n i : Nat) : Option Bool :=
  if i < n then
    (mem i).bind fun c =>
      if c < 0x80 then utf8ValidFrom n (i + 1)
      else
        match utf8Lead c with
        | none => some false
        | some (need, lo, hi) =>
          if n ≤ i + need then some false
          else
            (tailsValid mem (i + 1) need).bind fun tails =>
              if tails then
                (mem (i + 1)).bind fun fc =>
                  if lo ≤ fc ∧ fc ≤ hi then utf8ValidFrom n (i + need + 1) else some false
              else some false
  else some true
termination_by n - i

/-- `utf8_valid` on the first `n` bytes of a memory. -/
def utf8ValidIn (n : Nat) : Option Bool := utf8ValidFrom mem n 0

end Model

section Reads

variable {s : List UInt8} {mem : Nat → Option UInt8}

theorem tailsValid_eq (hmem : ∀ i < s.length, mem i = s[i]?) {i k : Nat} (h : i + k ≤ s.length) :
    tailsValid mem i k =
      some (((s.drop i).take k).all fun cc => 0x80 ≤ cc && cc ≤ 0xBF) := by
  induction k generalizing i with
  | zero =>
    rw [tailsValid, List.take_zero]
    rfl
  | succ k ih =>
    have hi : i < s.length := by omega
    rw [tailsValid, hmem i hi, List.getElem?_eq_getElem hi, Option.bind_some,
      List.drop_eq_getElem_cons hi, List.take_succ_cons, List.all_cons]
    split
    · next hcc =>
      rw [ih (by omega), decide_eq_true hcc.1, decide_eq_true hcc.2]
      rfl
    · next hcc =>
      have hfalse : (decide (0x80 ≤ s[i]) && decide (s[i] ≤ 0xBF)) = false := by
        rw [← Bool.not_eq_true, Bool.and_eq_true, decide_eq_true_eq, decide_eq_true_eq]
        exact hcc
      rw [hfalse, Bool.false_and]

/-- **The bytes that are read are those of the text**, whatever is behind it. -/
theorem utf8ValidFrom_eq (hmem : ∀ i < s.length, mem i = s[i]?) (i : Nat) :
    utf8ValidFrom mem s.length i = some (utf8Valid (s.drop i)) := by
  induction hn : s.length - i using Nat.strong_induction_on generalizing i with
  | _ n ih =>
    rw [utf8ValidFrom]
    by_cases hi : i < s.length
    · rw [if_pos hi, hmem i hi, List.getElem?_eq_getElem hi, Option.bind_some,
        List.drop_eq_getElem_cons hi, utf8Valid]
      split
      · exact ih _ (by omega) (i + 1) rfl
      cases hlead : utf8Lead s[i] with
      | none => rfl
      | some range =>
        obtain ⟨need, lo, hi'⟩ := range
        dsimp only
        have hlength : (s.drop (i + 1)).length = s.length - (i + 1) := List.length_drop
        by_cases hlong : s.length ≤ i + need
        · have hnot : ¬need ≤ (s.drop (i + 1)).length := by omega
          rw [if_pos hlong, decide_eq_false hnot]
          rfl
        have hin : need ≤ (s.drop (i + 1)).length := by omega
        have hneed : 0 < need := by
          rw [utf8Lead] at hlead
          split_ifs at hlead <;> grind
        have hnext : i + 1 < s.length := by omega
        rw [if_neg hlong, tailsValid_eq hmem (by omega), Option.bind_some, decide_eq_true hin,
          Bool.true_and, List.head?_drop, List.getElem?_eq_getElem hnext, hmem (i + 1) hnext,
          List.getElem?_eq_getElem hnext, Option.bind_some, Option.all_some]
        cases ((s.drop (i + 1)).take need).all fun cc => 0x80 ≤ cc && cc ≤ 0xBF with
        | false => rfl
        | true =>
          rw [if_pos rfl, Bool.true_and]
          by_cases hfc : lo ≤ s[i + 1] ∧ s[i + 1] ≤ hi'
          · rw [if_pos hfc, ih _ (by omega) (i + need + 1) rfl, decide_eq_true hfc.1,
              decide_eq_true hfc.2, List.drop_drop]
            show some (utf8Valid (s.drop (i + need + 1))) = some (utf8Valid (s.drop (i + 1 + need)))
            rw [Nat.add_right_comm]
          · have hfalse : (decide (lo ≤ s[i + 1]) && decide (s[i + 1] ≤ hi')) = false := by
              rw [← Bool.not_eq_true, Bool.and_eq_true, decide_eq_true_eq, decide_eq_true_eq]
              exact hfc
            rw [if_neg hfc, hfalse, Bool.false_and]
    · rw [if_neg hi, List.drop_of_length_le (Nat.not_lt.1 hi), utf8Valid]

theorem utf8ValidIn_eq (hmem : ∀ i < s.length, mem i = s[i]?) :
    utf8ValidIn mem s.length = some (utf8Valid s) :=
  utf8ValidFrom_eq hmem 0

end Reads

/-! ## Cutting -/

section Cutting

variable {cs rest text : List UInt8}

/-- A byte where a text begins, or the NUL behind it, continues nothing. -/
theorem head_ne_tail (h : Utf8 text) : text.getD 0 0 &&& 0xC0 ≠ 0x80 := by
  cases h with
  | nil => decide
  | cons hc _ =>
    obtain ⟨a, tail, rfl, ha, -⟩ := hc.exists_cons
    show a &&& 0xC0 ≠ 0x80
    have hall : ∀ n < 256, UInt8.ofNat n &&& 0xC0 = 0x80 → 0x80 ≤ n ∧ n ≤ 0xBF := by
      decide +kernel
    intro hmask
    have hbounds := hall a.toNat a.toNat_lt (by rwa [UInt8.ofNat_toNat])
    exact ha ⟨UInt8.le_iff_toNat_le.2 hbounds.1, UInt8.le_iff_toNat_le.2 hbounds.2⟩

/-- A cut behind a character does not move back into it. -/
theorem cutBack_append (hc : cs ≠ []) (h : Utf8 rest) (k : Nat) :
    cutBack (cs ++ rest) (cs.length + k) = cs.length + cutBack rest k := by
  have hget : ∀ k, (cs ++ rest).getD (cs.length + k) 0 = rest.getD k 0 := by
    intro k
    rw [List.getD_eq_getElem?_getD, List.getElem?_append_right (Nat.le_add_right _ _),
      Nat.add_sub_cancel_left, List.getD_eq_getElem?_getD]
  induction k with
  | zero =>
    obtain ⟨n, hn⟩ := Nat.exists_eq_succ_of_ne_zero (List.length_pos_iff.2 hc).ne'
    have hhead := hget 0
    rw [Nat.add_zero, hn] at hhead
    rw [Nat.add_zero, hn]
    show (if (cs ++ rest).getD n.succ 0 &&& 0xC0 = 0x80 then cutBack (cs ++ rest) n else n + 1) =
      n + 1
    rw [hhead, if_neg (head_ne_tail h)]
  | succ k ih =>
    rw [← Nat.add_assoc, cutBack, cutBack, Nat.add_assoc, hget, ih]
    split <;> rfl

/-- A character has at most four bytes. -/
theorem Utf8Char.length_le (h : Utf8Char cs) : cs.length ≤ 4 := by
  cases h <;> exact Nat.le_of_ble_eq_true rfl

/-- A cut moves back by three bytes at most. -/
theorem le_cutBack_add (h : Utf8 text) {cut : Nat} (hcut : cut ≤ text.length) :
    cut ≤ cutBack text cut + 3 := by
  induction h generalizing cut with
  | nil =>
    rw [Nat.le_zero.1 hcut]
    exact Nat.zero_le _
  | @cons cs rest hc hrest ih =>
    have hfour := hc.length_le
    rcases Nat.lt_or_ge cut cs.length with hlt | hge
    · omega
    · obtain ⟨k, rfl⟩ := Nat.exists_eq_add_of_le hge
      rw [List.length_append] at hcut
      have hne : cs ≠ [] := by
        obtain ⟨a, tail, rfl, -⟩ := hc.exists_cons
        exact List.cons_ne_nil a tail
      have hk : k ≤ cutBack rest k + 3 := ih (by omega)
      rw [cutBack_append hne hrest]
      omega

end Cutting

/-- The bytes of a text in a memory that holds nothing else. -/
def only (s : List UInt8) (i : Nat) : Option UInt8 := s[i]?

/-- A scalar value is a code point that is no surrogate. -/
def IsScalar (cp : Nat) : Prop := cp ≤ 0x10FFFF ∧ ¬(0xD800 ≤ cp ∧ cp ≤ 0xDFFF)

theorem utf8EncodeCp_ne_nil {cp : Nat} (h : IsScalar cp) : utf8EncodeCp cp ≠ [] := by
  rw [utf8EncodeCp]
  split_ifs <;> first | exact List.cons_ne_nil _ _ | exact absurd ‹_› h.2 | exact absurd h.1 ‹_›

/-- **UTF-8 is handled exactly**: a text is valid just when it is a sequence of characters, and no
byte behind it is read; what is written for a scalar value is valid; and a valid text that is cut is
valid, and at most three bytes shorter. -/
theorem utf8_exact :
    (∀ (s : List UInt8) (mem : Nat → Option UInt8), (∀ i < s.length, mem i = s[i]?) →
      ∃ valid, utf8ValidIn mem s.length = some valid ∧ (valid = true ↔ Utf8 s)) ∧
    (∀ cp, IsScalar cp → utf8EncodeCp cp ≠ [] ∧
      utf8ValidIn (only (utf8EncodeCp cp)) (utf8EncodeCp cp).length = some true) ∧
    ∀ (text : List UInt8) (cut : Nat), Utf8 text → cut ≤ text.length →
      Utf8 (text.take (cutBack text cut)) ∧ cutBack text cut ≤ cut ∧
        cut ≤ cutBack text cut + 3 := by
  refine ⟨fun s mem hmem => ⟨utf8Valid s, utf8ValidIn_eq hmem, utf8Valid_iff⟩, fun cp h => ?_, ?_⟩
  · refine ⟨utf8EncodeCp_ne_nil h, ?_⟩
    have hmem : ∀ i < (utf8EncodeCp cp).length,
        only (utf8EncodeCp cp) i = (utf8EncodeCp cp)[i]? := fun _ _ => rfl
    rw [utf8ValidIn_eq hmem, utf8Valid_iff.2 (utf8_utf8EncodeCp cp)]
  · exact fun text cut h hcut =>
      ⟨Html.utf8_take_cutBack h cut, Html.cutBack_le text cut, le_cutBack_add h hcut⟩

/-- A text of one character of two bytes, and a cut in it. -/
theorem utf8_exact_two : (∃ valid, utf8ValidIn (only [0xC3, 0xA9]) 2 = some valid ∧
      (valid = true ↔ Utf8 [0xC3, 0xA9])) ∧ utf8EncodeCp 0xE9 ≠ [] ∧
    1 ≤ cutBack [0xC3, 0xA9] 1 + 3 :=
  ⟨utf8_exact.1 [0xC3, 0xA9] (only [0xC3, 0xA9]) fun _ _ => rfl,
    (utf8_exact.2.1 0xE9 ⟨by decide, by decide⟩).1,
    (utf8_exact.2.2 [0xC3, 0xA9] 1 (Utf8Char.two (by decide) (by decide) (by decide)).utf8
      (by decide)).2.2⟩

end EchoAi
