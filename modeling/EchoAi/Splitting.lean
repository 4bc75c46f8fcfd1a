import Mathlib.Data.List.DropRight
import Mathlib.Data.List.Infix
import Mathlib.Order.Bounds.Basic

/-!
# Splitting and stripping

What survives when a list is cut at a separator and its ends are stripped.

* `splitOn_induction`: induction on a list by its first separator.
* `infix_of_mem_splitOn`, `notMem_of_mem_splitOn`, `exists_infix_splitOn`: the items of a list, and
  the part of a list that lies in one of them.
* `strip`, `isInfix_strip`, `Tight.infix_strip`: a list without its ends, and the part of a list that
  stays.
* `firstInfix`: the first place of a part, which a longer list does not change
  (`firstInfix_of_isPrefix`, `lt_of_firstInfix`).
* `placesOf`, `Unbordered.apart`: all places of a part, apart from each other unless the part overlaps
  itself.
-/

namespace EchoAi

variable {α : Type*}

/-! ## Items between separators -/

/-- Induction on a list by its first separator. -/
theorem splitOn_induction {motive : List α → Prop} (a : α)
    (last : ∀ xs, a ∉ xs → motive xs)
    (cut : ∀ item rest, a ∉ item → motive rest → motive (item ++ a :: rest)) (xs : List α) :
    motive xs := by
  obtain ⟨n, hn⟩ : ∃ n, xs.length = n := ⟨_, rfl⟩
  induction n using Nat.strong_induction_on generalizing xs with
  | _ n ih =>
    by_cases hmem : a ∈ xs
    · obtain ⟨item, rest, rfl, hitem⟩ := List.eq_append_cons_of_mem hmem
      rw [List.length_append, List.length_cons] at hn
      exact cut item rest hitem (ih rest.length (by omega) rest rfl)
    · exact last xs hmem

theorem eq_nil_of_isPrefix_cons {a : α} {pat xs : List α} (hpat : a ∉ pat)
    (h : pat <+: a :: xs) : pat = [] := by
  cases pat with
  | nil => rfl
  | cons b pat =>
    rw [List.cons_prefix_cons] at h
    exact absurd (h.1 ▸ List.mem_cons_self ..) hpat

/-- A part without the separator lies on one side of it. -/
theorem infix_append_cons {a : α} {pat item xs : List α} (hpat : a ∉ pat)
    (h : pat <:+: item ++ a :: xs) :
    pat <:+: item ∨ pat <:+: xs := by
  rcases List.infix_append_iff.1 h with h | h | ⟨l, r, rfl, hl, hr⟩
  · exact Or.inl h
  · rcases List.infix_cons_iff.1 h with h | h
    · exact Or.inl (eq_nil_of_isPrefix_cons hpat h ▸ List.nil_infix)
    · exact Or.inr h
  · have hnil : r = [] :=
      eq_nil_of_isPrefix_cons (fun hmem => hpat (List.mem_append_right l hmem)) hr
    rw [hnil, List.append_nil]
    exact Or.inl hl.isInfix

section SplitOn

variable [DecidableEq α] {a : α} {pat xs item : List α}

theorem takeWhile_ne_of_notMem (h : a ∉ xs) : xs.takeWhile (· ≠ a) = xs :=
  List.takeWhile_eq_self_iff.2 fun _ hx => decide_eq_true fun heq => h (heq ▸ hx)

theorem dropWhile_ne_of_notMem (h : a ∉ xs) : xs.dropWhile (· ≠ a) = [] :=
  List.dropWhile_eq_nil_iff.2 fun _ hx => decide_eq_true fun heq => h (heq ▸ hx)

/-- The item in front of the first separator. -/
theorem takeWhile_ne_append_cons (hitem : a ∉ item) (xs : List α) :
    (item ++ a :: xs).takeWhile (· ≠ a) = item := by
  have hall : ∀ x ∈ item, decide (x ≠ a) = true := by
    intro x hx
    exact decide_eq_true fun heq => hitem (heq ▸ hx)
  rw [List.takeWhile_append_of_pos hall, List.takeWhile_cons_of_neg (by simp), List.append_nil]

/-- What the first separator begins. -/
theorem dropWhile_ne_append_cons (hitem : a ∉ item) (xs : List α) :
    (item ++ a :: xs).dropWhile (· ≠ a) = a :: xs := by
  have hall : ∀ x ∈ item, decide (x ≠ a) = true := by
    intro x hx
    exact decide_eq_true fun heq => hitem (heq ▸ hx)
  rw [List.dropWhile_append_of_pos hall, List.dropWhile_cons_of_neg (by simp)]

/-- An item is a part of the list. -/
theorem infix_of_mem_splitOn (h : item ∈ xs.splitOn a) : item <:+: xs := by
  induction xs using splitOn_induction a with
  | last xs hxs =>
    rw [List.splitOn_eq_singleton hxs, List.mem_singleton] at h
    rw [h]
  | cut first rest hfirst ih =>
    rw [List.splitOn_append_cons_self_of_not_mem hfirst, List.mem_cons] at h
    rcases h with rfl | h
    · exact (List.prefix_append item _).isInfix
    · exact (ih h).trans ⟨first ++ [a], [], by simp⟩

/-- No item contains the separator. -/
theorem notMem_of_mem_splitOn (h : item ∈ xs.splitOn a) : a ∉ item := by
  induction xs using splitOn_induction a with
  | last xs hxs =>
    rw [List.splitOn_eq_singleton hxs, List.mem_singleton] at h
    rwa [h]
  | cut first rest hfirst ih =>
    rw [List.splitOn_append_cons_self_of_not_mem hfirst, List.mem_cons] at h
    rcases h with rfl | h
    · exact hfirst
    · exact ih h

/-- A part without the separator lies in an item. -/
theorem exists_infix_splitOn (hpat : a ∉ pat) (h : pat <:+: xs) :
    ∃ item ∈ xs.splitOn a, pat <:+: item := by
  induction xs using splitOn_induction a with
  | last xs hxs =>
    rw [List.splitOn_eq_singleton hxs]
    exact ⟨xs, List.mem_singleton_self xs, h⟩
  | cut first rest hfirst ih =>
    rw [List.splitOn_append_cons_self_of_not_mem hfirst]
    rcases infix_append_cons hpat h with h | h
    · exact ⟨first, List.mem_cons_self .., h⟩
    · obtain ⟨item, hitem, hin⟩ := ih h
      exact ⟨item, List.mem_cons_of_mem _ hitem, hin⟩

end SplitOn

/-! ## Stripping the ends -/

section Strip

variable (p : α → Bool) {pat xs : List α}

/-- What is left behind the entries that satisfy `p` begins with one that does not. -/
theorem eq_false_of_dropWhile_eq_cons {p : α → Bool} {x : α} {rest : List α}
    (h : xs.dropWhile p = x :: rest) : p x = false := by
  have hhead := List.head?_dropWhile_not p xs
  rw [h] at hhead
  exact hhead

theorem length_dropWhile_le (p : α → Bool) (xs : List α) : (xs.dropWhile p).length ≤ xs.length :=
  (List.dropWhile_sublist p).length_le

/-- A list without the entries at its ends that satisfy `p`. -/
def strip (xs : List α) : List α := (xs.dropWhile p).rdropWhile p

/-- A nonempty list whose ends do not satisfy `p`. -/
def Tight (pat : List α) : Prop :=
  pat ≠ [] ∧ (∀ x ∈ pat.head?, p x = false) ∧ ∀ x ∈ pat.getLast?, p x = false

instance [DecidableEq α] (pat : List α) : Decidable (Tight p pat) :=
  inferInstanceAs (Decidable (_ ∧ _ ∧ _))

variable {p}

theorem isInfix_strip (xs : List α) : strip p xs <:+: xs :=
  (List.rdropWhile_prefix p _).isInfix.trans (List.dropWhile_suffix p).isInfix

theorem infix_dropWhile (hpat : pat ≠ []) (hhead : ∀ x ∈ pat.head?, p x = false)
    (h : pat <:+: xs) : pat <:+: xs.dropWhile p := by
  induction xs with
  | nil => exact h
  | cons a xs ih =>
    cases ha : p a with
    | false => rwa [List.dropWhile_cons_of_neg (by simp [ha])]
    | true =>
      rw [List.dropWhile_cons_of_pos ha]
      rcases List.infix_cons_iff.1 h with h | h
      · cases pat with
        | nil => exact absurd rfl hpat
        | cons b pat =>
          have hb : b = a := (List.cons_prefix_cons.1 h).1
          have hfalse := hhead b rfl
          rw [hb, ha] at hfalse
          exact absurd hfalse (by decide)
      · exact ih h

/-- A part whose ends are kept stays when the whole is stripped. -/
theorem Tight.infix_strip (hpat : Tight p pat) (h : pat <:+: xs) : pat <:+: strip p xs := by
  have hfront := infix_dropWhile hpat.1 hpat.2.1 h
  have hback : pat.reverse <:+: (xs.dropWhile p).reverse.dropWhile p := by
    refine infix_dropWhile ?_ ?_ (List.reverse_infix.2 hfront)
    · rw [ne_eq, List.reverse_eq_nil_iff]
      exact hpat.1
    · rw [List.head?_reverse]
      exact hpat.2.2
  rwa [strip, List.rdropWhile, ← List.reverse_infix, List.reverse_reverse]

/-- The last entry of a stripped list is kept. -/
theorem getLast?_strip {x : α} (hx : (strip p xs).getLast? = some x) : p x = false := by
  have hne : strip p xs ≠ [] := by
    intro hnil
    rw [hnil] at hx
    exact absurd hx (by simp)
  rw [List.getLast?_eq_some_getLast hne, Option.some.injEq] at hx
  have hlast := List.rdropWhile_last_not p (xs.dropWhile p) hne
  rw [← hx]
  exact Bool.eq_false_iff.2 hlast

end Strip

/-! ## The first place of a part -/

section FirstInfix

variable [DecidableEq α] {pat xs ys : List α} {i : Nat}

/-- The first place where a part stands in a list. -/
def firstInfix (pat : List α) : (xs : List α) → Option Nat
  | [] => if pat = [] then some 0 else none
  | x :: xs => if pat <+: x :: xs then some 0 else (firstInfix pat xs).map (· + 1)

/-- The part stands at its first place. -/
theorem isPrefix_of_firstInfix (h : firstInfix pat xs = some i) : pat <+: xs.drop i := by
  induction xs generalizing i with
  | nil =>
    rw [firstInfix] at h
    split at h
    · next hpat =>
      rw [hpat]
      exact List.nil_prefix
    · exact absurd h (by simp)
  | cons x xs ih =>
    rw [firstInfix] at h
    split at h
    · next hpat =>
      rw [← Option.some.inj h]
      exact hpat
    · obtain ⟨j, hj, rfl⟩ := Option.map_eq_some_iff.1 h
      exact ih hj

theorem firstInfix_le (h : firstInfix pat xs = some i) : i + pat.length ≤ xs.length := by
  induction xs generalizing i with
  | nil =>
    rw [firstInfix] at h
    split at h
    · next hpat =>
      rw [← Option.some.inj h, hpat]
      exact Nat.le_refl 0
    · exact absurd h (by simp)
  | cons x xs ih =>
    rw [firstInfix] at h
    split at h
    · next hpat =>
      rw [← Option.some.inj h, Nat.zero_add]
      exact hpat.length_le
    · obtain ⟨j, hj, rfl⟩ := Option.map_eq_some_iff.1 h
      have hle := ih hj
      rw [List.length_cons]
      omega

/-- A part that stands somewhere has a first place. -/
theorem exists_firstInfix (h : pat <+: xs.drop i) : ∃ j ≤ i, firstInfix pat xs = some j := by
  induction xs generalizing i with
  | nil =>
    rw [List.drop_nil, List.prefix_nil] at h
    rw [firstInfix, if_pos h]
    exact ⟨0, Nat.zero_le i, rfl⟩
  | cons x xs ih =>
    rw [firstInfix]
    split
    · exact ⟨0, Nat.zero_le i, rfl⟩
    · next hpat =>
      cases i with
      | zero => exact absurd h hpat
      | succ i =>
        obtain ⟨j, hj, hfirst⟩ := ih h
        exact ⟨j + 1, Nat.succ_le_succ hj, by rw [hfirst]; rfl⟩

theorem exists_firstInfix_iff : (∃ j, firstInfix pat xs = some j) ↔ pat <:+: xs := by
  constructor
  · rintro ⟨j, hj⟩
    exact (isPrefix_of_firstInfix hj).isInfix.trans (List.drop_suffix j xs).isInfix
  · rintro ⟨l, r, rfl⟩
    obtain ⟨j, -, hj⟩ := @exists_firstInfix α _ pat (l ++ pat ++ r) l.length (by
      rw [List.append_assoc, List.drop_left]
      exact List.prefix_append pat r)
    exact ⟨j, hj⟩

/-- A part that does not stand in a list stands in a longer one behind its end only. -/
theorem lt_of_firstInfix (hxy : xs <+: ys) (hnone : firstInfix pat xs = none)
    (h : firstInfix pat ys = some i) : xs.length < i + pat.length := by
  induction xs generalizing ys i with
  | nil =>
    rw [firstInfix] at hnone
    split at hnone
    · exact absurd hnone (by simp)
    · next hpat =>
      have hpos := List.length_pos_iff.2 hpat
      show 0 < i + pat.length
      omega
  | cons x xs ih =>
    obtain ⟨rest, rfl⟩ := hxy
    rw [firstInfix] at hnone
    split at hnone
    · exact absurd hnone (by simp)
    next hpat =>
    rw [Option.map_eq_none_iff] at hnone
    rw [List.cons_append, firstInfix] at h
    split at h
    · next hlong =>
      rw [← Option.some.inj h]
      by_contra hshort
      refine hpat (List.prefix_of_prefix_length_le hlong ?_ (by omega))
      rw [← List.cons_append]
      exact List.prefix_append _ _
    · obtain ⟨j, hj, rfl⟩ := Option.map_eq_some_iff.1 h
      have hlt := ih (List.prefix_append xs rest) hnone hj
      rw [List.length_cons]
      omega

/-- The first place stays when the list goes on. -/
theorem firstInfix_of_isPrefix (hxy : xs <+: ys) (h : firstInfix pat xs = some i) :
    firstInfix pat ys = some i := by
  induction xs generalizing ys i with
  | nil =>
    have hlen := firstInfix_le h
    rw [List.length_nil] at hlen
    have hpat : pat = [] := List.eq_nil_of_length_eq_zero (by omega)
    have hi : i = 0 := by omega
    rw [hpat, hi]
    cases ys with
    | nil => rfl
    | cons y ys => rw [firstInfix, if_pos List.nil_prefix]
  | cons x xs ih =>
    obtain ⟨rest, rfl⟩ := hxy
    rw [firstInfix] at h
    split at h
    · next hpat =>
      rw [List.cons_append, firstInfix, ← List.cons_append,
        if_pos (hpat.trans (List.prefix_append _ _))]
      exact h
    · next hpat =>
      obtain ⟨j, hj, rfl⟩ := Option.map_eq_some_iff.1 h
      have hlen := firstInfix_le hj
      have hlong : ¬pat <+: x :: (xs ++ rest) := by
        intro hlong
        refine hpat (List.prefix_of_prefix_length_le hlong ?_ (by rw [List.length_cons]; omega))
        rw [← List.cons_append]
        exact List.prefix_append _ _
      rw [List.cons_append, firstInfix, if_neg hlong, ih (List.prefix_append xs rest) hj]
      rfl

/-- A part stands first where it does not end before. -/
theorem firstInfix_eq_some_iff (hpat : pat ≠ []) :
    firstInfix pat xs = some i ↔ ∃ front rest, xs = front ++ pat ++ rest ∧ front.length = i ∧
      ¬pat <:+: front ++ pat.dropLast := by
  have hlast : pat.dropLast.length + 1 = pat.length := by
    have hpos := List.length_pos_iff.2 hpat
    rw [List.length_dropLast]
    omega
  constructor
  · intro h
    obtain ⟨rest, hrest⟩ := isPrefix_of_firstInfix h
    have hle := firstInfix_le h
    have hxs : xs = xs.take i ++ pat ++ rest := by
      rw [List.append_assoc, hrest, List.take_append_drop]
    have hfront : (xs.take i).length = i := by
      rw [List.length_take]
      omega
    refine ⟨xs.take i, rest, hxs, hfront, fun hinfix => ?_⟩
    -- the part would have been found there
    obtain ⟨j, hj⟩ := exists_firstInfix_iff.2 hinfix
    have hprefix : xs.take i ++ pat.dropLast <+: xs := by
      conv_rhs => rw [hxs, List.append_assoc]
      exact List.prefix_append_right_inj _ |>.2
        ((List.dropLast_prefix pat).trans (List.prefix_append pat rest))
    have hji : j = i := Option.some.inj ((firstInfix_of_isPrefix hprefix hj).symm.trans h)
    have hlt := firstInfix_le hj
    rw [List.length_append, hfront] at hlt
    omega
  · rintro ⟨front, rest, rfl, rfl, hfirst⟩
    obtain ⟨j, hj, hfound⟩ := @exists_firstInfix α _ pat (front ++ pat ++ rest)
      front.length (by
        rw [List.append_assoc, List.drop_left]
        exact List.prefix_append pat rest)
    rcases Nat.lt_or_eq_of_le hj with hlt | rfl
    · refine absurd ?_ hfirst
      have hprefix : front ++ pat.dropLast <+: front ++ pat ++ rest := by
        rw [List.append_assoc]
        exact List.prefix_append_right_inj _ |>.2
          ((List.dropLast_prefix pat).trans (List.prefix_append pat rest))
      have hstand := isPrefix_of_firstInfix hfound
      refine List.IsInfix.trans (List.IsPrefix.isInfix ?_) (List.drop_suffix j _).isInfix
      refine List.prefix_of_prefix_length_le hstand (List.IsPrefix.drop hprefix j) ?_
      rw [List.length_drop, List.length_append]
      omega
    · exact hfound

/-- A part without the separator stands behind an item that it does not stand in. -/
theorem firstInfix_append_cons {a : α} {item : List α} (hpat : pat ≠ []) (ha : a ∉ pat)
    (hitem : ¬pat <:+: item) (xs : List α) :
    firstInfix pat (item ++ a :: xs) = (firstInfix pat xs).map (· + (item.length + 1)) := by
  induction item with
  | nil =>
    have hnot : ¬pat <+: a :: xs := fun h => hpat (eq_nil_of_isPrefix_cons ha h)
    rw [List.nil_append, firstInfix, if_neg hnot]
    rfl
  | cons x item ih =>
    have hnot : ¬pat <+: x :: (item ++ a :: xs) := by
      intro h
      rcases Nat.lt_or_ge (x :: item).length pat.length with hlt | hle
      · -- the part reaches over the separator
        have hcut : (x :: item) ++ [a] <+: x :: (item ++ a :: xs) :=
          ⟨xs, by rw [List.append_assoc]; rfl⟩
        have hin : (x :: item) ++ [a] <+: pat := by
          refine List.prefix_of_prefix_length_le hcut h ?_
          rw [List.length_append, List.length_singleton]
          omega
        exact ha (hin.subset (List.mem_append_right _ List.mem_cons_self))
      · refine hitem (List.IsPrefix.isInfix (List.prefix_of_prefix_length_le h ?_ hle))
        exact List.prefix_append (x :: item) (a :: xs)
    rw [List.cons_append, firstInfix, if_neg hnot,
      ih fun h => hitem (h.trans (List.suffix_cons x item).isInfix), Option.map_map]
    rfl

/-- A part stands behind an item without its first entry. -/
theorem firstInfix_append_of_notMem {a : α} {item : List α} (hpat : pat.head? = some a)
    (hitem : a ∉ item) (xs : List α) :
    firstInfix pat (item ++ xs) = (firstInfix pat xs).map (· + item.length) := by
  induction item with
  | nil =>
    show firstInfix pat xs = (firstInfix pat xs).map id
    rw [Option.map_id, id]
  | cons x item ih =>
    have hx : a ≠ x := fun heq => hitem (heq ▸ List.mem_cons_self)
    have hitem : a ∉ item := fun hmem => hitem (List.mem_cons_of_mem x hmem)
    have hnot : ¬pat <+: x :: (item ++ xs) := by
      cases pat with
      | nil => exact absurd hpat (by simp)
      | cons b pat =>
        intro h
        exact hx ((Option.some.inj hpat).symm.trans (List.cons_prefix_cons.1 h).1)
    rw [List.cons_append, firstInfix, if_neg hnot, ih hitem, Option.map_map]
    rfl

/-- A part whose first entry does not come again in it is found where it stands, behind an item that it
does not stand in. -/
theorem firstInfix_append_cons_append {a : α} {pat item : List α} (ha : a ∉ pat)
    (hitem : ¬a :: pat <:+: item) (xs : List α) :
    firstInfix (a :: pat) (item ++ a :: pat ++ xs) = some item.length := by
  have hdrop : (item ++ a :: pat ++ xs).drop item.length = a :: pat ++ xs := by
    rw [List.append_assoc, List.drop_left]
  obtain ⟨j, hj, hfound⟩ := exists_firstInfix (hdrop ▸ List.prefix_append (a :: pat) xs)
  rcases Nat.eq_or_lt_of_le hj with rfl | hlt
  · exact hfound
  obtain ⟨rest, hrest⟩ := isPrefix_of_firstInfix hfound
  rcases Nat.lt_or_ge item.length (j + (a :: pat).length) with hover | hin
  · -- the first entry of the part that stands behind the item is then an inner one of this place
    obtain ⟨k, hk⟩ : ∃ k, item.length = j + (k + 1) := ⟨item.length - j - 1, by omega⟩
    have hentry : ((a :: pat) ++ rest)[k + 1]? = some a := by
      rw [hrest, List.getElem?_drop, ← hk, List.append_assoc,
        List.getElem?_append_right (Nat.le_refl _), Nat.sub_self]
      rfl
    rw [List.getElem?_append_left (by omega), List.getElem?_cons_succ] at hentry
    exact absurd (List.mem_of_getElem? hentry) ha
  · have hprefix : a :: pat <+: item.drop j := by
      refine List.prefix_of_prefix_length_le ⟨rest, hrest⟩ ?_ ?_
      · rw [List.append_assoc, List.drop_append_of_le_length hj]
        exact List.prefix_append _ _
      · rw [List.length_drop]
        omega
    exact absurd (List.IsInfix.trans hprefix.isInfix (List.drop_suffix j item).isInfix) hitem

/-! ## All places of a part -/

/-- The places of a part in a list. -/
def placesOf (pat xs : List α) : Set Nat := {j | pat <+: xs.drop j}

/-- A list of which no proper end is its beginning. -/
def Unbordered (pat : List α) : Prop := ∀ k, 0 < k → k < pat.length → ¬pat.drop k <+: pat

theorem isLeast_firstInfix (h : firstInfix pat xs = some i) : IsLeast (placesOf pat xs) i := by
  refine ⟨isPrefix_of_firstInfix h, fun j hj => ?_⟩
  obtain ⟨i', hle, hfirst⟩ := exists_firstInfix hj
  rwa [Option.some.inj (h.symm.trans hfirst)]

theorem firstInfix_eq_none_iff : firstInfix pat xs = none ↔ placesOf pat xs = ∅ := by
  rw [Set.eq_empty_iff_forall_notMem]
  constructor
  · intro hnone j hj
    obtain ⟨i, -, hfirst⟩ := exists_firstInfix hj
    exact Option.some_ne_none i (hfirst.symm.trans hnone)
  · intro hempty
    cases hfirst : firstInfix pat xs with
    | none => rfl
    | some i => exact absurd (isPrefix_of_firstInfix hfirst) (hempty i)

omit [DecidableEq α] in
/-- Two places of a part are apart when the part does not overlap itself. -/
theorem Unbordered.apart (h : Unbordered pat) {j : Nat} (hi : i ∈ placesOf pat xs)
    (hj : j ∈ placesOf pat xs) (hij : i < j) : i + pat.length ≤ j := by
  by_contra hover
  have hlt : j - i < pat.length := by omega
  obtain ⟨rest, hrest⟩ : pat <+: xs.drop i := hi
  -- behind the first place, what is left of the part begins like the part
  have hbehind : xs.drop j = pat.drop (j - i) ++ rest := by
    have hsum : i + (j - i) = j := by omega
    rw [← hsum, ← List.drop_drop, ← hrest, hsum, List.drop_append_of_le_length (Nat.le_of_lt hlt)]
  have hend : pat.drop (j - i) <+: xs.drop j := ⟨rest, hbehind.symm⟩
  have hborder : pat.drop (j - i) <+: pat :=
    List.prefix_of_prefix_length_le hend hj (by rw [List.length_drop]; omega)
  exact h (j - i) (by omega) hlt hborder

end FirstInfix

end EchoAi
