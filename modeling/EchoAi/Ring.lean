import Mathlib.Data.List.Destutter
import Mathlib.Data.List.DropRight
import Mathlib.Data.List.Rotate
import Mathlib.Data.Nat.ModEq

/-!
# Rings

A fixed number of slots holds a sequence whose first entry moves round.

* `Ring`: the slots, where the first entry stands, and how many there are.
* `Ring.contents`: the sequence.
* `contents_insert`, `contents_overwrite`, `contents_remove`: what an operation on the slots does to
  the sequence.
* `remember`, `recent`: the last entries, without one that repeats the entry before it.
-/

namespace EchoAi

variable {α : Type*}

/-- A slot is counted from the first one on. -/
theorem rotate_set (xs : List α) (n : Nat) {k : Nat} (hk : k < xs.length) (x : α) :
    (xs.set ((n + k) % xs.length) x).rotate n = (xs.rotate n).set k x := by
  refine List.ext_getElem? fun i => ?_
  rcases Nat.lt_or_ge i xs.length with hi | hi
  · have hslot : (i + n) % xs.length = (n + k) % xs.length ↔ i = k := by
      rw [Nat.add_comm i n]
      constructor
      · intro heq
        have hmod : i ≡ k [MOD xs.length] := Nat.ModEq.add_left_cancel' n heq
        rwa [Nat.ModEq, Nat.mod_eq_of_lt hi, Nat.mod_eq_of_lt hk] at hmod
      · rintro rfl
        rfl
    have hlt : (i + n) % xs.length < xs.length := Nat.mod_lt _ (by omega)
    rw [List.getElem?_rotate (by rwa [List.length_set]), List.length_set, List.getElem?_set,
      List.getElem?_set, List.getElem?_rotate hi, List.length_rotate]
    by_cases heq : i = k
    · rw [if_pos (hslot.2 heq).symm, if_pos heq.symm, if_pos (Nat.mod_lt _ (by omega)), if_pos hk]
    · rw [if_neg fun h => heq (hslot.1 h.symm), if_neg fun h => heq h.symm]
  · rw [List.getElem?_eq_none (by rwa [List.length_rotate, List.length_set]),
      List.getElem?_eq_none (by rwa [List.length_set, List.length_rotate])]

/-- Slots that hold a sequence, and where its first entry stands. -/
structure Ring (α : Type*) where
  slots : List α
  head : Nat
  count : Nat
  count_le : count ≤ slots.length
  head_lt : slots ≠ [] → head < slots.length

namespace Ring

variable (r : Ring α)

/-- The sequence. -/
def contents : List α := (r.slots.rotate r.head).take r.count

@[simp] theorem length_contents : r.contents.length = r.count := by
  rw [contents, List.length_take, List.length_rotate]
  exact Nat.min_eq_left r.count_le

/-- Slots without a sequence. -/
def empty (slots : List α) : Ring α where
  slots := slots
  head := 0
  count := 0
  count_le := Nat.zero_le _
  head_lt := List.length_pos_iff.2

theorem contents_empty (slots : List α) : (empty slots).contents = [] := List.take_zero

/-- The slot of an entry. -/
theorem getElem?_contents {i : Nat} (hi : i < r.count) :
    r.contents[i]? = r.slots[(r.head + i) % r.slots.length]? := by
  rw [contents, List.getElem?_take_of_lt hi, List.getElem?_rotate (hi.trans_le r.count_le),
    Nat.add_comm]

/-! ## Operations on the slots -/

variable {r}

/-- A further entry in a free slot. -/
def insert (x : α) (h : r.count < r.slots.length) : Ring α where
  slots := r.slots.set ((r.head + r.count) % r.slots.length) x
  head := r.head
  count := r.count + 1
  count_le := by rwa [List.length_set]
  head_lt := by
    intro _
    rw [List.length_set]
    exact r.head_lt (List.length_pos_iff.1 (Nat.zero_lt_of_lt h))

/-- The first entry leaves its slot. -/
def remove (h : 0 < r.count) : Ring α where
  slots := r.slots
  head := (r.head + 1) % r.slots.length
  count := r.count - 1
  count_le := (Nat.sub_le _ _).trans r.count_le
  head_lt := fun _ => Nat.mod_lt _ (h.trans_le r.count_le)

/-- A further entry in the slot of the first one. -/
def overwrite (x : α) (h : r.slots ≠ []) : Ring α where
  slots := r.slots.set r.head x
  head := (r.head + 1) % r.slots.length
  count := r.count
  count_le := by
    rw [List.length_set]
    exact r.count_le
  head_lt := by
    intro _
    rw [List.length_set]
    exact Nat.mod_lt _ (List.length_pos_iff.2 h)

theorem contents_insert (x : α) (h : r.count < r.slots.length) :
    (r.insert x h).contents = r.contents ++ [x] := by
  show ((r.slots.set ((r.head + r.count) % r.slots.length) x).rotate r.head).take (r.count + 1) = _
  have hlen : r.count < ((r.slots.rotate r.head).set r.count x).length := by
    rwa [List.length_set, List.length_rotate]
  rw [rotate_set r.slots r.head h, List.take_succ_eq_append_getElem hlen,
    List.take_set_of_le (Nat.le_refl _), List.getElem_set_self]
  rfl

theorem contents_remove (h : 0 < r.count) :
    ∃ x, r.slots[r.head]? = some x ∧ r.contents = x :: (r.remove h).contents := by
  have hlen : 0 < r.slots.length := h.trans_le r.count_le
  have hhead := r.head_lt (List.length_pos_iff.1 hlen)
  obtain ⟨x, rest, hrot⟩ := List.exists_cons_of_ne_nil
    (List.length_pos_iff.1 (by rwa [List.length_rotate]) : r.slots.rotate r.head ≠ [])
  have hx : r.slots[r.head]? = some x := by
    rw [← List.head?_rotate hhead, hrot]
    rfl
  refine ⟨x, hx, ?_⟩
  have hrest : (r.remove h).contents = rest.take (r.count - 1) := by
    show (r.slots.rotate ((r.head + 1) % r.slots.length)).take (r.count - 1) = _
    have hle : r.count - 1 ≤ rest.length := by
      have hlength := congrArg List.length hrot
      rw [List.length_rotate, List.length_cons] at hlength
      have hcount := r.count_le
      omega
    rw [List.rotate_mod, ← List.rotate_rotate, hrot, List.rotate_cons_succ, List.rotate_zero,
      List.take_append_of_le_length hle]
  rw [hrest, contents, hrot, ← List.take_succ_cons, Nat.sub_add_cancel h]

theorem contents_overwrite (x : α) (h : r.slots ≠ []) (hfull : r.count = r.slots.length) :
    (r.overwrite x h).contents = r.contents.tail ++ [x] := by
  have hpos : 0 < r.slots.length := List.length_pos_iff.2 h
  have hset := rotate_set r.slots r.head hpos x
  rw [Nat.add_zero, Nat.mod_eq_of_lt (r.head_lt h)] at hset
  show ((r.slots.set r.head x).rotate ((r.head + 1) % r.slots.length)).take r.count = _
  obtain ⟨y, rest, hrot⟩ := List.exists_cons_of_ne_nil
    (List.length_pos_iff.1 (by rwa [List.length_rotate]) : r.slots.rotate r.head ≠ [])
  have hall : r.contents = y :: rest := by
    rw [contents, hfull, List.take_of_length_le (by rw [List.length_rotate]), hrot]
  have hlen : (r.slots.set r.head x).length = r.slots.length := List.length_set
  rw [← hlen, List.rotate_mod, ← List.rotate_rotate, hset, hrot, hall, List.set_cons_zero,
    List.rotate_cons_succ, List.rotate_zero, List.tail_cons]
  refine List.take_of_length_le ?_
  have hcount := congrArg List.length hall
  rw [length_contents, List.length_cons] at hcount
  rw [List.length_append, List.length_singleton, hcount]

/-- A further entry, in the slot of the first one if none is free. -/
def remember (r : Ring α) (x : α) (h : r.slots ≠ []) : Ring α :=
  if hfree : r.count < r.slots.length then r.insert x hfree else r.overwrite x h

theorem length_slots_remember (x : α) (h : r.slots ≠ []) :
    (r.remember x h).slots.length = r.slots.length := by
  rw [remember]
  split
  · exact List.length_set
  · exact List.length_set

/-- A ring keeps as many of the last entries as it has slots. -/
theorem contents_remember (x : α) (h : r.slots ≠ []) :
    (r.remember x h).contents = (r.contents ++ [x]).rtake r.slots.length := by
  have hcount := r.count_le
  rw [remember, List.rtake, List.length_append, length_contents, List.length_singleton]
  split
  · next hfree =>
    rw [contents_insert, Nat.sub_eq_zero_of_le hfree, List.drop_zero]
  · next hfree =>
    have hfull : r.count = r.slots.length := by omega
    rw [contents_overwrite x h hfull, hfull, Nat.add_sub_cancel_left]
    cases hcontents : r.contents with
    | nil =>
      have hlen := congrArg List.length hcontents
      rw [length_contents, List.length_nil, hfull] at hlen
      exact absurd (List.eq_nil_of_length_eq_zero hlen) h
    | cons y rest => rfl

end Ring

/-! ## The last entries -/

theorem getLast?_rtake {n : Nat} (hn : 0 < n) (xs : List α) : (xs.rtake n).getLast? = xs.getLast? := by
  rw [List.rtake_eq_reverse_take_reverse, List.getLast?_reverse, List.head?_take, if_neg (by omega),
    List.head?_reverse]

theorem rtake_concat (n : Nat) (xs : List α) (x : α) :
    (xs ++ [x]).rtake n = (xs.rtake n ++ [x]).rtake n := by
  cases n with
  | zero => rw [List.rtake_zero, List.rtake_zero]
  | succ n =>
    rw [List.rtake_concat_succ, List.rtake_concat_succ]
    simp only [List.rtake_eq_reverse_take_reverse, List.reverse_reverse, List.take_take,
      Nat.min_eq_left (Nat.le_succ n)]

section Recent

variable [DecidableEq α] {n : Nat}

/-- A repeated entry adds nothing. -/
theorem destutter_concat (xs : List α) (x : α) :
    (xs ++ [x]).destutter (· ≠ ·) =
      if (xs.destutter (· ≠ ·)).getLast? = some x then xs.destutter (· ≠ ·)
      else xs.destutter (· ≠ ·) ++ [x] := by
  cases xs with
  | nil => rfl
  | cons a xs =>
    rw [List.cons_append, List.destutter_cons', List.destutter_cons']
    induction xs generalizing a with
    | nil =>
      rw [List.nil_append, List.destutter'_singleton]
      by_cases h : a = x
      · rw [if_neg (not_not.2 h), List.destutter'_nil, if_pos (by rw [h]; rfl)]
      · have hne : [a].getLast? ≠ some x := fun heq => h (Option.some.inj heq)
        rw [if_pos h, List.destutter'_nil, if_neg hne]
        rfl
    | cons b xs ih =>
      rw [List.cons_append, List.destutter'_cons, List.destutter'_cons]
      by_cases h : a ≠ b
      · have hne := List.destutter'_ne_nil (R := (· ≠ ·)) xs (a := b)
        rw [if_pos h, if_pos h, ih b, List.getLast?_cons_of_ne_nil hne]
        split
        · rfl
        · rfl
      · rw [if_neg h, if_neg h, ih a]

/-- The last `n` entries of those that do not repeat the one before. -/
def recent (n : Nat) (xs : List α) : List α := (xs.destutter (· ≠ ·)).rtake n

theorem recent_nil (n : Nat) : recent n ([] : List α) = [] := List.rtake_nil n

theorem recent_concat (hn : 0 < n) (xs : List α) (x : α) :
    recent n (xs ++ [x]) =
      if (recent n xs).getLast? = some x then recent n xs else (recent n xs ++ [x]).rtake n := by
  rw [recent, destutter_concat, recent, getLast?_rtake hn]
  split
  · rfl
  · exact rtake_concat n _ x

end Recent

end EchoAi
