import EchoAi.Bytes

/-!
# Accesses to a buffer

Bytes are copied into a buffer, or moved within it.  An access outside of the buffer is absent.

* `writeAt`, `moveWithin`: `memcpy` and `memmove`.
* `writeAt_append`, `moveWithin_append`: what they leave, where the buffer is written as its parts.
* `exists_insert`, `exists_cut`: bytes that are put into a text, and taken out of it.
-/

namespace EchoAi

/-- `memcpy` of bytes into a buffer; absent outside of it. -/
def writeAt (mem : List UInt8) (dst : Nat) (bytes : List UInt8) : Option (List UInt8) :=
  if dst + bytes.length ≤ mem.length then
    some (mem.take dst ++ bytes ++ mem.drop (dst + bytes.length))
  else none

/-- `memmove` within a buffer; absent outside of it. -/
def moveWithin (mem : List UInt8) (dst src n : Nat) : Option (List UInt8) :=
  if src + n ≤ mem.length then writeAt mem dst ((mem.drop src).take n) else none

theorem writeAt_append {front old back bytes : List UInt8} (h : old.length = bytes.length) :
    writeAt (front ++ old ++ back) front.length bytes = some (front ++ bytes ++ back) := by
  have hle : front.length + bytes.length ≤ (front ++ old ++ back).length := by
    simp only [List.length_append]
    omega
  have hdrop : (front ++ old ++ back).drop (front.length + bytes.length) = back := by
    rw [← h, ← List.length_append, List.drop_left]
  have htake : (front ++ old ++ back).take front.length = front := by
    rw [List.append_assoc, List.take_left]
  rw [writeAt, if_pos hle, hdrop, htake]

theorem length_of_writeAt {mem mem' bytes : List UInt8} {dst : Nat}
    (h : writeAt mem dst bytes = some mem') : mem'.length = mem.length := by
  unfold writeAt at h
  split at h
  · rw [← Option.some.inj h]
    simp only [List.length_append, List.length_take, List.length_drop]
    omega
  · exact absurd h (by simp)

/-- What is moved is what stood there before. -/
theorem moveWithin_append {front moved back : List UInt8} (dst : Nat) :
    moveWithin (front ++ moved ++ back) dst front.length moved.length =
      writeAt (front ++ moved ++ back) dst moved := by
  have hle : front.length + moved.length ≤ (front ++ moved ++ back).length := by
    simp only [List.length_append]
    omega
  rw [moveWithin, if_pos hle, List.append_assoc, List.drop_left, List.take_left]

section Text

variable {front gone back junk bytes : List UInt8}

/-- Bytes are put into a text: what is behind them moves up with the NUL. -/
theorem exists_insert (h : bytes.length ≤ junk.length) :
    ∃ mem junk', moveWithin (front ++ back ++ 0 :: junk) (front.length + bytes.length) front.length
        (back.length + 1) = some mem ∧
      writeAt mem front.length bytes = some (front ++ bytes ++ back ++ 0 :: junk') ∧
      (front ++ bytes ++ back ++ 0 :: junk').length = (front ++ back ++ 0 :: junk).length := by
  have hsplit : front ++ back ++ 0 :: junk = front ++ (back ++ [0]) ++ junk := by
    simp only [List.append_assoc, List.singleton_append]
  have hin : front.length + bytes.length + (back ++ [0]).length ≤
      (front ++ (back ++ [0]) ++ junk).length := by
    simp only [List.length_append, List.length_singleton]
    omega
  have hmove : moveWithin (front ++ back ++ 0 :: junk) (front.length + bytes.length) front.length
      (back.length + 1) = some (front ++ (back ++ [0] ++ junk).take bytes.length ++ (back ++ [0] ++
        (front ++ (back ++ [0]) ++ junk).drop
          (front.length + bytes.length + (back ++ [0]).length))) := by
    have hmoved := @moveWithin_append front (back ++ [0]) junk (front.length + bytes.length)
    rw [List.length_append, List.length_singleton] at hmoved
    rw [hsplit, hmoved, writeAt, if_pos hin, List.append_assoc front, List.take_append,
      List.take_of_length_le (Nat.le_add_right _ _), Nat.add_sub_cancel_left, List.append_assoc]
  have hold : ((back ++ [0] ++ junk).take bytes.length).length = bytes.length := by
    refine List.length_take_of_le ?_
    simp only [List.length_append]
    omega
  refine ⟨_, (front ++ (back ++ [0]) ++ junk).drop
    (front.length + bytes.length + (back ++ [0]).length), hmove, ?_, ?_⟩
  · rw [writeAt_append hold]
    simp only [List.append_assoc, List.singleton_append]
  · simp only [List.length_append, List.length_cons, List.length_drop, List.length_nil]
    omega

/-- Bytes are taken out of a text: what is behind them moves down with the NUL. -/
theorem exists_cut :
    ∃ junk', moveWithin (front ++ gone ++ back ++ 0 :: junk) front.length (front ++ gone).length
        (back.length + 1) = some (front ++ back ++ 0 :: junk') ∧
      (front ++ back ++ 0 :: junk').length = (front ++ gone ++ back ++ 0 :: junk).length := by
  have hsplit : front ++ gone ++ back ++ 0 :: junk = front ++ gone ++ (back ++ [0]) ++ junk := by
    simp only [List.append_assoc, List.singleton_append]
  have hlast : (back ++ [0]).length = back.length + 1 := List.length_append
  have hmoved := @moveWithin_append (front ++ gone) (back ++ [0]) junk front.length
  rw [hlast] at hmoved
  have hold : ((gone ++ (back ++ [0]) ++ junk).take (back ++ [0]).length).length =
      (back ++ [0]).length := by
    refine List.length_take_of_le ?_
    simp only [List.length_append]
    omega
  have hwrite := @writeAt_append front _ ((gone ++ (back ++ [0]) ++ junk).drop (back ++ [0]).length)
    _ hold
  rw [List.append_assoc front, List.take_append_drop] at hwrite
  have hplace : front ++ gone ++ (back ++ [0]) ++ junk = front ++ (gone ++ (back ++ [0]) ++ junk) := by
    simp only [List.append_assoc]
  refine ⟨(gone ++ (back ++ [0]) ++ junk).drop (back ++ [0]).length, ?_, ?_⟩
  · rw [hsplit, hmoved, hplace, hwrite]
    simp only [List.append_assoc, List.singleton_append]
  · simp only [List.length_append, List.length_cons, List.length_drop, List.length_nil]
    omega

end Text

end EchoAi
