import EchoAi.Lockstep
import Mathlib.Algebra.Group.Nat.Defs

/-!
# Response buffers

What a server answers is collected in a buffer that grows, up to a limit.

* `HttpBuffer`, `grow`, `httpBufferAppend`: the buffer, the loop that finds its new size, and one
  more block.
* `Sized`: what holds of every buffer that has grown by blocks.
* `AppendsRight`: a block that is within the limit is taken, and no other one.
* `appendsRight_iff`: so it is, except where the limit is the greatest number and the buffer has to
  grow beyond its first size.

Sizes are numbers of 64 bits.  The buffer and the blocks are there, and memory does not run out.
-/

namespace EchoAi.HttpClient

/-- `SIZE_MAX` -/
def sizeMax : Nat := 2 ^ 64 - 1

/-- `HttpBuffer`: what is written behind `data`, and the sizes. -/
structure HttpBuffer where
  data : List UInt8 := []
  len : Nat := 0
  cap : Nat := 0
  limit : UInt64
  tooLarge : Bool := false
  deriving DecidableEq, Repr

/-- The loop for the capacity, which is positive. -/
def grow (limit : UInt64) (needed capacity : Nat) (hpos : 0 < capacity) : Nat :=
  if capacity < needed then
    -- the successor of the limit is a number of 64 bits
    if limit ≠ 0 ∧ (limit + 1).toNat / 2 < capacity then (limit + 1).toNat
    else if hsmall : sizeMax / 2 < capacity then needed
    else grow limit needed (capacity * 2 % 2 ^ 64) (by unfold sizeMax at hsmall; omega)
  else capacity
termination_by needed - capacity
decreasing_by
  unfold sizeMax at hsmall
  omega

/-- The capacity that the loop begins with. -/
def firstCap (cap : Nat) : Nat := if cap = 0 then 1024 else cap

theorem firstCap_pos (cap : Nat) : 0 < firstCap cap := by
  rw [firstCap]
  split
  · decide
  · next h => exact Nat.pos_of_ne_zero h

/-- The bytes behind the first `len`, with the NUL. -/
def HttpBuffer.put (b : HttpBuffer) (block : List UInt8) : HttpBuffer :=
  { b with data := b.data.take b.len ++ block ++ [0], len := b.len + block.length }

/-- `http_buffer_append` -/
def httpBufferAppend (b : HttpBuffer) (block : List UInt8) : Bool × HttpBuffer :=
  let length := block.length
  if b.limit ≠ 0 ∧ (b.limit.toNat < length ∨ b.limit.toNat - length < b.len) then
    (false, { b with tooLarge := true })
  else if sizeMax - b.len - 1 < length then (false, b)
  else
    let needed := b.len + length + 1
    if b.cap < needed then
      let capacity := grow b.limit needed (firstCap b.cap) (firstCap_pos b.cap)
      if capacity < needed then (false, b) else (true, { b with cap := capacity }.put block)
    else (true, b.put block)

/-! ## The loop -/

section Grow

variable {limit : UInt64} {needed capacity : Nat} {hpos : 0 < capacity}

/-- The capacity is enough and does not shrink, unless the limit is the greatest number. -/
theorem le_grow (hlimit : limit ≠ 0 → needed ≤ limit.toNat + 1) (hmax : limit.toNat ≠ sizeMax) :
    needed ≤ grow limit needed capacity hpos ∧ capacity ≤ grow limit needed capacity hpos := by
  fun_induction grow limit needed capacity hpos with
  | case1 capacity hpos hlt hcut =>
    have hnext : (limit + 1).toNat = limit.toNat + 1 := by
      have hlt := limit.toNat_lt
      rw [UInt64.toNat_add, UInt64.toNat_one]
      unfold sizeMax at hmax
      omega
    have hle := hlimit hcut.1
    omega
  | case2 capacity hpos hlt _ _ => omega
  | case3 capacity hpos hlt _ hsmall ih =>
    unfold sizeMax at hsmall
    omega
  | case4 capacity hpos hlt => omega

/-- The loop stays within numbers of 64 bits. -/
theorem grow_le (hneeded : needed ≤ sizeMax) (hcapacity : capacity ≤ sizeMax) :
    grow limit needed capacity hpos ≤ sizeMax := by
  fun_induction grow limit needed capacity hpos with
  | case1 capacity hpos hlt hcut =>
    have hlt := (limit + 1).toNat_lt
    unfold sizeMax
    omega
  | case2 capacity hpos hlt _ _ => exact hneeded
  | case3 capacity hpos hlt _ hsmall ih =>
    refine ih ?_
    unfold sizeMax
    omega
  | case4 capacity hpos hlt => exact hcapacity

/-- A limit whose successor is zero leaves no room. -/
theorem grow_of_max (hlimit : limit.toNat = sizeMax) (hlt : capacity < needed) :
    grow limit needed capacity hpos = 0 := by
  have hmax : limit = 0xFFFFFFFFFFFFFFFF := UInt64.toNat_inj.1 hlimit
  rw [grow, if_pos hlt, if_pos]
  · rw [hmax]
    rfl
  · rw [hmax]
    exact ⟨by decide, hpos⟩

end Grow

/-! ## Runs -/

/-- A buffer, and the blocks that it took. -/
abbrev Filled := HttpBuffer × List UInt8

/-- One more block. -/
def appendStep (s : Filled) (block : List UInt8) : Filled :=
  ((httpBufferAppend s.1 block).2,
    if (httpBufferAppend s.1 block).1 then s.2 ++ block else s.2)

/-- What holds of a buffer after any blocks. -/
structure Sized (s : Filled) : Prop where
  len : s.1.len = s.2.length
  data : s.1.data.take s.1.len = s.2
  fits : s.1.cap = 0 ∧ s.1.len = 0 ∨ s.1.data = s.2 ++ [0] ∧ s.1.len + 1 ≤ s.1.cap
  cap : s.1.cap ≤ sizeMax
  limit : s.1.limit ≠ 0 → s.1.len ≤ s.1.limit.toNat
  max : s.1.limit.toNat = sizeMax → s.1.cap = 0 ∨ s.1.cap = 1024

/-- **One more block**: it is taken just when it is within the limit, behind the others and in front
of a NUL, and else nothing changes. -/
structure AppendsRight (s : Filled) (block : List UInt8) : Prop where
  taken : (httpBufferAppend s.1 block).1 = true ↔
    s.1.limit = 0 ∨ s.1.len + block.length ≤ s.1.limit.toNat
  data : (httpBufferAppend s.1 block).1 = true →
    (httpBufferAppend s.1 block).2.data = s.2 ++ block ++ [0] ∧
      (httpBufferAppend s.1 block).2.len = (s.2 ++ block).length
  cap : (httpBufferAppend s.1 block).1 = true →
    (httpBufferAppend s.1 block).2.len + 1 ≤ (httpBufferAppend s.1 block).2.cap ∧
      s.1.cap ≤ (httpBufferAppend s.1 block).2.cap
  kept : (httpBufferAppend s.1 block).1 = false →
    (httpBufferAppend s.1 block).2.data = s.1.data ∧ (httpBufferAppend s.1 block).2.len = s.1.len

/-- The limit has a successor, or the buffer does not grow beyond its first size. -/
def Roomy (s : Filled) (block : List UInt8) : Prop :=
  s.1.limit.toNat = sizeMax → s.1.len + block.length < 1024

section Runs

variable {s : Filled} {block : List UInt8}

/-- The ways in which a block can go. -/
inductive Outcome (s : Filled) (block : List UInt8) : Prop where
  | refused (hlimit : s.1.limit ≠ 0) (hlong : s.1.limit.toNat < s.1.len + block.length)
      (h : httpBufferAppend s.1 block = (false, { s.1 with tooLarge := true }))
  | overflow (hlong : sizeMax ≤ s.1.len + block.length)
      (h : httpBufferAppend s.1 block = (false, s.1))
  | stuck (hmax : s.1.limit.toNat = sizeMax) (hlong : 1024 ≤ s.1.len + block.length)
      (h : httpBufferAppend s.1 block = (false, s.1))
  | taken (cap : Nat) (hlimit : s.1.limit ≠ 0 → s.1.len + block.length ≤ s.1.limit.toNat)
      (hshort : s.1.len + block.length < sizeMax) (hle : s.1.cap ≤ cap)
      (hneeded : s.1.len + block.length + 1 ≤ cap) (hcap : cap ≤ sizeMax)
      (hmax : s.1.limit.toNat = sizeMax → cap = 1024)
      (h : httpBufferAppend s.1 block = (true, { s.1 with cap }.put block))

theorem Sized.len_lt (h : Sized s) : s.1.len < sizeMax := by
  have hcap := h.cap
  rcases h.fits with ⟨-, hlen⟩ | ⟨-, hlen⟩
  · rw [hlen]
    decide
  · omega

theorem grow_of_le {limit : UInt64} {needed capacity : Nat} {hpos : 0 < capacity}
    (h : needed ≤ capacity) : grow limit needed capacity hpos = capacity := by
  rw [grow, if_neg (Nat.not_lt.2 h)]

/-- A block goes one of these ways. -/
theorem Sized.outcome (h : Sized s) (block : List UInt8) : Outcome s block := by
  have hlen := h.len_lt
  have hlimit := h.limit
  have hfirst : s.1.limit.toNat = sizeMax → firstCap s.1.cap = 1024 := by
    intro hmax
    rcases h.max hmax with hcap | hcap <;> rw [hcap] <;> rfl
  have hle : s.1.cap ≤ firstCap s.1.cap ∧ firstCap s.1.cap ≤ sizeMax := by
    have hcap := h.cap
    have hbig : 1024 ≤ sizeMax := by decide
    rw [firstCap]
    split <;> omega
  by_cases hrefused : s.1.limit ≠ 0 ∧
      (s.1.limit.toNat < block.length ∨ s.1.limit.toNat - block.length < s.1.len)
  · have hin := hlimit hrefused.1
    refine .refused hrefused.1 (by omega) ?_
    rw [httpBufferAppend]
    exact if_pos hrefused
  have hfit : s.1.limit ≠ 0 → s.1.len + block.length ≤ s.1.limit.toNat := by
    intro hne
    rw [not_and, not_or] at hrefused
    have hin := hrefused hne
    omega
  by_cases hover : sizeMax - s.1.len - 1 < block.length
  · refine .overflow (by omega) ?_
    rw [httpBufferAppend, if_neg hrefused]
    exact if_pos hover
  by_cases hgrow : s.1.cap < s.1.len + block.length + 1
  · by_cases hless : grow s.1.limit (s.1.len + block.length + 1) (firstCap s.1.cap)
        (firstCap_pos s.1.cap) < s.1.len + block.length + 1
    · have hmax : s.1.limit.toNat = sizeMax := by
        by_contra hne
        have hin : s.1.limit ≠ 0 → s.1.len + block.length + 1 ≤ s.1.limit.toNat + 1 :=
          fun hzero => Nat.succ_le_succ (hfit hzero)
        exact absurd (le_grow hin hne).1 (Nat.not_le.2 hless)
      refine .stuck hmax ?_ ?_
      · by_contra hshort
        rw [grow_of_le (by rw [hfirst hmax]; omega), hfirst hmax] at hless
        omega
      · rw [httpBufferAppend, if_neg hrefused, if_neg hover]
        dsimp only
        rw [if_pos hgrow, if_pos hless]
    · have hbig := Nat.not_lt.1 hless
      refine .taken _ hfit (by omega) (by omega) hbig (grow_le (by omega) hle.2) ?_ ?_
      · intro hmax
        by_cases hlt : firstCap s.1.cap < s.1.len + block.length + 1
        · rw [grow_of_max hmax hlt] at hbig
          exact absurd hbig (Nat.not_succ_le_zero _)
        · rw [grow_of_le (Nat.not_lt.1 hlt), hfirst hmax]
      · rw [httpBufferAppend, if_neg hrefused, if_neg hover]
        dsimp only
        rw [if_pos hgrow, if_neg hless]
  · refine .taken s.1.cap hfit (by omega) (Nat.le_refl _) (Nat.not_lt.1 hgrow) h.cap ?_ ?_
    · intro hmax
      rcases h.max hmax with hcap | hcap
      · omega
      · exact hcap
    · rw [httpBufferAppend, if_neg hrefused, if_neg hover]
      exact if_neg hgrow

/-- What is written behind a block that is taken. -/
theorem Sized.data_put (h : Sized s) (cap : Nat) (block : List UInt8) :
    (HttpBuffer.put { s.1 with cap } block).data = s.2 ++ block ++ [0] := by
  show s.1.data.take s.1.len ++ block ++ [0] = _
  rw [h.data]

/-- Every block leaves the buffer as it should be. -/
theorem Sized.appendStep (h : Sized s) (block : List UInt8) : Sized (appendStep s block) := by
  rw [HttpClient.appendStep]
  cases h.outcome block with
  | refused hlimit hlong heq =>
    rw [heq]
    exact ⟨h.len, h.data, h.fits, h.cap, h.limit, h.max⟩
  | overflow hlong heq =>
    rw [heq]
    exact h
  | stuck hmax hlong heq =>
    rw [heq]
    exact h
  | taken cap hlimit hshort hle hneeded hcap hmax heq =>
    have hdata := h.data_put cap block
    have hlength : s.1.len + block.length = (s.2 ++ block).length := by
      rw [h.len, List.length_append]
    rw [heq, if_pos rfl]
    refine ⟨hlength, ?_, Or.inr ⟨hdata, hneeded⟩, hcap, hlimit, fun hm => Or.inr (hmax hm)⟩
    show (HttpBuffer.put { s.1 with cap } block).data.take (s.1.len + block.length) = s.2 ++ block
    rw [hdata, hlength, List.take_left]

/-- A block is dealt with as it should be just when there is room to grow. -/
theorem Sized.appendsRight (h : Sized s) (hshort : s.1.len + block.length < sizeMax) :
    AppendsRight s block ↔ Roomy s block := by
  cases h.outcome block with
  | refused hlimit hlong heq =>
    refine iff_of_true ⟨?_, ?_, ?_, ?_⟩ fun hmax => ?_
    · rw [heq]
      exact iff_of_false Bool.false_ne_true fun hor => hor.elim hlimit (by omega)
    · rw [heq]
      exact fun htrue => absurd htrue Bool.false_ne_true
    · rw [heq]
      exact fun htrue => absurd htrue Bool.false_ne_true
    · rw [heq]
      exact fun _ => ⟨rfl, rfl⟩
    · omega
  | overflow hlong heq => omega
  | stuck hmax hlong heq =>
    refine iff_of_false (fun hright => ?_) fun hroomy => ?_
    · have htaken := hright.taken.2 (Or.inr (by omega))
      rw [heq] at htaken
      exact Bool.false_ne_true htaken
    · have hin := hroomy hmax
      omega
  | taken cap hlimit _ hle hneeded hcap hmax heq =>
    refine iff_of_true ⟨?_, ?_, ?_, ?_⟩ fun hm => ?_
    · rw [heq]
      refine iff_of_true rfl ?_
      by_cases hzero : s.1.limit = 0
      · exact Or.inl hzero
      · exact Or.inr (hlimit hzero)
    · intro _
      rw [heq]
      refine ⟨h.data_put cap block, ?_⟩
      show s.1.len + block.length = _
      rw [h.len, List.length_append]
    · intro _
      rw [heq]
      exact ⟨hneeded, hle⟩
    · rw [heq]
      exact fun hfalse => absurd hfalse.symm Bool.false_ne_true
    · have hcap := hmax hm
      omega

end Runs

/-- An empty buffer. -/
def empty (limit : UInt64) : Filled := ({ limit }, [])

theorem sized_empty (limit : UInt64) : Sized (empty limit) :=
  ⟨rfl, rfl, Or.inl ⟨rfl, rfl⟩, Nat.zero_le _, fun _ => Nat.zero_le _, fun _ => Or.inl rfl⟩

/-- **A response is collected up to its limit**: in every run, whatever is below the greatest size
is dealt with as it should be just when the limit has a successor or the buffer does not have to
grow beyond its first size. -/
theorem appendsRight_iff (limit : UInt64) (blocks : List (List UInt8)) :
    (∀ front block, front ++ [block] <+: blocks →
      (stateAfter appendStep (empty limit) front).1.len + block.length < sizeMax →
        AppendsRight (stateAfter appendStep (empty limit) front) block) ↔
    ∀ front block, front ++ [block] <+: blocks →
      (stateAfter appendStep (empty limit) front).1.len + block.length < sizeMax →
        Roomy (stateAfter appendStep (empty limit) front) block :=
  @stepwise_iff _ _ appendStep (empty limit) Sized
    (fun s block => s.1.len + block.length < sizeMax → AppendsRight s block)
    (fun s block => s.1.len + block.length < sizeMax → Roomy s block) (sized_empty limit)
    (fun _ _ h => forall_congr' fun hshort => h.appendsRight hshort)
    (fun _ block h _ => h.appendStep block) blocks

/-- With the greatest number for its limit an empty buffer does not grow. -/
theorem not_appendsRight_of_length {block : List UInt8} (h : block.length = 1024) :
    ¬AppendsRight (empty 0xFFFFFFFFFFFFFFFF) block := by
  have hlen : (empty 0xFFFFFFFFFFFFFFFF).1.len + block.length = 1024 := by
    rw [h]
    rfl
  have hshort : (empty 0xFFFFFFFFFFFFFFFF).1.len + block.length < sizeMax := by
    rw [hlen]
    decide
  intro hright
  have hroomy := ((sized_empty 0xFFFFFFFFFFFFFFFF).appendsRight hshort).1 hright rfl
  omega

/-- Such a buffer takes no block of 1024 bytes. -/
theorem not_appendsRight_max :
    ¬AppendsRight (empty 0xFFFFFFFFFFFFFFFF) (List.replicate 1024 97) :=
  not_appendsRight_of_length List.length_replicate

end EchoAi.HttpClient
