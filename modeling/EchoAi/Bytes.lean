import Mathlib.Data.List.TakeWhile
import Mathlib.Tactic.Ring

/-!
# Bytes on a wire

Numbers and data as a stream of bytes carries them.

* `takeBytes`: the next bytes of a stream, if it has as many.
* `beValue`, `beBytes`: a number in network byte order, with `beValue_beBytes` and
  `beBytes_beValue`.
* `xorCyclic`: data under a four byte key repeated cyclically, its own inverse
  (`xorCyclic_xorCyclic`), and when it changes nothing (`xorCyclic_eq_self_iff`).
* `ascii`: the bytes of a text of single byte characters; `cString`, `CText`: what C reads of a
  buffer; `grownCap`: the size to which a buffer grows.
-/

namespace EchoAi

/-- The bytes of a text of single byte characters. -/
def ascii (s : String) : List UInt8 := s.toList.map fun c => UInt8.ofNat c.toNat

/-- The bytes of a text that is given by its characters. -/
theorem ascii_ofList (cs : List Char) :
    ascii (String.ofList cs) = cs.map fun c => UInt8.ofNat c.toNat := by
  rw [ascii, String.toList_ofList]

theorem ascii_append (s t : String) : ascii (s ++ t) = ascii s ++ ascii t := by
  rw [ascii, String.toList_append, List.map_append]
  rfl

/-- A property of the bytes of a text that is given by its characters. -/
theorem forall_mem_ascii {P : UInt8 → Prop} [DecidablePred P] {cs : List Char}
    (h : cs.all (fun c => decide (P (UInt8.ofNat c.toNat))) = true) :
    ∀ c ∈ ascii (String.ofList cs), P c := by
  intro c hc
  rw [ascii_ofList] at hc
  obtain ⟨d, hd, rfl⟩ := List.mem_map.1 hc
  exact of_decide_eq_true (List.all_eq_true.1 h d hd)

/-- The bytes of a number are digits. -/
theorem digit_of_mem_ascii_toString {n : Nat} {c : UInt8} (h : c ∈ ascii (toString n)) :
    48 ≤ c ∧ c ≤ 57 := by
  obtain ⟨d, hd, rfl⟩ := List.mem_map.1 h
  rw [Nat.toString_eq_ofList_toDigits, String.toList_ofList] at hd
  have hdigit : 48 ≤ d.toNat ∧ d.toNat ≤ 57 := by
    have h := Nat.isDigit_of_mem_toDigits (by decide) (by decide) hd
    rw [Char.isDigit, Bool.and_eq_true, decide_eq_true_eq, decide_eq_true_eq] at h
    exact h
  have hall : ∀ n < 58, 48 ≤ n → 48 ≤ UInt8.ofNat n ∧ UInt8.ofNat n ≤ 57 := by decide
  exact hall d.toNat (Nat.lt_succ_of_le hdigit.2) hdigit.1

/-- A property of the bytes around a number and of all digits. -/
theorem forall_mem_ascii_number {P : UInt8 → Prop} {front back : String} {n : Nat}
    (hfront : ∀ c ∈ ascii front, P c) (hback : ∀ c ∈ ascii back, P c)
    (hdigit : ∀ c, 48 ≤ c → c ≤ 57 → P c) : ∀ c ∈ ascii (front ++ toString n ++ back), P c := by
  intro c hc
  rw [ascii_append, ascii_append, List.mem_append, List.mem_append] at hc
  rcases hc with (hc | hc) | hc
  · exact hfront c hc
  · obtain ⟨hlow, hhigh⟩ := digit_of_mem_ascii_toString hc
    exact hdigit c hlow hhigh
  · exact hback c hc

/-- The bytes of a buffer that C reads as a string. -/
def cString (bs : List UInt8) : List UInt8 := bs.takeWhile (· ≠ 0)

/-- Up to the first NUL everything is read. -/
theorem cString_append_of_notMem {as : List UInt8} (h : 0 ∉ as) (bs : List UInt8) :
    cString (as ++ bs) = as ++ cString bs := by
  refine List.takeWhile_append_of_pos fun b hb => ?_
  rw [decide_eq_true_eq]
  rintro rfl
  exact h hb

theorem cString_of_notMem {bs : List UInt8} (h : 0 ∉ bs) : cString bs = bs := by
  have hnil := cString_append_of_notMem h []
  rwa [List.append_nil, show cString [] = [] from rfl, List.append_nil] at hnil

/-- Behind a NUL nothing is read. -/
theorem cString_append_of_mem {as : List UInt8} (h : 0 ∈ as) (bs : List UInt8) :
    cString (as ++ bs) = cString as := by
  obtain ⟨front, rest, rfl, hfront⟩ := List.eq_append_cons_of_mem h
  have hstop : ∀ cs : List UInt8, cString (0 :: cs) = [] := fun cs =>
    List.takeWhile_cons_of_neg (by decide)
  rw [List.append_assoc, List.cons_append, cString_append_of_notMem hfront,
    cString_append_of_notMem hfront, hstop, hstop]

theorem cString_isPrefix (as bs : List UInt8) : cString as <+: cString (as ++ bs) := by
  by_cases h : 0 ∈ as
  · have hsame := cString_append_of_mem h bs
    exact hsame ▸ List.prefix_rfl
  · rw [cString_of_notMem h, cString_append_of_notMem h]
    exact List.prefix_append _ _

/-- A text of C: bytes without a NUL. -/
structure CText where
  bytes : List UInt8
  noNul : 0 ∉ bytes
  deriving DecidableEq

theorem noNul_cString (bs : List UInt8) : 0 ∉ cString bs := by
  intro h
  have hne := List.mem_takeWhile_imp h
  exact absurd hne (by decide)

theorem cString_isPrefix_self (bs : List UInt8) : cString bs <+: bs := List.takeWhile_prefix _

/-! ## Buffers that grow -/

/-- The loops that double the size of a buffer up to what it needs; the size is positive. -/
def grownCap (newcap need : Nat) : Nat :=
  if 0 < newcap ∧ newcap < need then
    if (2 ^ 64 - 1) / 2 < newcap then need else grownCap (newcap * 2) need
  else newcap
termination_by need - newcap

theorem le_grownCap {newcap : Nat} (hpos : 0 < newcap) (need : Nat) : need ≤ grownCap newcap need := by
  fun_induction grownCap newcap need with
  | case1 => exact Nat.le_refl need
  | case2 newcap hgrow _ ih => exact ih (by omega)
  | case3 newcap hstop => omega

/-! ## The next bytes -/

/-- The next `n` bytes and the ones behind them. -/
def takeBytes (n : Nat) (bs : List UInt8) : Option (List UInt8 × List UInt8) :=
  if bs.length < n then none else some (bs.take n, bs.drop n)

theorem takeBytes_append (as bs : List UInt8) {n : Nat} (hn : as.length = n) :
    takeBytes n (as ++ bs) = some (as, bs) := by
  subst hn
  have hlong : ¬(as ++ bs).length < as.length := by
    rw [List.length_append]
    omega
  rw [takeBytes, if_neg hlong, List.take_left, List.drop_left]

theorem length_of_takeBytes {n : Nat} {bs as rest : List UInt8}
    (h : takeBytes n bs = some (as, rest)) : as.length = n ∧ bs.length = n + rest.length := by
  rw [takeBytes] at h
  split at h
  · exact absurd h (by simp)
  · obtain ⟨rfl, rfl⟩ := Prod.mk.inj (Option.some.inj h)
    rw [List.length_take, List.length_drop]
    omega

/-! ## Network byte order -/

/-- The number that bytes in network order stand for. -/
def beValue (bs : List UInt8) : Nat := bs.foldl (fun n b => n * 256 + b.toNat) 0

/-- The lowest `w` bytes of a number in network order. -/
def beBytes : (w : Nat) → (n : Nat) → List UInt8
  | 0, _ => []
  | w + 1, n => UInt8.ofNat (n / 256 ^ w) :: beBytes w n

@[simp] theorem length_beBytes (w n : Nat) : (beBytes w n).length = w := by
  induction w with
  | zero => rfl
  | succ w ih => rw [beBytes, List.length_cons, ih]

/-- Reading on behind bytes that stand for `a`. -/
theorem foldl_beBytes (w n a : Nat) :
    (beBytes w n).foldl (fun n b => n * 256 + b.toNat) a = a * 256 ^ w + n % 256 ^ w := by
  induction w generalizing a with
  | zero => simp [beBytes, Nat.mod_one]
  | succ w ih =>
    have hdigit : (UInt8.ofNat (n / 256 ^ w)).toNat = n / 256 ^ w % 256 := UInt8.toNat_ofNat'
    have hmod : n % 256 ^ (w + 1) = n / 256 ^ w % 256 * 256 ^ w + n % 256 ^ w := by
      rw [Nat.pow_succ, Nat.mod_mul, Nat.mul_comm, Nat.add_comm]
    rw [beBytes, List.foldl_cons, ih, hdigit, hmod]
    ring

theorem beValue_beBytes {w n : Nat} (hn : n < 256 ^ w) : beValue (beBytes w n) = n := by
  rw [beValue, foldl_beBytes, Nat.zero_mul, Nat.zero_add, Nat.mod_eq_of_lt hn]

/-- Only the lowest bytes count. -/
theorem beBytes_add_mul (w n c : Nat) : beBytes w (n + c * 256 ^ w) = beBytes w n := by
  induction w generalizing c with
  | zero => rfl
  | succ w ih =>
    have hpow : c * 256 ^ (w + 1) = c * 256 * 256 ^ w := by rw [Nat.pow_succ]; ring
    have hdigit : UInt8.ofNat ((n + c * 256 ^ (w + 1)) / 256 ^ w) = UInt8.ofNat (n / 256 ^ w) := by
      apply UInt8.toNat_inj.mp
      rw [UInt8.toNat_ofNat', UInt8.toNat_ofNat', hpow,
        Nat.add_mul_div_right _ _ (Nat.pow_pos (by decide)), Nat.add_mul_mod_self_right]
    rw [beBytes, beBytes, hdigit, hpow, ih]

theorem beBytes_mod (w n : Nat) : beBytes w (n % 256 ^ w) = beBytes w n := by
  have hsplit := Nat.mod_add_div n (256 ^ w)
  rw [Nat.mul_comm] at hsplit
  calc beBytes w (n % 256 ^ w) = beBytes w (n % 256 ^ w + n / 256 ^ w * 256 ^ w) :=
        (beBytes_add_mul w _ _).symm
    _ = beBytes w n := by rw [hsplit]

/-- Reading on behind `a`. -/
theorem foldl_beValue (bs : List UInt8) (a : Nat) :
    bs.foldl (fun n b => n * 256 + b.toNat) a = a * 256 ^ bs.length + beValue bs := by
  induction bs generalizing a with
  | nil => rw [List.foldl_nil, List.length_nil, pow_zero, Nat.mul_one]; rfl
  | cons b bs ih =>
    rw [beValue, List.foldl_cons, List.foldl_cons, ih, ih (0 * 256 + b.toNat), List.length_cons,
      Nat.pow_succ]
    ring

theorem beValue_cons (b : UInt8) (bs : List UInt8) :
    beValue (b :: bs) = b.toNat * 256 ^ bs.length + beValue bs := by
  rw [beValue, List.foldl_cons, foldl_beValue, Nat.zero_mul, Nat.zero_add]

theorem beValue_append (as bs : List UInt8) :
    beValue (as ++ bs) = beValue as * 256 ^ bs.length + beValue bs := by
  rw [beValue, List.foldl_append, foldl_beValue]
  rfl

theorem beValue_lt (bs : List UInt8) : beValue bs < 256 ^ bs.length := by
  induction bs with
  | nil => exact Nat.one_pos
  | cons b bs ih =>
    have hb : b.toNat < 256 := b.toNat_lt
    rw [beValue_cons, List.length_cons, Nat.pow_succ]
    calc b.toNat * 256 ^ bs.length + beValue bs
        < b.toNat * 256 ^ bs.length + 256 ^ bs.length := Nat.add_lt_add_left ih _
      _ = (b.toNat + 1) * 256 ^ bs.length := by ring
      _ ≤ 256 * 256 ^ bs.length := Nat.mul_le_mul_right _ hb
      _ = 256 ^ bs.length * 256 := Nat.mul_comm _ _

theorem beBytes_beValue (bs : List UInt8) : beBytes bs.length (beValue bs) = bs := by
  induction bs with
  | nil => rfl
  | cons b bs ih =>
    have hpos : 0 < 256 ^ bs.length := Nat.pow_pos (by decide)
    have hdigit : (b.toNat * 256 ^ bs.length + beValue bs) / 256 ^ bs.length = b.toNat := by
      rw [Nat.add_comm, Nat.add_mul_div_right _ _ hpos, Nat.div_eq_of_lt (beValue_lt bs),
        Nat.zero_add]
    rw [List.length_cons, beValue_cons, beBytes, hdigit, UInt8.ofNat_toNat,
      Nat.add_comm, beBytes_add_mul, ih]

/-! ## A cyclic key -/

/-- Bytes under a key of four bytes that repeats. -/
def xorCyclic (key : Vector UInt8 4) (bs : List UInt8) : List UInt8 :=
  bs.mapIdx fun i b => b ^^^ key[i % 4]

/-- The byte of the key that stands at a place. -/
def cyclicByte (key : Vector UInt8 4) (i : Nat) : UInt8 := key[i % 4]

@[simp] theorem length_xorCyclic (key : Vector UInt8 4) (bs : List UInt8) :
    (xorCyclic key bs).length = bs.length :=
  List.length_mapIdx

@[simp] theorem xorCyclic_xorCyclic (key : Vector UInt8 4) (bs : List UInt8) :
    xorCyclic key (xorCyclic key bs) = bs := by
  refine List.ext_getElem (by simp) fun i hi _ => ?_
  simp only [xorCyclic, List.getElem_mapIdx]
  rw [UInt8.xor_assoc, UInt8.xor_self, UInt8.xor_zero]

/-- A key leaves the bytes as they are just when every byte of it that is used is zero. -/
theorem xorCyclic_eq_self_iff (key : Vector UInt8 4) (bs : List UInt8) :
    xorCyclic key bs = bs ↔ ∀ i < bs.length, cyclicByte key i = 0 := by
  constructor
  · intro h i hi
    have hbyte : (xorCyclic key bs)[i]? = bs[i]? := by rw [h]
    rw [xorCyclic, List.getElem?_mapIdx, List.getElem?_eq_getElem hi] at hbyte
    have hxor : bs[i] ^^^ key[i % 4] = bs[i] := Option.some.inj hbyte
    calc key[i % 4] = bs[i] ^^^ (bs[i] ^^^ key[i % 4]) := by
          rw [← UInt8.xor_assoc, UInt8.xor_self, UInt8.zero_xor]
      _ = 0 := by rw [hxor, UInt8.xor_self]
  · intro h
    refine List.ext_getElem (by simp) fun i hi hi' => ?_
    have hzero : key[i % 4] = 0 := h i hi'
    simp only [xorCyclic, List.getElem_mapIdx]
    rw [hzero, UInt8.xor_zero]

end EchoAi
