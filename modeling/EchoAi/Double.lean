import Mathlib.Algebra.Order.Floor.Ring
import Mathlib.Algebra.Order.Round
import Mathlib.Data.Int.Log
import Mathlib.Data.Rat.Floor
import Mathlib.Tactic.Linarith
import Mathlib.Tactic.NormNum

/-!
# Floating-point numbers

The numbers of a `double`, and the nearest of them to a rational.

* `Double`: a rational or an infinity; no operation here yields anything else.
* `roundEven`, `spacing`, `toDouble`: the nearest number, ties to even.
* `toDouble_intCast`: small integers are numbers of a `double`.
* `neg_of_toDouble`: a number that is at most `-1` stays negative.
* `longOf`: the conversion to a `long`.
-/

namespace EchoAi

/-- A number of a `double`. -/
inductive Double where
  | finite (x : ℚ)
  | infinite (negative : Bool)
  deriving DecidableEq

namespace Double

/-- `d < x` -/
def below (d : Double) (x : ℚ) : Bool :=
  match d with
  | .finite y => decide (y < x)
  | .infinite negative => negative

/-- `d > x` -/
def above (d : Double) (x : ℚ) : Bool :=
  match d with
  | .finite y => decide (x < y)
  | .infinite negative => !negative

/-! ## Rounding -/

/-- The nearest integer, the even one of two. -/
def roundEven (q : ℚ) : ℤ :=
  let n := ⌊q⌋
  if q - n < 1 / 2 then n
  else if 1 / 2 < q - n then n + 1
  else if 2 ∣ n then n else n + 1

/-- The distance between the numbers of a `double` around `q`. -/
def spacing (q : ℚ) : ℚ := 2 ^ max (Int.log 2 |q| - 52) (-1074)

/-- The nearest number of a `double`. -/
def toDouble (q : ℚ) : Double :=
  let x := roundEven (q / spacing q) * spacing q
  if |x| < 2 ^ 1024 then .finite x else .infinite (decide (q < 0))

theorem roundEven_intCast (n : ℤ) : roundEven n = n := by
  rw [roundEven]
  simp only [Int.floor_intCast, sub_self]
  rw [if_pos (by norm_num)]

theorem roundEven_neg_of_le {q : ℚ} (h : q ≤ -1) : roundEven q < 0 := by
  have hfloor : ⌊q⌋ ≤ -1 := by
    have hle := (Int.floor_le q).trans h
    exact_mod_cast hle
  rw [roundEven]
  rcases hfloor.lt_or_eq with hlt | heq
  · -- one more than the floor is still negative
    split
    · omega
    · split
      · omega
      · split <;> omega
  · have hsame : q - ⌊q⌋ < 1 / 2 := by
      rw [heq]
      push_cast
      linarith
    rw [if_pos hsame]
    omega

theorem spacing_pos (q : ℚ) : 0 < spacing q := zpow_pos two_pos _

/-- Around small numbers all integers are numbers of a `double`. -/
theorem exists_spacing_inv {q : ℚ} (h : |q| < 2 ^ 53) : ∃ k : ℕ, (spacing q)⁻¹ = 2 ^ k := by
  have hlog : Int.log 2 |q| ≤ 52 := by
    rcases (abs_nonneg q).eq_or_lt with hzero | hpos
    · rw [← hzero, Int.log_zero_right]
      omega
    · have hlt : |q| < ((2 : ℕ) : ℚ) ^ (53 : ℤ) := by exact_mod_cast h
      have := (Int.lt_zpow_iff_log_lt Nat.one_lt_two hpos).1 hlt
      omega
  refine ⟨(-max (Int.log 2 |q| - 52) (-1074)).toNat, ?_⟩
  rw [spacing, ← zpow_neg, ← zpow_natCast, Int.toNat_of_nonneg]
  omega

/-- **Small integers** are what they are. -/
theorem toDouble_intCast {n : ℤ} (h : |n| < 2 ^ 53) : toDouble n = .finite n := by
  have hsmall : |(n : ℚ)| < 2 ^ 53 := by exact_mod_cast h
  obtain ⟨k, hk⟩ := exists_spacing_inv hsmall
  have hquot : (n : ℚ) / spacing n = ((n * 2 ^ k : ℤ) : ℚ) := by
    rw [div_eq_mul_inv, hk]
    push_cast
    rfl
  have hback : ((n * 2 ^ k : ℤ) : ℚ) * spacing n = n := by
    rw [← hquot, div_mul_cancel₀ _ (spacing_pos _).ne']
  rw [toDouble, hquot, roundEven_intCast]
  rw [hback, if_pos (hsmall.trans (pow_lt_pow_right₀ one_lt_two (by omega)))]

/-- A negative integer stays negative. -/
theorem neg_of_toDouble {q x : ℚ} (hq : q ≤ -1) (h : toDouble q = .finite x) : x < 0 := by
  have hpos : 0 < |q| := abs_pos.2 (by linarith)
  have hone : 1 ≤ |q| := by
    rw [abs_of_nonpos (by linarith)]
    linarith
  have hlog : 0 ≤ Int.log 2 |q| := by
    rw [Int.log_of_one_le_right _ hone]
    exact Int.natCast_nonneg _
  have hspacing : spacing q ≤ |q| := by
    refine le_trans ?_ (Int.zpow_log_le_self Nat.one_lt_two hpos)
    rw [spacing]
    exact zpow_le_zpow_right₀ one_le_two (by omega)
  have hquot : q / spacing q ≤ -1 := by
    rw [div_le_iff₀ (spacing_pos q)]
    rw [abs_of_nonpos (by linarith)] at hspacing
    linarith
  have hneg : (roundEven (q / spacing q) : ℚ) < 0 := by exact_mod_cast roundEven_neg_of_le hquot
  rw [toDouble] at h
  split at h
  · rw [← Double.finite.inj h]
    exact mul_neg_of_neg_of_pos hneg (spacing_pos q)
  · exact absurd h (by simp)

/-! ## Conversion -/

/-- The integer part, cut towards zero. -/
def truncate (x : ℚ) : ℤ := if 0 ≤ x then ⌊x⌋ else ⌈x⌉

/-- `(long)d`, where `wild` is what the machine yields when the integer part is no `long`. -/
def longOf (wild : Double → Int64) : Double → ℤ
  | .finite x =>
    if -2 ^ 63 ≤ truncate x ∧ truncate x < 2 ^ 63 then truncate x else (wild (.finite x)).toInt
  | d => (wild d).toInt

theorem longOf_bounds (wild : Double → Int64) (d : Double) :
    -2 ^ 63 ≤ longOf wild d ∧ longOf wild d < 2 ^ 63 := by
  have hwild (d : Double) : -2 ^ 63 ≤ (wild d).toInt ∧ (wild d).toInt < 2 ^ 63 :=
    ⟨Int64.le_toInt _, Int64.toInt_lt _⟩
  cases d with
  | finite x =>
    rw [longOf]
    split
    · assumption
    · exact hwild _
  | infinite negative => exact hwild _

theorem longOf_intCast (wild : Double → Int64) {n : ℤ} (hlow : -2 ^ 63 ≤ n) (hhigh : n < 2 ^ 63) :
    longOf wild (.finite n) = n := by
  have htruncate : truncate n = n := by
    rw [truncate, Int.floor_intCast, Int.ceil_intCast, ite_self]
  rw [longOf, htruncate, if_pos ⟨hlow, hhigh⟩]

end Double

end EchoAi
