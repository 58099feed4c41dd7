import Mathlib.Algebra.Order.Field.Basic
import Mathlib.Algebra.Order.Field.Power
import Mathlib.Algebra.Order.Ring.NNRat
import Mathlib.Data.Int.Log
import Mathlib.Data.NNRat.Floor
import Mathlib.Data.Sign.Basic
import Mathlib.Tactic.FieldSimp
import Mathlib.Tactic.Linarith
import Mathlib.Tactic.Positivity

/-!
# Rounding to the nearest number

A number is rounded to the nearest whole one, or to the nearest one with a given number of
binary digits. Of two equally near numbers the even one is taken. The exponent of a rounded
number has no bounds.
-/

namespace Rounding

/-! ## Whole numbers -/

/-- The nearest number, of two equally near ones the even one. -/
def roundHalfEven (value : ℚ≥0) : Nat :=
  let whole := value.num / value.den
  let twice := 2 * (value.num % value.den)
  if twice < value.den then whole
  else if value.den < twice then whole + 1
  else if whole % 2 = 0 then whole else whole + 1

/-- Whole numbers are not rounded. -/
theorem roundHalfEven_natCast (value : Nat) : roundHalfEven value = value := by
  have num : (value : ℚ≥0).num = value := NNRat.num_natCast value
  have den : (value : ℚ≥0).den = 1 := NNRat.den_natCast value
  simp [roundHalfEven, num, den, Nat.mod_one]

/-- Rounding does not go past a whole number. -/
theorem roundHalfEven_le {value : ℚ≥0} {bound : Nat} (below : value < bound) :
    roundHalfEven value ≤ bound := by
  have positive : 0 < value.den := value.den_pos
  have quotient : (value.num : ℚ≥0) / value.den < bound := by rwa [NNRat.num_div_den]
  have scaled : value.num < bound * value.den := by
    rw [div_lt_iff₀ (Nat.cast_pos.mpr positive)] at quotient
    rw [← Nat.cast_mul] at quotient
    exact Nat.cast_lt.mp quotient
  have whole : value.num / value.den < bound := Nat.div_lt_of_lt_mul (by rwa [Nat.mul_comm])
  unfold roundHalfEven
  dsimp only
  split_ifs <;> omega

/-- Rounding is off by half a unit at most. -/
theorem roundHalfEven_near (value : ℚ≥0) : |(roundHalfEven value : ℚ) - value| ≤ 1 / 2 := by
  have positive : (0 : ℚ) < value.den := Nat.cast_pos.mpr value.den_pos
  have split : (value.den : ℚ) * (value.num / value.den : Nat) + (value.num % value.den : Nat) =
      value.num := by exact_mod_cast Nat.div_add_mod value.num value.den
  have quotient : (value : ℚ) * value.den = value.num := by
    rw [← NNRat.cast_natCast value.den, ← NNRat.cast_natCast value.num, ← NNRat.cast_mul,
      NNRat.mul_den_eq_num]
  have scaled (rounded : Nat) (near : |(rounded * value.den : ℚ) - value.num| ≤ value.den / 2) :
      |(rounded : ℚ) - value| ≤ 1 / 2 := by
    rw [← quotient, ← sub_mul, abs_mul, abs_of_pos positive] at near
    exact le_of_mul_le_mul_right (by linarith) positive
  have remainder : value.num % value.den < value.den := Nat.mod_lt _ value.den_pos
  have down (half : 2 * (value.num % value.den) ≤ value.den) :
      |(value.num / value.den : Nat) - (value : ℚ)| ≤ 1 / 2 := by
    have half : (2 * (value.num % value.den : Nat) : ℚ) ≤ value.den := by exact_mod_cast half
    have nonneg : (0 : ℚ) ≤ (value.num % value.den : Nat) := Nat.cast_nonneg _
    apply scaled
    rw [abs_le]
    constructor <;> linarith
  have up (half : value.den ≤ 2 * (value.num % value.den)) :
      |(value.num / value.den + 1 : Nat) - (value : ℚ)| ≤ 1 / 2 := by
    have half : (value.den : ℚ) ≤ 2 * (value.num % value.den : Nat) := by exact_mod_cast half
    have below : ((value.num % value.den : Nat) : ℚ) < value.den := by exact_mod_cast remainder
    apply scaled
    rw [abs_le]
    push_cast at split ⊢
    constructor <;> linarith
  unfold roundHalfEven
  dsimp only
  split_ifs with less more even
  · exact down less.le
  · exact up more.le
  · exact down (not_lt.mp more)
  · exact up (not_lt.mp less)

/-- Rounding to a fraction of a unit is off by half of it at most. -/
theorem roundHalfEven_scaled_near {scale : Nat} (nonzero : 0 < scale) (magnitude : ℚ≥0) :
    |((roundHalfEven (magnitude * scale) / scale : ℚ≥0) : ℚ) - magnitude| ≤ 1 / (2 * scale) := by
  have positive : (0 : ℚ) < scale := Nat.cast_pos.mpr nonzero
  have near := roundHalfEven_near (magnitude * scale)
  rw [NNRat.cast_mul, NNRat.cast_natCast] at near
  have scaled : ((roundHalfEven (magnitude * scale) / scale : ℚ≥0) : ℚ) - magnitude =
      ((roundHalfEven (magnitude * scale) : ℚ) - magnitude * scale) / scale := by
    rw [NNRat.cast_div, NNRat.cast_natCast, NNRat.cast_natCast]
    field_simp
  rw [scaled, abs_div, abs_of_pos positive, div_le_div_iff₀ positive (by positivity)]
  linarith [mul_le_mul_of_nonneg_right near positive.le]

/-! ## Binary digits -/

/-- `x` has at most `precision` binary digits. -/
def Representable (precision : Nat) (x : ℚ) : Prop :=
  ∃ digits exponent : ℤ, |digits| ≤ 2 ^ precision ∧ x = digits * 2 ^ exponent

/-- The exponent of the last of the first `precision` binary digits of `x`. -/
def lastPlace (precision : Nat) (x : ℚ) : ℤ := Int.log 2 |x| + 1 - precision

/-- `x` without its sign, counted in units of its last place. -/
def scaled (precision : Nat) (x : ℚ) : ℚ≥0 := (x / 2 ^ lastPlace precision x).nnabs

/-- The nearest number with `precision` binary digits. -/
def nearest (precision : Nat) (x : ℚ) : ℚ :=
  SignType.sign x * (roundHalfEven (scaled precision x) * 2 ^ lastPlace precision x)

variable {precision : Nat} {x y : ℚ}

/-- A power of two is positive. -/
theorem two_zpow_pos (exponent : ℤ) : (0 : ℚ) < 2 ^ exponent := zpow_pos (by norm_num) exponent

/-- A scaled number is a quotient of rationals. -/
theorem coe_scaled (precision : Nat) (x : ℚ) :
    (scaled precision x : ℚ) = |x| / 2 ^ lastPlace precision x := by
  rw [scaled, Rat.coe_nnabs, abs_div, abs_of_pos (two_zpow_pos _)]

/-- Scaling keeps the number. -/
theorem scaled_mul (precision : Nat) (x : ℚ) :
    (scaled precision x : ℚ) * 2 ^ lastPlace precision x = |x| := by
  rw [coe_scaled, div_mul_cancel₀ _ (two_zpow_pos _).ne']

/-- A number with its sign put back. -/
theorem sign_mul_scaled (precision : Nat) (x : ℚ) :
    (SignType.sign x : ℚ) * (scaled precision x * 2 ^ lastPlace precision x) = x := by
  rw [scaled_mul, sign_mul_abs]

/-- The first digit of a number is not zero. -/
theorem le_abs_of_ne_zero (precision : Nat) (nonzero : x ≠ 0) :
    (2 : ℚ) ^ (lastPlace precision x + precision - 1) ≤ |x| := by
  have exponent : lastPlace precision x + precision - 1 = Int.log 2 |x| := by
    rw [lastPlace]
    ring
  rw [exponent]
  exact_mod_cast Int.zpow_log_le_self (by decide) (abs_pos.mpr nonzero)

/-- No digit stands in front of the first one. -/
theorem abs_lt (precision : Nat) (x : ℚ) : |x| < 2 ^ (lastPlace precision x + precision) := by
  have exponent : lastPlace precision x + precision = Int.log 2 |x| + 1 := by
    rw [lastPlace]
    ring
  rw [exponent]
  exact_mod_cast Int.lt_zpow_succ_log_self (by decide) |x|

/-- Rounding is off by half a unit of the last place at most. -/
theorem nearest_error (precision : Nat) (x : ℚ) :
    |nearest precision x - x| ≤ |x| / 2 ^ precision := by
  by_cases zero : x = 0
  · simp [nearest, zero]
  have split : nearest precision x - x = SignType.sign x *
      ((roundHalfEven (scaled precision x) - scaled precision x) * 2 ^ lastPlace precision x) := by
    nth_rewrite 2 [← sign_mul_scaled precision x]
    rw [nearest]
    ring
  have sign : |(SignType.sign x : ℚ)| ≤ 1 := by
    cases SignType.sign x <;> norm_num
  have half := le_abs_of_ne_zero precision zero
  rw [zpow_sub₀ two_ne_zero, zpow_add₀ two_ne_zero, zpow_natCast, zpow_one] at half
  rw [split, abs_mul, abs_mul, abs_of_pos (two_zpow_pos _), le_div_iff₀ (by positivity)]
  calc |(SignType.sign x : ℚ)| * (|(roundHalfEven (scaled precision x) : ℚ) - scaled precision x| *
        2 ^ lastPlace precision x) * 2 ^ precision
      ≤ 1 * (1 / 2 * 2 ^ lastPlace precision x) * 2 ^ precision := by
        have near := roundHalfEven_near (scaled precision x)
        gcongr
    _ ≤ |x| := by linarith

/-- Whole units of the last place are not rounded. -/
theorem nearest_of_scaled {units : Nat} (whole : scaled precision x = units) :
    nearest precision x = x := by
  have back := sign_mul_scaled precision x
  rw [whole, NNRat.cast_natCast] at back
  rw [nearest, whole, roundHalfEven_natCast, back]

/-- A number with few enough digits is not rounded. -/
theorem nearest_of_representable (positive : 0 < precision) (short : Representable precision x) :
    nearest precision x = x := by
  by_cases zero : x = 0
  · simp [nearest, zero]
  obtain ⟨digits, exponent, few, value⟩ := short
  have magnitude : |x| = digits.natAbs * 2 ^ exponent := by
    rw [value, abs_mul, abs_of_pos (two_zpow_pos exponent), ← Int.cast_abs, Int.abs_eq_natAbs,
      Int.cast_natCast]
  by_cases above : lastPlace precision x ≤ exponent
  · obtain ⟨places, gap⟩ := Int.le.dest above
    have units : (scaled precision x : ℚ) = digits.natAbs * 2 ^ places := by
      rw [coe_scaled, div_eq_iff (two_zpow_pos _).ne', magnitude, ← gap, zpow_add₀ two_ne_zero,
        zpow_natCast]
      ring
    have whole : scaled precision x = (digits.natAbs * 2 ^ places : Nat) := by
      exact_mod_cast units
    exact nearest_of_scaled whole
  · -- a number whose last digit lies below its last place is a power of two
    have short : (digits.natAbs : ℚ) ≤ 2 ^ precision := by
      rw [← Int.cast_natCast, ← Int.abs_eq_natAbs]
      exact_mod_cast few
    have bounded : |x| ≤ 2 ^ (lastPlace precision x + precision - 1) := by
      calc |x| ≤ 2 ^ precision * 2 ^ exponent := by
            rw [magnitude]
            exact mul_le_mul_of_nonneg_right short (two_zpow_pos _).le
        _ = 2 ^ (precision + exponent) := by rw [zpow_add₀ two_ne_zero, zpow_natCast]
        _ ≤ 2 ^ (lastPlace precision x + precision - 1) :=
            zpow_le_zpow_right₀ (by norm_num) (by omega)
    have power := le_antisymm bounded (le_abs_of_ne_zero precision zero)
    have units : (scaled precision x : ℚ) = 2 ^ (precision - 1) := by
      have exponents : lastPlace precision x + precision - 1 =
          lastPlace precision x + (precision - 1 : Nat) := by omega
      rw [coe_scaled, div_eq_iff (two_zpow_pos _).ne', power, exponents, zpow_add₀ two_ne_zero,
        zpow_natCast, mul_comm]
    have whole : scaled precision x = (2 ^ (precision - 1) : Nat) := by
      exact_mod_cast units
    exact nearest_of_scaled whole

/-- Only zero is rounded to zero. -/
theorem nearest_eq_zero_iff (positive : 0 < precision) : nearest precision x = 0 ↔ x = 0 := by
  constructor
  · intro rounded
    have error := nearest_error precision x
    have double : (2 : ℚ) ≤ 2 ^ precision := by
      calc (2 : ℚ) = 2 ^ 1 := (pow_one 2).symm
        _ ≤ 2 ^ precision := pow_le_pow_right₀ (by norm_num) positive
    rw [rounded, zero_sub, abs_neg, le_div_iff₀ (by positivity)] at error
    have nonneg := abs_nonneg x
    exact abs_eq_zero.mp (by nlinarith)
  · rintro rfl
    simp [nearest]

/-- A whole number which is small enough is representable. -/
theorem representable_intCast {number : ℤ} (small : |number| ≤ 2 ^ precision) :
    Representable precision number :=
  ⟨number, 0, small, by simp⟩

end Rounding
