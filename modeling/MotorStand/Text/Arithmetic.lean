import MotorStand.Text.Decimal

/-!
# Products and sums of doubles

Exact arithmetic with the signs of zero, the infinities and what is no number, as the
floating-point standard has them for rounding to nearest.
-/

namespace CText

namespace Double

/-- `left * right`. -/
def mul : Double → Double → Double
  | .finite s x, .finite t y => .finite (xor s t) (x * y)
  | .finite s x, .infinite t | .infinite s, .finite t x =>
      if x = 0 then .notANumber false else .infinite (xor s t)
  | .infinite s, .infinite t => .infinite (xor s t)
  | .notANumber s, _ | _, .notANumber s => .notANumber s

/-- `left + right`. -/
def add : Double → Double → Double
  | .finite s x, .finite t y =>
      if s = t then .finite s (x + y)
      else if x = y then .finite false 0
      else if y < x then .finite s (x - y)
      else .finite t (y - x)
  | .finite _ _, .infinite t | .infinite t, .finite _ _ => .infinite t
  | .infinite s, .infinite t => if s = t then .infinite s else .notANumber false
  | .notANumber s, _ | _, .notANumber s => .notANumber s

end Double

variable {left right : Double} {x y : ℚ}

/-- A double with a number is a sign and a magnitude. -/
theorem exists_finite (number : left.number = some x) :
    ∃ negative magnitude, left = .finite negative magnitude ∧
      x = if negative then -(magnitude : ℚ) else magnitude := by
  cases left with
  | infinite | notANumber => cases number
  | finite negative magnitude =>
      rw [number_finite] at number
      exact ⟨negative, magnitude, rfl, (Option.some.inj number).symm⟩

/-- The product of two numbers. -/
theorem number_mul (first : left.number = some x) (second : right.number = some y) :
    (left.mul right).number = some (x * y) := by
  obtain ⟨s, p, rfl, rfl⟩ := exists_finite first
  obtain ⟨t, q, rfl, rfl⟩ := exists_finite second
  rw [Double.mul, number_finite, NNRat.cast_mul]
  cases s <;> cases t <;> simp

/-- Magnitudes with opposite signs are subtracted. -/
theorem number_add_opposite (s : Bool) (p q : ℚ≥0) :
    ((Double.finite s p).add (.finite (!s) q)).number =
      some (if s then (q : ℚ) - p else p - q) := by
  have apart : s ≠ !s := by cases s <;> decide
  rw [Double.add, if_neg apart]
  by_cases equal : p = q
  · rw [if_pos equal, equal]
    cases s <;> simp [Double.number]
  rw [if_neg equal]
  by_cases below : q < p
  · rw [if_pos below, number_finite, NNRat.coe_sub below.le]
    cases s <;> simp
  · rw [if_neg below, number_finite, NNRat.coe_sub (not_lt.mp below)]
    cases s <;> simp

/-- The sum of two numbers. -/
theorem number_add (first : left.number = some x) (second : right.number = some y) :
    (left.add right).number = some (x + y) := by
  obtain ⟨s, p, rfl, rfl⟩ := exists_finite first
  obtain ⟨t, q, rfl, rfl⟩ := exists_finite second
  by_cases same : s = t
  · rw [Double.add, if_pos same, number_finite, NNRat.cast_add]
    subst same
    cases s
    · rfl
    · simp [add_comm]
  · obtain rfl : t = !s := Bool.eq_not_of_ne (Ne.symm same)
    rw [number_add_opposite]
    cases s
    · simp [sub_eq_add_neg]
    · simp [sub_eq_neg_add]

/-- A zero times a number is a zero. -/
theorem finite_zero_mul (s t : Bool) (x : ℚ≥0) :
    (Double.finite s 0).mul (.finite t x) = .finite (xor s t) 0 :=
  congrArg _ (zero_mul x)

/-- A zero in front changes no sum, except that the negative zero may lose its sign. -/
theorem finite_zero_add (negative : Bool) (other : right ≠ .finite true 0) :
    (Double.finite negative 0).add right = right := by
  cases right with
  | infinite | notANumber => rfl
  | finite t y =>
      rw [Double.add]
      split_ifs with same equal below
      · rw [zero_add, same]
      · subst equal
        cases t with
        | false => rfl
        | true => exact absurd rfl other
      · exact absurd below not_lt_zero
      · have whole : y - 0 = y := NNRat.coe_injective (by rw [NNRat.coe_sub zero_le]; simp)
        rw [whole]

end CText
