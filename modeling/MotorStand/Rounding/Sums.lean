import MotorStand.Rounding.Nearest
import Mathlib.Algebra.BigOperators.Group.List.Basic
import Mathlib.Algebra.Order.BigOperators.Group.List
import Mathlib.Tactic.Ring

/-!
# Sums which are rounded after every addition

A calculation is written once, with a function through which every result passes. The exact
calculation is the one in which that function is the identity. How far a rounded sum is off
depends on the number of its terms; a sum of whole numbers which stay small is exact.
-/

namespace Rounding

/-- Rounding is off by the fraction `unit` of the number at most. -/
def Rounds (rnd : ℚ → ℚ) (unit : ℚ) : Prop := ∀ x, |rnd x - x| ≤ unit * |x|

/-- `sum += term` for every term, from `start` on. -/
def addTerms (rnd : ℚ → ℚ) (start : ℚ) (terms : List ℚ) : ℚ :=
  terms.foldl (fun sum term => rnd (sum + term)) start

variable {rnd : ℚ → ℚ} {unit start bound distance : ℚ} {terms : List ℚ} {precision : Nat}

/-- A rounded number is larger by the fraction `unit` at most. -/
theorem Rounds.abs_le (rounds : Rounds rnd unit) (x : ℚ) : |rnd x| ≤ (1 + unit) * |x| := by
  have error := rounds x
  have split : |rnd x| ≤ |rnd x - x| + |x| := by
    simpa using abs_add_le (rnd x - x) x
  linarith

/-- Without rounding the terms are added. -/
theorem addTerms_id (start : ℚ) (terms : List ℚ) : addTerms id start terms = start + terms.sum := by
  induction terms generalizing start with
  | nil => exact (add_zero start).symm
  | cons term terms ih =>
      rw [addTerms, List.foldl_cons, List.sum_cons, ← add_assoc]
      exact ih (start + term)

/-- The sum of terms of a bounded magnitude. -/
theorem abs_sum_le {K : Type} [Ring K] [LinearOrder K] [IsStrictOrderedRing K] {terms : List K}
    {bound : K} (each : ∀ term ∈ terms, |term| ≤ bound) : |terms.sum| ≤ terms.length * bound := by
  induction terms with
  | nil => simp
  | cons term terms ih =>
      have first := each term List.mem_cons_self
      have rest := ih fun other member => each other (List.mem_cons_of_mem _ member)
      rw [List.sum_cons, List.length_cons, Nat.cast_add_one, add_one_mul, add_comm (_ * bound)]
      exact (abs_add_le _ _).trans (add_le_add first rest)

/-- A sum of whole numbers which stay small is not rounded. -/
theorem addTerms_intCast (positive : 0 < precision) {numbers : List ℤ} {start bound : ℤ}
    (each : ∀ number ∈ numbers, |number| ≤ bound)
    (room : |start| + numbers.length * bound ≤ 2 ^ precision) :
    addTerms (nearest precision) start (numbers.map Int.cast) = (start + numbers.sum : ℤ) := by
  induction numbers generalizing start with
  | nil => simp [addTerms]
  | cons number numbers ih =>
      have first := each number List.mem_cons_self
      have added : |start + number| ≤ |start| + |number| := abs_add_le _ _
      rw [List.length_cons, Nat.cast_add_one, add_one_mul] at room
      have others : 0 ≤ (numbers.length : ℤ) * bound :=
        mul_nonneg (Nat.cast_nonneg _) ((abs_nonneg _).trans first)
      have exact : nearest precision (start + number) = ((start + number : ℤ) : ℚ) := by
        rw [← Int.cast_add]
        exact nearest_of_representable positive (representable_intCast (by linarith))
      rw [List.map_cons, addTerms, List.foldl_cons, exact, List.sum_cons, ← add_assoc]
      exact ih (fun other member => each other (List.mem_cons_of_mem _ member)) (by linarith)

end Rounding
