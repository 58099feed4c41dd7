import MotorStand.Fit.Filters
import MotorStand.Rounding.Sums

/-!
# The linear fit with rounded results

`first_order_least_squares_filter` with the part of `matinv` and `matmul` which it uses, written
with a function `rnd` through which every result passes. With the identity it is the filter on
the heap; with the rounding of doubles it is the filter as it runs.
-/

namespace MotorStand

namespace Rounded

open Imperative Imperative.Exec LeastSquares Rounding

/-- The entries of a 2x2 matrix. -/
structure Square where
  vals0 : ℚ
  vals1 : ℚ
  vals2 : ℚ
  vals3 : ℚ

/-- The entries of a 2x1 matrix. -/
structure Column where
  vals0 : ℚ
  vals1 : ℚ

/-- `eq` and `ac`. -/
structure System where
  eq : Square
  ac : Column

/-- A sample: what `x` and `y` point to. -/
structure Sample where
  x : ℚ
  y : ℚ

/-- `matinv_safe` on a 2x2 matrix, and `none` where it leaves the flag at zero. -/
def matinvSafe (rnd : ℚ → ℚ) (a : Square) : Option Square :=
  let div := rnd (rnd (a.vals0 * a.vals3) - rnd (a.vals1 * a.vals2))
  if div = 0 then none
  else some ⟨rnd (a.vals3 / div), rnd (-a.vals1 / div), rnd (-a.vals2 / div), rnd (a.vals0 / div)⟩

/-- `matmul` of a 2x2 and a 2x1 matrix. -/
def matmul (rnd : ℚ → ℚ) (l : Square) (r : Column) : Column where
  vals0 := addTerms rnd 0 [rnd (l.vals0 * r.vals0), rnd (l.vals1 * r.vals1)]
  vals1 := addTerms rnd 0 [rnd (l.vals2 * r.vals0), rnd (l.vals3 * r.vals1)]

/-- What the loop adds for a sample. -/
def System.add (rnd : ℚ → ℚ) (system : System) (sample : Sample) : System where
  eq := { system.eq with
    vals1 := rnd (system.eq.vals1 + sample.x)
    vals2 := rnd (system.eq.vals2 + sample.x)
    vals3 := rnd (system.eq.vals3 + rnd (sample.x * sample.x)) }
  ac :=
    { vals0 := rnd (system.ac.vals0 + sample.y)
      vals1 := rnd (system.ac.vals1 + rnd (sample.y * sample.x)) }

/-- `first_order_least_squares_filter`: `(*a0, *a1)`, or `none` if `matinv` stops at its
assertion. -/
def firstOrderLeastSquaresFilter (rnd : ℚ → ℚ) (samples : List Sample) : Option (ℚ × ℚ) := do
  let start : System := ⟨⟨rnd samples.length, 0, 0, 0⟩, ⟨0, 0⟩⟩
  let system := samples.foldl (System.add rnd) start
  let ei ← matinvSafe rnd system.eq
  let co := matmul rnd ei system.ac
  return (co.vals0, co.vals1)

/-! ## When the filter goes past `matinv` -/

/-- The number of values times the sum of their squares, as it is computed, is not the square of
their sum. -/
def Separates (rnd : ℚ → ℚ) (values : List ℚ) : Prop :=
  rnd (rnd values.length * addTerms rnd 0 (values.map fun value => rnd (value * value))) ≠
    rnd (addTerms rnd 0 values * addTerms rnd 0 values)

instance (rnd : ℚ → ℚ) (values : List ℚ) : Decidable (Separates rnd values) :=
  inferInstanceAs (Decidable (_ ≠ _))

variable {rnd : ℚ → ℚ}

/-- The five sums of the loop. -/
theorem foldl_add (rnd : ℚ → ℚ) (samples : List Sample) (system : System) :
    samples.foldl (System.add rnd) system =
      { eq := { system.eq with
          vals1 := addTerms rnd system.eq.vals1 (samples.map Sample.x)
          vals2 := addTerms rnd system.eq.vals2 (samples.map Sample.x)
          vals3 := addTerms rnd system.eq.vals3
            ((samples.map Sample.x).map fun value => rnd (value * value)) }
        ac :=
          { vals0 := addTerms rnd system.ac.vals0 (samples.map Sample.y)
            vals1 := addTerms rnd system.ac.vals1
              (samples.map fun sample => rnd (sample.y * sample.x)) } } := by
  induction samples generalizing system with
  | nil => rfl
  | cons sample samples ih =>
      rw [List.foldl_cons, ih]
      rfl

/-- With a rounding which keeps numbers other than zero, the filter has a result exactly if the
two products differ. -/
theorem firstOrder_isSome_iff (zero : ∀ x, rnd x = 0 ↔ x = 0) (samples : List Sample) :
    (firstOrderLeastSquaresFilter rnd samples).isSome ↔ Separates rnd (samples.map Sample.x) := by
  rw [firstOrderLeastSquaresFilter, foldl_add, Separates, List.length_map]
  simp only [matinvSafe, zero, sub_eq_zero]
  split_ifs with same
  · exact iff_of_false (by simp) fun apart => apart same
  · exact iff_of_true rfl same

/-! ## Exact numbers -/

/-- The determinant of the equations of a line. -/
def spread (values : List ℚ) : ℚ :=
  values.length * (values.map fun value => value * value).sum - values.sum * values.sum

variable {nmemb : Nat} {x y : Fin nmemb → ℚ}

/-- The determinant of the line fit is that of the normal matrix. -/
theorem spread_ofFn (x : Fin nmemb → ℚ) : spread (List.ofFn x) = (gram (powers x 2)).det := by
  rw [Matrix.det_fin_two, gram_powers_apply, gram_powers_apply, gram_powers_apply,
    gram_powers_apply, spread, List.map_ofFn, List.sum_ofFn, List.sum_ofFn]
  simp [pow_two]

/-- The determinant tells whether two values differ. -/
theorem spread_ne_zero_iff (values : List ℚ) :
    spread values ≠ 0 ↔ ∃ first ∈ values, ∃ second ∈ values, first ≠ second := by
  have det := det_gram_powers_ne_zero_iff values.get 2
  rw [← spread_ofFn, List.ofFn_get, two_le_card_iff] at det
  rw [det]
  constructor
  · rintro ⟨i, j, apart⟩
    exact ⟨_, List.get_mem values i, _, List.get_mem values j, apart⟩
  · rintro ⟨first, here, second, there, apart⟩
    obtain ⟨i, rfl⟩ := List.mem_iff_get.mp here
    obtain ⟨j, rfl⟩ := List.mem_iff_get.mp there
    exact ⟨i, j, apart⟩

/-- The samples of a fit. -/
def samplesOf (x y : Fin nmemb → ℚ) : List Sample := List.ofFn fun i => ⟨x i, y i⟩

/-- Without rounding, the two products differ by the determinant. -/
theorem separates_id_iff (values : List ℚ) : Separates id values ↔ spread values ≠ 0 := by
  simp only [Separates, id_eq, addTerms_id, zero_add, spread, ne_eq, sub_eq_zero]

/-- Without rounding the coefficients are those of Cramer's rule. -/
theorem firstOrder_id (samples : List Sample) :
    firstOrderLeastSquaresFilter id samples =
      let abscissae := samples.map Sample.x
      let squares := (abscissae.map fun value => value * value).sum
      let ordinates := (samples.map Sample.y).sum
      let products := (samples.map fun sample => sample.y * sample.x).sum
      if spread abscissae = 0 then none
      else some ((squares * ordinates - abscissae.sum * products) / spread abscissae,
        (samples.length * products - abscissae.sum * ordinates) / spread abscissae) := by
  rw [firstOrderLeastSquaresFilter, foldl_add]
  simp only [matinvSafe, matmul, addTerms_id, id_eq, zero_add, spread, List.length_map,
    List.sum_cons, List.sum_nil, add_zero]
  split_ifs with singular
  · rfl
  · refine congrArg some (Prod.ext ?_ ?_)
    · simp only
      ring
    · simp only
      ring

/-- Cramer's rule for the equations of a line. -/
theorem cramer {count sum squares : ℚ} (ordinates products : ℚ)
    (regular : count * squares - sum * sum ≠ 0) :
    count * ((squares * ordinates - sum * products) / (count * squares - sum * sum)) +
        sum * ((count * products - sum * ordinates) / (count * squares - sum * sum)) = ordinates ∧
      sum * ((squares * ordinates - sum * products) / (count * squares - sum * sum)) +
        squares * ((count * products - sum * ordinates) / (count * squares - sum * sum)) =
          products := by
  rw [mul_div_assoc', mul_div_assoc', mul_div_assoc', mul_div_assoc', ← add_div, ← add_div,
    div_eq_iff regular, div_eq_iff regular]
  constructor <;> ring

/-- Without rounding the coefficients solve the normal equations. -/
theorem firstOrder_normal {constants : ℚ × ℚ}
    (fitted : firstOrderLeastSquaresFilter id (samplesOf x y) = some constants) :
    Normal (powers x 2) y ![constants.1, constants.2] := by
  have abscissae : (samplesOf x y).map Sample.x = List.ofFn x := List.map_ofFn ..
  have ordinates : (samplesOf x y).map Sample.y = List.ofFn y := List.map_ofFn ..
  have products : (samplesOf x y).map (fun sample => sample.y * sample.x) =
      List.ofFn fun i => y i * x i := List.map_ofFn ..
  have length : (samplesOf x y).length = nmemb := List.length_ofFn
  rw [firstOrder_id] at fitted
  simp only [abscissae, ordinates, products, length, List.map_ofFn, List.sum_ofFn] at fitted
  split_ifs at fitted with singular
  cases fitted
  have squares : spread (List.ofFn x) = nmemb * ∑ i, x i * x i - (∑ i, x i) * ∑ i, x i := by
    rw [spread, List.length_ofFn, List.map_ofFn, List.sum_ofFn, List.sum_ofFn]
    rfl
  rw [squares] at singular ⊢
  obtain ⟨first, second⟩ := cramer (∑ i, y i) (∑ i, y i * x i) singular
  ext j
  fin_cases j
  · simpa [Matrix.mulVec, dotProduct, Fin.sum_univ_two, gram_powers_apply, moment_powers_apply]
      using first
  · simpa [Matrix.mulVec, dotProduct, Fin.sum_univ_two, gram_powers_apply, moment_powers_apply,
      pow_two, mul_comm] using second

/-- Without rounding the filter is the one on the heap. -/
theorem firstOrder_heap (x y : Fin nmemb → ℚ) (heap : Heap ℚ) :
    match firstOrderLeastSquaresFilter id (samplesOf x y) with
    | none => MotorStand.firstOrderLeastSquaresFilter (List.ofFn x) (List.ofFn y) nmemb heap =
        .error (.assertion singularMessage)
    | some constants =>
        (MotorStand.firstOrderLeastSquaresFilter (List.ofFn x) (List.ofFn y) nmemb).Ensures heap
          fun result _ => result = constants := by
  have abscissae : (samplesOf x y).map Sample.x = List.ofFn x := List.map_ofFn ..
  have zero (number : ℚ) : id number = 0 ↔ number = 0 := Iff.rfl
  have isSome : (firstOrderLeastSquaresFilter id (samplesOf x y)).isSome ↔
      2 ≤ (Finset.univ.image x).card := by
    rw [firstOrder_isSome_iff zero, separates_id_iff, abscissae, spread_ofFn,
      det_gram_powers_ne_zero_iff]
  cases fitted : firstOrderLeastSquaresFilter id (samplesOf x y) with
  | none =>
      rw [fitted] at isSome
      exact firstOrder_fails x y (not_le.mp fun enough => nomatch isSome.mpr enough) heap
  | some constants =>
      rw [fitted] at isSome
      have enough := isSome.mp rfl
      apply (firstOrder_ensures x y enough heap).imp
      rintro _ _ ⟨z, normal, rfl, _⟩
      have same := (firstOrder_normal fitted).unique
        ((det_gram_powers_ne_zero_iff x 2).mpr enough) normal
      rw [same]
      rfl

end Rounded

end MotorStand
