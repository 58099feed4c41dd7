import MotorStand.Calibration.Routes
import MotorStand.Fit.Rounded

/-!
# Which calibrations complete

Whether the fit reaches the assertion of `matinv` depends on how its sums are rounded. The
readings of the server are whole numbers, of which no sum is rounded. Those of
`load_cell_calibration` are fractions: three equal ones can go past the assertion, while two
which differ always do in a session of a hundred points.
-/

namespace MotorStand

namespace Rounded

open Imperative Imperative.Exec LeastSquares Rounding

/-- The double which is nearest to a number. Each operation is rounded on its own. -/
def toDouble (x : ℚ) : ℚ := nearest 53 x

/-- What the filter reads through `x` and `y`. Either array holds the numbers from which its
doubles are rounded. -/
def readSamples (x y : List ℚ) : List Sample :=
  List.zipWith (fun x y => ⟨toDouble x, toDouble y⟩) x y

/-- The fit of `load_cell_calibration` after `q`. -/
def finish (session : Session) : Exec (Heap ℚ) (Option (ℚ × ℚ)) :=
  if session.bufPos = 0 then return none
  else do
    let arguments ← session.fitArguments
    match firstOrderLeastSquaresFilter toDouble (readSamples arguments.1 arguments.2) with
    | none => fail (.assertion singularMessage)
    | some (b, m) => do
        forUp 0 session.bufPos () fun i _ => do
          let _ ← session.knownValues.read sizeofDouble i
          let _ ← session.measurement.read sizeofDouble i
          return ()
        return some (m, b)

/-- The `calibrating` block of the server. -/
def calibrate {σ : Type} (knownWeights : List ℚ) (readings : List Int) : Exec σ (ℚ × ℚ) := do
  let arrays ← forUp 0 knownWeights.length ([], []) fun i arrays => do
    let known ← element knownWeights i
    let valueRaw ← element readings i
    return (arrays.1 ++ [(valueRaw : ℚ)], arrays.2 ++ [known])
  match firstOrderLeastSquaresFilter toDouble (readSamples arrays.1 arrays.2) with
  | none => fail (.assertion singularMessage)
  | some (multiplierM, multiplierB) => return (multiplierM, multiplierB)

/-- Only zero is rounded to zero, since the exponents have no end. -/
theorem toDouble_eq_zero_iff (x : ℚ) : toDouble x = 0 ↔ x = 0 := nearest_eq_zero_iff (by decide)

/-! ## The fit of either program -/

/-- The abscissae of the samples. -/
theorem readSamples_x {α : Type} (values : List α) (x y : α → ℚ) :
    (readSamples (values.map x) (values.map y)).map Sample.x =
      values.map fun value => toDouble (x value) := by
  rw [readSamples, List.zipWith_map, List.zipWith_self, List.map_map]
  rfl

variable {session : Session} {stack : List Point} {heap : Heap ℚ}

/-- What the fit of a session reads. -/
theorem sessionSamples_x (stack : List Point) :
    (readSamples (stack.map Point.measurement) (stack.map Point.known)).map Sample.x =
      stack.map fun point => toDouble point.measurement :=
  readSamples_x stack Point.measurement Point.known

/-- Measurements which separate have a fit. -/
theorem finish_ensures (keeps : session.Keeps stack) (some : stack ≠ [])
    (separates : Separates toDouble (stack.map fun point => toDouble point.measurement))
    (heap : Heap ℚ) :
    (finish session).Ensures heap fun constants _ => ∃ m b, constants = Option.some (m, b) := by
  have count : stack.length ≠ 0 := (List.length_pos_iff.mpr some).ne'
  have printed := keeps
  rw [← List.ofFn_get stack] at printed
  rw [← sessionSamples_x, ← firstOrder_isSome_iff toDouble_eq_zero_iff] at separates
  obtain ⟨constants, fitted⟩ := Option.isSome_iff_exists.mp separates
  unfold finish
  rw [keeps.bufPos, if_neg count]
  refine .bind_returns keeps.fitArguments_returns ?_
  rw [fitted]
  apply (printEstimates_ensures printed).bind
  intro _ _ _
  exact ensures_pure ⟨_, _, rfl⟩

variable {bytes : Nat → Nat} {commands : List Command}

variable {σ : Type} {k : Nat} {raw : Fin k → Int} {weight : Fin k → ℚ}

/-- What the fit of the server reads. -/
theorem serverSamples_x (raw : Fin k → Int) (weight : Fin k → ℚ) :
    (readSamples (List.ofFn fun i => (raw i : ℚ)) (List.ofFn weight)).map Sample.x =
      (List.ofFn raw).map fun reading : Int => toDouble reading := by
  rw [List.ofFn_eq_map, List.ofFn_eq_map, List.ofFn_eq_map, readSamples_x, List.map_map]
  rfl

/-- Readings which do not separate end the server. -/
theorem calibrate_fails
    (joined : ¬ Separates toDouble ((List.ofFn raw).map fun reading : Int => toDouble reading))
    (store : σ) :
    calibrate (List.ofFn weight) (List.ofFn raw) store = .error (.assertion singularMessage) := by
  rw [← serverSamples_x raw weight, ← firstOrder_isSome_iff toDouble_eq_zero_iff,
    Option.not_isSome_iff_eq_none] at joined
  unfold calibrate
  rw [List.length_ofFn]
  refine (collect_ensures raw weight store).bind_fails ?_
  rintro _ _ ⟨rfl, rfl⟩
  rw [joined]
  rfl

/-- The fit of the server goes past the assertion exactly if its readings separate. -/
theorem calibrate_iff (raw : Fin k → Int) (weight : Fin k → ℚ) (store : σ) :
    ((calibrate (List.ofFn weight) (List.ofFn raw)).Ensures store fun _ after => after = store) ↔
      Separates toDouble ((List.ofFn raw).map fun reading : Int => toDouble reading) := by
  constructor
  · intro returns
    by_contra joined
    exact not_ensures_of_fails (calibrate_fails joined store) returns
  · intro separates
    rw [← serverSamples_x raw weight, ← firstOrder_isSome_iff toDouble_eq_zero_iff] at separates
    obtain ⟨constants, fitted⟩ := Option.isSome_iff_exists.mp separates
    unfold calibrate
    rw [List.length_ofFn]
    apply (collect_ensures raw weight store).bind
    rintro _ _ ⟨rfl, rfl⟩
    rw [fitted]
    exact ensures_pure rfl

/-- What `next_value` returns: a `short`. -/
def IsShort (raw : Int) : Prop := -2 ^ 15 ≤ raw ∧ raw < 2 ^ 15

instance (raw : Int) : Decidable (IsShort raw) := inferInstanceAs (Decidable (_ ∧ _))

/-- A `short` has at most 15 digits and a sign. -/
theorem IsShort.magnitude {reading : Int} (short : IsShort reading) : |reading| ≤ 2 ^ 15 :=
  abs_le.mpr ⟨short.1, short.2.le⟩

/-- A whole number below `2 ^ 53` is a double. -/
theorem toDouble_intCast {number : Int} (small : |number| ≤ 2 ^ 53) : toDouble number = number :=
  nearest_of_representable (by decide) (representable_intCast small)

variable {readings : List Int}

/-- The determinant of whole numbers is whole. -/
theorem spread_intCast (numbers : List Int) : spread (numbers.map Int.cast) =
    ((numbers.length * (numbers.map fun number => number * number).sum -
      numbers.sum * numbers.sum : ℤ) : ℚ) := by
  have castSum (numbers : List Int) : ((numbers.sum : ℤ) : ℚ) = (numbers.map Int.cast).sum :=
    map_list_sum (Int.castAddHom ℚ) numbers
  rw [spread, Int.cast_sub, Int.cast_mul, Int.cast_mul, castSum, castSum, List.length_map,
    List.map_map, List.map_map]
  simp [Function.comp_def]

/-- The squares of readings have at most 30 digits. -/
theorem abs_square_le (short : ∀ reading ∈ readings, IsShort reading) :
    ∀ square ∈ readings.map fun reading => reading * reading, |square| ≤ 2 ^ 30 := by
  intro square member
  obtain ⟨reading, inside, rfl⟩ := List.mem_map.mp member
  have small := (short reading inside).magnitude
  rw [abs_mul]
  exact (mul_le_mul small small (abs_nonneg _) (by norm_num)).trans (by norm_num)

/-- The sum of at most eighty whole numbers is exact if it fits in a double. -/
theorem addTerms_eighty {numbers : List Int} {bound : Int} (few : numbers.length ≤ 80)
    (each : ∀ number ∈ numbers, |number| ≤ bound) (nonneg : 0 ≤ bound)
    (room : 80 * bound ≤ 2 ^ 53) :
    addTerms toDouble 0 (numbers.map Int.cast) = (numbers.sum : ℤ) ∧
      |numbers.sum| ≤ 80 * bound := by
  have count : (numbers.length : ℤ) ≤ 80 := by exact_mod_cast few
  have total : numbers.length * bound ≤ 80 * bound := mul_le_mul_of_nonneg_right count nonneg
  have small : |(0 : ℤ)| + numbers.length * bound ≤ 2 ^ 53 := by
    rw [abs_zero, zero_add]
    exact total.trans room
  have exact := addTerms_intCast (by decide : 0 < 53) each small
  rw [zero_add, Int.cast_zero] at exact
  exact ⟨exact, (abs_sum_le each).trans total⟩

/-- Readings are doubles, and so are their squares. -/
theorem map_toDouble (short : ∀ reading ∈ readings, IsShort reading) :
    (readings.map fun reading : Int => toDouble reading) = readings.map Int.cast ∧
      ((readings.map Int.cast).map fun value : ℚ => toDouble (value * value)) =
        (readings.map fun reading => reading * reading).map Int.cast := by
  constructor
  · apply List.map_congr_left
    intro reading member
    exact toDouble_intCast ((short reading member).magnitude.trans (by norm_num))
  · rw [List.map_map, List.map_map]
    apply List.map_congr_left
    intro reading member
    have small := abs_square_le short _ (List.mem_map_of_mem member)
    rw [Function.comp_apply, Function.comp_apply, ← Int.cast_mul]
    exact toDouble_intCast (small.trans (by norm_num))

/-- The server computes the determinant without rounding. -/
theorem separates_iff_spread (short : ∀ reading ∈ readings, IsShort reading)
    (few : readings.length ≤ knownWeightsCapacity) :
    Separates toDouble (readings.map fun reading : Int => toDouble reading) ↔
      spread (readings.map Int.cast) ≠ 0 := by
  have count : |(readings.length : ℤ)| ≤ 80 := by
    rw [Nat.abs_cast]
    exact_mod_cast few
  let sum := readings.sum
  let sumSquares := (readings.map fun reading => reading * reading).sum
  obtain ⟨exactSum, small⟩ : addTerms toDouble 0 (readings.map Int.cast) = (sum : ℤ) ∧
      |sum| ≤ 80 * 2 ^ 15 :=
    addTerms_eighty few (fun reading member => (short reading member).magnitude) (by norm_num)
      (by norm_num)
  obtain ⟨exactSquares, smallSquares⟩ : addTerms toDouble 0
      ((readings.map fun reading => reading * reading).map Int.cast) = (sumSquares : ℤ) ∧
      |sumSquares| ≤ 80 * 2 ^ 30 :=
    addTerms_eighty (by rwa [List.length_map]) (abs_square_le short) (by norm_num) (by norm_num)
  have left : |(readings.length : ℤ) * sumSquares| ≤ 2 ^ 53 := by
    rw [abs_mul]
    exact (mul_le_mul count smallSquares (abs_nonneg _) (by norm_num)).trans (by norm_num)
  have right : |sum * sum| ≤ 2 ^ 53 := by
    rw [abs_mul]
    exact (mul_le_mul small small (abs_nonneg _) (by norm_num)).trans (by norm_num)
  obtain ⟨kept, keptSquares⟩ := map_toDouble short
  rw [kept, Separates, keptSquares, exactSum, exactSquares, List.length_map,
    ← Int.cast_natCast readings.length, toDouble_intCast (count.trans (by norm_num)),
    ← Int.cast_mul, ← Int.cast_mul, toDouble_intCast left, toDouble_intCast right]
  rw [spread_intCast, Int.cast_sub, sub_ne_zero]

/-! ## Measurements of a session -/

/-- Three equal points may separate. -/
example : Separates toDouble (List.replicate 3 (toDouble (fullScale 11))) := by decide +kernel

/-! ## Completion -/

/-- The server separates exactly the readings two of which differ. -/
theorem server_separates_iff (short : ∀ i, IsShort (raw i))
    (few : k ≤ knownWeightsCapacity) :
    Separates toDouble ((List.ofFn raw).map fun reading : Int => toDouble reading) ↔
      ∃ i j, raw i ≠ raw j := by
  have each : ∀ reading ∈ List.ofFn raw, IsShort reading := by
    intro reading member
    obtain ⟨i, rfl⟩ := List.mem_ofFn.mp member
    exact short i
  rw [separates_iff_spread each (by rwa [List.length_ofFn]), spread_ne_zero_iff]
  simp [List.mem_ofFn]

end Rounded

end MotorStand
