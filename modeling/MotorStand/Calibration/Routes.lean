import MotorStand.Calibration.Session

/-!
# The two calibration routes

`load_cell_serv -c` fits the known weights over the raw readings;
`load_cell_calibration` fits them over the readings in full scale. The sampling
loop of the server scales every reading to full scale before it applies the two
constants.
-/

namespace MotorStand

open Imperative Imperative.Exec LeastSquares

/-! ## The server -/

/-- The doubles `known_weights` is allocated for. -/
def knownWeightsCapacity : Nat := 80

/-- The `calibrating` block of `main`. The result is `multiplier_m` and `multiplier_b`. -/
def calibrate (knownWeights : List ℚ) (readings : List Int) : Exec (Heap ℚ) (ℚ × ℚ) := do
  let arrays ← forUp 0 knownWeights.length ([], []) fun i arrays => do
    let known ← element knownWeights i
    let valueRaw ← element readings i
    return (arrays.1 ++ [(valueRaw : ℚ)], arrays.2 ++ [known])
  -- the filter stores its `a0` in `multiplier_m` and its `a1` in `multiplier_b`
  let (multiplierM, multiplierB) ←
    firstOrderLeastSquaresFilter arrays.1 arrays.2 knownWeights.length
  return (multiplierM, multiplierB)

/-- `value` in the sampling loop of the server. -/
def sampleValue (multiplierM multiplierB : ℚ) (nextRaw : Int) : ℚ :=
  fullScale nextRaw * multiplierM + multiplierB

/-! ## Distinct readings -/

variable {k : Nat}

/-- Different readings differ in full scale. -/
theorem fullScale_injective {left right : Int} (same : fullScale left = fullScale right) :
    left = right := by
  have positive : (adcMax : ℚ) ≠ 0 := by norm_num [adcMax]
  exact Int.cast_injective ((div_left_inj' positive).mp same)

/-! ## The fit of a session -/

variable {session : Session} {points : Fin k → Point} {heap : Heap ℚ}

/-- Printing the estimates reads the arrays and changes nothing. -/
theorem printEstimates_ensures (keeps : session.Keeps (List.ofFn points)) :
    (forUp 0 k () fun i _ => do
      let _ ← session.knownValues.read sizeofDouble i
      let _ ← session.measurement.read sizeofDouble i
      return () : Exec (Heap ℚ) Unit).Ensures heap fun _ after => after = heap := by
  refine forUp_ensures (fun _ _ store => store = heap) (Nat.zero_le _) rfl ?_
  rintro i _ _ _ inside rfl
  refine .bind_returns (keeps.knownValues.read_returns
    (points ⟨i, inside⟩).known ?_) ?_
  · simp [inside]
  refine .bind_returns (keeps.measurement.read_returns
    (points ⟨i, inside⟩).measurement ?_) ?_
  · simp [inside]
  exact ensures_pure rfl

/-- The fit of a session with two different measurements. -/
theorem finish_ensures (keeps : session.Keeps (List.ofFn points))
    (two : ∃ i j, (points i).measurement ≠ (points j).measurement) (heap : Heap ℚ) :
    session.finish.Ensures heap fun constants _ => ∃ z : Fin 2 → ℚ,
      Normal (powers (fun i => (points i).measurement) 2) (fun i => (points i).known) z ∧
        constants = some (z 1, z 0) := by
  have counted : session.bufPos = k := by
    rw [keeps.bufPos, List.length_ofFn]
  have some : session.bufPos ≠ 0 := by
    obtain ⟨i, _, _⟩ := two
    have below := i.isLt
    omega
  unfold Session.finish
  rw [if_neg some]
  refine .bind_returns keeps.fitArguments_returns ?_
  rw [counted, List.map_ofFn, List.map_ofFn]
  apply (firstOrder_ensures _ _ ((two_le_card_iff _).mpr two) heap).bind
  rintro _ fitted ⟨z, normal, rfl, _⟩
  apply (printEstimates_ensures keeps).bind
  rintro _ _ rfl
  exact ensures_pure ⟨z, normal, rfl⟩

/-! ## The fit of the server -/

variable {raw : Fin k → Int} {weight : Fin k → ℚ}

/-- One more element of the list. -/
theorem ofFn_take_succ {α : Type} (f : Fin k → α) (i : Fin k) :
    (List.ofFn f).take (i.val + 1) = (List.ofFn f).take i.val ++ [f i] := by
  have inside : i.val < (List.ofFn f).length := by simp
  rw [List.take_succ_eq_append_getElem inside, List.getElem_ofFn]

/-- The arrays the server hands to the filter. -/
theorem collect_ensures {σ : Type} (raw : Fin k → Int) (weight : Fin k → ℚ) (before : σ) :
    (forUp 0 k ([], []) fun i arrays => do
      let known ← element (List.ofFn weight) i
      let valueRaw ← element (List.ofFn raw) i
      return (arrays.1 ++ [(valueRaw : ℚ)], arrays.2 ++ [known]) :
        Exec σ (List ℚ × List ℚ)).Ensures before fun arrays after =>
      arrays = (List.ofFn fun i => (raw i : ℚ), List.ofFn weight) ∧ after = before := by
  refine (forUp_ensures (fun i arrays store =>
    arrays = ((List.ofFn fun i => (raw i : ℚ)).take i, (List.ofFn weight).take i) ∧
      store = before) (Nat.zero_le k) ⟨rfl, rfl⟩ ?_).imp ?_
  · rintro i _ _ _ below ⟨rfl, rfl⟩
    lift i to Fin k using below
    refine .bind_returns (element_ofFn weight i) ?_
    refine .bind_returns (element_ofFn raw i) ?_
    refine ensures_pure ⟨?_, rfl⟩
    rw [ofFn_take_succ, ofFn_take_succ]
  · rintro arrays after ⟨rfl, rfl⟩
    refine ⟨?_, rfl⟩
    rw [List.take_of_length_le (by simp), List.take_of_length_le (by simp)]

/-- With two different readings the server finds the line of least squares. -/
theorem calibrate_ensures (weight : Fin k → ℚ) (two : ∃ i j, raw i ≠ raw j) (heap : Heap ℚ) :
    (calibrate (List.ofFn weight) (List.ofFn raw)).Ensures heap fun multipliers _ =>
      ∃ z : Fin 2 → ℚ, Normal (powers (fun i => (raw i : ℚ)) 2) weight z ∧
        multipliers = (z 0, z 1) := by
  have apart : ∃ i j, (raw i : ℚ) ≠ (raw j : ℚ) := by
    obtain ⟨i, j, different⟩ := two
    exact ⟨i, j, fun same => different (Int.cast_injective same)⟩
  unfold calibrate
  rw [List.length_ofFn]
  apply (collect_ensures raw weight heap).bind
  rintro _ _ ⟨rfl, rfl⟩
  apply (firstOrder_ensures _ _ ((two_le_card_iff _).mpr apart) _).bind
  rintro _ _ ⟨z, normal, rfl, _⟩
  exact ensures_pure ⟨z, normal, rfl⟩

/-- The least-squares line through the pairs `(raw i, weight i)`. -/
def LeastSquaresLine (raw : Fin k → Int) (weight : Fin k → ℚ) (line : Int → ℚ) : Prop :=
  ∃ z : Fin 2 → ℚ, UniqueFit (fun i => (raw i : ℚ)) weight z ∧
    ∀ nextRaw : Int, line nextRaw = z 0 + z 1 * nextRaw

/-- Both routes give the same, correct conversion. -/
structure ConversionsAgree (raw : Fin k → Int) (weight : Fin k → ℚ)
    (server calibration : Int → ℚ) : Prop where
  fit : LeastSquaresLine raw weight server
  same : ∀ nextRaw, server nextRaw = calibration nextRaw
  linear : ∀ A B : ℚ, (∀ i, weight i = A * raw i + B) →
    ∀ nextRaw : Int, server nextRaw = A * nextRaw + B

/-- Both routes run to their end on the pairs and their conversions agree. -/
def RoutesAgree (raw : Fin k → Int) (weight : Fin k → ℚ) (session : Session)
    (heap : Heap ℚ) : Prop :=
  (calibrate (List.ofFn weight) (List.ofFn raw)).Ensures heap fun server _ =>
    session.finish.Ensures heap fun constants _ =>
      ∃ m b, constants = some (m, b) ∧
        ConversionsAgree raw weight (sampleValue server.1 server.2) (sampleValue m b)

/-- Two different readings are two abscissae. -/
theorem regular_of_two (two : ∃ i j, raw i ≠ raw j) :
    2 ≤ (Finset.univ.image fun i => (raw i : ℚ)).card := by
  obtain ⟨i, j, different⟩ := two
  exact (two_le_card_iff _).mpr ⟨i, j, fun same => different (Int.cast_injective same)⟩

/-- A line which goes through all pairs is the fit of the pairs. -/
theorem normal_line {A B : ℚ} (through : ∀ i, weight i = A * raw i + B) :
    Normal (powers (fun i => (raw i : ℚ)) 2) weight ![B, A] := by
  refine normal_of_exact fun i => ?_
  rw [through i, powers_mulVec, Fin.sum_univ_two]
  simp only [Matrix.cons_val_zero, Matrix.cons_val_one, Fin.val_zero, Fin.val_one, pow_zero,
    pow_one]
  ring

section Agreement

variable {z : Fin 2 → ℚ} (two : ∃ i j, raw i ≠ raw j)
  (normal : Normal (powers (fun i => (raw i : ℚ)) 2) weight z)

include two normal

/-- The coefficients of the fit vanish together with the moments of the pairs. -/
theorem normal_zero_iff : z = 0 ↔ ∑ i, weight i = 0 ∧ ∑ i, raw i * weight i = 0 := by
  have first : moment (powers (fun i => (raw i : ℚ)) 2) weight 0 = ∑ i, weight i := by
    simp [moment_powers_apply]
  have second : moment (powers (fun i => (raw i : ℚ)) 2) weight 1 = ∑ i, raw i * weight i := by
    simp [moment_powers_apply]
  rw [← first, ← second]
  constructor
  · rintro rfl
    have zero : moment (powers (fun i => (raw i : ℚ)) 2) weight = 0 := by
      rw [← normal, Matrix.mulVec_zero]
    rw [zero]
    exact ⟨rfl, rfl⟩
  · rintro ⟨none, nothing⟩
    have zero : Normal (powers (fun i => (raw i : ℚ)) 2) weight 0 := by
      ext j
      rw [Matrix.mulVec_zero]
      fin_cases j
      · exact none.symm
      · exact nothing.symm
    exact (zero.unique ((det_gram_powers_ne_zero_iff _ _).mpr (regular_of_two two)) normal)

/-- The constants of `load_cell_calibration` give the least-squares line. -/
theorem calibration_converts {z' : Fin 2 → ℚ}
    (scaled : Normal (powers (fun i => fullScale (raw i)) 2) weight z') (nextRaw : Int) :
    sampleValue (z' 1) (z' 0) nextRaw = z 0 + z 1 * nextRaw := by
  have nonzero : (adcMax : ℚ) ≠ 0 := by norm_num [adcMax]
  have same := normal.unique
    ((det_gram_powers_ne_zero_iff _ _).mpr (regular_of_two two)) (scaled.of_unit nonzero)
  rw [← same, sampleValue, fullScale]
  simp only [Fin.val_zero, Fin.val_one, pow_zero, pow_one, div_one]
  ring

/-- With its coefficients exchanged, the fit of the server converts correctly only
if both of them are zero. -/
theorem swapped_agrees_iff {z' : Fin 2 → ℚ}
    (scaled : Normal (powers (fun i => fullScale (raw i)) 2) weight z') :
    ConversionsAgree raw weight (sampleValue (z 0) (z 1)) (sampleValue (z' 1) (z' 0)) ↔ z = 0 := by
  have best := uniqueFit_of_normal normal (regular_of_two two)
  constructor
  · rintro ⟨⟨other, fit, line⟩, _, _⟩
    have same : other = z := by
      by_contra different
      exact lt_asymm (best other different) (fit z (Ne.symm different))
    subst same
    have atZero := line 0
    have atFull := line adcMax
    norm_num [sampleValue, fullScale, adcMax] at atZero atFull
    ext j
    fin_cases j
    · simp only [Fin.zero_eta, Pi.zero_apply]
      linarith
    · simp only [Fin.mk_one, Pi.zero_apply]
      linarith
  · intro zero
    refine ⟨⟨z, best, ?_⟩, ?_, ?_⟩
    · intro nextRaw
      simp [sampleValue, zero]
    · intro nextRaw
      rw [calibration_converts two normal scaled]
      simp [sampleValue, zero]
    · intro A B through nextRaw
      have same := normal.unique
        ((det_gram_powers_ne_zero_iff _ _).mpr (regular_of_two two)) (normal_line through)
      have intercept : B = 0 := by simpa [zero] using congrFun same 0
      have slope : A = 0 := by simpa [zero] using congrFun same 1
      simp [sampleValue, zero, intercept, slope]

end Agreement

/-- Over two different readings both routes finish, and agree if the fit is zero. -/
theorem routesAgree_iff_fit_zero {session : Session} (two : ∃ i j, raw i ≠ raw j)
    (keeps : session.Keeps (List.ofFn fun i => ⟨weight i, fullScale (raw i)⟩)) (heap : Heap ℚ) :
    RoutesAgree raw weight session heap ↔
      ∃ z, Normal (powers (fun i => (raw i : ℚ)) 2) weight z ∧ z = 0 := by
  have apart : ∃ i j, fullScale (raw i) ≠ fullScale (raw j) := by
    obtain ⟨i, j, different⟩ := two
    exact ⟨i, j, fun same => different (fullScale_injective same)⟩
  obtain ⟨_, after, server, z, normal, rfl⟩ := calibrate_ensures weight two heap
  obtain ⟨_, fitted, finished, z', scaled, rfl⟩ := finish_ensures keeps apart heap
  constructor
  · rintro ⟨_, _, run, _, _, runFinish, m, b, constants, agree⟩
    rw [server] at run
    rw [finished] at runFinish
    cases run
    cases runFinish
    cases constants
    exact ⟨z, normal, (swapped_agrees_iff two normal scaled).mp agree⟩
  · rintro ⟨other, also, zero⟩
    have same := normal.unique ((det_gram_powers_ne_zero_iff _ _).mpr (regular_of_two two)) also
    have agree := (swapped_agrees_iff two normal scaled).mpr (same.symm.trans zero)
    exact ⟨_, _, server, _, _, finished, _, _, rfl, agree⟩

/-- The two routes agree exactly on pairs whose weights and weighted readings both
sum to zero, where the fit is the zero line. -/
theorem routesAgree_iff_moments_zero {session : Session} (two : ∃ i j, raw i ≠ raw j)
    (keeps : session.Keeps (List.ofFn fun i => ⟨weight i, fullScale (raw i)⟩)) (heap : Heap ℚ) :
    RoutesAgree raw weight session heap ↔
      ∑ i, weight i = 0 ∧ ∑ i, raw i * weight i = 0 := by
  obtain ⟨_, _, _, z, normal, _⟩ := calibrate_ensures weight two heap
  rw [routesAgree_iff_fit_zero two keeps, ← normal_zero_iff two normal]
  constructor
  · rintro ⟨other, also, zero⟩
    have same := normal.unique ((det_gram_powers_ne_zero_iff _ _).mpr (regular_of_two two)) also
    exact same.symm.trans zero
  · exact fun zero => ⟨z, normal, zero⟩

/-- The arrays of a session with the weights 0 and 1 at the ends of the scale. -/
def endsOfScale : Session where
  bufLen := 4
  bufPos := 2
  measurement := ((Region.malloc ℚ 32).put sizeofDouble 0 (fullScale 0)).put sizeofDouble 1
    (fullScale 0x7fff)
  knownValues := ((Region.malloc ℚ 32).put sizeofDouble 0 0).put sizeofDouble 1 1

/-- The session at both ends of the scale keeps its points. -/
theorem endsOfScale_keeps : endsOfScale.Keeps
    (List.ofFn fun i => ⟨(![0, 1] : Fin 2 → ℚ) i, fullScale ((![0, 0x7fff] : Fin 2 → Int) i)⟩) where
  bufPos := rfl
  knownValues := by
    have none : (Region.malloc ℚ 32).Holds sizeofDouble [] := .nil
    exact (none.put 0 (by decide) (by decide)).put 1 (by decide) (by decide)
  measurement := by
    have none : (Region.malloc ℚ 32).Holds sizeofDouble [] := .nil
    exact (none.put (fullScale 0) (by decide) (by decide)).put (fullScale 0x7fff) (by decide)
      (by decide)

/-- The routes for readings at both ends of the scale. -/
theorem routesAgree_iff_endsOfScale :
    RoutesAgree ![0, 0x7fff] ![0, 1] endsOfScale (Heap.empty ℚ) ↔
      ∑ i, (![0, 1] : Fin 2 → ℚ) i = 0 ∧
        ∑ i, ((![0, 0x7fff] : Fin 2 → Int) i : ℚ) * (![0, 1] : Fin 2 → ℚ) i = 0 :=
  routesAgree_iff_moments_zero ⟨0, 1, by decide⟩ endsOfScale_keeps _

/-- On these two points the routes differ. -/
theorem not_routesAgree_endsOfScale :
    ¬ RoutesAgree ![0, 0x7fff] ![0, 1] endsOfScale (Heap.empty ℚ) := by
  intro agree
  have two : ∃ i j, (![0, 0x7fff] : Fin 2 → Int) i ≠ (![0, 0x7fff] : Fin 2 → Int) j :=
    ⟨0, 1, by decide⟩
  obtain ⟨z, normal, zero⟩ := (routesAgree_iff_fit_zero two endsOfScale_keeps _).mp agree
  have sums := (normal_zero_iff two normal).mp zero
  norm_num [Fin.sum_univ_two] at sums

end MotorStand
