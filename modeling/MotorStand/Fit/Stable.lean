import MotorStand.Fit.Filters

/-!
# `stable_first_order_least_squares`

The function fits with the matrix `A` of rows `(x, 1)`. It forms `A * At` where the
normal equations need `At * A`, a matrix of the order of the sample count, and
multiplies its inverse by `At`. The products have matching dimensions for two
samples only.
-/

namespace MotorStand

open Imperative Imperative.Exec Imperative.Heap LeastSquares Matrix

/-- The seven matrices of the stable fit. -/
structure StableSystem where
  a : Mat
  xv : Mat
  bv : Mat
  at' : Mat
  aat : Mat
  aatInv : Mat
  aatInvAt : Mat

/-- The allocations of `stable_first_order_least_squares`. -/
def allocStable (nmemb : Nat) : Exec (Heap ℚ) StableSystem := do
  let a ← allocMat nmemb 2
  let xv ← allocMat 2 1
  let bv ← allocMat nmemb 1
  let at' ← allocMat 2 nmemb
  let aat ← allocMat nmemb nmemb
  let aatInv ← allocMat nmemb nmemb
  let aatInvAt ← allocMat 2 nmemb
  return ⟨a, xv, bv, at', aat, aatInv, aatInvAt⟩

/-- Store the samples in `A` and `bv`, and form `AAt`. -/
def formStable (system : StableSystem) (x y : List ℚ) (nmemb : Nat) : Exec (Heap ℚ) Unit := do
  forUp 0 nmemb () fun i _ => do
    let x ← element x i
    store system.a.vals (i * 2) x
    store system.a.vals (i * 2 + 1) 1
    let y ← element y i
    store system.bv.vals i y
  let _ ← mattrn system.a system.at'
  let _ ← matmul system.a system.at' system.aat
  return ()

/-- Invert `AAt` and multiply by `At` and `bv`; the result is `(*a0, *a1)`. -/
def solveStable (system : StableSystem) : Exec (Heap ℚ) (ℚ × ℚ) := do
  let _ ← matinv system.aat system.aatInv
  let _ ← matmul system.aatInv system.at' system.aatInvAt
  let _ ← matmul system.aatInvAt system.bv system.xv
  let a0 ← load system.xv.vals 0
  let a1 ← load system.xv.vals 1
  return (a0, a1)

/-- `stable_first_order_least_squares`; the result is `(*a0, *a1)`. -/
def stableFirstOrderLeastSquares (x y : List ℚ) (nmemb : Nat) : Exec (Heap ℚ) (ℚ × ℚ) := do
  let system ← allocStable nmemb
  formStable system x y nmemb
  solveStable system

/-! ## The samples in the heap -/

variable {N : Nat} {system : StableSystem} {start heap : Heap ℚ}

/-- The rows `(x, 1)`. -/
def sampleRows (x : Fin N → ℚ) : Matrix (Fin N) (Fin 2) ℚ := Matrix.of fun i => ![x i, 1]

/-- The matrices lie one behind the other at the end of the heap `start`, with the
dimensions the fit of `N` samples gives them. -/
structure StableSystem.Placed (system : StableSystem) (N : Nat) (start heap : Heap ℚ) : Prop where
  placed : system = ⟨⟨N, 2, start.limit⟩, ⟨2, 1, start.limit + 1⟩, ⟨N, 1, start.limit + 2⟩,
    ⟨2, N, start.limit + 3⟩, ⟨N, N, start.limit + 4⟩, ⟨N, N, start.limit + 5⟩,
    ⟨2, N, start.limit + 6⟩⟩
  limit : start.limit + 7 ≤ heap.limit

/-- `a` is an object of the heap with its `m` by `n` cells. -/
def Mat.Allocated (a : Mat) (m n : Nat) (heap : Heap ℚ) : Prop :=
  ∃ contents : Matrix (Fin m) (Fin n) (Option ℚ), a.Cells heap contents

/-- The matrices of the fit before the samples are stored. -/
structure StableSystem.Fresh (system : StableSystem) (N : Nat) (start heap : Heap ℚ) : Prop
    extends system.Placed N start heap where
  a : system.a.Allocated N 2 heap
  xv : system.xv.Allocated 2 1 heap
  bv : system.bv.Allocated N 1 heap
  at' : system.at'.Allocated 2 N heap
  aat : system.aat.Allocated N N heap
  aatInv : system.aatInv.Allocated N N heap
  aatInvAt : system.aatInvAt.Allocated 2 N heap

/-- A matrix stays where it is when others are allocated. -/
theorem Mat.Allocated.of_fresh {a : Mat} {m n : Nat} {after : Heap ℚ}
    (allocated : a.Allocated m n heap) (old : a.vals < heap.limit)
    (frame : Frame (fun _ => False) heap after) : a.Allocated m n after := by
  obtain ⟨contents, cells⟩ := allocated
  exact ⟨contents, cells.of_block_eq (frame.same _ old id)⟩

/-- A matrix stays as it is when another is written. -/
theorem Mat.Allocated.of_writes {a b : Mat} {m n : Nat} {after : Heap ℚ}
    (allocated : a.Allocated m n heap) (writes : b.Writes heap after) (apart : a.vals ≠ b.vals)
    (old : a.vals < heap.limit) : a.Allocated m n after := by
  obtain ⟨contents, cells⟩ := allocated
  exact ⟨contents, cells.of_block_eq (writes.same _ old apart)⟩

/-- All matrices of the fit are new and apart. -/
theorem allocStable_ensures (N : Nat) (start : Heap ℚ) :
    (allocStable N).Ensures start fun system heap => system.Fresh N start heap := by
  apply (allocMat_ensures N 2 start).bind
  rintro a first ⟨rfl, firstLimit, aCells, _⟩
  apply (allocMat_ensures 2 1 first).bind
  rintro xv second ⟨rfl, secondLimit, xvCells, secondFrame⟩
  apply (allocMat_ensures N 1 second).bind
  rintro bv third ⟨rfl, thirdLimit, bvCells, thirdFrame⟩
  apply (allocMat_ensures 2 N third).bind
  rintro at' fourth ⟨rfl, fourthLimit, atCells, fourthFrame⟩
  apply (allocMat_ensures N N fourth).bind
  rintro aat fifth ⟨rfl, fifthLimit, aatCells, fifthFrame⟩
  apply (allocMat_ensures N N fifth).bind
  rintro aatInv sixth ⟨rfl, sixthLimit, invCells, sixthFrame⟩
  apply (allocMat_ensures 2 N sixth).bind
  rintro aatInvAt heap ⟨rfl, limit, productCells, frame⟩
  -- The allocations after one of the matrices leave it alone.
  have afterFifth := sixthFrame.trans frame
  have afterFourth := fifthFrame.trans afterFifth
  have afterThird := fourthFrame.trans afterFourth
  have afterSecond := thirdFrame.trans afterThird
  have afterFirst := secondFrame.trans afterSecond
  refine ensures_pure ⟨⟨?_, by omega⟩, ?_, ?_, ?_, ?_, ?_, ?_, ⟨_, productCells⟩⟩
  · simp only [StableSystem.mk.injEq, Mat.mk.injEq, true_and]
    omega
  · exact Mat.Allocated.of_fresh ⟨_, aCells⟩ (by simp only; omega) afterFirst
  · exact Mat.Allocated.of_fresh ⟨_, xvCells⟩ (by simp only; omega) afterSecond
  · exact Mat.Allocated.of_fresh ⟨_, bvCells⟩ (by simp only; omega) afterThird
  · exact Mat.Allocated.of_fresh ⟨_, atCells⟩ (by simp only; omega) afterFourth
  · exact Mat.Allocated.of_fresh ⟨_, aatCells⟩ (by simp only; omega) afterFifth
  · exact Mat.Allocated.of_fresh ⟨_, invCells⟩ (by simp only; omega) frame

/-- Storing the next entry of a matrix which is being filled, under a flat index of the
caller's own. -/
theorem Mat.Cells.store_filled {a : Mat} {m n : Nat} {A : Matrix (Fin m) (Fin n) ℚ}
    {contents : Matrix (Fin m) (Fin n) (Option ℚ)} (i : Fin m) (j : Fin n)
    (cells : a.Cells heap (filled A contents i.val j.val)) {index : Nat} {value : ℚ}
    (position : index = j.val + i.val * n) (entry : value = A i j) :
    (store a.vals index value).Ensures heap fun _ after =>
      a.Cells after (filled A contents i.val (j.val + 1)) ∧ a.Writes heap after := by
  subst position entry
  refine .of_returns (Heap.store_returns _ ?_) ⟨Mat.Cells.set_filled i j cells,
    a.writes_set heap _ _⟩
  rw [cells.size]
  exact position_lt i j

/-- One iteration of the loop over the samples. -/
theorem storeSample_ensures {x y : Fin N → ℚ} {a bv : Mat}
    {rows : Matrix (Fin N) (Fin 2) (Option ℚ)} {values : Matrix (Fin N) (Fin 1) (Option ℚ)}
    (apart : a.vals ≠ bv.vals) (oldA : a.vals < heap.limit) (oldBv : bv.vals < heap.limit)
    (i : Fin N) (aCells : a.Cells heap (filled (sampleRows x) rows i.val 0))
    (bvCells : bv.Cells heap (filled (column y) values i.val 0)) :
    (do let x ← element (List.ofFn x) i.val
        store a.vals (i.val * 2) x
        store a.vals (i.val * 2 + 1) 1
        let y ← element (List.ofFn y) i.val
        store bv.vals i.val y).Ensures heap fun _ after =>
      a.Cells after (filled (sampleRows x) rows (i.val + 1) 0) ∧
        bv.Cells after (filled (column y) values (i.val + 1) 0) ∧
        Frame (fun address => address = a.vals ∨ address = bv.vals) heap after := by
  refine .bind_returns (element_ofFn x i) ?_
  apply (aCells.store_filled i 0 (by simp) (by simp [sampleRows])).bind
  rintro _ first ⟨aCells, writesX⟩
  apply (aCells.store_filled i 1 (by simp; omega) (by simp [sampleRows])).bind
  rintro _ second ⟨aCells, writesOne⟩
  refine .bind_returns (element_ofFn y i) ?_
  have writes := writesX.trans writesOne
  have bvCells := bvCells.of_block_eq (writes.same _ oldBv apart.symm)
  apply (bvCells.store_filled i 0 (by simp) (by simp [column_apply])).imp
  rintro _ after ⟨bvCells, writesY⟩
  refine ⟨?_, ?_, (writes.weaken fun _ => Or.inl).trans (writesY.weaken fun _ => Or.inr)⟩
  · rw [← filled_row]
    exact aCells.of_block_eq (writesY.same _ (oldA.trans_le writes.limit) apart)
  · rw [← filled_row]
    exact bvCells

/-- The loop over the samples leaves the rows `(x, 1)` in `A` and the values in `bv`. -/
theorem storeSamples_ensures (x y : Fin N → ℚ) {a bv : Mat} (aAllocated : a.Allocated N 2 heap)
    (bvAllocated : bv.Allocated N 1 heap) (apart : a.vals ≠ bv.vals) (oldA : a.vals < heap.limit)
    (oldBv : bv.vals < heap.limit) :
    (forUp 0 N () fun i _ => do
      let x ← element (List.ofFn x) i
      store a.vals (i * 2) x
      store a.vals (i * 2 + 1) 1
      let y ← element (List.ofFn y) i
      store bv.vals i y).Ensures heap fun _ after =>
      a.Holds after (sampleRows x) ∧ bv.Holds after (column y) ∧
        Frame (fun address => address = a.vals ∨ address = bv.vals) heap after := by
  obtain ⟨rows, aCells⟩ := aAllocated
  obtain ⟨values, bvCells⟩ := bvAllocated
  refine (forUp_ensures (fun i _ store => a.Cells store (filled (sampleRows x) rows i 0) ∧
    bv.Cells store (filled (column y) values i 0) ∧
    Frame (fun address => address = a.vals ∨ address = bv.vals) heap store)
    (Nat.zero_le N) ⟨?_, ?_, .refl _⟩ ?_).imp ?_
  · rwa [filled_start]
  · rwa [filled_start]
  · rintro i _ store _ below ⟨aCells, bvCells, frame⟩
    lift i to Fin N using below
    apply (storeSample_ensures apart (oldA.trans_le frame.limit) (oldBv.trans_le frame.limit) i
      aCells bvCells).imp
    rintro _ after ⟨aCells, bvCells, writes⟩
    exact ⟨aCells, bvCells, frame.trans writes⟩
  · rintro _ after ⟨aCells, bvCells, frame⟩
    rw [filled_all] at aCells bvCells
    exact ⟨aCells, bvCells, frame⟩

/-- The matrices of the fit once `AAt` is formed. -/
structure StableSystem.Formed (system : StableSystem) (x y : Fin N → ℚ) (start heap : Heap ℚ) :
    Prop extends system.Placed N start heap where
  xv : system.xv.Allocated 2 1 heap
  bv : system.bv.Holds heap (column y)
  at' : system.at'.Holds heap (sampleRows x)ᵀ
  aat : system.aat.Holds heap (sampleRows x * (sampleRows x)ᵀ)
  aatInv : system.aatInv.Allocated N N heap
  aatInvAt : system.aatInvAt.Allocated 2 N heap

/-- The samples are stored and `A * At` is formed. -/
theorem formStable_ensures (x y : Fin N → ℚ) (small : N * N < 2 ^ 32) (two : 2 ≤ N)
    (fresh : system.Fresh N start heap) :
    (formStable system (List.ofFn x) (List.ofFn y) N).Ensures heap fun _ after =>
      system.Formed x y start after := by
  have smallRows : N * 2 < 2 ^ 32 := (Nat.mul_le_mul_left N two).trans_lt small
  have smallCols : 2 * N < 2 ^ 32 := (Nat.mul_le_mul_right N two).trans_lt small
  obtain ⟨⟨rfl, limit⟩, a, xv, bv, at', aat, aatInv, aatInvAt⟩ := fresh
  apply (storeSamples_ensures x y a bv (by simp) (by simp only; omega) (by simp only; omega)).bind
  rintro _ stored ⟨aHolds, bvHolds, frame⟩
  have storedLimit := frame.limit
  have keep : ∀ {b : Mat} {m n : Nat}, b.Allocated m n heap → start.limit ≠ b.vals →
      start.limit + 2 ≠ b.vals → b.vals < start.limit + 7 → b.Allocated m n stored := by
    rintro b m n ⟨contents, cells⟩ apartA apartBv old
    refine ⟨contents, cells.of_block_eq (frame.same _ (by omega) ?_)⟩
    rintro (touched | touched)
    · exact apartA touched.symm
    · exact apartBv touched.symm
  have aSource : Mat.Source _ stored (sampleRows x) := ⟨aHolds, by simp only; omega, smallRows⟩
  have bvSource : Mat.Source _ stored (column y) := ⟨bvHolds, by simp only; omega, by omega⟩
  obtain ⟨_, atCells⟩ := keep at' (by simp) (by simp) (by simp)
  have atObject := atCells.object (by simp only; omega) smallCols
  obtain ⟨_, aatCells⟩ := keep aat (by simp) (by simp) (by simp)
  have aatObject := aatCells.object (by simp only; omega) small
  apply (mattrn_ensures aSource atObject (by simp)).bind
  rintro _ turned ⟨_, atSource, writesAt⟩
  have turnedLimit := writesAt.limit
  apply (matmul_ensures (aSource.of_writes writesAt (by simp)) atSource
    (aatObject.of_writes writesAt (by simp)) (by simp) (by simp)).bind
  rintro _ after ⟨_, aatSource, writesAat⟩
  have afterLimit := writesAat.limit
  have keepBoth : ∀ {b : Mat} {m n : Nat}, b.Allocated m n stored → start.limit + 3 ≠ b.vals →
      start.limit + 4 ≠ b.vals → b.vals < start.limit + 7 → b.Allocated m n after := by
    intro b m n allocated apartAt apartAat old
    exact (allocated.of_writes writesAt apartAt.symm (by omega)).of_writes writesAat
      apartAat.symm (by omega)
  refine ensures_pure ⟨⟨rfl, by omega⟩, ?_, ?_, ?_, aatSource.holds, ?_, ?_⟩
  · exact keepBoth (keep xv (by simp) (by simp) (by simp)) (by simp) (by simp) (by simp)
  · exact ((bvSource.of_writes writesAt (by simp)).of_writes writesAat (by simp)).holds
  · exact (atSource.of_writes writesAat (by simp)).holds
  · exact keepBoth (keep aatInv (by simp) (by simp) (by simp)) (by simp) (by simp) (by simp)
  · exact keepBoth (keep aatInvAt (by simp) (by simp) (by simp)) (by simp) (by simp) (by simp)

/-! ## Solving -/

/-- With two samples every product has matching dimensions: the solution of
`AAt * u = At * bv` is returned. -/
theorem solveStable_ensures {x y : Fin 2 → ℚ} (formed : system.Formed x y start heap)
    (regular : (sampleRows x * (sampleRows x)ᵀ).det ≠ 0) :
    (solveStable system).Ensures heap fun result _ => ∃ B, sampleRows x * (sampleRows x)ᵀ * B = 1 ∧
      result = ((B *ᵥ (sampleRows x)ᵀ *ᵥ y) 0, (B *ᵥ (sampleRows x)ᵀ *ᵥ y) 1) := by
  obtain ⟨⟨rfl, limit⟩, ⟨_, xvCells⟩, bv, at', aat, ⟨_, invCells⟩, ⟨_, productCells⟩⟩ := formed
  have xvObject := xvCells.object (by simp only; omega) (by norm_num)
  have productObject := productCells.object (by simp only; omega) (by norm_num)
  have atSource : Mat.Source _ heap (sampleRows x)ᵀ := ⟨at', by simp only; omega, by norm_num⟩
  have bvSource : Mat.Source _ heap (column y) := ⟨bv, by simp only; omega, by norm_num⟩
  apply (matinv_ensures aat invCells (by simp) (by norm_num) (by norm_num) regular).bind
  rintro _ inverted ⟨_, writesInv, B, invHolds, right⟩
  have invertedLimit := writesInv.limit
  have invSource : Mat.Source _ inverted B := ⟨invHolds, by simp only; omega, by norm_num⟩
  apply (matmul_ensures invSource (atSource.of_writes writesInv (by simp))
    (productObject.of_writes writesInv (by simp)) (by simp) (by simp)).bind
  rintro _ product ⟨_, productSource, writesProduct⟩
  have bvHere := (bvSource.of_writes writesInv (by simp)).of_writes writesProduct (by simp)
  have xvHere := (xvObject.of_writes writesInv (by simp)).of_writes writesProduct (by simp)
  apply (matmul_ensures productSource bvHere xvHere (by simp) (by simp)).bind
  rintro _ solved ⟨_, ⟨xvHolds, _, _⟩, _⟩
  have first := xvHolds.load_returns (by norm_num) 0 0
  have second := xvHolds.load_returns (by norm_num) 1 0
  refine .bind_returns first (.bind_returns second (ensures_pure ⟨B, right, ?_⟩))
  rw [mul_column, Matrix.mulVec_mulVec]
  rfl

/-- However many they are, three or more samples never give a line: if nothing else
stops the run, the product of `AAt_inv` and `At` does. -/
theorem not_ensures_stable (x y : List ℚ) (more : N ≠ 2) (start : Heap ℚ)
    (post : ℚ × ℚ → Heap ℚ → Prop) :
    ¬ (stableFirstOrderLeastSquares x y N).Ensures start post := by
  refine (allocStable_ensures N start).not_ensures_bind ?_
  rintro system _ ⟨⟨rfl, _⟩, _⟩
  refine not_ensures_bind fun _ _ => ?_
  refine not_ensures_bind fun _ _ => ?_
  exact not_ensures_of_fails (bind_of_fails (bind_of_fails (require_fails more)))

/-! ## Two samples -/

variable {x y : Fin 2 → ℚ}

/-- Two samples with different abscissae make `A * At` regular. -/
theorem det_sampleRows_two (x : Fin 2 → ℚ) :
    (sampleRows x * (sampleRows x)ᵀ).det = (x 0 - x 1) ^ 2 := by
  rw [Matrix.det_mul, Matrix.det_transpose, Matrix.det_fin_two]
  simp [sampleRows]
  ring

/-- The least-squares line through two samples meets both. -/
theorem normal_meets_samples {z : Fin 2 → ℚ} (normal : Normal (powers x 2) y z)
    (apart : x 0 ≠ x 1) (i : Fin 2) : y i = z 0 + z 1 * x i := by
  have constant := congrFun normal 0
  have linear := congrFun normal 1
  simp only [Matrix.mulVec, dotProduct, Fin.sum_univ_two, gram_powers_apply,
    moment_powers_apply] at constant linear
  norm_num at constant linear
  have first : (x 0 - x 1) * (y 0 - (z 0 + z 1 * x 0)) = 0 := by
    linear_combination x 1 * constant - linear
  have meets : y 0 = z 0 + z 1 * x 0 :=
    sub_eq_zero.mp ((mul_eq_zero.mp first).resolve_left (sub_ne_zero.mpr apart))
  fin_cases i
  · exact meets
  · simp only [Fin.mk_one]
    linear_combination -constant - meets

/-- When the matrix `A * At` takes the place of `At * A` without harm: a slope `s` and an
intercept `c` solve `A * At * (s, c) = At * y` for values on their own line. -/
theorem exchanged_iff {s c : ℚ} (line : ∀ i, y i = c + s * x i) :
    (sampleRows x * (sampleRows x)ᵀ) *ᵥ ![s, c] = (sampleRows x)ᵀ *ᵥ y ↔
      x 1 = 1 ∨ x 0 = 1 ∧ x 1 = -1 ∨ s = 0 ∧ c = 0 := by
  have slopeRow : ((sampleRows x * (sampleRows x)ᵀ) *ᵥ ![s, c] = (sampleRows x)ᵀ *ᵥ y) ↔
      (1 - x 1) * (s * (1 + x 1) + c * (1 - x 0)) = 0 ∧
        (1 - x 1) * (s * (1 - x 0) - c * (1 + x 1)) = 0 := by
    rw [funext_iff, Fin.forall_fin_two]
    simp only [Matrix.mulVec, dotProduct, Fin.sum_univ_two, Matrix.mul_apply, sampleRows, line,
      Matrix.transpose_apply, Matrix.of_apply, Matrix.cons_val_zero, Matrix.cons_val_one]
    constructor
    · rintro ⟨first, second⟩
      exact ⟨by linear_combination first, by linear_combination second⟩
    · rintro ⟨first, second⟩
      exact ⟨by linear_combination first, by linear_combination second⟩
  rw [slopeRow]
  constructor
  · rintro ⟨first, second⟩
    by_cases one : x 1 = 1
    · exact .inl one
    · have factor : 1 - x 1 ≠ 0 := sub_ne_zero.mpr (Ne.symm one)
      have row := (mul_eq_zero.mp first).resolve_left factor
      have other := (mul_eq_zero.mp second).resolve_left factor
      -- The two rows are orthogonal, of the same length.
      have slope : ((1 + x 1) ^ 2 + (1 - x 0) ^ 2) * s = 0 := by
        linear_combination (1 + x 1) * row + (1 - x 0) * other
      have intercept : ((1 + x 1) ^ 2 + (1 - x 0) ^ 2) * c = 0 := by
        linear_combination (1 - x 0) * row - (1 + x 1) * other
      by_cases length : (1 + x 1) ^ 2 + (1 - x 0) ^ 2 = 0
      · have squares := (add_eq_zero_iff_of_nonneg (sq_nonneg _) (sq_nonneg _)).mp length
        have zeroOne : 1 + x 1 = 0 := pow_eq_zero_iff two_ne_zero |>.mp squares.1
        have zeroZero : 1 - x 0 = 0 := pow_eq_zero_iff two_ne_zero |>.mp squares.2
        exact .inr (.inl ⟨by linarith, by linarith⟩)
      · exact .inr (.inr ⟨(mul_eq_zero.mp slope).resolve_left length,
          (mul_eq_zero.mp intercept).resolve_left length⟩)
  · rintro (one | ⟨zero, one⟩ | ⟨rfl, rfl⟩)
    · simp [one]
    · simp [zero, one]
    · simp

/-! ## Agreement with the plain filter -/

/-- The two fits of the samples return the same line: the stable one the slope first, the
plain one the intercept first. -/
def StableAgrees {nmemb : Nat} (x y : Fin nmemb → ℚ) : Prop :=
  ∀ start, ∃ line : ℚ × ℚ,
    (firstOrderLeastSquaresFilter (List.ofFn x) (List.ofFn y) nmemb).Ensures start
      (fun result _ => result = line) ∧
    (stableFirstOrderLeastSquares (List.ofFn x) (List.ofFn y) nmemb).Ensures start
      fun result _ => result = (line.2, line.1)

/-- Any number of samples but two does not agree. -/
theorem not_stableAgrees_of_more {x y : Fin N → ℚ} (more : N ≠ 2) : ¬ StableAgrees x y := by
  intro agrees
  obtain ⟨line, _, stable⟩ := agrees (Heap.empty ℚ)
  exact not_ensures_stable _ _ more _ _ stable

/-- What the stable fit returns for two samples with different abscissae. -/
theorem stable_ensures_two (apart : x 0 ≠ x 1) (y : Fin 2 → ℚ) (start : Heap ℚ) :
    (stableFirstOrderLeastSquares (List.ofFn x) (List.ofFn y) 2).Ensures start fun result _ =>
      (sampleRows x * (sampleRows x)ᵀ) *ᵥ ![result.1, result.2] = (sampleRows x)ᵀ *ᵥ y := by
  have regular : (sampleRows x * (sampleRows x)ᵀ).det ≠ 0 := by
    rw [det_sampleRows_two]
    exact pow_ne_zero 2 (sub_ne_zero.mpr apart)
  apply (allocStable_ensures 2 start).bind
  intro system _ fresh
  apply (formStable_ensures x y (by norm_num) le_rfl fresh).bind
  intro _ heap formed
  apply (solveStable_ensures formed regular).imp
  rintro _ _ ⟨B, right, rfl⟩
  have vector : ![(B *ᵥ (sampleRows x)ᵀ *ᵥ y) 0, (B *ᵥ (sampleRows x)ᵀ *ᵥ y) 1] =
      B *ᵥ (sampleRows x)ᵀ *ᵥ y := by
    ext i
    fin_cases i <;> rfl
  rw [vector, Matrix.mulVec_mulVec, right, Matrix.one_mulVec]

/-- When two samples agree. -/
theorem stableAgrees_two_iff (apart : x 0 ≠ x 1) :
    StableAgrees x y ↔ x 1 = 1 ∨ x 0 = 1 ∧ x 1 = -1 ∨ y 0 = 0 ∧ y 1 = 0 := by
  have enough := (two_le_card_iff x).mpr ⟨0, 1, apart⟩
  have zeroLine : ∀ {s c : ℚ}, (∀ i, y i = c + s * x i) → (s = 0 ∧ c = 0 ↔ y 0 = 0 ∧ y 1 = 0) := by
    intro s c line
    rw [line 0, line 1]
    constructor
    · rintro ⟨rfl, rfl⟩
      simp
    · rintro ⟨first, second⟩
      have level : (x 0 - x 1) * s = 0 := by linear_combination first - second
      have slope := (mul_eq_zero.mp level).resolve_left (sub_ne_zero.mpr apart)
      exact ⟨slope, by simpa [slope] using first⟩
  constructor
  · intro agrees
    obtain ⟨_, ⟨_, plainAfter, plainRun, rfl⟩, _, after, run, rfl⟩ := agrees (Heap.empty ℚ)
    obtain ⟨_, _, otherRun, z, normal, rfl, _⟩ := firstOrder_ensures x y enough (Heap.empty ℚ)
    obtain ⟨_, _, stableRun, solves⟩ := stable_ensures_two apart y (Heap.empty ℚ)
    cases plainRun.symm.trans otherRun
    cases run.symm.trans stableRun
    have line := normal_meets_samples normal apart
    rw [← zeroLine line]
    exact (exchanged_iff line).mp solves
  · intro condition start
    obtain ⟨_, plainAfter, plainRun, z, normal, rfl, _⟩ := firstOrder_ensures x y enough start
    have line := normal_meets_samples normal apart
    have exchanged := (exchanged_iff line).mpr (by rwa [zeroLine line])
    refine ⟨(z 0, z 1), ⟨_, _, plainRun, rfl⟩, (stable_ensures_two apart y start).imp ?_⟩
    rintro ⟨slope, intercept⟩ _ solves
    have same : ![slope, intercept] = ![z 1, z 0] := by
      have regular : IsUnit (sampleRows x * (sampleRows x)ᵀ).det := by
        rw [det_sampleRows_two]
        exact (pow_ne_zero 2 (sub_ne_zero.mpr apart)).isUnit
      have equal := congrArg ((sampleRows x * (sampleRows x)ᵀ)⁻¹ *ᵥ ·) (solves.trans exchanged.symm)
      simp only [Matrix.mulVec_mulVec, Matrix.nonsing_inv_mul _ regular, Matrix.one_mulVec] at equal
      exact equal
    exact Prod.ext (congrFun same 0) (congrFun same 1)

/-- The stable fit agrees with the plain one only for two samples, and there only where
exchanging the factors of the normal matrix does no harm. -/
theorem stableAgrees_iff {n : Nat} {x y : Fin (n + 2) → ℚ} (distinct : ∃ i j, x i ≠ x j) :
    StableAgrees x y ↔
      n = 0 ∧ (x 1 = 1 ∨ x 0 = 1 ∧ x 1 = -1 ∨ y 0 = 0 ∧ y 1 = 0) := by
  cases n with
  | zero =>
      have apart : x 0 ≠ x 1 := by
        intro same
        obtain ⟨i, j, different⟩ := distinct
        fin_cases i <;> fin_cases j <;> simp_all
      rw [stableAgrees_two_iff apart]
      simp
  | succ n => simp [not_stableAgrees_of_more (show n + 1 + 2 ≠ 2 by omega)]

/-- Two samples a unit step apart, the second one at one. -/
theorem stableAgrees_unitStep :
    StableAgrees (![0, 1] : Fin 2 → ℚ) ![3, 5] :=
  (stableAgrees_iff ⟨0, 1, by decide⟩).mpr ⟨rfl, .inl rfl⟩

/-- Three samples of the line `1 + 2 * x`: the plain filter returns it, the stable one
stops. -/
theorem not_stableAgrees_threeSamples :
    (∃ i j, (![0, 1, 2] : Fin 3 → ℚ) i ≠ ![0, 1, 2] j) ∧
      ¬ StableAgrees (![0, 1, 2] : Fin 3 → ℚ) ![1, 3, 5] :=
  ⟨⟨0, 1, by decide⟩, not_stableAgrees_of_more (by decide)⟩

end MotorStand
