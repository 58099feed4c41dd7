import MotorStand.Fit.NormalSystem

/-!
# The filters of `method_of_least_squares.c`

Each filter accumulates the Gram matrix and the moments of its order and solves
the normal equations. The coefficients a filter stores through its pointers are
its result; `leastSquaresFilter` stores them in the array `a`.
-/

namespace MotorStand

open Imperative Imperative.Exec Imperative.Heap LeastSquares Matrix

/-- `zero_order_least_squares_filter`; the result is `*a0`. -/
def zeroOrderLeastSquaresFilter (_x y : List ℚ) (nmemb : Nat) : Exec (Heap ℚ) ℚ := do
  let a0 ← forUp 0 nmemb 0 fun i a0 => do
    let y ← element y i
    return a0 + y
  divide a0 (nmemb : ℚ)

/-- `first_order_least_squares_filter`; the result is `(*a0, *a1)`. -/
def firstOrderLeastSquaresFilter (x y : List ℚ) (nmemb : Nat) : Exec (Heap ℚ) (ℚ × ℚ) := do
  let system ← allocSystem 2
  store system.eq.vals 0 (nmemb : ℚ)
  forUp 0 nmemb () fun i _ => do
    let x ← element x i
    let y ← element y i
    addAll system.eq 1 [x, x, x * x]
    addAll system.ac 0 [y, y * x]
  solveSystem system
  let a0 ← load system.co.vals 0
  let a1 ← load system.co.vals 1
  freeSystem system
  return (a0, a1)

/-- `second_order_least_squares_filter`; the result is `(*a0, *a1, *a2)`. -/
def secondOrderLeastSquaresFilter (x y : List ℚ) (nmemb : Nat) :
    Exec (Heap ℚ) (ℚ × ℚ × ℚ) := do
  let system ← allocSystem 3
  store system.eq.vals 0 (nmemb : ℚ)
  forUp 0 nmemb () fun i _ => do
    let x ← element x i
    let y ← element y i
    addAll system.eq 1
      [x, x * x, x, x * x, x * x * x, x * x, x * x * x, x * x * x * x]
    addAll system.ac 0 [y, x * y, x * x * y]
  solveSystem system
  let a0 ← load system.co.vals 0
  let a1 ← load system.co.vals 1
  let a2 ← load system.co.vals 2
  freeSystem system
  return (a0, a1, a2)

/-- `col + row * stride` over `size_t`. -/
def offset64 (stride row col : Nat) : Nat := (col + row * stride) % 2 ^ 64

/-- The `default` case of `least_squares_filter`, where `n` already counts the
coefficients. -/
def genericLeastSquaresFilter (x y : List ℚ) (nmemb a n : Nat) : Exec (Heap ℚ) Unit := do
  let system ← allocSystem n
  forUp 0 nmemb () fun i _ => do
    let x ← element x i
    let y ← element y i
    forUp 0 n () fun j _ => do
      forUp 0 n () fun k _ => addAt system.eq (offset64 n j k) (x ^ (j + k))
      addAt system.ac j (y * x ^ j)
  solveSystem system
  forUp 0 n () fun i _ => do
    let val ← load system.co.vals i
    store a i val
  freeSystem system

/-- `least_squares_filter`. -/
def leastSquaresFilter (x y : List ℚ) (nmemb a n : Nat) : Exec (Heap ℚ) Unit :=
  match n with
  | 0 => do
      let a0 ← zeroOrderLeastSquaresFilter x y nmemb
      store a 0 a0
  | 1 => do
      let (a0, a1) ← firstOrderLeastSquaresFilter x y nmemb
      store a 0 a0
      store a 1 a1
  | 2 => do
      let (a0, a1, a2) ← secondOrderLeastSquaresFilter x y nmemb
      store a 0 a0
      store a 1 a1
      store a 2 a2
  | n => genericLeastSquaresFilter x y nmemb a ((n + 1) % 2 ^ 64)

/-! ## The share of one sample -/

variable {n nmemb : Nat} {x y : Fin nmemb → ℚ} {system : NormalSystem} {start heap : Heap ℚ}
  {G : Matrix (Fin n) (Fin n) ℚ} {c : Matrix (Fin n) (Fin 1) ℚ}

/-- The column with entries `v`. -/
def column (v : Fin n → ℚ) : Matrix (Fin n) (Fin 1) ℚ := Matrix.of fun j _ => v j

/-- An entry of a column. -/
theorem column_apply (v : Fin n → ℚ) (j : Fin n) (k : Fin 1) : column v j k = v j := rfl

/-- A product with a column is a column. -/
theorem mul_column (B : Matrix (Fin n) (Fin n) ℚ) (v : Fin n → ℚ) :
    B * column v = column (B *ᵥ v) := rfl

/-- What a sample at `x` adds to the Gram matrix. -/
def sampleGram (n : Nat) (x : ℚ) : Matrix (Fin n) (Fin n) ℚ :=
  Matrix.of fun j k => x ^ (j.val + k.val)

/-- What a sample adds to the right-hand side. -/
def sampleMoment (n : Nat) (x y : ℚ) : Matrix (Fin n) (Fin 1) ℚ :=
  column fun j => x ^ j.val * y

/-- The samples add up to the normal matrix. -/
theorem sum_sampleGram (x : Fin nmemb → ℚ) :
    ∑ i, sampleGram n (x i) = gram (powers x n) := by
  ext j k
  rw [gram_powers_apply, Matrix.sum_apply]
  rfl

/-- The samples add up to the right side. -/
theorem sum_sampleMoment (x y : Fin nmemb → ℚ) :
    ∑ i, sampleMoment n (x i) (y i) = column (moment (powers x n) y) := by
  ext j k
  rw [column_apply, moment_powers_apply, Matrix.sum_apply]
  rfl

/-- The unrolled filters store the number of samples first and leave the corner out
of the sums. -/
theorem sum_sampleGram_corner (x : Fin nmemb → ℚ) :
    setEntry (0 : Matrix (Fin (n + 1)) (Fin (n + 1)) ℚ) 0 0 (nmemb : ℚ) +
      ∑ i, setEntry (sampleGram (n + 1) (x i)) 0 0 0 = gram (powers x (n + 1)) := by
  ext j k
  rw [gram_powers_apply, Matrix.add_apply, Matrix.sum_apply]
  by_cases corner : j = 0 ∧ k = 0
  · obtain ⟨rfl, rfl⟩ := corner
    simp [setEntry_apply]
  · simp [setEntry_apply, corner, sampleGram]

/-- An element of a list is the value at its index. -/
theorem element_ofFn {σ α : Type} {before : σ} (f : Fin n → α) (i : Fin n) :
    (element (List.ofFn f) i.val : Exec σ α) before = .ok (f i, before) := by
  have inside : i.val < (List.ofFn f).length := by simp
  rw [element_returns inside, List.getElem_ofFn]

/-- One iteration of an unrolled accumulation. -/
theorem addSample_ensures {D : Matrix (Fin n) (Fin n) ℚ} {v : Matrix (Fin n) (Fin 1) ℚ}
    {grams moments : List ℚ} (held : system.Holds start heap G c) (left : Covers 1 grams D)
    (right : Covers 0 moments v) :
    (do addAll system.eq 1 grams
        addAll system.ac 0 moments).Ensures heap fun _ after =>
      system.Holds start after (G + D) (c + v) := by
  apply (addAll_ensures held.gram left).bind
  rintro _ added ⟨gram, writes⟩
  have held := held.of_writes_eq writes gram
  apply (addAll_ensures held.moment right).imp
  rintro _ after ⟨moment, writes⟩
  exact held.of_writes_ac writes moment

/-- Storing the number of samples in the corner of a cleared Gram matrix. -/
theorem storeCount_ensures (held : system.Holds start heap
      (0 : Matrix (Fin (n + 1)) (Fin (n + 1)) ℚ) (0 : Matrix (Fin (n + 1)) (Fin 1) ℚ))
    (count : ℚ) :
    (store system.eq.vals 0 count).Ensures heap fun _ after =>
      system.Holds start after (setEntry (0 : Matrix (Fin (n + 1)) (Fin (n + 1)) ℚ) 0 0 count)
        (0 : Matrix (Fin (n + 1)) (Fin 1) ℚ) := by
  have inside : 0 < (heap.block system.eq.vals).size := by
    rw [Mat.Cells.size held.gram]
    positivity
  refine .of_returns (Heap.store_returns count inside) ?_
  refine held.of_writes_eq (system.eq.writes_set heap 0 count) ?_
  have stored := Mat.Cells.set held.gram 0 0 count
  have contents : setEntry ((0 : Matrix (Fin (n + 1)) (Fin (n + 1)) ℚ).map some) 0 0 (some count) =
      (setEntry (0 : Matrix (Fin (n + 1)) (Fin (n + 1)) ℚ) 0 0 count).map some := by
    ext i j : 2
    simp only [setEntry_apply, Matrix.map_apply]
    split <;> rfl
  rw [contents] at stored
  simpa [Mat.Holds] using stored

/-- The unrolled accumulation of a filter with `n + 1` coefficients. -/
theorem unrolled_ensures {grams : ℚ → List ℚ} {moments : ℚ → ℚ → List ℚ} (x y : Fin nmemb → ℚ)
    (held : system.Holds start heap
      (setEntry (0 : Matrix (Fin (n + 1)) (Fin (n + 1)) ℚ) 0 0 (nmemb : ℚ))
      (0 : Matrix (Fin (n + 1)) (Fin 1) ℚ))
    (left : ∀ x, Covers 1 (grams x) (setEntry (sampleGram (n + 1) x) 0 0 0))
    (right : ∀ x y, Covers 0 (moments x y) (sampleMoment (n + 1) x y)) :
    (forUp 0 nmemb () fun i _ => do
      let x ← element (List.ofFn x) i
      let y ← element (List.ofFn y) i
      addAll system.eq 1 (grams x)
      addAll system.ac 0 (moments x y)).Ensures heap fun _ after =>
      system.Holds start after (gram (powers x (n + 1))) (column (moment (powers x (n + 1)) y)) := by
  refine (accumulate_ensures (fun i => setEntry (sampleGram (n + 1) (x i)) 0 0 0)
    (fun i => sampleMoment (n + 1) (x i) (y i)) held fun i store G c held => ?_).imp ?_
  · refine .bind_returns (element_ofFn x i) ?_
    refine .bind_returns (element_ofFn y i) ?_
    exact addSample_ensures held (left _) (right _ _)
  · intro _ after held
    rwa [sum_sampleGram_corner, sum_sampleMoment, zero_add] at held

/-! ## The generic accumulation -/

/-- The flat index does not wrap. -/
theorem offset64_eq (small : n * n < 2 ^ 32) (j k : Fin n) :
    offset64 n j.val k.val = k.val + j.val * n := by
  have below := position_lt j k
  exact Nat.mod_eq_of_lt (by omega)

/-- `addAt` at an entry which is still that of `A`. -/
theorem addAt_filled {a : Mat} {m : Nat} {A D : Matrix (Fin m) (Fin n) ℚ} (i : Fin m) (j : Fin n)
    (cells : a.Cells heap (filled (A + D) (A.map some) i.val j.val)) :
    addAt a (j.val + i.val * n) (D i j) heap =
      .ok ((), heap.set a.vals (j.val + i.val * n) ((A + D) i j)) := by
  have inside : j.val + i.val * n < (heap.block a.vals).size := by
    rw [cells.size]
    exact position_lt i j
  have pending : (heap.block a.vals).cell (j.val + i.val * n) = some (A i j) := by
    rw [cells.cell, filled_apply, if_neg (by omega), Matrix.map_apply]
  unfold addAt
  rw [bind_of_returns (Heap.load_returns inside pending)]
  exact Heap.store_returns _ inside

/-- One iteration of the generic accumulation. -/
theorem genericSample_ensures (held : system.Holds start heap G c) (small : n * n < 2 ^ 32)
    (x y : ℚ) :
    (forUp 0 n () fun j _ => do
      forUp 0 n () fun k _ => addAt system.eq (offset64 n j k) (x ^ (j + k))
      addAt system.ac j (y * x ^ j)).Ensures heap fun _ after =>
        system.Holds start after (G + sampleGram n x) (c + sampleMoment n x y) := by
  refine (forUp_ensures (fun j _ store =>
    system.eq.Cells store (filled (G + sampleGram n x) (G.map some) j 0) ∧
    system.ac.Cells store (filled (c + sampleMoment n x y) (c.map some) j 0) ∧
    system.Accumulates heap store) (Nat.zero_le n) ⟨?_, ?_, .refl _⟩ ?_).imp ?_
  · rw [filled_start]
    exact held.gram
  · rw [filled_start]
    exact held.moment
  · rintro j _ store _ below ⟨gramCells, momentCells, frame⟩
    lift j to Fin n using below
    have old : system.ac.vals < store.limit := by
      have limit := held.limit
      have grown := frame.limit
      rw [held.ac]
      omega
    refine (gramCells.ensures_fill_row fun k inner _ cells => ?_).bind ?_
    · rw [offset64_eq small]
      exact addAt_filled j k cells
    rintro _ row ⟨gramCells, writes⟩
    have momentCells := momentCells.of_block_eq (writes.same _ old held.apart.symm)
    have added := addAt_filled j 0 momentCells
    have stored := Mat.Cells.set_filled j 0 momentCells
    have amount : sampleMoment n x y j 0 = y * x ^ j.val := mul_comm _ _
    simp only [Fin.val_zero, Nat.zero_add, Nat.mul_one, filled_row] at added stored
    rw [amount] at added
    refine .of_returns added ⟨?_, ?_, ?_⟩
    · exact gramCells.of_block_eq (block_set_of_ne _ _ _ held.apart)
    · exact stored
    · exact (frame.trans (writes.weaken fun _ => Or.inl)).trans
        ((system.ac.writes_set row _ _).weaken fun _ => Or.inr)
  · rintro _ after ⟨gramCells, momentCells, frame⟩
    rw [filled_all] at gramCells momentCells
    exact held.of_accumulates frame gramCells momentCells

/-- The loops of the generic filter form the normal equations. -/
theorem generic_ensures (x y : Fin nmemb → ℚ) (small : n * n < 2 ^ 32)
    (held : system.Holds start heap (0 : Matrix (Fin n) (Fin n) ℚ) (0 : Matrix (Fin n) (Fin 1) ℚ)) :
    (forUp 0 nmemb () fun i _ => do
      let x ← element (List.ofFn x) i
      let y ← element (List.ofFn y) i
      forUp 0 n () fun j _ => do
        forUp 0 n () fun k _ => addAt system.eq (offset64 n j k) (x ^ (j + k))
        addAt system.ac j (y * x ^ j)).Ensures heap fun _ after =>
      system.Holds start after (gram (powers x n)) (column (moment (powers x n) y)) := by
  refine (accumulate_ensures (fun i => sampleGram n (x i)) (fun i => sampleMoment n (x i) (y i))
    held fun i store G c held => ?_).imp ?_
  · refine .bind_returns (element_ofFn x i) ?_
    refine .bind_returns (element_ofFn y i) ?_
    exact genericSample_ensures held small (x i) (y i)
  · intro _ after held
    rwa [sum_sampleGram, sum_sampleMoment, zero_add, zero_add] at held

/-! ## The solution -/

/-- The sum of the squared errors of the polynomial with the coefficients `a`. -/
def squaredError (x y : Fin nmemb → ℚ) (a : Fin n → ℚ) : ℚ :=
  ∑ i, (y i - ∑ j, a j * x i ^ j.val) ^ 2

/-- The squared error of a polynomial is the residual of its coefficients. -/
theorem squaredError_eq_residual (x y : Fin nmemb → ℚ) (a : Fin n → ℚ) :
    squaredError x y a = LeastSquares.residual (powers x n) y a := by
  simp only [squaredError, LeastSquares.residual, powers_mulVec]

/-- Every other polynomial of the same order has a larger error. -/
def UniqueFit (x y : Fin nmemb → ℚ) (a : Fin n → ℚ) : Prop :=
  ∀ other, other ≠ a → squaredError x y a < squaredError x y other

/-- A solution of the normal equations is the only best fit, if there are abscissae enough. -/
theorem uniqueFit_of_normal {a : Fin n → ℚ} (normal : Normal (powers x n) y a)
    (enough : n ≤ (Finset.univ.image x).card) : UniqueFit x y a := by
  intro other different
  rw [squaredError_eq_residual, squaredError_eq_residual]
  by_contra large
  have minimal : Minimises (powers x n) y other := fun third =>
    (not_lt.mp large).trans (normal.minimises third)
  exact different (normal.eq_of_minimises ((det_gram_powers_ne_zero_iff x n).mpr enough) minimal)

/-- The solution column can be read from the heap. -/
def NormalSystem.Reads (system : NormalSystem) (start heap : Heap ℚ) (z : Fin n → ℚ) : Prop :=
  system.Placed start heap ∧ HoldsVector heap system.co.vals z

/-- Solving accumulated equations yields coefficients which satisfy them. -/
theorem solveSystem_solves (held : system.Holds start heap (gram (powers x n))
      (column (moment (powers x n) y))) (positive : 0 < n) (small : n * n < 2 ^ 32)
    (enough : n ≤ (Finset.univ.image x).card) :
    (solveSystem system).Ensures heap fun _ after =>
      ∃ z, Normal (powers x n) y z ∧ system.Reads start after z := by
  refine (solveSystem_ensures held positive small
    ((det_gram_powers_ne_zero_iff x n).mpr enough)).imp ?_
  rintro _ after ⟨placed, B, right, solution⟩
  refine ⟨B *ᵥ moment (powers x n) y, normal_of_inverse right, placed, ?_⟩
  rw [mul_column] at solution
  refine ⟨by rw [Mat.Cells.size solution]; omega, fun r => ?_⟩
  have cell := Mat.Cells.cell solution r 0
  simpa [column_apply] using cell

/-- An accumulated system of too few distinct samples stops at `matinv`. -/
theorem solveSystem_rejects (held : system.Holds start heap (gram (powers x n))
      (column (moment (powers x n) y))) (positive : 0 < n) (small : n * n < 2 ^ 32)
    (few : (Finset.univ.image x).card < n) :
    solveSystem system heap = .error (.assertion singularMessage) := by
  refine solveSystem_fails held positive small ?_
  by_contra regular
  exact absurd ((det_gram_powers_ne_zero_iff x n).mp regular) (not_le.mpr few)

/-! ## Order zero -/

/-- One sample is enough for the mean. -/
theorem zeroOrder_ensures (x y : Fin nmemb → ℚ) (enough : 1 ≤ (Finset.univ.image x).card)
    (heap : Heap ℚ) :
    (zeroOrderLeastSquaresFilter (List.ofFn x) (List.ofFn y) nmemb).Ensures heap fun a0 after =>
      Normal (powers x 1) y (fun _ => a0) ∧ after = heap := by
  have nonempty : (nmemb : ℚ) ≠ 0 := by
    rintro zero
    have none : nmemb = 0 := Nat.cast_eq_zero.mp zero
    subst none
    simp at enough
  refine (forUp_window_ensures y (Nat.zero_le nmemb) (le_refl nmemb) ?_).bind ?_
  · intro i sum _ _
    exact .bind_returns (element_ofFn y i) (ensures_pure ⟨rfl, rfl⟩)
  · rintro sum _ ⟨total, rfl⟩
    refine .of_returns (divide_returns sum nonempty) ⟨?_, rfl⟩
    ext j
    have only : j = 0 := Subsingleton.elim _ _
    subst only
    have gramZero : gram (powers x 1) 0 0 = nmemb := by
      rw [gram_powers_apply]
      simp
    have momentZero : moment (powers x 1) y 0 = sum := by
      rw [moment_powers_apply, total]
      simp
    rw [momentZero, Matrix.mulVec, dotProduct, Fin.sum_univ_one, gramZero]
    exact mul_div_cancel₀ sum nonempty

/-! ## Orders one and two -/

/-- Two abscissae are two samples which differ. -/
theorem two_le_card_iff (x : Fin nmemb → ℚ) :
    2 ≤ (Finset.univ.image x).card ↔ ∃ i j, x i ≠ x j := by
  rw [Nat.succ_le_iff, Finset.one_lt_card]
  constructor
  · rintro ⟨a, first, b, second, apart⟩
    obtain ⟨i, _, rfl⟩ := Finset.mem_image.mp first
    obtain ⟨j, _, rfl⟩ := Finset.mem_image.mp second
    exact ⟨i, j, apart⟩
  · rintro ⟨i, j, apart⟩
    exact ⟨x i, Finset.mem_image_of_mem x (Finset.mem_univ i), x j,
      Finset.mem_image_of_mem x (Finset.mem_univ j), apart⟩

/-- The amounts of the first order, as they are added to the matrix. -/
theorem covers_first (x : ℚ) : Covers 1 [x, x, x * x] (setEntry (sampleGram 2 x) 0 0 0) where
  length := rfl
  before := by
    intro i j early
    fin_cases i <;> fin_cases j <;> simp_all [setEntry_apply]
  amount := by
    intro i j late
    fin_cases i <;> fin_cases j <;> simp_all [setEntry_apply, sampleGram, pow_succ]

/-- The amounts of the first order, as they are added to the right side. -/
theorem covers_first_moment (x y : ℚ) : Covers 0 [y, y * x] (sampleMoment 2 x y) where
  length := rfl
  before := by
    intro i j early
    exact absurd early (Nat.not_lt_zero _)
  amount := by
    intro i j _
    fin_cases i <;> fin_cases j <;> simp [sampleMoment, column_apply, mul_comm]

/-- The amounts of the second order, as they are added to the matrix. -/
theorem covers_second (x : ℚ) :
    Covers 1 [x, x * x, x, x * x, x * x * x, x * x, x * x * x, x * x * x * x]
      (setEntry (sampleGram 3 x) 0 0 0) where
  length := rfl
  before := by
    intro i j early
    fin_cases i <;> fin_cases j <;> simp_all [setEntry_apply]
  amount := by
    intro i j late
    fin_cases i <;> fin_cases j <;> simp_all [setEntry_apply, sampleGram, pow_succ]

/-- The amounts of the second order, as they are added to the right side. -/
theorem covers_second_moment (x y : ℚ) :
    Covers 0 [y, x * y, x * x * y] (sampleMoment 3 x y) where
  length := rfl
  before := by
    intro i j early
    exact absurd early (Nat.not_lt_zero _)
  amount := by
    intro i j _
    fin_cases i <;> fin_cases j <;> simp [sampleMoment, column_apply, pow_succ]

/-- Two abscissae are enough for a line. -/
theorem firstOrder_ensures (x y : Fin nmemb → ℚ) (enough : 2 ≤ (Finset.univ.image x).card)
    (start : Heap ℚ) :
    (firstOrderLeastSquaresFilter (List.ofFn x) (List.ofFn y) nmemb).Ensures start
      fun result after => ∃ z : Fin 2 → ℚ, Normal (powers x 2) y z ∧ result = (z 0, z 1) ∧
        Frame (fun _ => False) start after := by
  apply (allocSystem_ensures (by norm_num) start).bind
  intro system _ held
  apply (storeCount_ensures held (nmemb : ℚ)).bind
  intro _ _ held
  apply (unrolled_ensures x y held covers_first covers_first_moment).bind
  intro _ _ held
  apply (solveSystem_solves held (by norm_num) (by norm_num) enough).bind
  rintro _ _ ⟨z, normal, placed, reads⟩
  refine .bind_returns (reads.load_returns 0) ?_
  refine .bind_returns (reads.load_returns 1) ?_
  apply (freeSystem_ensures placed _).bind
  intro _ after freed
  refine ensures_pure ⟨z, normal, rfl, placed.frame.trans_of_fresh freed ?_⟩
  omega

/-- A single abscissa stops the line at the assertion. -/
theorem firstOrder_fails (x y : Fin nmemb → ℚ) (few : (Finset.univ.image x).card < 2)
    (start : Heap ℚ) :
    firstOrderLeastSquaresFilter (List.ofFn x) (List.ofFn y) nmemb start =
      .error (.assertion singularMessage) := by
  refine (allocSystem_ensures (by norm_num) start).bind_fails ?_
  intro system _ held
  refine (storeCount_ensures held (nmemb : ℚ)).bind_fails ?_
  intro _ _ held
  refine (unrolled_ensures x y held covers_first covers_first_moment).bind_fails ?_
  intro _ _ held
  exact bind_of_fails (solveSystem_rejects held (by norm_num) (by norm_num) few)

/-- Three abscissae are enough for a parabola. -/
theorem secondOrder_ensures (x y : Fin nmemb → ℚ) (enough : 3 ≤ (Finset.univ.image x).card)
    (start : Heap ℚ) :
    (secondOrderLeastSquaresFilter (List.ofFn x) (List.ofFn y) nmemb).Ensures start
      fun result after => ∃ z : Fin 3 → ℚ, Normal (powers x 3) y z ∧
        result = (z 0, z 1, z 2) ∧ Frame (fun _ => False) start after := by
  apply (allocSystem_ensures (by norm_num) start).bind
  intro system _ held
  apply (storeCount_ensures held (nmemb : ℚ)).bind
  intro _ _ held
  apply (unrolled_ensures x y held covers_second covers_second_moment).bind
  intro _ _ held
  apply (solveSystem_solves held (by norm_num) (by norm_num) enough).bind
  rintro _ _ ⟨z, normal, placed, reads⟩
  refine .bind_returns (reads.load_returns 0) ?_
  refine .bind_returns (reads.load_returns 1) ?_
  refine .bind_returns (reads.load_returns 2) ?_
  apply (freeSystem_ensures placed _).bind
  intro _ after freed
  refine ensures_pure ⟨z, normal, rfl, placed.frame.trans_of_fresh freed ?_⟩
  omega

/-- Two abscissae stop the parabola at the assertion. -/
theorem secondOrder_fails (x y : Fin nmemb → ℚ) (few : (Finset.univ.image x).card < 3)
    (start : Heap ℚ) :
    secondOrderLeastSquaresFilter (List.ofFn x) (List.ofFn y) nmemb start =
      .error (.assertion singularMessage) := by
  refine (allocSystem_ensures (by norm_num) start).bind_fails ?_
  intro system _ held
  refine (storeCount_ensures held (nmemb : ℚ)).bind_fails ?_
  intro _ _ held
  refine (unrolled_ensures x y held covers_second covers_second_moment).bind_fails ?_
  intro _ _ held
  exact bind_of_fails (solveSystem_rejects held (by norm_num) (by norm_num) few)

/-! ## Every order -/

variable {a : Nat}

/-- The coefficients of a nonempty array survive a program which only touches newer
blocks. -/
theorem HoldsVector.of_fresh {z : Fin n → ℚ} {after : Heap ℚ} (holds : HoldsVector heap a z)
    (old : a < start.limit) (older : start.limit ≤ heap.limit)
    (frame : Frame (fun address => start.limit ≤ address) heap after) :
    HoldsVector after a z := by
  have kept := frame.same a (old.trans_le older) (not_le.mpr old)
  refine ⟨by rw [kept]; exact holds.1, fun i => ?_⟩
  rw [kept]
  exact holds.2 i

/-- As many abscissae as coefficients are enough. -/
theorem genericOrder_ensures (x y : Fin nmemb → ℚ) (positive : 0 < n) (small : n * n < 2 ^ 32)
    (enough : n ≤ (Finset.univ.image x).card) (start : Heap ℚ)
    (room : n ≤ (start.block a).size) :
    (genericLeastSquaresFilter (List.ofFn x) (List.ofFn y) nmemb a n).Ensures start
      fun _ after => ∃ z : Fin n → ℚ, Normal (powers x n) y z ∧ HoldsVector after a z := by
  have old : a < start.limit := lt_limit_of_size (by omega)
  apply (allocSystem_ensures small start).bind
  intro system _ held
  apply (generic_ensures x y small held).bind
  intro _ _ held
  apply (solveSystem_solves held positive small enough).bind
  rintro _ solved ⟨z, normal, placed, reads⟩
  have limit := placed.limit
  have target := placed.frame.same a old (fun never => never)
  have cells : VectorCells solved a fun i : Fin n => (solved.block a).cell i.val :=
    ⟨by rwa [target], fun _ => rfl⟩
  apply (copyVector_ensures reads cells (by rw [placed.co]; omega)).bind
  rintro _ copied ⟨stored, writes⟩
  have grown := writes.limit
  apply (freeSystem_ensures placed copied).imp
  intro _ after freed
  exact ⟨z, normal, stored.of_fresh old (by omega) freed⟩

/-- Fewer abscissae than coefficients stop the fit at the assertion. -/
theorem genericOrder_fails (x y : Fin nmemb → ℚ) (positive : 0 < n) (small : n * n < 2 ^ 32)
    (few : (Finset.univ.image x).card < n) (start : Heap ℚ) :
    genericLeastSquaresFilter (List.ofFn x) (List.ofFn y) nmemb a n start =
      .error (.assertion singularMessage) := by
  refine (allocSystem_ensures small start).bind_fails ?_
  intro system _ held
  refine (generic_ensures x y small held).bind_fails ?_
  intro _ _ held
  exact bind_of_fails (solveSystem_rejects held positive small few)

/-- From the third order on the generic filter is called. -/
theorem leastSquaresFilter_generic (x y : List ℚ) (small : (n + 4) * (n + 4) < 2 ^ 32) :
    leastSquaresFilter x y nmemb a (n + 3) = genericLeastSquaresFilter x y nmemb a (n + 4) :=
  congrArg (genericLeastSquaresFilter x y nmemb a) (Nat.mod_eq_of_lt (by nlinarith))

/-- `least_squares_filter` stores coefficients which satisfy the normal equations. -/
theorem leastSquaresFilter_ensures (x y : Fin nmemb → ℚ)
    (small : (n + 1) ^ 2 < 2 ^ 32) (enough : n + 1 ≤ (Finset.univ.image x).card)
    (start : Heap ℚ) (room : n + 1 ≤ (start.block a).size) :
    (leastSquaresFilter (List.ofFn x) (List.ofFn y) nmemb a n).Ensures start
      fun _ after => ∃ z : Fin (n + 1) → ℚ, Normal (powers x (n + 1)) y z ∧
        HoldsVector after a z := by
  have old : a < start.limit := lt_limit_of_size (by omega)
  match n, small, enough, room with
  | 0, _, enough, room =>
      apply (zeroOrder_ensures x y enough start).bind
      rintro a0 _ ⟨normal, rfl⟩
      refine .of_returns (Heap.store_returns a0 (by omega)) ⟨_, normal, ?_, ?_⟩
      · simpa using room
      · intro r
        fin_cases r
        simp [Block.cell_set]
  | 1, _, enough, room =>
      apply (firstOrder_ensures x y enough start).bind
      rintro _ fitted ⟨z, normal, rfl, frame⟩
      have target := frame.same a old (fun never => never)
      refine .bind_returns (Heap.store_returns (z 0) (by rw [target]; omega)) ?_
      refine .of_returns (Heap.store_returns (z 1) (by simp [target]; omega)) ⟨z, normal, ?_, ?_⟩
      · simpa [target] using room
      · intro r
        fin_cases r <;> simp [Block.cell_set]
  | 2, _, enough, room =>
      apply (secondOrder_ensures x y enough start).bind
      rintro _ fitted ⟨z, normal, rfl, frame⟩
      have target := frame.same a old (fun never => never)
      refine .bind_returns (Heap.store_returns (z 0) (by rw [target]; omega)) ?_
      refine .bind_returns (Heap.store_returns (z 1) (by simp [target]; omega)) ?_
      refine .of_returns (Heap.store_returns (z 2) (by simp [target]; omega)) ⟨z, normal, ?_, ?_⟩
      · simpa [target] using room
      · intro r
        fin_cases r <;> simp [Block.cell_set]
  | n + 3, small, enough, room =>
      have entries : (n + 4) * (n + 4) < 2 ^ 32 := by rwa [← pow_two]
      rw [leastSquaresFilter_generic _ _ entries]
      exact genericOrder_ensures x y (by omega) entries enough start room

/-- Any order needs an abscissa more. -/
theorem leastSquaresFilter_fails (x y : Fin nmemb → ℚ) (small : (n + 1) ^ 2 < 2 ^ 32)
    (positive : 1 ≤ n) (few : (Finset.univ.image x).card < n + 1) (start : Heap ℚ) :
    leastSquaresFilter (List.ofFn x) (List.ofFn y) nmemb a n start =
      .error (.assertion singularMessage) := by
  match n, small, positive, few with
  | 1, _, _, few => exact bind_of_fails (firstOrder_fails x y few start)
  | 2, _, _, few => exact bind_of_fails (secondOrder_fails x y few start)
  | n + 3, small, _, few =>
      have entries : (n + 4) * (n + 4) < 2 ^ 32 := by rwa [← pow_two]
      rw [leastSquaresFilter_generic _ _ entries]
      exact genericOrder_fails x y (by omega) entries few start

/-- `least_squares_filter` is the polynomial fit of every order: with enough distinct
abscissae it stores the unique best coefficients, and with too few it stops at the
assertion of `matinv`. -/
theorem leastSquaresFilter_fits_or_rejects (x y : Fin nmemb → ℚ)
    (small : (n + 1) ^ 2 < 2 ^ 32) (start : Heap ℚ) (room : n + 1 ≤ (start.block a).size) :
    (n + 1 ≤ (Finset.univ.image x).card →
      (leastSquaresFilter (List.ofFn x) (List.ofFn y) nmemb a n).Ensures start fun _ after =>
        ∃ z : Fin (n + 1) → ℚ, HoldsVector after a z ∧ UniqueFit x y z) ∧
    (1 ≤ n → (Finset.univ.image x).card < n + 1 →
      leastSquaresFilter (List.ofFn x) (List.ofFn y) nmemb a n start =
        .error (.assertion singularMessage)) := by
  refine ⟨fun enough => ?_, fun positive few => leastSquaresFilter_fails x y small positive few start⟩
  apply (leastSquaresFilter_ensures x y small enough start room).imp
  rintro _ after ⟨z, normal, holds⟩
  exact ⟨z, holds, uniqueFit_of_normal normal enough⟩

/-- A cubic through five samples, and a parabola which two samples do not determine. -/
theorem leastSquaresFilter_fits_cubic :
    (leastSquaresFilter (List.ofFn ![-2, -1, 0, 1, 2]) (List.ofFn ![-8, -1, 0, 1, 9]) 5 0 3).Ensures
      ((Heap.empty ℚ).extend (.uninitialised ℚ 4)) (fun _ after =>
        ∃ z : Fin 4 → ℚ, HoldsVector after 0 z ∧
          UniqueFit ![-2, -1, 0, 1, 2] ![-8, -1, 0, 1, 9] z) ∧
    leastSquaresFilter (List.ofFn ![1, 2]) (List.ofFn ![3, 5]) 2 0 2
      ((Heap.empty ℚ).extend (.uninitialised ℚ 3)) = .error (.assertion singularMessage) :=
  ⟨(leastSquaresFilter_fits_or_rejects _ _ (by norm_num) _ (by decide)).1 (by decide),
    (leastSquaresFilter_fits_or_rejects _ _ (by norm_num) _ (by decide)).2 (by decide) (by decide)⟩

end MotorStand
