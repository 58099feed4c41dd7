import MotorStand.Numerical.Inverse

/-!
# `matdet`

Closed forms up to size three; above, the signed product of the pivots, and zero
when the decomposition fails.
-/

namespace MotorStand

open Imperative Imperative.Exec Imperative.Heap Elimination Matrix

/-- `case 2` of `matdet`. -/
def determinantTwo (a : Mat) : Exec (Heap ℚ) ℚ := do
  let a0 ← load a.vals 0
  let a3 ← load a.vals 3
  let a1 ← load a.vals 1
  let a2 ← load a.vals 2
  return a0 * a3 - a1 * a2

/-- `case 3` of `matdet`. -/
def determinantThree (a : Mat) : Exec (Heap ℚ) ℚ := do
  let aa ← load a.vals 0
  let b ← load a.vals 1
  let c ← load a.vals 2
  let d ← load a.vals 3
  let e ← load a.vals 4
  let f ← load a.vals 5
  let g ← load a.vals 6
  let h ← load a.vals 7
  let i ← load a.vals 8
  return aa * e * i + b * f * g + c * d * h - c * e * g - b * d * i - aa * f * h

/-- `dd` multiplied by the entries of the diagonal. -/
def diagonalProduct (lu : Mat) (rows : Nat) (dd : ℚ) : Exec (Heap ℚ) ℚ :=
  forUp 0 rows dd fun i dd => do
    let val ← load lu.vals (offset32 rows i i)
    return dd * val

/-- The part of `matdet` after its `switch`. -/
def determinantLu (a : Mat) : Exec (Heap ℚ) ℚ := do
  let lu ← allocMat a.rows a.cols
  -- `indx` is allocated with the size of as many doubles, which hold twice as many ints
  let dcmp : MatDecomp := ⟨lu, .uninitialised Nat (2 * a.rows), 0⟩
  let decomposed ← luDecompMat a dcmp
  if decomposed.1 = 0 then do
    freeMat lu
    return 0
  else do
    let dd ← diagonalProduct lu a.rows decomposed.2.d
    freeMat lu
    return dd

/-- `matdet`. -/
def matdet (a : Mat) : Exec (Heap ℚ) ℚ :=
  if a.rows ≠ a.cols then return 0
  else
    match a.rows with
    | 0 => return 0
    | 1 => load a.vals 0
    | 2 => determinantTwo a
    | 3 => determinantThree a
    | _ => determinantLu a

/-! ## The value -/

variable {n : Nat} {a : Mat} {heap : Heap ℚ} {A W : Matrix (Fin n) (Fin n) ℚ}

/-- `matdet` returns the determinant and changes no allocated block. -/
def Determines (A : Matrix (Fin n) (Fin n) ℚ) (heap : Heap ℚ) (value : ℚ) (after : Heap ℚ) : Prop :=
  value = A.det ∧ Frame (fun _ => False) heap after

/-- The form for two rows. -/
theorem determinantTwo_ensures {A : Matrix (Fin 2) (Fin 2) ℚ} (holds : a.Holds heap A) :
    (determinantTwo a).Ensures heap (Determines A heap) := by
  refine .bind_returns (holds.load_position 0 0) ?_
  refine .bind_returns (holds.load_position 1 1) ?_
  refine .bind_returns (holds.load_position 0 1) ?_
  refine .bind_returns (holds.load_position 1 0) ?_
  exact ensures_pure ⟨(det_fin_two A).symm, .refl _⟩

/-- The form for three rows. -/
theorem determinantThree_ensures {A : Matrix (Fin 3) (Fin 3) ℚ} (holds : a.Holds heap A) :
    (determinantThree a).Ensures heap (Determines A heap) := by
  refine .bind_returns (holds.load_position 0 0) ?_
  refine .bind_returns (holds.load_position 0 1) ?_
  refine .bind_returns (holds.load_position 0 2) ?_
  refine .bind_returns (holds.load_position 1 0) ?_
  refine .bind_returns (holds.load_position 1 1) ?_
  refine .bind_returns (holds.load_position 1 2) ?_
  refine .bind_returns (holds.load_position 2 0) ?_
  refine .bind_returns (holds.load_position 2 1) ?_
  refine .bind_returns (holds.load_position 2 2) ?_
  refine ensures_pure ⟨?_, .refl _⟩
  rw [det_fin_three]
  ring

/-- The sign times the product of the diagonal. -/
theorem diagonalProduct_ensures (holds : a.Holds heap W) (small : n * n < 2 ^ 32) (dd : ℚ) :
    (diagonalProduct a n dd).Ensures heap fun product after =>
      product = dd * ∏ i, W i i ∧ after = heap := by
  let pivot : Nat → ℚ := fun i => if inside : i < n then W ⟨i, inside⟩ ⟨i, inside⟩ else 1
  refine (forUp_ensures (fun i product store =>
    product = dd * ∏ k ∈ Finset.range i, pivot k ∧ store = heap) (Nat.zero_le n)
    ⟨by simp, rfl⟩ ?_).imp ?_
  · rintro i _ _ _ below ⟨rfl, rfl⟩
    lift i to Fin n using below
    refine .bind_returns (holds.load_returns small.le i i) (ensures_pure ⟨?_, rfl⟩)
    have here : pivot i.val = W i i := dif_pos i.isLt
    rw [Finset.prod_range_succ, here, mul_assoc]
  · rintro _ after ⟨rfl, rfl⟩
    have spread := Fin.prod_univ_eq_prod_range pivot n
    have pivots : ∀ i : Fin n, pivot i.val = W i i := fun i => dif_pos i.isLt
    simp only [pivots] at spread
    exact ⟨by rw [spread], rfl⟩

/-- The decomposition of a copy, whose diagonal is multiplied. -/
theorem determinantLu_ensures (holds : a.Holds heap A) (positive : 0 < n)
    (small : n * n < 2 ^ 32) : (determinantLu a).Ensures heap (Determines A heap) := by
  have old : a.vals < heap.limit := Mat.Cells.lt_limit holds (Nat.mul_pos positive positive)
  unfold determinantLu
  rw [holds.rows, holds.cols]
  apply (allocMat_ensures n n heap).bind
  rintro lu allocated ⟨rfl, limit, cells, fresh⟩
  have here : a.Holds allocated A :=
    Mat.Cells.of_block_eq holds (fresh.same _ old (fun touched => touched))
  have room : n ≤ 2 * n := by omega
  apply (luDecompMat_ensures here small
    ⟨room, Or.inr ⟨Ne.symm old.ne, by omega, _, cells⟩⟩).bind
  rintro ⟨flag, dcmp⟩ decomposed ⟨same, writes, outcome⟩
  have unchanged : Frame (fun _ => False) heap decomposed :=
    fresh.trans_of_fresh writes fun address earlier atLu => absurd atLu earlier.ne
  have released : ∀ after : Heap ℚ, Frame (· = heap.limit) decomposed after →
      Frame (fun _ => False) heap after := fun after freed =>
    unchanged.trans_of_fresh freed fun address earlier atLu => absurd atLu earlier.ne
  rcases outcome with ⟨rfl, W, pivots, result⟩ | ⟨rfl, singular⟩
  · rw [if_neg (by simp)]
    have held := result.holds
    rw [show dcmp.m = _ from same] at held
    apply (diagonalProduct_ensures held small dcmp.d).bind
    rintro _ store ⟨rfl, rfl⟩
    apply (freeMat_ensures _ store).bind
    rintro _ after freed
    refine ensures_pure ⟨?_, released after freed⟩
    rw [result.decomposes.det_eq, result.sign]
  · rw [if_pos rfl]
    apply (freeMat_ensures _ decomposed).bind
    rintro _ after freed
    exact ensures_pure ⟨singular.symm, released after freed⟩

/-- Whatever the size, the determinant is found. -/
theorem matdet_ensures (holds : a.Holds heap A) (positive : 0 < n) (small : n * n < 2 ^ 32) :
    (matdet a).Ensures heap (Determines A heap) := by
  have rows := holds.rows
  have square : ¬ a.rows ≠ a.cols := not_not.mpr (holds.rows.trans holds.cols.symm)
  unfold matdet
  rw [if_neg square]
  match n, rows with
  | 1, rows =>
      rw [rows]
      exact .of_returns (holds.load_position 0 0) ⟨(det_fin_one A).symm, .refl _⟩
  | 2, rows =>
      rw [rows]
      exact determinantTwo_ensures holds
  | 3, rows =>
      rw [rows]
      exact determinantThree_ensures holds
  | n + 4, rows =>
      rw [rows]
      exact determinantLu_ensures holds positive small

/-- The determinant and the flag of an inversion. -/
def determinantAndFlag (a ainv : Mat) : Exec (Heap ℚ) (ℚ × Nat) := do
  let value ← matdet a
  let inverted ← matinvSafe a ainv
  return (value, inverted.2)

/-- `matdet` is the determinant of every size, so it is nonzero exactly when
`matinv_safe` sets its flag to 1. -/
theorem matdet_determines (holds : a.Holds heap A) (positive : 1 ≤ n) (small : n * n < 2 ^ 32) :
    (matdet a).Ensures heap (fun value _ =>
      value = ∑ order : Equiv.Perm (Fin n), (Equiv.Perm.sign order : ℤ) * ∏ i, A (order i) i) ∧
    ∀ ainv : Mat, ainv.rows = n → ainv.cols = n → (heap.block ainv.vals).size = n * n →
      a.vals ≠ ainv.vals → (determinantAndFlag a ainv).Ensures heap fun result _ =>
        result.1 = A.det ∧ (result.1 ≠ 0 ↔ result.2 = 1) := by
  have computed := matdet_ensures holds positive small
  constructor
  · apply computed.imp
    rintro _ after ⟨rfl, -⟩
    exact det_apply' A
  · intro ainv rows cols size apart
    obtain ⟨contents, cells⟩ := Mat.exists_cells rows cols size
    have oldA : a.vals < heap.limit := Mat.Cells.lt_limit holds (Nat.mul_pos positive positive)
    have oldAinv : ainv.vals < heap.limit := cells.lt_limit (Nat.mul_pos positive positive)
    apply computed.bind
    rintro _ store ⟨rfl, frame⟩
    have held := Mat.Cells.of_block_eq holds (frame.same _ oldA (fun touched => touched))
    have target := cells.of_block_eq (frame.same _ oldAinv (fun touched => touched))
    apply (matinvSafe_ensures held target apart positive small).bind
    rintro inverted after (⟨rfl, -, B, -, right⟩ | ⟨rfl, singular, -⟩)
    · exact ensures_pure ⟨rfl, fun _ => rfl, fun _ => det_ne_zero_of_right_inverse right⟩
    · exact ensures_pure ⟨rfl, fun regular => absurd singular regular, fun never => by cases never⟩

/-- `[1 2; 3 4]` has an inverse, which fits into the matrix at address 1. -/
theorem matdet_determines_twoByTwo :
    (matdet ⟨2, 2, 0⟩).Ensures twoByTwo (fun value _ =>
      value = ∑ order : Equiv.Perm (Fin 2),
        (Equiv.Perm.sign order : ℤ) * ∏ i, (!![1, 2; 3, 4] : Matrix _ _ ℚ) (order i) i) ∧
    (determinantAndFlag ⟨2, 2, 0⟩ ⟨2, 2, 1⟩).Ensures twoByTwo fun result _ =>
      result.1 = (!![1, 2; 3, 4] : Matrix _ _ ℚ).det ∧ (result.1 ≠ 0 ↔ result.2 = 1) := by
  have holds : Mat.Holds ⟨2, 2, 0⟩ twoByTwo !![1, 2; 3, 4] := by
    refine ⟨rfl, rfl, rfl, ?_⟩
    intro i j
    fin_cases i <;> fin_cases j <;> rfl
  have determines := matdet_determines holds (by decide) (by decide)
  exact ⟨determines.1, determines.2 ⟨2, 2, 1⟩ rfl rfl rfl (by decide)⟩

end MotorStand
