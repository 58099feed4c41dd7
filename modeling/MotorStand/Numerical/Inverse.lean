import MotorStand.Numerical.Solve
import Mathlib.LinearAlgebra.Matrix.Determinant.Basic
import Mathlib.Tactic.FieldSimp
import Mathlib.Tactic.FinCases

/-!
# `matinv_safe` and `matinv`

Closed forms up to size three and one solve per column above. Either path finds a
singular matrix exactly, and then `ainv` keeps its contents.
-/

namespace MotorStand

open Imperative Imperative.Exec Imperative.Heap Elimination Matrix

/-- `ainv->vals[index] = numerator / div` for consecutive indices. -/
def storeQuotients (ainv : Mat) (div : ℚ) : Nat → List ℚ → Exec (Heap ℚ) Unit
  | _, [] => return ()
  | index, numerator :: rest => do
      let quotient ← divide numerator div
      store ainv.vals index quotient
      storeQuotients ainv div (index + 1) rest

/-- `case 1` of `matinv_safe`; the result is the returned pointer and `*flag`. -/
def inverseOne (a ainv : Mat) : Exec (Heap ℚ) (Option Mat × Nat) := do
  let val ← load a.vals 0
  if val = 0 then return (none, 0)
  else do
    storeQuotients ainv val 0 [1]
    return (some ainv, 1)

/-- `case 2` of `matinv_safe`. -/
def inverseTwo (a ainv : Mat) : Exec (Heap ℚ) (Option Mat × Nat) := do
  let a0 ← load a.vals 0
  let a1 ← load a.vals 1
  let a2 ← load a.vals 2
  let a3 ← load a.vals 3
  let div := a0 * a3 - a1 * a2
  if div = 0 then return (none, 0)
  else do
    storeQuotients ainv div 0 [a3, -a1, -a2, a0]
    return (some ainv, 1)

/-- `case 3` of `matinv_safe`. -/
def inverseThree (a ainv : Mat) : Exec (Heap ℚ) (Option Mat × Nat) := do
  let aa ← load a.vals 0
  let b ← load a.vals 1
  let c ← load a.vals 2
  let d ← load a.vals 3
  let e ← load a.vals 4
  let f ← load a.vals 5
  let g ← load a.vals 6
  let h ← load a.vals 7
  let i ← load a.vals 8
  let div := aa * e * i + b * f * g + c * d * h - c * e * g - b * d * i - aa * f * h
  if div = 0 then return (none, 0)
  else do
    storeQuotients ainv div 0
      [e * i - f * h, c * h - b * i, b * f - e * c,
       g * f - d * i, aa * i - g * c, d * c - aa * f,
       d * h - g * e, g * b - aa * h, aa * e - b * d]
    return (some ainv, 1)

/-- Solve for column `j` of `ainv` in the scratch vector `xx`. -/
def inverseColumn (dcmp : MatDecomp) (ainv : Mat) (rows xx j : Nat) : Exec (Heap ℚ) Unit := do
  forUp 0 rows () fun i _ => do
    let val ← load ainv.vals (offset32 rows i j)
    store xx i val
  solveMat dcmp xx xx
  forUp 0 rows () fun i _ => do
    let val ← load xx i
    store ainv.vals (offset32 rows i j) val

/-- The `default` case of `matinv_safe`. -/
def inverseLu (a ainv : Mat) : Exec (Heap ℚ) (Option Mat × Nat) := do
  let lu ← allocMat a.rows a.cols
  -- `_lu_decomp_mat` assigns `d` before anything reads it
  let dcmp : MatDecomp := ⟨lu, .uninitialised Nat a.rows, 0⟩
  let decomposed ← luDecompMat a dcmp
  if decomposed.1 = 0 then do
    freeMat lu
    return (none, 0)
  else do
    let _ ← matidn ainv
    let xx ← malloc a.rows
    forUp 0 a.rows () fun j _ => inverseColumn decomposed.2 ainv a.rows xx j
    freeMat lu
    free xx
    return (some ainv, 1)

/-- `matinv_safe`. -/
def matinvSafe (a ainv : Mat) : Exec (Heap ℚ) (Option Mat × Nat) := do
  require (a.rows = ainv.rows ∧ a.cols = ainv.cols) "matrix dimensions must match"
  require (a.vals ≠ ainv.vals)
    "matrix a and ainv cannot be the same, see matinv_inplace instead"
  require (a.rows = a.cols) "matrix must be square"
  match a.rows with
  | 1 => inverseOne a ainv
  | 2 => inverseTwo a ainv
  | 3 => inverseThree a ainv
  | _ => inverseLu a ainv

/-- The message of the assertion in `matinv`. -/
def singularMessage : String := "matrix cannot be singular, see matinv_safe instead"

/-- `matinv`. -/
def matinv (a ainv : Mat) : Exec (Heap ℚ) Mat := do
  let result ← matinvSafe a ainv
  require (result.2 = 1) singularMessage
  return ainv

/-! ## Closed forms -/

variable {n : Nat} {a ainv : Mat} {heap : Heap ℚ}

/-- How an inversion may end: with an inverse in `ainv`, or with `A` singular and
no allocated block changed. -/
def Inverted (A : Matrix (Fin n) (Fin n) ℚ) (ainv : Mat) (heap : Heap ℚ)
    (result : Option Mat × Nat) (after : Heap ℚ) : Prop :=
  (result = (some ainv, 1) ∧ ainv.Writes heap after ∧ ∃ B, ainv.Holds after B ∧ A * B = 1) ∨
    (result = (none, 0) ∧ A.det = 0 ∧ Frame (fun _ => False) heap after)

/-- An entry is loaded by its exact index. -/
theorem Mat.Holds.load_position {A : Matrix (Fin n) (Fin n) ℚ} (holds : a.Holds heap A)
    (i j : Fin n) : load a.vals (j.val + i.val * n) heap = .ok (A i j, heap) :=
  Heap.load_returns (by rw [Mat.Cells.size holds]; exact position_lt i j)
    (Mat.Cells.cell holds i j)

/-- The quotients are stored from the index on, and nowhere else. -/
theorem storeQuotients_ensures {div : ℚ} (nonzero : div ≠ 0) (numerators : List ℚ)
    {index : Nat} (room : index + numerators.length ≤ (heap.block ainv.vals).size) :
    (storeQuotients ainv div index numerators).Ensures heap fun _ after =>
      ainv.Writes heap after ∧ (after.block ainv.vals).size = (heap.block ainv.vals).size ∧
        (∀ k, k < index →
          (after.block ainv.vals).cell k = (heap.block ainv.vals).cell k) ∧
        ∀ k value, numerators[k]? = some value →
          (after.block ainv.vals).cell (index + k) = some (value / div) := by
  induction numerators generalizing index heap with
  | nil => exact ensures_pure ⟨.refl _, rfl, fun _ _ => rfl, by simp⟩
  | cons numerator rest ih =>
      simp only [List.length_cons] at room
      refine .bind_returns (divide_returns _ nonzero) ?_
      refine .bind_returns (Heap.store_returns _ (by omega)) ?_
      apply (ih (by simpa using by omega)).imp
      rintro _ after ⟨frame, size, kept, stored⟩
      refine ⟨(ainv.writes_set heap _ _).trans frame, by simpa using size, ?_, ?_⟩
      · intro k before
        rw [kept k (by omega), block_set_self, Block.cell_set, if_neg (by omega)]
      · intro k value found
        cases k with
        | zero =>
            have same : numerator = value := by simpa using found
            rw [Nat.add_zero, kept index (by omega), block_set_self, Block.cell_set, if_pos rfl,
              same]
        | succ k =>
            rw [← stored k value (by simpa using found)]
            congr 1
            omega

/-- Storing the adjugate over the determinant stores an inverse. -/
theorem storeQuotients_inverts {A : Matrix (Fin n) (Fin n) ℚ}
    {contents : Matrix (Fin n) (Fin n) (Option ℚ)} (cells : ainv.Cells heap contents)
    (regular : A.det ≠ 0) {numerators : List ℚ} (length : numerators.length = n * n)
    (cofactors : ∀ i j : Fin n, numerators[j.val + i.val * n]? = some (A.adjugate i j)) :
    (do storeQuotients ainv A.det 0 numerators
        return (some ainv, 1)).Ensures heap (Inverted A ainv heap) := by
  refine (storeQuotients_ensures regular numerators ?_).bind ?_
  · rw [cells.size, length, Nat.zero_add]
  · rintro _ after ⟨frame, size, _, stored⟩
    refine ensures_pure (Or.inl ⟨rfl, frame, (A.det)⁻¹ • A.adjugate, ?_, ?_⟩)
    · refine ⟨cells.rows, cells.cols, size.trans cells.size, ?_⟩
      intro i j
      have cell := stored _ _ (cofactors i j)
      rw [Nat.zero_add] at cell
      rw [cell, Matrix.map_apply, Matrix.smul_apply, smul_eq_mul, div_eq_inv_mul]
    · rw [Matrix.mul_smul, Matrix.mul_adjugate, smul_smul, inv_mul_cancel₀ regular, one_smul]

/-- The three closed forms end alike: a zero determinant is reported, another one divides
the adjugate. -/
theorem closedForm_ensures {A : Matrix (Fin n) (Fin n) ℚ}
    {contents : Matrix (Fin n) (Fin n) (Option ℚ)} (cells : ainv.Cells heap contents)
    {div : ℚ} (det : div = A.det) {numerators : List ℚ} (length : numerators.length = n * n)
    (cofactors : ∀ i j : Fin n, numerators[j.val + i.val * n]? = some (A.adjugate i j)) :
    (if div = 0 then return (none, 0)
      else do
        storeQuotients ainv div 0 numerators
        return (some ainv, 1) : Exec (Heap ℚ) (Option Mat × Nat)).Ensures heap
      (Inverted A ainv heap) := by
  subst det
  by_cases zero : A.det = 0
  · rw [if_pos zero]
    exact ensures_pure (Or.inr ⟨rfl, zero, .refl _⟩)
  · rw [if_neg zero]
    exact storeQuotients_inverts cells zero length cofactors

/-- The reciprocal of one entry. -/
theorem inverseOne_ensures {A : Matrix (Fin 1) (Fin 1) ℚ} (holds : a.Holds heap A)
    {contents : Matrix (Fin 1) (Fin 1) (Option ℚ)} (cells : ainv.Cells heap contents) :
    (inverseOne a ainv).Ensures heap (Inverted A ainv heap) := by
  have det : A 0 0 = A.det := (det_fin_one A).symm
  refine .bind_returns (holds.load_position 0 0) ?_
  apply closedForm_ensures cells det rfl
  intro i j
  fin_cases i
  fin_cases j
  simp

/-- The closed form for two rows. -/
theorem inverseTwo_ensures {A : Matrix (Fin 2) (Fin 2) ℚ} (holds : a.Holds heap A)
    {contents : Matrix (Fin 2) (Fin 2) (Option ℚ)} (cells : ainv.Cells heap contents) :
    (inverseTwo a ainv).Ensures heap (Inverted A ainv heap) := by
  have det : A 0 0 * A 1 1 - A 0 1 * A 1 0 = A.det := (det_fin_two A).symm
  refine .bind_returns (holds.load_position 0 0) ?_
  refine .bind_returns (holds.load_position 0 1) ?_
  refine .bind_returns (holds.load_position 1 0) ?_
  refine .bind_returns (holds.load_position 1 1) ?_
  apply closedForm_ensures cells det rfl
  intro i j
  rw [adjugate_fin_two]
  fin_cases i <;> fin_cases j <;> rfl

/-- The closed form for three rows. -/
theorem inverseThree_ensures {A : Matrix (Fin 3) (Fin 3) ℚ} (holds : a.Holds heap A)
    {contents : Matrix (Fin 3) (Fin 3) (Option ℚ)} (cells : ainv.Cells heap contents) :
    (inverseThree a ainv).Ensures heap (Inverted A ainv heap) := by
  have det : A 0 0 * A 1 1 * A 2 2 + A 0 1 * A 1 2 * A 2 0 + A 0 2 * A 1 0 * A 2 1 -
      A 0 2 * A 1 1 * A 2 0 - A 0 1 * A 1 0 * A 2 2 - A 0 0 * A 1 2 * A 2 1 = A.det := by
    rw [det_fin_three]
    ring
  refine .bind_returns (holds.load_position 0 0) ?_
  refine .bind_returns (holds.load_position 0 1) ?_
  refine .bind_returns (holds.load_position 0 2) ?_
  refine .bind_returns (holds.load_position 1 0) ?_
  refine .bind_returns (holds.load_position 1 1) ?_
  refine .bind_returns (holds.load_position 1 2) ?_
  refine .bind_returns (holds.load_position 2 0) ?_
  refine .bind_returns (holds.load_position 2 1) ?_
  refine .bind_returns (holds.load_position 2 2) ?_
  apply closedForm_ensures cells det rfl
  intro i j
  rw [adjugate_fin_three]
  fin_cases i <;> fin_cases j <;> simp <;> ring

/-! ## Inversion by columns -/

variable {A B W : Matrix (Fin n) (Fin n) ℚ} {pivots : Fin n → Fin n} {lu : MatDecomp} {xx : Nat}

/-- Column `j` of `ainv` is copied into the scratch vector. -/
theorem loadColumn_ensures (holds : ainv.Holds heap B) (small : n * n < 2 ^ 32) (j : Fin n)
    (apart : ainv.vals ≠ xx) (old : ainv.vals < heap.limit) (room : n ≤ (heap.block xx).size) :
    (forUp 0 n () fun i _ => do
      let val ← load ainv.vals (offset32 n i j.val)
      store xx i val).Ensures heap fun _ after =>
        HoldsVector after xx (fun i => B i j) ∧ Frame (· = xx) heap after := by
  refine (forUp_ensures (fun i _ store => n ≤ (store.block xx).size ∧
    (∀ r : Fin n, r.val < i → (store.block xx).cell r.val = some (B r j)) ∧
    Frame (· = xx) heap store) (Nat.zero_le n) ⟨room, by simp, .refl _⟩ ?_).imp ?_
  · rintro i _ store _ below ⟨size, copied, frame⟩
    lift i to Fin n using below
    have here : ainv.Holds store B := Mat.Cells.of_block_eq holds (frame.same _ old apart)
    refine .bind_returns (here.load_returns small.le i j) ?_
    refine .of_returns (Heap.store_returns _ (i.isLt.trans_le size))
      ⟨by simpa using size, ?_, frame.trans (writes_vector store _ _ _)⟩
    intro r before
    rw [block_set_self, Block.cell_set]
    by_cases atI : r = i
    · subst atI
      simp
    · have different : r.val ≠ i.val := fun equal => atI (Fin.ext equal)
      rw [if_neg different]
      exact copied r (by omega)
  · rintro _ after ⟨size, copied, frame⟩
    exact ⟨⟨size, fun r => copied r r.isLt⟩, frame⟩

/-- The scratch vector is copied back into column `j` of `ainv`. -/
theorem storeColumn_ensures (holds : ainv.Holds heap B) (small : n * n < 2 ^ 32) (j : Fin n)
    {z : Fin n → ℚ} (apart : ainv.vals ≠ xx) (vector : HoldsVector heap xx z)
    (old : xx < heap.limit) :
    (forUp 0 n () fun i _ => do
      let val ← load xx i
      store ainv.vals (offset32 n i j.val) val).Ensures heap fun _ after =>
        ainv.Holds after (B.updateCol j z) ∧ ainv.Writes heap after := by
  refine (forUp_ensures (fun i _ store =>
    ainv.Holds store (Matrix.of fun r c => if c = j ∧ r.val < i then z r else B r c) ∧
    ainv.Writes heap store) (Nat.zero_le n) ⟨?_, .refl _⟩ ?_).imp ?_
  · have start : (Matrix.of fun r c => if c = j ∧ r.val < 0 then z r else B r c) = B := by
      ext r c
      simp
    rwa [start]
  · rintro i _ store _ below ⟨held, frame⟩
    lift i to Fin n using below
    have kept := frame.same xx old apart.symm
    have here : HoldsVector store xx z := by
      refine ⟨by rw [kept]; exact vector.1, fun r => ?_⟩
      rw [kept]
      exact vector.2 r
    refine .bind_returns (here.load_returns i) ?_
    refine .of_returns (Mat.Cells.store_returns held small.le i j _)
      ⟨?_, frame.trans (ainv.writes_set store _ _)⟩
    have stored := Mat.Cells.set held i j (z i)
    refine Eq.mp (congrArg (ainv.Cells _) ?_) stored
    ext r c
    rw [setEntry_apply]
    simp only [Matrix.map_apply, Matrix.of_apply]
    by_cases column : c = j
    · by_cases atI : r = i
      · simp [column, atI]
      · have different : r.val ≠ i.val := fun equal => atI (Fin.ext equal)
        have step : r.val < i.val + 1 ↔ r.val < i.val := by omega
        simp only [column, atI, false_and, if_false, step]
    · simp [column]
  · rintro _ after ⟨held, frame⟩
    have finish : (Matrix.of fun r c => if c = j ∧ r.val < n then z r else B r c) =
        B.updateCol j z := by
      ext r c
      simp [Matrix.updateCol_apply]
    exact ⟨finish ▸ held, frame⟩

/-- The columns of `ainv` left of `j` solve for their unit vectors; the others are
still those of the identity. -/
structure ColumnsSolved (A B : Matrix (Fin n) (Fin n) ℚ) (j : Nat) : Prop where
  solved : ∀ c : Fin n, c.val < j → A *ᵥ (fun r => B r c) = fun r => (1 : Matrix _ _ ℚ) r c
  pending : ∀ c : Fin n, j ≤ c.val → ∀ r, B r c = (1 : Matrix _ _ ℚ) r c

/-- Only the blocks of `ainv` and of the scratch vector differ. -/
abbrev ColumnFrame (ainv : Mat) (xx : Nat) (before after : Heap ℚ) : Prop :=
  Frame (fun address => address = ainv.vals ∨ address = xx) before after

/-- One column is solved for and stored. -/
theorem inverseColumn_ensures (result : LuResult A lu heap W pivots) (small : n * n < 2 ^ 32)
    (holds : ainv.Holds heap B) {j : Fin n} (columns : ColumnsSolved A B j.val)
    (apart : ainv.vals ≠ xx) (apartLu : lu.m.vals ≠ xx) (old : ainv.vals < heap.limit)
    (oldLu : lu.m.vals < heap.limit) (oldXx : xx < heap.limit)
    (room : n ≤ (heap.block xx).size) :
    (inverseColumn lu ainv n xx j.val).Ensures heap fun _ after =>
      ∃ B, ainv.Holds after B ∧ ColumnsSolved A B (j.val + 1) ∧
        n ≤ (after.block xx).size ∧ ColumnFrame ainv xx heap after := by
  apply (loadColumn_ensures holds small j apart old room).bind
  rintro _ loaded ⟨vector, frame⟩
  have limit := frame.limit
  have kept : LuResult A lu loaded W pivots :=
    { result with holds := Mat.Cells.of_block_eq result.holds (frame.same _ oldLu apartLu) }
  refine (solveMat_ensures kept small apartLu (oldLu.trans_le limit) (oldXx.trans_le limit)
    vector vector).bind ?_
  rintro _ solved ⟨z, vector, solves, writes⟩
  have twice := frame.trans writes
  have here : ainv.Holds solved B := Mat.Cells.of_block_eq holds (twice.same _ old apart)
  apply (storeColumn_ensures here small j apart vector (oldXx.trans_le twice.limit)).imp
  rintro _ after ⟨held, last⟩
  refine ⟨_, held, ⟨?_, ?_⟩, ?_, ?_⟩
  · intro c before
    by_cases atJ : c = j
    · subst atJ
      have unit : (fun r => B r c) = fun r => (1 : Matrix _ _ ℚ) r c :=
        funext (columns.pending c (le_refl _))
      simpa [unit] using solves
    · have different : c.val ≠ j.val := fun equal => atJ (Fin.ext equal)
      simpa [Matrix.updateCol_ne atJ] using columns.solved c (by omega)
  · intro c later r
    have different : c ≠ j := by
      rintro rfl
      omega
    rw [Matrix.updateCol_ne different]
    exact columns.pending c (by omega) r
  · rw [last.same xx (oldXx.trans_le twice.limit) apart.symm]
    exact vector.1
  · exact (twice.weaken fun _ => Or.inr).trans (last.weaken fun _ => Or.inl)

/-- All columns solved is a right inverse. -/
theorem ColumnsSolved.mul_eq_one (columns : ColumnsSolved A B n) : A * B = 1 := by
  ext r c
  exact congrFun (columns.solved c c.isLt) r

/-- The loop over the columns turns the identity in `ainv` into an inverse. -/
theorem inverseColumns_ensures (result : LuResult A lu heap W pivots) (small : n * n < 2 ^ 32)
    (holds : ainv.Holds heap (1 : Matrix (Fin n) (Fin n) ℚ)) (apart : ainv.vals ≠ xx)
    (apartLu : lu.m.vals ≠ xx) (distinct : lu.m.vals ≠ ainv.vals) (old : ainv.vals < heap.limit)
    (oldLu : lu.m.vals < heap.limit) (oldXx : xx < heap.limit)
    (room : n ≤ (heap.block xx).size) :
    (forUp 0 n () fun j _ => inverseColumn lu ainv n xx j).Ensures heap fun _ after =>
      (∃ B, ainv.Holds after B ∧ A * B = 1) ∧ ColumnFrame ainv xx heap after := by
  refine (forUp_ensures (fun j _ store => ∃ B, ainv.Holds store B ∧ ColumnsSolved A B j ∧
    n ≤ (store.block xx).size ∧ ColumnFrame ainv xx heap store) (Nat.zero_le n)
    ⟨1, holds, ⟨by simp, fun _ _ _ => rfl⟩, room, .refl _⟩ ?_).imp ?_
  · rintro j _ store _ below ⟨B, held, columns, size, frame⟩
    lift j to Fin n using below
    have untouched : ¬ (lu.m.vals = ainv.vals ∨ lu.m.vals = xx) := by
      rintro (same | same)
      · exact distinct same
      · exact apartLu same
    have kept : LuResult A lu store W pivots :=
      { result with holds := Mat.Cells.of_block_eq result.holds (frame.same _ oldLu untouched) }
    have limit := frame.limit
    refine (inverseColumn_ensures kept small held columns apart apartLu (old.trans_le limit)
      (oldLu.trans_le limit) (oldXx.trans_le limit) size).imp ?_
    rintro _ after ⟨B, held, columns, size, writes⟩
    exact ⟨B, held, columns, size, frame.trans writes⟩
  · rintro _ after ⟨B, held, columns, _, frame⟩
    exact ⟨⟨B, held, columns.mul_eq_one⟩, frame⟩

/-- Column by column, the inverse is stored. -/
theorem inverseLu_ensures {contents : Matrix (Fin n) (Fin n) (Option ℚ)}
    (holds : a.Holds heap A) (cells : ainv.Cells heap contents) (positive : 0 < n)
    (small : n * n < 2 ^ 32) : (inverseLu a ainv).Ensures heap (Inverted A ainv heap) := by
  have oldA : a.vals < heap.limit := Mat.Cells.lt_limit holds (Nat.mul_pos positive positive)
  have oldAinv : ainv.vals < heap.limit := cells.lt_limit (Nat.mul_pos positive positive)
  unfold inverseLu
  rw [holds.rows, holds.cols]
  apply (allocMat_ensures n n heap).bind
  rintro lu allocated ⟨rfl, limit, luCells, fresh⟩
  have here : a.Holds allocated A :=
    Mat.Cells.of_block_eq holds (fresh.same _ oldA (fun touched => touched))
  refine (luDecompMat_ensures here small ⟨le_refl n, Or.inr ⟨Ne.symm oldA.ne, by omega, _, luCells⟩⟩).bind
    ?_
  rintro ⟨flag, dcmp⟩ decomposed ⟨same, writes, outcome⟩
  have unchanged : Frame (fun _ => False) heap decomposed :=
    fresh.trans_of_fresh writes fun address old atLu => absurd atLu old.ne
  rcases outcome with ⟨rfl, W, pivots, result⟩ | ⟨rfl, singular⟩
  · rw [if_neg (by simp)]
    have ainvHere : ainv.Cells decomposed contents :=
      cells.of_block_eq (unchanged.same _ oldAinv (fun touched => touched))
    apply (matidn_ensures ainvHere small).bind
    rintro _ identity ⟨-, unit, writesUnit⟩
    apply (malloc_ensures n identity).bind
    rintro xx ready ⟨rfl, limitXx, block, freshXx⟩
    have atLu : dcmp.m.vals = heap.limit := congrArg Mat.vals same
    have limits := unchanged.limit
    have limitsUnit := writesUnit.limit
    have limitLu : heap.limit < decomposed.limit := by
      have grown := writes.limit
      omega
    have distinct : dcmp.m.vals ≠ ainv.vals := by omega
    have keptLu := (freshXx.same dcmp.m.vals (by omega) (fun touched => touched)).trans
      (writesUnit.same dcmp.m.vals (by omega) distinct)
    have kept : LuResult A dcmp ready W pivots :=
      { result with holds := Mat.Cells.of_block_eq result.holds keptLu }
    have unitHere : ainv.Holds ready (1 : Matrix (Fin n) (Fin n) ℚ) :=
      Mat.Cells.of_block_eq unit (freshXx.same _ (by omega) (fun touched => touched))
    refine (inverseColumns_ensures kept small unitHere (by omega) (by omega) distinct (by omega)
      (by omega) (by omega) (by rw [block, Block.size_uninitialised])).bind ?_
    rintro _ inverted ⟨⟨B, held, right⟩, columns⟩
    apply (freeMat_ensures _ inverted).bind
    rintro _ freed writesLu
    apply (free_ensures _ freed).bind
    rintro _ after writesXx
    have grown := columns.limit
    have keptAinv : after.block ainv.vals = inverted.block ainv.vals :=
      (writesXx.same _ (by have := writesLu.limit; omega) (by omega)).trans
        (writesLu.same _ (by omega) (by simp only; omega))
    refine ensures_pure (Or.inl ⟨rfl, ?_, B, Mat.Cells.of_block_eq held keptAinv, right⟩)
    have first : ainv.Writes heap identity :=
      (unchanged.weaken fun _ never => never.elim).trans writesUnit
    have second : ainv.Writes heap ready := first.trans (freshXx.weaken fun _ never => never.elim)
    have third : ainv.Writes heap inverted := second.trans_of_fresh columns (by
      rintro address old (atAinv | atXx)
      · exact atAinv
      · omega)
    have fourth : ainv.Writes heap freed := third.trans_of_fresh writesLu (by
      intro address old touched
      exact absurd touched old.ne)
    exact fourth.trans_of_fresh writesXx (by
      intro address old touched
      omega)
  · rw [if_pos rfl]
    apply (freeMat_ensures _ decomposed).bind
    rintro _ after freed
    refine ensures_pure (Or.inr ⟨rfl, singular, ?_⟩)
    exact unchanged.trans_of_fresh freed fun address old atLu => absurd atLu old.ne

/-- `matinv_safe` leaves an inverse in `ainv` or reports that there is none. -/
theorem matinvSafe_ensures {contents : Matrix (Fin n) (Fin n) (Option ℚ)}
    (holds : a.Holds heap A) (cells : ainv.Cells heap contents) (apart : a.vals ≠ ainv.vals)
    (positive : 0 < n) (small : n * n < 2 ^ 32) :
    (matinvSafe a ainv).Ensures heap (Inverted A ainv heap) := by
  unfold matinvSafe
  refine .bind_returns (require_returns _
    ⟨holds.rows.trans cells.rows.symm, holds.cols.trans cells.cols.symm⟩) ?_
  refine .bind_returns (require_returns _ apart) ?_
  refine .bind_returns (require_returns _ (holds.rows.trans holds.cols.symm)) ?_
  have rows := holds.rows
  match n, rows with
  | 1, rows =>
      rw [rows]
      exact inverseOne_ensures holds cells
  | 2, rows =>
      rw [rows]
      exact inverseTwo_ensures holds cells
  | 3, rows =>
      rw [rows]
      exact inverseThree_ensures holds cells
  | n + 4, rows =>
      rw [rows]
      exact inverseLu_ensures holds cells positive small

/-- The contract of `matinv_safe`. -/
structure SafeInverse (A : Matrix (Fin n) (Fin n) ℚ) (a ainv : Mat) (heap : Heap ℚ)
    (result : Option Mat × Nat) (after : Heap ℚ) : Prop where
  unchanged : after.block a.vals = heap.block a.vals
  invertible : A.det ≠ 0 →
    result = (some ainv, 1) ∧ ∃ B, ainv.Holds after B ∧ A * B = 1 ∧ B * A = 1
  singular : A.det = 0 →
    result = (none, 0) ∧ after.block ainv.vals = heap.block ainv.vals

/-- `matinv_safe` inverts exactly the invertible matrices, of every size. -/
theorem matinvSafe_inverts_or_rejects (holds : a.Holds heap A) (rows : ainv.rows = n)
    (cols : ainv.cols = n) (size : (heap.block ainv.vals).size = n * n)
    (apart : a.vals ≠ ainv.vals) (positive : 1 ≤ n) (small : n * n < 2 ^ 32) :
    (matinvSafe a ainv).Ensures heap (SafeInverse A a ainv heap) := by
  obtain ⟨contents, cells⟩ := Mat.exists_cells rows cols size
  have oldA : a.vals < heap.limit := Mat.Cells.lt_limit holds (Nat.mul_pos positive positive)
  have oldAinv : ainv.vals < heap.limit := cells.lt_limit (Nat.mul_pos positive positive)
  apply (matinvSafe_ensures holds cells apart positive small).imp
  rintro result after (⟨rfl, frame, B, held, right⟩ | ⟨rfl, zero, frame⟩)
  · have regular : A.det ≠ 0 := det_ne_zero_of_right_inverse right
    refine ⟨frame.same _ oldA apart, fun _ => ⟨rfl, B, held, right, ?_⟩,
      fun zero => absurd zero regular⟩
    exact mul_eq_one_comm.mp right
  · exact ⟨frame.same _ oldA (fun touched => touched), fun regular => absurd zero regular,
      fun _ => ⟨rfl, frame.same _ oldAinv (fun touched => touched)⟩⟩

/-- The matrix `[1 2; 3 4]` at address 0 and an uninitialised one at address 1. -/
def twoByTwo : Heap ℚ :=
  ((Heap.empty ℚ).extend ⟨4, fun k => [(1 : ℚ), 2, 3, 4][k]?⟩).extend (.uninitialised ℚ 4)

/-- A regular matrix of two rows. -/
theorem matinvSafe_inverts_twoByTwo :
    (matinvSafe ⟨2, 2, 0⟩ ⟨2, 2, 1⟩).Ensures twoByTwo
      (SafeInverse !![1, 2; 3, 4] ⟨2, 2, 0⟩ ⟨2, 2, 1⟩ twoByTwo) := by
  refine matinvSafe_inverts_or_rejects ⟨rfl, rfl, rfl, ?_⟩ rfl rfl rfl (by decide) (by decide)
    (by decide)
  intro i j
  fin_cases i <;> fin_cases j <;> rfl

/-- A regular matrix passes the assertion. -/
theorem matinv_ensures {contents : Matrix (Fin n) (Fin n) (Option ℚ)}
    (holds : a.Holds heap A) (cells : ainv.Cells heap contents) (apart : a.vals ≠ ainv.vals)
    (positive : 0 < n) (small : n * n < 2 ^ 32) (regular : A.det ≠ 0) :
    (matinv a ainv).Ensures heap fun result after =>
      result = ainv ∧ ainv.Writes heap after ∧ ∃ B, ainv.Holds after B ∧ A * B = 1 := by
  apply (matinvSafe_ensures holds cells apart positive small).bind
  rintro result after (⟨rfl, frame, inverse⟩ | ⟨rfl, zero, _⟩)
  · exact .bind_returns (require_returns _ rfl) (ensures_pure ⟨rfl, frame, inverse⟩)
  · exact absurd zero regular

/-- On a singular matrix `matinv` stops at its assertion. -/
theorem matinv_fails {contents : Matrix (Fin n) (Fin n) (Option ℚ)}
    (holds : a.Holds heap A) (cells : ainv.Cells heap contents) (apart : a.vals ≠ ainv.vals)
    (positive : 0 < n) (small : n * n < 2 ^ 32) (singular : A.det = 0) :
    matinv a ainv heap = .error (.assertion singularMessage) := by
  refine (matinvSafe_ensures holds cells apart positive small).bind_fails ?_
  rintro result after (⟨rfl, _, B, _, right⟩ | ⟨rfl, _, _⟩)
  · exact absurd singular (det_ne_zero_of_right_inverse right)
  · exact bind_of_fails (require_fails (by simp))

end MotorStand
