import MotorStand.Numerical.Inverse
import MotorStand.Algebra.LeastSquares

/-!
# The normal equations in the heap

Every filter of `method_of_least_squares.c` allocates a Gram matrix `eq`, a
right-hand side `ac`, an inverse `ei` and a solution `co`, accumulates the data
into the first two, and multiplies `matinv(eq, ei)` by `ac`.
-/

namespace MotorStand

open Imperative Imperative.Exec Imperative.Heap LeastSquares Matrix

/-- The four matrices of a fit. -/
structure NormalSystem where
  eq : Mat
  ac : Mat
  ei : Mat
  co : Mat

/-- Allocate the four matrices for `n` coefficients and clear the accumulators. -/
def allocSystem (n : Nat) : Exec (Heap ℚ) NormalSystem := do
  let eq ← allocMat n n
  let ac ← allocMat n 1
  let ei ← allocMat n n
  let co ← allocMat n 1
  let _ ← matzro eq
  let _ ← matzro ac
  return ⟨eq, ac, ei, co⟩

/-- `matmul(matinv(eq,ei),ac,co)`. -/
def solveSystem (system : NormalSystem) : Exec (Heap ℚ) Unit := do
  let inverse ← matinv system.eq system.ei
  let _ ← matmul inverse system.ac system.co
  return ()

/-- Release the four matrices. -/
def freeSystem (system : NormalSystem) : Exec (Heap ℚ) Unit := do
  freeMat system.eq
  freeMat system.ac
  freeMat system.ei
  freeMat system.co

/-- `m->vals[index] += amount`. -/
def addAt (m : Mat) (index : Nat) (amount : ℚ) : Exec (Heap ℚ) Unit := do
  let val ← load m.vals index
  store m.vals index (val + amount)

/-- `m->vals[index] += amount` for consecutive indices. -/
def addAll (m : Mat) : Nat → List ℚ → Exec (Heap ℚ) Unit
  | _, [] => return ()
  | index, amount :: rest => do
      addAt m index amount
      addAll m (index + 1) rest

/-! ## Accumulation -/

variable {m n : Nat} {a : Mat} {heap after : Heap ℚ}

/-- The amounts are added to the cells from the index on, and to no others. -/
theorem addAll_cells (amounts : List ℚ) {index : Nat} (old : Nat → ℚ)
    (stored : ∀ k, k < amounts.length →
      index + k < (heap.block a.vals).size ∧
        (heap.block a.vals).cell (index + k) = some (old (index + k))) :
    (addAll a index amounts).Ensures heap fun _ after =>
      a.Writes heap after ∧ (after.block a.vals).size = (heap.block a.vals).size ∧
        (∀ k, k < index → (after.block a.vals).cell k = (heap.block a.vals).cell k) ∧
        ∀ k amount, amounts[k]? = some amount →
          (after.block a.vals).cell (index + k) = some (old (index + k) + amount) := by
  induction amounts generalizing index heap with
  | nil => exact ensures_pure ⟨.refl _, rfl, fun _ _ => rfl, by simp⟩
  | cons amount rest ih =>
      have here := stored 0 (by simp)
      simp only [Nat.add_zero] at here
      have added : addAt a index amount heap =
          .ok ((), heap.set a.vals index (old index + amount)) := by
        unfold addAt
        rw [bind_of_returns (Heap.load_returns here.1 here.2)]
        exact Heap.store_returns _ here.1
      refine .bind_returns added ((ih ?_).imp ?_)
      · intro k inside
        have next := stored (k + 1) (by simpa using inside)
        rw [← Nat.add_assoc, Nat.add_right_comm] at next
        refine ⟨by simpa using next.1, ?_⟩
        rw [block_set_self, Block.cell_set, if_neg (by omega)]
        exact next.2
      · rintro _ after ⟨frame, size, kept, grown⟩
        refine ⟨(a.writes_set heap _ _).trans frame, by simpa using size, ?_, ?_⟩
        · intro k before
          rw [kept k (by omega), block_set_self, Block.cell_set, if_neg (by omega)]
        · intro k value found
          cases k with
          | zero =>
              have same : amount = value := by simpa using found
              rw [Nat.add_zero, kept index (by omega), block_set_self, Block.cell_set,
                if_pos rfl, same]
          | succ k =>
              have position : index + (k + 1) = index + 1 + k := by omega
              rw [position]
              exact grown k value (by simpa using found)

/-- `amounts` are the entries of `D` from the flat index `index` on; those before are zero. -/
structure Covers (index : Nat) (amounts : List ℚ) (D : Matrix (Fin m) (Fin n) ℚ) : Prop where
  length : index + amounts.length = m * n
  before : ∀ i j, j.val + i.val * n < index → D i j = 0
  amount : ∀ i j, index ≤ j.val + i.val * n →
    amounts[j.val + i.val * n - index]? = some (D i j)

/-- Adding the entries of a matrix one by one adds the matrix. -/
theorem addAll_ensures {A D : Matrix (Fin m) (Fin n) ℚ} (holds : a.Holds heap A) {index : Nat}
    {amounts : List ℚ} (covers : Covers index amounts D) :
    (addAll a index amounts).Ensures heap fun _ after =>
      a.Holds after (A + D) ∧ a.Writes heap after := by
  have length := covers.length
  have size : (heap.block a.vals).size = m * n := Mat.Cells.size holds
  refine (addAll_cells amounts (fun k => ((heap.block a.vals).cell k).getD 0) ?_).imp ?_
  · intro k inside
    have room : index + k < m * n := by omega
    have positive : 0 < n := Nat.pos_of_ne_zero fun zero => by simp [zero] at room
    have row : (index + k) / n < m := Nat.div_lt_of_lt_mul (by rwa [Nat.mul_comm])
    have cell := Mat.Cells.cell holds ⟨(index + k) / n, row⟩
      ⟨(index + k) % n, Nat.mod_lt _ positive⟩
    have position : (index + k) % n + (index + k) / n * n = index + k := by
      rw [Nat.mul_comm]
      exact Nat.mod_add_div _ _
    simp only [position] at cell
    refine ⟨by omega, ?_⟩
    rw [cell]
    rfl
  · rintro _ after ⟨frame, sizeAfter, kept, grown⟩
    refine ⟨⟨Mat.Cells.rows holds, Mat.Cells.cols holds, sizeAfter.trans size, ?_⟩, frame⟩
    intro i j
    rw [Matrix.map_apply, Matrix.add_apply]
    by_cases early : j.val + i.val * n < index
    · rw [kept _ early, Mat.Cells.cell holds, Matrix.map_apply, covers.before i j early,
        add_zero]
    · have late : index ≤ j.val + i.val * n := not_lt.mp early
      have cell := grown _ _ (covers.amount i j late)
      rw [Nat.add_sub_of_le late] at cell
      rw [cell, Mat.Cells.cell holds, Matrix.map_apply, Option.getD_some]

/-! ## The system during a fit -/

/-- Where the four matrices of a fit started in the heap `start` lie. Everything
allocated before the fit is untouched. -/
structure NormalSystem.Placed (system : NormalSystem) (start heap : Heap ℚ) : Prop where
  eq : system.eq.vals = start.limit
  ac : system.ac.vals = start.limit + 1
  ei : system.ei.vals = start.limit + 2
  co : system.co.vals = start.limit + 3
  limit : start.limit + 4 ≤ heap.limit
  frame : Frame (fun _ => False) start heap

/-- The equations `G * co = c` are in the heap. -/
structure NormalSystem.Holds (system : NormalSystem) (start heap : Heap ℚ)
    (G : Matrix (Fin n) (Fin n) ℚ) (c : Matrix (Fin n) (Fin 1) ℚ) : Prop
    extends system.Placed start heap where
  gram : system.eq.Holds heap G
  moment : system.ac.Holds heap c
  inverse : ∃ contents : Matrix (Fin n) (Fin n) (Option ℚ), system.ei.Cells heap contents
  solution : ∃ contents : Matrix (Fin n) (Fin 1) (Option ℚ), system.co.Cells heap contents

variable {system : NormalSystem} {start : Heap ℚ} {G : Matrix (Fin n) (Fin n) ℚ}
  {c : Matrix (Fin n) (Fin 1) ℚ}

/-- Writing one of the matrices of the fit touches nothing older. -/
theorem NormalSystem.Placed.of_writes (placed : system.Placed start heap)
    (writes : a.Writes heap after) (recent : start.limit ≤ a.vals) :
    system.Placed start after where
  eq := placed.eq
  ac := placed.ac
  ei := placed.ei
  co := placed.co
  limit := placed.limit.trans writes.limit
  frame := placed.frame.trans_of_fresh writes fun _ old touched => by omega

/-- Only the two accumulators differ between two heaps. -/
abbrev NormalSystem.Accumulates (system : NormalSystem) (before after : Heap ℚ) : Prop :=
  Frame (fun address => address = system.eq.vals ∨ address = system.ac.vals) before after

/-- A system whose matrices were added to holds the new sums. -/
theorem NormalSystem.Holds.of_accumulates (held : system.Holds start heap G c)
    (frame : system.Accumulates heap after) {G' : Matrix (Fin n) (Fin n) ℚ}
    {c' : Matrix (Fin n) (Fin 1) ℚ} (gram : system.eq.Holds after G')
    (moment : system.ac.Holds after c') : system.Holds start after G' c' := by
  obtain ⟨inverse, inverseCells⟩ := held.inverse
  obtain ⟨solution, solutionCells⟩ := held.solution
  obtain ⟨eq, ac, ei, co, limit, fresh⟩ := held.toPlaced
  have kept : ∀ address, start.limit + 1 < address → address < start.limit + 4 →
      after.block address = heap.block address := by
    intro address above old
    refine frame.same address (old.trans_le limit) ?_
    rw [eq, ac]
    omega
  have placed : system.Placed start after := by
    refine ⟨eq, ac, ei, co, limit.trans frame.limit, fresh.trans_of_fresh frame ?_⟩
    rw [eq, ac]
    omega
  refine ⟨placed, gram, moment, ⟨inverse, ?_⟩, ⟨solution, ?_⟩⟩
  · exact inverseCells.of_block_eq (kept _ (by omega) (by omega))
  · exact solutionCells.of_block_eq (kept _ (by omega) (by omega))

/-- Both matrices have memory of their own. -/
theorem NormalSystem.Placed.apart (placed : system.Placed start heap) :
    system.eq.vals ≠ system.ac.vals := by
  rw [placed.eq, placed.ac]
  omega

/-- A write to the Gram matrix leaves the rest of the system alone. -/
theorem NormalSystem.Holds.of_writes_eq (held : system.Holds start heap G c)
    (writes : system.eq.Writes heap after) {G' : Matrix (Fin n) (Fin n) ℚ}
    (gram : system.eq.Holds after G') : system.Holds start after G' c := by
  have limit := held.limit
  have old : system.ac.vals < heap.limit := by
    rw [held.ac]
    omega
  exact held.of_accumulates (writes.weaken fun _ => Or.inl) gram
    (held.moment.of_writes writes held.apart.symm old)

/-- A write to the right-hand side leaves the rest of the system alone. -/
theorem NormalSystem.Holds.of_writes_ac (held : system.Holds start heap G c)
    (writes : system.ac.Writes heap after) {c' : Matrix (Fin n) (Fin 1) ℚ}
    (moment : system.ac.Holds after c') : system.Holds start after G c' := by
  have limit := held.limit
  have old : system.eq.vals < heap.limit := by
    rw [held.eq]
    omega
  exact held.of_accumulates (writes.weaken fun _ => Or.inr)
    (held.gram.of_writes writes held.apart old) moment

/-- A fresh system has zero accumulators. -/
theorem allocSystem_ensures (small : n * n < 2 ^ 32) (start : Heap ℚ) :
    (allocSystem n).Ensures start fun system after =>
      system.Holds start after (0 : Matrix (Fin n) (Fin n) ℚ) 0 := by
  have column : n * 1 < 2 ^ 32 := by nlinarith
  apply (allocMat_ensures n n start).bind
  rintro eq first ⟨rfl, firstLimit, eqCells, firstFrame⟩
  apply (allocMat_ensures n 1 first).bind
  rintro ac second ⟨rfl, secondLimit, acCells, secondFrame⟩
  apply (allocMat_ensures n n second).bind
  rintro ei third ⟨rfl, thirdLimit, eiCells, thirdFrame⟩
  apply (allocMat_ensures n 1 third).bind
  rintro co fourth ⟨rfl, fourthLimit, coCells, fourthFrame⟩
  have later := thirdFrame.trans fourthFrame
  have eqHere := eqCells.of_block_eq
    ((secondFrame.trans later).same _ (by simp only; omega) (fun never => never))
  have acHere := acCells.of_block_eq (later.same _ (by simp only; omega) (fun never => never))
  have eiHere := eiCells.of_block_eq
    (fourthFrame.same _ (by simp only; omega) (fun never => never))
  apply (matzro_ensures eqHere small).bind
  rintro _ cleared ⟨_, gram, writesEq⟩
  have acCleared := acHere.of_block_eq
    (writesEq.same _ (by simp only; omega) (by simp only; omega))
  apply (matzro_ensures acCleared column).bind
  rintro _ after ⟨_, moment, writesAc⟩
  have eqLimit := writesEq.limit
  have acLimit := writesAc.limit
  have fresh : Frame (fun _ => False) start after := by
    refine ((firstFrame.trans (secondFrame.trans later)).trans_of_fresh writesEq ?_).trans_of_fresh
      writesAc ?_
    · intro address old touched
      exact absurd touched old.ne
    · intro address old touched
      simp only at touched
      omega
  have untouched : ∀ address, address < fourth.limit → address ≠ start.limit →
      address ≠ first.limit → after.block address = fourth.block address := by
    intro address old apartEq apartAc
    exact (writesAc.same _ (old.trans_le eqLimit) apartAc).trans (writesEq.same _ old apartEq)
  have inverse := eiHere.of_block_eq
    (untouched _ (by simp only; omega) (by simp only; omega) (by simp only; omega))
  have solution := coCells.of_block_eq
    (untouched _ (by simp only; omega) (by simp only; omega) (by simp only; omega))
  refine ensures_pure ⟨⟨rfl, firstLimit, ?_, ?_, ?_, fresh⟩, ?_, moment, ⟨_, inverse⟩,
    ⟨_, solution⟩⟩
  · simp only
    omega
  · simp only
    omega
  · omega
  · exact Mat.Cells.of_block_eq gram (writesAc.same _ (by simp only; omega) (by simp only; omega))

/-- A loop over the samples whose body adds the share of one sample accumulates the
sums over all samples. -/
theorem accumulate_ensures {N : Nat} (share : Fin N → Matrix (Fin n) (Fin n) ℚ)
    (target : Fin N → Matrix (Fin n) (Fin 1) ℚ) {body : Nat → Exec (Heap ℚ) Unit}
    (held : system.Holds start heap G c)
    (step : ∀ (i : Fin N) store G c, system.Holds start store G c →
      (body i.val).Ensures store fun _ after =>
        system.Holds start after (G + share i) (c + target i)) :
    (forUp 0 N () fun i _ => body i).Ensures heap fun _ after =>
      system.Holds start after (G + ∑ i, share i) (c + ∑ i, target i) := by
  let shares : Nat → Matrix (Fin n) (Fin n) ℚ := fun i =>
    if below : i < N then share ⟨i, below⟩ else 0
  let targets : Nat → Matrix (Fin n) (Fin 1) ℚ := fun i =>
    if below : i < N then target ⟨i, below⟩ else 0
  have allShares : ∑ i ∈ Finset.range N, shares i = ∑ i, share i := by
    rw [Finset.sum_range]
    exact Finset.sum_congr rfl fun i _ => dif_pos i.isLt
  have allTargets : ∑ i ∈ Finset.range N, targets i = ∑ i, target i := by
    rw [Finset.sum_range]
    exact Finset.sum_congr rfl fun i _ => dif_pos i.isLt
  rw [← allShares, ← allTargets]
  refine forUp_ensures (fun i _ store => system.Holds start store
    (G + ∑ earlier ∈ Finset.range i, shares earlier)
    (c + ∑ earlier ∈ Finset.range i, targets earlier)) (Nat.zero_le N) (by simpa using held) ?_
  intro i _ store _ below held
  refine (step ⟨i, below⟩ store _ _ held).imp ?_
  intro _ after grown
  have thisShare : shares i = share ⟨i, below⟩ := dif_pos below
  have thisTarget : targets i = target ⟨i, below⟩ := dif_pos below
  rw [Finset.sum_range_succ, Finset.sum_range_succ, thisShare, thisTarget, ← add_assoc,
    ← add_assoc]
  exact grown

/-! ## Solving -/

/-- A solved system: `co` is `G⁻¹ * c`. -/
structure NormalSystem.Solved (system : NormalSystem) (start heap : Heap ℚ)
    (G : Matrix (Fin n) (Fin n) ℚ) (c : Matrix (Fin n) (Fin 1) ℚ) : Prop
    extends system.Placed start heap where
  solved : ∃ B, G * B = 1 ∧ system.co.Holds heap (B * c)

/-- A regular system is solved by the product with the inverse. -/
theorem solveSystem_ensures (held : system.Holds start heap G c) (positive : 0 < n)
    (small : n * n < 2 ^ 32) (regular : G.det ≠ 0) :
    (solveSystem system).Ensures heap fun _ after => system.Solved start after G c := by
  have column : n * 1 < 2 ^ 32 := by nlinarith
  have places := held.toPlaced
  have limit := places.limit
  obtain ⟨inverse, inverseCells⟩ := held.inverse
  obtain ⟨solution, solutionCells⟩ := held.solution
  refine (matinv_ensures held.gram inverseCells (by rw [places.eq, places.ei]; omega) positive
    small regular).bind ?_
  rintro _ inverted ⟨rfl, writesEi, B, eiHolds, right⟩
  have grown := writesEi.limit
  have acSource : system.ac.Source heap c :=
    ⟨held.moment, by rw [places.ac]; omega, column⟩
  have coObject := solutionCells.object (by rw [places.co]; omega) column
  have eiSource : system.ei.Source inverted B := ⟨eiHolds, by rw [places.ei]; omega, small⟩
  refine (matmul_ensures eiSource
    (acSource.of_writes writesEi (by rw [places.ac, places.ei]; omega))
    (coObject.of_writes writesEi (by rw [places.co, places.ei]; omega))
    (by rw [places.ei, places.co]; omega) (by rw [places.ac, places.co]; omega)).bind ?_
  rintro _ after ⟨_, coSource, writesCo⟩
  have placed : system.Placed start inverted :=
    places.of_writes writesEi (by rw [places.ei]; omega)
  exact ensures_pure ⟨placed.of_writes writesCo (by rw [places.co]; omega), B, right,
    coSource.holds⟩

/-- A singular system stops at the assertion of `matinv`. -/
theorem solveSystem_fails (held : system.Holds start heap G c) (positive : 0 < n)
    (small : n * n < 2 ^ 32) (singular : G.det = 0) :
    solveSystem system heap = .error (.assertion singularMessage) := by
  have places := held.toPlaced
  obtain ⟨inverse, inverseCells⟩ := held.inverse
  exact bind_of_fails (matinv_fails held.gram inverseCells
    (by rw [places.eq, places.ei]; omega) positive small singular)

/-- Releasing the system touches only blocks which are newer than `start`. -/
theorem freeSystem_ensures (placed : system.Placed start after) (heap : Heap ℚ) :
    (freeSystem system).Ensures heap fun _ freed =>
      Frame (fun address => start.limit ≤ address) heap freed := by
  obtain ⟨eq, ac, ei, co, _, _⟩ := placed
  apply (freeMat_ensures system.eq heap).bind
  intro _ first writesEq
  apply (freeMat_ensures system.ac first).bind
  intro _ second writesAc
  apply (freeMat_ensures system.ei second).bind
  intro _ third writesEi
  apply (freeMat_ensures system.co third).imp
  intro _ after writesCo
  refine (((writesEq.weaken ?_).trans (writesAc.weaken ?_)).trans (writesEi.weaken ?_)).trans
    (writesCo.weaken ?_) <;> omega

end MotorStand
