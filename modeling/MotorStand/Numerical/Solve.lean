import MotorStand.Numerical.LuDecomp

/-!
# `_solve_mat`

Forward and back substitution in `x`, with the recorded swaps applied one at a
time and a start index `ii` that skips the leading zeros of the permuted right-hand
side. `x` and `b` may be the same array.
-/

namespace MotorStand

open Imperative Imperative.Exec Imperative.Heap Elimination Matrix

/-- Copy `b` into `x`. -/
def copyVector (rows x b : Nat) : Exec (Heap ℚ) Unit :=
  forUp 0 rows () fun i _ => do
    let val ← load b i
    store x i val

/-- The sum of row `i` of the forward substitution, and the new `ii`. -/
def forwardSum (m : Mat) (rows x i : Nat) (sum : ℚ) (ii : Nat) : Exec (Heap ℚ) (ℚ × Nat) :=
  if ii ≠ 0 then do
    let sum ← forUp (ii - 1) i sum fun j sum => do
      let val ← load m.vals (offset32 rows i j)
      let xj ← load x j
      return sum - val * xj
    return (sum, ii)
  else if sum ≠ 0 then return (sum, i + 1)
  else return (sum, ii)

/-- One iteration of the forward substitution. -/
def forwardStep (lu : MatDecomp) (rows x i ii : Nat) : Exec (Heap ℚ) Nat := do
  let ip ← lu.indx.read i
  let sum ← load x ip
  let val ← load x i
  store x ip val
  let next ← forwardSum lu.m rows x i sum ii
  store x i next.1
  return next.2

/-- One iteration of the back substitution. -/
def backStep (m : Mat) (rows x i : Nat) : Exec (Heap ℚ) Unit := do
  let sum ← load x i
  let sum ← forUp (i + 1) rows sum fun j sum => do
    let val ← load m.vals (offset32 rows i j)
    let xj ← load x j
    return sum - val * xj
  let pivot ← load m.vals (offset32 rows i i)
  let quotient ← divide sum pivot
  store x i quotient

/-- `_solve_mat`. -/
def solveMat (lu : MatDecomp) (x b : Nat) : Exec (Heap ℚ) Unit := do
  copyVector lu.m.rows x b
  let _ ← forUp 0 lu.m.rows 0 fun i ii => forwardStep lu lu.m.rows x i ii
  forDown lu.m.rows () fun i _ => backStep lu.m lu.m.rows x i

/-! ## Vectors in the heap -/

variable {n : Nat}

/-- The first `n` cells of the array at `x`. -/
def VectorCells (heap : Heap ℚ) (x : Nat) (contents : Fin n → Option ℚ) : Prop :=
  n ≤ (heap.block x).size ∧ ∀ i, (heap.block x).cell i.val = contents i

/-- The array at `x` holds the vector `v`. -/
def HoldsVector (heap : Heap ℚ) (x : Nat) (v : Fin n → ℚ) : Prop :=
  VectorCells heap x fun i => some (v i)

variable {heap : Heap ℚ} {x b : Nat} {contents : Fin n → Option ℚ} {v : Fin n → ℚ}

/-- A store sets one component. -/
theorem VectorCells.set (cells : VectorCells heap x contents) (i : Fin n) (value : ℚ) :
    VectorCells (heap.set x i.val value) x (Function.update contents i (some value)) := by
  refine ⟨by simpa using cells.1, ?_⟩
  intro r
  rw [block_set_self, Block.cell_set, cells.2]
  by_cases here : r = i
  · subst here
    simp
  · rw [if_neg (fun equal => here (Fin.ext equal)), Function.update_of_ne here]

/-- Every component can be stored. -/
theorem VectorCells.store_returns (cells : VectorCells heap x contents) (i : Fin n) (value : ℚ) :
    store x i.val value heap = .ok ((), heap.set x i.val value) :=
  Heap.store_returns value (i.isLt.trans_le cells.1)

/-- Every component is loaded. -/
theorem HoldsVector.load_returns (holds : HoldsVector heap x v) (i : Fin n) :
    load x i.val heap = .ok (v i, heap) :=
  Heap.load_returns (i.isLt.trans_le holds.1) (holds.2 i)

/-- A store into a held vector. -/
theorem HoldsVector.set (holds : HoldsVector heap x v) (i : Fin n) (value : ℚ) :
    HoldsVector (heap.set x i.val value) x (Function.update v i value) := by
  have stored := VectorCells.set holds i value
  refine ⟨stored.1, fun r => (stored.2 r).trans ?_⟩
  by_cases here : r = i
  · subst here
    simp
  · simp [Function.update_of_ne here]

/-- A store touches the vector alone. -/
theorem writes_vector (heap : Heap ℚ) (x index : Nat) (value : ℚ) :
    Frame (· = x) heap (heap.set x index value) :=
  Frame.set (by rfl) index value

/-- The copy leaves `b`'s contents in `x`, also when the two are one array. -/
theorem copyVector_ensures (source : HoldsVector heap b v) (cells : VectorCells heap x contents)
    (old : b < heap.limit) :
    (copyVector n x b).Ensures heap fun _ after =>
      HoldsVector after x v ∧ Frame (· = x) heap after := by
  have same : x = b → ∀ i, contents i = some (v i) := by
    rintro rfl i
    rw [← cells.2, source.2]
  refine (forUp_ensures (fun i _ store =>
    VectorCells store x (fun r => if r.val < i then some (v r) else contents r) ∧
      Frame (· = x) heap store) (Nat.zero_le n) ⟨by simpa using cells, .refl _⟩ ?_).imp ?_
  · rintro i _ store _ below ⟨held, frame⟩
    lift i to Fin n using below
    have here : load b i.val store = .ok (v i, store) := by
      by_cases shared : x = b
      · subst shared
        refine Heap.load_returns (i.isLt.trans_le held.1) ((held.2 i).trans ?_)
        simpa using same rfl i
      · have kept := frame.same b old (Ne.symm shared)
        refine Heap.load_returns ?_ ?_
        · rw [kept]
          exact i.isLt.trans_le source.1
        · rw [kept]
          exact source.2 i
    refine .bind_returns here ?_
    refine .of_returns (held.store_returns i (v i)) ⟨?_, frame.trans (writes_vector store _ _ _)⟩
    have stored := held.set i (v i)
    refine ⟨stored.1, fun r => (stored.2 r).trans ?_⟩
    by_cases atI : r = i
    · subst atI
      simp
    · have apart : r.val ≠ i.val := fun equal => atI (Fin.ext equal)
      have step : r.val < i.val + 1 ↔ r.val < i.val := by omega
      rw [Function.update_of_ne atI]
      simp only [step]
  · rintro _ after ⟨held, frame⟩
    exact ⟨by simpa [HoldsVector] using held, frame⟩

/-! ## Forward substitution -/

variable {lu : MatDecomp} {A W : Matrix (Fin n) (Fin n) ℚ} {pivots : Fin n → Fin n}

/-- The part of row `i` to the left of column `i`. -/
def leftSum (W : Matrix (Fin n) (Fin n) ℚ) (y : Fin n → ℚ) (i : Fin n) : ℚ :=
  ∑ t, if t < i then W i t * y t else 0

/-- `leftSum` depends on the entries before `i` only. -/
theorem leftSum_congr {y z : Fin n → ℚ} {i : Fin n} (agree : ∀ t, t < i → y t = z t) :
    leftSum W y i = leftSum W z i := by
  refine Finset.sum_congr rfl fun t _ => ?_
  by_cases before : t < i
  · rw [if_pos before, if_pos before, agree t before]
  · rw [if_neg before, if_neg before]

/-- The vector in `x` before step `i`: solved above `i`, permuted from `i` on, and
zero before the start index `ii`. -/
structure ForwardState (W : Matrix (Fin n) (Fin n) ℚ) (pivots : Fin n → Fin n) (v y : Fin n → ℚ)
    (i ii : Nat) : Prop where
  solved : ∀ t : Fin n, t.val < i → y t + leftSum W y t = v (rowOrder pivots i t)
  pending : ∀ t : Fin n, i ≤ t.val → y t = v (rowOrder pivots i t)
  bounded : ii ≤ i
  skipped : ∀ t : Fin n, t.val < i → ii = 0 ∨ t.val + 1 < ii → y t = 0

/-- Skipping the leading zeros does not change the sum. -/
theorem forwardSum_ensures (holds : lu.m.Holds heap W) (small : n * n < 2 ^ 32) {y : Fin n → ℚ}
    (vector : HoldsVector heap x y) {i : Fin n} {ii : Nat} {sum : ℚ} (bounded : ii ≤ i.val)
    (skipped : ∀ t : Fin n, t < i → ii = 0 ∨ t.val + 1 < ii → y t = 0) :
    (forwardSum lu.m n x i.val sum ii).Ensures heap fun next after =>
      next.1 = sum - leftSum W y i ∧ after = heap ∧ next.2 ≤ i.val + 1 ∧
        (next.2 = 0 → ii = 0 ∧ sum = 0) ∧ ∀ t : Fin n, t < i → t.val + 1 < next.2 → y t = 0 := by
  unfold forwardSum
  by_cases started : ii = 0
  · have zero : leftSum W y i = 0 := by
      refine Finset.sum_eq_zero fun t _ => ?_
      split
      · rw [skipped t ‹_› (Or.inl started), mul_zero]
      · rfl
    rw [if_neg (by simpa using started), zero, sub_zero]
    by_cases vanishes : sum = 0
    · rw [if_neg (by simpa using vanishes)]
      refine ensures_pure ⟨rfl, rfl, by omega, fun _ => ⟨started, vanishes⟩, ?_⟩
      intro t before _
      exact skipped t before (Or.inl started)
    · rw [if_pos vanishes]
      refine ensures_pure ⟨rfl, rfl, le_refl _, by simp, ?_⟩
      intro t before _
      exact skipped t before (Or.inl started)
  · rw [if_pos started]
    have lower : ii - 1 ≤ i.val := by omega
    refine (forUp_window_ensures (fun j => -(W i j * y j)) lower i.isLt.le ?_).bind ?_
    · intro j total _ _
      refine .bind_returns (holds.load_returns small.le i j) ?_
      refine .bind_returns (vector.load_returns j) ?_
      exact ensures_pure ⟨by ring, rfl⟩
    · rintro total _ ⟨rfl, rfl⟩
      refine ensures_pure ⟨?_, rfl, by omega, by omega, ?_⟩
      · change sum + _ = sum - leftSum W y i
        rw [sub_eq_add_neg, leftSum, ← Finset.sum_neg_distrib]
        congr 1
        refine Finset.sum_congr rfl fun t _ => ?_
        by_cases before : t < i
        · by_cases late : ii - 1 ≤ t.val
          · rw [if_pos ⟨late, before⟩, if_pos before]
          · rw [if_neg (fun both => late both.1), if_pos before,
              skipped t before (Or.inr (by omega)), mul_zero, neg_zero]
        · rw [if_neg (fun both => before both.2), if_neg before, neg_zero]
      · intro t before early
        exact skipped t before (Or.inr early)

/-- One step of the forward substitution. -/
theorem ForwardState.next {y z : Fin n → ℚ} {i : Fin n} {ii next : Nat}
    (state : ForwardState W pivots v y i.val ii) (active : i ≤ pivots i)
    (above : ∀ t, t < i → z t = y t) (here : z i = y (pivots i) - leftSum W y i)
    (below : ∀ t, i < t → z t = y (Equiv.swap i (pivots i) t)) (bounded : next ≤ i.val + 1)
    (skipped : ∀ t : Fin n, t ≤ i → next = 0 ∨ t.val + 1 < next → z t = 0) :
    ForwardState W pivots v z (i.val + 1) next where
  solved := by
    intro t before
    have sums : leftSum W z t = leftSum W y t := by
      refine leftSum_congr fun s left => above s ?_
      rw [Fin.lt_def] at left ⊢
      omega
    rw [rowOrder_succ, sums]
    change z t + _ = v (rowOrder pivots i.val (Equiv.swap i (pivots i) t))
    by_cases atI : t = i
    · subst atI
      rw [here, Equiv.swap_apply_left, sub_add_cancel]
      exact state.pending _ active
    · have apart : t.val ≠ i.val := fun equal => atI (Fin.ext equal)
      have early : t.val < i.val := by omega
      rw [above t early, swap_of_lt (le_refl i.val) active early]
      exact state.solved t early
  pending := by
    intro t later
    rw [rowOrder_succ, below t later]
    apply state.pending
    have stays := (swap_val_lt_iff (le_refl i.val) active t).not
    omega
  bounded := bounded
  skipped := fun t before => skipped t (Nat.lt_succ_iff.mp before)

/-- A step of the forward substitution. -/
theorem forwardStep_ensures {y : Fin n → ℚ} {i : Fin n} {ii : Nat}
    (result : LuResult A lu heap W pivots) (small : n * n < 2 ^ 32) (apart : lu.m.vals ≠ x)
    (old : lu.m.vals < heap.limit) (vector : HoldsVector heap x y)
    (state : ForwardState W pivots v y i.val ii) :
    (forwardStep lu n x i.val ii).Ensures heap fun next after =>
      ∃ z, HoldsVector after x z ∧ ForwardState W pivots v z (i.val + 1) next ∧
        Frame (· = x) heap after := by
  have active := result.decomposes.active i
  refine .bind_returns (Block.read_returns (i.isLt.trans_le result.indxSize)
    (result.stored i)) ?_
  refine .bind_returns (vector.load_returns (pivots i)) ?_
  refine .bind_returns (vector.load_returns i) ?_
  refine .bind_returns (VectorCells.store_returns vector (pivots i) _) ?_
  have moved := vector.set (pivots i) (y i)
  have frame := writes_vector heap x (pivots i).val (y i)
  have kept : lu.m.Holds (heap.set x (pivots i).val (y i)) W :=
    Mat.Cells.of_block_eq result.holds (frame.same _ old apart)
  have unmoved : ∀ t, t < i → Function.update y (pivots i) (y i) t = y t := fun t before =>
    Function.update_of_ne (before.trans_le active).ne _ _
  refine (forwardSum_ensures kept small moved state.bounded ?_).bind ?_
  · intro t before early
    rw [unmoved t before]
    exact state.skipped t before early
  · rintro ⟨sum, next⟩ _ ⟨rfl, rfl, bounded, idle, skipped⟩
    refine .bind_returns (VectorCells.store_returns moved i _) ?_
    refine ensures_pure ⟨_, moved.set i _, ?_, frame.trans (writes_vector _ _ _ _)⟩
    have sums : leftSum W (Function.update y (pivots i) (y i)) i = leftSum W y i :=
      leftSum_congr unmoved
    refine state.next active ?_ ?_ ?_ bounded ?_
    · intro t before
      rw [Function.update_of_ne before.ne, unmoved t before]
    · rw [Function.update_self, sums]
    · intro t later
      rw [Function.update_of_ne later.ne']
      by_cases atPivot : t = pivots i
      · subst atPivot
        simp
      · rw [Function.update_of_ne atPivot, Equiv.swap_apply_of_ne_of_ne later.ne' atPivot]
    · intro t before early
      by_cases atI : t = i
      · subst atI
        rcases early with stopped | late
        · have zero := idle stopped
          rw [Function.update_self, zero.2, sums]
          have empty : leftSum W y t = 0 := by
            refine Finset.sum_eq_zero fun s _ => ?_
            split
            · rw [state.skipped s ‹_› (Or.inl zero.1), mul_zero]
            · rfl
          rw [empty, sub_zero]
        · omega
      · have strict : t < i := lt_of_le_of_ne before atI
        rw [Function.update_of_ne atI]
        rcases early with stopped | late
        · rw [unmoved t strict]
          exact state.skipped t strict (Or.inl (idle stopped).1)
        · exact skipped t strict late

/-- The forward substitution solves the lower system for the permuted vector. -/
theorem forward_ensures (result : LuResult A lu heap W pivots) (small : n * n < 2 ^ 32)
    (apart : lu.m.vals ≠ x) (old : lu.m.vals < heap.limit) (vector : HoldsVector heap x v) :
    (forUp 0 n 0 fun i ii => forwardStep lu n x i ii).Ensures heap fun _ after =>
      ∃ y, HoldsVector after x y ∧ lowerPart n W *ᵥ y = v ∘ rowOrder pivots n ∧
        Frame (· = x) heap after := by
  refine (forUp_ensures (fun i ii store => ∃ y, HoldsVector store x y ∧
    ForwardState W pivots v y i ii ∧ Frame (· = x) heap store) (Nat.zero_le n)
    ⟨v, vector, ⟨by simp, by simp [rowOrder], le_refl 0, by simp⟩, .refl _⟩ ?_).imp ?_
  · rintro i ii store _ below ⟨y, held, state, frame⟩
    lift i to Fin n using below
    have kept : LuResult A lu store W pivots :=
      { result with holds := Mat.Cells.of_block_eq result.holds (frame.same _ old apart) }
    apply (forwardStep_ensures kept small apart (old.trans_le frame.limit) held state).imp
    rintro next after ⟨z, held, state, writes⟩
    exact ⟨z, held, state, frame.trans writes⟩
  · rintro _ after ⟨y, held, state, frame⟩
    refine ⟨y, held, ?_, frame⟩
    ext i
    rw [lowerPart_mulVec_apply]
    exact state.solved i i.isLt

/-! ## Back substitution -/

/-- The part of row `i` to the right of column `i`. -/
def rightSum (W : Matrix (Fin n) (Fin n) ℚ) (z : Fin n → ℚ) (i : Fin n) : ℚ :=
  ∑ t, if i < t then W i t * z t else 0

/-- The sum reads only what lies behind its row. -/
theorem rightSum_congr {y z : Fin n → ℚ} {i : Fin n} (agree : ∀ t, i < t → y t = z t) :
    rightSum W y i = rightSum W z i := by
  refine Finset.sum_congr rfl fun t _ => ?_
  by_cases after : i < t
  · rw [if_pos after, if_pos after, agree t after]
  · rw [if_neg after, if_neg after]

/-- The vector in `x` when the rows from `i` on are solved. -/
structure BackState (W : Matrix (Fin n) (Fin n) ℚ) (y z : Fin n → ℚ) (i : Nat) : Prop where
  pending : ∀ t : Fin n, t.val < i → z t = y t
  solved : ∀ t : Fin n, i ≤ t.val → W t t * z t + rightSum W z t = y t

/-- A step of the back substitution. -/
theorem backStep_ensures {y z : Fin n → ℚ} {i : Fin n} {m : Mat} (holds : m.Holds heap W)
    (small : n * n < 2 ^ 32) (diagonal : W i i ≠ 0) (vector : HoldsVector heap x z)
    (state : BackState W y z (i.val + 1)) :
    (backStep m n x i.val).Ensures heap fun _ after =>
      ∃ w, HoldsVector after x w ∧ BackState W y w i.val ∧ Frame (· = x) heap after := by
  refine .bind_returns (vector.load_returns i) ?_
  refine (forUp_window_ensures (fun j => -(W i j * z j)) i.isLt (le_refl n) ?_).bind ?_
  · intro j total _ _
    refine .bind_returns (holds.load_returns small.le i j) ?_
    refine .bind_returns (vector.load_returns j) ?_
    exact ensures_pure ⟨by ring, rfl⟩
  · rintro total _ ⟨sum, rfl⟩
    have reduced : total = z i - rightSum W z i := by
      rw [sum, sub_eq_add_neg, rightSum, ← Finset.sum_neg_distrib]
      congr 1
      refine Finset.sum_congr rfl fun t _ => ?_
      by_cases right : i < t
      · rw [if_pos ⟨right, t.isLt⟩, if_pos right]
      · rw [if_neg (fun both => right both.1), if_neg right, neg_zero]
    refine .bind_returns (holds.load_returns small.le i i) ?_
    refine .bind_returns (divide_returns _ diagonal) ?_
    refine .of_returns (VectorCells.store_returns vector i _)
      ⟨_, vector.set i _, ⟨?_, ?_⟩, writes_vector _ _ _ _⟩
    · intro t before
      have apart : t ≠ i := by
        rintro rfl
        omega
      rw [Function.update_of_ne apart]
      exact state.pending t (by omega)
    · intro t later
      have unchanged : ∀ s, t < s → Function.update z i (total / W i i) s = z s := by
        intro s right
        have apart : s ≠ i := by
          rintro rfl
          rw [Fin.lt_def] at right
          omega
        exact Function.update_of_ne apart _ _
      rw [rightSum_congr unchanged]
      by_cases here : t = i
      · subst here
        rw [Function.update_self, mul_div_cancel₀ _ diagonal, reduced, sub_add_cancel]
        exact state.pending t (Nat.lt_succ_self _)
      · have apart : t.val ≠ i.val := fun equal => here (Fin.ext equal)
        rw [Function.update_of_ne here]
        exact state.solved t (by omega)

/-- The back substitution solves the upper system. -/
theorem back_ensures {y : Fin n → ℚ} {m : Mat} (holds : m.Holds heap W) (small : n * n < 2 ^ 32)
    (diagonal : ∀ i, W i i ≠ 0) (apart : m.vals ≠ x) (old : m.vals < heap.limit)
    (vector : HoldsVector heap x y) :
    (forDown n () fun i _ => backStep m n x i).Ensures heap fun _ after =>
      ∃ z, HoldsVector after x z ∧ upperPart n W *ᵥ z = y ∧ Frame (· = x) heap after := by
  refine (forDown_ensures (fun i _ store => ∃ z, HoldsVector store x z ∧
    BackState W y z i ∧ Frame (· = x) heap store)
    ⟨y, vector, ⟨by simp, fun t above => absurd t.isLt (not_lt.mpr above)⟩, .refl _⟩ ?_).imp ?_
  · rintro i _ store below ⟨z, held, state, frame⟩
    lift i to Fin n using below
    have kept : m.Holds store W := Mat.Cells.of_block_eq holds (frame.same _ old apart)
    apply (backStep_ensures kept small (diagonal i) held state).imp
    rintro _ after ⟨w, held, state, writes⟩
    exact ⟨w, held, state, frame.trans writes⟩
  · rintro _ after ⟨z, held, state, frame⟩
    refine ⟨z, held, ?_, frame⟩
    ext i
    rw [upperPart_mulVec_apply]
    exact state.solved i (Nat.zero_le _)

/-- `_solve_mat` leaves in `x` the solution for the initial contents of `b`. -/
theorem solveMat_ensures (result : LuResult A lu heap W pivots) (small : n * n < 2 ^ 32)
    (apart : lu.m.vals ≠ x) (old : lu.m.vals < heap.limit) (oldSource : b < heap.limit)
    (source : HoldsVector heap b v) (cells : VectorCells heap x contents) :
    (solveMat lu x b).Ensures heap fun _ after =>
      ∃ z, HoldsVector after x z ∧ A *ᵥ z = v ∧ Frame (· = x) heap after := by
  unfold solveMat
  rw [result.holds.rows]
  apply (copyVector_ensures source cells oldSource).bind
  rintro _ copied ⟨held, frame⟩
  have kept : LuResult A lu copied W pivots :=
    { result with holds := Mat.Cells.of_block_eq result.holds (frame.same _ old apart) }
  have oldCopied := old.trans_le frame.limit
  apply (forward_ensures kept small apart oldCopied held).bind
  rintro _ store ⟨y, held, forward, writes⟩
  have keptStore : lu.m.Holds store W :=
    Mat.Cells.of_block_eq kept.holds (writes.same _ oldCopied apart)
  refine (back_ensures keptStore small result.decomposes.diagonal apart
    (oldCopied.trans_le writes.limit) held).imp ?_
  rintro _ after ⟨z, held, back, last⟩
  exact ⟨z, held, result.decomposes.mulVec_eq forward back, (frame.trans writes).trans last⟩

/-- Decompose `a` and solve for the array `b`; the result is the flag. -/
def decomposeAndSolve (a : Mat) (lu : MatDecomp) (x b : Nat) : Exec (Heap ℚ) Nat := do
  let decomposed ← luDecompMat a lu
  solveMat decomposed.2 x b
  return decomposed.1

/-- With a decomposition of a regular matrix, `_solve_mat` finds the only solution, in a
separate array or in place. Arrays of exactly `n` elements are included, so every index
is below `n`. -/
theorem decomposeAndSolve_solves {a : Mat} (holds : a.Holds heap A) (positive : 1 ≤ n)
    (small : n * n < 2 ^ 31) (room : n ≤ lu.indx.size)
    (target : lu.m = a ∨ lu.m.vals ≠ a.vals ∧ lu.m.rows = n ∧ lu.m.cols = n ∧
      (heap.block lu.m.vals).size = n * n)
    (regular : A.det ≠ 0) (apartX : x ≠ lu.m.vals) (apartB : b ≠ lu.m.vals)
    (source : HoldsVector heap b v) (size : n ≤ (heap.block x).size) :
    (decomposeAndSolve a lu x b).Ensures heap fun flag after =>
      flag = 1 ∧ ∃ z, HoldsVector after x z ∧ A *ᵥ z = v ∧ ∀ w, A *ᵥ w = v → w = z := by
  have entries : n * n < 2 ^ 32 := by omega
  have oldB : b < heap.limit := lt_limit_of_size (Nat.lt_of_lt_of_le positive source.1)
  have oldX : x < heap.limit := lt_limit_of_size (Nat.lt_of_lt_of_le positive size)
  have place := luTarget_of_sizes holds positive room target
  apply (luDecompMat_ensures holds entries place).bind
  rintro ⟨flag, dcmp⟩ decomposed ⟨matrix, frame, ⟨rfl, W, pivots, result⟩ | ⟨-, singular⟩⟩
  · have sameVals : dcmp.m.vals = lu.m.vals := congrArg Mat.vals matrix
    have keptB := frame.same b oldB apartB
    have keptX := frame.same x oldX apartX
    have here : HoldsVector decomposed b v := by
      refine ⟨by rw [keptB]; exact source.1, fun i => ?_⟩
      rw [keptB]
      exact source.2 i
    have cells : VectorCells decomposed x fun i : Fin n => (decomposed.block x).cell i.val :=
      ⟨by rwa [keptX], fun _ => rfl⟩
    have oldLu : dcmp.m.vals < decomposed.limit :=
      Mat.Cells.lt_limit result.holds (Nat.mul_pos positive positive)
    apply (solveMat_ensures result entries (by rw [sameVals]; exact apartX.symm) oldLu
      (oldB.trans_le frame.limit) here cells).bind
    rintro _ after ⟨z, held, solves, -⟩
    refine ensures_pure ⟨rfl, z, held, solves, fun w other => ?_⟩
    exact Matrix.mulVec_injective_of_isUnit
      ((Matrix.isUnit_iff_isUnit_det A).mpr (isUnit_iff_ne_zero.mpr regular))
      (other.trans solves.symm)
  · exact absurd singular regular

/-- `[0 2; 3 4] x = [2, 11]`, decomposed and solved in place. -/
theorem decomposeAndSolve_solves_zeroCorner :
    (decomposeAndSolve ⟨2, 2, 0⟩ ⟨⟨2, 2, 0⟩, .uninitialised Nat 2, 0⟩ 1 1).Ensures
      (zeroCorner.extend ⟨2, fun k => [(2 : ℚ), 11][k]?⟩) fun flag after =>
        flag = 1 ∧ ∃ z : Fin 2 → ℚ, HoldsVector after 1 z ∧ !![0, 2; 3, 4] *ᵥ z = ![2, 11] ∧
          ∀ w, !![0, 2; 3, 4] *ᵥ w = ![2, 11] → w = z := by
  refine decomposeAndSolve_solves ⟨rfl, rfl, rfl, ?_⟩ (by decide) (by decide) (le_refl 2)
    (.inl rfl) ?_ (by decide) (by decide) ⟨le_refl 2, ?_⟩ (le_refl 2)
  · intro i j
    fin_cases i <;> fin_cases j <;> rfl
  · simp [Matrix.det_fin_two]
  · intro i
    fin_cases i <;> rfl

end MotorStand
