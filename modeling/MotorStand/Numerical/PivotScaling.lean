import MotorStand.Numerical.LuDecomp

/-!
# Implicit scaling in the pivot search

A swap of `_lu_decomp_mat` moves one of the two scales it concerns and leaves the other
to a row which is finished. So the rows still active keep the scales of the rows of `a`
they come from, unless the flat indices of the matrix wrap around.
-/

namespace MotorStand

open Imperative Imperative.Exec Imperative.Heap Elimination

variable {n : Nat} {a : Mat} {heap : Heap ℚ} {A : Matrix (Fin n) (Fin n) ℚ}

/-- The largest absolute entry of the row of `A` which the swaps before step `k` have moved
to position `i`. -/
def originalLargest (A : Matrix (Fin n) (Fin n) ℚ) (pivots : Fin n → Fin n) (k i : Fin n) : ℚ :=
  rowLargest A (rowOrder pivots k.val i)

/-- Step `k` starts with `W` in `m` and the swaps `pivots` behind it, every active row has the
scale of its original row, and the row which the step chooses is the best by these scales. -/
structure ScaledByOrigin (A W : Matrix (Fin n) (Fin n) ℚ) (pivots : Fin n → Fin n) (m : Mat)
    (k : Fin n) (locals : LuLocals) (store : Heap ℚ) : Prop where
  swaps : ∀ t, t < k → locals.indx.cell t.val = some (pivots t).val
  contents : m.Holds store W
  scale : ∀ i, k ≤ i → locals.vv.cell i.val = some (1 / originalLargest A pivots k i) ∧
    0 < 1 / originalLargest A pivots k i
  choice : (luStep m n k.val locals).Ensures store fun flow _ => flow.Satisfies
    (fun next => ∃ p, k ≤ p ∧ next.indx.cell k.val = some p.val ∧ ∀ i, k ≤ i →
      |W i k| / originalLargest A pivots k i ≤ |W p k| / originalLargest A pivots k p)
    (fun _ => True)

/-- The state at the start of a step has the scales of the original rows. -/
theorem LuState.scaledByOrigin {W : Matrix (Fin n) (Fin n) ℚ} {pivots : Fin n → Fin n} {m : Mat}
    {k : Fin n} {locals : LuLocals} (state : LuState A W pivots k.val locals)
    (holds : m.Holds heap W) (small : n * n ≤ 2 ^ 32) (regular : ∀ i, rowLargest A i ≠ 0) :
    ScaledByOrigin A W pivots m k locals heap where
  swaps := state.stored
  contents := holds
  scale := fun i active => ⟨state.scaled i active,
    one_div_pos.mpr (lt_of_le_of_ne (rowLargest_nonneg A _) (regular _).symm)⟩
  choice := by
    apply (luStep_ensures holds small regular state).imp
    rintro (next | _) after ⟨-, stepped⟩
    · obtain ⟨p, best, V, state', -⟩ := stepped
      refine ⟨p, best.1, ?_, fun i active => ?_⟩
      · have chosen := state'.stored k (Nat.lt_succ_self _)
        rwa [Function.update_self] at chosen
      · have weighed := best.2 i active
        rwa [one_div_mul_eq_div, one_div_mul_eq_div] at weighed
    · trivial

/-- At the start of every step which is reached, the scales are those of the original rows.
A matrix with a zero row does not come to the first step. -/
theorem luUntil_scaledByOrigin (holds : a.Holds heap A) (small : n * n ≤ 2 ^ 32)
    {lu : MatDecomp} (room : n ≤ lu.indx.size)
    (target : lu.m = a ∨ lu.m.vals ≠ a.vals ∧ lu.m.rows = n ∧ lu.m.cols = n ∧
      (heap.block lu.m.vals).size = n * n) (k : Fin n) :
    (luUntil a lu k.val).Ensures heap fun flow after => flow.Satisfies
      (fun locals => ∃ W pivots, ScaledByOrigin A W pivots lu.m k locals after)
      (fun _ => True) := by
  have positive : 1 ≤ n := Nat.lt_of_le_of_lt (Nat.zero_le _) k.isLt
  have place := luTarget_of_sizes holds positive room target
  apply (luUntil_ensures holds small place k.isLt.le).imp
  rintro (locals | _) after ⟨-, reached⟩
  · obtain ⟨regular, W, pivots, state, held⟩ := reached
    exact ⟨W, pivots, state.scaledByOrigin held small regular⟩
  · trivial

/-- The second step on `[0 2; 3 4]`, whose rows the first step exchanges. -/
theorem luUntil_scaledByOrigin_zeroCorner :
    (luUntil ⟨2, 2, 0⟩ ⟨⟨2, 2, 0⟩, .uninitialised Nat 2, 0⟩ (1 : Fin 2).val).Ensures zeroCorner
      fun flow after => flow.Satisfies
        (fun locals => ∃ W pivots,
          ScaledByOrigin !![0, 2; 3, 4] W pivots ⟨2, 2, 0⟩ 1 locals after)
        (fun _ => True) := by
  have held : Mat.Holds ⟨2, 2, 0⟩ zeroCorner !![0, 2; 3, 4] := by
    refine ⟨rfl, rfl, rfl, fun i j => ?_⟩
    fin_cases i <;> fin_cases j <;> rfl
  have room : 2 ≤ (Block.uninitialised Nat 2).size := le_refl 2
  exact luUntil_scaledByOrigin held (by decide) room (.inl rfl) 1

/-! ## Matrices whose flat indices wrap around -/

/-- 2 in the first cell and 1 in all others. -/
def cornerCell (position : Nat) : ℚ := if position = 0 then 2 else 1

/-- The matrix with 2 in its corner and 1 everywhere else. -/
def cornerTwo (n : Nat) : Matrix (Fin n) (Fin n) ℚ :=
  Matrix.of fun i j => cornerCell (j.val + i.val * n)

/-- What the flat indices read of `cornerTwo n`. -/
def cornerRead (n : Nat) : Matrix (Fin n) (Fin n) ℚ :=
  Matrix.of fun i j => cornerCell (offset32 n i.val j.val)

/-- `cornerTwo n` in the first block. -/
def cornerHeap (n : Nat) : Heap ℚ :=
  (Heap.empty ℚ).extend ⟨n * n, fun position => some (cornerCell position)⟩

/-- The memory holds the matrix. -/
theorem cornerHeap_holds (n : Nat) : Mat.Holds ⟨n, n, 0⟩ (cornerHeap n) (cornerTwo n) :=
  ⟨rfl, rfl, rfl, fun _ _ => rfl⟩

/-- What is read of it by wrapped indices. -/
theorem cornerHeap_reads (n : Nat) : Mat.Reads ⟨n, n, 0⟩ (cornerHeap n) (cornerRead n) := by
  intro i j
  have inside : offset32 n i.val j.val < n * n :=
    (Nat.mod_le _ _).trans_lt (position_lt i j)
  exact Heap.load_returns inside rfl

/-- Every cell is positive. -/
theorem cornerCell_pos (position : Nat) : 0 < cornerCell position := by
  unfold cornerCell
  split <;> norm_num

/-- No entry is zero. -/
theorem cornerTwo_ne_zero (i j : Fin n) : cornerTwo n i j ≠ 0 := (cornerCell_pos _).ne'

/-- Every row but the first has the largest entry 1. -/
theorem rowLargest_cornerTwo {i : Fin n} (later : 0 < i.val) :
    rowLargest (cornerTwo n) i = 1 := by
  have positive : 0 < n := Nat.lt_of_le_of_lt (Nat.zero_le _) i.isLt
  have ones : ∀ j, |cornerTwo n i j| = 1 := by
    intro j
    have apart : j.val + i.val * n ≠ 0 := by
      have shifted := Nat.mul_pos later positive
      omega
    have entry : cornerTwo n i j = 1 := if_neg apart
    rw [entry, abs_one]
  exact (eq_rowLargest (fun j => (ones j).le) (Or.inr ⟨i, (ones i).symm⟩)).symm

/-- A row with a flat index that wraps around to the first cell is scaled by its entry. -/
theorem rowLargest_cornerRead {i j : Fin n} (wraps : offset32 n i.val j.val = 0) :
    rowLargest (cornerRead n) i = 2 := by
  have bound : ∀ c, |cornerRead n i c| ≤ 2 := by
    intro c
    simp only [cornerRead, cornerCell, Matrix.of_apply]
    split <;> norm_num
  refine (eq_rowLargest bound (Or.inr ⟨j, ?_⟩)).symm
  simp [cornerRead, cornerCell, wraps]

/-- At the first step some row has a scale which is not its own. -/
theorem luUntil_cornerTwo (large : 2 ^ 32 < n * n) (fits : n ≤ 2 ^ 32) (k : Fin n)
    (first : k.val = 0) (indx : Block Nat) (d : ℚ) :
    (luUntil ⟨n, n, 0⟩ ⟨⟨n, n, 0⟩, indx, d⟩ k.val).Ensures (cornerHeap n) fun flow _ =>
      ∃ locals, flow = .next locals ∧ ∃ i, k ≤ i ∧ ∀ pivots,
        locals.vv.cell i.val ≠ some (1 / originalLargest (cornerTwo n) pivots k i) := by
  have positive : 0 < n := Nat.lt_of_le_of_lt (Nat.zero_le _) k.isLt
  have row : 2 ^ 32 / n < n := Nat.div_lt_of_lt_mul large
  let i : Fin n := ⟨2 ^ 32 / n, row⟩
  let j : Fin n := ⟨2 ^ 32 % n, Nat.mod_lt _ positive⟩
  have wraps : offset32 n i.val j.val = 0 := by
    rw [offset32, Nat.mod_add_div']
    exact Nat.mod_self _
  have later : 0 < i.val := Nat.div_pos fits positive
  unfold luUntil
  refine .bind_returns (require_returns _ rfl) ?_
  rw [copyUnlessSame, if_neg (by simp), pure_bind]
  apply (scaleRows_ensures (cornerHeap_reads n) rfl).bind
  rintro (vv | _) store scaled
  · obtain ⟨scales, rfl⟩ := scaled
    rw [first]
    simp only [forUntil_self]
    refine ensures_pure ⟨_, rfl, i, by rw [Fin.le_def]; omega, ?_⟩
    intro pivots same
    have unmoved : rowOrder pivots k.val i = i := by
      rw [first]
      rfl
    rw [(scales.2 i i.isLt).2, originalLargest, unmoved, rowLargest_cornerTwo later,
      rowLargest_cornerRead wraps] at same
    norm_num at same
  · obtain ⟨⟨r, zero⟩, -⟩ := scaled
    exact absurd (zero r) (cornerCell_pos _).ne'

/-- `cornerTwo` with 65537 rows has no zero row and comes to the first step, and there a row
has a scale which is not its own. -/
theorem not_scaledByOrigin_cornerTwo :
    Mat.Holds ⟨65537, 65537, 0⟩ (cornerHeap 65537) (cornerTwo 65537) ∧
      (∀ i, ∃ j, cornerTwo 65537 i j ≠ 0) ∧
      ∃ locals after, luUntil ⟨65537, 65537, 0⟩
          ⟨⟨65537, 65537, 0⟩, .uninitialised Nat 65537, 0⟩ (0 : Fin 65537).val
          (cornerHeap 65537) = .ok (.next locals, after) ∧
        ∃ i, 0 ≤ i ∧ ∀ pivots, locals.vv.cell i.val ≠
          some (1 / originalLargest (cornerTwo 65537) pivots 0 i) := by
  refine ⟨cornerHeap_holds _, fun i => ⟨i, cornerTwo_ne_zero i i⟩, ?_⟩
  obtain ⟨_, after, run, locals, rfl, scales⟩ := luUntil_cornerTwo (n := 65537) (by norm_num)
    (by norm_num) 0 rfl (.uninitialised Nat 65537) 0
  exact ⟨locals, after, run, scales⟩

end MotorStand
