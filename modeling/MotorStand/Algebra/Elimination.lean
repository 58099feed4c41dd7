import Mathlib.LinearAlgebra.Matrix.Block
import Mathlib.LinearAlgebra.Matrix.NonsingularInverse
import Mathlib.Tactic.FieldSimp
import Mathlib.Tactic.LinearCombination

/-!
# In-place triangular factorisation

One square array `W` holds both factors while elimination is under way: after
`k` steps the multipliers stand below the diagonal of the first `k` columns, and
`lowerPart k W * upperPart k W` is the original matrix with its rows reordered.
A row swap keeps that product up to the same swap, and `eliminate` keeps it
exactly.
-/

namespace Elimination

open Matrix Equiv

variable {n : Nat} {K : Type*} [Field K]

/-- The unit lower factor after `k` steps. -/
def lowerPart (k : Nat) (W : Matrix (Fin n) (Fin n) K) : Matrix (Fin n) (Fin n) K :=
  Matrix.of fun i t => if i = t then 1 else if t < i ∧ t.val < k then W i t else 0

/-- The upper factor after `k` steps; rows from `k` on are still to be reduced. -/
def upperPart (k : Nat) (W : Matrix (Fin n) (Fin n) K) : Matrix (Fin n) (Fin n) K :=
  Matrix.of fun t j => if min t.val k ≤ j.val then W t j else 0

/-- Exchange two rows. -/
def swapRows (p q : Fin n) (W : Matrix (Fin n) (Fin n) K) : Matrix (Fin n) (Fin n) K :=
  W.submatrix (swap p q) id

/-- Store the multipliers of column `k` and subtract row `k` from the rows below. -/
def eliminate (k : Fin n) (W : Matrix (Fin n) (Fin n) K) : Matrix (Fin n) (Fin n) K :=
  Matrix.of fun i j =>
    if i ≤ k ∨ j < k then W i j
    else if j = k then W i k / W k k
    else W i j - W i k / W k k * W k j

/-- The composition of the swaps of `k` and `pivots k`, for `k` below `count`. -/
def rowOrder (pivots : Fin n → Fin n) : Nat → Perm (Fin n)
  | 0 => 1
  | count + 1 =>
      if inside : count < n then
        rowOrder pivots count * swap ⟨count, inside⟩ (pivots ⟨count, inside⟩)
      else rowOrder pivots count

/-- Each step adds its exchange on the right. -/
theorem rowOrder_succ (pivots : Fin n → Fin n) (k : Fin n) :
    rowOrder pivots (k.val + 1) = rowOrder pivots k.val * swap k (pivots k) := by
  simp [rowOrder]

/-- The first `count` swaps depend only on the first `count` pivots. -/
theorem rowOrder_congr {pivots others : Fin n → Fin n} {count : Nat}
    (agree : ∀ k : Fin n, k.val < count → pivots k = others k) :
    rowOrder pivots count = rowOrder others count := by
  induction count with
  | zero => rfl
  | succ count ih =>
      have earlier := ih (fun k below => agree k (by omega))
      by_cases inside : count < n
      · simp [rowOrder, inside, earlier, agree ⟨count, inside⟩ (Nat.lt_succ_self _)]
      · simp [rowOrder, inside, earlier]

/-- The entries of the lower part: ones on the diagonal, and the multipliers which are found. -/
theorem lowerPart_apply (k : Nat) (W : Matrix (Fin n) (Fin n) K) (i t : Fin n) :
    lowerPart k W i t = if i = t then 1 else if t < i ∧ t.val < k then W i t else 0 := rfl

/-- The entries of the upper part. -/
theorem upperPart_apply (k : Nat) (W : Matrix (Fin n) (Fin n) K) (t j : Fin n) :
    upperPart k W t j = if min t.val k ≤ j.val then W t j else 0 := rfl

/-- The entries of a matrix after a step of the elimination. -/
theorem eliminate_apply (k : Fin n) (W : Matrix (Fin n) (Fin n) K) (i j : Fin n) :
    eliminate k W i j =
      if i ≤ k ∨ j < k then W i j
      else if j = k then W i k / W k k
      else W i j - W i k / W k k * W k j := rfl

/-- Before the first step there are no multipliers. -/
@[simp] theorem lowerPart_zero (W : Matrix (Fin n) (Fin n) K) : lowerPart 0 W = 1 := by
  ext i t
  simp [lowerPart, Matrix.one_apply]

/-- Before the first step nothing is eliminated. -/
@[simp] theorem upperPart_zero (W : Matrix (Fin n) (Fin n) K) : upperPart 0 W = W := by
  ext t j
  simp [upperPart]

/-- An exchange of active rows keeps the finished ones apart. -/
theorem swap_val_lt_iff {k : Nat} {p q : Fin n} (p_active : k ≤ p.val) (q_active : k ≤ q.val)
    (i : Fin n) : (swap p q i).val < k ↔ i.val < k := by
  by_cases isP : i = p
  · subst isP
    rw [swap_apply_left]
    omega
  · by_cases isQ : i = q
    · subst isQ
      rw [swap_apply_right]
      omega
    · rw [swap_apply_of_ne_of_ne isP isQ]

/-- Rows above `k` are not moved by a swap of active rows. -/
theorem swap_of_lt {k : Nat} {p q : Fin n} (p_active : k ≤ p.val) (q_active : k ≤ q.val)
    {i : Fin n} (below : i.val < k) : swap p q i = i := by
  apply swap_apply_of_ne_of_ne
  · rintro rfl
    omega
  · rintro rfl
    omega

/-- The multipliers move with their rows. -/
theorem lowerPart_swapRows {k : Nat} {p q : Fin n} (p_active : k ≤ p.val) (q_active : k ≤ q.val)
    (W : Matrix (Fin n) (Fin n) K) :
    lowerPart k (swapRows p q W) = (lowerPart k W).submatrix (swap p q) (swap p q) := by
  ext i t
  have keeps := swap_val_lt_iff p_active q_active t
  by_cases column : t.val < k
  · have fixed := swap_of_lt p_active q_active column
    have rows := swap_val_lt_iff p_active q_active i
    by_cases row : i.val < k
    · have fixedRow := swap_of_lt p_active q_active row
      simp [lowerPart, swapRows, fixed, fixedRow]
    · have different : i ≠ t := by
        rintro rfl
        exact row column
      have moved : swap p q i ≠ t := by
        intro same
        apply row
        rw [← rows, same]
        exact column
      have above : t < i := by
        rw [Fin.lt_def]
        omega
      have aboveMoved : t < swap p q i := by
        rw [Fin.lt_def]
        omega
      simp [lowerPart, swapRows, fixed, different, moved, above, aboveMoved, column]
  · have columnMoved : ¬ (swap p q t).val < k := by
      rwa [keeps]
    by_cases same : i = t
    · simp [lowerPart, same]
    · simp [lowerPart, same, column, columnMoved]

/-- The rest of the matrix moves with its rows. -/
theorem upperPart_swapRows {k : Nat} {p q : Fin n} (p_active : k ≤ p.val) (q_active : k ≤ q.val)
    (W : Matrix (Fin n) (Fin n) K) :
    upperPart k (swapRows p q W) = swapRows p q (upperPart k W) := by
  ext t j
  change upperPart k (swapRows p q W) t j = upperPart k W (swap p q t) j
  by_cases row : t.val < k
  · rw [swap_of_lt p_active q_active row]
    simp [upperPart_apply, swapRows, swap_of_lt p_active q_active row]
  · have moved : ¬ (swap p q t).val < k := by
      rwa [swap_val_lt_iff p_active q_active]
    have least : min t.val k = k := by omega
    have leastMoved : min (swap p q t).val k = k := by omega
    rw [upperPart_apply, upperPart_apply, least, leastMoved]
    rfl

/-- Swapping two rows that are still active swaps the same rows of the product. -/
theorem factors_swapRows {k : Nat} {p q : Fin n} (p_active : k ≤ p.val) (q_active : k ≤ q.val)
    (W : Matrix (Fin n) (Fin n) K) :
    lowerPart k (swapRows p q W) * upperPart k (swapRows p q W) =
      swapRows p q (lowerPart k W * upperPart k W) := by
  rw [lowerPart_swapRows p_active q_active, upperPart_swapRows p_active q_active]
  unfold swapRows
  rw [Matrix.submatrix_mul_equiv]

/-- The multipliers of step `k`, zero up to row `k`. -/
def multipliers (k : Fin n) (W : Matrix (Fin n) (Fin n) K) : Fin n → K :=
  fun i => if i ≤ k then 0 else W i k / W k k

/-- A step adds its column of multipliers. -/
theorem lowerPart_eliminate (k : Fin n) (W : Matrix (Fin n) (Fin n) K) (i t : Fin n) :
    lowerPart (k.val + 1) (eliminate k W) i t =
      lowerPart k.val W i t + if t = k then multipliers k W i else 0 := by
  by_cases same : i = t
  · subst same
    by_cases column : i = k
    · simp [lowerPart, multipliers, column]
    · simp [lowerPart, column]
  · by_cases column : t = k
    · subst column
      by_cases above : t < i
      · have notBelow : ¬ i ≤ t := not_le.mpr above
        simp [lowerPart, same, above, eliminate, multipliers, notBelow]
      · have below : i ≤ t := not_lt.mp above
        simp [lowerPart, same, above, multipliers, below]
    · have columns : t.val < k.val + 1 ↔ t.val < k.val := by
        have different : t.val ≠ k.val := fun equal => column (Fin.ext equal)
        omega
      rw [lowerPart_apply, lowerPart_apply, if_neg same, if_neg same, if_neg column, add_zero]
      by_cases stored : t < i ∧ t.val < k.val
      · have before : t < k := stored.2
        rw [if_pos ⟨stored.1, columns.mpr stored.2⟩, if_pos stored, eliminate_apply,
          if_pos (Or.inr before)]
      · rw [if_neg (fun held => stored ⟨held.1, columns.mp held.2⟩), if_neg stored]

/-- A step subtracts the row of its pivot. -/
theorem upperPart_eliminate (k : Fin n) (W : Matrix (Fin n) (Fin n) K) (pivot : W k k ≠ 0)
    (t j : Fin n) :
    upperPart (k.val + 1) (eliminate k W) t j =
      upperPart k.val W t j - multipliers k W t * upperPart k.val W k j := by
  rw [upperPart_apply, upperPart_apply, upperPart_apply, min_self]
  by_cases row : t ≤ k
  · have rows : min t.val (k.val + 1) = min t.val k.val := by
      have bound : t.val ≤ k.val := row
      omega
    simp [rows, eliminate_apply, multipliers, row]
  · have below : k.val < t.val := not_le.mp row
    have now : min t.val (k.val + 1) = k.val + 1 := by omega
    have before : min t.val k.val = k.val := by omega
    rw [now, before, multipliers, if_neg row]
    by_cases column : j = k
    · subst column
      rw [if_neg (by omega), if_pos (Nat.le_refl _), if_pos (Nat.le_refl _),
        div_mul_cancel₀ _ pivot, sub_self]
    · have different : j.val ≠ k.val := fun equal => column (Fin.ext equal)
      by_cases left : j < k
      · have early : j.val < k.val := left
        rw [if_neg (by omega), if_neg (by omega), if_neg (by omega)]
        simp
      · have late : ¬ j.val < k.val := left
        rw [if_pos (by omega), if_pos (by omega), if_pos (by omega), eliminate_apply,
          if_neg (by simp [row, left]), if_neg column]

/-- The lower factor acts on the multipliers of its own next step as the identity. -/
theorem lowerPart_mulVec_multipliers (k : Fin n) (W : Matrix (Fin n) (Fin n) K) (i : Fin n) :
    ∑ t, lowerPart k.val W i t * multipliers k W t = multipliers k W i := by
  rw [Finset.sum_eq_single i]
  · simp [lowerPart]
  · intro t _ different
    by_cases below : t ≤ k
    · simp [multipliers, below]
    · have late : ¬ (t < i ∧ t.val < k.val) := fun held => below (le_of_lt held.2)
      rw [lowerPart_apply, if_neg different.symm, if_neg late, zero_mul]
  · simp

/-- One elimination step keeps the product of the factors. -/
theorem factors_eliminate (k : Fin n) (W : Matrix (Fin n) (Fin n) K) (pivot : W k k ≠ 0) :
    lowerPart (k.val + 1) (eliminate k W) * upperPart (k.val + 1) (eliminate k W) =
      lowerPart k.val W * upperPart k.val W := by
  ext i j
  simp only [Matrix.mul_apply, lowerPart_eliminate, upperPart_eliminate k W pivot]
  have self : multipliers k W k = 0 := by simp [multipliers]
  have expand : ∀ t, (lowerPart k.val W i t + if t = k then multipliers k W i else 0) *
      (upperPart k.val W t j - multipliers k W t * upperPart k.val W k j) =
      lowerPart k.val W i t * upperPart k.val W t j -
        lowerPart k.val W i t * multipliers k W t * upperPart k.val W k j +
        if t = k then multipliers k W i * upperPart k.val W k j else 0 := by
    intro t
    by_cases column : t = k
    · subst column
      simp only [self, if_true]
      ring
    · simp only [if_neg column]
      ring
  rw [Finset.sum_congr rfl (fun t _ => expand t), Finset.sum_add_distrib,
    Finset.sum_sub_distrib, ← Finset.sum_mul, lowerPart_mulVec_multipliers]
  simp

/-- A unit triangular matrix has the determinant one. -/
theorem det_lowerPart (k : Nat) (W : Matrix (Fin n) (Fin n) K) : (lowerPart k W).det = 1 := by
  rw [Matrix.det_of_isLowerTriangular]
  · simp [lowerPart]
  · intro i t above
    have order : i < t := above
    simp [lowerPart, order.ne, order.not_gt]

/-- The determinant of a triangular matrix is the product of its diagonal. -/
theorem det_upperPart_full (W : Matrix (Fin n) (Fin n) K) :
    (upperPart n W).det = ∏ i, W i i := by
  rw [Matrix.det_of_isUpperTriangular]
  · simp [upperPart]
  · intro t j below
    have order : j < t := below
    simp [upperPart, order.not_ge]

/-- When no active row has an entry in column `k`, the first `k + 1` columns are
supported on the first `k` rows, so every term of the determinant vanishes. -/
theorem det_upperPart_eq_zero (k : Fin n) (W : Matrix (Fin n) (Fin n) K)
    (empty : ∀ i, k ≤ i → W i k = 0) : (upperPart k.val W).det = 0 := by
  rw [Matrix.det_apply]
  apply Finset.sum_eq_zero
  intro order _
  have vanishes : ∃ j, upperPart k.val W (order j) j = 0 := by
    by_contra nonzero
    simp only [not_exists] at nonzero
    have maps : ∀ j ∈ Finset.Iic k, order j ∈ Finset.Iio k := by
      intro j bounded
      have columns : j ≤ k := Finset.mem_Iic.mp bounded
      rw [Finset.mem_Iio]
      by_contra above
      have rows : k ≤ order j := not_lt.mp above
      apply nonzero j
      have least : min (order j).val k.val = k.val := min_eq_right rows
      rw [upperPart_apply, least]
      by_cases last : j = k
      · rw [last, empty _ (last ▸ rows), ite_self]
      · have early : j < k := lt_of_le_of_ne columns last
        have short : ¬ k.val ≤ j.val := not_le.mpr early
        rw [if_neg short]
    have cards : (Finset.Iio k).card < (Finset.Iic k).card := by simp
    obtain ⟨first, _, second, _, different, same⟩ :=
      Finset.exists_ne_map_eq_of_card_lt_of_maps_to cards maps
    exact different (order.injective same)
  obtain ⟨j, zero⟩ := vanishes
  have product : ∏ i, upperPart k.val W (order i) i = 0 :=
    Finset.prod_eq_zero (Finset.mem_univ j) zero
  rw [product, smul_zero]

/-- Row `i` of the system with the unit lower factor. -/
theorem lowerPart_mulVec_apply (W : Matrix (Fin n) (Fin n) K) (y : Fin n → K) (i : Fin n) :
    (lowerPart n W *ᵥ y) i = y i + ∑ t, if t < i then W i t * y t else 0 := by
  have split : ∀ t, lowerPart n W i t * y t =
      (if i = t then y t else 0) + if t < i then W i t * y t else 0 := by
    intro t
    rw [lowerPart_apply]
    by_cases same : i = t
    · subst same
      simp
    · simp [same]
  change ∑ t, lowerPart n W i t * y t = _
  rw [Finset.sum_congr rfl (fun t _ => split t), Finset.sum_add_distrib]
  simp

/-- Row `i` of the system with the upper factor. -/
theorem upperPart_mulVec_apply (W : Matrix (Fin n) (Fin n) K) (x : Fin n → K) (i : Fin n) :
    (upperPart n W *ᵥ x) i = W i i * x i + ∑ t, if i < t then W i t * x t else 0 := by
  have split : ∀ t, upperPart n W i t * x t =
      (if i = t then W i t * x t else 0) + if i < t then W i t * x t else 0 := by
    intro t
    rw [upperPart_apply, min_eq_left i.isLt.le]
    rcases lt_trichotomy i t with right | same | left
    · have wide : i.val ≤ t.val := le_of_lt right
      simp [right, right.ne, wide]
    · subst same
      simp
    · have narrow : ¬ i.val ≤ t.val := not_le.mpr left
      rw [if_neg narrow, if_neg left.ne', if_neg left.not_gt]
      simp
  change ∑ t, upperPart n W i t * x t = _
  rw [Finset.sum_congr rfl (fun t _ => split t), Finset.sum_add_distrib]
  simp

/-- A finished factorisation of `A`: the array `W` and the pivot chosen at every
step, with no zero on the diagonal. -/
structure Decomposes (A W : Matrix (Fin n) (Fin n) K) (pivots : Fin n → Fin n) : Prop where
  active : ∀ k, k ≤ pivots k
  product : lowerPart n W * upperPart n W = A.submatrix (rowOrder pivots n) id
  diagonal : ∀ k, W k k ≠ 0

namespace Decomposes

variable {A W : Matrix (Fin n) (Fin n) K} {pivots : Fin n → Fin n}

/-- The determinant is the signed product of the pivots. -/
theorem det_eq (decomposes : Decomposes A W pivots) :
    A.det = (Perm.sign (rowOrder pivots n) : ℤ) * ∏ k, W k k := by
  have reordered : (lowerPart n W * upperPart n W).det =
      (Perm.sign (rowOrder pivots n) : ℤ) * A.det := by
    rw [decomposes.product, Matrix.det_permute]
  rw [Matrix.det_mul, det_lowerPart, det_upperPart_full, one_mul] at reordered
  have square : ((Perm.sign (rowOrder pivots n) : ℤ) : K) *
      (Perm.sign (rowOrder pivots n) : ℤ) = 1 := by
    rw [← Int.cast_mul, Int.units_coe_mul_self, Int.cast_one]
  rw [reordered, ← mul_assoc, square, one_mul]

/-- A matrix which was decomposed with nonzero pivots is regular. -/
theorem det_ne_zero (decomposes : Decomposes A W pivots) : A.det ≠ 0 := by
  rw [decomposes.det_eq]
  refine mul_ne_zero ?_ (Finset.prod_ne_zero_iff.mpr fun k _ => decomposes.diagonal k)
  rcases Int.units_eq_one_or (Perm.sign (rowOrder pivots n)) with plus | minus
  · simp [plus]
  · simp [minus]

/-- Forward and back substitution with the factors solve the original system. -/
theorem mulVec_eq (decomposes : Decomposes A W pivots) {b y x : Fin n → K}
    (forward : lowerPart n W *ᵥ y = b ∘ rowOrder pivots n)
    (back : upperPart n W *ᵥ x = y) : A *ᵥ x = b := by
  have reordered : (A *ᵥ x) ∘ rowOrder pivots n = b ∘ rowOrder pivots n := by
    have rows : (A.submatrix (rowOrder pivots n) id) *ᵥ x = (A *ᵥ x) ∘ rowOrder pivots n := rfl
    rw [← rows, ← decomposes.product, ← Matrix.mulVec_mulVec, back, forward]
  exact (rowOrder pivots n).surjective.injective_comp_right reordered

end Decomposes

end Elimination
