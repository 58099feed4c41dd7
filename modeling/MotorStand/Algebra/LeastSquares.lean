import Mathlib.LinearAlgebra.Matrix.Rank
import Mathlib.LinearAlgebra.Matrix.ToLinearEquiv
import Mathlib.LinearAlgebra.Lagrange
import Mathlib.Tactic.LinearCombination

/-!
# Linear least squares

The coefficients fitting `X *ᵥ a` to `y` with the least sum of squared residuals
solve the normal equations, and are unique exactly when the Gram matrix
`Xᵀ * X` is nonsingular. For a polynomial of degree below `n` that happens
exactly when there are at least `n` distinct abscissae.
-/

namespace LeastSquares

open Matrix Polynomial

section General

variable {ι κ : Type*} [Fintype ι] [Fintype κ] {K : Type*} [Field K]

/-- The sum of squared residuals of the fit `X *ᵥ a` to `y`. -/
def residual (X : Matrix ι κ K) (y : ι → K) (a : κ → K) : K := ∑ i, (y i - (X *ᵥ a) i) ^ 2

/-- The matrix of the normal equations. -/
def gram (X : Matrix ι κ K) : Matrix κ κ K := Xᵀ * X

/-- The right-hand side of the normal equations. -/
def moment (X : Matrix ι κ K) (y : ι → K) : κ → K := Xᵀ *ᵥ y

/-- `a` solves the normal equations. -/
def Normal (X : Matrix ι κ K) (y : ι → K) (a : κ → K) : Prop := gram X *ᵥ a = moment X y

variable {X : Matrix ι κ K} {y : ι → K} {a : κ → K}

/-- The residuals of a solution are orthogonal to every fit. -/
theorem Normal.orthogonal (normal : Normal X y a) (v : κ → K) :
    ∑ i, (y i - (X *ᵥ a) i) * (X *ᵥ v) i = 0 := by
  have zero : Xᵀ *ᵥ (y - X *ᵥ a) = 0 := by
    rw [Matrix.mulVec_sub, Matrix.mulVec_mulVec]
    exact sub_eq_zero.mpr normal.symm
  have adjoint : (y - X *ᵥ a) ⬝ᵥ (X *ᵥ v) = (Xᵀ *ᵥ (y - X *ᵥ a)) ⬝ᵥ v := by
    rw [Matrix.dotProduct_mulVec, Matrix.mulVec_transpose]
  rw [zero, zero_dotProduct] at adjoint
  exact adjoint

/-- Moving away from a solution adds the square of the change of the fit. -/
theorem Normal.residual_eq (normal : Normal X y a) (other : κ → K) :
    residual X y other = residual X y a + ∑ i, (X *ᵥ (other - a)) i ^ 2 := by
  have cross := normal.orthogonal (other - a)
  have expand : ∀ i, (y i - (X *ᵥ other) i) ^ 2 =
      (y i - (X *ᵥ a) i) ^ 2 + (X *ᵥ (other - a)) i ^ 2 -
        2 * ((y i - (X *ᵥ a) i) * (X *ᵥ (other - a)) i) := by
    intro i
    rw [Matrix.mulVec_sub, Pi.sub_apply]
    ring
  unfold residual
  rw [Finset.sum_congr rfl (fun i _ => expand i), Finset.sum_sub_distrib,
    Finset.sum_add_distrib, ← Finset.mul_sum, cross]
  ring

/-- Applying an inverse of the Gram matrix to the moments solves the equations. -/
theorem normal_of_inverse [DecidableEq κ] {inverse : Matrix κ κ K}
    (right : gram X * inverse = 1) : Normal X y (inverse *ᵥ moment X y) := by
  rw [Normal, Matrix.mulVec_mulVec, right, Matrix.one_mulVec]

/-- Data on the fit of `a` are fitted by `a`. -/
theorem normal_of_exact (exact : ∀ i, y i = (X *ᵥ a) i) : Normal X y a := by
  have same : y = X *ᵥ a := funext exact
  rw [Normal, moment, same, gram, Matrix.mulVec_mulVec]

/-- Reparametrised coefficients which solve their equations solve the original ones. -/
theorem Normal.of_reparametrised [DecidableEq κ] {D inverse : Matrix κ κ K}
    (left : inverse * Dᵀ = 1) (normal : Normal (X * D) y a) : Normal X y (D *ᵥ a) := by
  have scaled : Dᵀ *ᵥ (gram X *ᵥ (D *ᵥ a)) = Dᵀ *ᵥ moment X y := by
    have expand : gram (X * D) *ᵥ a = moment (X * D) y := normal
    simpa only [gram, moment, Matrix.transpose_mul, Matrix.mulVec_mulVec, Matrix.mul_assoc]
      using expand
  have cancelled := congrArg (inverse *ᵥ ·) scaled
  rw [Normal, Matrix.mulVec_mulVec]
  simpa only [Matrix.mulVec_mulVec, ← Matrix.mul_assoc, left, Matrix.one_mul, Matrix.one_mulVec]
    using cancelled

variable [LinearOrder K] [IsStrictOrderedRing K]

/-- `a` has the least sum of squared residuals. -/
def Minimises (X : Matrix ι κ K) (y : ι → K) (a : κ → K) : Prop :=
  ∀ other, residual X y a ≤ residual X y other

/-- A solution of the normal equations has the least residual. -/
theorem Normal.minimises (normal : Normal X y a) : Minimises X y a := by
  intro other
  rw [normal.residual_eq other]
  have positive : 0 ≤ ∑ i, (X *ᵥ (other - a)) i ^ 2 :=
    Finset.sum_nonneg fun i _ => sq_nonneg _
  exact le_add_of_nonneg_right positive

/-- Two minimisers have the same fit. -/
theorem Normal.fit_unique (normal : Normal X y a) {other : κ → K}
    (minimal : Minimises X y other) : X *ᵥ other = X *ᵥ a := by
  have bound := minimal a
  rw [normal.residual_eq other] at bound
  have positive : ∀ i ∈ Finset.univ, 0 ≤ (X *ᵥ (other - a)) i ^ 2 := fun i _ => sq_nonneg _
  have zero : ∑ i, (X *ᵥ (other - a)) i ^ 2 = 0 := by
    have nonneg := Finset.sum_nonneg positive
    linarith
  have terms := (Finset.sum_eq_zero_iff_of_nonneg positive).mp zero
  ext i
  have term := pow_eq_zero_iff (two_ne_zero) |>.mp (terms i (Finset.mem_univ i))
  rw [Matrix.mulVec_sub, Pi.sub_apply] at term
  exact sub_eq_zero.mp term

variable [DecidableEq κ]

/-- The Gram matrix is singular exactly when some nonzero coefficients fit zero. -/
theorem det_gram_eq_zero_iff : (gram X).det = 0 ↔ ∃ v, v ≠ 0 ∧ X *ᵥ v = 0 := by
  rw [← Matrix.exists_mulVec_eq_zero_iff]
  have kernel := Matrix.ker_mulVecLin_transpose_mul_self X
  have same : ∀ v, gram X *ᵥ v = 0 ↔ X *ᵥ v = 0 := by
    intro v
    have member := congrArg (v ∈ ·) kernel
    simp only [LinearMap.mem_ker, Matrix.mulVecLin_apply, eq_iff_iff] at member
    exact member
  simp only [same]

/-- With a nonsingular Gram matrix a solution is the only minimiser. -/
theorem Normal.eq_of_minimises (normal : Normal X y a) (regular : (gram X).det ≠ 0)
    {other : κ → K} (minimal : Minimises X y other) : other = a := by
  by_contra different
  apply regular
  rw [det_gram_eq_zero_iff]
  refine ⟨other - a, sub_ne_zero.mpr different, ?_⟩
  rw [Matrix.mulVec_sub, normal.fit_unique minimal, sub_self]

/-- With a nonsingular Gram matrix the equations have one solution. -/
theorem Normal.unique (normal : Normal X y a) (regular : (gram X).det ≠ 0) {other : κ → K}
    (also : Normal X y other) : other = a :=
  normal.eq_of_minimises regular also.minimises

end General

section Polynomials

variable {ι : Type*} {K : Type*} [Field K]

/-- The design matrix of a polynomial with `n` coefficients. -/
def powers (x : ι → K) (n : Nat) : Matrix ι (Fin n) K := Matrix.of fun i j => x i ^ j.val

/-- A polynomial evaluated at a sample. -/
theorem powers_mulVec (x : ι → K) {n : Nat} (a : Fin n → K) (i : ι) :
    (powers x n *ᵥ a) i = ∑ j, a j * x i ^ j.val := by
  change ∑ j, x i ^ j.val * a j = _
  exact Finset.sum_congr rfl fun j _ => mul_comm _ _

/-- Abscissae in another unit. -/
theorem powers_div (x : ι → K) (n : Nat) (unit : K) :
    powers (fun i => x i / unit) n =
      powers x n * (Matrix.diagonal fun j => (unit ^ j.val)⁻¹ : Matrix (Fin n) (Fin n) K) := by
  refine Matrix.ext fun i j => ?_
  calc (x i / unit) ^ j.val = x i ^ j.val * (unit ^ j.val)⁻¹ := by
        rw [div_pow, div_eq_mul_inv]
    _ = (powers x n * Matrix.diagonal fun j : Fin n => (unit ^ j.val)⁻¹) i j :=
        (Matrix.mul_diagonal (fun j : Fin n => (unit ^ j.val)⁻¹) (powers x n) i j).symm

variable [Fintype ι]

/-- The entries of the normal matrix are the moments of the abscissae. -/
theorem gram_powers_apply (x : ι → K) {n : Nat} (j k : Fin n) :
    gram (powers x n) j k = ∑ i, x i ^ (j.val + k.val) := by
  change ∑ i, x i ^ j.val * x i ^ k.val = _
  exact Finset.sum_congr rfl fun i _ => (pow_add _ _ _).symm

/-- The right side of the normal equations. -/
theorem moment_powers_apply (x y : ι → K) {n : Nat} (j : Fin n) :
    moment (powers x n) y j = ∑ i, x i ^ j.val * y i := rfl

/-- Coefficients over abscissae in another unit, converted back. -/
theorem Normal.of_unit {x y : ι → K} {n : Nat} {unit : K} (nonzero : unit ≠ 0)
    {a : Fin n → K} (normal : Normal (powers (fun i => x i / unit) n) y a) :
    Normal (powers x n) y fun j => a j / unit ^ j.val := by
  rw [powers_div] at normal
  have left : (Matrix.diagonal fun j : Fin n => unit ^ j.val) *
      (Matrix.diagonal fun j : Fin n => (unit ^ j.val)⁻¹)ᵀ = 1 := by
    rw [Matrix.diagonal_transpose, Matrix.diagonal_mul_diagonal, ← Matrix.diagonal_one]
    congr 1
    ext j
    exact mul_inv_cancel₀ (pow_ne_zero _ nonzero)
  have solution := normal.of_reparametrised left
  have same : (Matrix.diagonal fun j : Fin n => (unit ^ j.val)⁻¹) *ᵥ a =
      fun j => a j / unit ^ j.val := by
    ext j
    rw [Matrix.mulVec_diagonal, div_eq_inv_mul]
  rwa [same] at solution

variable [DecidableEq K]

/-- With fewer distinct abscissae than coefficients, the polynomial vanishing at
all of them is a nonzero fit of zero. -/
theorem exists_vanishing {x : ι → K} {n : Nat} (few : (Finset.univ.image x).card < n) :
    ∃ v, v ≠ 0 ∧ powers x n *ᵥ v = 0 := by
  let p : K[X] := ∏ d ∈ Finset.univ.image x, (X - C d)
  have degree : p.natDegree = (Finset.univ.image x).card :=
    natDegree_finsetProd_X_sub_C_eq_card _ _
  refine ⟨fun j => p.coeff j.val, ?_, ?_⟩
  · intro zero
    have leading := congrFun zero ⟨p.natDegree, by omega⟩
    have monic : p.Monic := monic_prod_of_monic _ _ fun d _ => monic_X_sub_C d
    exact one_ne_zero (monic.coeff_natDegree.symm.trans leading)
  · ext i
    have root : p.eval (x i) = 0 := by
      rw [eval_prod]
      exact Finset.prod_eq_zero (Finset.mem_image_of_mem x (Finset.mem_univ i)) (by simp)
    rw [powers_mulVec, Pi.zero_apply, ← root,
      eval_eq_sum_range' (show p.natDegree < n by omega), Finset.sum_range]

/-- A polynomial with `n` coefficients and `n` roots is zero. -/
theorem eq_zero_of_vanishing {x : ι → K} {n : Nat} (enough : n ≤ (Finset.univ.image x).card)
    {v : Fin n → K} (zero : powers x n *ᵥ v = 0) : v = 0 := by
  let p : K[X] := ∑ j : Fin n, C (v j) * X ^ j.val
  have coefficient : ∀ j : Fin n, p.coeff j.val = v j := by
    intro j
    simp only [p, finsetSum_coeff, coeff_C_mul, coeff_X_pow, mul_ite, mul_one, mul_zero]
    rw [Finset.sum_eq_single j]
    · simp
    · intro other _ different
      exact if_neg fun equal => different (Fin.ext equal.symm)
    · simp
  have low : p.degree < n := by
    refine (degree_sum_le _ _).trans_lt ((Finset.sup_lt_iff (WithBot.bot_lt_coe n)).mpr ?_)
    intro j _
    refine (degree_C_mul_X_pow_le j.val (v j)).trans_lt ?_
    exact Nat.cast_lt.mpr j.isLt
  have roots : ∀ d ∈ Finset.univ.image x, p.eval d = 0 := by
    intro d member
    obtain ⟨i, _, rfl⟩ := Finset.mem_image.mp member
    have value := congrFun zero i
    rw [powers_mulVec] at value
    simpa [p, eval_finsetSum] using value
  have pZero : p = 0 := by
    apply eq_zero_of_degree_lt_of_eval_finset_eq_zero (Finset.univ.image x) _ roots
    exact low.trans_le (Nat.cast_le.mpr enough)
  ext j
  rw [← coefficient j, pZero]
  rfl

variable [LinearOrder K] [IsStrictOrderedRing K]

/-- The Gram matrix of a polynomial fit is nonsingular exactly when there are as
many distinct abscissae as coefficients. -/
theorem det_gram_powers_ne_zero_iff (x : ι → K) (n : Nat) :
    (gram (powers x n)).det ≠ 0 ↔ n ≤ (Finset.univ.image x).card := by
  rw [Ne, det_gram_eq_zero_iff, ← not_lt, not_iff_not]
  constructor
  · rintro ⟨v, nonzero, zero⟩
    by_contra enough
    exact nonzero (eq_zero_of_vanishing (not_lt.mp enough) zero)
  · exact exists_vanishing

end Polynomials

end LeastSquares
