import MotorStand.Imperative.Meets
import MotorStand.Numerical.Elementwise

/-!
# Calls of the matrix library

What a call does to a set of matrix objects, the same object as argument and result included, is
what it says about matrices.
-/

namespace MotorStand

open Imperative Imperative.Exec Imperative.Heap

/-! ## Matrices -/

/-- A matrix with its dimensions. What is outside of them does not count. -/
structure Shaped where
  rows : Nat
  cols : Nat
  entries : Nat → Nat → ℚ

/-- The entries within dimensions. -/
def within (entries : Nat → Nat → ℚ) (m n : Nat) : Matrix (Fin m) (Fin n) ℚ :=
  Matrix.of fun i j => entries i.val j.val

namespace Shaped

variable (l r a : Shaped)

/-- The matrix in the dimensions. -/
def matrix : Matrix (Fin a.rows) (Fin a.cols) ℚ := within a.entries a.rows a.cols

/-- Both have the same numbers of rows and columns. -/
def SameShape : Prop := l.rows = r.rows ∧ l.cols = r.cols

instance : Decidable (l.SameShape r) := inferInstanceAs (Decidable (_ ∧ _))

/-- Entry by entry. -/
def combine (op : ℚ → ℚ → ℚ) : Shaped :=
  ⟨l.rows, l.cols, fun i j => op (l.entries i j) (r.entries i j)⟩

/-- Every entry times a scalar. -/
def scale (scalar : ℚ) : Shaped := ⟨a.rows, a.cols, fun i j => a.entries i j * scalar⟩

/-- The product of matrices. -/
def product : Shaped :=
  ⟨l.rows, r.cols, fun i j => ∑ k : Fin l.cols, l.entries i k * r.entries k j⟩

/-- Rows and columns exchanged. -/
def transpose : Shaped := ⟨a.cols, a.rows, fun i j => a.entries j i⟩

/-- All entries zero. -/
def zero : Shaped := ⟨a.rows, a.cols, fun _ _ => 0⟩

/-- Ones on the diagonal. -/
def identity : Shaped := ⟨a.rows, a.cols, fun i j => if i = j then 1 else 0⟩

/-- The inverse of a square matrix. -/
noncomputable def inverse : Shaped :=
  ⟨a.rows, a.rows, fun i j => if inside : i < a.rows ∧ j < a.rows then
    (within a.entries a.rows a.rows)⁻¹ ⟨i, inside.1⟩ ⟨j, inside.2⟩ else 0⟩

/-- A square matrix has an inverse, or it is singular. -/
noncomputable def invert : Except String Shaped := do
  demand (a.rows = a.cols) "matrix must be square"
  demand ((within a.entries a.rows a.rows).det ≠ 0) singularMessage
  return a.inverse

/-- The inverse as a square matrix. -/
theorem inverse_matrix : a.inverse.matrix = (within a.entries a.rows a.rows)⁻¹ := by
  ext i j
  exact dif_pos ⟨i.isLt, j.isLt⟩

end Shaped

/-! ## Calls -/

/-- A call of the matrix library on the objects `ι`. -/
inductive MatCall (ι : Type) where
  | matadd (l r res : ι)
  | matsub (l r res : ι)
  | matsca (a as' : ι) (scalar : ℚ)
  | matmul (l r res : ι)
  | mattrn (a at' : ι)
  | mattrnInplace (a : ι)
  | matinv (a ainv : ι)
  | matinvInplace (a : ι)
  | matidn (a : ι)
  | matzro (a : ι)
  | matdup (a ad : ι)

variable {ι : Type}

/-- The call, on the objects in memory. -/
def MatCall.run (objects : ι → Mat) : MatCall ι → Exec (Heap ℚ) Mat
  | .matadd l r res => MotorStand.matadd (objects l) (objects r) (objects res)
  | .matsub l r res => MotorStand.matsub (objects l) (objects r) (objects res)
  | .matsca a as' scalar => MotorStand.matsca (objects a) (objects as') scalar
  | .matmul l r res => MotorStand.matmul (objects l) (objects r) (objects res)
  | .mattrn a at' => MotorStand.mattrn (objects a) (objects at')
  | .mattrnInplace a => MotorStand.mattrnInplace (objects a)
  | .matinv a ainv => MotorStand.matinv (objects a) (objects ainv)
  | .matinvInplace a => MotorStand.matinvInplace (objects a)
  | .matidn a => MotorStand.matidn (objects a)
  | .matzro a => MotorStand.matzro (objects a)
  | .matdup a ad => MotorStand.matdup (objects a) (objects ad)

/-- The assertion of the functions which work entry by entry. -/
def dimensionsMessage : String := "matrix dimensions must match"

/-- The matrices with one of them replaced. -/
def place [DecidableEq ι] (matrices : ι → Shaped) (res : ι) (value : Shaped) : ι → Shaped :=
  Function.update matrices res value

/-- What a call is to do, and which assertion it stops at otherwise. -/
noncomputable def MatCall.eval [DecidableEq ι] (matrices : ι → Shaped) :
    MatCall ι → Except String (ι → Shaped)
  | .matadd l r res => do
      demand ((matrices l).SameShape (matrices r)) dimensionsMessage
      demand ((matrices l).SameShape (matrices res)) dimensionsMessage
      return place matrices res ((matrices l).combine (matrices r) fun left right => left + right)
  | .matsub l r res => do
      demand ((matrices l).SameShape (matrices r)) dimensionsMessage
      demand ((matrices l).SameShape (matrices res)) dimensionsMessage
      return place matrices res ((matrices l).combine (matrices r) fun left right => left - right)
  | .matsca a as' scalar => do
      demand ((matrices a).SameShape (matrices as')) dimensionsMessage
      return place matrices as' ((matrices a).scale scalar)
  | .matmul l r res => do
      demand ((matrices l).cols = (matrices r).rows)
        "matrix l's column count must match matrix r's row count"
      demand ((matrices l).rows = (matrices res).rows ∧ (matrices r).cols = (matrices res).cols)
        "matrix res's columns must match l's columns and it's rows must match r's rows"
      demand (l ≠ res ∧ r ≠ res) "res cannot be l or r"
      return place matrices res ((matrices l).product (matrices r))
  | .mattrn a at' => do
      demand ((matrices a).rows = (matrices at').cols ∧ (matrices a).cols = (matrices at').rows)
        "matrix a rows must match at cols and matrix a cols must match at rows"
      demand (a ≠ at')
        "matrix at and a must be different, see mattrn_inplace for in-place transposition"
      return place matrices at' (matrices a).transpose
  | .mattrnInplace a => do
      demand ((matrices a).rows = (matrices a).cols) "matrix a must be square"
      return place matrices a (matrices a).transpose
  | .matinv a ainv => do
      demand ((matrices a).SameShape (matrices ainv)) dimensionsMessage
      demand (a ≠ ainv) "matrix a and ainv cannot be the same, see matinv_inplace instead"
      let inverse ← (matrices a).invert
      return place matrices ainv inverse
  | .matinvInplace a => do
      let inverse ← (matrices a).invert
      return place matrices a inverse
  | .matidn a => return place matrices a (matrices a).identity
  | .matzro a => return place matrices a (matrices a).zero
  | .matdup a ad => do
      demand ((matrices a).SameShape (matrices ad)) dimensionsMessage
      return place matrices ad (matrices a)

/-! ## Inverses -/

section Inverses

variable {a ainv : Mat} {shaped : Shaped} {heap : Heap ℚ}

/-- A matrix with other names for its dimensions. -/
theorem source_within {entries : Nat → Nat → ℚ} {m n p q : Nat}
    (source : a.Source heap (within entries m n)) (rows : m = p) (cols : n = q) :
    a.Source heap (within entries p q) := by
  subst rows cols
  exact source

/-- An object of the same shape under other names of its sizes. -/
theorem object_within {m n p q : Nat} (object : a.Object heap m n) (rows : m = p) (cols : n = q) :
    a.Object heap p q := by
  subst rows cols
  exact object

/-- A matrix which is not square has no inverse of its own shape. -/
theorem matinv_fails_other (dimensions : a.rows = ainv.rows ∧ a.cols = ainv.cols)
    (apart : a.vals ≠ ainv.vals) (other : a.rows ≠ a.cols) :
    matinv a ainv heap = .error (.assertion "matrix must be square") := by
  apply bind_of_fails
  apply (bind_of_returns (require_returns _ dimensions)).trans
  apply (bind_of_returns (require_returns _ apart)).trans
  exact bind_of_fails (require_fails other)

/-- `matinv` meets the inverse, or stops at its assertion. -/
theorem matinv_inverts (source : a.Source heap shaped.matrix)
    (target : ainv.Object heap shaped.rows shaped.cols) (apart : a.vals ≠ ainv.vals)
    (positive : 0 < shaped.rows) :
    (matinv a ainv).Meets heap shaped.invert fun value _ after =>
      value = shaped.inverse ∧ ainv.Source after value.matrix ∧ ainv.Writes heap after := by
  have rows := source.holds.rows
  have cols := source.holds.cols
  apply meets_demand
  · intro other
    apply matinv_fails_other ⟨rows.trans target.rows.symm, cols.trans target.cols.symm⟩ apart
    rwa [rows, cols]
  intro square
  have here := source_within source rfl square.symm
  have result := object_within target rfl square.symm
  obtain ⟨contents, cells⟩ := Mat.exists_cells result.rows result.cols result.size
  apply meets_demand
  · intro singular
    exact matinv_fails here.holds cells apart positive here.small (not_not.mp singular)
  intro regular
  apply meets_ok
  apply (matinv_ensures here.holds cells apart positive here.small regular).imp
  rintro _ after ⟨_, writes, B, held, right⟩
  refine ⟨rfl, ?_, writes⟩
  rw [shaped.inverse_matrix, Matrix.inv_eq_right_inv right]
  exact ⟨held, target.old.trans_le writes.limit, here.small⟩

/-- So does `_matinv_inplace`. -/
theorem matinvInplace_inverts (source : a.Source heap shaped.matrix) (positive : 0 < shaped.rows) :
    (matinvInplace a).Meets heap shaped.invert fun value _ after =>
      value = shaped.inverse ∧ a.Source after value.matrix ∧ a.Writes heap after := by
  have rows := source.holds.rows
  have cols := source.holds.cols
  apply meets_demand
  · intro other
    rw [matinvInplace_eq, replaceBy]
    apply (allocMat_ensures a.rows a.cols heap).bind_fails
    rintro _ fresh ⟨rfl, _⟩
    have oblong : a.rows ≠ a.cols := by rwa [rows, cols]
    have dimensions : a.rows = (⟨a.rows, a.cols, heap.limit⟩ : Mat).rows ∧
        a.cols = (⟨a.rows, a.cols, heap.limit⟩ : Mat).cols := ⟨rfl, rfl⟩
    exact bind_of_fails (matinv_fails_other dimensions source.old.ne oblong)
  intro square
  have here := source_within source rfl square.symm
  apply meets_demand
  · intro singular
    exact matinvInplace_fails here positive (not_not.mp singular)
  intro regular
  apply meets_ok
  apply (matinvInplace_ensures here positive regular).imp
  rintro _ after ⟨_, inverse, writes⟩
  refine ⟨rfl, ?_, writes⟩
  rw [shaped.inverse_matrix]
  exact inverse

end Inverses

/-! ## Objects in memory -/

/-- The objects hold the matrices. No two of them share their memory. -/
structure Represents (objects : ι → Mat) (matrices : ι → Shaped) (heap : Heap ℚ) : Prop where
  apart : ∀ i j, (objects i).vals = (objects j).vals → i = j
  source : ∀ i, (objects i).Source heap (matrices i).matrix
  positive : ∀ i, 0 < (matrices i).rows ∧ 0 < (matrices i).cols

variable {objects : ι → Mat} {matrices : ι → Shaped} {heap after : Heap ℚ} {value : Shaped}

namespace Represents

variable (represents : Represents objects matrices heap)

include represents

/-- An object has the rows of its matrix. -/
theorem rows (i : ι) : (objects i).rows = (matrices i).rows := (represents.source i).holds.rows

/-- An object has the columns of its matrix. -/
theorem cols (i : ι) : (objects i).cols = (matrices i).cols := (represents.source i).holds.cols

/-- Objects in the same memory are the same. -/
theorem vals_iff (i j : ι) : (objects i).vals = (objects j).vals ↔ i = j :=
  ⟨represents.apart i j, congrArg fun i => (objects i).vals⟩

/-- The asserted equality of dimensions is the one of the matrices. -/
theorem dimensions_iff (i j : ι) :
    ((objects i).rows = (objects j).rows ∧ (objects i).cols = (objects j).cols) ↔
      (matrices i).SameShape (matrices j) := by
  rw [represents.rows, represents.rows, represents.cols, represents.cols]
  rfl

/-- An object, seen with dimensions which are equal to its own. -/
theorem source_within {m n : Nat} (i : ι) (rows : (matrices i).rows = m)
    (cols : (matrices i).cols = n) :
    (objects i).Source heap (within (matrices i).entries m n) :=
  MotorStand.source_within (represents.source i) rows cols

/-- A square matrix, seen with its number of rows twice. -/
theorem source_square {a : ι} (square : (matrices a).rows = (matrices a).cols) :
    (objects a).Source heap (within (matrices a).entries (matrices a).rows (matrices a).rows) :=
  represents.source_within a rfl square.symm

variable [DecidableEq ι]

/-- What is left when a result has been written. -/
theorem place {res : ι} (source : (objects res).Source after value.matrix)
    (writes : (objects res).Writes heap after) (positive : 0 < value.rows ∧ 0 < value.cols) :
    Represents objects (place matrices res value) after where
  apart := represents.apart
  source := by
    intro i
    by_cases same : i = res
    · subst same
      rw [MotorStand.place, Function.update_self]
      exact source
    · rw [MotorStand.place, Function.update_of_ne same]
      exact (represents.source i).of_writes writes fun equal => same (represents.apart i res equal)
  positive := by
    intro i
    by_cases same : i = res
    · subst same
      rw [MotorStand.place, Function.update_self]
      exact positive
    · rw [MotorStand.place, Function.update_of_ne same]
      exact represents.positive i

/-! ## The calls, one by one -/

/-- Calls which work entry by entry. -/
theorem elementwise_meets (op : ℚ → ℚ → ℚ) (l r res : ι) :
    (elementwise op (objects l) (objects r) (objects res)).Meets heap (do
        demand ((matrices l).SameShape (matrices r)) dimensionsMessage
        demand ((matrices l).SameShape (matrices res)) dimensionsMessage
        return MotorStand.place matrices res ((matrices l).combine (matrices r) op))
      fun next _ => Represents objects next := by
  apply meets_require (represents.dimensions_iff l r)
  intro arguments
  apply meets_require (represents.dimensions_iff l res)
  intro result
  have right := represents.source_within r arguments.1.symm arguments.2.symm
  have target := (represents.source_within res result.1.symm result.2.symm).object
  apply meets_ok
  apply (elementwise_ensures op (represents.source l) right target).of_require.of_require.imp
  rintro _ after ⟨_, source, writes⟩
  exact represents.place source writes (represents.positive l)

/-- Calls of `matsca`. -/
theorem matsca_meets (a as' : ι) (scalar : ℚ) :
    (MatCall.run objects (.matsca a as' scalar)).Meets heap
      (MatCall.eval matrices (.matsca a as' scalar)) fun next _ => Represents objects next := by
  apply meets_require (represents.dimensions_iff a as')
  intro same
  have target := (represents.source_within as' same.1.symm same.2.symm).object
  apply meets_ok
  apply (matsca_ensures scalar (represents.source a) target).of_require.imp
  rintro _ after ⟨_, source, writes⟩
  exact represents.place source writes (represents.positive a)

/-- Calls of `matdup`. -/
theorem matdup_meets (a ad : ι) :
    (MatCall.run objects (.matdup a ad)).Meets heap (MatCall.eval matrices (.matdup a ad))
      fun next _ => Represents objects next := by
  apply meets_require (represents.dimensions_iff a ad)
  intro same
  have target := (represents.source_within ad same.1.symm same.2.symm).object
  apply meets_ok
  apply (matdup_copies (represents.source a) target).of_require.imp
  rintro _ after ⟨_, source, writes⟩
  exact represents.place source writes (represents.positive a)

/-- Calls of `matmul`: a factor cannot be the result. -/
theorem matmul_meets (l r res : ι) :
    (MatCall.run objects (.matmul l r res)).Meets heap (MatCall.eval matrices (.matmul l r res))
      fun next _ => Represents objects next := by
  have innerIff : (objects l).cols = (objects r).rows ↔ (matrices l).cols = (matrices r).rows := by
    rw [represents.cols, represents.rows]
  have outerIff : ((objects l).rows = (objects res).rows ∧ (objects r).cols = (objects res).cols) ↔
      ((matrices l).rows = (matrices res).rows ∧ (matrices r).cols = (matrices res).cols) := by
    rw [represents.rows, represents.rows, represents.cols, represents.cols]
  have apartIff : ((objects l).vals ≠ (objects res).vals ∧ (objects r).vals ≠ (objects res).vals) ↔
      (l ≠ res ∧ r ≠ res) := by
    rw [Ne, Ne, represents.vals_iff, represents.vals_iff]
  apply meets_require innerIff
  intro inner
  apply meets_require outerIff
  intro outer
  apply meets_require apartIff
  intro apart
  have right := represents.source_within r inner.symm rfl
  have target := (represents.source_within res outer.1.symm outer.2.symm).object
  obtain ⟨apartLeft, apartRight⟩ := apartIff.mpr apart
  apply meets_ok
  have multiplies := matmul_ensures (represents.source l) right target apartLeft apartRight
  apply multiplies.of_require.of_require.of_require.imp
  rintro _ after ⟨_, source, writes⟩
  exact represents.place source writes ⟨(represents.positive l).1, (represents.positive r).2⟩

/-- Calls of `mattrn`. -/
theorem mattrn_meets (a at' : ι) :
    (MatCall.run objects (.mattrn a at')).Meets heap (MatCall.eval matrices (.mattrn a at'))
      fun next _ => Represents objects next := by
  have dimensionsIff :
      ((objects a).rows = (objects at').cols ∧ (objects a).cols = (objects at').rows) ↔
        ((matrices a).rows = (matrices at').cols ∧ (matrices a).cols = (matrices at').rows) := by
    rw [represents.rows, represents.rows, represents.cols, represents.cols]
  have apartIff : (objects a).vals ≠ (objects at').vals ↔ a ≠ at' := by
    rw [Ne, represents.vals_iff]
  apply meets_require dimensionsIff
  intro dimensions
  apply meets_require apartIff
  intro apart
  have target := (represents.source_within at' dimensions.2.symm dimensions.1.symm).object
  apply meets_ok
  have transposes := mattrn_ensures (represents.source a) target (apartIff.mpr apart)
  apply transposes.of_require.of_require.imp
  rintro _ after ⟨_, source, writes⟩
  exact represents.place source writes (represents.positive a).symm

/-- Calls of `mattrn_inplace`. -/
theorem mattrnInplace_meets (a : ι) :
    (MatCall.run objects (.mattrnInplace a)).Meets heap (MatCall.eval matrices (.mattrnInplace a))
      fun next _ => Represents objects next := by
  have squareIff : (objects a).rows = (objects a).cols ↔ (matrices a).rows = (matrices a).cols := by
    rw [represents.rows, represents.cols]
  apply meets_require squareIff
  intro square
  apply meets_ok
  apply (mattrnInplace_ensures (represents.source_square square)).of_require.imp
  rintro _ after ⟨_, source, writes⟩
  have positive := (represents.positive a).symm
  apply represents.place _ writes positive
  change (objects a).Source after (within _ (matrices a).cols (matrices a).rows)
  rw [← square]
  exact source

/-- Calls of `matidn`. -/
theorem matidn_meets (a : ι) :
    (MatCall.run objects (.matidn a)).Meets heap (MatCall.eval matrices (.matidn a))
      fun next _ => Represents objects next := by
  apply meets_ok
  apply (matidn_fills (represents.source a).object).imp
  rintro _ after ⟨_, source, writes⟩
  exact represents.place source writes (represents.positive a)

/-- Calls of `matzro`. -/
theorem matzro_meets (a : ι) :
    (MatCall.run objects (.matzro a)).Meets heap (MatCall.eval matrices (.matzro a))
      fun next _ => Represents objects next := by
  apply meets_ok
  apply (matzro_fills (represents.source a).object).imp
  rintro _ after ⟨_, source, writes⟩
  exact represents.place source writes (represents.positive a)

/-- Calls of `matinv`. -/
theorem matinv_meets (a ainv : ι) :
    (MatCall.run objects (.matinv a ainv)).Meets heap (MatCall.eval matrices (.matinv a ainv))
      fun next _ => Represents objects next := by
  have apartIff : (objects a).vals ≠ (objects ainv).vals ↔ a ≠ ainv := by
    rw [Ne, represents.vals_iff]
  apply meets_demand
  · intro different
    apply bind_of_fails
    exact bind_of_fails (require_fails (mt (represents.dimensions_iff a ainv).mp different))
  intro same
  have first : (require ((objects a).rows = (objects ainv).rows ∧
      (objects a).cols = (objects ainv).cols) dimensionsMessage : Exec (Heap ℚ) Unit) heap =
        .ok ((), heap) :=
    require_returns dimensionsMessage ((represents.dimensions_iff a ainv).mpr same)
  apply meets_demand
  · intro aliased
    apply bind_of_fails
    apply (bind_of_returns first).trans
    exact bind_of_fails (require_fails (mt apartIff.mp aliased))
  intro apart
  have target := (represents.source_within ainv same.1.symm same.2.symm).object
  have positive := (represents.positive a).1
  apply meets_of_then
  apply (matinv_inverts (represents.source a) target (apartIff.mpr apart) positive).imp
  rintro _ _ after ⟨rfl, source, writes⟩
  exact represents.place source writes ⟨positive, positive⟩

/-- Calls of `_matinv_inplace`. -/
theorem matinvInplace_meets (a : ι) :
    (MatCall.run objects (.matinvInplace a)).Meets heap (MatCall.eval matrices (.matinvInplace a))
      fun next _ => Represents objects next := by
  have positive := (represents.positive a).1
  apply meets_of_then
  apply (matinvInplace_inverts (represents.source a) positive).imp
  rintro _ _ after ⟨rfl, source, writes⟩
  exact represents.place source writes ⟨positive, positive⟩

end Represents

variable [DecidableEq ι]

/-- Every call does what it says, or stops at the assertion which it says. -/
theorem MatCall.run_meets (represents : Represents objects matrices heap) (call : MatCall ι) :
    (call.run objects).Meets heap (call.eval matrices) fun next _ => Represents objects next := by
  cases call with
  | matadd l r res => exact represents.elementwise_meets (fun left right => left + right) l r res
  | matsub l r res => exact represents.elementwise_meets (fun left right => left - right) l r res
  | matsca a as' scalar => exact represents.matsca_meets a as' scalar
  | matmul l r res => exact represents.matmul_meets l r res
  | mattrn a at' => exact represents.mattrn_meets a at'
  | mattrnInplace a => exact represents.mattrnInplace_meets a
  | matinv a ainv => exact represents.matinv_meets a ainv
  | matinvInplace a => exact represents.matinvInplace_meets a
  | matidn a => exact represents.matidn_meets a
  | matzro a => exact represents.matzro_meets a
  | matdup a ad => exact represents.matdup_meets a ad

end MotorStand
