import MotorStand.Numerical.Calls
import MotorStand.Numerical.Determinant

/-!
# Scripts over the matrix library

A script calls the library any number of times and asks for determinants and flags in between.
What it is answered is what the matrices say, up to the first assertion which does not hold.
-/

namespace MotorStand

open Imperative Imperative.Exec Imperative.Heap

/-- A call, or a question. -/
inductive MatStep (ι : Type) where
  | calls (call : MatCall ι)
  | matdet (a : ι)
  | matinvSafe (a ainv : ι)

variable {ι : Type}

/-- A step, and what it is answered: a determinant, or the flag. -/
def MatStep.run (objects : ι → Mat) : MatStep ι → Exec (Heap ℚ) (Option ℚ)
  | .calls call => do
      let _ ← call.run objects
      return none
  | .matdet a => do
      let value ← MotorStand.matdet (objects a)
      return some value
  | .matinvSafe a ainv => do
      let result ← MotorStand.matinvSafe (objects a) (objects ainv)
      return some result.2

/-- The steps, one after the other. -/
def runScript (objects : ι → Mat) : List (MatStep ι) → Exec (Heap ℚ) (List (Option ℚ))
  | [] => return []
  | step :: rest => do
      let answer ← step.run objects
      let answers ← runScript objects rest
      return answer :: answers

/-- The determinant of a square matrix; other matrices have the value 0. -/
noncomputable def Shaped.determinant (a : Shaped) : ℚ :=
  if a.rows = a.cols then (within a.entries a.rows a.rows).det else 0

variable [DecidableEq ι]

/-- What a step is to answer and to do. -/
noncomputable def MatStep.eval (matrices : ι → Shaped) :
    MatStep ι → Except String (Option ℚ × (ι → Shaped))
  | .calls call => do
      let matrices ← call.eval matrices
      return (none, matrices)
  | .matdet a => return (some (matrices a).determinant, matrices)
  | .matinvSafe a ainv => do
      demand ((matrices a).SameShape (matrices ainv)) dimensionsMessage
      demand (a ≠ ainv) "matrix a and ainv cannot be the same, see matinv_inplace instead"
      demand ((matrices a).rows = (matrices a).cols) "matrix must be square"
      if (matrices a).determinant = 0 then return (some 0, matrices)
      else return (some 1, place matrices ainv (matrices a).inverse)

/-- What the steps are to answer and to do, one after the other. -/
noncomputable def evalScript (matrices : ι → Shaped) :
    List (MatStep ι) → Except String (List (Option ℚ) × (ι → Shaped))
  | [] => return ([], matrices)
  | step :: rest => do
      let (answer, matrices) ← step.eval matrices
      let (answers, matrices) ← evalScript matrices rest
      return (answer :: answers, matrices)

/-! ## Questions -/

variable {objects : ι → Mat} {matrices : ι → Shaped} {heap after : Heap ℚ}

namespace Represents

variable (represents : Represents objects matrices heap)

include represents

omit [DecidableEq ι] in
/-- What touches no matrix leaves all of them. -/
theorem of_frame (frame : Frame (fun _ => False) heap after) : Represents objects matrices after where
  apart := represents.apart
  source i := (represents.source i).of_frame frame not_false
  positive := represents.positive

omit [DecidableEq ι] in
/-- `matdet` finds the determinant and changes no object. -/
theorem matdet_ensures (a : ι) :
    (matdet (objects a)).Ensures heap fun value after =>
      value = (matrices a).determinant ∧ Represents objects matrices after := by
  by_cases square : (matrices a).rows = (matrices a).cols
  · have source := represents.source_square square
    apply (MotorStand.matdet_ensures source.holds (represents.positive a).1 source.small).imp
    rintro value after ⟨determinant, frame⟩
    rw [Shaped.determinant, if_pos square]
    exact ⟨determinant, represents.of_frame frame⟩
  · have other : (objects a).rows ≠ (objects a).cols := by rwa [represents.rows, represents.cols]
    rw [matdet, if_pos other, Shaped.determinant, if_neg square]
    exact ensures_pure ⟨rfl, represents⟩

/-- `matinv_safe` answers whether the determinant is zero. -/
theorem matinvSafe_meets (a ainv : ι) :
    (MatStep.run objects (.matinvSafe a ainv)).Meets heap
      (MatStep.eval matrices (.matinvSafe a ainv)) fun next answer after =>
        next.1 = answer ∧ Represents objects next.2 after := by
  have apartIff : (objects a).vals ≠ (objects ainv).vals ↔ a ≠ ainv := by
    rw [Ne, represents.vals_iff]
  have squareIff : (objects a).rows = (objects a).cols ↔ (matrices a).rows = (matrices a).cols := by
    rw [represents.rows, represents.cols]
  have positive := (represents.positive a).1
  rw [MatStep.run, matinvSafe]
  simp only [bind_assoc]
  apply meets_require (represents.dimensions_iff a ainv)
  intro same
  apply meets_require apartIff
  intro apart
  apply meets_require squareIff
  intro square
  have source := represents.source_square square
  have target := represents.source_within ainv same.1.symm (same.2.symm.trans square.symm)
  have determinant : (matrices a).determinant = (within _ _ _).det := if_pos square
  have inverts := (matinvSafe_ensures source.holds target.holds (apartIff.mpr apart) positive
    source.small).of_require.of_require.of_require
  by_cases singular : (within (matrices a).entries (matrices a).rows (matrices a).rows).det = 0
  · rw [determinant, if_pos singular]
    apply meets_ok
    apply inverts.bind
    rintro _ after (⟨_, _, B, _, right⟩ | ⟨rfl, _, frame⟩)
    · exact absurd singular (Matrix.det_ne_zero_of_right_inverse right)
    · exact ensures_pure ⟨rfl, represents.of_frame frame⟩
  · rw [determinant, if_neg singular]
    apply meets_ok
    apply inverts.bind
    rintro _ after (⟨rfl, writes, B, held, right⟩ | ⟨_, zero, _⟩)
    · have inverse : (objects ainv).Source after (matrices a).inverse.matrix := by
        rw [Shaped.inverse_matrix, Matrix.inv_eq_right_inv right]
        exact ⟨held, target.old.trans_le writes.limit, target.small⟩
      exact ensures_pure ⟨rfl, represents.place inverse writes ⟨positive, positive⟩⟩
    · exact absurd zero singular

end Represents

/-- Every step answers and does what it says, or stops at the assertion which it says. -/
theorem MatStep.run_meets (represents : Represents objects matrices heap) (step : MatStep ι) :
    (step.run objects).Meets heap (step.eval matrices) fun next answer after =>
      next.1 = answer ∧ Represents objects next.2 after := by
  cases step with
  | calls call =>
      apply (call.run_meets represents).bind
      intro next _ after kept
      exact meets_ok (ensures_pure ⟨rfl, kept⟩)
  | matdet a =>
      apply meets_ok
      apply (represents.matdet_ensures a).bind
      rintro value after ⟨rfl, kept⟩
      exact ensures_pure ⟨rfl, kept⟩
  | matinvSafe a ainv => exact represents.matinvSafe_meets a ainv

/-- Any script is answered what the matrices say, and leaves them as it says, or stops at the
first assertion which does not hold. -/
theorem runScript_meets (script : List (MatStep ι))
    (represents : Represents objects matrices heap) :
    (runScript objects script).Meets heap (evalScript matrices script) fun next answers after =>
      next.1 = answers ∧ Represents objects next.2 after := by
  induction script generalizing matrices heap with
  | nil => exact meets_ok (ensures_pure ⟨rfl, represents⟩)
  | cons step rest ih =>
      apply (step.run_meets represents).bind
      rintro ⟨_, next⟩ answer after ⟨rfl, kept⟩
      apply (ih kept).bind
      rintro ⟨_, last⟩ answers final ⟨rfl, done⟩
      exact meets_ok (ensures_pure ⟨rfl, done⟩)

/-- The matrices `[1 2; 3 4]` and `[0 1; 1 0]`. -/
def twoMatrices : Bool → Shaped
  | false => ⟨2, 2, fun i j => 2 * i + j + 1⟩
  | true => ⟨2, 2, fun i j => if i = j then 0 else 1⟩

/-- Two objects of two rows. -/
def twoObjects : Bool → Mat
  | false => ⟨2, 2, 0⟩
  | true => ⟨2, 2, 1⟩

/-- Their memory. -/
def twoBlocks : Heap ℚ :=
  ((Heap.empty ℚ).extend ⟨4, fun k => [(1 : ℚ), 2, 3, 4][k]?⟩).extend
    ⟨4, fun k => [(0 : ℚ), 1, 1, 0][k]?⟩

/-- The memory holds the matrices. -/
theorem represents_twoBlocks : Represents twoObjects twoMatrices twoBlocks where
  apart := by decide
  source := by
    intro i
    cases i with
    | false =>
        refine ⟨⟨rfl, rfl, rfl, ?_⟩, by decide, by decide⟩
        intro i j
        fin_cases i <;> fin_cases j <;> decide +kernel
    | true =>
        refine ⟨⟨rfl, rfl, rfl, ?_⟩, by decide, by decide⟩
        intro i j
        fin_cases i <;> fin_cases j <;> decide +kernel
  positive := by decide

/-- Invert one matrix in place, ask for a determinant, put the inverse of the other one there if
it has one, and multiply. -/
theorem runScript_meets_twoBlocks :
    (runScript twoObjects [.calls (.matinvInplace false), .matdet false, .matinvSafe true false,
      .calls (.matmul false false true)]).Meets twoBlocks
        (evalScript twoMatrices [.calls (.matinvInplace false), .matdet false,
          .matinvSafe true false, .calls (.matmul false false true)])
        fun next answers after => next.1 = answers ∧ Represents twoObjects next.2 after :=
  runScript_meets _ represents_twoBlocks

/-! ## Laws -/

/-- A demand which is met is passed. -/
theorem demand_returns {condition : Prop} [Decidable condition] (holds : condition)
    (message : String) : demand condition message = .ok () := if_pos holds

namespace Shaped

variable {l r a : Shaped}

/-- The square part of a product. -/
theorem within_product (square : l.rows = l.cols) :
    within (l.product r).entries l.rows l.rows =
      within l.entries l.rows l.rows * within r.entries l.rows l.rows := by
  ext i j
  rw [Matrix.mul_apply]
  change ∑ k : Fin l.cols, l.entries i k * r.entries k j =
    ∑ k : Fin l.rows, l.entries i k * r.entries k j
  rw [Fin.sum_univ_eq_sum_range (fun k => l.entries i k * r.entries k j),
    Fin.sum_univ_eq_sum_range (fun k => l.entries i k * r.entries k j), ← square]

/-- The determinant of a product. -/
theorem determinant_product (square : l.rows = l.cols) (same : l.SameShape r) :
    (l.product r).determinant = l.determinant * r.determinant := by
  have right : r.rows = r.cols := same.1.symm.trans (square.trans same.2)
  have whole : (l.product r).rows = (l.product r).cols := square.trans same.2
  rw [determinant, determinant, determinant, if_pos square, if_pos right, if_pos whole, ← same.1]
  change (within (l.product r).entries l.rows l.rows).det = _
  rw [within_product square, Matrix.det_mul]

/-- The determinant of a transpose. -/
theorem determinant_transpose (square : a.rows = a.cols) :
    a.transpose.determinant = a.determinant := by
  have turned : a.transpose.rows = a.transpose.cols := square.symm
  have entries : within a.transpose.entries a.cols a.cols =
      (within a.entries a.cols a.cols).transpose := rfl
  rw [determinant, determinant, if_pos square, if_pos turned]
  change (within a.transpose.entries a.cols a.cols).det = _
  rw [entries, Matrix.det_transpose, square]

/-- The determinant of an inverse. -/
theorem determinant_inverse (square : a.rows = a.cols) (regular : a.determinant ≠ 0) :
    a.determinant * a.inverse.determinant = 1 := by
  have whole : a.inverse.rows = a.inverse.cols := rfl
  have inverse : within a.inverse.entries a.rows a.rows = (within a.entries a.rows a.rows)⁻¹ :=
    a.inverse_matrix
  rw [determinant, if_pos square] at regular ⊢
  rw [determinant, if_pos whole]
  change _ * (within a.inverse.entries a.rows a.rows).det = 1
  rw [inverse, ← Matrix.det_mul, Matrix.mul_nonsing_inv _ regular.isUnit, Matrix.det_one]

end Shaped

/-- A script which comes to its end is answered what was evaluated. -/
theorem runScript_answers (represents : Represents objects matrices heap)
    {script : List (MatStep ι)} {answers : List (Option ℚ)} {last : ι → Shaped}
    (evaluated : evalScript matrices script = .ok (answers, last)) :
    (runScript objects script).Ensures heap fun got _ => got = answers := by
  have meets := runScript_meets script represents
  rw [evaluated] at meets
  apply Ensures.imp meets
  rintro got after ⟨same, _⟩
  exact same.symm

/-! The evaluation of a script, step by step. -/

section Evaluation

variable {next last : ι → Shaped} {rest : List (MatStep ι)} {answers : List (Option ℚ)}

/-- No step gives no answer. -/
theorem evalScript_nil (matrices : ι → Shaped) : evalScript matrices [] = .ok ([], matrices) := rfl

/-- The first step answers first. -/
theorem evalScript_step {step : MatStep ι} {answer : Option ℚ}
    (first : step.eval matrices = .ok (answer, next))
    (others : evalScript next rest = .ok (answers, last)) :
    evalScript matrices (step :: rest) = .ok (answer :: answers, last) := by
  rw [evalScript, first]
  change (do
    let (answers, matrices) ← evalScript next rest
    return (answer :: answers, matrices)) = _
  rw [others]
  rfl

/-- A call which gives no answer. -/
theorem evalScript_calls {call : MatCall ι} (first : call.eval matrices = .ok next)
    (others : evalScript next rest = .ok (answers, last)) :
    evalScript matrices (.calls call :: rest) = .ok (none :: answers, last) := by
  apply evalScript_step _ others
  rw [MatStep.eval, first]
  rfl

/-- `matdet` answers the determinant and changes nothing. -/
theorem evalScript_matdet {a : ι} {shaped : Shaped} (here : matrices a = shaped)
    (others : evalScript matrices rest = .ok (answers, last)) :
    evalScript matrices (.matdet a :: rest) = .ok (some shaped.determinant :: answers, last) := by
  apply evalScript_step _ others
  rw [MatStep.eval, here]
  rfl

end Evaluation

/-- How determinants go through the library. -/
structure DeterminantLaws (objects : ι → Mat) (matrices : ι → Shaped) (heap : Heap ℚ) : Prop where
  product : ∀ l r res, l ≠ res → r ≠ res → (matrices l).rows = (matrices l).cols →
    (matrices l).SameShape (matrices r) → (matrices l).SameShape (matrices res) →
      (runScript objects [.calls (.matmul l r res), .matdet l, .matdet r, .matdet res]).Ensures heap
        fun answers _ => ∃ x y, answers = [none, some x, some y, some (x * y)]
  inverse : ∀ a ainv, a ≠ ainv → (matrices a).rows = (matrices a).cols →
    (matrices a).SameShape (matrices ainv) →
      (runScript objects [.matinvSafe a ainv, .matdet a, .matdet ainv]).Ensures heap
        fun answers _ => ∃ flag x y, answers = [some flag, some x, some y] ∧
          (flag = 0 ∧ x = 0 ∨ flag = 1 ∧ x * y = 1)
  transpose : ∀ a, (matrices a).rows = (matrices a).cols →
    (runScript objects [.matdet a, .calls (.mattrnInplace a), .matdet a]).Ensures heap
      fun answers _ => ∃ x, answers = [some x, none, some x]

/-- Each law is a script and its meaning. -/
theorem determinantLaws (represents : Represents objects matrices heap) :
    DeterminantLaws objects matrices heap where
  product l r res left right square same result := by
    have calls : MatCall.eval matrices (.matmul l r res) =
        .ok (place matrices res ((matrices l).product (matrices r))) := by
      have inner : (matrices l).cols = (matrices r).rows := square.symm.trans same.1
      have outer : (matrices l).rows = (matrices res).rows ∧
          (matrices r).cols = (matrices res).cols := ⟨result.1, same.2.symm.trans result.2⟩
      rw [MatCall.eval, demand_returns inner, demand_returns outer, demand_returns ⟨left, right⟩]
      rfl
    have evaluated := evalScript_calls calls (evalScript_matdet (Function.update_of_ne left _ _)
      (evalScript_matdet (Function.update_of_ne right _ _)
        (evalScript_matdet (Function.update_self res _ _) (evalScript_nil _))))
    apply (runScript_answers represents evaluated).imp
    rintro _ after rfl
    rw [Shaped.determinant_product square same]
    exact ⟨_, _, rfl⟩
  inverse a ainv apart square same := by
    by_cases singular : (matrices a).determinant = 0
    · have step : MatStep.eval matrices (.matinvSafe a ainv) = .ok (some 0, matrices) := by
        rw [MatStep.eval, demand_returns same, demand_returns apart, demand_returns square,
          if_pos singular]
        rfl
      have evaluated := evalScript_step step (evalScript_matdet (a := a) rfl
        (evalScript_matdet (a := ainv) rfl (evalScript_nil _)))
      apply (runScript_answers represents evaluated).imp
      rintro _ after rfl
      exact ⟨_, _, _, rfl, .inl ⟨rfl, singular⟩⟩
    · have step : MatStep.eval matrices (.matinvSafe a ainv) =
          .ok (some 1, place matrices ainv (matrices a).inverse) := by
        rw [MatStep.eval, demand_returns same, demand_returns apart, demand_returns square,
          if_neg singular]
        rfl
      have evaluated := evalScript_step step (evalScript_matdet (Function.update_of_ne apart _ _)
        (evalScript_matdet (Function.update_self ainv _ _) (evalScript_nil _)))
      apply (runScript_answers represents evaluated).imp
      rintro _ after rfl
      exact ⟨_, _, _, rfl, .inr ⟨rfl, Shaped.determinant_inverse square singular⟩⟩
  transpose a square := by
    have calls : MatCall.eval matrices (.mattrnInplace a) =
        .ok (place matrices a (matrices a).transpose) := by
      rw [MatCall.eval, demand_returns square]
      rfl
    have evaluated := evalScript_matdet (a := a) rfl
      (evalScript_calls calls (evalScript_matdet (Function.update_self a _ _) (evalScript_nil _)))
    apply (runScript_answers represents evaluated).imp
    rintro _ after rfl
    rw [Shaped.determinant_transpose square]
    exact ⟨_, rfl⟩

/-- The laws for two objects. -/
theorem determinantLaws_twoBlocks : DeterminantLaws twoObjects twoMatrices twoBlocks :=
  determinantLaws represents_twoBlocks

end MotorStand
