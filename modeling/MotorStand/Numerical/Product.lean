import MotorStand.Imperative.Trace
import MotorStand.Numerical.Matrix
import Mathlib.LinearAlgebra.Matrix.Notation
import Mathlib.Tactic.FinCases

/-!
# Product and transpose of matrices of any shape

`matmul` and `mattrn` with the accesses they make: each flat index is the one of the entry
which is meant, and each entry of the result is written once. Their results satisfy the
transposition law of products.
-/

namespace MotorStand

open Imperative Imperative.Exec Imperative.Heap

/-- `matmul` over any memory. -/
def matmulOver {σ : Type} (memory : Memory σ ℚ) (l r res : Mat) : Exec σ Mat := do
  require (l.cols = r.rows) "matrix l's column count must match matrix r's row count"
  require (l.rows = res.rows ∧ r.cols = res.cols)
    "matrix res's columns must match l's columns and it's rows must match r's rows"
  require (l.vals ≠ res.vals ∧ r.vals ≠ res.vals) "res cannot be l or r"
  forUp 0 l.rows () fun i _ =>
    forUp 0 r.cols () fun j _ => do
      let sum ← forUp 0 l.cols 0 fun k sum => do
        let left ← memory.load l.vals (offset32 l.cols i k)
        let right ← memory.load r.vals (offset32 r.cols k j)
        return sum + left * right
      memory.store res.vals (offset32 r.cols i j) sum
  return res

/-- `mattrn` over any memory. -/
def mattrnOver {σ : Type} (memory : Memory σ ℚ) (a at' : Mat) : Exec σ Mat := do
  require (a.rows = at'.cols ∧ a.cols = at'.rows)
    "matrix a rows must match at cols and matrix a cols must match at rows"
  require (a.vals ≠ at'.vals)
    "matrix at and a must be different, see mattrn_inplace for in-place transposition"
  forUp 0 a.rows () fun m _ =>
    forUp 0 a.cols () fun n _ => do
      let posA := offset32 a.cols m n
      let posAt := offset32 a.rows n m
      let val ← memory.load a.vals posA
      memory.store at'.vals posAt val
  return at'

/-- Over a plain memory it is `matmul`. -/
theorem matmulOver_plain (l r res : Mat) : matmulOver (.plain ℚ) l r res = matmul l r res := rfl

/-- Over a plain memory it is `mattrn`. -/
theorem mattrnOver_plain (a at' : Mat) : mattrnOver (.plain ℚ) a at' = mattrn a at' := rfl

/-! ## Accesses -/

/-- The position of an entry in exact arithmetic. -/
def flatIndex (stride row col : Nat) : Nat := col + row * stride

/-- The accesses of `matmul` when its flat indices are computed by `offset`. -/
def matmulAccesses (offset : Nat → Nat → Nat → Nat) (l r res : Mat) : List Access :=
  (List.range l.rows).flatMap fun i => (List.range r.cols).flatMap fun j =>
    ((List.range l.cols).flatMap fun k =>
      [.read l.vals (offset l.cols i k), .read r.vals (offset r.cols k j)]) ++
    [.write res.vals (offset r.cols i j)]

/-- The accesses of `mattrn` when its flat indices are computed by `offset`. -/
def mattrnAccesses (offset : Nat → Nat → Nat → Nat) (a at' : Mat) : List Access :=
  (List.range a.rows).flatMap fun m => (List.range a.cols).flatMap fun n =>
    [.read a.vals (offset a.cols m n), .write at'.vals (offset a.rows n m)]

/-- The accesses of `matmul`, loop by loop. -/
theorem matmul_traces (l r res : Mat) :
    Traces (matmulOver (.recording ℚ) l r res) (matmul l r res)
      (matmulAccesses offset32 l r res) := by
  have entry := fun i j => (traces_forUp (fun k (sum : ℚ) =>
    (traces_load (α := ℚ) l.vals (offset32 l.cols i k)).bind fun left =>
      (traces_load r.vals (offset32 r.cols k j)).bind fun right =>
        traces_pure (sum + left * right)) l.cols 0).bind fun sum =>
    traces_store res.vals (offset32 r.cols i j) sum
  have loops := traces_forUp (fun i _ => traces_forUp (fun j _ => entry i j) r.cols ()) l.rows ()
  have run := loops.bind fun _ => traces_pure res
  rw [List.append_nil] at run
  exact (traces_require _ _).bind fun _ => (traces_require _ _).bind fun _ =>
    (traces_require _ _).bind fun _ => run

/-- The accesses of `mattrn`, loop by loop. -/
theorem mattrn_traces (a at' : Mat) :
    Traces (mattrnOver (.recording ℚ) a at') (mattrn a at') (mattrnAccesses offset32 a at') := by
  have entry := fun m n => (traces_load (α := ℚ) a.vals (offset32 a.cols m n)).bind fun val =>
    traces_store at'.vals (offset32 a.rows n m) val
  have loops := traces_forUp (fun m _ => traces_forUp (fun n _ => entry m n) a.cols ()) a.rows ()
  have run := loops.bind fun _ => traces_pure at'
  rw [List.append_nil] at run
  exact (traces_require _ _).bind fun _ => (traces_require _ _).bind fun _ => run

/-! ## Positions -/

variable {m p n : Nat}

/-- A flat index lies inside the matrix. -/
theorem flatIndex_lt {i j : Nat} (row : i < m) (column : j < n) : flatIndex n i j < m * n :=
  position_lt ⟨i, row⟩ ⟨j, column⟩

/-- A flat index tells its row and its column. -/
theorem flatIndex_injective {i j r c : Nat} (row : i < m) (column : j < n) (other : r < m)
    (further : c < n) (same : flatIndex n i j = flatIndex n r c) : i = r ∧ j = c := by
  have equal := position_injective (i := ⟨i, row⟩) (r := ⟨r, other⟩) (j := ⟨j, column⟩)
    (c := ⟨c, further⟩) same
  exact ⟨congrArg Fin.val equal.1, congrArg Fin.val equal.2⟩

/-- Every index inside is a flat one. -/
theorem exists_flatIndex {index : Nat} (inside : index < m * n) :
    ∃ i < m, ∃ j < n, flatIndex n i j = index := by
  have positive : 0 < n := Nat.pos_of_ne_zero fun zero => by simp [zero] at inside
  exact ⟨index / n, Nat.div_lt_of_lt_mul (by rwa [Nat.mul_comm n m]), index % n,
    Nat.mod_lt _ positive, Nat.mod_add_div' index n⟩

/-- In 32 bits the index of an entry does not wrap. -/
theorem offset32_eq_flatIndex (small : m * n ≤ 2 ^ 32) {i j : Nat} (row : i < m)
    (column : j < n) : offset32 n i j = flatIndex n i j :=
  offset32_eq small ⟨i, row⟩ ⟨j, column⟩

/-! ## Accesses of matrices with fewer than `2 ^ 32` entries -/

variable {l r res a at' : Mat} {heap : Heap ℚ}

/-- No flat index of `matmul` wraps around. -/
theorem matmulAccesses_eq (left : l.Object heap m p) (right : r.Object heap p n)
    (small : m * n < 2 ^ 32) :
    matmulAccesses offset32 l r res = matmulAccesses flatIndex l r res := by
  unfold matmulAccesses
  rw [left.rows, left.cols, right.cols]
  refine List.flatMap_congr fun i row => List.flatMap_congr fun j column => ?_
  rw [List.mem_range] at row column
  rw [offset32_eq_flatIndex small.le row column]
  congr 1
  refine List.flatMap_congr fun k inner => ?_
  rw [List.mem_range] at inner
  rw [offset32_eq_flatIndex left.small.le row inner,
    offset32_eq_flatIndex right.small.le inner column]

/-- The accesses of `mattrn` are the exact ones. -/
theorem mattrnAccesses_eq (source : a.Object heap m n) :
    mattrnAccesses offset32 a at' = mattrnAccesses flatIndex a at' := by
  have smallAt : n * m ≤ 2 ^ 32 := by
    rw [Nat.mul_comm]
    exact source.small.le
  unfold mattrnAccesses
  rw [source.rows, source.cols]
  refine List.flatMap_congr fun i row => List.flatMap_congr fun j column => ?_
  rw [List.mem_range] at row column
  rw [offset32_eq_flatIndex source.small.le row column, offset32_eq_flatIndex smallAt column row]

/-- Every access of `matmul` is inside its matrix. -/
theorem matmulAccesses_inside (left : l.Object heap m p) (right : r.Object heap p n)
    (target : res.Object heap m n) :
    ∀ access ∈ matmulAccesses flatIndex l r res, access.Inside heap := by
  unfold matmulAccesses
  rw [left.rows, left.cols, right.cols]
  intro access member
  simp only [List.mem_flatMap, List.mem_append, List.mem_cons, List.mem_range,
    List.not_mem_nil, or_false] at member
  obtain ⟨i, row, j, column, ⟨k, inner, rfl | rfl⟩ | rfl⟩ := member
  · exact (flatIndex_lt row inner).trans_eq left.size.symm
  · exact (flatIndex_lt inner column).trans_eq right.size.symm
  · exact (flatIndex_lt row column).trans_eq target.size.symm

/-- They lie in the memory of their objects. -/
theorem mattrnAccesses_inside (source : a.Object heap m n) (target : at'.Object heap n m) :
    ∀ access ∈ mattrnAccesses flatIndex a at', access.Inside heap := by
  unfold mattrnAccesses
  rw [source.rows, source.cols]
  intro access member
  simp only [List.mem_flatMap, List.mem_cons, List.mem_range, List.not_mem_nil,
    or_false] at member
  obtain ⟨i, row, j, column, rfl | rfl⟩ := member
  · exact (flatIndex_lt row column).trans_eq source.size.symm
  · exact (flatIndex_lt column row).trans_eq target.size.symm

/-- `matmul` writes every entry of `res` once and nothing else. -/
theorem matmulAccesses_writesOnce (left : l.Object heap m p) (right : r.Object heap p n) :
    Access.WritesOnce (matmulAccesses flatIndex l r res) res.vals (m * n) := by
  refine Access.writesOnce_of_positions (flatIndex n) ?_
    (fun i row j column => flatIndex_lt row column)
    (fun i row j column r other c further => flatIndex_injective row column other further)
    (fun index inside => exists_flatIndex inside)
  have reads : ∀ i j, ((List.range p).flatMap fun k => [Access.read l.vals (flatIndex p i k),
      .read r.vals (flatIndex n k j)]).filterMap Access.written = [] := by
    intro i j
    rw [List.filterMap_flatMap, List.flatMap_eq_nil_iff]
    intro k _
    rfl
  unfold matmulAccesses
  rw [left.rows, left.cols, right.cols]
  simp only [List.filterMap_flatMap, List.filterMap_append, reads, List.nil_append,
    List.filterMap_cons, List.filterMap_nil, Access.written, List.map_eq_flatMap]

/-- `mattrn` writes every entry of `at` once and nothing else. -/
theorem mattrnAccesses_writesOnce (source : a.Object heap m n) :
    Access.WritesOnce (mattrnAccesses flatIndex a at') at'.vals (n * m) := by
  refine Access.writesOnce_of_positions (fun i j => flatIndex m j i) ?_
    (fun i row j column => flatIndex_lt column row)
    (fun i row j column r other c further same =>
      (flatIndex_injective column row further other same).symm)
    (fun index inside => ?_)
  · unfold mattrnAccesses
    rw [source.rows, source.cols]
    simp [List.filterMap_flatMap, List.filterMap_cons, Access.written, List.map_eq_flatMap]
  · obtain ⟨j, column, i, row, placed⟩ := exists_flatIndex inside
    exact ⟨i, row, j, column, placed⟩

/-! ## Results -/

variable {L : Matrix (Fin m) (Fin p) ℚ} {R : Matrix (Fin p) (Fin n) ℚ}
  {A : Matrix (Fin m) (Fin n) ℚ}

/-- `matmul` leaves `L * R` in `res` and every other matrix as it was; it reads and writes
the entries which are meant, all of them inside, and each entry of `res` once. -/
structure MultipliesInto (l r res : Mat) (heap : Heap ℚ) (L : Matrix (Fin m) (Fin p) ℚ)
    (R : Matrix (Fin p) (Fin n) ℚ) : Prop where
  result : (matmul l r res).Ensures heap fun result after =>
    result = res ∧ res.Holds after (L * R) ∧ after.block l.vals = heap.block l.vals ∧
      after.block r.vals = heap.block r.vals ∧ res.Writes heap after
  accesses : (matmulOver (.recording ℚ) l r res).Ensures ⟨heap, []⟩ fun _ after =>
    after.accesses = matmulAccesses flatIndex l r res ∧
      (∀ access ∈ after.accesses, access.Inside heap) ∧
      Access.WritesOnce after.accesses res.vals (m * n)

/-- `mattrn` leaves the transpose of `A` in `at` and every other matrix as it was, with the
accesses that are meant and one write for each entry of `at`. -/
structure TransposesInto (a at' : Mat) (heap : Heap ℚ) (A : Matrix (Fin m) (Fin n) ℚ) : Prop where
  result : (mattrn a at').Ensures heap fun result after =>
    result = at' ∧ at'.Holds after A.transpose ∧ after.block a.vals = heap.block a.vals ∧
      at'.Writes heap after
  accesses : (mattrnOver (.recording ℚ) a at').Ensures ⟨heap, []⟩ fun _ after =>
    after.accesses = mattrnAccesses flatIndex a at' ∧
      (∀ access ∈ after.accesses, access.Inside heap) ∧
      Access.WritesOnce after.accesses at'.vals (n * m)

/-- `matmul` multiplies, with every access inside and every entry written once. -/
theorem matmul_multipliesInto (left : l.Source heap L) (right : r.Source heap R)
    (target : res.Object heap m n) (apartLeft : l.vals ≠ res.vals)
    (apartRight : r.vals ≠ res.vals) : MultipliesInto l r res heap L R where
  result := by
    apply (matmul_ensures left right target apartLeft apartRight).imp
    rintro result after ⟨same, held, writes⟩
    exact ⟨same, held.holds, writes.same _ left.old apartLeft,
      writes.same _ right.old apartRight, writes⟩
  accesses := by
    apply ((matmul_traces l r res).ensures
      (matmul_ensures left right target apartLeft apartRight)).imp
    rintro _ after ⟨-, traced⟩
    rw [traced, matmulAccesses_eq left.object right.object target.small]
    exact ⟨rfl, matmulAccesses_inside left.object right.object target,
      matmulAccesses_writesOnce left.object right.object⟩

/-- `mattrn` transposes, with every access inside and every entry written once. -/
theorem mattrn_transposesInto (source : a.Source heap A) (target : at'.Object heap n m)
    (apart : a.vals ≠ at'.vals) : TransposesInto a at' heap A where
  result := by
    apply (mattrn_ensures source target apart).imp
    rintro result after ⟨same, held, writes⟩
    exact ⟨same, held.holds, writes.same _ source.old apart, writes⟩
  accesses := by
    apply ((mattrn_traces a at').ensures (mattrn_ensures source target apart)).imp
    rintro _ after ⟨-, traced⟩
    rw [traced, mattrnAccesses_eq source.object]
    exact ⟨rfl, mattrnAccesses_inside source.object target,
      mattrnAccesses_writesOnce source.object⟩

/-! ## The transposition law -/

/-- `mattrn(matmul(l,r,res),rest)`. -/
def mattrnOfMatmul (l r res rest : Mat) : Exec (Heap ℚ) Mat := do
  let product ← matmul l r res
  mattrn product rest

/-- `matmul(mattrn(r,rt),mattrn(l,lt),res)`. -/
def matmulOfMattrn (l r lt rt res : Mat) : Exec (Heap ℚ) Mat := do
  let right ← mattrn r rt
  let left ← mattrn l lt
  matmul right left res

/-- Matrices for the results of both sides of the law, none of which overwrites what is
read after it. -/
structure LawTargets (l r res rest rt lt last : Mat) (heap : Heap ℚ) (m p n : Nat) : Prop where
  product : res.Object heap m n
  turned : rest.Object heap n m
  right : rt.Object heap n p
  left : lt.Object heap p m
  final : last.Object heap n m
  productApart : l.vals ≠ res.vals ∧ r.vals ≠ res.vals ∧ res.vals ≠ rest.vals
  turnedApart : r.vals ≠ rt.vals ∧ l.vals ≠ rt.vals ∧ l.vals ≠ lt.vals ∧ rt.vals ≠ lt.vals
  lastApart : rt.vals ≠ last.vals ∧ lt.vals ≠ last.vals

variable {rest rt lt last : Mat}

/-- The transpose of a product. -/
theorem mattrnOfMatmul_ensures (left : l.Source heap L) (right : r.Source heap R)
    (targets : LawTargets l r res rest rt lt last heap m p n) :
    (mattrnOfMatmul l r res rest).Ensures heap fun result after =>
      result = rest ∧ rest.Holds after (L * R).transpose := by
  obtain ⟨apartLeft, apartRight, apart⟩ := targets.productApart
  apply (matmul_ensures left right targets.product apartLeft apartRight).bind
  rintro product store ⟨rfl, held, writes⟩
  apply (mattrn_ensures held (targets.turned.of_writes writes apart.symm) apart).imp
  rintro result after ⟨same, done, -⟩
  exact ⟨same, done.holds⟩

/-- The product of the transposes in the other order. -/
theorem matmulOfMattrn_ensures (left : l.Source heap L) (right : r.Source heap R)
    (targets : LawTargets l r res rest rt lt last heap m p n) :
    (matmulOfMattrn l r lt rt last).Ensures heap fun result after =>
      result = last ∧ last.Holds after (L * R).transpose := by
  obtain ⟨apartRight, kept, apartLeft, apart⟩ := targets.turnedApart
  obtain ⟨apartFirst, apartSecond⟩ := targets.lastApart
  apply (mattrn_ensures right targets.right apartRight).bind
  rintro _ first ⟨rfl, rightTurned, writesRight⟩
  apply (mattrn_ensures (left.of_writes writesRight kept)
    (targets.left.of_writes writesRight apart.symm) apartLeft).bind
  rintro _ second ⟨rfl, leftTurned, writesLeft⟩
  have room := (targets.final.of_writes writesRight apartFirst.symm).of_writes writesLeft
    apartSecond.symm
  apply (matmul_ensures (rightTurned.of_writes writesLeft apart) leftTurned room apartFirst
    apartSecond).imp
  rintro result after ⟨same, done, -⟩
  rw [Matrix.transpose_mul]
  exact ⟨same, done.holds⟩

/-- `matmul` is the product and `mattrn` the transpose for every shape, and the transpose of a
product is the product of the transposes the other way round. The factors may be one matrix. -/
theorem matmul_mattrn_correct :
    (∀ {m p n : Nat} {l r res : Mat} {heap : Heap ℚ} {L : Matrix (Fin m) (Fin p) ℚ}
      {R : Matrix (Fin p) (Fin n) ℚ}, l.Source heap L → r.Source heap R →
        res.Object heap m n → l.vals ≠ res.vals → r.vals ≠ res.vals →
        MultipliesInto l r res heap L R) ∧
    (∀ {m n : Nat} {a at' : Mat} {heap : Heap ℚ} {A : Matrix (Fin m) (Fin n) ℚ},
      a.Source heap A → at'.Object heap n m → a.vals ≠ at'.vals → TransposesInto a at' heap A) ∧
    (∀ {m p n : Nat} {l r res rest rt lt last : Mat} {heap : Heap ℚ}
      {L : Matrix (Fin m) (Fin p) ℚ} {R : Matrix (Fin p) (Fin n) ℚ}, l.Source heap L →
        r.Source heap R → LawTargets l r res rest rt lt last heap m p n →
        (mattrnOfMatmul l r res rest).Ensures heap (fun result after =>
          result = rest ∧ rest.Holds after (L * R).transpose) ∧
        (matmulOfMattrn l r lt rt last).Ensures heap (fun result after =>
          result = last ∧ last.Holds after (L * R).transpose)) :=
  ⟨matmul_multipliesInto, mattrn_transposesInto, fun left right targets =>
    ⟨mattrnOfMatmul_ensures left right targets, matmulOfMattrn_ensures left right targets⟩⟩

/-- Room for `[1 2]`, `[3 4 5; 6 7 8]` and the results made of them. -/
def rowTimesWide : Heap ℚ :=
  (((((((Heap.empty ℚ).extend ⟨2, fun k => [(1 : ℚ), 2][k]?⟩).extend
    ⟨6, fun k => [(3 : ℚ), 4, 5, 6, 7, 8][k]?⟩).extend (.uninitialised ℚ 3)).extend
    (.uninitialised ℚ 3)).extend (.uninitialised ℚ 6)).extend (.uninitialised ℚ 2)).extend
    (.uninitialised ℚ 3)

/-- `[1 2]` by `[3 4 5; 6 7 8]`. -/
theorem matmul_mattrn_correct_rowTimesWide :
    MultipliesInto ⟨1, 2, 0⟩ ⟨2, 3, 1⟩ ⟨1, 3, 2⟩ rowTimesWide !![1, 2] !![3, 4, 5; 6, 7, 8] ∧
    TransposesInto ⟨2, 3, 1⟩ ⟨3, 2, 4⟩ rowTimesWide !![3, 4, 5; 6, 7, 8] ∧
    (mattrnOfMatmul ⟨1, 2, 0⟩ ⟨2, 3, 1⟩ ⟨1, 3, 2⟩ ⟨3, 1, 3⟩).Ensures rowTimesWide
      (fun result after => result = ⟨3, 1, 3⟩ ∧ Mat.Holds ⟨3, 1, 3⟩ after
        ((!![1, 2] : Matrix (Fin 1) (Fin 2) ℚ) *
          (!![3, 4, 5; 6, 7, 8] : Matrix (Fin 2) (Fin 3) ℚ)).transpose) := by
  have left : Mat.Source ⟨1, 2, 0⟩ rowTimesWide !![1, 2] := by
    refine ⟨⟨rfl, rfl, rfl, fun i j => ?_⟩, by decide, by decide⟩
    fin_cases i
    fin_cases j <;> rfl
  have right : Mat.Source ⟨2, 3, 1⟩ rowTimesWide !![3, 4, 5; 6, 7, 8] := by
    refine ⟨⟨rfl, rfl, rfl, fun i j => ?_⟩, by decide, by decide⟩
    fin_cases i <;> fin_cases j <;> rfl
  have targets : LawTargets ⟨1, 2, 0⟩ ⟨2, 3, 1⟩ ⟨1, 3, 2⟩ ⟨3, 1, 3⟩ ⟨3, 2, 4⟩ ⟨2, 1, 5⟩ ⟨3, 1, 6⟩
      rowTimesWide 1 2 3 :=
    ⟨⟨rfl, rfl, rfl, by decide, by decide⟩, ⟨rfl, rfl, rfl, by decide, by decide⟩,
      ⟨rfl, rfl, rfl, by decide, by decide⟩, ⟨rfl, rfl, rfl, by decide, by decide⟩,
      ⟨rfl, rfl, rfl, by decide, by decide⟩, by decide, by decide, by decide⟩
  exact ⟨matmul_mattrn_correct.1 left right targets.product (by decide) (by decide),
    matmul_mattrn_correct.2.1 right targets.right (by decide),
    (matmul_mattrn_correct.2.2 left right targets).1⟩

end MotorStand
