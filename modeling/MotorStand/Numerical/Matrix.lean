import MotorStand.Imperative.Heap
import Mathlib.Data.Matrix.Mul
import Mathlib.Tactic.Ring

/-!
# The matrix library of `numerical_basics.c`

A `Mat` is a `mat` of the source: its dimensions, which nothing writes after
`_alloc_mat`, and the address of its `vals`. Entries are exact rationals and
flat indices are computed in 32 bits as the source computes them.
-/

namespace MotorStand

open Imperative Imperative.Exec Imperative.Heap

/-- A matrix object. Two pointers to one object have the same `vals`. -/
structure Mat where
  rows : Nat
  cols : Nat
  vals : Nat
deriving DecidableEq, Repr

/-- `col + row * stride` over `uint32_t`. -/
def offset32 (stride row col : Nat) : Nat := (col + row * stride) % 2 ^ 32

/-- `DALLOCMAT`. -/
def allocMat (m n : Nat) : Exec (Heap ℚ) Mat := do
  let vals ← malloc (m * n)
  return ⟨m, n, vals⟩

/-- Release a matrix. -/
def freeMat (a : Mat) : Exec (Heap ℚ) Unit := free a.vals

/-- `matzro`. -/
def matzro (a : Mat) : Exec (Heap ℚ) Mat := do
  forUp 0 a.rows () fun m _ =>
    forUp 0 a.cols () fun n _ =>
      store a.vals (offset32 a.cols m n) 0
  return a

/-- `matidn`. -/
def matidn (a : Mat) : Exec (Heap ℚ) Mat := do
  forUp 0 a.rows () fun m _ =>
    forUp 0 a.cols () fun n _ =>
      if m = n then store a.vals (offset32 a.cols m n) 1
      else store a.vals (offset32 a.cols m n) 0
  return a

/-- `matdup`. -/
def matdup (a ad : Mat) : Exec (Heap ℚ) Mat := do
  require (a.rows = ad.rows ∧ a.cols = ad.cols) "matrix dimensions must match"
  forUp 0 a.rows () fun m _ =>
    forUp 0 a.cols () fun n _ => do
      let pos := offset32 a.cols m n
      let val ← load a.vals pos
      store ad.vals pos val
  return ad

/-- `mattrn`. -/
def mattrn (a at' : Mat) : Exec (Heap ℚ) Mat := do
  require (a.rows = at'.cols ∧ a.cols = at'.rows)
    "matrix a rows must match at cols and matrix a cols must match at rows"
  require (a.vals ≠ at'.vals)
    "matrix at and a must be different, see mattrn_inplace for in-place transposition"
  forUp 0 a.rows () fun m _ =>
    forUp 0 a.cols () fun n _ => do
      let posA := offset32 a.cols m n
      let posAt := offset32 a.rows n m
      let val ← load a.vals posA
      store at'.vals posAt val
  return at'

/-- `matmul`. -/
def matmul (l r res : Mat) : Exec (Heap ℚ) Mat := do
  require (l.cols = r.rows) "matrix l's column count must match matrix r's row count"
  require (l.rows = res.rows ∧ r.cols = res.cols)
    "matrix res's columns must match l's columns and it's rows must match r's rows"
  require (l.vals ≠ res.vals ∧ r.vals ≠ res.vals) "res cannot be l or r"
  forUp 0 l.rows () fun i _ =>
    forUp 0 r.cols () fun j _ => do
      let sum ← forUp 0 l.cols 0 fun k sum => do
        let left ← load l.vals (offset32 l.cols i k)
        let right ← load r.vals (offset32 r.cols k j)
        return sum + left * right
      store res.vals (offset32 r.cols i j) sum
  return res

/-! ## Flat indices -/

variable {m n : Nat}

/-- The exact index of an entry lies inside the memory. -/
theorem position_lt (i : Fin m) (j : Fin n) : j.val + i.val * n < m * n := by
  calc j.val + i.val * n < n + i.val * n := Nat.add_lt_add_right j.isLt _
    _ = (i.val + 1) * n := by ring
    _ ≤ m * n := Nat.mul_le_mul_right n i.isLt

/-- Different entries have different positions. -/
theorem position_injective {i r : Fin m} {j c : Fin n}
    (same : j.val + i.val * n = c.val + r.val * n) : i = r ∧ j = c := by
  have positive : 0 < n := Nat.lt_of_le_of_lt (Nat.zero_le _) j.isLt
  have columns : j.val = c.val := by
    have remainders := congrArg (· % n) same
    simpa [Nat.mod_eq_of_lt j.isLt, Nat.mod_eq_of_lt c.isLt] using remainders
  have rows : i.val * n = r.val * n := by omega
  exact ⟨Fin.ext (Nat.eq_of_mul_eq_mul_right positive rows), Fin.ext columns⟩

/-- No flat index of a matrix with at most `2 ^ 32` entries wraps around. -/
theorem offset32_eq (small : m * n ≤ 2 ^ 32) (i : Fin m) (j : Fin n) :
    offset32 n i.val j.val = j.val + i.val * n :=
  Nat.mod_eq_of_lt ((position_lt i j).trans_le small)

/-! ## Matrix contents -/

/-- `A` with one entry replaced. -/
def setEntry {α : Type} (A : Matrix (Fin m) (Fin n) α) (i : Fin m) (j : Fin n) (value : α) :
    Matrix (Fin m) (Fin n) α :=
  Matrix.of fun r c => if r = i ∧ c = j then value else A r c

/-- One entry is set. -/
theorem setEntry_apply {α : Type} (A : Matrix (Fin m) (Fin n) α) (i r : Fin m) (j c : Fin n)
    (value : α) : setEntry A i j value r c = if r = i ∧ c = j then value else A r c := rfl

/-- The cells of `a` are `contents`, in row-major order; `none` is a cell which
has not been written. -/
structure Mat.Cells (a : Mat) (heap : Heap ℚ) (contents : Matrix (Fin m) (Fin n) (Option ℚ)) :
    Prop where
  rows : a.rows = m
  cols : a.cols = n
  size : (heap.block a.vals).size = m * n
  cell : ∀ i j, (heap.block a.vals).cell (j.val + i.val * n) = contents i j

/-- `a` holds the matrix `A`. -/
def Mat.Holds (a : Mat) (heap : Heap ℚ) (A : Matrix (Fin m) (Fin n) ℚ) : Prop :=
  a.Cells heap (A.map some)

/-- Only the block of `a` differs between two heaps. -/
abbrev Mat.Writes (a : Mat) (before after : Heap ℚ) : Prop := Frame (· = a.vals) before after

variable {a b : Mat} {heap after : Heap ℚ} {contents : Matrix (Fin m) (Fin n) (Option ℚ)}

/-- An object has the rows it holds. -/
theorem Mat.Holds.rows {A : Matrix (Fin m) (Fin n) ℚ} (holds : a.Holds heap A) : a.rows = m :=
  Mat.Cells.rows holds

/-- An object has the columns it holds. -/
theorem Mat.Holds.cols {A : Matrix (Fin m) (Fin n) ℚ} (holds : a.Holds heap A) : a.cols = n :=
  Mat.Cells.cols holds

/-- An object of the right size has some contents. -/
theorem Mat.exists_cells (rows : a.rows = m) (cols : a.cols = n)
    (size : (heap.block a.vals).size = m * n) :
    ∃ contents : Matrix (Fin m) (Fin n) (Option ℚ), a.Cells heap contents :=
  ⟨Matrix.of fun i j => (heap.block a.vals).cell (j.val + i.val * n), rows, cols, size,
    fun _ _ => rfl⟩

/-- Contents depend only on the block of the matrix. -/
theorem Mat.Cells.of_block_eq (cells : a.Cells heap contents)
    (same : after.block a.vals = heap.block a.vals) : a.Cells after contents where
  rows := cells.rows
  cols := cells.cols
  size := by rw [same, cells.size]
  cell := by
    intro i j
    rw [same, cells.cell]

/-- A nonempty matrix lies in the allocated part of the heap. -/
theorem Mat.Cells.lt_limit (cells : a.Cells heap contents) (positive : 0 < m * n) :
    a.vals < heap.limit := by
  apply lt_limit_of_size
  rw [cells.size]
  exact positive

/-- A known entry is loaded. -/
theorem Mat.Cells.load_returns (cells : a.Cells heap contents) (small : m * n ≤ 2 ^ 32)
    {i : Fin m} {j : Fin n} {value : ℚ} (stored : contents i j = some value) :
    load a.vals (offset32 n i.val j.val) heap = .ok (value, heap) := by
  rw [offset32_eq small]
  refine Heap.load_returns ?_ ((cells.cell i j).trans stored)
  rw [cells.size]
  exact position_lt i j

/-- Every entry of a held matrix is loaded. -/
theorem Mat.Holds.load_returns {A : Matrix (Fin m) (Fin n) ℚ} (holds : a.Holds heap A)
    (small : m * n ≤ 2 ^ 32) (i : Fin m) (j : Fin n) :
    load a.vals (offset32 n i.val j.val) heap = .ok (A i j, heap) :=
  Mat.Cells.load_returns holds small rfl

/-- The flat indices of `a` read the entries of `W`. -/
def Mat.Reads (a : Mat) (heap : Heap ℚ) (W : Matrix (Fin m) (Fin n) ℚ) : Prop :=
  ∀ i j, load a.vals (offset32 n i.val j.val) heap = .ok (W i j, heap)

/-- A matrix with at most `2 ^ 32` entries is read as it is. -/
theorem Mat.Holds.reads {A : Matrix (Fin m) (Fin n) ℚ} (holds : a.Holds heap A)
    (small : m * n ≤ 2 ^ 32) : a.Reads heap A :=
  fun i j => holds.load_returns small i j

/-- Writing an entry replaces that entry and nothing else. -/
theorem Mat.Cells.set (cells : a.Cells heap contents) (i : Fin m) (j : Fin n) (value : ℚ) :
    a.Cells (heap.set a.vals (j.val + i.val * n) value) (setEntry contents i j (some value)) where
  rows := cells.rows
  cols := cells.cols
  size := by simp [cells.size]
  cell := by
    intro r c
    rw [block_set_self, Block.cell_set, setEntry_apply, cells.cell]
    by_cases same : r = i ∧ c = j
    · obtain ⟨rfl, rfl⟩ := same
      simp
    · have apart : ¬ c.val + r.val * n = j.val + i.val * n := fun equal =>
        same (position_injective equal)
      rw [if_neg apart, if_neg same]

/-- A store is a write of the object. -/
theorem Mat.writes_set (a : Mat) (heap : Heap ℚ) (index : Nat) (value : ℚ) :
    a.Writes heap (heap.set a.vals index value) :=
  Frame.set (by rfl) index value

/-- Every entry can be stored. -/
theorem Mat.Cells.store_returns (cells : a.Cells heap contents) (small : m * n ≤ 2 ^ 32)
    (i : Fin m) (j : Fin n) (value : ℚ) :
    store a.vals (offset32 n i.val j.val) value heap =
      .ok ((), heap.set a.vals (j.val + i.val * n) value) := by
  rw [offset32_eq small]
  refine Heap.store_returns value ?_
  rw [cells.size]
  exact position_lt i j

/-! ## Loops over all entries -/

/-- `contents` overwritten by `A` in the rows above `i` and in row `i` up to `j`. -/
def filled (A : Matrix (Fin m) (Fin n) ℚ) (contents : Matrix (Fin m) (Fin n) (Option ℚ))
    (i j : Nat) : Matrix (Fin m) (Fin n) (Option ℚ) :=
  Matrix.of fun r c => if r.val < i ∨ r.val = i ∧ c.val < j then some (A r c) else contents r c

/-- The entries in front of a place are the new ones. -/
theorem filled_apply (A : Matrix (Fin m) (Fin n) ℚ) (i j : Nat) (r : Fin m) (c : Fin n) :
    filled A contents i j r c =
      if r.val < i ∨ r.val = i ∧ c.val < j then some (A r c) else contents r c := rfl

/-- Nothing is filled at the start. -/
theorem filled_start (A : Matrix (Fin m) (Fin n) ℚ) : filled A contents 0 0 = contents := by
  ext r c
  simp [filled_apply]

/-- A full row is the start of the next. -/
theorem filled_row (A : Matrix (Fin m) (Fin n) ℚ) (i : Nat) :
    filled A contents i n = filled A contents (i + 1) 0 := by
  ext r c
  have rows : (r.val < i ∨ r.val = i ∧ c.val < n) ↔ (r.val < i + 1 ∨ r.val = i + 1 ∧ c.val < 0) := by
    have bound := c.isLt
    omega
  simp only [filled_apply, rows]

/-- All rows are filled at the end. -/
theorem filled_all (A : Matrix (Fin m) (Fin n) ℚ) : filled A contents m 0 = A.map some := by
  ext r c
  simp [filled_apply, r.isLt]

/-- One more entry is filled. -/
theorem filled_set (A : Matrix (Fin m) (Fin n) ℚ) (i : Fin m) (j : Fin n) :
    setEntry (filled A contents i.val j.val) i j (some (A i j)) =
      filled A contents i.val (j.val + 1) := by
  ext r c
  rw [setEntry_apply, filled_apply, filled_apply]
  by_cases same : r = i ∧ c = j
  · obtain ⟨rfl, rfl⟩ := same
    simp
  · have grows : (r.val < i.val ∨ r.val = i.val ∧ c.val < j.val + 1) ↔
        (r.val < i.val ∨ r.val = i.val ∧ c.val < j.val) := by
      have apart : ¬ (r.val = i.val ∧ c.val = j.val) := fun equal =>
        same ⟨Fin.ext equal.1, Fin.ext equal.2⟩
      omega
    simp only [if_neg same, grows]

/-- The memory after one more entry. -/
theorem Mat.Cells.set_filled {A : Matrix (Fin m) (Fin n) ℚ} (i : Fin m) (j : Fin n)
    (cells : a.Cells heap (filled A contents i.val j.val)) :
    a.Cells (heap.set a.vals (j.val + i.val * n) (A i j)) (filled A contents i.val (j.val + 1)) := by
  rw [← filled_set]
  exact cells.set i j (A i j)

/-- A loop over row `i` which stores `A i j` at every column. -/
theorem Mat.Cells.ensures_fill_row {A : Matrix (Fin m) (Fin n) ℚ} {i : Fin m}
    (cells : a.Cells heap (filled A contents i.val 0)) {body : Nat → Exec (Heap ℚ) Unit}
    (writes : ∀ (j : Fin n) store, a.Writes heap store →
      a.Cells store (filled A contents i.val j.val) →
      body j.val store = .ok ((), store.set a.vals (j.val + i.val * n) (A i j))) :
    (forUp 0 n () fun j _ => body j).Ensures heap fun _ after =>
      a.Cells after (filled A contents (i.val + 1) 0) ∧ a.Writes heap after := by
  refine (forUp_ensures
    (fun j _ store => a.Cells store (filled A contents i.val j) ∧ a.Writes heap store)
    (Nat.zero_le n) ⟨cells, .refl _⟩ ?_).imp ?_
  · rintro j _ store _ left ⟨held, frame⟩
    lift j to Fin n using left
    exact .of_returns (writes j store frame held)
      ⟨Mat.Cells.set_filled i j held, frame.trans (a.writes_set store _ _)⟩
  · rintro _ after ⟨held, frame⟩
    exact ⟨by rwa [filled_row] at held, frame⟩

/-- A double loop which stores `A i j` at every entry leaves `A` in the matrix. -/
theorem Mat.Cells.ensures_fill (cells : a.Cells heap contents) (A : Matrix (Fin m) (Fin n) ℚ)
    {body : Nat → Nat → Exec (Heap ℚ) Unit}
    (writes : ∀ (i : Fin m) (j : Fin n) store, a.Writes heap store →
      a.Cells store (filled A contents i.val j.val) →
      body i.val j.val store = .ok ((), store.set a.vals (j.val + i.val * n) (A i j))) :
    (forUp 0 m () fun i _ => forUp 0 n () fun j _ => body i j).Ensures heap fun _ after =>
      a.Holds after A ∧ a.Writes heap after := by
  refine (forUp_ensures
    (fun i _ store => a.Cells store (filled A contents i 0) ∧ a.Writes heap store)
    (Nat.zero_le m) ⟨by rwa [filled_start], .refl _⟩ ?_).imp ?_
  · rintro i _ store _ below ⟨held, frame⟩
    lift i to Fin m using below
    refine (held.ensures_fill_row fun j inner writesInner cells =>
      writes i j inner (frame.trans writesInner) cells).imp ?_
    rintro _ after ⟨held, writesRow⟩
    exact ⟨held, frame.trans writesRow⟩
  · rintro _ after ⟨held, frame⟩
    exact ⟨by rwa [filled_all] at held, frame⟩

/-! ## What the library functions do -/

/-- The matrix is zero afterwards. -/
theorem matzro_ensures (cells : a.Cells heap contents) (small : m * n < 2 ^ 32) :
    (matzro a).Ensures heap fun result after =>
      result = a ∧ a.Holds after (0 : Matrix (Fin m) (Fin n) ℚ) ∧ a.Writes heap after := by
  unfold matzro
  rw [cells.rows, cells.cols]
  refine (cells.ensures_fill 0 ?_).bind ?_
  · intro i j store _ held
    exact held.store_returns small.le i j 0
  · rintro _ after ⟨held, frame⟩
    exact ensures_pure ⟨rfl, held, frame⟩

/-- The matrix is the identity afterwards. -/
theorem matidn_ensures {contents : Matrix (Fin n) (Fin n) (Option ℚ)}
    (cells : a.Cells heap contents) (small : n * n < 2 ^ 32) :
    (matidn a).Ensures heap fun result after =>
      result = a ∧ a.Holds after (1 : Matrix (Fin n) (Fin n) ℚ) ∧ a.Writes heap after := by
  unfold matidn
  rw [cells.rows, cells.cols]
  refine (cells.ensures_fill 1 ?_).bind ?_
  · intro i j store _ held
    rw [Matrix.one_apply]
    by_cases same : i = j
    · rw [if_pos (congrArg Fin.val same), if_pos same]
      exact held.store_returns small.le i j 1
    · rw [if_neg (fun equal => same (Fin.ext equal)), if_neg same]
      exact held.store_returns small.le i j 0
  · rintro _ after ⟨held, frame⟩
    exact ensures_pure ⟨rfl, held, frame⟩

/-- A matrix in another block is not touched by writing `a`. -/
theorem Mat.Holds.of_writes {A : Matrix (Fin m) (Fin n) ℚ} {a b : Mat} (holds : a.Holds heap A)
    (writes : b.Writes heap after) (apart : a.vals ≠ b.vals) (old : a.vals < heap.limit) :
    a.Holds after A :=
  Mat.Cells.of_block_eq holds (writes.same a.vals old apart)

/-- The copy holds what the matrix holds. -/
theorem matdup_ensures {A : Matrix (Fin m) (Fin n) ℚ} {a ad : Mat} (holds : a.Holds heap A)
    (cells : ad.Cells heap contents) (apart : a.vals ≠ ad.vals) (old : a.vals < heap.limit)
    (small : m * n ≤ 2 ^ 32) :
    (matdup a ad).Ensures heap fun result after =>
      result = ad ∧ ad.Holds after A ∧ ad.Writes heap after := by
  unfold matdup
  refine .bind_returns (require_returns _
    ⟨holds.rows.trans cells.rows.symm, holds.cols.trans cells.cols.symm⟩) ?_
  rw [holds.rows, holds.cols]
  refine (cells.ensures_fill A ?_).bind ?_
  · intro i j store frame held
    have source : a.Holds store A := holds.of_writes frame apart old
    rw [bind_of_returns (source.load_returns small i j)]
    exact held.store_returns small i j (A i j)
  · rintro _ after ⟨held, frame⟩
    exact ensures_pure ⟨rfl, held, frame⟩

/-! ## Transpose and product -/

/-- `a` is an allocated matrix of `m` rows and `n` columns with fewer than `2 ^ 32` entries. -/
structure Mat.Object (a : Mat) (heap : Heap ℚ) (m n : Nat) : Prop where
  rows : a.rows = m
  cols : a.cols = n
  size : (heap.block a.vals).size = m * n
  old : a.vals < heap.limit
  small : m * n < 2 ^ 32

/-- `a` is an allocated matrix with fewer than `2 ^ 32` entries, which are those of `A`. -/
structure Mat.Source (a : Mat) (heap : Heap ℚ) (A : Matrix (Fin m) (Fin n) ℚ) : Prop where
  holds : a.Holds heap A
  old : a.vals < heap.limit
  small : m * n < 2 ^ 32

/-- Known cells are those of an object. -/
theorem Mat.Cells.object (cells : a.Cells heap contents) (old : a.vals < heap.limit)
    (small : m * n < 2 ^ 32) : a.Object heap m n :=
  ⟨cells.rows, cells.cols, cells.size, old, small⟩

/-- A matrix which can be read is an object. -/
theorem Mat.Source.object {A : Matrix (Fin m) (Fin n) ℚ} (source : a.Source heap A) :
    a.Object heap m n :=
  Mat.Cells.object source.holds source.old source.small

/-- An object stays one while another matrix is written. -/
theorem Mat.Object.of_writes (target : a.Object heap m n) (writes : b.Writes heap after)
    (apart : a.vals ≠ b.vals) : a.Object after m n where
  rows := target.rows
  cols := target.cols
  size := by rw [writes.same _ target.old apart, target.size]
  old := target.old.trans_le writes.limit
  small := target.small

/-- A source stays one while another matrix is written. -/
theorem Mat.Source.of_writes {A : Matrix (Fin m) (Fin n) ℚ} (source : a.Source heap A)
    (writes : b.Writes heap after) (apart : a.vals ≠ b.vals) : a.Source after A where
  holds := source.holds.of_writes writes apart source.old
  old := source.old.trans_le writes.limit
  small := source.small

/-- The transpose of a matrix whose entry is set. -/
theorem setEntry_transpose {α : Type} (A : Matrix (Fin m) (Fin n) α) (i : Fin m) (j : Fin n)
    (value : α) : (setEntry A i j value).transpose = setEntry A.transpose j i value := by
  ext r c
  simp only [Matrix.transpose_apply, setEntry_apply, and_comm]

/-- `mattrn` fills `at` column by column. -/
theorem mattrn_ensures {A : Matrix (Fin m) (Fin n) ℚ} {a at' : Mat} (source : a.Source heap A)
    (target : at'.Object heap n m) (apart : a.vals ≠ at'.vals) :
    (mattrn a at').Ensures heap fun result after =>
      result = at' ∧ at'.Source after A.transpose ∧ at'.Writes heap after := by
  obtain ⟨contents, cells⟩ := Mat.exists_cells target.rows target.cols target.size
  have rows := source.holds.rows
  have cols := source.holds.cols
  unfold mattrn
  refine .bind_returns (require_returns _
    ⟨rows.trans cells.cols.symm, cols.trans cells.rows.symm⟩) ?_
  refine .bind_returns (require_returns _ apart) ?_
  rw [rows, cols]
  refine Ensures.bind (forUp_ensures (fun i _ store =>
    at'.Cells store (filled A contents.transpose i 0).transpose ∧ at'.Writes heap store)
    (Nat.zero_le m) ⟨by rwa [filled_start, Matrix.transpose_transpose], .refl _⟩ ?_) ?_
  · rintro i _ store _ below ⟨held, frame⟩
    lift i to Fin m using below
    refine (forUp_ensures (fun j _ store =>
      at'.Cells store (filled A contents.transpose i j).transpose ∧ at'.Writes heap store)
      (Nat.zero_le n) ⟨held, frame⟩ ?_).imp ?_
    · rintro j _ store _ left ⟨held, frame⟩
      lift j to Fin n using left
      have here := source.of_writes frame apart
      refine .bind_returns (here.holds.load_returns here.small.le i j) ?_
      refine .of_returns (held.store_returns target.small.le j i (A i j)) ⟨?_, ?_⟩
      · rw [← filled_set, setEntry_transpose]
        exact held.set j i (A i j)
      · exact frame.trans (at'.writes_set store _ _)
    · rintro _ after ⟨held, frame⟩
      exact ⟨by rwa [filled_row] at held, frame⟩
  · rintro _ after ⟨held, frame⟩
    rw [filled_all] at held
    exact ensures_pure ⟨rfl, ⟨held, target.old.trans_le frame.limit, target.small⟩, frame⟩

/-- The inner loop of `matmul` computes one entry of the product. -/
theorem matmul_entry_ensures {p : Nat} {L : Matrix (Fin m) (Fin p) ℚ}
    {R : Matrix (Fin p) (Fin n) ℚ} {l r : Mat} (left : l.Source heap L)
    (right : r.Source heap R) (i : Fin m) (j : Fin n) :
    (forUp 0 p 0 fun k sum => do
      let left ← load l.vals (offset32 p i.val k)
      let right ← load r.vals (offset32 n k j.val)
      return sum + left * right).Ensures heap fun sum after =>
        sum = (L * R) i j ∧ after = heap := by
  refine (forUp_window_ensures (fun k => L i k * R k j) (Nat.zero_le p) (le_refl p) ?_).imp ?_
  · intro k sum _ _
    refine .bind_returns (left.holds.load_returns left.small.le i k) ?_
    refine .bind_returns (right.holds.load_returns right.small.le k j) ?_
    exact ensures_pure ⟨rfl, rfl⟩
  · rintro sum after ⟨total, same⟩
    refine ⟨?_, same⟩
    rw [total, zero_add, Matrix.mul_apply]
    exact Finset.sum_congr rfl fun k _ => by simp

/-- `matmul` leaves the product in `res`. The factors may be one matrix. -/
theorem matmul_ensures {p : Nat} {L : Matrix (Fin m) (Fin p) ℚ} {R : Matrix (Fin p) (Fin n) ℚ}
    {l r res : Mat} (left : l.Source heap L) (right : r.Source heap R)
    (target : res.Object heap m n) (apartLeft : l.vals ≠ res.vals)
    (apartRight : r.vals ≠ res.vals) :
    (matmul l r res).Ensures heap fun result after =>
      result = res ∧ res.Source after (L * R) ∧ res.Writes heap after := by
  obtain ⟨contents, cells⟩ := Mat.exists_cells target.rows target.cols target.size
  have inner := left.holds.cols.trans right.holds.rows.symm
  unfold matmul
  refine .bind_returns (require_returns _ inner) ?_
  refine .bind_returns (require_returns _
    ⟨left.holds.rows.trans cells.rows.symm, right.holds.cols.trans cells.cols.symm⟩) ?_
  refine .bind_returns (require_returns _ ⟨apartLeft, apartRight⟩) ?_
  rw [left.holds.rows, left.holds.cols, right.holds.cols]
  refine (cells.ensures_fill (L * R) ?_).bind ?_
  · intro i j store frame held
    obtain ⟨sum, _, run, rfl, rfl⟩ := matmul_entry_ensures (left.of_writes frame apartLeft)
      (right.of_writes frame apartRight) i j
    rw [bind_of_returns run]
    exact held.store_returns target.small.le i j _
  · rintro _ after ⟨held, frame⟩
    exact ensures_pure ⟨rfl, ⟨held, target.old.trans_le frame.limit, target.small⟩, frame⟩

/-! ## Allocation -/

/-- A new matrix lies at the end of the heap and holds nothing yet. -/
theorem allocMat_ensures (m n : Nat) (heap : Heap ℚ) :
    (allocMat m n).Ensures heap fun a after =>
      a = ⟨m, n, heap.limit⟩ ∧ after.limit = heap.limit + 1 ∧
        a.Cells after (Matrix.of fun (_ : Fin m) (_ : Fin n) => none) ∧
        Frame (fun _ => False) heap after := by
  apply (malloc_ensures (m * n) heap).bind
  rintro vals after ⟨rfl, limit, block, frame⟩
  refine ensures_pure ⟨rfl, limit, ⟨rfl, rfl, ?_, ?_⟩, frame⟩
  · rw [block, Block.size_uninitialised]
  · intro i j
    rw [block]
    rfl

/-- Only the memory of the matrix is freed. -/
theorem freeMat_ensures (a : Mat) (heap : Heap ℚ) :
    (freeMat a).Ensures heap fun _ after => a.Writes heap after :=
  free_ensures a.vals heap

end MotorStand
