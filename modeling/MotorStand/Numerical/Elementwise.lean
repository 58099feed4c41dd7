import MotorStand.Numerical.Inverse

/-!
# Sums, multiples and work in place

An entry of the result depends on the entries in its place only, and they are read before it is
written. So the result may be one of the arguments.
-/

namespace MotorStand

open Imperative Imperative.Exec Imperative.Heap

/-- The loops of `matadd` and `matsub`. -/
def elementwise (op : ℚ → ℚ → ℚ) (l r res : Mat) : Exec (Heap ℚ) Mat := do
  require (l.rows = r.rows ∧ l.cols = r.cols) "matrix dimensions must match"
  require (l.rows = res.rows ∧ l.cols = res.cols) "matrix dimensions must match"
  forUp 0 l.rows () fun m _ =>
    forUp 0 l.cols () fun n _ => do
      let pos := offset32 l.cols m n
      let left ← load l.vals pos
      let right ← load r.vals pos
      store res.vals pos (op left right)
  return res

/-- `matadd`. -/
def matadd (l r res : Mat) : Exec (Heap ℚ) Mat := elementwise (fun left right => left + right) l r res

/-- `matsub`. -/
def matsub (l r res : Mat) : Exec (Heap ℚ) Mat := elementwise (fun left right => left - right) l r res

/-- `matsca`. -/
def matsca (a as' : Mat) (scalar : ℚ) : Exec (Heap ℚ) Mat := do
  require (a.rows = as'.rows ∧ a.cols = as'.cols) "matrix dimensions must match"
  forUp 0 a.rows () fun m _ =>
    forUp 0 a.cols () fun n _ => do
      let val ← load a.vals (offset32 a.cols m n)
      store as'.vals (offset32 a.cols m n) (val * scalar)
  return as'

/-- `mattrn_inplace`. -/
def mattrnInplace (a : Mat) : Exec (Heap ℚ) Mat := do
  require (a.rows = a.cols) "matrix a must be square"
  let ad ← allocMat a.rows a.cols
  let _ ← mattrn a ad
  let _ ← matdup ad a
  freeMat ad
  return a

/-- `_matinv_inplace`. -/
def matinvInplace (a : Mat) : Exec (Heap ℚ) Mat := do
  let ad ← allocMat a.rows a.cols
  let _ ← matinv a ad
  let _ ← matdup ad a
  freeMat ad
  return a

/-! ## Results which are arguments -/

variable {m n : Nat} {a b l r res : Mat} {heap store after : Heap ℚ}
  {L R : Matrix (Fin m) (Fin n) ℚ} {contents : Matrix (Fin m) (Fin n) (Option ℚ)}

/-- What an argument has in the place which is filled next, though earlier places of it may have
been filled. -/
theorem Mat.Source.load_filling {A : Matrix (Fin m) (Fin n) ℚ} (source : l.Source heap L)
    (cells : res.Cells heap contents) (writes : res.Writes heap store) {i : Fin m} {j : Fin n}
    (held : res.Cells store (filled A contents i.val j.val)) :
    load l.vals (offset32 n i.val j.val) store = .ok (L i j, store) := by
  by_cases same : l.vals = res.vals
  · have unfilled : ¬ (i.val < i.val ∨ i.val = i.val ∧ j.val < j.val) := by omega
    have stored : filled A contents i.val j.val i j = some (L i j) := by
      rw [filled_apply, if_neg unfilled, ← cells.cell, ← same]
      exact source.holds.cell i j
    rw [same]
    exact held.load_returns source.small.le stored
  · exact (source.holds.of_writes writes same source.old).load_returns source.small.le i j

/-- Loops which store `A i j` at every entry, and find the arguments as they were. -/
theorem Mat.Object.ensures_fill (target : res.Object heap m n) (A : Matrix (Fin m) (Fin n) ℚ)
    {body : Nat → Nat → Exec (Heap ℚ) Unit}
    (fills : ∀ (contents : Matrix (Fin m) (Fin n) (Option ℚ)), res.Cells heap contents →
      ∀ (i : Fin m) (j : Fin n) store, res.Writes heap store →
        res.Cells store (filled A contents i.val j.val) →
        body i.val j.val store = .ok ((), store.set res.vals (j.val + i.val * n) (A i j))) :
    (do forUp 0 m () fun i _ => forUp 0 n () fun j _ => body i j
        return res : Exec (Heap ℚ) Mat).Ensures heap fun result after =>
      result = res ∧ res.Source after A ∧ res.Writes heap after := by
  obtain ⟨contents, cells⟩ := Mat.exists_cells target.rows target.cols target.size
  apply (cells.ensures_fill A (fills contents cells)).bind
  rintro _ after ⟨held, writes⟩
  exact ensures_pure ⟨rfl, ⟨held, target.old.trans_le writes.limit, target.small⟩, writes⟩

/-- Every entry is combined with its counterpart. -/
theorem elementwise_ensures (op : ℚ → ℚ → ℚ) (left : l.Source heap L) (right : r.Source heap R)
    (target : res.Object heap m n) :
    (elementwise op l r res).Ensures heap fun result after => result = res ∧
      res.Source after (Matrix.of fun i j => op (L i j) (R i j)) ∧ res.Writes heap after := by
  have rows := left.holds.rows
  have cols := left.holds.cols
  unfold elementwise
  apply Ensures.bind_returns (require_returns _
    ⟨rows.trans right.holds.rows.symm, cols.trans right.holds.cols.symm⟩)
  apply Ensures.bind_returns (require_returns _
    ⟨rows.trans target.rows.symm, cols.trans target.cols.symm⟩)
  rw [rows, cols]
  apply target.ensures_fill
  intro contents cells i j store writes held
  rw [bind_of_returns (left.load_filling cells writes held),
    bind_of_returns (right.load_filling cells writes held)]
  exact held.store_returns target.small.le i j _

/-- Every entry is scaled. -/
theorem matsca_ensures (scalar : ℚ) (source : a.Source heap L) (target : res.Object heap m n) :
    (matsca a res scalar).Ensures heap fun result after => result = res ∧
      res.Source after (Matrix.of fun i j => L i j * scalar) ∧ res.Writes heap after := by
  have rows := source.holds.rows
  have cols := source.holds.cols
  unfold matsca
  apply Ensures.bind_returns (require_returns _
    ⟨rows.trans target.rows.symm, cols.trans target.cols.symm⟩)
  rw [rows, cols]
  apply target.ensures_fill
  intro contents cells i j store writes held
  rw [bind_of_returns (source.load_filling cells writes held)]
  exact held.store_returns target.small.le i j _

/-- A copy may go where it comes from. -/
theorem matdup_copies (source : a.Source heap L) (target : res.Object heap m n) :
    (matdup a res).Ensures heap fun result after =>
      result = res ∧ res.Source after L ∧ res.Writes heap after := by
  have rows := source.holds.rows
  have cols := source.holds.cols
  unfold matdup
  apply Ensures.bind_returns (require_returns _
    ⟨rows.trans target.rows.symm, cols.trans target.cols.symm⟩)
  rw [rows, cols]
  apply target.ensures_fill
  intro contents cells i j store writes held
  rw [bind_of_returns (source.load_filling cells writes held)]
  exact held.store_returns target.small.le i j _

/-- On a matrix which is not square `matidn` fills the main diagonal. -/
theorem matidn_fills (target : res.Object heap m n) :
    (matidn res).Ensures heap fun result after => result = res ∧
      res.Source after (Matrix.of fun (i : Fin m) (j : Fin n) => if i.val = j.val then 1 else 0) ∧
        res.Writes heap after := by
  unfold matidn
  rw [target.rows, target.cols]
  apply target.ensures_fill
  intro contents cells i j store writes held
  by_cases same : i.val = j.val
  · rw [if_pos same, Matrix.of_apply, if_pos same]
    exact held.store_returns target.small.le i j 1
  · rw [if_neg same, Matrix.of_apply, if_neg same]
    exact held.store_returns target.small.le i j 0

/-- Every entry is cleared. -/
theorem matzro_fills (target : res.Object heap m n) :
    (matzro res).Ensures heap fun result after => result = res ∧
      res.Source after (Matrix.of fun (_ : Fin m) (_ : Fin n) => 0) ∧ res.Writes heap after := by
  unfold matzro
  rw [target.rows, target.cols]
  apply target.ensures_fill
  intro contents cells i j store writes held
  exact held.store_returns target.small.le i j 0

/-! ## In place -/

/-- The objects of the caller are as they were, besides those which were touched. -/
theorem Mat.Source.of_frame {A : Matrix (Fin m) (Fin n) ℚ} {touched : Nat → Prop}
    (source : a.Source heap A) (frame : Frame touched heap after) (apart : ¬ touched a.vals) :
    a.Source after A where
  holds := Mat.Cells.of_block_eq source.holds (frame.same a.vals source.old apart)
  old := source.old.trans_le frame.limit
  small := source.small

/-- Compute into a new matrix, copy it back and release it. -/
def replaceBy (compute : Mat → Exec (Heap ℚ) Mat) (a : Mat) : Exec (Heap ℚ) Mat := do
  let ad ← allocMat a.rows a.cols
  let _ ← compute ad
  let _ ← matdup ad a
  freeMat ad
  return a

/-- `mattrn_inplace` works on a copy. -/
theorem mattrnInplace_eq (a : Mat) :
    mattrnInplace a =
      require (a.rows = a.cols) "matrix a must be square" >>= fun _ => replaceBy (mattrn a) a := rfl

/-- `_matinv_inplace` works on a copy as well. -/
theorem matinvInplace_eq (a : Mat) : matinvInplace a = replaceBy (matinv a) a := rfl

/-- The temporary matrix is new, and nothing of it is left. -/
theorem replaceBy_ensures {compute : Mat → Exec (Heap ℚ) Mat} {A B : Matrix (Fin m) (Fin n) ℚ}
    (source : a.Source heap A)
    (computes : ∀ ad fresh, ad.Object fresh m n → a.vals ≠ ad.vals → a.Source fresh A →
      (compute ad).Ensures fresh fun _ after => ad.Source after B ∧ ad.Writes fresh after) :
    (replaceBy compute a).Ensures heap fun result after =>
      result = a ∧ a.Source after B ∧ a.Writes heap after := by
  have rows := source.holds.rows
  have cols := source.holds.cols
  unfold replaceBy
  rw [rows, cols]
  apply (allocMat_ensures m n heap).bind
  rintro _ fresh ⟨rfl, limit, cells, allocated⟩
  have apart : a.vals ≠ heap.limit := source.old.ne
  have here := source.of_frame allocated fun touched => touched
  have object := cells.object (by rw [limit]; exact Nat.lt_succ_self _) source.small
  apply (computes _ fresh object apart here).bind
  rintro _ computed ⟨temporary, wrote⟩
  have kept := here.of_frame wrote apart
  apply (matdup_copies temporary kept.object).bind
  rintro _ copied ⟨_, result, copies⟩
  apply (freeMat_ensures _ copied).bind
  rintro _ after released
  have old : heap.limit < copied.limit := by
    have grown := wrote.limit.trans copies.limit
    omega
  refine ensures_pure ⟨rfl, result.of_frame released apart, ?_⟩
  have new (address : Nat) (below : address < heap.limit) (is : address = heap.limit) :
      address = a.vals := absurd is below.ne
  have untouched : a.Writes heap fresh := allocated.weaken fun _ touched => touched.elim
  have first : a.Writes heap computed := untouched.trans_of_fresh wrote new
  exact (first.trans copies).trans_of_fresh released new

/-- A square matrix is transposed in its place. -/
theorem mattrnInplace_ensures {A : Matrix (Fin n) (Fin n) ℚ} (source : a.Source heap A) :
    (mattrnInplace a).Ensures heap fun result after =>
      result = a ∧ a.Source after A.transpose ∧ a.Writes heap after := by
  rw [mattrnInplace_eq]
  apply Ensures.bind_returns (require_returns _ (source.holds.rows.trans source.holds.cols.symm))
  apply replaceBy_ensures source
  intro ad fresh object apart here
  apply (mattrn_ensures here object apart).imp
  rintro _ after ⟨_, transposed, writes⟩
  exact ⟨transposed, writes⟩

/-- A regular matrix is inverted in its place. -/
theorem matinvInplace_ensures {A : Matrix (Fin n) (Fin n) ℚ} (source : a.Source heap A)
    (positive : 0 < n) (regular : A.det ≠ 0) :
    (matinvInplace a).Ensures heap fun result after =>
      result = a ∧ a.Source after A⁻¹ ∧ a.Writes heap after := by
  rw [matinvInplace_eq]
  apply replaceBy_ensures source
  intro ad fresh object apart here
  obtain ⟨contents, cells⟩ := Mat.exists_cells object.rows object.cols object.size
  apply (matinv_ensures here.holds cells apart positive here.small regular).imp
  rintro _ after ⟨_, writes, B, held, right⟩
  rw [Matrix.inv_eq_right_inv right]
  exact ⟨⟨held, object.old.trans_le writes.limit, here.small⟩, writes⟩

/-- A singular matrix stops at the assertion. -/
theorem matinvInplace_fails {A : Matrix (Fin n) (Fin n) ℚ} (source : a.Source heap A)
    (positive : 0 < n) (singular : A.det = 0) :
    matinvInplace a heap = .error (.assertion singularMessage) := by
  have rows := source.holds.rows
  have cols := source.holds.cols
  rw [matinvInplace_eq, replaceBy, rows, cols]
  apply (allocMat_ensures n n heap).bind_fails
  rintro _ fresh ⟨rfl, limit, cells, allocated⟩
  have here := source.of_frame allocated fun touched => touched
  have apart : a.vals ≠ heap.limit := source.old.ne
  exact bind_of_fails (matinv_fails here.holds cells apart positive source.small singular)

end MotorStand
