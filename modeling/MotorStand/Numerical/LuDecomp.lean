import MotorStand.Numerical.Matrix
import MotorStand.Algebra.Elimination
import Mathlib.Algebra.Order.Ring.Rat
import Mathlib.Data.NNRat.Lemmas
import Mathlib.Data.Matrix.PEquiv
import Mathlib.Data.Finset.Lattice.Fold
import Mathlib.Algebra.Order.Field.Basic
import Mathlib.Tactic.Positivity
import Mathlib.Tactic.FinCases

/-!
# `_lu_decomp_mat`

The decomposition works in place on `lu->m`. Its run either reaches a zero row or
a zero pivot, and then the matrix is singular, or leaves a `Decomposes` array
with the pivots in `indx` and the sign of the row order in `d`.
-/

namespace MotorStand

open Imperative Imperative.Exec Imperative.Heap Elimination

/-- `struct MATDECOMP`. No other function holds a pointer to `indx`. -/
structure MatDecomp where
  m : Mat
  indx : Block Nat
  d : ℚ

/-- What the main loop of `_lu_decomp_mat` assigns besides `lu->m`. -/
structure LuLocals where
  vv : Block ℚ
  indx : Block Nat
  d : ℚ

/-- The largest absolute value of row `i`. -/
def rowBig (m : Mat) (rows i : Nat) : Exec (Heap ℚ) ℚ :=
  forUp 0 rows 0 fun j big => do
    let val ← load m.vals (offset32 rows i j)
    let temp := |val|
    return if temp > big then temp else big

/-- The implicit scaling of every row, or an early return at a zero row. -/
def scaleRows (m : Mat) (rows : Nat) (vv : Block ℚ) : Exec (Heap ℚ) (Flow Unit (Block ℚ)) :=
  forUntil 0 rows vv fun i vv => do
    let big ← rowBig m rows i
    if big = 0 then return .leave ()
    else do
      let scale ← divide 1 big
      let vv ← vv.write i scale
      return .next vv

/-- The search for the pivot row of column `k`, as `(big, imax)`. -/
def pivotSearch (m : Mat) (rows : Nat) (vv : Block ℚ) (k : Nat) : Exec (Heap ℚ) (ℚ × Nat) :=
  forUp k rows (0, k) fun i best => do
    let scale ← vv.read i
    let val ← load m.vals (offset32 rows i k)
    let temp := scale * |val|
    return if temp > best.1 then (temp, i) else best

/-- Exchange rows `imax` and `k`, including the multipliers already stored. -/
def exchangeRows (m : Mat) (rows imax k : Nat) : Exec (Heap ℚ) Unit :=
  forUp 0 rows () fun j _ => do
    let temp ← load m.vals (offset32 rows imax j)
    let val ← load m.vals (offset32 rows k j)
    store m.vals (offset32 rows imax j) val
    store m.vals (offset32 rows k j) temp

/-- Divide by the pivot and reduce the rows below `k`. -/
def reduceRows (m : Mat) (rows k : Nat) : Exec (Heap ℚ) Unit :=
  forUp (k + 1) rows () fun i _ => do
    let val ← load m.vals (offset32 rows i k)
    let pivot ← load m.vals (offset32 rows k k)
    let temp ← divide val pivot
    store m.vals (offset32 rows i k) temp
    forUp (k + 1) rows () fun j _ => do
      let val ← load m.vals (offset32 rows i j)
      let upper ← load m.vals (offset32 rows k j)
      store m.vals (offset32 rows i j) (val - temp * upper)

/-- The exchange of the pivot row into place; nothing when it is there already. -/
def placePivot (m : Mat) (rows k imax : Nat) (locals : LuLocals) : Exec (Heap ℚ) LuLocals :=
  if k ≠ imax then do
    exchangeRows m rows imax k
    let scale ← locals.vv.read k
    let vv ← locals.vv.write imax scale
    return { locals with vv := vv, d := -locals.d }
  else return locals

/-- One iteration of the main loop, or an early return at a zero pivot. -/
def luStep (m : Mat) (rows k : Nat) (locals : LuLocals) :
    Exec (Heap ℚ) (Flow LuLocals LuLocals) := do
  let best ← pivotSearch m rows locals.vv k
  let locals ← placePivot m rows k best.2 locals
  let indx ← locals.indx.write k best.2
  let locals := { locals with indx := indx }
  let pivot ← load m.vals (offset32 rows k k)
  if pivot = 0 then return .leave locals
  else do
    reduceRows m rows k
    return .next locals

/-- The copy of `a` made when it is not decomposed in place. -/
def copyUnlessSame (a m : Mat) : Exec (Heap ℚ) Unit :=
  if a.vals ≠ m.vals then do
    require (a.rows = m.rows ∧ a.cols = m.cols) "matrix dimensions must match"
    let _ ← matdup a m
    return ()
  else return ()

/-- `_lu_decomp_mat`. -/
def luDecompMat (a : Mat) (lu : MatDecomp) : Exec (Heap ℚ) (Nat × MatDecomp) := do
  require (a.rows = a.cols) "matrix must be square"
  copyUnlessSame a lu.m
  let vv := Block.uninitialised ℚ a.rows
  match ← scaleRows lu.m a.rows vv with
  | .leave _ => return (0, { lu with d := 1 })
  | .next vv =>
      match ← forUntil 0 a.rows ⟨vv, lu.indx, 1⟩ (luStep lu.m a.rows) with
      | .leave locals => return (0, { lu with indx := locals.indx, d := locals.d })
      | .next locals => return (1, { lu with indx := locals.indx, d := locals.d })

/-- `_lu_decomp_mat` up to the start of step `k` of its main loop, or up to an earlier
return. -/
def luUntil (a : Mat) (lu : MatDecomp) (k : Nat) : Exec (Heap ℚ) (Flow LuLocals LuLocals) := do
  require (a.rows = a.cols) "matrix must be square"
  copyUnlessSame a lu.m
  let vv := Block.uninitialised ℚ a.rows
  match ← scaleRows lu.m a.rows vv with
  | .leave _ => return .leave ⟨vv, lu.indx, 1⟩
  | .next vv => forUntil 0 k ⟨vv, lu.indx, 1⟩ (luStep lu.m a.rows)

/-- The return of `_lu_decomp_mat` out of its main loop or behind it. -/
def luReturn (lu : MatDecomp) : Flow LuLocals LuLocals → Exec (Heap ℚ) (Nat × MatDecomp)
  | .leave locals => return (0, { lu with indx := locals.indx, d := locals.d })
  | .next locals => return (1, { lu with indx := locals.indx, d := locals.d })

/-- `luUntil` is the beginning of `_lu_decomp_mat`: what follows are the steps from `k` on. -/
theorem luDecompMat_eq (a : Mat) (lu : MatDecomp) {k : Nat} (ordered : k ≤ a.rows) :
    luDecompMat a lu =
      luUntil a lu k >>= resume (forUntil k a.rows · (luStep lu.m a.rows)) >>= luReturn lu := by
  unfold luDecompMat luUntil
  simp only [bind_assoc]
  congr 1
  funext _
  congr 1
  funext _
  congr 1
  funext flow
  cases flow with
  | leave _ => simp [resume, luReturn]
  | next vv =>
      have split := forUntil_split (luStep lu.m a.rows) ⟨vv, lu.indx, 1⟩ (Nat.zero_le k) ordered
      simp only
      rw [split, bind_assoc]
      rfl

/-! ## Row scales -/

variable {n : Nat}

/-- The absolute entries of row `i`. -/
def absRow (A : Matrix (Fin n) (Fin n) ℚ) (i j : Fin n) : ℚ≥0 := Rat.nnabs (A i j)

/-- The largest absolute entry of row `i`. -/
def rowLargest (A : Matrix (Fin n) (Fin n) ℚ) (i : Fin n) : ℚ :=
  (Finset.univ.sup (absRow A i) : ℚ≥0)

/-- The largest magnitude of a row is not negative. -/
theorem rowLargest_nonneg (A : Matrix (Fin n) (Fin n) ℚ) (i : Fin n) : 0 ≤ rowLargest A i :=
  NNRat.coe_nonneg _

/-- No entry of a row is larger. -/
theorem abs_le_rowLargest (A : Matrix (Fin n) (Fin n) ℚ) (i j : Fin n) :
    |A i j| ≤ rowLargest A i := by
  have bound : absRow A i j ≤ Finset.univ.sup (absRow A i) := Finset.le_sup (Finset.mem_univ j)
  have cast := NNRat.coe_le_coe.mpr bound
  simpa [rowLargest, absRow] using cast

/-- A bound which is attained, or zero, is the largest absolute entry. -/
theorem eq_rowLargest {A : Matrix (Fin n) (Fin n) ℚ} {i : Fin n} {big : ℚ}
    (bound : ∀ j, |A i j| ≤ big) (attained : big = 0 ∨ ∃ j, big = |A i j|) :
    big = rowLargest A i := by
  apply le_antisymm
  · rcases attained with rfl | ⟨j, rfl⟩
    · exact rowLargest_nonneg A i
    · exact abs_le_rowLargest A i j
  · have nonneg : 0 ≤ big := by
      rcases attained with rfl | ⟨j, rfl⟩
      · exact le_refl 0
      · exact abs_nonneg _
    lift big to ℚ≥0 using nonneg
    refine NNRat.coe_le_coe.mpr (Finset.sup_le ?_)
    intro j _
    refine NNRat.coe_le_coe.mp ?_
    simpa [absRow] using bound j

/-- The largest magnitude is zero exactly in a row of zeros. -/
theorem rowLargest_eq_zero_iff {A : Matrix (Fin n) (Fin n) ℚ} {i : Fin n} :
    rowLargest A i = 0 ↔ ∀ j, A i j = 0 := by
  constructor
  · intro zero j
    have bound := abs_le_rowLargest A i j
    rw [zero] at bound
    exact abs_nonpos_iff.mp bound
  · intro zero
    refine (eq_rowLargest (fun j => ?_) (Or.inl rfl)).symm
    rw [zero j, abs_zero]

variable {a m : Mat} {heap : Heap ℚ} {A W : Matrix (Fin n) (Fin n) ℚ}

/-- The loop over a row finds its largest magnitude. -/
theorem rowBig_ensures (reads : m.Reads heap W) (i : Fin n) :
    (rowBig m n i.val).Ensures heap fun big after => big = rowLargest W i ∧ after = heap := by
  refine (forUp_ensures (fun j big store => store = heap ∧
    (∀ c : Fin n, c.val < j → |W i c| ≤ big) ∧ (big = 0 ∨ ∃ c, big = |W i c|))
    (Nat.zero_le n) ⟨rfl, by simp, Or.inl rfl⟩ ?_).imp ?_
  · rintro j big _ _ below ⟨rfl, bound, attained⟩
    lift j to Fin n using below
    refine .bind_returns (reads i j) (ensures_pure ⟨rfl, ?_, ?_⟩)
    · intro c left
      by_cases here : c = j
      · subst here
        split
        · exact le_refl _
        · exact le_of_not_gt ‹_›
      · have earlier : |W i c| ≤ big := by
          apply bound c
          have apart : c.val ≠ j.val := fun equal => here (Fin.ext equal)
          omega
        split
        · exact earlier.trans (le_of_lt ‹_›)
        · exact earlier
    · split
      · exact Or.inr ⟨j, rfl⟩
      · exact attained
  · rintro big after ⟨same, bound, attained⟩
    exact ⟨eq_rowLargest (fun c => bound c c.isLt) attained, same⟩

/-- The scales `vv` of a matrix without a zero row. -/
def Scales (W : Matrix (Fin n) (Fin n) ℚ) (vv : Block ℚ) (upTo : Nat) : Prop :=
  vv.size = n ∧ ∀ i : Fin n, i.val < upTo →
    rowLargest W i ≠ 0 ∧ vv.cell i.val = some (1 / rowLargest W i)

/-- The scaling loop either stores the reciprocal of every row's largest entry or
returns because some row is zero. -/
theorem scaleRows_ensures (reads : m.Reads heap W) {vv : Block ℚ} (size : vv.size = n) :
    (scaleRows m n vv).Ensures heap fun flow after =>
      flow.Satisfies (fun vv => Scales W vv n ∧ after = heap)
        (fun _ => (∃ i, ∀ j, W i j = 0) ∧ after = heap) := by
  refine forUntil_ensures (fun i vv store => Scales W vv i ∧ store = heap)
    (fun _ store => (∃ i, ∀ j, W i j = 0) ∧ store = heap) (Nat.zero_le n)
    ⟨⟨size, by simp⟩, rfl⟩ ?_
  rintro i vv _ _ below ⟨⟨size, scaled⟩, rfl⟩
  lift i to Fin n using below
  apply (rowBig_ensures reads i).bind
  rintro big _ ⟨rfl, rfl⟩
  by_cases zero : rowLargest W i = 0
  · rw [if_pos zero]
    exact ensures_pure ⟨⟨i, rowLargest_eq_zero_iff.mp zero⟩, rfl⟩
  · rw [if_neg zero]
    refine .bind_returns (divide_returns 1 zero) ?_
    refine .bind_returns (Block.write_returns _ (by rw [size]; exact i.isLt)) ?_
    refine ensures_pure ⟨⟨size, ?_⟩, rfl⟩
    intro r upper
    rw [Block.cell_set]
    by_cases here : r = i
    · subst here
      exact ⟨zero, if_pos rfl⟩
    · have apart : r.val ≠ i.val := fun equal => here (Fin.ext equal)
      rw [if_neg apart]
      exact scaled r (by omega)

/-! ## Pivot search -/

/-- `p` maximises the scaled entry of column `k` among the active rows. -/
def BestPivot (W : Matrix (Fin n) (Fin n) ℚ) (scale : Fin n → ℚ) (k p : Fin n) : Prop :=
  k ≤ p ∧ ∀ i, k ≤ i → scale i * |W i k| ≤ scale p * |W p k|

/-- The loop over a column finds the best pivot. -/
theorem pivotSearch_ensures (reads : m.Reads heap W) {vv : Block ℚ} {scale : Fin n → ℚ}
    {k : Fin n} (size : vv.size = n)
    (scales : ∀ i : Fin n, k ≤ i → 0 < scale i ∧ vv.cell i.val = some (scale i)) :
    (pivotSearch m n vv k.val).Ensures heap fun best after =>
      ∃ p : Fin n, best.2 = p.val ∧ BestPivot W scale k p ∧ after = heap := by
  refine (forUp_ensures (fun i best store => store = heap ∧ ∃ p : Fin n, best.2 = p.val ∧ k ≤ p ∧
    best.1 ≤ scale p * |W p k| ∧
    ∀ r : Fin n, k ≤ r → r.val < i → scale r * |W r k| ≤ best.1)
    k.isLt.le ⟨rfl, k, rfl, le_refl k, ?_, ?_⟩ ?_).imp ?_
  · exact mul_nonneg (scales k (le_refl k)).1.le (abs_nonneg _)
  · intro r active searched
    exact absurd searched (not_lt.mpr active)
  · rintro i best _ lower upper ⟨rfl, p, place, active, attained, bound⟩
    lift i to Fin n using upper
    have here := scales i lower
    refine .bind_returns (Block.read_returns (by rw [size]; exact i.isLt) here.2) ?_
    refine .bind_returns (reads i k) ?_
    by_cases larger : scale i * |W i k| > best.1
    · refine ensures_pure ⟨rfl, i, ?_, lower, ?_, ?_⟩
      · simp only [if_pos larger]
      · simp only [if_pos larger]
        exact le_refl _
      · intro r active searched
        simp only [if_pos larger]
        by_cases same : r = i
        · rw [same]
        · have apart : r.val ≠ i.val := fun equal => same (Fin.ext equal)
          exact (bound r active (by omega)).trans larger.le
    · refine ensures_pure ⟨rfl, p, ?_, active, ?_, ?_⟩
      · simpa only [if_neg larger] using place
      · simpa only [if_neg larger] using attained
      · intro r active searched
        simp only [if_neg larger]
        by_cases same : r = i
        · rw [same]
          exact not_lt.mp larger
        · have apart : r.val ≠ i.val := fun equal => same (Fin.ext equal)
          exact bound r active (by omega)
  · rintro best after ⟨same, p, place, active, attained, bound⟩
    exact ⟨p, place, ⟨active, fun i above => (bound i above i.isLt).trans attained⟩, same⟩

/-- With positive scales, a zero at the best pivot clears the active column. -/
theorem BestPivot.column_zero {scale : Fin n → ℚ} {k p : Fin n} (best : BestPivot W scale k p)
    (positive : ∀ i, k ≤ i → 0 < scale i) (zero : W p k = 0) {i : Fin n} (active : k ≤ i) :
    W i k = 0 := by
  have bound := best.2 i active
  rw [zero, abs_zero, mul_zero] at bound
  have product := le_antisymm bound (mul_nonneg (positive i active).le (abs_nonneg _))
  have entry := (mul_eq_zero.mp product).resolve_left (positive i active).ne'
  exact abs_eq_zero.mp entry

/-! ## Row exchange -/

/-- Rows `p` and `q` exchanged in the columns left of `j`. -/
def exchanged (W : Matrix (Fin n) (Fin n) ℚ) (p q : Fin n) (j : Nat) :
    Matrix (Fin n) (Fin n) ℚ :=
  Matrix.of fun r c => if c.val < j then swapRows p q W r c else W r c

/-- The entries of a matrix in the middle of an exchange. -/
theorem exchanged_apply (W : Matrix (Fin n) (Fin n) ℚ) (p q : Fin n) (j : Nat) (r c : Fin n) :
    exchanged W p q j r c = if c.val < j then W (Equiv.swap p q r) c else W r c := rfl

/-- One more column is exchanged. -/
theorem exchanged_set (W : Matrix (Fin n) (Fin n) ℚ) (p q j : Fin n) :
    setEntry (setEntry ((exchanged W p q j.val).map some) p j (some (W q j))) q j
      (some (W p j)) = (exchanged W p q (j.val + 1)).map some := by
  ext r c
  rw [setEntry_apply, setEntry_apply, Matrix.map_apply, Matrix.map_apply, exchanged_apply,
    exchanged_apply]
  by_cases column : c = j
  · subst column
    by_cases atQ : r = q
    · subst atQ
      simp
    · by_cases atP : r = p
      · subst atP
        simp [atQ]
      · simp [atQ, atP, Equiv.swap_apply_of_ne_of_ne atP atQ]
  · have apart : c.val ≠ j.val := fun equal => column (Fin.ext equal)
    have same : c.val < j.val + 1 ↔ c.val < j.val := by omega
    simp only [column, and_false, if_false, same]

/-- The loop over the columns exchanges two rows. -/
theorem exchangeRows_ensures (holds : m.Holds heap W) (small : n * n ≤ 2 ^ 32) {p q : Fin n} :
    (exchangeRows m n p.val q.val).Ensures heap fun _ after =>
      m.Holds after (swapRows p q W) ∧ m.Writes heap after := by
  refine (forUp_ensures (fun j _ store => m.Holds store (exchanged W p q j) ∧
    m.Writes heap store) (Nat.zero_le n) ⟨?_, .refl _⟩ ?_).imp ?_
  · have start : exchanged W p q 0 = W := by
      ext r c
      simp [exchanged_apply]
    rwa [start]
  · rintro j _ store _ below ⟨held, frame⟩
    lift j to Fin n using below
    refine .bind_returns (held.load_returns small p j) ?_
    refine .bind_returns (held.load_returns small q j) ?_
    refine .bind_returns (Mat.Cells.store_returns held small p j _) ?_
    have once := Mat.Cells.set held p j (exchanged W p q j.val q j)
    refine .of_returns (once.store_returns small q j _)
      ⟨?_, (frame.trans (m.writes_set store _ _)).trans (m.writes_set _ _ _)⟩
    have twice := once.set q j (exchanged W p q j.val p j)
    have untouched : ∀ r, exchanged W p q j.val r j = W r j := fun r => if_neg (lt_irrefl _)
    rw [untouched, untouched, exchanged_set] at twice
    simp only [untouched]
    exact twice
  · rintro _ after ⟨held, frame⟩
    have finish : exchanged W p q n = swapRows p q W := by
      ext r c
      simp [exchanged]
    exact ⟨finish ▸ held, frame⟩

/-! ## Elimination -/

/-- Up to and including row `k`, elimination changes nothing. -/
theorem filled_eliminate_start (k : Fin n) (W : Matrix (Fin n) (Fin n) ℚ) :
    filled (eliminate k W) (W.map some) (k.val + 1) 0 = W.map some := by
  ext r c
  rw [filled_apply]
  split
  · have upper : r ≤ k := by
      rw [Fin.le_def]
      omega
    simp [eliminate_apply, upper]
  · rfl

/-- The columns left of `k` are not changed either. -/
theorem filled_eliminate_left (k i : Fin n) (W : Matrix (Fin n) (Fin n) ℚ) :
    filled (eliminate k W) (W.map some) i.val 0 =
      filled (eliminate k W) (W.map some) i.val k.val := by
  ext r c
  rw [filled_apply, filled_apply]
  by_cases done : r.val < i.val
  · rw [if_pos (Or.inl done), if_pos (Or.inl done)]
  · rw [if_neg (by omega)]
    split
    · have column : c < k := by
        rw [Fin.lt_def]
        omega
      simp [eliminate_apply, column]
    · rfl

/-- The rows below the pivot are reduced by a step of the elimination. -/
theorem reduceRows_ensures (holds : m.Holds heap W) (small : n * n ≤ 2 ^ 32) {k : Fin n}
    (pivot : W k k ≠ 0) :
    (reduceRows m n k.val).Ensures heap fun _ after =>
      m.Holds after (eliminate k W) ∧ m.Writes heap after := by
  refine (forUp_ensures (fun i _ store =>
    m.Cells store (filled (eliminate k W) (W.map some) i 0) ∧ m.Writes heap store)
    k.isLt ⟨?_, .refl _⟩ ?_).imp ?_
  · rwa [filled_eliminate_start]
  · rintro i _ store lower upper ⟨held, frame⟩
    lift i to Fin n using upper
    have below : ¬ i ≤ k := by
      rw [Fin.le_def]
      omega
    have pivotRow : ∀ j c : Fin n,
        filled (eliminate k W) (W.map some) i.val j.val k c = some (W k c) := by
      intro j c
      rw [filled_apply]
      split
      · simp [eliminate_apply]
      · rfl
    have current : ∀ j : Fin n,
        filled (eliminate k W) (W.map some) i.val j.val i j = some (W i j) := by
      intro j
      rw [filled_apply, if_neg (by omega)]
      rfl
    rw [filled_eliminate_left] at held
    refine .bind_returns (held.load_returns small (current k)) ?_
    refine .bind_returns (held.load_returns small (pivotRow k k)) ?_
    refine .bind_returns (divide_returns _ pivot) ?_
    have multiplier : eliminate k W i k = W i k / W k k := by
      simp [eliminate_apply, below]
    have stored := held.set i k (W i k / W k k)
    rw [← multiplier, filled_set] at stored
    refine .bind_returns (held.store_returns small i k _) ?_
    refine (forUp_ensures (fun j _ store =>
      m.Cells store (filled (eliminate k W) (W.map some) i.val j) ∧ m.Writes heap store)
      k.isLt ⟨by rwa [← multiplier], frame.trans (m.writes_set store _ _)⟩ ?_).imp ?_
    · rintro j _ store right inside ⟨held, frame⟩
      lift j to Fin n using inside
      refine .bind_returns (held.load_returns small (current j)) ?_
      refine .bind_returns (held.load_returns small (pivotRow j j)) ?_
      have reduced : eliminate k W i j = W i j - W i k / W k k * W k j := by
        have notLeft : ¬ j < k := by
          rw [Fin.lt_def]
          omega
        have notPivot : j ≠ k := by
          rintro rfl
          omega
        simp [eliminate_apply, below, notLeft, notPivot]
      have stored := held.set i j (W i j - W i k / W k k * W k j)
      rw [← reduced, filled_set] at stored
      refine .of_returns (held.store_returns small i j _)
        ⟨by rwa [← reduced], frame.trans (m.writes_set store _ _)⟩
    · rintro _ after ⟨held, frame⟩
      exact ⟨by rwa [filled_row] at held, frame⟩
  · rintro _ after ⟨held, frame⟩
    exact ⟨by rwa [filled_all] at held, frame⟩

/-! ## The main loop -/

/-- The state of the decomposition of `A` before step `k`: `W` is in `lu->m`. -/
structure LuState (A W : Matrix (Fin n) (Fin n) ℚ) (pivots : Fin n → Fin n) (k : Nat)
    (locals : LuLocals) : Prop where
  active : ∀ t : Fin n, t.val < k → t ≤ pivots t
  indxSize : n ≤ locals.indx.size
  stored : ∀ t : Fin n, t.val < k → locals.indx.cell t.val = some (pivots t).val
  factored : lowerPart k W * upperPart k W = A.submatrix (rowOrder pivots k) id
  diagonal : ∀ t : Fin n, t.val < k → W t t ≠ 0
  sign : locals.d = (Equiv.Perm.sign (rowOrder pivots k) : ℤ)
  vvSize : locals.vv.size = n
  scaled : ∀ i : Fin n, k ≤ i.val →
    locals.vv.cell i.val = some (1 / rowLargest A (rowOrder pivots k i))

/-- The run starts with the matrix itself and no swaps. -/
theorem LuState.start {vv : Block ℚ} {indx : Block Nat} (scales : Scales A vv n)
    (size : n ≤ indx.size) (pivots : Fin n → Fin n) : LuState A A pivots 0 ⟨vv, indx, 1⟩ where
  active := by simp
  indxSize := size
  stored := by simp
  factored := by simp [rowOrder]
  diagonal := by simp
  sign := by simp [rowOrder]
  vvSize := scales.1
  scaled := by
    intro i _
    simpa [rowOrder] using (scales.2 i i.isLt).2

/-- A determinant is zero when the reordered matrix has a zero determinant. -/
theorem det_eq_zero_of_reordered {order : Equiv.Perm (Fin n)}
    (zero : (A.submatrix order id).det = 0) : A.det = 0 := by
  rw [Matrix.det_permute] at zero
  refine (mul_eq_zero.mp zero).resolve_left ?_
  rcases Int.units_eq_one_or (Equiv.Perm.sign order) with plus | minus
  · simp [plus]
  · simp [minus]

/-- A cleared active column makes the matrix singular. -/
theorem LuState.det_eq_zero {pivots : Fin n → Fin n} {k : Fin n} {locals : LuLocals}
    (state : LuState A W pivots k.val locals) (empty : ∀ i, k ≤ i → W i k = 0) : A.det = 0 := by
  apply det_eq_zero_of_reordered
  rw [← state.factored, Matrix.det_mul, det_upperPart_eq_zero k W empty, mul_zero]

/-- What `placePivot` leaves in the locals when row `p` is brought to `k`. -/
structure Placed (k p : Fin n) (before after : LuLocals) : Prop where
  indx : after.indx = before.indx
  vvSize : after.vv.size = before.vv.size
  vv : ∀ i : Fin n, i ≠ k → after.vv.cell i.val = before.vv.cell (Equiv.swap k p i).val
  d : after.d = before.d * (Equiv.Perm.sign (Equiv.swap k p) : ℤ)

/-- The pivot is brought into its place, and its scale with it. -/
theorem placePivot_ensures (holds : m.Holds heap W) (small : n * n ≤ 2 ^ 32) {k p : Fin n}
    {locals : LuLocals} {scale : ℚ} (size : locals.vv.size = n)
    (stored : locals.vv.cell k.val = some scale) :
    (placePivot m n k.val p.val locals).Ensures heap fun after store =>
      Placed k p locals after ∧ m.Holds store (swapRows p k W) ∧ m.Writes heap store := by
  unfold placePivot
  by_cases moved : k = p
  · subst moved
    rw [if_neg (by simp)]
    refine ensures_pure ⟨⟨rfl, rfl, ?_, ?_⟩, ?_, .refl _⟩
    · intro i _
      rw [Equiv.swap_self]
      rfl
    · rw [Equiv.swap_self]
      simp
    · have same : swapRows k k W = W := by
        simp [swapRows]
      rwa [same]
  · rw [if_pos (fun equal => moved (Fin.ext equal))]
    apply (exchangeRows_ensures holds small).bind
    rintro _ store ⟨held, frame⟩
    refine .bind_returns (Block.read_returns (by rw [size]; exact k.isLt) stored) ?_
    refine .bind_returns (Block.write_returns scale (by rw [size]; exact p.isLt)) ?_
    refine ensures_pure ⟨⟨rfl, rfl, ?_, ?_⟩, held, frame⟩
    · intro i apart
      rw [Block.cell_set]
      by_cases atP : i = p
      · subst atP
        rw [if_pos rfl, Equiv.swap_apply_right, stored]
      · rw [if_neg (fun equal => atP (Fin.ext equal)), Equiv.swap_apply_of_ne_of_ne apart atP]
    · simp [Equiv.Perm.sign_swap moved]

/-- One step of elimination with row `p` as pivot row. -/
theorem LuState.next {pivots : Fin n → Fin n} {k p : Fin n} {locals placed : LuLocals}
    (state : LuState A W pivots k.val locals) (active : k ≤ p) (place : Placed k p locals placed)
    (pivot : swapRows p k W k k ≠ 0) :
    LuState A (eliminate k (swapRows p k W)) (Function.update pivots k p) (k.val + 1)
      { placed with indx := placed.indx.set k.val p.val } := by
  have order : rowOrder (Function.update pivots k p) (k.val + 1) =
      rowOrder pivots k.val * Equiv.swap k p := by
    rw [rowOrder_succ, Function.update_self]
    congr 1
    apply rowOrder_congr
    intro t before
    have apart : t ≠ k := by
      rintro rfl
      omega
    rw [Function.update_of_ne apart]
  refine ⟨?_, ?_, ?_, ?_, ?_, ?_, ?_, ?_⟩
  · intro t before
    by_cases here : t = k
    · subst here
      simpa using active
    · have apart : t.val ≠ k.val := fun equal => here (Fin.ext equal)
      simpa [Function.update_of_ne here] using state.active t (by omega)
  · rw [Block.size_set, place.indx]
    exact state.indxSize
  · intro t before
    rw [Block.cell_set, place.indx]
    by_cases here : t = k
    · subst here
      simp
    · have apart : t.val ≠ k.val := fun equal => here (Fin.ext equal)
      rw [if_neg apart, Function.update_of_ne here]
      exact state.stored t (by omega)
  · rw [factors_eliminate k _ pivot, factors_swapRows active (le_refl _),
      state.factored, order, Equiv.swap_comm]
    rfl
  · intro t before
    by_cases here : t = k
    · subst here
      simpa [eliminate_apply] using pivot
    · have apart : t.val ≠ k.val := fun equal => here (Fin.ext equal)
      have early : t.val < k.val := by omega
      have fixed := swap_of_lt active (le_refl k.val) early
      have upper : t ≤ k := early.le
      simpa [eliminate_apply, upper, swapRows, fixed] using state.diagonal t early
  · rw [order, place.d, state.sign, Equiv.Perm.sign_mul, Units.val_mul, Int.cast_mul]
  · rw [place.vvSize, state.vvSize]
  · intro i later
    have apart : i ≠ k := by
      rintro rfl
      omega
    have stillActive : k.val ≤ (Equiv.swap k p i).val := by
      have notBefore := (swap_val_lt_iff (le_refl k.val) active i).not
      omega
    rw [place.vv i apart, state.scaled _ stillActive, order]
    rfl

/-- Every step either reaches the next state, with the best pivot row in place, or finds `A`
singular. -/
theorem luStep_ensures (holds : m.Holds heap W) (small : n * n ≤ 2 ^ 32)
    (regular : ∀ i, rowLargest A i ≠ 0) {pivots : Fin n → Fin n} {k : Fin n}
    {locals : LuLocals} (state : LuState A W pivots k.val locals) :
    (luStep m n k.val locals).Ensures heap fun flow after =>
      m.Writes heap after ∧ flow.Satisfies
        (fun next => ∃ p, BestPivot W (fun i => 1 / rowLargest A (rowOrder pivots k.val i)) k p ∧
          ∃ V, LuState A V (Function.update pivots k p) (k.val + 1) next ∧ m.Holds after V)
        (fun _ => A.det = 0) := by
  have positive : ∀ i : Fin n, 0 < 1 / rowLargest A (rowOrder pivots k.val i) := fun i =>
    one_div_pos.mpr (lt_of_le_of_ne (rowLargest_nonneg A _) (regular _).symm)
  refine (pivotSearch_ensures (holds.reads small) state.vvSize
    (fun i active => ⟨positive i, state.scaled i active⟩)).bind ?_
  rintro ⟨big, imax⟩ _ ⟨p, rfl, best, rfl⟩
  apply (placePivot_ensures holds small state.vvSize (state.scaled k (le_refl _))).bind
  rintro placed store ⟨place, held, frame⟩
  have inside : k.val < placed.indx.size := by
    rw [place.indx]
    exact k.isLt.trans_le state.indxSize
  refine .bind_returns (Block.write_returns _ inside) ?_
  refine .bind_returns (held.load_returns small k k) ?_
  by_cases zero : swapRows p k W k k = 0
  · rw [if_pos zero]
    have pivotEntry : W p k = 0 := by
      simpa [swapRows] using zero
    exact ensures_pure ⟨frame, state.det_eq_zero fun i active =>
      best.column_zero (fun i _ => positive i) pivotEntry active⟩
  · rw [if_neg zero]
    apply (reduceRows_ensures held small zero).bind
    rintro _ after ⟨reduced, writes⟩
    exact ensures_pure ⟨frame.trans writes, p, best, _, state.next best.1 place zero, reduced⟩

/-- What a successful decomposition of `A` leaves behind. -/
structure LuResult (A : Matrix (Fin n) (Fin n) ℚ) (lu : MatDecomp) (heap : Heap ℚ)
    (W : Matrix (Fin n) (Fin n) ℚ) (pivots : Fin n → Fin n) : Prop where
  decomposes : Decomposes A W pivots
  holds : lu.m.Holds heap W
  indxSize : n ≤ lu.indx.size
  stored : ∀ k : Fin n, lu.indx.cell k.val = some (pivots k).val
  sign : lu.d = (Equiv.Perm.sign (rowOrder pivots n) : ℤ)

/-- The state after the last step is a finished decomposition. -/
theorem LuState.finish {pivots : Fin n → Fin n} {lu : MatDecomp} {locals : LuLocals}
    (state : LuState A W pivots n locals) (holds : lu.m.Holds heap W) :
    LuResult A { lu with indx := locals.indx, d := locals.d } heap W pivots where
  decomposes :=
    ⟨fun k => state.active k k.isLt, state.factored, fun k => state.diagonal k k.isLt⟩
  holds := holds
  indxSize := state.indxSize
  stored := fun k => state.stored k k.isLt
  sign := state.sign

/-- `lu->m` is `a` itself or a separate matrix of the same size, and `indx` has room for
every pivot. -/
def LuTarget (a : Mat) (heap : Heap ℚ) (n : Nat) (lu : MatDecomp) : Prop :=
  n ≤ lu.indx.size ∧ (lu.m = a ∨ lu.m.vals ≠ a.vals ∧ a.vals < heap.limit ∧
    ∃ contents : Matrix (Fin n) (Fin n) (Option ℚ), lu.m.Cells heap contents)

/-- The callers' side of `LuTarget`. -/
theorem luTarget_of_sizes (holds : a.Holds heap A) (positive : 1 ≤ n) {lu : MatDecomp}
    (room : n ≤ lu.indx.size)
    (target : lu.m = a ∨ lu.m.vals ≠ a.vals ∧ lu.m.rows = n ∧ lu.m.cols = n ∧
      (heap.block lu.m.vals).size = n * n) : LuTarget a heap n lu := by
  refine ⟨room, ?_⟩
  rcases target with same | ⟨apart, rows, cols, size⟩
  · exact .inl same
  · have old : a.vals < heap.limit := Mat.Cells.lt_limit holds (Nat.mul_pos positive positive)
    exact .inr ⟨apart, old, Mat.exists_cells rows cols size⟩

/-- The matrix is in the place of the decomposition afterwards. -/
theorem copyUnlessSame_ensures (holds : a.Holds heap A) (small : n * n ≤ 2 ^ 32)
    {lu : MatDecomp} (target : LuTarget a heap n lu) :
    (copyUnlessSame a lu.m).Ensures heap fun _ after =>
      lu.m.Holds after A ∧ lu.m.Writes heap after := by
  unfold copyUnlessSame
  rcases target.2 with same | ⟨apart, old, contents, cells⟩
  · rw [same, if_neg (by simp)]
    exact ensures_pure ⟨holds, .refl _⟩
  · rw [if_pos apart.symm]
    refine .bind_returns (require_returns _
      ⟨holds.rows.trans cells.rows.symm, holds.cols.trans cells.cols.symm⟩) ?_
    apply (matdup_ensures holds cells apart.symm old small).bind
    rintro _ after ⟨rfl, copied, frame⟩
    exact ensures_pure ⟨copied, frame⟩

/-- `_lu_decomp_mat` comes to the start of step `k` in the state of that step, or it has
returned because `a` is singular. -/
theorem luUntil_ensures (holds : a.Holds heap A) (small : n * n ≤ 2 ^ 32) {lu : MatDecomp}
    (target : LuTarget a heap n lu) {k : Nat} (ordered : k ≤ n) :
    (luUntil a lu k).Ensures heap fun flow after =>
      lu.m.Writes heap after ∧ flow.Satisfies
        (fun locals => (∀ i, rowLargest A i ≠ 0) ∧
          ∃ W pivots, LuState A W pivots k locals ∧ lu.m.Holds after W)
        (fun _ => A.det = 0) := by
  unfold luUntil
  refine .bind_returns (require_returns _ (holds.rows.trans holds.cols.symm)) ?_
  apply (copyUnlessSame_ensures holds small target).bind
  rintro _ copied ⟨held, frame⟩
  rw [holds.rows]
  apply (scaleRows_ensures (held.reads small) rfl).bind
  rintro (vv | _) store scaled
  · obtain ⟨scales, rfl⟩ := scaled
    have regular : ∀ i, rowLargest A i ≠ 0 := fun i => (scales.2 i i.isLt).1
    refine (forUntil_ensures
      (fun k locals store => lu.m.Writes heap store ∧
        ∃ W pivots, LuState A W pivots k locals ∧ lu.m.Holds store W)
      (fun _ store => lu.m.Writes heap store ∧ A.det = 0) (Nat.zero_le k)
      ⟨frame, A, id, .start scales target.1 id, held⟩ ?_).imp ?_
    · rintro t locals store _ below ⟨frame, W, pivots, state, held⟩
      lift t to Fin n using below.trans_le ordered
      apply (luStep_ensures held small regular state).imp
      rintro (locals | locals) after ⟨writes, stepped⟩
      · obtain ⟨p, -, V, next, held⟩ := stepped
        exact ⟨frame.trans writes, V, _, next, held⟩
      · exact ⟨frame.trans writes, stepped⟩
    · rintro (locals | locals) after finished
      · exact ⟨finished.1, regular, finished.2⟩
      · exact finished
  · obtain ⟨⟨i, zero⟩, rfl⟩ := scaled
    exact ensures_pure ⟨frame, Matrix.det_eq_zero_of_row_eq_zero i zero⟩

/-- `_lu_decomp_mat` returns 1 with a decomposition of the initial contents of
`a`, or 0 when they are singular, and writes `lu->m` only. -/
theorem luDecompMat_ensures (holds : a.Holds heap A) (small : n * n < 2 ^ 32)
    {lu : MatDecomp} (target : LuTarget a heap n lu) :
    (luDecompMat a lu).Ensures heap fun result after =>
      result.2.m = lu.m ∧ lu.m.Writes heap after ∧
        (result.1 = 1 ∧ (∃ W pivots, LuResult A result.2 after W pivots) ∨
          result.1 = 0 ∧ A.det = 0) := by
  rw [luDecompMat_eq a lu (le_refl a.rows), holds.rows, bind_assoc]
  apply (luUntil_ensures holds small.le target (le_refl n)).bind
  rintro (locals | locals) after ⟨writes, reached⟩
  · obtain ⟨-, W, pivots, state, held⟩ := reached
    simp only [resume, forUntil_self, pure_bind]
    exact ensures_pure ⟨rfl, writes, Or.inl ⟨rfl, W, pivots, state.finish held⟩⟩
  · simp only [resume, pure_bind]
    exact ensures_pure ⟨rfl, writes, Or.inr ⟨rfl, reached⟩⟩

/-- The contract of `_lu_decomp_mat` for the initial contents `A` of `a`: the flag tells
whether `A` is regular, and then `lu` holds the factors, the swaps and their sign. -/
structure LuContract (A : Matrix (Fin n) (Fin n) ℚ) (lu : MatDecomp)
    (result : Nat × MatDecomp) (after : Heap ℚ) : Prop where
  matrix : result.2.m = lu.m
  flag : result.1 = 1 ∧ A.det ≠ 0 ∨ result.1 = 0 ∧ A.det = 0
  factors : result.1 = 1 → ∃ W pivots, lu.m.Holds after W ∧
    (∀ k : Fin n, k ≤ pivots k ∧ result.2.indx.cell k.val = some (pivots k).val) ∧
    lowerPart n W * upperPart n W = (rowOrder pivots n).toPEquiv.toMatrix * A ∧
    result.2.d = (Equiv.Perm.sign (rowOrder pivots n) : ℤ)

/-- `_lu_decomp_mat` factorises exactly the regular matrices, of every size and also in
place. -/
theorem luDecompMat_factorises (holds : a.Holds heap A) (positive : 1 ≤ n)
    (small : n * n < 2 ^ 32) {lu : MatDecomp} (room : n ≤ lu.indx.size)
    (target : lu.m = a ∨ lu.m.vals ≠ a.vals ∧ lu.m.rows = n ∧ lu.m.cols = n ∧
      (heap.block lu.m.vals).size = n * n) :
    (luDecompMat a lu).Ensures heap (LuContract A lu) := by
  have place := luTarget_of_sizes holds positive room target
  apply (luDecompMat_ensures holds small place).imp
  rintro result after ⟨matrix, -, ⟨success, W, pivots, factored⟩ | ⟨failure, singular⟩⟩
  · refine ⟨matrix, .inl ⟨success, factored.decomposes.det_ne_zero⟩, fun _ => ⟨W, pivots, ?_⟩⟩
    have held := factored.holds
    rw [matrix] at held
    refine ⟨held, fun k => ⟨factored.decomposes.active k, factored.stored k⟩, ?_, factored.sign⟩
    rw [factored.decomposes.product, PEquiv.toMatrix_toPEquiv_mul]
  · refine ⟨matrix, .inr ⟨failure, singular⟩, fun success => ?_⟩
    rw [failure] at success
    cases success

/-- The matrix `[0 2; 3 4]`, whose rows have to be exchanged. -/
def zeroCorner : Heap ℚ := (Heap.empty ℚ).extend ⟨4, fun k => [(0 : ℚ), 2, 3, 4][k]?⟩

/-- `[0 2; 3 4]` decomposed in place. -/
theorem luDecompMat_factorises_zeroCorner :
    (luDecompMat ⟨2, 2, 0⟩ ⟨⟨2, 2, 0⟩, .uninitialised Nat 2, 0⟩).Ensures zeroCorner
      (LuContract !![0, 2; 3, 4] ⟨⟨2, 2, 0⟩, .uninitialised Nat 2, 0⟩) := by
  refine luDecompMat_factorises ⟨rfl, rfl, rfl, ?_⟩ (by decide) (by decide) (le_refl 2) (.inl rfl)
  intro i j
  fin_cases i <;> fin_cases j <;> rfl

end MotorStand
