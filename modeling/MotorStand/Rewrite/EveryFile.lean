import MotorStand.Rewrite.OutputRewrite
import MotorStand.Text.Pieces

/-!
# Files of any kind

A line which does not fit in `buf` is read in pieces, and `output_rewrite` takes each piece
for a line.
-/

namespace MotorStand

open CText Imperative Imperative.Exec

/-- The row of every line which begins with a digit, as far as `buf` holds the line. -/
def lineRows (log : List Char) : List DataRow :=
  ((textLines log).filter startsWithDigit).map fun line =>
    parseRow (cString (line.take (sizeofBuf - 1)))

/-- The tool appends one row per line which begins with a digit, in order. -/
def HandlesFile (path log : List Char) : Prop :=
  ∀ store, (outputRewrite path log).Ensures store fun _ after =>
    after.adjusted = store.adjusted ++ rewrittenText (lineRows log)

variable {path log : List Char}

/-- The first piece of a line starts as the line does. -/
theorem startsWithDigit_take (line : List Char) :
    startsWithDigit (line.take (1022 + 1)) = startsWithDigit line := by
  cases line <;> rfl

/-- There is a row more for every further piece which starts with a digit. -/
theorem rowsIn_length (log : List Char) :
    (rowsIn log).length = (lineRows log).length +
      (continuations (sizeofBuf - 1) log).countP startsWithDigit := by
  have count := countP_fgetsAll startsWithDigit_take log
  rw [List.countP_eq_length_filter, List.countP_eq_length_filter] at count
  rw [rowsIn, rowsOf, lineRows, List.length_map, List.length_map]
  exact count

/-- Without such pieces the rows are those of the lines. -/
theorem rowsIn_eq_lineRows
    (none : ∀ piece ∈ continuations (sizeofBuf - 1) log, startsWithDigit piece = false) :
    rowsIn log = lineRows log := by
  have kept : (fgetsAll (sizeofBuf - 1) log).filter startsWithDigit =
      ((textLines log).filter startsWithDigit).map (List.take (sizeofBuf - 1)) :=
    filter_fgetsAll startsWithDigit_take none
  rw [rowsIn, rowsOf, kept, List.map_map]
  rfl

/-! ## Which files are handled -/

/-- A file is handled exactly if it is rewritten and no row is made of a piece. -/
theorem handlesFile_iff_rewritable (path log : List Char) :
    HandlesFile path log ↔ Rewritable path log ∧
      ∀ piece ∈ continuations (sizeofBuf - 1) log, startsWithDigit piece = false := by
  have outcome (store : RewriteStore) : ((outputRewrite path log).Ensures store fun _ after =>
      after.adjusted = store.adjusted ++ rewrittenText (lineRows log)) ↔
      Rewritable path log ∧ rewrittenText (lineRows log) = rewrittenText (rowsIn log) :=
    outputRewrite_iff
  constructor
  · intro handles
    obtain ⟨rewritable, same⟩ := (outcome ⟨[], []⟩).mp (handles ⟨[], []⟩)
    refine ⟨rewritable, ?_⟩
    have length := length_of_rewrittenText same
    rw [rowsIn_length, left_eq_add, List.countP_eq_zero] at length
    exact fun piece member => Bool.eq_false_of_not_eq_true (length piece member)
  · rintro ⟨rewritable, none⟩ store
    rw [outcome, rowsIn_eq_lineRows none]
    exact ⟨rewritable, rfl⟩

/-- No piece begins with a NUL, and only the first piece of a line begins with a digit. -/
theorem pieces_iff (log : List Char) :
    ((∀ buf ∈ fgetsAll (sizeofBuf - 1) log, ¬ BeginsWithNul buf) ∧
      ∀ piece ∈ continuations (sizeofBuf - 1) log, startsWithDigit piece = false) ↔
    ∀ text ∈ textLines log, ∀ (k : Nat) (c : Char), text[(sizeofBuf - 1) * k]? = some c →
      c.toNat ≠ 0 ∧ (0 < k → c.isDigit = false) := by
  have first (c : Char) := exists_mem_fgetsAll (c := c) 1022 log
  have later (c : Char) := exists_mem_continuations (c := c) 1022 log
  constructor
  · rintro ⟨strings, none⟩ line member k c found
    refine ⟨fun zero => ?_, fun positive => ?_⟩
    · obtain ⟨buf, inside, head⟩ := (first c).mpr ⟨line, member, k, found⟩
      exact strings buf inside ⟨c, head, zero⟩
    · obtain ⟨before, rfl⟩ := Nat.exists_eq_succ_of_ne_zero positive.ne'
      obtain ⟨piece, inside, head⟩ := (later c).mpr ⟨line, member, before, found⟩
      have other := none piece inside
      rwa [startsWithDigit, head] at other
  · intro all
    constructor
    · rintro buf inside ⟨c, head, zero⟩
      obtain ⟨line, member, k, found⟩ := (first c).mp ⟨buf, inside, head⟩
      exact (all line member k c found).1 zero
    · intro piece inside
      cases head : piece.head? with
      | none => rw [startsWithDigit, head]; rfl
      | some c =>
          obtain ⟨line, member, k, found⟩ := (later c).mp ⟨piece, inside, head⟩
          rw [startsWithDigit, head]
          exact (all line member (k + 1) c found).2 (Nat.succ_pos k)

/-- Every file is handled whose lines have no digit and no NUL where a piece begins, unless
it has too many rows or its name is too long. -/
theorem handlesFile_iff (path log : List Char) :
    HandlesFile path log ↔
      (∀ text ∈ textLines log, ∀ (k : Nat) (c : Char), text[(sizeofBuf - 1) * k]? = some c →
        c.toNat ≠ 0 ∧ (0 < k → c.isDigit = false)) ∧
      (lineRows log).length ≤ maxRows ∧ (lineRows log ≠ [] → PathFits path) := by
  rw [handlesFile_iff_rewritable, ← pieces_iff]
  constructor
  · rintro ⟨⟨strings, few, fits⟩, none⟩
    rw [rowsIn_eq_lineRows none] at few fits
    exact ⟨⟨strings, none⟩, few, fits⟩
  · rintro ⟨⟨strings, none⟩, few, fits⟩
    rw [← rowsIn_eq_lineRows none] at few fits
    exact ⟨⟨strings, few, fits⟩, none⟩

/-- A remark which goes on with a digit where the buffer is full. -/
def longRemark : List Char := List.replicate (sizeofBuf - 1) '#' ++ ['5']

/-- A remark whose second piece starts with a digit. -/
theorem not_handlesFile_longRemark : ¬ HandlesFile ['l', 'o', 'g'] longRemark := by
  intro handles
  obtain ⟨rewritable, none⟩ := (handlesFile_iff_rewritable _ _).mp handles
  have all := (pieces_iff longRemark).mp ⟨rewritable.strings, none⟩
  have single : textLines longRemark = [longRemark] := by
    apply textLines_of_not_mem
    · simp [longRemark]
    · simp [longRemark]
  have member : longRemark ∈ textLines longRemark := by
    rw [single]
    exact List.mem_cons_self
  have found : longRemark[(sizeofBuf - 1) * 1]? = some '5' := by simp [longRemark]
  exact absurd ((all longRemark member 1 '5' found).2 Nat.one_pos) (by decide)

end MotorStand
