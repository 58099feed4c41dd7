import MotorStand.Rewrite.LoggedRows

/-!
# Rewriting once more

`output_rewrite` is run on its own output. A row whose time is before the first one is
written with a minus sign in front, and a line which begins with it is skipped.
-/

namespace MotorStand

open CText Imperative Imperative.Exec

/-- The tool is run on the log of `runs`, and then on the file it has written. That run
writes the same rows. -/
def RewritesAgain (path : List Char) (runs : List LogRun) : Prop :=
  (outputRewrite path (logText runs)).Ensures ⟨[], []⟩ fun _ first =>
    (outputRewrite (path ++ ".adjust.log".toList) first.adjusted).Ensures ⟨[], []⟩ fun _ second =>
      second.adjusted = first.adjusted

variable {row : DataRow} {rows : List DataRow} {start : Int}

/-! ## The rows of the output -/

/-- What is read of the output: the rows which do not begin with a minus sign. -/
def rowsSince (start : Int) (rows : List DataRow) : List DataRow :=
  (rows.filter fun row => start ≤ row.collectTime).map fun row => (row.since start).printed

/-- The length of a row with another time. -/
theorem rowText_length (row : DataRow) (time : Int) :
    (rowText { row with collectTime := time }).length + (printLong row.collectTime).length =
      (rowText row).length + (printLong time).length := by
  simp only [rowText, List.length_append, List.length_cons]
  omega

/-- A row which is not before `start` is a row of a log again. -/
theorem loggable_since (loggable : Loggable row) (startNonneg : 0 ≤ start)
    (after : start ≤ row.collectTime) : Loggable (row.since start) := by
  have nonneg : 0 ≤ row.collectTime - start := by omega
  have below : row.collectTime - start ≤ row.collectTime := by omega
  have shorter := printLong_length_le_of_nonneg nonneg below
  have length := rowText_length row (row.collectTime - start)
  have fits := loggable.fits
  refine ⟨nonneg, below.trans loggable.timeBelow, loggable.rawAbove, loggable.rawBelow,
    loggable.valueFinite, loggable.tareFinite, ?_⟩
  rw [DataRow.since]
  omega

/-- A row which is before `start` still fits in the buffer of the tool. -/
theorem isLine_since (loggable : Loggable row) (startNonneg : 0 ≤ start)
    (startFits : (printLong start).length ≤ 127) :
    IsLine (sizeofBuf - 1) (rowText (row.since start)) := by
  have free : '\n' ∉ rowBody (row.since start) :=
    fun member => (isInk_rowBody _ _ member).1 rfl
  refine ⟨⟨rowBody (row.since start), rowText_eq _, free⟩, ?_⟩
  have length := rowText_length row (row.collectTime - start)
  have fits := loggable.fits
  have timeNonneg := loggable.timeNonneg
  have timeFits : (printLong row.collectTime).length ≤ 127 := by
    simp only [rowText, List.length_append] at fits
    omega
  have time : (printLong (row.collectTime - start)).length ≤ 128 := by
    rcases le_total start row.collectTime with after | before
    · have magnitude : (row.collectTime - start).natAbs ≤ row.collectTime.natAbs := by omega
      exact (printLong_length_le magnitude).trans (Nat.succ_le_succ timeFits)
    · have magnitude : (row.collectTime - start).natAbs ≤ start.natAbs := by omega
      exact (printLong_length_le magnitude).trans (Nat.succ_le_succ startFits)
  rw [DataRow.since]
  simp only [sizeofBuf]
  omega

/-- A row whose time is not negative starts with a digit. -/
theorem startsWithDigit_since (loggable : Loggable row) (startNonneg : 0 ≤ start) :
    startsWithDigit (rowText (row.since start)) = decide (start ≤ row.collectTime) := by
  by_cases after : start ≤ row.collectTime
  · obtain ⟨c, rest, text, digit⟩ := rowText_head (loggable_since loggable startNonneg after)
    rw [text, decide_eq_true after]
    exact digit
  · have negative : row.collectTime - start < 0 := by omega
    rw [decide_eq_false after, rowText, DataRow.since, printLong, if_pos negative]
    rfl

/-- The rows which are read are those with a digit in front, and they are read as printed. -/
theorem rowsOf_since (loggable : ∀ row ∈ rows, Loggable row) (startNonneg : 0 ≤ start) :
    rowsOf (rows.map fun row => rowText (row.since start)) = rowsSince start rows := by
  induction rows with
  | nil => rfl
  | cons row rows ih =>
      have here := loggable row List.mem_cons_self
      have digit := startsWithDigit_since here startNonneg
      have others := ih fun other member => loggable other (List.mem_cons_of_mem row member)
      rw [List.map_cons, rowsSince, List.filter_cons]
      by_cases after : start ≤ row.collectTime
      · rw [decide_eq_true after] at digit ⊢
        rw [rowsOf_digit digit, cString_rowText, others, if_pos rfl, List.map_cons,
          parseRow_rowText (loggable_since here startNonneg after)]
        rfl
      · rw [decide_eq_false after] at digit ⊢
        rw [rowsOf_other digit, others]
        rfl

variable {first : DataRow} {rest : List DataRow}

/-- The second run reads the header and every row. -/
theorem fgetsAll_rewrittenText (loggable : ∀ row ∈ first :: rest, Loggable row) :
    fgetsAll (sizeofBuf - 1) (rewrittenText (first :: rest)) =
      adjustedHeader :: (first :: rest).map fun row => rowText (row.since first.collectTime) := by
  have firstLoggable := loggable first List.mem_cons_self
  have firstFits : (printLong first.collectTime).length ≤ 127 := by
    have fits := firstLoggable.fits
    simp only [rowText, List.length_append] at fits
    omega
  rw [rewrittenText, List.flatMap_def, ← List.flatten_cons]
  apply fgetsAll_lines
  intro line member
  rcases List.mem_cons.mp member with rfl | inside
  · exact ⟨⟨adjustedHeader.dropLast, by decide, by decide⟩, by decide⟩
  · obtain ⟨row, inRows, rfl⟩ := List.mem_map.mp inside
    exact isLine_since (loggable row inRows) firstLoggable.timeNonneg firstFits

/-- The second run takes the rows which are not before the first. -/
theorem rowsIn_rewrittenText (loggable : ∀ row ∈ first :: rest, Loggable row) :
    rowsIn (rewrittenText (first :: rest)) = rowsSince first.collectTime (first :: rest) := by
  rw [rowsIn, fgetsAll_rewrittenText loggable, rowsOf_other rfl]
  exact rowsOf_since loggable (loggable first List.mem_cons_self).timeNonneg

/-- There is no NUL in front of a line. -/
theorem strings_rewrittenText (loggable : ∀ row ∈ first :: rest, Loggable row) :
    ∀ buf ∈ fgetsAll (sizeofBuf - 1) (rewrittenText (first :: rest)), ¬ BeginsWithNul buf := by
  rw [fgetsAll_rewrittenText loggable]
  rintro buf member ⟨c, head, zero⟩
  rcases List.mem_cons.mp member with rfl | inside
  · cases head
    cases zero
  · obtain ⟨row, _, rfl⟩ := List.mem_map.mp inside
    exact ne_nul_of_mem_rowText (List.mem_of_mem_head? head) zero

/-- Counted from zero a row stays as it is. -/
theorem since_zero (row : DataRow) : row.since 0 = row := by
  rw [DataRow.since, sub_zero]

/-- The second output has the texts of the first one, without the rows which are skipped. -/
theorem rewrittenText_rowsSince (first : DataRow) (rest : List DataRow) :
    rewrittenText (rowsSince first.collectTime (first :: rest)) =
      adjustedHeader ++ ((first :: rest).filter fun row =>
        first.collectTime ≤ row.collectTime).flatMap fun row =>
          rowText (row.since first.collectTime) := by
  have kept : (first :: rest).filter (fun row => first.collectTime ≤ row.collectTime) =
      first :: rest.filter fun row => first.collectTime ≤ row.collectTime := by
    rw [List.filter_cons, if_pos (decide_eq_true (le_refl _))]
  have zero : ((first.since first.collectTime).printed).collectTime = 0 := sub_self _
  have texts (row : DataRow) :
      rowText ((row.since first.collectTime).printed.since 0) =
        rowText (row.since first.collectTime) := by
    rw [rowText_printed, since_zero]
  rw [rowsSince, kept, List.map_cons, rewrittenText, zero]
  simp only [List.flatMap_cons, List.flatMap_map, texts]

/-- The second text is the first one exactly if no row is before the first. -/
theorem rewrittenText_rowsSince_iff (first : DataRow) (rest : List DataRow) :
    rewrittenText (first :: rest) =
      rewrittenText (rowsSince first.collectTime (first :: rest)) ↔
      ∀ row ∈ first :: rest, first.collectTime ≤ row.collectTime := by
  constructor
  · intro same
    have lengths := length_of_rewrittenText same
    rw [rowsSince, List.length_map, eq_comm, List.length_filter_eq_length_iff] at lengths
    exact fun row member => of_decide_eq_true (lengths row member)
  · intro ordered
    rw [rewrittenText_rowsSince, List.filter_eq_self.mpr fun row member =>
      decide_eq_true (ordered row member), rewrittenText]

/-! ## Which logs are rewritten alike -/

/-- A path which fits with its suffix fits without it. -/
theorem pathFits_of_again {path : List Char} (fits : PathFits (path ++ ".adjust.log".toList)) :
    PathFits path := by
  rw [PathFits, List.length_append] at fits ⊢
  rw [List.length_append] at fits
  omega

/-- The two runs as one condition on the output of the first one. -/
theorem rewritesAgain_iff_rewritable (path : List Char) (runs : List LogRun) :
    RewritesAgain path runs ↔
      Rewritable path (logText runs) ∧
        Rewritable (path ++ ".adjust.log".toList) (rewrittenText (loggedRows runs)) ∧
        rewrittenText (loggedRows runs) =
          rewrittenText (rowsIn (rewrittenText (loggedRows runs))) := by
  have again : ((outputRewrite (path ++ ".adjust.log".toList)
      (rewrittenText (loggedRows runs))).Ensures ⟨[], []⟩ fun _ second =>
        second.adjusted = [] ++ rewrittenText (loggedRows runs)) ↔ _ := outputRewrite_iff
  rw [List.nil_append] at again
  rw [← again]
  constructor
  · intro both
    have rewritable := rewritable_of_ensures both
    obtain ⟨_, first, run, second⟩ := both
    obtain ⟨_, other, same, written⟩ :
        (outputRewrite path (logText runs)).Ensures ⟨[], []⟩ _ := outputRewrite_ensures rewritable
    rw [run] at same
    cases same
    rw [rowsIn_logText, rewrittenText_printed, List.nil_append] at written
    rw [written] at second
    exact ⟨rewritable, second⟩
  · rintro ⟨rewritable, second⟩
    apply (outputRewrite_ensures rewritable).imp
    intro _ first written
    rw [rowsIn_logText, rewrittenText_printed, List.nil_append] at written
    rwa [written]

/-- Without a row both runs write nothing. -/
theorem rewritesAgain_nil (path : List Char) {runs : List LogRun}
    (rows : loggedRows runs = []) : RewritesAgain path runs := by
  have empty : Rewritable (path ++ ".adjust.log".toList) (rewrittenText []) :=
    ⟨(fun _ member => nomatch member), Nat.zero_le _, fun some => absurd rfl some⟩
  rw [rewritesAgain_iff_rewritable, rewritable_logText_iff, rows]
  exact ⟨⟨Nat.zero_le _, fun some => absurd rfl some⟩, empty, rfl⟩

/-- When a log with a first row is rewritten again. -/
theorem rewritesAgain_cons_iff (path : List Char) {runs : List LogRun}
    (rows : loggedRows runs = first :: rest) :
    RewritesAgain path runs ↔
      (first :: rest).length ≤ maxRows ∧ PathFits (path ++ ".adjust.log".toList) ∧
        ∀ row ∈ first :: rest, first.collectTime ≤ row.collectTime := by
  have loggable : ∀ row ∈ first :: rest, Loggable row := by
    intro row member
    rw [← rows] at member
    exact loggable_of_mem member
  have read := rowsIn_rewrittenText loggable
  rw [rewritesAgain_iff_rewritable, rewritable_logText_iff, rows, read]
  constructor
  · rintro ⟨⟨few, _⟩, second, same⟩
    refine ⟨few, second.fits ?_, (rewrittenText_rowsSince_iff first rest).mp same⟩
    rw [read]
    intro empty
    have lengths := length_of_rewrittenText same
    rw [empty] at lengths
    cases lengths
  · rintro ⟨few, fits, ordered⟩
    refine ⟨⟨few, fun _ => pathFits_of_again fits⟩,
      ⟨strings_rewrittenText loggable, ?_, fun _ => fits⟩,
      (rewrittenText_rowsSince_iff first rest).mpr ordered⟩
    rw [read, rowsSince, List.length_map]
    exact (List.length_filter_le _ _).trans few

/-- The rows of the output are rewritten as they are exactly if the array and the names do not
overflow and no row is before the first one. -/
theorem rewritesAgain_iff (path : List Char) (runs : List LogRun) :
    RewritesAgain path runs ↔
      (loggedRows runs).length ≤ maxRows ∧
      (loggedRows runs ≠ [] → PathFits (path ++ ".adjust.log".toList)) ∧
      ∀ first ∈ (loggedRows runs).head?, ∀ row ∈ loggedRows runs,
        first.collectTime ≤ row.collectTime := by
  cases rows : loggedRows runs with
  | nil =>
      apply iff_of_true (rewritesAgain_nil path rows)
      exact ⟨Nat.zero_le _, fun some => absurd rfl some, fun _ member => nomatch member⟩
  | cons first rest =>
      rw [rewritesAgain_cons_iff path rows, imp_iff_right (List.cons_ne_nil first rest)]
      have head : ((∀ start ∈ (first :: rest).head?, ∀ row ∈ first :: rest,
          start.collectTime ≤ row.collectTime) ↔
          ∀ row ∈ first :: rest, first.collectTime ≤ row.collectTime) := by simp
      rw [head]

/-- A row of zeros, one second later. -/
def oneRow : DataRow := { zeroRow with collectTime := 1 }

/-- The row is one the logger writes. -/
theorem oneRow_loggable : Loggable oneRow := by
  have digit : printNat 1 = ['1'] := Nat.toDigits_of_lt_base (by decide)
  have short : (printLong 1).length = 1 := congrArg List.length digit
  have zero : (printLong zeroRow.collectTime).length = 1 :=
    congrArg List.length (Nat.toDigits_zero 10)
  have length := rowText_length zeroRow 1
  have fits := zeroRow_loggable.fits
  refine ⟨by decide, by decide, by decide, by decide, trivial, trivial, ?_⟩
  rw [oneRow]
  omega

/-- A run of one row. -/
def runOf (row : DataRow) (loggable : Loggable row) : LogRun :=
  { endlessRun with
    rows := [row]
    loggable := fun _ member => List.mem_singleton.mp member ▸ loggable }

/-- A second run whose clock starts again. -/
theorem not_rewritesAgain_restarted :
    ¬ RewritesAgain ['l', 'o', 'g']
      [runOf oneRow oneRow_loggable, runOf zeroRow zeroRow_loggable] := by
  intro again
  have ordered := ((rewritesAgain_cons_iff _ rfl).mp again).2.2
  exact absurd (ordered zeroRow (List.mem_cons_of_mem _ List.mem_cons_self)) (by decide)

end MotorStand
