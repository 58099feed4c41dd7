import MotorStand.Rewrite.OutputRewrite

/-!
# The rows of a log

What `load_cell_logger` has written is read back row by row, and `output_rewrite` keeps
every row. The values keep their texts, because printing has rounded them.
-/

namespace MotorStand

open CText Imperative Imperative.Exec

/-! ## A line -/

/-- The row as it is read back: its values are those which were printed. -/
def DataRow.printed (row : DataRow) : DataRow :=
  { row with value := row.value.rounded, valueTare := row.valueTare.rounded }

variable {row : DataRow}

/-- A tab is white space. -/
theorem isSpace_tab : ∀ c ∈ ['\t'], isSpace c = true := by
  intro c member
  rw [List.mem_singleton.mp member]
  decide

/-- A printed value is read back behind its tab. -/
theorem strtod_printed {value : Double} (finite : IsFinite value) {rest : List Char}
    (ends : EndsField rest) :
    strtod ('\t' :: (printDouble value ++ rest)) = (value.rounded, rest) := by
  cases value with
  | finite negative magnitude =>
      have read := strtod_printDouble negative magnitude isSpace_tab ends.stops_goesOn
      rwa [List.singleton_append] at read
  | infinite negative => cases finite
  | notANumber negative => cases finite

/-- The fields of a logged row are read back as printed. -/
theorem parseRow_rowText (loggable : Loggable row) : parseRow (rowText row) = row.printed := by
  have tab (rest : List Char) : EndsField ('\t' :: rest) := stops_cons (by decide)
  have lineBreak : EndsField ['\n'] := stops_cons (by decide)
  have none : ∀ c ∈ ([] : List Char), isSpace c = true := fun _ member => nomatch member
  have aboveMin : longMin ≤ row.collectTime := le_trans (by decide) loggable.timeNonneg
  have time := strtol_printLong aboveMin loggable.timeBelow none (tab (printLong row.rawValue ++
    '\t' :: (printDouble row.value ++ '\t' :: (printDouble row.valueTare ++ ['\n']))))
  have raw := strtol_printLong loggable.rawAbove loggable.rawBelow isSpace_tab
    (tab (printDouble row.value ++ '\t' :: (printDouble row.valueTare ++ ['\n'])))
  have value := strtod_printed loggable.valueFinite (tab (printDouble row.valueTare ++ ['\n']))
  have tare := strtod_printed loggable.tareFinite lineBreak
  simp only [List.nil_append] at time
  simp only [List.cons_append, List.nil_append] at raw
  simp only [parseRow, rowText, time, raw, value, tare]
  rfl

/-- A row which was read back is written with the texts it was logged with. -/
theorem rowText_printed (row : DataRow) (start : Int) :
    rowText (row.printed.since start) = rowText (row.since start) := by
  simp only [rowText, DataRow.printed, DataRow.since, printDouble_rounded]

/-! ## A log -/

/-- A line of a log. -/
inductive LogLine where
  | remark (text : List Char) (isRemark : IsRemark text)
  | row (row : DataRow) (loggable : Loggable row)

namespace LogLine

/-- The text of a line. -/
def text : LogLine → List Char
  | .remark text _ => text
  | .row row _ => rowText row

/-- The rows of a line. -/
def rows : LogLine → List DataRow
  | .remark _ _ => []
  | .row row _ => [row]

/-- Every line is read by one `fgets`. -/
theorem isLine (line : LogLine) : IsLine (sizeofBuf - 1) line.text := by
  cases line with
  | remark text isRemark => exact isRemark.isLine
  | row row loggable => exact isLine_row loggable (by decide)

end LogLine

/-- The lines of a run. -/
def LogRun.logLines (run : LogRun) : List LogLine :=
  .remark _ (isRemark_comment run) :: .remark _ isRemark_header ::
    run.rows.pmap LogLine.row run.loggable

/-- The texts of a run are its lines. -/
theorem LogRun.logLines_text (run : LogRun) : run.logLines.map LogLine.text = run.lines := by
  have rows : (run.rows.pmap LogLine.row run.loggable).map LogLine.text =
      run.rows.map writeCallback := by
    have texts := List.pmap_eq_map (f := rowText) run.loggable
    rw [List.map_pmap]
    apply texts.trans
    exact List.map_congr_left fun row member => (writeCallback_eq (run.loggable row member)).symm
  rw [LogRun.logLines, List.map_cons, List.map_cons, rows]
  rfl

/-- The rows of a run are those which were logged. -/
theorem LogRun.logLines_rows (run : LogRun) : run.logLines.flatMap LogLine.rows = run.rows := by
  have rows : (run.rows.pmap LogLine.row run.loggable).flatMap LogLine.rows = run.rows := by
    have single := List.pmap_eq_map (f := fun row : DataRow => [row]) run.loggable
    rw [List.flatMap_def, List.map_pmap]
    apply (congrArg List.flatten single).trans
    rw [← List.flatMap_def, List.flatMap_singleton']
  rw [LogRun.logLines, List.flatMap_cons, List.flatMap_cons, rows]
  rfl

/-- The log is read line by line. -/
theorem fgetsAll_logText (runs : List LogRun) :
    fgetsAll (sizeofBuf - 1) (logText runs) =
      (runs.flatMap LogRun.logLines).map LogLine.text := by
  have lines : (runs.flatMap LogRun.logLines).map LogLine.text = runs.flatMap LogRun.lines := by
    rw [List.map_flatMap]
    simp only [LogRun.logLines_text]
  rw [logText, ← lines]
  apply fgetsAll_lines
  intro line member
  obtain ⟨logLine, _, rfl⟩ := List.mem_map.mp member
  exact logLine.isLine

/-- The rows of several runs. -/
theorem flatMap_logLines (runs : List LogRun) :
    (runs.flatMap LogRun.logLines).flatMap LogLine.rows = loggedRows runs := by
  rw [List.flatMap_assoc]
  simp only [LogRun.logLines_rows]
  rfl

/-- Only rows start with a digit. -/
theorem startsWithDigit_text (line : LogLine) :
    startsWithDigit line.text = true ↔ line.rows ≠ [] := by
  cases line with
  | remark text isRemark =>
      obtain ⟨_, c, rest, rfl, other, _⟩ := isRemark
      exact iff_of_false (by simp [LogLine.text, startsWithDigit, other]) (by simp [LogLine.rows])
  | row row loggable =>
      obtain ⟨c, rest, start, digit⟩ := rowText_head loggable
      exact iff_of_true (by simp [LogLine.text, startsWithDigit, start, digit])
        (List.cons_ne_nil _ _)

/-- No line of a log is an empty string. -/
theorem not_beginsWithNul_text (line : LogLine) : ¬ BeginsWithNul line.text := by
  rintro ⟨c, first, zero⟩
  cases line with
  | remark text isRemark =>
      obtain ⟨_, other, rest, rfl, _, nonzero⟩ := isRemark
      cases first
      exact nonzero zero
  | row row loggable =>
      obtain ⟨other, rest, start, digit⟩ := rowText_head loggable
      rw [LogLine.text, start] at first
      cases first
      have bounds := toNat_of_isDigit digit
      omega

/-- The rows of a log are read as printed, and the remarks are not read. -/
theorem rowsOf_text (lines : List LogLine) :
    rowsOf (lines.map LogLine.text) = (lines.flatMap LogLine.rows).map DataRow.printed := by
  induction lines with
  | nil => rfl
  | cons line lines ih =>
      rw [List.map_cons, List.flatMap_cons, List.map_append, ← ih]
      cases line with
      | remark text isRemark =>
          have other := mt (startsWithDigit_text (.remark text isRemark)).mp (not_not_intro rfl)
          exact rowsOf_other (Bool.eq_false_of_not_eq_true other)
      | row row loggable =>
          have digit := (startsWithDigit_text (.row row loggable)).mpr (List.cons_ne_nil _ _)
          rw [rowsOf_digit digit, LogLine.text, cString_rowText row,
            parseRow_rowText loggable]
          rfl

/-- The rows of a log are read as they were printed. -/
theorem rowsIn_logText (runs : List LogRun) :
    rowsIn (logText runs) = (loggedRows runs).map DataRow.printed := by
  rw [rowsIn, fgetsAll_logText, rowsOf_text, flatMap_logLines]

/-- Reading back and printing once more changes no text. -/
theorem rewrittenText_printed (rows : List DataRow) :
    rewrittenText (rows.map DataRow.printed) = rewrittenText rows := by
  cases rows with
  | nil => rfl
  | cons first rest =>
      rw [List.map_cons, rewrittenText, rewrittenText, ← List.map_cons, List.flatMap_map]
      simp only [rowText_printed]
      rfl

/-- A log is rewritten if its rows and its path have room. -/
theorem rewritable_logText_iff (path : List Char) (runs : List LogRun) :
    Rewritable path (logText runs) ↔
      (loggedRows runs).length ≤ maxRows ∧ (loggedRows runs ≠ [] → PathFits path) := by
  have strings : ∀ buf ∈ fgetsAll (sizeofBuf - 1) (logText runs), ¬ BeginsWithNul buf := by
    intro buf member
    rw [fgetsAll_logText] at member
    obtain ⟨line, _, rfl⟩ := List.mem_map.mp member
    exact not_beginsWithNul_text line
  have length : (rowsIn (logText runs)).length = (loggedRows runs).length := by
    rw [rowsIn_logText, List.length_map]
  have some : rowsIn (logText runs) ≠ [] ↔ loggedRows runs ≠ [] := by
    rw [rowsIn_logText, ne_eq, List.map_eq_nil_iff]
  constructor
  · rintro ⟨_, few, fits⟩
    exact ⟨length ▸ few, fun nonempty => fits (some.mpr nonempty)⟩
  · rintro ⟨few, fits⟩
    exact ⟨strings, length ▸ few, fun nonempty => fits (some.mp nonempty)⟩

/-- Every row of a log was logged. -/
theorem loggable_of_mem {runs : List LogRun} (member : row ∈ loggedRows runs) : Loggable row := by
  obtain ⟨run, _, inside⟩ := List.mem_flatMap.mp member
  exact run.loggable row inside

/-- The tool appends one row per logged row, with the texts of its values and with its time
counted from the first one. -/
def RewritesLog (path : List Char) (runs : List LogRun) : Prop :=
  ∀ store, (outputRewrite path (logText runs)).Ensures store fun _ after =>
    after.adjusted = store.adjusted ++ rewrittenText (loggedRows runs)

/-- The rows of a log are preserved exactly if the length of the array and the name of the
output do not overflow. -/
theorem rewritesLog_iff (path : List Char) (runs : List LogRun) :
    RewritesLog path runs ↔
      (loggedRows runs).length ≤ maxRows ∧ (loggedRows runs ≠ [] → PathFits path) := by
  rw [← rewritable_logText_iff]
  constructor
  · intro rewrites
    exact rewritable_of_ensures (rewrites ⟨[], []⟩)
  · intro rewritable store
    rw [outputRewrite_iff, rowsIn_logText, rewrittenText_printed]
    exact ⟨rewritable, rfl⟩

/-- A row of zeros. -/
def zeroRow : DataRow := ⟨0, 0, .finite false 0, .finite false 0⟩

/-- The text of the row of zeros. -/
theorem rowText_zeroRow : rowText zeroRow = "0\t0\t0.000000\t0.000000\n".toList := by
  have none : unitsAt 6 0 = 0 := by
    have integer := unitsAt_div 6 0
    rwa [Nat.cast_zero, zero_div] at integer
  have zero : printNat 0 = ['0'] := Nat.toDigits_zero 10
  have value : printDouble (.finite false 0) = "0.000000".toList := by
    rw [printDouble, printPlaces, none, Nat.zero_div, zero]
    decide
  have long : printLong 0 = ['0'] := zero
  rw [rowText, zeroRow, value, long]
  decide

/-- The row of zeros is one the logger writes. -/
theorem zeroRow_loggable : Loggable zeroRow := by
  refine ⟨by decide, by decide, by decide, by decide, trivial, trivial, ?_⟩
  rw [rowText_zeroRow]
  decide

/-- A run with one row more than the array can grow to. -/
def endlessRun : LogRun where
  date := "Jan  1 2025".toList
  time := "12:00:00".toList
  dateLength := by decide
  timeLength := by decide
  oneLine := by simp
  rows := List.replicate (maxRows + 1) zeroRow
  loggable := by
    intro row member
    rw [List.eq_of_mem_replicate member]
    exact zeroRow_loggable

/-- A log with more rows than the array can take. -/
theorem not_rewritesLog_endlessRun : ¬ RewritesLog ['l', 'o', 'g'] [endlessRun] := by
  intro rewrites
  have rows : endlessRun.rows = List.replicate (maxRows + 1) zeroRow := rfl
  have length : endlessRun.rows.length = maxRows + 1 := by rw [rows, List.length_replicate]
  have many : maxRows < (loggedRows [endlessRun]).length := by
    rw [loggedRows, List.flatMap_singleton, length]
    exact Nat.lt_succ_self maxRows
  have rewritable := rewritable_of_ensures (rewrites ⟨[], []⟩)
  exact Nat.not_le.mpr many ((rewritable_logText_iff _ _).mp rewritable).1

end MotorStand
