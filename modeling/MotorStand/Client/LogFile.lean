import MotorStand.Client.Logger
import MotorStand.Text.Fixed
import MotorStand.Text.Lines

/-!
# The log file

The text which `load_cell_logger` appends to its file: a comment, a header, and a
row per sample. Every line is printed into a buffer of 128 bytes first.
-/

namespace MotorStand

open CText

/-- The fields of an `output_data` which are logged. -/
structure DataRow where
  collectTime : Int
  rawValue : Int
  value : Double
  valueTare : Double
deriving DecidableEq

/-- `"%ld\t%ld\t%lf\t%lf\n"`. -/
def rowText (row : DataRow) : List Char :=
  printLong row.collectTime ++ '\t' :: (printLong row.rawValue ++ '\t' ::
    (printDouble row.value ++ '\t' :: (printDouble row.valueTare ++ ['\n'])))

/-- What `snprintf(buf,size,...)` leaves in the buffer. -/
def snprintf (size : Nat) (text : List Char) : List Char := text.take (size - 1)

/-- What `write_callback` appends for a sample. -/
def writeCallback (row : DataRow) : List Char := snprintf 128 (rowText row)

/-- An exact number as a double. -/
def doubleOf (value : ℚ) : Double := .finite (value < 0) ⟨|value|, abs_nonneg value⟩

/-- The double of a number has this number. -/
theorem number_doubleOf (value : ℚ) : (doubleOf value).number = some value := by
  apply (number_finite (value < 0) ⟨|value|, abs_nonneg value⟩).trans
  by_cases negative : value < 0
  · simp [negative, abs_of_neg negative]
  · simp [negative, abs_of_nonneg (not_lt.mp negative)]

/-- The comment `main` starts with; `date` and `time` are those of its compilation. -/
def commentText (date time : List Char) : List Char :=
  snprintf 128 ("# data collected ".toList ++ (date ++ ' ' :: (time ++ ['\n'])))

/-- The names of the columns. -/
def headerText : List Char :=
  snprintf 128 "collect_time\traw_value\tvalue\ttare_value\n".toList

/-- A number which is printed with digits. -/
def IsFinite : Double → Prop
  | .finite _ _ => True
  | .infinite _ | .notANumber _ => False

/-- A row with a time since the start of the clock, a 64-bit reading, finite values, and a
text which fits in the buffer. -/
structure Loggable (row : DataRow) : Prop where
  timeNonneg : 0 ≤ row.collectTime
  timeBelow : row.collectTime ≤ longMax
  rawAbove : longMin ≤ row.rawValue
  rawBelow : row.rawValue ≤ longMax
  valueFinite : IsFinite row.value
  tareFinite : IsFinite row.valueTare
  fits : (rowText row).length ≤ 127

/-- A run of the logger. -/
structure LogRun where
  date : List Char
  time : List Char
  dateLength : date.length = 11
  timeLength : time.length = 8
  oneLine : ∀ c ∈ date ++ ' ' :: time, c ≠ '\n' ∧ c.toNat ≠ 0
  rows : List DataRow
  loggable : ∀ row ∈ rows, Loggable row

/-- The lines of a run. -/
def LogRun.lines (run : LogRun) : List (List Char) :=
  commentText run.date run.time :: headerText :: run.rows.map writeCallback

/-- The file after several runs. -/
def logText (runs : List LogRun) : List Char := (runs.flatMap LogRun.lines).flatten

/-- The rows of several runs. -/
def loggedRows (runs : List LogRun) : List DataRow := runs.flatMap LogRun.rows

/-! ## Rows -/

/-- The characters between the line breaks. -/
def IsInk (c : Char) : Prop := c ≠ '\n' ∧ c.toNat ≠ 0

/-- Digits are neither line breaks nor NULs. -/
theorem isInk_of_isDigit {c : Char} (digit : c.isDigit = true) : IsInk c := by
  have bounds := toNat_of_isDigit digit
  refine ⟨?_, by omega⟩
  rintro rfl
  exact absurd bounds.1 (by decide)

/-- Nor is anything in a printed `long`. -/
theorem isInk_printLong (value : Int) : ∀ c ∈ printLong value, IsInk c := by
  intro c member
  rw [printLong] at member
  split at member
  next =>
      rcases List.mem_cons.mp member with rfl | digit
      · exact ⟨by decide, by decide⟩
      · exact isInk_of_isDigit (isDigit_printNat digit)
  next => exact isInk_of_isDigit (isDigit_printNat member)

/-- Nor a sign. -/
theorem isInk_signText (negative : Bool) : ∀ c ∈ signText negative, IsInk c := by
  intro c member
  rw [signText] at member
  split at member
  · rw [List.mem_singleton.mp member]
    exact ⟨by decide, by decide⟩
  · cases member

/-- Nor anything in a printed double. -/
theorem isInk_printDouble (value : Double) : ∀ c ∈ printDouble value, IsInk c := by
  have word (negative : Bool) (letters : List Char) (ink : ∀ c ∈ letters, IsInk c) :
      ∀ c ∈ signText negative ++ letters, IsInk c := by
    intro c member
    exact (List.mem_append.mp member).elim (isInk_signText negative c) (ink c)
  cases value with
  | infinite negative => exact word negative _ (by simp [IsInk])
  | notANumber negative => exact word negative _ (by simp [IsInk])
  | finite negative magnitude =>
      refine word negative _ fun c unsigned => ?_
      rcases List.mem_append.mp unsigned with whole | fraction
      · exact isInk_of_isDigit (isDigit_printNat whole)
      · rcases List.mem_cons.mp fraction with rfl | digit
        · exact ⟨by decide, by decide⟩
        · exact isInk_of_isDigit (isDigit_printPadded digit)

/-- The row without its line break. -/
def rowBody (row : DataRow) : List Char :=
  printLong row.collectTime ++ '\t' :: (printLong row.rawValue ++ '\t' ::
    (printDouble row.value ++ '\t' :: printDouble row.valueTare))

/-- A row ends with a line break. -/
theorem rowText_eq (row : DataRow) : rowText row = rowBody row ++ ['\n'] := by
  simp only [rowText, rowBody, List.append_assoc, List.cons_append]

/-- The fields and tabs of a row are on one line. -/
theorem isInk_rowBody (row : DataRow) : ∀ c ∈ rowBody row, IsInk c := by
  have tab : IsInk '\t' := ⟨by decide, by decide⟩
  intro c member
  simp only [rowBody, List.mem_append, List.mem_cons] at member
  rcases member with time | rfl | raw | rfl | value | rfl | tare
  · exact isInk_printLong _ c time
  · exact tab
  · exact isInk_printLong _ c raw
  · exact tab
  · exact isInk_printDouble _ c value
  · exact tab
  · exact isInk_printDouble _ c tare

/-- A row is one line. -/
theorem count_rowText (row : DataRow) : (rowText row).count '\n' = 1 := by
  have free : '\n' ∉ rowBody row := fun member => (isInk_rowBody row _ member).1 rfl
  rw [rowText_eq, List.count_append, List.count_eq_zero_of_not_mem free]
  rfl

/-- A row which fits is not cut. -/
theorem writeCallback_eq {row : DataRow} (loggable : Loggable row) :
    writeCallback row = rowText row :=
  List.take_of_length_le loggable.fits

/-- A row is read by one `fgets`. -/
theorem isLine_row {row : DataRow} {room : Nat} (loggable : Loggable row) (large : 127 ≤ room) :
    IsLine room (rowText row) := by
  refine ⟨⟨rowBody row, rowText_eq row, fun broken => ?_⟩, loggable.fits.trans large⟩
  exact (isInk_rowBody row _ broken).1 rfl

/-- There is no NUL in a row. -/
theorem ne_nul_of_mem_rowText {row : DataRow} {c : Char} (member : c ∈ rowText row) :
    c.toNat ≠ 0 := by
  rw [rowText_eq] at member
  rcases List.mem_append.mp member with inside | last
  · exact (isInk_rowBody row c inside).2
  · rw [List.mem_singleton.mp last]
    decide

/-- A row is a string up to its end. -/
theorem cString_rowText (row : DataRow) : cString (rowText row) = rowText row :=
  cString_of_ne fun _ member => ne_nul_of_mem_rowText member

/-- A row begins with a digit, because its time is not negative. -/
theorem rowText_head {row : DataRow} (loggable : Loggable row) :
    ∃ c rest, rowText row = c :: rest ∧ c.isDigit = true := by
  have printed : printLong row.collectTime = printNat row.collectTime.natAbs :=
    if_neg (not_lt.mpr loggable.timeNonneg)
  obtain ⟨c, rest, digits, digit⟩ := printNat_cons row.collectTime.natAbs
  exact ⟨c, _, by rw [rowText, printed, digits]; rfl, digit⟩

/-! ## Comments and headers -/

/-- A line which is skipped because it does not begin with a digit. -/
structure IsRemark (line : List Char) : Prop where
  isLine : IsLine 1023 line
  start : ∃ c rest, line = c :: rest ∧ c.isDigit = false ∧ c.toNat ≠ 0

/-- The comment of a run is skipped. -/
theorem isRemark_comment (run : LogRun) : IsRemark (commentText run.date run.time) := by
  have whole : commentText run.date run.time =
      ("# data collected ".toList ++ (run.date ++ ' ' :: run.time)) ++ ['\n'] := by
    rw [commentText, snprintf, List.take_of_length_le]
    · simp only [List.append_assoc, List.cons_append]
    · simp [run.dateLength, run.timeLength]
  rw [whole]
  refine ⟨⟨⟨_, rfl, ?_⟩, ?_⟩, ?_⟩
  · intro broken
    rcases List.mem_append.mp broken with fixed | compiled
    · exact absurd fixed (by decide)
    · exact (run.oneLine _ compiled).1 rfl
  · simp [run.dateLength, run.timeLength]
  · exact ⟨'#', _, rfl, by decide, by decide⟩

/-- The header is skipped. -/
theorem isRemark_header : IsRemark headerText := by
  refine ⟨⟨⟨"collect_time\traw_value\tvalue\ttare_value".toList, by decide, by decide⟩, by decide⟩, ?_⟩
  exact ⟨'c', _, rfl, by decide, by decide⟩

end MotorStand
