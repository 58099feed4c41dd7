import MotorStand.Client.Constants
import MotorStand.Client.LogFile
import MotorStand.Text.Arithmetic

/-!
# `main` of `load_cell_logger`

The file is opened before the option is looked at, and what stands behind `-k` is only accepted
if it starts with the comma. The client loop does not return; its batches end the model of a run.
-/

namespace MotorStand

open CText Imperative Imperative.Exec

/-- Which files `fopen(...,"a")` opens, and when the program was compiled. -/
structure LoggerSystem where
  fopen : List Char → Bool
  date : List Char
  time : List Char

/-- `argv`, what was printed, the files which `fopen` has opened, and what was written to
`fhandle`. -/
structure LoggerStore where
  argv : Argv
  console : List Char
  opened : List (List Char)
  written : List Char

/-- `exit(1)`, or the loop of the client. -/
inductive LoggerEnd where
  | exits
  | receives
deriving DecidableEq

/-- A program on the arguments alone. -/
def onArgv {α : Type} (program : Exec Argv α) : Exec LoggerStore α := fun store =>
  match program store.argv with
  | .ok (value, argv) => .ok (value, { store with argv })
  | .error fault => .error fault

/-- `printf`. -/
def printConsole (text : List Char) : Exec LoggerStore Unit :=
  modify fun store => { store with console := store.console ++ text }

/-- The store with more text written to `fhandle`. -/
def LoggerStore.append (store : LoggerStore) (text : List Char) : LoggerStore :=
  { store with written := store.written ++ text }

/-- `fwrite(buf,strlen(buf),sizeof(char),fhandle)`. -/
def fwrite (text : List Char) : Exec LoggerStore Unit := modify fun store => store.append text

/-- `argc`. -/
def loggerArgc : Exec LoggerStore Nat := fun store => .ok (store.argv.length, store)

/-- `stdout` for `-`, and `fopen(fname,"a")` otherwise: whether there is a handle. -/
def openHandle (system : LoggerSystem) (fname : List Char) : Exec LoggerStore Bool :=
  if fname = "-".toList then return true
  else if system.fopen fname then do
    modify fun store => { store with opened := store.opened ++ [fname] }
    return true
  else return false

/-- The text behind `help_msg`, and `exit(1)`. -/
def loggerHelp : Exec LoggerStore LoggerEnd := do
  let program ← onArgv (argument 0)
  printConsole ("usage:\n".toList ++ program ++ (" <fname> \x7b -k <m,b> \x7d\n" ++
    "passing '-' as fname will print to stdout\n" ++
    "passing -k followed by the conversion constants\n" ++
    "will allow batch data to be reconstructed live\n").toList)
  return .exits

/-- The row of an entry: `m * (raw / ADC_MAX) + b` and `0.0`. -/
def loggedRow (m b : Double) (min : OutputMinimal) : DataRow :=
  ⟨min.collectTime, min.rawValue, (m.mul (doubleOf (fullScale min.rawValue))).add b,
    .finite false 0⟩

/-- `write_callback_batch`, down to the text. -/
def writeBatchText (m b : Double) (batch : OutputBatch) : Exec LoggerStore Unit :=
  forInt batch.count () fun i _ => do
    let min ← entryAt batch i
    fwrite (writeCallback (loggedRow m b min))

/-- `main` behind the options. The file name is printed from where it is not. -/
def launchLogger (system : LoggerSystem) (fhandle : Bool) (m b : Double) (message : OutputBatch)
    (received : List Received) : Exec LoggerStore LoggerEnd := do
  if fhandle = false then
    let given ← onArgv (argument 2)
    printConsole ("failed to open given file: ".toList ++ (given ++ ['\n']))
    return .exits
  else
    fwrite (commentText system.date system.time)
    fwrite headerText
    runLoadCellCliWorker (writeBatchText m b) message received
    return .receives

/-- What follows the reading of the constants. -/
def useConstants (system : LoggerSystem) (fhandle : Bool) (message : OutputBatch)
    (received : List Received) : ConstantsOption → Exec LoggerStore LoggerEnd
  | .rejected text => do
      printConsole text.toList
      return .exits
  | .got m b => do
      printConsole ("got multiplier as ".toList ++ (printDouble m ++ " * x + ".toList ++
        (printDouble b ++ ['\n'])))
      launchLogger system fhandle m b message received

/-- `main` of `load_cell_logger`, whose `recvfrom` calls have the outcomes `received`. -/
def loggerMain (system : LoggerSystem) (message : OutputBatch) (received : List Received) :
    Exec LoggerStore LoggerEnd := do
  let count ← loggerArgc
  if count ≠ 2 ∧ count ≠ 4 then loggerHelp
  else
    let fname ← onArgv (argument 1)
    if fname = "-h".toList then loggerHelp
    else
      let fhandle ← openHandle system fname
      if count = 4 then
        let option ← onArgv (argument 2)
        if option ≠ "-k".toList then loggerHelp
        else
          let constants ← onArgv loggerConstants
          useConstants system fhandle message received constants
      else launchLogger system fhandle (.finite false 0) (.finite false 0) message received

/-! ## What is logged -/

variable {system : LoggerSystem} {store : LoggerStore} {message batch : OutputBatch}
  {deliveries : List OutputBatch} {m b : Double}

/-- The text of a list of entries. -/
def entriesText (m b : Double) (entries : List OutputMinimal) : List Char :=
  entries.flatMap fun entry => writeCallback (loggedRow m b entry)

/-- Texts are appended one behind the other. -/
theorem append_append (store : LoggerStore) (first second : List Char) :
    (store.append first).append second = store.append (first ++ second) := by
  simp [LoggerStore.append]

/-- Without a text nothing is appended. -/
theorem append_nil (store : LoggerStore) : store.append [] = store := by
  simp [LoggerStore.append]

/-- Entries which become the text of their rows. -/
theorem writeEntries_text (m b : Double) (entries : List OutputMinimal) (store : LoggerStore) :
    writeEntries (fun entry store => store.append (writeCallback (loggedRow m b entry))) entries
      store = store.append (entriesText m b entries) := by
  induction entries generalizing store with
  | nil => exact (append_nil store).symm
  | cons entry rest ih =>
      have written := ih (store.append (writeCallback (loggedRow m b entry)))
      rwa [append_append] at written

/-- Every datagram is written row by row, and nothing else changes. -/
theorem workerText_ensures (m b : Double)
    (bounded : ∀ datagram ∈ deliveries, datagram.count ≤ batchSize) (message : OutputBatch)
    (store : LoggerStore) :
    (runLoadCellCliWorker (writeBatchText m b) message (deliveries.map .whole)).Ensures store
      fun _ after =>
        after = store.append (entriesText m b (deliveries.flatMap OutputBatch.entries)) := by
  rw [← writeEntries_text]
  exact workerWrites_ensures _ (fun _ bounded store => writeBatch_ensures _ bounded store)
    deliveries bounded message store

/-- The text of a row tells a row of numbers. -/
structure DataRow.Tells (row : DataRow) (numbers : LogRow) : Prop where
  collectTime : row.collectTime = numbers.collectTime
  rawValue : row.rawValue = numbers.rawValue
  value : row.value.number = some numbers.value
  valueTare : row.valueTare.number = some numbers.tareValue

/-- With numbers for constants, the row of an entry tells the exact one. -/
theorem loggedRow_tells {p q : ℚ} (slope : m.number = some p) (intercept : b.number = some q)
    (entry : OutputMinimal) : (loggedRow m b entry).Tells (logRow ⟨p, q⟩ entry) where
  collectTime := rfl
  rawValue := rfl
  value := number_add (number_mul slope (number_doubleOf _)) intercept
  valueTare := rfl

/-- The text of `write_callback_batch` is that of the rows which its exact model logs. -/
theorem writeBatchText_refines {p q : ℚ} (slope : m.number = some p)
    (intercept : b.number = some q) (bounded : batch.count ≤ batchSize) (store : LoggerStore) :
    ∃ printed : List DataRow,
      ((writeBatchText m b batch).Ensures store fun _ after =>
        after = store.append (printed.flatMap writeCallback)) ∧
      (writeCallbackBatch ⟨p, q⟩ batch).Ensures [] fun _ rows =>
        List.Forall₂ DataRow.Tells printed rows := by
  refine ⟨batch.entries.map (loggedRow m b), ?_, ?_⟩
  · rw [List.flatMap_map]
    have written := writeBatch_ensures
      (fun entry store => store.append (writeCallback (loggedRow m b entry))) bounded store
    rwa [writeEntries_text] at written
  · apply (writeCallbackBatch_ensures _ bounded []).imp
    rintro _ rows rfl
    rw [List.nil_append, List.forall₂_map_left_iff, List.forall₂_map_right_iff]
    exact List.forall₂_same.mpr fun entry _ => loggedRow_tells slope intercept entry

/-- What a run appends to its file. -/
def runText (system : LoggerSystem) (m b : Double) (entries : List OutputMinimal) : List Char :=
  commentText system.date system.time ++ (headerText ++ entriesText m b entries)

/-- With a handle the logger writes its run and goes on receiving. -/
theorem launchLogger_ensures (m b : Double)
    (bounded : ∀ datagram ∈ deliveries, datagram.count ≤ batchSize) (message : OutputBatch)
    (store : LoggerStore) :
    (launchLogger system true m b message (deliveries.map .whole)).Ensures store
      fun outcome after => outcome = .receives ∧
        after = store.append (runText system m b (deliveries.flatMap OutputBatch.entries)) := by
  apply Ensures.bind_returns rfl
  apply Ensures.bind_returns rfl
  apply (workerText_ensures m b bounded message _).bind
  rintro _ _ rfl
  apply ensures_pure
  rw [append_append, append_append, runText]
  exact ⟨rfl, rfl⟩

/-! ## The options -/

/-- A name which stands for a handle. -/
def LoggerSystem.Opens (system : LoggerSystem) (fname : List Char) : Prop :=
  fname = "-".toList ∨ system.fopen fname = true

instance (fname : List Char) : Decidable (system.Opens fname) :=
  inferInstanceAs (Decidable (_ ∨ _))

/-- The files which are opened for a name. -/
def LoggerSystem.opening (system : LoggerSystem) (fname : List Char) : List (List Char) :=
  if fname ≠ "-".toList ∧ system.fopen fname = true then [fname] else []

/-- The arguments with which the logger gets to its client loop, and the constant `b` it then
has. The number in front of the comma is never read. -/
inductive Launches (system : LoggerSystem) : Argv → Double → Prop where
  | plain {program fname} (name : fname ≠ "-h".toList) (opens : system.Opens fname) :
      Launches system [program, fname] (.finite false 0)
  | constants {program fname rest} (name : fname ≠ "-h".toList) (opens : system.Opens fname) :
      Launches system [program, fname, "-k".toList, ',' :: rest] (strtod rest).1

/-- An argument which is there. -/
theorem onArgv_argument {index : Nat} {text : List Char} (present : store.argv[index]? = some text) :
    onArgv (argument index) store = .ok (text, store) := by
  rw [onArgv, argument_returns present]

/-- An argument which is not there. -/
theorem onArgv_fails {index : Nat} (absent : store.argv[index]? = none) :
    onArgv (argument index) store = .error .outOfBounds := by
  rw [onArgv, argument, absent]

/-- The store when the options are looked at. -/
def LoggerStore.afterOpen (store : LoggerStore) (system : LoggerSystem) (fname : List Char) :
    LoggerStore :=
  { store with opened := store.opened ++ system.opening fname }

/-- There is a handle exactly if the name opens. -/
theorem openHandle_returns (system : LoggerSystem) (fname : List Char) (store : LoggerStore) :
    openHandle system fname store =
      .ok (decide (system.Opens fname), store.afterOpen system fname) := by
  rw [openHandle, LoggerStore.afterOpen]
  by_cases dash : fname = "-".toList
  · have opens : system.Opens fname := .inl dash
    have none : system.opening fname = [] := if_neg fun both => both.1 dash
    rw [if_pos dash, none, List.append_nil, decide_eq_true opens]
    rfl
  · rw [if_neg dash]
    cases opened : system.fopen fname with
    | true =>
        have opens : system.Opens fname := .inr opened
        have one : system.opening fname = [fname] := if_pos ⟨dash, opened⟩
        rw [if_pos rfl, one, decide_eq_true opens]
        rfl
    | false =>
        have closed : ¬ system.Opens fname := by
          rintro (same | opens)
          · exact dash same
          · rw [opened] at opens
            cases opens
        have none : system.opening fname = [] := by simp [LoggerSystem.opening, opened]
        rw [none, List.append_nil, decide_eq_false closed]
        rfl

/-- The help writes nothing to the file. -/
theorem loggerHelp_ensures (some : store.argv ≠ []) :
    loggerHelp.Ensures store fun outcome after =>
      outcome = .exits ∧ after.written = store.written := by
  obtain ⟨program, others, present⟩ := List.exists_cons_of_ne_nil some
  have first : store.argv[0]? = .some program := by rw [present]; rfl
  apply Ensures.bind_returns (onArgv_argument first)
  apply Ensures.bind_returns rfl
  exact ensures_pure ⟨rfl, rfl⟩

variable {program fname option text rest : List Char}

/-- `argc` is the number of arguments. -/
theorem loggerArgc_returns (store : LoggerStore) :
    loggerArgc store = .ok (store.argv.length, store) := rfl

/-- Any other number of arguments is answered by the help. -/
theorem loggerMain_other (other : store.argv.length ≠ 2 ∧ store.argv.length ≠ 4)
    (received : List Received) :
    loggerMain system message received store = loggerHelp store := by
  rw [loggerMain, bind_of_returns (loggerArgc_returns store), if_pos other]

/-- `-h` in the place of the file name. -/
theorem loggerMain_help (count : store.argv.length = 2 ∨ store.argv.length = 4)
    (name : store.argv[1]? = some "-h".toList) (received : List Received) :
    loggerMain system message received store = loggerHelp store := by
  rw [loggerMain, bind_of_returns (loggerArgc_returns store),
    if_neg (by omega), bind_of_returns (onArgv_argument name), if_pos rfl]

/-- Without an option. -/
theorem loggerMain_plain (arguments : store.argv = [program, fname]) (name : fname ≠ "-h".toList)
    (received : List Received) :
    loggerMain system message received store =
      launchLogger system (system.Opens fname) (.finite false 0) (.finite false 0) message received
        (store.afterOpen system fname) := by
  have second : store.argv[1]? = some fname := by rw [arguments]; rfl
  have count : store.argv.length = 2 := by rw [arguments]; rfl
  rw [loggerMain, bind_of_returns (loggerArgc_returns store),
    if_neg (by omega), bind_of_returns (onArgv_argument second), if_neg name,
    bind_of_returns (openHandle_returns system fname store), if_neg (by omega)]

/-- With something in the place of `-k`. -/
theorem loggerMain_option (arguments : store.argv = [program, fname, option, text])
    (name : fname ≠ "-h".toList) (other : option ≠ "-k".toList) (received : List Received) :
    loggerMain system message received store = loggerHelp (store.afterOpen system fname) := by
  have second : store.argv[1]? = some fname := by rw [arguments]; rfl
  have third : (store.afterOpen system fname).argv[2]? = some option := by
    rw [LoggerStore.afterOpen, arguments]
    rfl
  have count : store.argv.length = 4 := by rw [arguments]; rfl
  rw [loggerMain, bind_of_returns (loggerArgc_returns store),
    if_neg (by omega), bind_of_returns (onArgv_argument second), if_neg name,
    bind_of_returns (openHandle_returns system fname store), if_pos count]
  rw [bind_of_returns (onArgv_argument third), if_pos other]

/-- The store behind the test for the comma, with the stop of `strtod` in the entry of the
option. -/
def LoggerStore.afterConstants (store : LoggerStore) (text : List Char) : LoggerStore :=
  { store with argv := store.argv.set 2 (strtod text).2 }

/-- The constants are read from the last of four arguments. -/
theorem onArgv_loggerConstants (arguments : store.argv = [program, fname, option, text]) :
    onArgv loggerConstants store = .ok (loggerReads text, store.afterConstants text) := by
  rw [onArgv, arguments, loggerConstants_returns, LoggerStore.afterConstants, arguments]
  rfl

/-- With `-k`. -/
theorem loggerMain_constants (arguments : store.argv = [program, fname, "-k".toList, text])
    (name : fname ≠ "-h".toList) (received : List Received) :
    loggerMain system message received store =
      useConstants system (system.Opens fname) message received (loggerReads text)
        ((store.afterOpen system fname).afterConstants text) := by
  have second : store.argv[1]? = some fname := by rw [arguments]; rfl
  have opened : (store.afterOpen system fname).argv = [program, fname, "-k".toList, text] :=
    arguments
  have third : (store.afterOpen system fname).argv[2]? = some "-k".toList := by
    rw [opened]
    rfl
  have count : store.argv.length = 4 := by rw [arguments]; rfl
  rw [loggerMain, bind_of_returns (loggerArgc_returns store),
    if_neg (by omega), bind_of_returns (onArgv_argument second), if_neg name,
    bind_of_returns (openHandle_returns system fname store), if_pos count]
  rw [bind_of_returns (onArgv_argument third), if_neg (not_not.mpr rfl),
    bind_of_returns (onArgv_loggerConstants opened)]

/-! ## What becomes of a run -/

/-- The first number is not read, because it would stand in front of the comma. -/
theorem loggerReads_comma (rest : List Char) :
    loggerReads (',' :: rest) = .got (.finite false 0) (strtod rest).1 := by
  have comma : ¬ (',' :: rest).head? ≠ some ',' := not_not.mpr rfl
  rw [loggerReads, constantsOf, if_neg comma, strtod_comma]
  rfl

/-- Constants which were accepted lead to a run. -/
theorem useConstants_ensures (m b : Double)
    (bounded : ∀ datagram ∈ deliveries, datagram.count ≤ batchSize) (message : OutputBatch)
    (store : LoggerStore) :
    (useConstants system true message (deliveries.map .whole) (.got m b)).Ensures store
      fun outcome after => outcome = .receives ∧ after.written =
        store.written ++ runText system m b (deliveries.flatMap OutputBatch.entries) := by
  apply Ensures.bind_returns rfl
  apply (launchLogger_ensures m b bounded message _).imp
  rintro _ _ ⟨rfl, rfl⟩
  exact ⟨rfl, rfl⟩

/-- The arguments are gone through until an entry is printed which is not there. -/
def PrintsNull (system : LoggerSystem) (argv : Argv) : Prop :=
  argv = [] ∨ ∃ program fname, argv = [program, fname] ∧ fname ≠ "-h".toList ∧
    ¬ system.Opens fname

/-- Arguments which have none of the accepted forms. -/
def Refused (system : LoggerSystem) (argv : Argv) : Prop :=
  (∀ b, ¬ Launches system argv b) ∧ ¬ PrintsNull system argv

/-- Arguments which launch the logger make it write a run. -/
theorem loggerMain_launches (launches : Launches system store.argv b)
    (bounded : ∀ datagram ∈ deliveries, datagram.count ≤ batchSize) :
    (loggerMain system message (deliveries.map .whole)).Ensures store fun outcome after =>
      outcome = .receives ∧ after.written = store.written ++
        runText system (.finite false 0) b (deliveries.flatMap OutputBatch.entries) := by
  cases arguments : store.argv with
  | nil =>
      rw [arguments] at launches
      cases launches
  | cons program others =>
      rw [arguments] at launches
      cases launches with
      | @plain _ fname name opens =>
          obtain ⟨_, _, returned, rfl, rfl⟩ := launchLogger_ensures (.finite false 0)
            (.finite false 0) bounded message (store.afterOpen system fname)
          rw [← decide_eq_true opens] at returned
          rw [← loggerMain_plain arguments name] at returned
          exact .of_returns returned ⟨rfl, rfl⟩
      | @constants _ fname rest name opens =>
          rw [Ensures, loggerMain_constants arguments name, loggerReads_comma, decide_eq_true opens]
          exact useConstants_ensures (.finite false 0) (strtod rest).1 bounded message
            ((store.afterOpen system fname).afterConstants (',' :: rest))

/-- A name which does not open ends the program, if the entry which is printed is there. -/
theorem launchLogger_closed (m b : Double) (received : List Received) {text : List Char}
    (present : store.argv[2]? = some text) :
    (launchLogger system false m b message received).Ensures store fun outcome after =>
      outcome = .exits ∧ after.written = store.written := by
  apply Ensures.bind_returns (onArgv_argument present)
  apply Ensures.bind_returns rfl
  exact ensures_pure ⟨rfl, rfl⟩

/-- Four arguments by their names. -/
theorem length_eq_four {argv : Argv} (four : argv.length = 4) :
    ∃ program fname option text, argv = [program, fname, option, text] := by
  match argv, four with
  | [program, fname, option, text], _ => exact ⟨program, fname, option, text, rfl⟩

/-- Behind `-k`, what is not refused for its beginning is refused for the file. -/
theorem useConstants_refuses (refused : text.head? = some ',' → ¬ system.Opens fname)
    (received : List Received) {stop : List Char} (present : store.argv[2]? = some stop) :
    (useConstants system (system.Opens fname) message received (loggerReads text)).Ensures store
      fun outcome after => outcome = .exits ∧ after.written = store.written := by
  by_cases comma : text.head? = some ','
  · obtain ⟨rest, rfl⟩ := List.head?_eq_some_iff.mp comma
    rw [loggerReads_comma, decide_eq_false (refused comma)]
    apply Ensures.bind_returns rfl
    exact launchLogger_closed _ _ received present
  · rw [loggerReads_rejects comma]
    apply Ensures.bind_returns rfl
    exact ensures_pure ⟨rfl, rfl⟩

/-- What the logger does with arguments which are refused. -/
theorem loggerMain_refuses (refused : Refused system store.argv) (received : List Received) :
    (loggerMain system message received).Ensures store fun outcome after =>
      outcome = .exits ∧ after.written = store.written := by
  obtain ⟨launchesNot, printsNot⟩ := refused
  have nonempty : store.argv ≠ [] := fun none => printsNot (.inl none)
  by_cases other : store.argv.length ≠ 2 ∧ store.argv.length ≠ 4
  · obtain ⟨_, _, returned, holds⟩ := loggerHelp_ensures nonempty
    exact .of_returns ((loggerMain_other other received).trans returned) holds
  have count : store.argv.length = 2 ∨ store.argv.length = 4 := by omega
  by_cases help : store.argv[1]? = some "-h".toList
  · obtain ⟨_, _, returned, holds⟩ := loggerHelp_ensures nonempty
    exact .of_returns ((loggerMain_help count help received).trans returned) holds
  rcases count with two | four
  · obtain ⟨program, fname, arguments⟩ := List.length_eq_two.mp two
    rw [arguments] at launchesNot printsNot help
    have name : fname ≠ "-h".toList := fun same => help (by rw [same]; rfl)
    by_cases opens : system.Opens fname
    · exact absurd (.plain name opens) (launchesNot _)
    · exact absurd (.inr ⟨program, fname, rfl, name, opens⟩) printsNot
  · obtain ⟨program, fname, option, text, arguments⟩ := length_eq_four four
    have name : fname ≠ "-h".toList := fun same => help (by rw [arguments, same]; rfl)
    by_cases key : option = "-k".toList
    · subst key
      rw [arguments] at launchesNot
      have refused : text.head? = some ',' → ¬ system.Opens fname := by
        intro comma opens
        obtain ⟨rest, rfl⟩ := List.head?_eq_some_iff.mp comma
        exact launchesNot _ (.constants name opens)
      have stop : ((store.afterOpen system fname).afterConstants text).argv[2]? =
          some (strtod text).2 := by
        rw [LoggerStore.afterConstants, LoggerStore.afterOpen, arguments]
        rfl
      rw [Ensures, loggerMain_constants arguments name]
      exact useConstants_refuses refused received stop
    · have kept : (store.afterOpen system fname).argv ≠ [] := nonempty
      obtain ⟨_, _, returned, holds⟩ := loggerHelp_ensures kept
      exact .of_returns ((loggerMain_option arguments name key received).trans returned) holds

/-- The entry behind the last argument is printed as a string, or there is no program name. -/
theorem loggerMain_faults (prints : PrintsNull system store.argv) (received : List Received) :
    loggerMain system message received store = .error .outOfBounds := by
  rcases prints with none | ⟨program, fname, arguments, name, closed⟩
  · have absent : store.argv[0]? = .none := by rw [none]; rfl
    rw [loggerMain_other (by rw [none]; decide)]
    exact bind_of_fails (onArgv_fails absent)
  · have absent : (store.afterOpen system fname).argv[2]? = .none := by
      rw [LoggerStore.afterOpen, arguments]
      rfl
    rw [loggerMain_plain arguments name, decide_eq_false closed]
    exact bind_of_fails (onArgv_fails absent)

/-- The value of every row, unless it is the negative zero which loses its sign. -/
theorem loggedRow_value (other : b ≠ .finite true 0) (min : OutputMinimal) :
    loggedRow (.finite false 0) b min = ⟨min.collectTime, min.rawValue, b, .finite false 0⟩ := by
  have product : (Double.finite false 0).mul (doubleOf (fullScale min.rawValue)) =
      .finite (xor false (fullScale min.rawValue < 0)) 0 := finite_zero_mul ..
  rw [loggedRow, product, finite_zero_add _ other]

/-- A run of the logger is decided by its arguments: it logs the entries it is given, all with
the same value; or it exits and writes nothing; or it prints an entry of `argv` which is not
there. -/
structure LoggerDecides (system : LoggerSystem) (store : LoggerStore) (message : OutputBatch)
    (deliveries : List OutputBatch) : Prop where
  launches : ∀ b, Launches system store.argv b → b ≠ .finite true 0 →
    (loggerMain system message (deliveries.map .whole)).Ensures store fun outcome after =>
      outcome = .receives ∧ after.written = store.written ++ (commentText system.date system.time ++
        (headerText ++ (deliveries.flatMap OutputBatch.entries).flatMap fun entry =>
          writeCallback ⟨entry.collectTime, entry.rawValue, b, .finite false 0⟩))
  refuses : Refused system store.argv →
    (loggerMain system message (deliveries.map .whole)).Ensures store fun outcome after =>
      outcome = .exits ∧ after.written = store.written
  faults : PrintsNull system store.argv →
    loggerMain system message (deliveries.map .whole) store = .error .outOfBounds

/-- Whatever the constants of the server are, the logger knows at most the second one. -/
theorem loggerMain_decides (system : LoggerSystem) (store : LoggerStore) (message : OutputBatch)
    (deliveries : List OutputBatch)
    (bounded : ∀ datagram ∈ deliveries, datagram.count ≤ batchSize) :
    LoggerDecides system store message deliveries where
  launches b launches other := by
    apply (loggerMain_launches launches bounded).imp
    rintro outcome after ⟨receives, written⟩
    refine ⟨receives, ?_⟩
    rw [written, runText, entriesText]
    simp only [loggedRow_value other]
  refuses refused := loggerMain_refuses refused _
  faults prints := loggerMain_faults prints _

/-- One sample, logged with the constant 3 behind `-k ,3`. -/
theorem loggerMain_decides_comma : LoggerDecides ⟨fun _ => true, [], []⟩
    ⟨[['l'], ['o'], ['-', 'k'], [',', '3']], [], [], []⟩ clearedBatch
      [⟨1, .replicate batchSize ⟨7, 5⟩⟩] :=
  loggerMain_decides _ _ _ _ (by
    intro datagram member
    rw [List.mem_singleton.mp member]
    decide)

end MotorStand
