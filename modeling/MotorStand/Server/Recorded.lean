import MotorStand.Calibration.Routes
import MotorStand.Client.LogFile
import MotorStand.Server.Arguments

/-!
# The constants of a calibration, passed on

A calibration prints its constants with six digits behind the point, and the server takes them
back with `-k`. What is lost on the way is half a millionth for each of them.
-/

namespace MotorStand

open CText Imperative Imperative.Exec

/-- The argument `m,b` as it is copied from what a calibration prints. -/
def recordedText (m b : ℚ) : List Char :=
  printDouble (doubleOf m) ++ ',' :: printDouble (doubleOf b)

variable {environment : Environment} {address : List Char} {destAddr : List Nat}
  {m b : Double} {text : List Char}

/-- A printed number is read back up to a comma, or up to the end. -/
theorem strtod_doubleOf (value : ℚ) {rest : List Char} (ends : Stops goesOn rest) :
    strtod (printDouble (doubleOf value) ++ rest) = ((doubleOf value).rounded, rest) := by
  obtain ⟨negative, magnitude, same⟩ : ∃ negative magnitude, doubleOf value =
      .finite negative magnitude := ⟨_, _, rfl⟩
  have none : ∀ c ∈ ([] : List Char), isSpace c = true := fun _ member => nomatch member
  have read := strtod_printDouble negative magnitude none ends
  rwa [List.nil_append, ← same] at read

/-- The server reads both constants as they were printed. -/
theorem servReads_recorded (m b : ℚ) :
    servReads (recordedText m b) = .got (doubleOf m).rounded (doubleOf b).rounded := by
  have stops : Stops goesOn (',' :: printDouble (doubleOf b)) := stops_cons (by decide)
  have ends : Stops goesOn [] := fun _ member => nomatch member
  have first := strtod_doubleOf m stops
  have second := strtod_doubleOf b ends
  rw [List.append_nil] at second
  have comma : ¬ (',' :: printDouble (doubleOf b)).head? ≠ some ',' := not_not_intro rfl
  rw [servReads, recordedText, first, constantsOf, first, if_neg comma, List.tail_cons, second]

/-- An address and nothing behind it. -/
theorem takeAddress_returns {conversion : Conversion} {argv : Argv} (four : argv.length = 4)
    (present : argv[3]? = some address) (converted : inetPton address = some destAddr) :
    takeAddress environment conversion argv =
      .ok (.initialises conversion destAddr none, argv) := by
  rw [takeAddress, bind_of_returns (argument_returns present), converted]
  apply (bind_of_returns (argc_returns argv)).trans
  rw [if_neg (by omega)]
  rfl

/-- With constants and an address the server gets to `init_adc`. -/
theorem handleArguments_multipliers (socket : environment.socket = true)
    (broadcast : environment.setsockopt = true) (reads : servReads text = .got m b)
    (converted : inetPton address = some destAddr) (program : List Char) (count : Nat) :
    handleArguments environment count [program, "-k".toList, text, address] =
      .ok (.initialises (.multipliers m b) destAddr none,
        [program, "-k".toList, (strtod text).2, address]) := by
  have admitted : Admitted environment [program, "-k".toList, text, address] :=
    ⟨Nat.le_add_right 4 2, socket, broadcast⟩
  have returns := servConstants_returns program "-k".toList text [address]
  rw [reads] at returns
  rw [handleArguments_admitted admitted rfl, if_neg (by decide), if_pos rfl,
    bind_of_returns returns]
  exact takeAddress_returns rfl rfl converted

/-! ## What is lost -/

/-- Constants `p` and `q` convert as `m` and `b` do, up to half a millionth for each of them. -/
def ConvertsNear (p q m b : ℚ) : Prop :=
  ∀ nextRaw, |sampleValue p q nextRaw - sampleValue m b nextRaw| ≤
    (|fullScale nextRaw| + 1) / (2 * million)

/-- Half a millionth in each constant. -/
theorem convertsNear {p q m b : ℚ} (slope : |p - m| ≤ 1 / (2 * million))
    (intercept : |q - b| ≤ 1 / (2 * million)) : ConvertsNear p q m b := by
  intro nextRaw
  have apart : sampleValue p q nextRaw - sampleValue m b nextRaw =
      fullScale nextRaw * (p - m) + (q - b) := by
    rw [sampleValue, sampleValue]
    ring
  have scaled : |fullScale nextRaw * (p - m)| ≤ |fullScale nextRaw| * (1 / (2 * million)) := by
    rw [abs_mul]
    exact mul_le_mul_of_nonneg_left slope (abs_nonneg _)
  calc |sampleValue p q nextRaw - sampleValue m b nextRaw|
      = |fullScale nextRaw * (p - m) + (q - b)| := by rw [apart]
    _ ≤ |fullScale nextRaw * (p - m)| + |q - b| := abs_add_le ..
    _ ≤ |fullScale nextRaw| * (1 / (2 * million)) + 1 / (2 * million) := add_le_add scaled intercept
    _ = (|fullScale nextRaw| + 1) / (2 * million) := by ring

/-- The server starts with the constants `m` and `b` as they were copied: they convert
every reading nearly as `m` and `b` do, and are printed as `m` and `b` are. -/
def StartsWith (environment : Environment) (program address : List Char) (destAddr : List Nat)
    (m b : ℚ) : Prop :=
  ∃ slope intercept p q, (∀ count, ∃ argv,
      handleArguments environment count [program, "-k".toList, recordedText m b, address] =
        .ok (.initialises (.multipliers slope intercept) destAddr none, argv)) ∧
    slope.number = some p ∧ intercept.number = some q ∧ ConvertsNear p q m b ∧
    printDouble slope = printDouble (doubleOf m) ∧ printDouble intercept = printDouble (doubleOf b)

/-- Whatever the constants are, the server starts with them. -/
theorem startsWith_recorded (socket : environment.socket = true)
    (broadcast : environment.setsockopt = true) (converted : inetPton address = some destAddr)
    (program : List Char) (m b : ℚ) : StartsWith environment program address destAddr m b := by
  obtain ⟨p, slope, slopeNear⟩ := rounded_near (number_doubleOf m)
  obtain ⟨q, intercept, interceptNear⟩ := rounded_near (number_doubleOf b)
  have starts (count : Nat) :=
    handleArguments_multipliers socket broadcast (servReads_recorded m b) converted program count
  exact ⟨_, _, p, q, fun count => ⟨_, starts count⟩, slope, intercept,
    convertsNear slopeNear interceptNear, printDouble_rounded _, printDouble_rounded _⟩

/-- Constants which have no end in decimal digits. -/
theorem startsWith_recorded_thirds :
    StartsWith readyEnvironment "load_cell_serv".toList "10.0.0.255".toList [10, 0, 0, 255]
      (1 / 3) (-2 / 7) :=
  startsWith_recorded rfl rfl (by decide) _ _ _

end MotorStand
