import MotorStand.Imperative.Exec
import MotorStand.Text.Decimal

/-!
# The conversion constants of `-k`

`load_cell_serv` and `load_cell_logger` both read `m,b` from an argument. `strtod`
stores where it stopped in an entry of `argv`, and the character to be tested for
the comma is then taken from an entry again.
-/

namespace MotorStand

open CText Imperative Imperative.Exec

/-- The strings of `argv`, each from where its entry points. -/
abbrev Argv := List (List Char)

/-- `argv[index]`. -/
def argument (index : Nat) : Exec Argv (List Char) := fun argv =>
  match argv[index]? with
  | some text => .ok (text, argv)
  | none => .error .outOfBounds

/-- `argv[index] = text`. -/
def setArgument (index : Nat) (text : List Char) : Exec Argv Unit := fun argv =>
  if index < argv.length then .ok ((), argv.set index text) else .error .outOfBounds

/-- What became of the argument. -/
inductive ConstantsOption where
  | got (m b : Double)
  | rejected (message : String)
deriving DecidableEq

/-- `m = strtod(argv[number],&argv[stop])`, the test of `argv[number][0]`, and `b` from
behind the comma. -/
def readConstants (number stop : Nat) : Exec Argv ConstantsOption := do
  let text ← argument number
  setArgument stop (strtod text).2
  let tested ← argument number
  if tested.head? ≠ some ',' then
    return .rejected "Expected values in form \"m,b\" for option -k\n"
  else return .got (strtod text).1 (strtod tested.tail).1

/-- The block for `-k` in `load_cell_serv`. -/
def servConstants : Exec Argv ConstantsOption := readConstants 2 2

/-- The block for `-k` in `load_cell_logger`, which stores the stop in another entry than
the one it goes on with. -/
def loggerConstants : Exec Argv ConstantsOption := readConstants 3 2

/-- The outcome when `text` is converted and `tested` is the entry afterwards. -/
def constantsOf (text tested : List Char) : ConstantsOption :=
  if tested.head? ≠ some ',' then
    .rejected "Expected values in form \"m,b\" for option -k\n"
  else .got (strtod text).1 (strtod tested.tail).1

/-- What the server makes of the string behind `-k`. -/
def servReads (text : List Char) : ConstantsOption := constantsOf text (strtod text).2

/-- What the logger makes of it. -/
def loggerReads (text : List Char) : ConstantsOption := constantsOf text text

variable {text tested : List Char} {argv : Argv}

/-- An argument which is there is returned. -/
theorem argument_returns {index : Nat} (present : argv[index]? = some text) :
    argument index argv = .ok (text, argv) := by
  rw [argument, present]

/-- Looking at an argument changes none. -/
theorem argument_returns_iff {index : Nat} {after : Argv} :
    argument index argv = .ok (text, after) ↔ argv[index]? = some text ∧ argv = after := by
  rw [argument]
  cases argv[index]? with
  | none => simp
  | some entry => simp

/-- The constants which are read, and the argument which is overwritten. -/
theorem readConstants_returns {number stop : Nat} (present : argv[number]? = some text)
    (inside : stop < argv.length)
    (afterwards : (argv.set stop (strtod text).2)[number]? = some tested) :
    readConstants number stop argv =
      .ok (constantsOf text tested, argv.set stop (strtod text).2) := by
  have stored : setArgument stop (strtod text).2 argv =
      .ok ((), argv.set stop (strtod text).2) := if_pos inside
  rw [readConstants, bind_of_returns (argument_returns present), bind_of_returns stored,
    bind_of_returns (argument_returns afterwards), constantsOf]
  split <;> rfl

/-- The server tests the text behind the number. -/
theorem servConstants_returns (program option text : List Char) (others : Argv) :
    servConstants (program :: option :: text :: others) =
      .ok (servReads text, program :: option :: (strtod text).2 :: others) :=
  readConstants_returns rfl (by simp) rfl

/-- The logger tests the text as it was given. -/
theorem loggerConstants_returns (program fname option text : List Char) :
    loggerConstants [program, fname, option, text] =
      .ok (loggerReads text, [program, fname, (strtod text).2, text]) :=
  readConstants_returns rfl (by simp) rfl

/-- Both programs make the same of the string, whatever their other arguments are, and two
numbers with a comma between them are the constants. -/
structure ReadAlike (text : List Char) : Prop where
  agree : ∀ program option fname others, ∃ result afterServ afterLogger,
    servConstants (program :: option :: text :: others) = .ok (result, afterServ) ∧
      loggerConstants [program, fname, option, text] = .ok (result, afterLogger)
  numbers : ∀ m b : Decimal, text = m.text ++ ',' :: b.text →
    servReads text = .got m.value b.value ∧ loggerReads text = .got m.value b.value

/-- `strtod` reads the first of two numbers. -/
theorem strtod_numbers {m b : Decimal} (spelled : text = m.text ++ ',' :: b.text) :
    strtod text = (m.value, ',' :: b.text) := by
  rw [spelled]
  exact strtod_spelled m (stops_cons (by decide))

/-- A spelled number does not begin with a comma. -/
theorem text_head_ne_comma (decimal : Decimal) (rest : List Char) :
    (decimal.text ++ rest).head? ≠ some ',' := by
  intro comma
  obtain ⟨tail, whole⟩ := List.head?_eq_some_iff.mp comma
  have signed := scanSign_decimal decimal rest
  obtain ⟨c, others, written, start⟩ := unsignedText_head decimal
  rw [whole, written] at signed
  have same : ',' = c := (List.cons.inj (congrArg Prod.snd signed)).1
  rcases start with digit | rfl
  · rw [← same] at digit
    cases digit
  · cases same

/-- Without a comma in front the logger refuses the string. -/
theorem loggerReads_rejects (other : text.head? ≠ some ',') :
    loggerReads text = .rejected "Expected values in form \"m,b\" for option -k\n" :=
  if_pos other

/-- When both programs read the same. -/
theorem reads_eq_iff (text : List Char) :
    servReads text = loggerReads text ↔
      (text.head? = some ',' ∨ (strtod text).2.head? ≠ some ',') := by
  by_cases comma : text.head? = some ','
  · obtain ⟨rest, rfl⟩ := List.head?_eq_some_iff.mp comma
    exact ⟨fun _ => .inl rfl, fun _ => by rw [servReads, loggerReads, strtod_comma]⟩
  · rw [loggerReads_rejects comma, servReads, constantsOf]
    split
    next refused => exact ⟨fun _ => .inr refused, fun _ => rfl⟩
    next accepted =>
        constructor
        · intro same
          cases same
        · rintro (first | stop)
          · exact absurd first comma
          · exact absurd stop accepted

/-- The logger tests where the number starts instead of where it stops. It agrees with the
server on the strings which start with the comma, or have none behind their first number. -/
theorem readAlike_iff (text : List Char) :
    ReadAlike text ↔ (text.head? = some ',' ∨ (strtod text).2.head? ≠ some ',') := by
  rw [← reads_eq_iff]
  constructor
  · intro alike
    obtain ⟨result, afterServ, afterLogger, serv, logger⟩ := alike.agree [] [] [] []
    rw [servConstants_returns] at serv
    rw [loggerConstants_returns] at logger
    cases serv
    injection logger with pair
    exact (congrArg Prod.fst pair).symm
  · intro same
    refine ⟨fun program option fname others => ?_, fun m b spelled => ?_⟩
    · have logger := loggerConstants_returns program fname option text
      rw [← same] at logger
      exact ⟨_, _, _, servConstants_returns program option text others, logger⟩
    · -- such a string is accepted by the server only
      have stop : (strtod text).2.head? = some ',' := by rw [strtod_numbers spelled]; rfl
      rcases (reads_eq_iff text).mp same with comma | other
      · rw [spelled] at comma
        exact absurd comma (text_head_ne_comma m _)
      · exact absurd stop other

/-- The server takes `2,3`, the logger rejects it. -/
theorem not_readAlike_twoThree : ¬ ReadAlike ['2', ',', '3'] := by
  intro alike
  obtain ⟨result, afterServ, afterLogger, serv, logger⟩ := alike.agree [] [] [] []
  rw [servConstants_returns] at serv
  rw [loggerConstants_returns, loggerReads_rejects (by decide)] at logger
  cases logger
  injection serv with pair
  have rejected := congrArg Prod.fst pair
  cases rejected

end MotorStand
