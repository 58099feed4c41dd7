import MotorStand.Calibration.Weights
import MotorStand.Client.Constants
import MotorStand.Server.Writethrough
import MotorStand.Text.Address

/-!
# The arguments of `load_cell_serv`

`main` takes an option, its values, an address and, behind them, `-w` with a file name.
It only refuses to have too many of them: which entries of `argv` are there is not
checked before they are read.
-/

namespace MotorStand

open CText Imperative Imperative.Exec

/-- What the calls of the operating system return to `main`: whether `socket` and
`setsockopt` succeed, the descriptor of `open`, and the count of `write`. -/
structure Environment where
  socket : Bool
  setsockopt : Bool
  openFile : List Char → Int
  write : Int

/-- What the options leave for the rest of `main`. -/
inductive Conversion where
  | calibrating (knownWeights : List Double)
  | multipliers (m b : Double)

/-- How far `main` gets: it is in the parsing loop, it exits with status 1 behind a message,
or it calls `init_adc`. -/
inductive Startup where
  | parsing
  | exits (message : List Char)
  | initialises (conversion : Conversion) (destAddr : List Nat) (filename : Option (List Char))

/-- `argc`. -/
def argc : Exec Argv Nat := fun argv => .ok (argv.length, argv)

/-- The text behind `help_message`. -/
def helpMessage : Exec Argv Startup := do
  let program ← argument 0
  return .exits ("usage:\n".toList ++ program ++
    (" [-c | -k] <known_weight/multiplier - float> <dest address> \x7b -w <filename> \x7d\n" ++
    "options:\n" ++
    "\t-c : calibrate the sensor, value passed is the known weight to use for calibration\n" ++
    "\t-k : the multiplier is known, the value passed is the multiplier for the sensor\n" ++
    "\t-w : also perform direct writethrough of the collected data to disk. Accepts a filename.\n" ++
    "arguments:\n" ++
    "\tknown_weight/multiplier : a list of values. If the c option is pased these values will be used\n" ++
    "\t                          to perform a first order least squares calibration. The values should\n" ++
    "\t                          be passed as a comma seperated list in quotes, i.e. \"1,2,3,4,5\"\n" ++
    "\t                          If the k option is passed these values will be used as the first and\n" ++
    "\t                          zeroth term in the least squares fit, i.e. in the equation mx + b the\n" ++
    "\t                          values should be passed in the form \"m,b\".\n" ++
    "\tdest address            : the address to send UDP data packets to. The output socket is set\n" ++
    "\t                          to enable broadcast, so you may pass a broadcast address as well\n" ++
    "\tfilename                : the file to save data to when the -w (writethough) flag is set. This\n" ++
    "\t                          file will be written in the current directory, so ensure you have the\n" ++
    "\t                          appropriate write access.\n").toList)

/-- The address and what follows it. -/
def takeAddress (environment : Environment) (conversion : Conversion) : Exec Argv Startup := do
  let address ← argument 3
  match inetPton address with
  | none => return .exits "failed to convert given address to an IPv4 addr\n".toList
  | some destAddr =>
      if 4 < (← argc) then
        let flag ← argument 4
        if flag = "-w".toList then
          if ¬ 5 < (← argc) then return .exits "expected filename after -w flag\n".toList
          else
            let filename ← argument 5
            if environment.openFile filename < 0 then
              return .exits ("failed opening file ".toList ++ filename ++ ['\n'])
            else if environment.write ≠ sizeofOutputData then
              return .exits "failed to write start sequence properly, exiting\n".toList
            else return .initialises conversion destAddr (some filename)
        else
          return .exits ("expected flag -w as fourth argument\ngot: ".toList ++ flag ++ ['\n'])
      else return .initialises conversion destAddr none

/-- `main` of `load_cell_serv` up to `init_adc`, with `count` rounds of the parsing loop. -/
def handleArguments (environment : Environment) (count : Nat) : Exec Argv Startup := do
  if 6 < (← argc) then helpMessage
  else if environment.socket = false then
    return .exits "failed to initalize server socket".toList
  else if environment.setsockopt = false then
    return .exits "failed to set socket to broadcast".toList
  else
    let option ← argument 1
    if option = "-c".toList then
      let pos ← argument 2
      match ← rounds parseRound count ⟨pos, []⟩ with
      | .next _ => return .parsing
      | .leave parsing => takeAddress environment (.calibrating parsing.knownWeights)
    else if option = "-k".toList then
      match ← servConstants with
      | .rejected message => return .exits message.toList
      | .got m b => takeAddress environment (.multipliers m b)
    else if option = "-h".toList then helpMessage
    else
      return .exits ("unknown argument given: ".toList ++ option ++
        "\nplease provide one of: [ -c | -k | -h | -w ]\n".toList)

/-! ## The address and what follows it -/

variable {environment : Environment} {conversion : Conversion} {argv : Argv} {count : Nat}
  {post : Startup → Argv → Prop}

/-- What `init_adc` is reached with: a known option, an address in dotted-decimal form, and
nothing more or `-w` and a file name. -/
structure Accepted (argv : Argv) : Prop where
  option : argv[1]? = some "-c".toList ∨ argv[1]? = some "-k".toList
  address : ∃ address, argv[3]? = some address ∧ DottedDecimal address
  file : argv.length = 4 ∨ argv.length = 6 ∧ argv[4]? = some "-w".toList

/-- `main` exits, or goes on to `init_adc` with acceptable arguments. -/
def Startup.Decided (argv : Argv) : Startup → Prop
  | .parsing => False
  | .exits _ => True
  | .initialises _ _ _ => Accepted argv

/-- An argument which is not there. -/
theorem argument_fails {index : Nat} (absent : argv.length ≤ index) :
    argument index argv = .error .outOfBounds := by
  rw [argument, List.getElem?_eq_none absent]

/-- `argc` is the number of arguments. -/
theorem argc_returns (argv : Argv) : argc argv = .ok (argv.length, argv) := rfl

/-- The help text ends the program. -/
theorem helpMessage_ensures (some : argv ≠ []) :
    helpMessage.Ensures argv fun outcome _ => ∃ message, outcome = .exits message := by
  obtain ⟨program, others, rfl⟩ := List.exists_cons_of_ne_nil some
  exact .bind_returns (argument_returns rfl) (ensures_pure ⟨_, rfl⟩)

/-- The address is read behind `argv`. -/
theorem takeAddress_fails (short : argv.length ≤ 3) :
    takeAddress environment conversion argv = .error .outOfBounds :=
  bind_of_fails (argument_fails short)

/-- With an entry for the address, every length up to six is decided. -/
theorem takeAddress_ensures (enough : 4 ≤ argv.length) (few : argv.length ≤ 6)
    (option : argv[1]? = some "-c".toList ∨ argv[1]? = some "-k".toList) :
    (takeAddress environment conversion).Ensures argv fun outcome _ => outcome.Decided argv := by
  have present : argv[3]? = some argv[3] := List.getElem?_eq_getElem enough
  refine .bind_returns (argument_returns present) ?_
  split
  next => exact ensures_pure trivial
  next destAddr converted =>
      have address : DottedDecimal argv[3] := by
        rw [← inetPton_isSome_iff, converted]
        rfl
      refine .bind_returns (argc_returns argv) ?_
      split
      next more =>
          have flag : argv[4]? = some argv[4] := List.getElem?_eq_getElem more
          refine .bind_returns (argument_returns flag) ?_
          split
          next isW =>
              refine .bind_returns (argc_returns argv) ?_
              split
              next => exact ensures_pure trivial
              next named =>
                  have last : 5 < argv.length := not_not.mp named
                  refine .bind_returns (argument_returns (List.getElem?_eq_getElem last)) ?_
                  split
                  · exact ensures_pure trivial
                  · split
                    · exact ensures_pure trivial
                    · exact ensures_pure ⟨option, ⟨_, present, address⟩,
                        .inr ⟨by omega, isW ▸ flag⟩⟩
          next => exact ensures_pure trivial
      next alone => exact ensures_pure ⟨option, ⟨_, present, address⟩, .inl (by omega)⟩

/-- Moving the entry of the multipliers changes nothing about the other arguments. -/
theorem accepted_set_iff (text : List Char) : Accepted (argv.set 2 text) ↔ Accepted argv := by
  have option : (argv.set 2 text)[1]? = argv[1]? := List.getElem?_set_ne (by decide)
  have address : (argv.set 2 text)[3]? = argv[3]? := List.getElem?_set_ne (by decide)
  have flag : (argv.set 2 text)[4]? = argv[4]? := List.getElem?_set_ne (by decide)
  constructor
  · rintro ⟨first, second, third⟩
    rw [option] at first
    rw [address] at second
    rw [flag, List.length_set] at third
    exact ⟨first, second, third⟩
  · rintro ⟨first, second, third⟩
    refine ⟨?_, ?_, ?_⟩
    · rwa [option]
    · rwa [address]
    · rwa [flag, List.length_set]

/-! ## The option -/

/-- The socket is ready and there are not too many arguments. -/
structure Admitted (environment : Environment) (argv : Argv) : Prop where
  few : argv.length ≤ 6
  socket : environment.socket = true
  setsockopt : environment.setsockopt = true

/-- What is left of `main` once the socket is ready. -/
theorem handleArguments_admitted (admitted : Admitted environment argv) {option : List Char}
    (present : argv[1]? = some option) (count : Nat) :
    handleArguments environment count argv =
      (if option = "-c".toList then do
        let pos ← argument 2
        match ← rounds parseRound count ⟨pos, []⟩ with
        | .next _ => return .parsing
        | .leave parsing => takeAddress environment (.calibrating parsing.knownWeights)
      else if option = "-k".toList then do
        match ← servConstants with
        | .rejected message => return .exits message.toList
        | .got m b => takeAddress environment (.multipliers m b)
      else if option = "-h".toList then helpMessage
      else return .exits ("unknown argument given: ".toList ++ option ++
        "\nplease provide one of: [ -c | -k | -h | -w ]\n".toList) : Exec Argv Startup) argv := by
  have socket : ¬ environment.socket = false := by simp [admitted.socket]
  have broadcast : ¬ environment.setsockopt = false := by simp [admitted.setsockopt]
  rw [handleArguments, bind_of_returns (argc_returns argv), if_neg (not_lt.mpr admitted.few),
    if_neg socket, if_neg broadcast, bind_of_returns (argument_returns present)]

/-- Too many arguments, or no socket, end `main` before it looks at the option. -/
theorem handleArguments_refuses (some : argv ≠ []) (refused : ¬ Admitted environment argv) :
    (handleArguments environment count).Ensures argv fun outcome _ => outcome.Decided argv := by
  refine .bind_returns (argc_returns argv) ?_
  split
  next =>
      apply (helpMessage_ensures some).imp
      rintro _ _ ⟨message, rfl⟩
      trivial
  next few =>
      split
      · exact ensures_pure trivial
      next socket =>
          split
          · exact ensures_pure trivial
          next broadcast =>
              refine absurd ⟨not_lt.mp few, ?_, ?_⟩ refused
              · simpa using socket
              · simpa using broadcast

/-- `main` decides, after some rounds of the parsing loop. -/
def Decides (environment : Environment) (argv : Argv) : Prop :=
  ∃ count, (handleArguments environment count).Ensures argv fun outcome _ => outcome.Decided argv

/-- A run which ends decides. -/
theorem decides_of_run {outcome : Startup} {after : Argv}
    (run : handleArguments environment count argv = .ok (outcome, after))
    (decided : outcome.Decided argv) : Decides environment argv :=
  ⟨count, outcome, after, run, decided⟩

/-- Without an option `argv` is read behind its end. -/
theorem not_decides_of_short (admitted : Admitted environment argv) (short : argv.length ≤ 1) :
    ¬ Decides environment argv := by
  rintro ⟨count, decided⟩
  have socket : ¬ environment.socket = false := by simp [admitted.socket]
  have broadcast : ¬ environment.setsockopt = false := by simp [admitted.setsockopt]
  have fails : handleArguments environment count argv = .error .outOfBounds := by
    rw [handleArguments, bind_of_returns (argc_returns argv), if_neg (not_lt.mpr admitted.few),
      if_neg socket, if_neg broadcast]
    exact bind_of_fails (argument_fails short)
  exact not_ensures_of_fails fails decided

/-- The weight list is there and safe to parse, and there is an entry for the address. -/
def WeightsSuffice (argv : Argv) : Prop :=
  4 ≤ argv.length ∧ ∃ text, argv[2]? = some text ∧ text ≠ [] ∧
    ¬ BeginsWithNumbers knownWeightsCapacity text.tail

/-- What `-c` needs. -/
theorem decides_weights_iff (admitted : Admitted environment argv)
    (option : argv[1]? = some "-c".toList) : Decides environment argv ↔ WeightsSuffice argv := by
  have branch (count : Nat) := (handleArguments_admitted admitted option count).trans
    (congrFun (if_pos rfl) argv)
  by_cases short : argv.length ≤ 2
  · constructor
    · rintro ⟨count, outcome, after, run, _⟩
      rw [branch, bind_of_fails (argument_fails short)] at run
      cases run
    · rintro ⟨enough, _⟩
      omega
  · have present : argv[2]? = some argv[2] := List.getElem?_eq_getElem (not_le.mp short)
    constructor
    · rintro ⟨count, outcome, after, run, decided⟩
      rw [branch, bind_of_returns (argument_returns present)] at run
      cases parsed : rounds parseRound count ⟨argv[2], []⟩ argv with
      | error fault =>
          rw [bind_of_fails parsed] at run
          cases run
      | ok pair =>
          obtain ⟨flow, store⟩ := pair
          rw [bind_of_returns parsed] at run
          cases flow with
          | next parsing =>
              cases run
              exact absurd decided id
          | leave parsing =>
              have kept := (parsed_of_rounds count (Nat.zero_le _) parsed).1
              rw [kept] at parsed run
              have safe := (leaves_text_iff argv[2] argv).mp
                ⟨count, parsing, argv, parsed, trivial⟩
              by_cases enough : 4 ≤ argv.length
              · exact ⟨enough, argv[2], present, safe⟩
              · have fails : takeAddress environment (.calibrating parsing.knownWeights) argv =
                    .error .outOfBounds := takeAddress_fails (by omega)
                cases fails.symm.trans run
    · rintro ⟨enough, text, found, safe⟩
      obtain rfl := Option.some.inj (present.symm.trans found)
      obtain ⟨count, parsing, after, run, _⟩ := (leaves_text_iff argv[2] argv).mpr safe
      rw [(parsed_of_rounds count (Nat.zero_le _) run).1] at run
      have taken : (takeAddress environment (.calibrating parsing.knownWeights)).Ensures argv
          fun outcome _ => outcome.Decided argv :=
        takeAddress_ensures enough admitted.few (.inl option)
      obtain ⟨outcome, last, returns, decided⟩ := taken
      refine ⟨count, outcome, last, ?_, decided⟩
      rw [branch, bind_of_returns (argument_returns present), bind_of_returns run]
      exact returns

/-- The multipliers are there, and there is an entry for the address unless they are
rejected. -/
def MultipliersSuffice (argv : Argv) : Prop :=
  4 ≤ argv.length ∨
    argv.length = 3 ∧ ∃ text, argv[2]? = some text ∧ (strtod text).2.head? ≠ some ','

/-- What `-k` needs. -/
theorem decides_multipliers_iff (admitted : Admitted environment argv)
    (option : argv[1]? = some "-k".toList) :
    Decides environment argv ↔ MultipliersSuffice argv := by
  have branch (count : Nat) := (handleArguments_admitted admitted option count).trans
    (congrFun ((if_neg (by decide)).trans (if_pos rfl)) argv)
  by_cases short : argv.length ≤ 2
  · constructor
    · rintro ⟨count, outcome, after, run, _⟩
      have fails : servConstants argv = .error .outOfBounds := bind_of_fails (argument_fails short)
      rw [branch, bind_of_fails fails] at run
      cases run
    · rintro (enough | ⟨three, _⟩) <;> omega
  · have inside : 2 < argv.length := not_le.mp short
    have present : argv[2]? = some argv[2] := List.getElem?_eq_getElem inside
    have returns : servConstants argv =
        .ok (servReads argv[2], argv.set 2 (strtod argv[2]).2) :=
      readConstants_returns present inside (by simp [inside])
    by_cases comma : (strtod argv[2]).2.head? = some ','
    · obtain ⟨m, b, reads⟩ : ∃ m b, servReads argv[2] = .got m b :=
        ⟨(strtod argv[2]).1, (strtod (strtod argv[2]).2.tail).1, if_neg (not_not_intro comma)⟩
      rw [reads] at returns
      constructor
      · rintro ⟨count, outcome, after, run, _⟩
        rw [branch, bind_of_returns returns] at run
        by_contra few
        have three : (argv.set 2 (strtod argv[2]).2).length ≤ 3 := by
          rw [List.length_set]
          exact Nat.le_of_lt_succ (not_le.mp fun more => few (.inl more))
        cases (takeAddress_fails three).symm.trans run
      · rintro (enough | ⟨_, text, found, other⟩)
        · have taken : (takeAddress environment (.multipliers m b)).Ensures
              (argv.set 2 (strtod argv[2]).2)
              fun outcome _ => outcome.Decided (argv.set 2 (strtod argv[2]).2) :=
            takeAddress_ensures (by simpa using enough) (by simpa using admitted.few)
              (.inr (by simpa using option))
          obtain ⟨outcome, after, run, decided⟩ := taken
          refine decides_of_run (((branch 0).trans (bind_of_returns returns)).trans run) ?_
          cases outcome with
          | initialises _ _ _ => exact (accepted_set_iff _).mp decided
          | _ => exact decided
        · obtain rfl := Option.some.inj (present.symm.trans found)
          exact absurd comma other
    · -- the message ends `main` before the address is looked at
      have reads : servReads argv[2] =
          .rejected "Expected values in form \"m,b\" for option -k\n" := if_pos comma
      rw [reads] at returns
      refine iff_of_true (decides_of_run ((branch 0).trans (bind_of_returns returns)) trivial) ?_
      by_cases enough : 4 ≤ argv.length
      · exact .inl enough
      · exact .inr ⟨by omega, argv[2], present, comma⟩

/-! ## Which argument vectors are handled -/

/-- Whatever the operating system answers, `main` reads no missing argument, and it exits
with status 1 or reaches `init_adc` with acceptable arguments. -/
def HandlesArguments (argv : Argv) : Prop := ∀ environment, Decides environment argv

/-- Every entry `main` goes on to read is there. -/
structure EntriesSuffice (argv : Argv) : Prop where
  option : 2 ≤ argv.length
  weights : argv[1]? = some "-c".toList → WeightsSuffice argv
  multipliers : argv[1]? = some "-k".toList → MultipliersSuffice argv

/-- What the arguments need once the socket is open. -/
theorem decides_iff (admitted : Admitted environment argv) :
    Decides environment argv ↔ EntriesSuffice argv := by
  by_cases short : argv.length ≤ 1
  · refine iff_of_false (not_decides_of_short admitted short) fun suffice => ?_
    have two := suffice.option
    omega
  · have two : 1 < argv.length := not_le.mp short
    have present : argv[1]? = some argv[1] := List.getElem?_eq_getElem two
    by_cases isC : argv[1] = "-c".toList
    · rw [isC] at present
      rw [decides_weights_iff admitted present]
      refine ⟨fun suffice => ⟨two, fun _ => suffice, fun isK => ?_⟩,
        fun suffice => suffice.weights present⟩
      rw [present] at isK
      exact absurd isK (by decide)
    · by_cases isK : argv[1] = "-k".toList
      · rw [isK] at present
        rw [decides_multipliers_iff admitted present]
        refine ⟨fun suffice => ⟨two, fun isC => ?_, fun _ => suffice⟩,
          fun suffice => suffice.multipliers present⟩
        rw [present] at isC
        exact absurd isC (by decide)
      · refine iff_of_true ?_ ⟨two, fun found => ?_, fun found => ?_⟩
        · have branch := handleArguments_admitted admitted present 0
          rw [if_neg isC, if_neg isK] at branch
          split at branch
          · obtain ⟨_, after, run, message, rfl⟩ :=
              helpMessage_ensures (List.ne_nil_of_length_pos (Nat.zero_lt_of_lt two))
            exact decides_of_run (branch.trans run) trivial
          · exact decides_of_run branch trivial
        · exact absurd (Option.some.inj (present.symm.trans found)) isC
        · exact absurd (Option.some.inj (present.symm.trans found)) isK

/-- An environment in which every call succeeds. -/
def readyEnvironment : Environment := ⟨true, true, fun _ => 3, sizeofOutputData⟩

/-- The arguments are handled exactly if there are more than six, or every entry `main` goes
on to read is there. -/
theorem handlesArguments_iff (argv : Argv) (program : argv ≠ []) :
    HandlesArguments argv ↔ 6 < argv.length ∨ EntriesSuffice argv := by
  constructor
  · intro handles
    by_cases few : argv.length ≤ 6
    · exact .inr ((decides_iff ⟨few, rfl, rfl⟩).mp (handles readyEnvironment))
    · exact .inl (not_le.mp few)
  · intro enough environment
    by_cases admitted : Admitted environment argv
    · refine (decides_iff admitted).mpr (enough.resolve_left ?_)
      exact not_lt.mpr admitted.few
    · exact ⟨0, handleArguments_refuses program admitted⟩

/-- The server started by hand as the usage text has it. -/
theorem handlesArguments_usage :
    HandlesArguments ["load_cell_serv".toList, "-k".toList, "2,3".toList, "10.0.0.255".toList] :=
  (handlesArguments_iff _ (List.cons_ne_nil _ _)).mpr
    (.inr ⟨by decide, fun option => absurd option (by decide), fun _ => .inl (by decide)⟩)

/-- Without arguments `argv[1]` is compared all the same. -/
theorem not_handlesArguments_alone : ¬ HandlesArguments ["load_cell_serv".toList] := by
  intro handles
  exact not_decides_of_short ⟨by decide, rfl, rfl⟩ (by decide) (handles readyEnvironment)

end MotorStand
