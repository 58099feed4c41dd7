import MotorStand.Adc.Ads1115
import MotorStand.Calibration.Completion
import MotorStand.Imperative.Part
import MotorStand.Server.Arguments

/-!
# `load_cell_serv` as a whole

`main` reads its arguments, opens its outputs, calibrates the sensor if it is told to, and
samples until it is interrupted. Whatever can stop it comes before the first sample, and
nothing of the conversion gets into what it records.
-/

namespace MotorStand

open CText Imperative Imperative.Exec BlockStream

/-- What `main` works on: its arguments, the ADC and the world outside. -/
structure ServerStore where
  argv : Argv
  adc : AdcStore
  world : World

namespace ServerStore

/-- The arguments. -/
def argvPart : Part ServerStore Argv := ⟨argv, fun argv store => { store with argv }⟩

/-- The ADC. -/
def adcPart : Part ServerStore AdcStore := ⟨adc, fun adc store => { store with adc }⟩

/-- The world outside. -/
def worldPart : Part ServerStore World := ⟨world, fun world store => { store with world }⟩

end ServerStore

open ServerStore

/-- How far `main` gets: it is in the parsing loop, it exits with status 1 behind a message of
its own or one of `init_adc`, or it returns 0 behind the interrupt. -/
inductive ServerEnd where
  | parsing
  | exits (message : List Char)
  | adcExits (message : String) (retval : Int)
  | finished

/-- The descriptors of the socket and of the file of `-w`. -/
def openOutputs (withFile : Bool) : Exec World (Nat × Nat) := do
  let sock ← openDescriptor
  let writethrough ← openWritethrough withFile
  return (sock, writethrough)

/-- `multiplier_m` and `multiplier_b`. In a calibration every known weight is read once, and
`next_value` returns a `short`. -/
def multipliersOf {σ : Type} (toNumber : Double → ℚ) (readings : Nat → BitVec 16) :
    Conversion → Exec σ (ℚ × ℚ)
  | .calibrating knownWeights =>
      Rounded.calibrate (knownWeights.map toNumber)
        (List.ofFn fun i : Fin knownWeights.length => (readings i).toInt)
  | .multipliers m b => return (toNumber m, toNumber b)

/-- `pthread_create(&tid,NULL,run_auxillary_server,&data)`. The auxillary server gets `auxillary`
from the descriptors which are not in use. Nobody closes its listening socket. -/
def launchAuxillary (auxillary : List Nat) : Exec World Unit := fun world =>
  .ok ((), { world with
    descriptors := auxillary.filter (· ∉ world.descriptors) ++ world.descriptors })

/-- The main program loop, and the descriptors closed behind it. -/
def sampleAndClose (multipliers : ℚ × ℚ) (sock writethrough : Nat) (session : List Round) :
    Exec World Unit := do
  let _ ← samplingLoop multipliers.1 multipliers.2 writethrough session clearedBatch
  if writethrough ≠ 0 then closeDescriptor writethrough
  closeDescriptor sock

/-- `main`, with `count` rounds of the parsing loop, `readings` for the calibration, `auxillary`
for the descriptors of the auxillary server and `session` up to the interrupt. -/
def serverMain (environment : Environment) (results : PigpioResults) (toNumber : Double → ℚ)
    (readings : Nat → BitVec 16) (auxillary : List Nat) (session : List Round) (count : Nat) :
    Exec ServerStore ServerEnd := do
  match ← onPart argvPart (handleArguments environment count) with
  | .parsing => return .parsing
  | .exits message => return .exits message
  | .initialises conversion _ filename =>
      -- what `socket` and `open` returned on the way is in `environment`
      let outputs ← onPart worldPart (openOutputs filename.isSome)
      match ← onPart adcPart (initAdc results) with
      | .exits message retval => return .adcExits message retval
      | .ready =>
          let multipliers ← multipliersOf toNumber readings conversion
          onPart worldPart (launchAuxillary auxillary)
          onPart adcPart resetAdc
          onPart worldPart (sampleAndClose multipliers outputs.1 outputs.2 session)
          return .finished

/-! ## When the arguments lead to `init_adc` -/

variable {environment : Environment} {conversion other : Conversion} {argv after : Argv}
  {destAddr : List Nat} {filename : Option (List Char)} {count : Nat}

/-- There is an address, and behind it nothing, or `-w` and a file which can be marked. -/
structure Destined (environment : Environment) (argv : Argv) : Prop where
  address : ∃ address, argv[3]? = some address ∧ DottedDecimal address
  file : argv.length = 4 ∨ argv.length = 6 ∧ argv[4]? = some "-w".toList ∧
    ∃ filename, argv[5]? = some filename ∧ 0 ≤ environment.openFile filename ∧
      environment.write = sizeofOutputData

/-- An address which is usable, and what is opened for it. -/
theorem takeAddress_destined (destined : Destined environment argv) (conversion : Conversion) :
    ∃ destAddr filename, takeAddress environment conversion argv =
      .ok (.initialises conversion destAddr filename, argv) ∧
        filename.isSome = decide (4 < argv.length) := by
  obtain ⟨⟨address, present, dotted⟩, file⟩ := destined
  obtain ⟨destAddr, converted⟩ := Option.isSome_iff_exists.mp ((inetPton_isSome_iff _).mpr dotted)
  have start : takeAddress environment conversion argv = _ :=
    bind_of_returns (argument_returns present)
  rw [converted] at start
  rcases file with four | ⟨six, flag, filename, named, opens, writes⟩
  · refine ⟨destAddr, none, start.trans ((bind_of_returns (argc_returns argv)).trans ?_), ?_⟩
    · rw [if_neg (by omega)]
      rfl
    · simp [four]
  · refine ⟨destAddr, some filename, start.trans ((bind_of_returns (argc_returns argv)).trans ?_),
      ?_⟩
    · rw [if_pos (by omega), bind_of_returns (argument_returns flag), if_pos rfl,
        bind_of_returns (argc_returns argv), if_neg (by omega),
        bind_of_returns (argument_returns named), if_neg (not_lt.mpr opens),
        if_neg (not_not_intro writes)]
      rfl
    · simp [six]

/-- Only such an address leads on. -/
theorem destined_of_takeAddress (few : argv.length ≤ 6)
    (run : takeAddress environment conversion argv =
      .ok (.initialises other destAddr filename, after)) :
    Destined environment argv ∧ other = conversion ∧
      filename.isSome = decide (4 < argv.length) := by
  obtain ⟨address, _, read, run⟩ := bind_returns_iff.mp run
  obtain ⟨present, rfl⟩ := argument_returns_iff.mp read
  cases converted : inetPton address with
  | none =>
      rw [converted] at run
      cases run
  | some destAddr =>
      have dotted : DottedDecimal address := by
        rw [← inetPton_isSome_iff, converted]
        rfl
      rw [converted] at run
      obtain ⟨_, _, ⟨⟩, run⟩ := bind_returns_iff.mp run
      split at run
      next more =>
          obtain ⟨flag, _, read, run⟩ := bind_returns_iff.mp run
          obtain ⟨fourth, rfl⟩ := argument_returns_iff.mp read
          split at run
          next isW =>
              obtain ⟨_, _, ⟨⟩, run⟩ := bind_returns_iff.mp run
              split at run
              next => cases run
              next named =>
                  obtain ⟨name, _, read, run⟩ := bind_returns_iff.mp run
                  obtain ⟨fifth, rfl⟩ := argument_returns_iff.mp read
                  split at run
                  next => cases run
                  next opens =>
                      split at run
                      next => cases run
                      next writes =>
                          cases run
                          have marked : 0 ≤ environment.openFile name ∧
                              environment.write = sizeofOutputData :=
                            ⟨not_lt.mp opens, not_not.mp writes⟩
                          refine ⟨⟨⟨address, present, dotted⟩, .inr ⟨by omega, isW ▸ fourth, ?_⟩⟩,
                            rfl, by simp [more]⟩
                          exact ⟨name, fifth, marked⟩
          next => cases run
      next alone =>
          cases run
          have length : 3 < argv.length := (List.getElem?_eq_some_iff.mp present).1
          exact ⟨⟨⟨address, present, dotted⟩, .inl (by omega)⟩, rfl, by simp [alone]⟩

/-- The overwritten argument has no part in it. -/
theorem destined_set_iff (text : List Char) :
    Destined environment (argv.set 2 text) ↔ Destined environment argv := by
  have address : (argv.set 2 text)[3]? = argv[3]? := List.getElem?_set_ne (by decide)
  have flag : (argv.set 2 text)[4]? = argv[4]? := List.getElem?_set_ne (by decide)
  have name : (argv.set 2 text)[5]? = argv[5]? := List.getElem?_set_ne (by decide)
  constructor
  · rintro ⟨first, second⟩
    rw [address] at first
    rw [flag, name, List.length_set] at second
    exact ⟨first, second⟩
  · rintro ⟨first, second⟩
    refine ⟨?_, ?_⟩
    · rwa [address]
    · rwa [flag, name, List.length_set]

/-- What the option and its values are converted to. -/
inductive Converts (argv : Argv) : Conversion → Prop where
  | weights {count : Nat} {text : List Char} {parsing : Parsing}
      (option : argv[1]? = some "-c".toList) (present : argv[2]? = some text)
      (parsed : rounds parseRound count ⟨text, []⟩ argv = .ok (.leave parsing, argv)) :
      Converts argv (.calibrating parsing.knownWeights)
  | multipliers {text : List Char} {m b : Double} (option : argv[1]? = some "-k".toList)
      (present : argv[2]? = some text) (reads : servReads text = .got m b) :
      Converts argv (.multipliers m b)

/-- The constants of `-k` are read from the second argument. -/
theorem servConstants_present {text : List Char} (present : argv[2]? = some text) :
    servConstants argv = .ok (servReads text, argv.set 2 (strtod text).2) := by
  have inside : 2 < argv.length := (List.getElem?_eq_some_iff.mp present).1
  exact readConstants_returns present inside (by simp [inside])

/-- Arguments which are in order lead to `init_adc`. -/
theorem handleArguments_converts (admitted : Admitted environment argv)
    (destined : Destined environment argv) (converts : Converts argv conversion) :
    ∃ count destAddr filename after, handleArguments environment count argv =
      .ok (.initialises conversion destAddr filename, after) ∧
        filename.isSome = decide (4 < argv.length) := by
  cases converts with
  | @weights count text parsing option present parsed =>
      obtain ⟨destAddr, filename, returns, file⟩ := takeAddress_destined destined
        (.calibrating parsing.knownWeights)
      refine ⟨count, destAddr, filename, argv, ?_, file⟩
      rw [handleArguments_admitted admitted option, if_pos rfl,
        bind_of_returns (argument_returns present), bind_of_returns parsed]
      exact returns
  | @multipliers text m b option present reads =>
      have constants := servConstants_present present
      rw [reads] at constants
      obtain ⟨destAddr, filename, returns, file⟩ := takeAddress_destined
        ((destined_set_iff (strtod text).2).mpr destined) (.multipliers m b)
      rw [List.length_set] at file
      refine ⟨0, destAddr, filename, argv.set 2 (strtod text).2, ?_, file⟩
      rw [handleArguments_admitted admitted option, if_neg (by decide), if_pos rfl,
        bind_of_returns constants]
      exact returns

/-- A help text does not lead to `init_adc`. -/
theorem not_initialises_of_helpMessage :
    helpMessage argv ≠ .ok (.initialises conversion destAddr filename, after) := by
  intro run
  obtain ⟨_, _, _, run⟩ := bind_returns_iff.mp run
  cases run

/-- Arguments which lead to `init_adc` have all of this. -/
theorem converts_of_handleArguments (run : handleArguments environment count argv =
    .ok (.initialises conversion destAddr filename, after)) :
    Admitted environment argv ∧ Destined environment argv ∧ Converts argv conversion ∧
      filename.isSome = decide (4 < argv.length) := by
  obtain ⟨_, _, ⟨⟩, run⟩ := bind_returns_iff.mp run
  split at run
  next => exact absurd run not_initialises_of_helpMessage
  next few =>
  split at run
  next => cases run
  next socket =>
  split at run
  next => cases run
  next broadcast =>
  have admitted : Admitted environment argv :=
    ⟨not_lt.mp few, by simpa using socket, by simpa using broadcast⟩
  refine ⟨admitted, ?_⟩
  obtain ⟨option, _, read, run⟩ := bind_returns_iff.mp run
  obtain ⟨first, rfl⟩ := argument_returns_iff.mp read
  split at run
  next isC =>
      obtain ⟨text, _, read, run⟩ := bind_returns_iff.mp run
      obtain ⟨present, rfl⟩ := argument_returns_iff.mp read
      obtain ⟨flow, store, parsed, goesOn⟩ := bind_returns_iff.mp run
      cases flow with
      | next parsing => cases goesOn
      | leave parsing =>
          have kept := (parsed_of_rounds count (Nat.zero_le _) parsed).1
          rw [kept] at parsed goesOn
          obtain ⟨destined, rfl, file⟩ := destined_of_takeAddress admitted.few goesOn
          exact ⟨destined, .weights (isC ▸ first) present parsed, file⟩
  next =>
  split at run
  next isK =>
      obtain ⟨constants, store, converted, goesOn⟩ := bind_returns_iff.mp run
      cases constants with
      | rejected message => cases goesOn
      | got m b =>
          obtain ⟨text, _, read, _⟩ := bind_returns_iff.mp converted
          have present := (argument_returns_iff.mp read).1
          obtain ⟨reads, rfl⟩ := Prod.mk.inj (Except.ok.inj
            ((servConstants_present present).symm.trans converted))
          have few : (argv.set 2 (strtod text).2).length ≤ 6 := by
            rw [List.length_set]
            exact admitted.few
          obtain ⟨destined, rfl, file⟩ := destined_of_takeAddress few goesOn
          rw [destined_set_iff] at destined
          rw [List.length_set] at file
          exact ⟨destined, .multipliers (isK ▸ first) present reads, file⟩
  next =>
  split at run
  next => exact absurd run not_initialises_of_helpMessage
  next => cases run

/-! ## What a session leaves outside -/

variable {toNumber : Double → ℚ} {readings : Nat → BitVec 16} {session : List Round}
  {world : World}

/-- The samples of a session. Neither the multipliers nor the tare have a part in them. -/
def measured (session : List Round) : List OutputMinimal :=
  session.map fun round => ⟨round.tvSec * 1000000 + round.tvNsec.tdiv 1000, round.nextRaw⟩

/-- The samples do not depend on the multipliers. -/
theorem samplesOf_eq_measured (multiplierM multiplierB : ℚ) (session : List Round) :
    samplesOf multiplierM multiplierB session = measured session := rfl

/-- `sendto` got the full batches and `write` the start flag and every sample. Of the descriptors
opened on the way `others` stay open. -/
structure Served (withFile : Bool) (others : List Nat) (session : List Round)
    (before after : World) : Prop where
  sent : ∃ datagrams, after.sent = before.sent ++ datagrams ∧
    (∀ datagram ∈ datagrams, datagram.count = batchSize) ∧
    datagrams.flatMap OutputBatch.entries =
      (measured session).take (batchSize * (session.length / batchSize))
  file : after.file = before.file ++
    if withFile then .startFlag :: (measured session).map FileRecord.sample else []
  descriptors : after.descriptors = others ++ before.descriptors

/-- The sampling loop behind its start, and the descriptors which are closed after it. -/
theorem sampleAndClose_ensures (multipliers : ℚ × ℚ) (sock writethrough : Nat)
    (session : List Round) (world : World) :
    (sampleAndClose multipliers sock writethrough session).Ensures world fun _ after =>
      (∃ datagrams, after.sent = world.sent ++ datagrams ∧
        (∀ datagram ∈ datagrams, datagram.count = batchSize) ∧
        datagrams.flatMap OutputBatch.entries =
          (measured session).take (batchSize * (session.length / batchSize))) ∧
      after.file = world.file ++ recorded writethrough (measured session) ∧
      after.descriptors =
        (if writethrough ≠ 0 then world.descriptors.erase writethrough
          else world.descriptors).erase sock := by
  apply (samplingLoop_leaves session (carries_start rfl)).bind
  rintro last sampled ⟨⟨datagrams, sent, _, full, cut⟩, file, descriptors⟩
  have entries : datagrams.flatMap OutputBatch.entries =
      (measured session).take (batchSize * (session.length / batchSize)) := by
    rw [List.nil_append] at cut
    rw [List.flatMap_def, cut.flatten_eq_take, samplesOf_length, samplesOf_eq_measured]
  by_cases opened : writethrough ≠ 0
  · rw [if_pos opened, if_pos opened, ← descriptors]
    exact .bind_returns rfl (.of_returns rfl ⟨⟨datagrams, sent, full, entries⟩, file, rfl⟩)
  · rw [if_neg opened, if_neg opened, ← descriptors]
    exact .of_returns rfl ⟨⟨datagrams, sent, full, entries⟩, file, rfl⟩

/-- A descriptor of `main` is not one of the others. -/
theorem erase_beside {others descriptors : List Nat} {descriptor : Nat}
    (apart : descriptor ∉ others) :
    (others ++ descriptor :: descriptors).erase descriptor = others ++ descriptors := by
  rw [List.erase_append_right _ apart, List.erase_cons_head]

/-- With the outputs opened before it and others beside them, whatever is calibrated in between. -/
theorem sampleAndClose_served (withFile : Bool) (session : List Round) (world : World) :
    ∃ outputs opened, openOutputs withFile world = .ok (outputs, opened) ∧
      ∀ multipliers others, (∀ other ∈ others, other ∉ opened.descriptors) →
        (sampleAndClose multipliers outputs.1 outputs.2 session).Ensures
          { opened with descriptors := others ++ opened.descriptors }
          fun _ after => Served withFile others session world after := by
  cases withFile with
  | true =>
      refine ⟨_, _, rfl, fun multipliers others unused => ?_⟩
      apply (sampleAndClose_ensures multipliers _ _ session _).imp
      rintro _ after ⟨sent, file, descriptors⟩
      have named := writethrough_ne_zero world.descriptors
      refine ⟨sent, ?_, ?_⟩
      · rw [file, recorded, if_pos named, List.append_assoc]
        rfl
      · rw [descriptors, if_pos named]
        have first : lowestUnused (lowestUnused world.descriptors :: world.descriptors) ∉ others :=
          fun member => unused _ member List.mem_cons_self
        have second : lowestUnused world.descriptors ∉ others :=
          fun member => unused _ member (List.mem_cons_of_mem _ List.mem_cons_self)
        exact (congrArg (List.erase · _) (erase_beside first)).trans (erase_beside second)
  | false =>
      refine ⟨_, _, rfl, fun multipliers others unused => ?_⟩
      apply (sampleAndClose_ensures multipliers _ _ session _).imp
      rintro _ after ⟨sent, file, descriptors⟩
      refine ⟨sent, file, ?_⟩
      have only : lowestUnused world.descriptors ∉ others :=
        fun member => unused _ member List.mem_cons_self
      rw [descriptors, if_neg (not_not_intro rfl)]
      exact erase_beside only

/-- The values can be parsed. Of known weights, one further down the list is read differently
from the first. -/
inductive Convertible (argv : Argv) (readings : Nat → BitVec 16) : Prop where
  | weights {text : List Char} (option : argv[1]? = some "-c".toList)
      (present : argv[2]? = some text) (some : text ≠ [])
      (few : ¬ BeginsWithNumbers knownWeightsCapacity text.tail)
      (apart : ∃ i, BeginsWithNumbers i text.tail ∧ readings i ≠ readings 0)
  | multipliers {text : List Char} (option : argv[1]? = some "-k".toList)
      (present : argv[2]? = some text) (comma : (strtod text).2.head? = some ',')

/-- The values of a list through a function, by their index. -/
theorem map_eq_ofFn {α β : Type} (f : α → β) (values : List α) :
    values.map f = List.ofFn fun i : Fin values.length => f values[i] := by
  apply List.ext_getElem (by simp)
  intro index first second
  simp

/-- Readings which are not all the same differ from the first one. -/
theorem apart_iff {k : Nat} : (∃ i j : Fin k, readings i ≠ readings j) ↔
    ∃ i < k, readings i ≠ readings 0 := by
  constructor
  · rintro ⟨i, j, apart⟩
    by_cases same : readings i = readings 0
    · exact ⟨j, j.isLt, fun also => apart (same.trans also.symm)⟩
    · exact ⟨i, i.isLt, same⟩
  · rintro ⟨i, below, apart⟩
    exact ⟨⟨i, below⟩, ⟨0, Nat.zero_lt_of_lt below⟩, apart⟩

/-- A calibration for which `known_weights` has room goes past its fit exactly if a weight is
read differently from the first. It leaves the store alone. -/
theorem calibrating_ensures_iff {σ : Type} (toNumber : Double → ℚ) (weights : List Double)
    (room : weights.length ≤ knownWeightsCapacity) (store : σ) :
    ((multipliersOf toNumber readings (.calibrating weights)).Ensures store
        fun _ after => after = store) ↔ ∃ i < weights.length, readings i ≠ readings 0 := by
  have short (i : Fin weights.length) : Rounded.IsShort (readings i).toInt :=
    ⟨BitVec.le_toInt _, BitVec.toInt_lt⟩
  rw [multipliersOf, map_eq_ofFn, Rounded.calibrate_iff, Rounded.server_separates_iff short room,
    ← apart_iff]
  simp only [ne_eq, BitVec.toInt_inj]

/-- Multipliers which are found on one store are found on any, which is left alone. -/
theorem multipliersOf_anywhere {σ τ : Type} {store : σ} {post : ℚ × ℚ → σ → Prop}
    (found : (multipliersOf toNumber readings conversion).Ensures store post) (other : τ) :
    (multipliersOf toNumber readings conversion).Ensures other fun _ after => after = other := by
  cases conversion with
  | calibrating weights =>
      rw [multipliersOf, map_eq_ofFn] at found ⊢
      rw [Rounded.calibrate_iff]
      by_contra joined
      exact not_ensures_of_fails (Rounded.calibrate_fails joined store) found
  | multipliers m b => exact ensures_pure rfl

/-- The multipliers are found exactly for convertible values. -/
theorem convertible_iff {σ : Type} (argv : Argv) (toNumber : Double → ℚ) (store : σ) :
    Convertible argv readings ↔ ∃ conversion, Converts argv conversion ∧
      (multipliersOf toNumber readings conversion).Ensures store fun _ after => after = store := by
  constructor
  · intro convertible
    cases convertible with
    | @weights text option present some few apart =>
        obtain ⟨count, parsing, after, run, _⟩ := (leaves_text_iff text argv).mpr ⟨some, few⟩
        obtain ⟨kept, room⟩ := parsed_of_rounds count (Nat.zero_le _) run
        rw [kept] at run
        obtain ⟨c, body, rfl⟩ := List.exists_cons_of_ne_nil some
        refine ⟨_, .weights option present run, (calibrating_ensures_iff _ _ room _).mpr ?_⟩
        obtain ⟨i, numbers, different⟩ := apart
        have below := (length_knownWeights count run i).mp numbers
        rw [List.length_nil, Nat.zero_add] at below
        exact ⟨i, below, different⟩
    | @multipliers text option present comma =>
        exact ⟨_, .multipliers option present (if_neg (not_not_intro comma)), ensures_pure rfl⟩
  · rintro ⟨conversion, converts, found⟩
    cases converts with
    | @weights count text parsing option present parsed =>
        obtain ⟨some, few⟩ := (leaves_text_iff text argv).mp ⟨count, parsing, argv, parsed, trivial⟩
        refine .weights option present some few ?_
        obtain ⟨c, body, rfl⟩ := List.exists_cons_of_ne_nil some
        have room := (parsed_of_rounds count (Nat.zero_le _) parsed).2
        obtain ⟨i, below, different⟩ := (calibrating_ensures_iff _ _ room _).mp found
        refine ⟨i, (length_knownWeights count parsed i).mpr ?_, different⟩
        rwa [List.length_nil, Nat.zero_add]
    | @multipliers text m b option present reads =>
        refine .multipliers option present ?_
        by_contra other
        cases reads.symm.trans (if_pos other)

/-! ## Which runs get to the end -/

/-- `main` samples the session and returns 0. What stays open behind it is the auxillary
server's. -/
def Serves (environment : Environment) (results : PigpioResults) (toNumber : Double → ℚ)
    (readings : Nat → BitVec 16) (auxillary : List Nat) (session : List Round)
    (store : ServerStore) : Prop :=
  ∃ count, (serverMain environment results toNumber readings auxillary session count).Ensures store
    fun ending after => ending = .finished ∧ ∃ others ⊆ auxillary,
      Served (decide (4 < store.argv.length)) others session store.world after.world

/-- `main` gets to its end exactly if the outputs and the ADC can be opened and the multipliers
are found, and then it has sampled all of the session. -/
theorem serves_iff (environment : Environment) (results : PigpioResults) (toNumber : Double → ℚ)
    (readings : Nat → BitVec 16) (auxillary : List Nat) (session : List Round)
    (store : ServerStore) :
    Serves environment results toNumber readings auxillary session store ↔
      Admitted environment store.argv ∧ Destined environment store.argv ∧ results.Succeed ∧
        Convertible store.argv readings := by
  obtain ⟨argv, adc, world⟩ := store
  constructor
  · rintro ⟨count, run⟩
    obtain ⟨startup, after, handled, rest⟩ := ensures_onPart_iff.mp run.of_bind
    cases startup with
    | parsing =>
        obtain ⟨_, _, stops, finished, _⟩ := rest
        cases stops
        cases finished
    | exits message =>
        obtain ⟨_, _, stops, finished, _⟩ := rest
        cases stops
        cases finished
    | initialises conversion destAddr filename =>
        obtain ⟨admitted, destined, converts, _⟩ := converts_of_handleArguments handled
        obtain ⟨outputs, opened, _, behind⟩ := ensures_onPart_iff.mp rest.of_bind
        obtain ⟨result, started, initialises, goesOn⟩ := ensures_onPart_iff.mp behind.of_bind
        cases result with
        | exits message retval =>
            obtain ⟨_, _, stops, finished, _⟩ := goesOn
            cases stops
            cases finished
        | ready =>
            have succeed := initAdc_ready_iff.mp (initAdc_ready initialises ▸ initialises)
            have found := multipliersOf_anywhere goesOn.of_bind ()
            exact ⟨admitted, destined, succeed,
              (convertible_iff argv toNumber ()).mpr ⟨conversion, converts, found⟩⟩
  · rintro ⟨admitted, destined, succeed, convertible⟩
    obtain ⟨conversion, converts, found⟩ := (convertible_iff argv toNumber ()).mp convertible
    obtain ⟨count, destAddr, filename, after, handled, file⟩ :=
      handleArguments_converts admitted destined converts
    obtain ⟨outputs, opened, opens, serves⟩ :=
      sampleAndClose_served filename.isSome session world
    have ready : initAdc results adc = .ok (.ready, initialised adc) :=
      initAdc_ready_iff.mpr succeed
    obtain ⟨reset, resets⟩ : ∃ reset, resetAdc (initialised adc) = .ok ((), reset) := ⟨_, rfl⟩
    refine ⟨count, .bind_returns (onPart_returns handled) ?_⟩
    refine .bind_returns (onPart_returns opens) (.bind_returns (onPart_returns ready) ?_)
    apply (multipliersOf_anywhere found _).bind
    rintro multipliers _ rfl
    let others := auxillary.filter (· ∉ opened.descriptors)
    have unused (other : Nat) (member : other ∈ others) : other ∉ opened.descriptors := by
      simpa using (List.mem_filter.mp member).2
    have sampled : (onPart worldPart
        (sampleAndClose multipliers outputs.1 outputs.2 session)).Ensures
          ⟨after, reset, { opened with descriptors := others ++ opened.descriptors }⟩
          fun _ last => Served filename.isSome others session world last.world :=
      ensures_onPart_iff.mpr (serves multipliers others unused)
    refine .bind_returns (onPart_returns rfl) (.bind_returns (onPart_returns resets) ?_)
    apply sampled.bind
    intro _ last served
    rw [file] at served
    exact ensures_pure ⟨rfl, others, List.filter_subset_self _, served⟩

end MotorStand
