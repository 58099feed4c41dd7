import MotorStand.Adc.Ads1115
import MotorStand.Calibration.Session
import MotorStand.Transition.System

/-!
# Runs of the ADS1115 driver

Behind `init_adc` the program resets the device and asks it for values, in any order.
-/

namespace MotorStand

open Imperative Imperative.Exec Transition

/-- A call into the driver. -/
inductive DriverEvent where
  | resetAdc
  | nextValue (value : Int)

/-- The driver behind a successful `init_adc`. -/
def driver : System AdcStore DriverEvent where
  Initial state := ∃ results before, initAdc results before = .ok (.ready, state)
  Step before event after :=
    match event with
    | .resetAdc => resetAdc before = .ok ((), after)
    | .nextValue value => NextValue before fun result store => result = value ∧ store = after

/-- The settings in the fields of a config register. -/
def settingsOf (register : BitVec 16) : Ads1115Settings where
  inputMultiplexer := register.extractLsb' 12 3
  gainAmplifier := register.extractLsb' 9 3
  operatingMode := register.extractLsb' 8 1
  dataRate := register.extractLsb' 5 3
  comparatorMode := register.extractLsb' 4 1
  comparatorPolarity := register.extractLsb' 3 1
  latchingComparator := register.extractLsb' 2 1
  comparatorQueueDisable := register.extractLsb' 0 2

/-- The settings are told by the word which is made of them. -/
theorem settingsOf_configWord (config : Ads1115Settings) :
    settingsOf (configWord config) = config := by
  obtain ⟨inputMultiplexer, gainAmplifier, operatingMode, dataRate, comparatorMode,
    comparatorPolarity, latchingComparator, comparatorQueueDisable⟩ := config
  simp only [settingsOf, Ads1115Settings.mk.injEq]
  refine ⟨?_, ?_, ?_, ?_, ?_, ?_, ?_, ?_⟩ <;>
  · ext i below
    interval_cases i <;> simp [configWord, fieldBits, BitVec.getElem_signExtend]

variable {results : PigpioResults} {before start state next after : AdcStore}
  {events : List DriverEvent} {value : Int}

/-- Whatever the settings are, the device gets them with its bytes in its own order. -/
theorem resetAdc_returns (store : AdcStore) :
    resetAdc store = .ok ((),
      { store with hithReg := 1, lothReg := 0, confReg := configWord store.config }) := by
  have hithresh : busWord (swapBits 0x0001) = 1 := by decide
  have lothresh : busWord (swapBits 0x0000) = 0 := by decide
  have settings : busWord (swapBits (configWord store.config)) = configWord store.config := by
    rw [swapBits_eq_busWord, busWord_busWord]
  rw [← hithresh, ← lothresh, ← settings]
  rfl

/-- The settings of the program are in the registers. -/
structure Configured (store : AdcStore) : Prop where
  config : store.config = adcSettings
  registers : settingsOf store.confReg = adcSettings
  thresholds : store.lothReg = 0 ∧ store.hithReg = 1

/-- `init_adc` leaves the settings of the program in the registers. -/
theorem configured_initialised (store : AdcStore) : Configured (initialised store) := by
  have word : (0x0aec : BitVec 16) = configWord adcSettings := by decide
  refine ⟨rfl, ?_, rfl, rfl⟩
  change settingsOf 0x0aec = adcSettings
  rw [word, settingsOf_configWord]

/-- The values among the calls. -/
def DriverEvent.value? : DriverEvent → Option Int
  | .resetAdc => none
  | .nextValue value => some value

/-- The next `count` answers of the conversion register, as signed numbers. -/
def AdcStore.signed (store : AdcStore) (count : Nat) : List Int :=
  (List.range count).map fun i => (store.conversions (store.converted + i)).toInt

/-- A converter which goes on by itself: its conversions, and the number of the one which is in
its register at each read. -/
structure Converter where
  value : Nat → BitVec 16
  inRegister : Nat → Nat
  monotone : Monotone inRegister

/-- The reads from here on find what the converter has put into its register. -/
def Converter.Answers (converter : Converter) (store : AdcStore) : Prop :=
  ∀ n, store.conversions (store.converted + n) = converter.value (converter.inRegister n)

/-- After the calls in `events` the settings are in the registers, and each value was the answer
to the next read of the conversion register. There were two polls for each, whatever they
returned. -/
structure Driven (start : AdcStore) (events : List DriverEvent) (state : AdcStore) : Prop where
  configured : Configured state
  values : events.filterMap DriverEvent.value? =
    start.signed (events.filterMap DriverEvent.value?).length
  converted : state.conversions = start.conversions ∧
    state.converted = start.converted + (events.filterMap DriverEvent.value?).length
  polled : state.polled = start.polled + 2 * (events.filterMap DriverEvent.value?).length

/-- One more answer stands at the end. -/
theorem signed_succ (store : AdcStore) (count : Nat) :
    store.signed (count + 1) =
      store.signed count ++ [(store.conversions (store.converted + count)).toInt] := by
  rw [AdcStore.signed, List.range_succ, List.map_append]
  rfl

/-- What a value leaves behind. -/
theorem nextValue_step (configured : Configured state)
    (step : NextValue state fun result store => result = value ∧ store = after) :
    value = (state.conversions state.converted).toInt ∧
      after = { state with polled := state.polled + 2, converted := state.converted + 1 } := by
  have leave := waitRound_leaves configured.config
  obtain ⟨_, _, read, rfl, rfl⟩ := (leaves_of_leave leave).mp step
  obtain ⟨_, _, again, signed, left⟩ :=
    (leaves_of_leave leave).mp (nextValue_returns configured.config)
  rw [read] at again
  cases again
  exact ⟨signed, left⟩

/-- What every call keeps. -/
theorem Driven.step {event : DriverEvent} (driven : Driven start events state)
    (step : driver.Step state event next) : Driven start (events ++ [event]) next := by
  obtain ⟨configured, values, ⟨same, converted⟩, polled⟩ := driven
  cases event with
  | resetAdc =>
      have returned := (resetAdc_returns state).symm.trans step
      cases returned
      have none : (events ++ [DriverEvent.resetAdc]).filterMap DriverEvent.value? =
          events.filterMap DriverEvent.value? := by simp [DriverEvent.value?]
      have settings : settingsOf (configWord state.config) = adcSettings := by
        rw [settingsOf_configWord, configured.config]
      refine ⟨⟨configured.config, settings, rfl, rfl⟩, ?_, ?_, ?_⟩ <;> rw [none]
      · exact values
      · exact ⟨same, converted⟩
      · exact polled
  | nextValue value =>
      obtain ⟨rfl, rfl⟩ := nextValue_step configured step
      have one : (events ++ [DriverEvent.nextValue (state.conversions state.converted).toInt]).filterMap
          DriverEvent.value? = events.filterMap DriverEvent.value? ++
            [(state.conversions state.converted).toInt] := by simp [DriverEvent.value?]
      refine ⟨⟨configured.config, configured.registers, configured.thresholds⟩, ?_, ?_, ?_⟩ <;>
        rw [one, List.length_append, List.length_singleton]
      · rw [signed_succ, ← values, same, converted]
      · exact ⟨same, congrArg (· + 1) converted⟩
      · change state.polled + 2 = _
        rw [polled, Nat.mul_succ, Nat.add_assoc]

/-- The settings stay in the registers, the values are what was read, none of them above
`ADC_MAX`, and the next call returns as well. Of a converter the values are conversions in their
order, with repetitions and gaps. -/
structure DriverKeeps (start : AdcStore) (events : List DriverEvent) (state : AdcStore) : Prop
    extends Driven start events state where
  inOrder : ∀ converter : Converter, converter.Answers start → ∃ numbers : List Nat,
    numbers.Pairwise (· ≤ ·) ∧ events.filterMap DriverEvent.value? =
      numbers.map fun number => (converter.value number).toInt
  range : ∀ value ∈ events.filterMap DriverEvent.value?, -0x8000 ≤ value ∧ value ≤ adcMax
  goesOn : ∃ value next, driver.Step state (.nextValue value) next

/-- A signed word of 16 bits is never above `ADC_MAX`. -/
theorem mem_signed {store : AdcStore} {count : Nat} (member : value ∈ store.signed count) :
    -0x8000 ≤ value ∧ value ≤ adcMax := by
  obtain ⟨i, _, rfl⟩ := List.mem_map.mp member
  have above : -2 ^ 15 ≤ (store.conversions (store.converted + i)).toInt := BitVec.le_toInt _
  have below : (store.conversions (store.converted + i)).toInt < 2 ^ 15 := BitVec.toInt_lt
  rw [adcMax]
  constructor <;> omega

/-- What is read of a converter are conversions in their order. -/
theorem signed_of_answers {converter : Converter} (answers : converter.Answers start)
    (count : Nat) : ∃ numbers : List Nat, numbers.Pairwise (· ≤ ·) ∧
      start.signed count = numbers.map fun number => (converter.value number).toInt := by
  refine ⟨(List.range count).map converter.inRegister, ?_, ?_⟩
  · apply List.pairwise_lt_range.map
    intro earlier later before
    exact converter.monotone before.le
  · rw [AdcStore.signed, List.map_map]
    apply List.map_congr_left
    intro n _
    exact congrArg BitVec.toInt (answers n)

/-- Every run behind `init_adc` is such a run, by induction on its calls. -/
theorem driven_of_steps (ready : initAdc results before = .ok (.ready, start))
    (steps : Steps driver start events state) : Driven start events state := by
  rw [initAdc_ready ready] at steps ⊢
  apply steps.invariant (Driven (initialised before))
  · exact ⟨configured_initialised before, rfl, ⟨rfl, rfl⟩, rfl⟩
  · intro events state event next driven step
    exact driven.step step

/-- Behind `init_adc`, whatever calls are made in whatever order. -/
theorem driverKeeps_of_steps (ready : initAdc results before = .ok (.ready, start))
    (steps : Steps driver start events state) : DriverKeeps start events state := by
  have driven := driven_of_steps ready steps
  refine ⟨driven, fun converter answers => ?_, fun value member => ?_, ?_⟩
  · rw [driven.values]
    exact signed_of_answers answers _
  · rw [driven.values] at member
    exact mem_signed member
  · obtain ⟨count, _, waited, run, value, next, read, _⟩ :=
      nextValue_returns driven.configured.config
    exact ⟨value, next, count, _, waited, run, value, next, read, rfl, rfl⟩

/-- A value, a reset and another value. -/
theorem driverKeeps_twoValues : ∃ events state,
    DriverKeeps (initialised (steadyDevice 0)) events state ∧ events.length = 3 := by
  have ready : initAdc ⟨0, 0, 0⟩ (steadyDevice 0) = .ok (.ready, initialised (steadyDevice 0)) := rfl
  have begins : Steps driver (initialised (steadyDevice 0)) []
      (initialised (steadyDevice 0)) := .refl
  obtain ⟨first, one, value⟩ := (driverKeeps_of_steps ready begins).goesOn
  have resets : driver.Step one .resetAdc _ := resetAdc_returns one
  have reset := (begins.step value).step resets
  obtain ⟨second, two, another⟩ := (driverKeeps_of_steps ready reset).goesOn
  exact ⟨_, two, driverKeeps_of_steps ready (reset.step another), rfl⟩

end MotorStand
