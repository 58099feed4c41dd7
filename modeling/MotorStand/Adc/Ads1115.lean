import MotorStand.Imperative.While
import Mathlib.Tactic.IntervalCases

/-!
# The driver of the ADS1115

The settings are kept in signed bit-fields, which hold the low bits of what is
stored in them. A register has its high byte first on the bus, and a word of the
bus its low byte.
-/

namespace MotorStand

open Imperative Imperative.Exec

/-- `MUX_AIN0_AIN1`. -/
def muxAin0Ain1 : Int := 0

/-- `GAIN_0_256V`. -/
def gain0256V : Int := 5

/-- `MODE_CONTIN`. -/
def modeContin : Int := 0

/-- `SPS_860`. -/
def sps860 : Int := 7

/-- `COMP_MODE_DEFAULT`. -/
def compModeDefault : Int := 0

/-- `COMP_POL_ACT_HIGH`. -/
def compPolActHigh : Int := 1

/-- `COMP_LATCH_YES`. -/
def compLatchYes : Int := 1

/-- `COMP_QUE_SINGLE`. -/
def compQueSingle : Int := 0

/-- `struct ads1115_settings`. A field of one bit is either 0 or -1. -/
structure Ads1115Settings where
  inputMultiplexer : BitVec 3
  gainAmplifier : BitVec 3
  operatingMode : BitVec 1
  dataRate : BitVec 3
  comparatorMode : BitVec 1
  comparatorPolarity : BitVec 1
  latchingComparator : BitVec 1
  comparatorQueueDisable : BitVec 2
deriving DecidableEq

/-- The settings, the registers of the device which are written, and what it returns to
the polls of its config register and to the reads of its conversion register. Two reads may
find the same conversion in it, and a conversion may be read never. -/
structure AdcStore where
  config : Ads1115Settings
  confReg : BitVec 16
  lothReg : BitVec 16
  hithReg : BitVec 16
  polls : Nat → BitVec 16
  polled : Nat
  conversions : Nat → BitVec 16
  converted : Nat

/-- `SWAP_BITS`. -/
def swapBits (x : BitVec 16) : BitVec 16 := (x &&& 0xff00) >>> 8 ||| (x &&& 0x00ff) <<< 8

/-- The word which `i2cReadWordData` makes of a register, and the register which a word of
`i2cWriteWordData` becomes: the other byte is the first. -/
def busWord (register : BitVec 16) : BitVec 16 :=
  (register.extractLsb' 0 8) ++ (register.extractLsb' 8 8)

/-- `config.field & mask`, shifted: the bits of a field in the config register. -/
def fieldBits {width : Nat} (field : BitVec width) (mask : BitVec 32) (shift : Nat) : BitVec 16 :=
  ((field.signExtend 32 &&& mask) <<< shift).setWidth 16

/-- The word for the config register before its bytes are exchanged. -/
def configWord (config : Ads1115Settings) : BitVec 16 :=
  fieldBits config.inputMultiplexer 0x7 12 |||
    fieldBits config.gainAmplifier 0x7 9 |||
    fieldBits config.operatingMode 0x1 8 |||
    fieldBits config.dataRate 0x7 5 |||
    fieldBits config.comparatorMode 0x1 4 |||
    fieldBits config.comparatorPolarity 0x1 3 |||
    fieldBits config.latchingComparator 0x1 2 |||
    fieldBits config.comparatorQueueDisable 0x3 0

/-- `set_hithresh`: the bytes are exchanged in the program and once more on the bus. -/
def setHithresh (val : BitVec 16) : Exec AdcStore Unit :=
  modify fun store => { store with hithReg := busWord (swapBits val) }

/-- `set_lothresh`. -/
def setLothresh (val : BitVec 16) : Exec AdcStore Unit :=
  modify fun store => { store with lothReg := busWord (swapBits val) }

/-- `write_config`. -/
def writeConfig : Exec AdcStore Unit :=
  modify fun store => { store with confReg := busWord (swapBits (configWord store.config)) }

/-- `reset_adc`: both thresholds and the settings are written. -/
def resetAdc : Exec AdcStore Unit := do
  setHithresh 0x0001
  setLothresh 0x0000
  writeConfig

/-- What the calls of `init_adc` into pigpio return. -/
structure PigpioResults where
  gpioInitialise : Int
  i2cOpen : Int
  gpioSetMode : Int

/-- `init_adc` returns, or exits with a message which ends in the result of the call. -/
inductive InitResult where
  | ready
  | exits (message : String) (retval : Int)
deriving DecidableEq

/-- The settings `init_adc` stores. -/
def adcSettings : Ads1115Settings where
  inputMultiplexer := .ofInt 3 muxAin0Ain1
  gainAmplifier := .ofInt 3 gain0256V
  operatingMode := .ofInt 1 modeContin
  dataRate := .ofInt 3 sps860
  comparatorMode := .ofInt 1 compModeDefault
  comparatorPolarity := .ofInt 1 compPolActHigh
  latchingComparator := .ofInt 1 compLatchYes
  comparatorQueueDisable := .ofInt 2 compQueSingle

/-- `init_adc`: any call which fails ends the program, and the ADC is reset at the end. -/
def initAdc (results : PigpioResults) : Exec AdcStore InitResult :=
  if results.gpioInitialise < 0 then
    return .exits "failed to initialize pigpio: %d\n" results.gpioInitialise
  else if results.i2cOpen < 0 then
    return .exits "failed to open i2c bus: %d\n" results.i2cOpen
  else if results.gpioSetMode < 0 then
    return .exits "failed to set PIN_RDY(17) to input: %d\n" results.gpioSetMode
  else do
    modify fun store => { store with config := adcSettings }
    resetAdc
    return .ready

/-- `i2cReadWordData(i2c_handle,CONF_REG)`. -/
def readConf : Exec AdcStore (BitVec 16) := fun store =>
  .ok (busWord (store.polls store.polled), { store with polled := store.polled + 1 })

/-- `is_ready`: the shifted word and the bit-field are compared as `int`s. -/
def isReady : Exec AdcStore Bool := do
  let res ← readConf
  let store ← get
  return ((res >>> 15).toNat : Int) ≠ store.config.comparatorPolarity.toInt

/-- The read of the conversion register, whatever conversion is in it at that time. -/
def readConversion : Exec AdcStore (BitVec 16) := fun store =>
  .ok (swapBits (busWord (store.conversions store.converted)),
    { store with converted := store.converted + 1 })

/-- A round of `while (!is_ready())`. -/
def waitRound (_ : Unit) : Exec AdcStore (Imperative.Flow Unit Unit) := do
  if ← isReady then return .leave ()
  else return .next ()

/-- `next_value` behind its loop. -/
def readValue : Exec AdcStore Int := do
  let _ ← isReady
  let val ← readConversion
  return val.toInt

/-- `next_value` returns a value. -/
def NextValue (before : AdcStore) (post : Int → AdcStore → Prop) : Prop :=
  Leaves waitRound () before fun _ after => readValue.Ensures after post

/-! ## What the device is told -/

/-- The driver exchanges the bytes of its words, as the bus does. -/
theorem swapBits_eq_busWord (word : BitVec 16) : swapBits word = busWord word := by
  apply BitVec.eq_of_getLsbD_eq
  intro i below
  rw [swapBits, busWord, BitVec.getLsbD_or, BitVec.getLsbD_append]
  interval_cases i <;> simp

/-- Exchanging the bytes twice changes nothing. -/
theorem busWord_busWord (word : BitVec 16) : busWord (busWord word) = word := by
  have high : (busWord word).extractLsb' 0 8 = word.extractLsb' 8 8 :=
    BitVec.extractLsb'_append_eq_right
  have low : (busWord word).extractLsb' 8 8 = word.extractLsb' 0 8 :=
    BitVec.extractLsb'_append_eq_left
  rw [busWord, high, low]
  exact BitVec.extractLsb'_append_extractLsb' (w := 8)

variable {results : PigpioResults} {before store after : AdcStore}

/-- What is different behind a successful `init_adc`. -/
def initialised (store : AdcStore) : AdcStore :=
  { store with config := adcSettings, confReg := 0x0aec, lothReg := 0, hithReg := 1 }

/-- If `init_adc` returns, the store is the initialised one. -/
theorem initAdc_ready (ready : initAdc results before = .ok (.ready, after)) :
    after = initialised before := by
  have hithresh : busWord (swapBits 0x0001) = 1 := by decide
  have lothresh : busWord (swapBits 0x0000) = 0 := by decide
  have settings : busWord (swapBits (configWord adcSettings)) = 0x0aec := by decide
  have started : (do
      modify fun store => { store with config := adcSettings }
      resetAdc
      return InitResult.ready : Exec AdcStore InitResult) before =
        .ok (.ready, initialised before) := by
    rw [initialised, ← hithresh, ← lothresh, ← settings]
    rfl
  rw [initAdc] at ready
  split at ready
  · cases ready
  · split at ready
    · cases ready
    · split at ready
      · cases ready
      · rw [started] at ready
        cases ready
        rfl

/-- No call of pigpio fails. -/
def PigpioResults.Succeed (results : PigpioResults) : Prop :=
  0 ≤ results.gpioInitialise ∧ 0 ≤ results.i2cOpen ∧ 0 ≤ results.gpioSetMode

/-- `init_adc` returns exactly if its three calls succeed. -/
theorem initAdc_ready_iff :
    initAdc results before = .ok (.ready, initialised before) ↔ results.Succeed := by
  constructor
  · intro ready
    rw [initAdc] at ready
    split at ready
    next => cases ready
    next first =>
    split at ready
    next => cases ready
    next second =>
    split at ready
    next => cases ready
    next third => exact ⟨not_lt.mp first, not_lt.mp second, not_lt.mp third⟩
  · rintro ⟨first, second, third⟩
    have returns : ∃ after, initAdc results before = .ok (.ready, after) := by
      rw [initAdc, if_neg (not_lt.mpr first), if_neg (not_lt.mpr second),
        if_neg (not_lt.mpr third)]
      exact ⟨_, rfl⟩
    obtain ⟨after, ready⟩ := returns
    exact initAdc_ready ready ▸ ready

/-! ## The wait -/

/-- Bit 15 of a register of the device. -/
def bit15 (register : BitVec 16) : Int := (register >>> 15).toNat

/-- A signed field of one bit is never 1, so no word has the polarity it was given. -/
theorem polarity_ne_bit (word : BitVec 16) :
    ((word >>> 15).toNat : Int) ≠ adcSettings.comparatorPolarity.toInt := by
  have polarity : adcSettings.comparatorPolarity.toInt = -1 := by decide
  rw [polarity]
  omega

/-- Whatever the device answers to the poll, it is taken to be ready. -/
theorem isReady_returns (configured : store.config = adcSettings) :
    isReady store = .ok (true, { store with polled := store.polled + 1 }) := by
  have ready : decide (((busWord (store.polls store.polled) >>> 15).toNat : Int) ≠
      store.config.comparatorPolarity.toInt) = true := by
    rw [configured]
    exact decide_eq_true (polarity_ne_bit _)
  change Except.ok (decide _, _) = _
  rw [ready]

/-- The first poll ends the wait, whatever it returns. -/
theorem waitRound_leaves (configured : store.config = adcSettings) :
    waitRound () store = .ok (.leave (), { store with polled := store.polled + 1 }) :=
  bind_of_returns (isReady_returns configured)

/-- `next_value` returns the conversion register as it is. -/
theorem nextValue_returns (configured : store.config = adcSettings) :
    NextValue store fun value after =>
      value = (store.conversions store.converted).toInt ∧
        after = { store with polled := store.polled + 2, converted := store.converted + 1 } := by
  refine ⟨1, (), _, rounds_of_leave (waitRound_leaves configured) 0, ?_⟩
  have again : ({ store with polled := store.polled + 1 } : AdcStore).config = adcSettings :=
    configured
  change readValue.Ensures { store with polled := store.polled + 1 } _
  apply Ensures.bind_returns (isReady_returns again)
  apply Ensures.bind_returns rfl
  apply ensures_pure
  rw [swapBits_eq_busWord, busWord_busWord]
  exact ⟨rfl, rfl⟩

/-- The loop leaves at the first poll which finds bit 15 different from the polarity, and goes
on until then. -/
structure WaitsForReady (store : AdcStore) : Prop where
  leaves : ∀ n, (∀ k < n, bit15 (store.polls (store.polled + k)) = compPolActHigh) →
    bit15 (store.polls (store.polled + n)) ≠ compPolActHigh →
      Leaves waitRound () store fun _ after => after.polled = store.polled + n + 1
  goesOn : ∀ n, (∀ k < n, bit15 (store.polls (store.polled + k)) = compPolActHigh) →
    GoesOn waitRound () store n () { store with polled := store.polled + n }

/-- The wait is over after one poll, so it is right exactly if that poll is to end it. -/
theorem waitsForReady_iff (ready : initAdc results before = .ok (.ready, after)) :
    WaitsForReady after ↔ bit15 (after.polls after.polled) ≠ compPolActHigh := by
  have configured : after.config = adcSettings := by rw [initAdc_ready ready]; rfl
  have leaves := waitRound_leaves configured
  constructor
  · intro waits equal
    have still := waits.goesOn 1 (by
      intro k first
      rwa [Nat.lt_one_iff.mp first])
    rw [GoesOn, rounds_of_leave leaves] at still
    cases still
  · intro different
    constructor
    · intro n earlier _
      cases n with
      | zero => exact (leaves_of_leave leaves).mpr rfl
      | succ n => exact absurd (earlier 0 (Nat.succ_pos n)) different
    · intro n earlier
      cases n with
      | zero => rfl
      | succ n => exact absurd (earlier 0 (Nat.succ_pos n)) different

/-- A device whose config register reads `register` at every poll. -/
def steadyDevice (register : BitVec 16) : AdcStore where
  config := ⟨0, 0, 0, 0, 0, 0, 0, 0⟩
  confReg := 0
  lothReg := 0
  hithReg := 0
  polls := fun _ => register
  polled := 0
  conversions := fun _ => 0
  converted := 0

/-- A device whose register stays zero. -/
theorem waitsForReady_steadyDevice : WaitsForReady (initialised (steadyDevice 0x0000)) := by
  have ready : initAdc ⟨0, 0, 0⟩ (steadyDevice 0x0000) =
      .ok (.ready, initialised (steadyDevice 0x0000)) := rfl
  exact (waitsForReady_iff ready).mpr (by decide)

/-- A conversion which never finishes is not waited for. -/
theorem not_waitsForReady_steadyDevice : ¬ WaitsForReady (initialised (steadyDevice 0x8000)) := by
  intro waits
  have converting : bit15 0x8000 = compPolActHigh := by decide
  have still := waits.goesOn 1 (fun _ _ => converting)
  cases still

end MotorStand
