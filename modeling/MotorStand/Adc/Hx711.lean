import MotorStand.Imperative.While
import MotorStand.Bytes.MsbFirst

/-!
# The driver of the HX711

The other load cell amplifier is read bit by bit: it lowers `PIN_DT` once it has a value, and
every pulse on `PIN_SCK` makes it show the next bit.
-/

namespace MotorStand.Hx711

open Bytes Imperative Imperative.Exec

/-- `ADC_MAX` of `hx711.h`. -/
def adcMax : Int := 0x7fffff

/-- What the driver does with `PIN_SCK`, and how long it waits. -/
inductive PinEvent where
  | write (level : Bool)
  | delay (micros : Nat)
deriving DecidableEq

/-- The levels which the successive reads of `PIN_DT` find, how many of them have been made,
and what has been done so far. -/
structure Pins where
  levels : Nat → Bool
  reads : Nat
  events : List PinEvent

/-- `gpioWrite` to the clock pin. -/
def gpioWrite (level : Bool) : Exec Pins Unit :=
  modify fun pins => { pins with events := pins.events ++ [.write level] }

/-- `gpioDelay`. -/
def gpioDelay (micros : Nat) : Exec Pins Unit :=
  modify fun pins => { pins with events := pins.events ++ [.delay micros] }

/-- `gpioRead` of the data pin: each read finds the next level of the line. -/
def gpioRead : Exec Pins Bool := fun pins =>
  .ok (pins.levels pins.reads, { pins with reads := pins.reads + 1 })

/-- `reset_adc`: the clock is high for 100 microseconds. -/
def resetAdc : Exec Pins Unit := do
  gpioWrite true
  gpioDelay 100
  gpioWrite false
  gpioDelay 5

/-- `pop_bit`: one pulse of the clock, and the level behind it. -/
def popBit : Exec Pins Bool := do
  gpioWrite true
  gpioDelay 1
  gpioWrite false
  gpioRead

/-- A round of `while (gpioRead(PIN_DT))`. -/
def waitRound (_ : Unit) : Exec Pins (Imperative.Flow Unit Unit) := do
  if ← gpioRead then
    gpioDelay 1
    return .next ()
  else return .leave ()

/-- `next_value` behind its loop. -/
def readValue (newGain : Int) : Exec Pins Int := do
  let value ← forUp 0 24 (0 : BitVec 32) fun _ value => do
    let bit ← popBit
    return shiftIn value bit
  forUp 0 newGain.toNat () fun _ _ => do
    let _ ← popBit
    return ()
  return value.toNat

/-- `next_value` returns a value. -/
def NextValue (newGain : Int) (before : Pins) (post : Int → Pins → Prop) : Prop :=
  (gpioWrite false).Ensures before fun _ lowered =>
    Leaves waitRound () lowered fun _ ready => (readValue newGain).Ensures ready post

/-! ## Pulses -/

/-- A pulse on `PIN_SCK`. -/
def pulse : List PinEvent := [.write true, .delay 1, .write false]

/-- The pins after `count` more reads and `more`. -/
def Pins.after (pins : Pins) (count : Nat) (more : List PinEvent) : Pins :=
  { pins with reads := pins.reads + count, events := pins.events ++ more }

variable {pins before : Pins} {newGain : Int} {post : Int → Pins → Prop}

/-- Without reads and events nothing changes. -/
theorem after_zero (pins : Pins) : pins.after 0 [] = pins := by
  simp [Pins.after]

/-- Reads and events add up. -/
theorem after_after (pins : Pins) (count next : Nat) (more others : List PinEvent) :
    (pins.after count more).after next others = pins.after (count + next) (more ++ others) := by
  simp [Pins.after, Nat.add_assoc]

/-- A bit is the level at the next read. -/
theorem popBit_returns (pins : Pins) :
    popBit pins = .ok (pins.levels pins.reads, pins.after 1 pulse) := by
  change Except.ok (pins.levels pins.reads, _) = _
  simp [Pins.after, pulse]

/-- `count` pulses. -/
def pulses (count : Nat) : List PinEvent := (List.replicate count pulse).flatten

/-- One more pulse stands at the end. -/
theorem pulses_succ (count : Nat) : pulses (count + 1) = pulses count ++ pulse := by
  rw [pulses, List.replicate_succ', List.flatten_append, List.flatten_singleton]
  rfl

/-- The levels of `count` reads. -/
def Pins.found (pins : Pins) (count : Nat) : List Bool :=
  (List.range' pins.reads count).map pins.levels

/-- One more level stands at the end. -/
theorem found_succ (pins : Pins) (count : Nat) :
    pins.found (count + 1) = pins.found count ++ [pins.levels (pins.reads + count)] := by
  rw [Pins.found, List.range'_1_concat, List.map_append]
  rfl

/-- As many levels are found as there are reads. -/
theorem found_length (pins : Pins) (count : Nat) : (pins.found count).length = count := by
  rw [Pins.found, List.length_map, List.length_range']

/-- Bits are shifted in as long as there is room for them. -/
theorem shiftBits_ensures (pins : Pins) {count : Nat} (room : count < 32) :
    (forUp 0 count (0 : BitVec 32) fun _ value => do
      let bit ← popBit
      return shiftIn value bit : Exec Pins (BitVec 32)).Ensures pins fun value after =>
        value.toNat = msbFirst (pins.found count) ∧ after = pins.after count (pulses count) := by
  apply forUp_ensures (fun i (value : BitVec 32) after =>
    value.toNat = msbFirst (pins.found i) ∧ after = pins.after i (pulses i)) (Nat.zero_le _)
    ⟨rfl, (after_zero pins).symm⟩
  rintro i value _ _ below ⟨number, rfl⟩
  apply Ensures.bind_returns (popBit_returns _)
  apply ensures_pure
  have small := msbFirst_lt (pins.found i)
  rw [found_length] at small
  have quarter : 2 ^ i ≤ 2 ^ 30 := Nat.pow_le_pow_right (by decide) (by omega)
  have free : 2 * value.toNat + 1 < 2 ^ 32 := by omega
  rw [toNat_shiftIn free, number, found_succ, msbFirst_concat, after_after, pulses_succ]
  exact ⟨rfl, rfl⟩

/-- The gain is set by more pulses, whatever they find. -/
theorem gainPulses_ensures (pins : Pins) (count : Nat) :
    (forUp 0 count () fun _ _ => do
      let _ ← popBit
      return () : Exec Pins Unit).Ensures pins fun _ after =>
        after = pins.after count (pulses count) := by
  apply forUp_ensures (fun i _ after => after = pins.after i (pulses i)) (Nat.zero_le _)
    (after_zero pins).symm
  rintro i _ _ _ _ rfl
  apply Ensures.bind_returns (popBit_returns _)
  apply ensures_pure
  rw [after_after, pulses_succ]

/-- Pulses stand one behind the other. -/
theorem pulses_add (first second : Nat) : pulses (first + second) = pulses first ++ pulses second := by
  rw [pulses, List.replicate_add, List.flatten_append]
  rfl

/-- Behind the wait the value is read, and the pulses of the gain follow. -/
theorem readValue_ensures (newGain : Int) (pins : Pins) :
    (readValue newGain).Ensures pins fun value after =>
      value = msbFirst (pins.found 24) ∧
        after = pins.after (24 + newGain.toNat) (pulses (24 + newGain.toNat)) := by
  apply (shiftBits_ensures pins (by decide)).bind
  rintro value _ ⟨number, rfl⟩
  apply (gainPulses_ensures _ newGain.toNat).bind
  rintro _ _ rfl
  apply ensures_pure
  rw [number, after_after, pulses_add]
  exact ⟨rfl, rfl⟩

/-! ## The wait -/

/-- A high line is read again a microsecond later. -/
theorem waitRound_high (high : pins.levels pins.reads = true) :
    waitRound () pins = .ok (.next (), pins.after 1 [.delay 1]) := by
  have read : gpioRead pins = .ok (true, { pins with reads := pins.reads + 1 }) := by
    rw [gpioRead, high]
  exact bind_of_returns read

/-- A low line ends the wait. -/
theorem waitRound_low (low : pins.levels pins.reads = false) :
    waitRound () pins = .ok (.leave (), pins.after 1 []) := by
  have read : gpioRead pins = .ok (false, { pins with reads := pins.reads + 1 }) := by
    rw [gpioRead, low]
  rw [Pins.after, List.append_nil]
  exact bind_of_returns read

/-- While the line is high the loop goes on. -/
theorem goesOn_of_high (pins : Pins) {count : Nat}
    (high : ∀ k < count, pins.levels (pins.reads + k) = true) :
    GoesOn waitRound () pins count () (pins.after count (.replicate count (.delay 1))) := by
  induction count generalizing pins with
  | zero =>
      rw [List.replicate_zero, after_zero]
      exact goesOn_zero
  | succ count ih =>
      have later : ∀ k < count, (pins.after 1 [.delay 1]).levels
          ((pins.after 1 [.delay 1]).reads + k) = true := by
        intro k below
        have here := high (k + 1) (Nat.succ_lt_succ below)
        rwa [← Nat.add_assoc, Nat.add_right_comm] at here
      have rest := ih (pins.after 1 [.delay 1]) later
      rw [after_after, Nat.add_comm 1 count] at rest
      exact (goesOn_succ (waitRound_high (high 0 (Nat.succ_pos count)))).mpr rest

/-- The line is low for the first time after `count` more reads. -/
structure FirstLow (pins : Pins) (count : Nat) : Prop where
  high : ∀ k < count, pins.levels (pins.reads + k) = true
  low : pins.levels (pins.reads + count) = false

/-- A line which is low at some read has a first such read. -/
theorem exists_firstLow {count : Nat} (low : pins.levels (pins.reads + count) = false) :
    ∃ first, FirstLow pins first := by
  have some : ∃ n, pins.levels (pins.reads + n) = false := ⟨count, low⟩
  refine ⟨Nat.find some, fun k earlier => ?_, Nat.find_spec some⟩
  rw [← Bool.not_eq_false]
  exact Nat.find_min some earlier

/-- What `next_value` does to the pins: it lowers the clock and waits, and makes a pulse for
each bit and for the gain. -/
def nextEvents (waited : Nat) (newGain : Int) : List PinEvent :=
  .write false :: (.replicate waited (.delay 1) ++ pulses (24 + newGain.toNat))

/-- What `next_value` returns and leaves behind if the line gets low. -/
theorem nextValue_of_firstLow {waited : Nat} (first : FirstLow pins waited) (newGain : Int) :
    NextValue newGain pins fun value after =>
      value = msbFirst ((pins.after (waited + 1) []).found 24) ∧
        after = pins.after (waited + 1 + (24 + newGain.toNat)) (nextEvents waited newGain) := by
  refine ⟨(), pins.after 0 [.write false], rfl, ?_⟩
  have waits := goesOn_of_high (pins.after 0 [.write false]) first.high
  rw [after_after, Nat.zero_add] at waits
  apply waits.leaves (waitRound_low first.low)
  apply (readValue_ensures newGain _).imp
  rintro value _ ⟨number, rfl⟩
  rw [after_after, after_after, ← Nat.add_assoc]
  exact ⟨number, rfl⟩

/-- A line which stays high is waited for without an end. -/
theorem not_nextValue_of_high (high : ∀ k, pins.levels (pins.reads + k) = true) (newGain : Int) :
    ¬ NextValue newGain pins post := by
  rintro ⟨_, _, lowered, leaves⟩
  cases lowered
  have waits (count : Nat) : GoesOn waitRound () (pins.after 0 [.write false]) count ()
      ((pins.after 0 [.write false]).after count (.replicate count (.delay 1))) :=
    goesOn_of_high _ fun k _ => high k
  exact not_leaves_of_goesOn (fun count => ⟨_, _, waits count⟩) leaves

/-! ## Conversions -/

/-- From the read behind the wait on the line shows the bits of a conversion. -/
def Shows (pins : Pins) (waited : Nat) (conversion : BitVec 24) : Prop :=
  ∀ i < 24, pins.levels (pins.reads + (waited + 1) + i) = conversion.getMsbD i

/-- The levels of a conversion spell it. -/
theorem found_of_shows {waited : Nat} {conversion : BitVec 24}
    (shows : Shows pins waited conversion) :
    msbFirst ((pins.after (waited + 1) []).found 24) = conversion.toNat := by
  have same : (pins.after (waited + 1) []).found 24 =
      (List.range' 0 24).map conversion.getMsbD := by
    rw [Pins.found, List.range'_eq_map_range, List.range'_eq_map_range, List.map_map, List.map_map]
    apply List.map_congr_left
    intro i member
    change pins.levels (pins.reads + (waited + 1) + i) = conversion.getMsbD (0 + i)
    rw [Nat.zero_add]
    exact shows i (List.mem_range.mp member)
  rw [same, msbFirst_word]

/-- The conversions are signed, the value which is returned is not. -/
theorem toNat_conversion (conversion : BitVec 24) :
    (conversion.toNat : Int) =
      if 0 ≤ conversion.toInt then conversion.toInt else conversion.toInt + 2 ^ 24 := by
  have below := conversion.isLt
  rw [BitVec.toInt_eq_toNat_cond]
  split_ifs <;> omega

/-- What `next_value` makes of the line. A conversion below zero comes out above `ADC_MAX`. -/
structure ReadsLine (newGain : Int) (pins : Pins) : Prop where
  returns : (NextValue newGain pins fun _ _ => True) ↔ ∃ k, pins.levels (pins.reads + k) = false
  bits : ∀ waited, FirstLow pins waited → NextValue newGain pins fun value after =>
    value = msbFirst ((pins.after (waited + 1) []).found 24) ∧ value < 2 ^ 24 ∧
      after = pins.after (waited + 1 + (24 + newGain.toNat)) (nextEvents waited newGain)
  conversion : ∀ waited conversion, FirstLow pins waited → Shows pins waited conversion →
    NextValue newGain pins fun value _ =>
      value = (if 0 ≤ conversion.toInt then conversion.toInt else conversion.toInt + 2 ^ 24) ∧
        (value ≤ adcMax ↔ 0 ≤ conversion.toInt)

/-- What follows from a result holds of it as well. -/
theorem NextValue.imp {stronger : Int → Pins → Prop} (next : NextValue newGain pins stronger)
    (weaker : ∀ value after, stronger value after → post value after) :
    NextValue newGain pins post := by
  obtain ⟨_, lowered, wrote, count, _, ready, run, read⟩ := next
  exact ⟨_, lowered, wrote, count, _, ready, run, read.imp weaker⟩

/-- `next_value` returns exactly if the line gets low at some read. -/
theorem nextValue_returns_iff (newGain : Int) (pins : Pins) :
    (NextValue newGain pins fun _ _ => True) ↔ ∃ k, pins.levels (pins.reads + k) = false := by
  constructor
  · intro next
    by_contra none
    have high : ∀ k, pins.levels (pins.reads + k) = true := by
      intro k
      rw [← Bool.not_eq_false]
      exact fun low => none ⟨k, low⟩
    exact not_nextValue_of_high high newGain next
  · rintro ⟨k, low⟩
    obtain ⟨waited, first⟩ := exists_firstLow low
    exact (nextValue_of_firstLow first newGain).imp fun _ _ _ => trivial

/-- `next_value` returns if the line is low at some time, and then what the line shows. -/
theorem readsLine (newGain : Int) (pins : Pins) : ReadsLine newGain pins where
  returns := nextValue_returns_iff newGain pins
  bits waited first := by
    apply (nextValue_of_firstLow first newGain).imp
    rintro value after ⟨rfl, same⟩
    refine ⟨rfl, ?_, same⟩
    have small := msbFirst_lt ((pins.after (waited + 1) []).found 24)
    rw [found_length] at small
    exact_mod_cast small
  conversion waited conversion first shows := by
    apply (nextValue_of_firstLow first newGain).imp
    rintro value after ⟨rfl, _⟩
    rw [found_of_shows shows, toNat_conversion]
    refine ⟨rfl, ?_⟩
    have above : -2 ^ 23 ≤ conversion.toInt := BitVec.le_toInt conversion
    have below : conversion.toInt < 2 ^ 23 := BitVec.toInt_lt
    rw [adcMax]
    split_ifs with nonneg
    · exact iff_of_true (by omega) nonneg
    · exact iff_of_false (by omega) nonneg

end MotorStand.Hx711
