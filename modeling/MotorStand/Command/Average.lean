import MotorStand.Server.Sampling
import MotorStand.Transition.System

/-!
# The average behind `tare`

The client thread of the actor adds every sample to the average through
`write_callback`, while `main` clears and reads it. Each access holds the mutex and
is one step. The build selects the callback: with `FAST_AS_POSSIBLE` samples come in
batches without a `value`, and nothing is averaged.
-/

namespace MotorStand.Average

open Imperative Imperative.Exec Transition

/-- What the client thread passes to the callback, by `FAST_AS_POSSIBLE`. -/
def CallbackData : Bool → Type
  | true => OutputBatch
  | false => OutputData

/-- `average_data`, its mutex apart. -/
structure AverageData where
  value : ℚ
  valueTare : ℚ
  sum : ℚ
  sumTare : ℚ
  count : Nat

/-- `reset_average`. -/
def resetAverage (_avg : AverageData) : AverageData := ⟨0, 0, 0, 0, 0⟩

/-- `write_callback`. -/
def writeCallback : (fast : Bool) → CallbackData fast → AverageData → Except Fault AverageData
  | true, _, avg => .ok avg
  | false, data, avg =>
      if avg.count = intMax then .error .signedOverflow
      else
        let sum := avg.sum + data.value
        let sumTare := avg.sumTare + data.valueTare
        let count := avg.count + 1
        .ok ⟨sum / count, sumTare / count, sum, sumTare, count⟩

/-- Where `main` is. -/
inductive MainPc where
  | starting
  | launching
  | commanded
  | collectingPrior
  | performing (prior : ℚ)
  | succeeded
  | collectingPost
  | finished

/-- `main`, the client thread once it runs, and the average they share. A signed overflow
of the count leaves everything after it undefined. -/
structure State where
  avg : AverageData
  main : MainPc
  client : Bool
  fault : Option Fault

/-- What a step does. -/
inductive Event (fast : Bool) where
  | resetsAtStart
  | launches (started : Bool)
  | writes (data : CallbackData fast)
  | resetsPrior
  | readsPrior (prior : ℚ)
  | sendsTare (value : ℚ) (succeeds : Bool)
  | resetsPost
  | readsPost (post : ℚ)

variable {fast : Bool}

/-- The steps of `main` under the command `tare`, and those of the client thread. -/
inductive Step : State → Event fast → State → Prop where
  | resetsAtStart {state} (defined : state.fault = none) (here : state.main = .starting) :
      Step state .resetsAtStart
        { state with avg := resetAverage state.avg, main := .launching }
  | launches {state} (defined : state.fault = none) (here : state.main = .launching)
      (started : Bool) :
      Step state (.launches started) { state with main := .commanded, client := started }
  | writes {state data avg} (defined : state.fault = none) (running : state.client = true)
      (returns : writeCallback fast data state.avg = .ok avg) :
      Step state (.writes data) { state with avg := avg }
  | overflows {state data fault} (defined : state.fault = none) (running : state.client = true)
      (fails : writeCallback fast data state.avg = .error fault) :
      Step state (.writes data) { state with fault := some fault }
  | resetsPrior {state} (defined : state.fault = none) (here : state.main = .commanded) :
      Step state .resetsPrior
        { state with avg := resetAverage state.avg, main := .collectingPrior }
  | readsPrior {state} (defined : state.fault = none) (here : state.main = .collectingPrior) :
      Step state (.readsPrior state.avg.value) { state with main := .performing state.avg.value }
  | sendsTare {state prior} (defined : state.fault = none) (here : state.main = .performing prior)
      (succeeds : Bool) :
      Step state (.sendsTare prior succeeds)
        { state with main := if succeeds then .succeeded else .finished }
  | resetsPost {state} (defined : state.fault = none) (here : state.main = .succeeded) :
      Step state .resetsPost
        { state with avg := resetAverage state.avg, main := .collectingPost }
  | readsPost {state} (defined : state.fault = none) (here : state.main = .collectingPost) :
      Step state (.readsPost state.avg.value) { state with main := .finished }

/-- `avg` before `main` has cleared it, and no client thread yet. -/
def initial : State := ⟨⟨0, 0, 0, 0, 0⟩, .starting, false, none⟩

/-- The actor under the command `tare`. -/
def actor (fast : Bool) : System State (Event fast) := ⟨(· = initial), Step⟩

/-! ## What a window of samples leaves in the average -/

/-- The values of the samples in what a callback is given. The entries of a batch have
none of their own; theirs is what the constants of the server make of the raw value. -/
def sampleValues (m b : ℚ) : (fast : Bool) → CallbackData fast → List ℚ
  | true, batch => batch.entries.map fun entry => sampleValue m b entry.rawValue
  | false, data => [data.value]

/-- The arithmetic mean. -/
def mean (values : List ℚ) : ℚ := values.sum / values.length

/-- `avg` averages the values. -/
structure Averages (avg : AverageData) (values : List ℚ) : Prop where
  sum : avg.sum = values.sum
  count : avg.count = values.length
  value : avg.value = mean values

variable {m b : ℚ} {avg next : AverageData} {values : List ℚ}

/-- Behind a reset nothing is averaged. -/
theorem averages_resetAverage (avg : AverageData) : Averages (resetAverage avg) [] :=
  ⟨rfl, rfl, by simp [resetAverage, mean]⟩

/-- One sample more. -/
theorem Averages.write {data : CallbackData false} (averages : Averages avg values)
    (returns : writeCallback false data avg = .ok next) :
    Averages next (values ++ sampleValues m b false data) := by
  simp only [writeCallback] at returns
  split at returns
  · cases returns
  · cases returns
    refine ⟨?_, ?_, ?_⟩
    · simp [sampleValues, averages.sum]
    · simp [sampleValues, averages.count]
    · simp [sampleValues, mean, averages.sum, averages.count]

/-- What the samples make of the average, by build. -/
def Follows (fast : Bool) (avg : AverageData) (values : List ℚ) : Prop :=
  if fast then avg.value = 0 else Averages avg values

/-- A reset starts the collection anew, in either format. -/
theorem follows_resetAverage (fast : Bool) (avg : AverageData) :
    Follows fast (resetAverage avg) [] := by
  cases fast
  · exact averages_resetAverage avg
  · rfl

/-- A callback adds the values of what it was given. -/
theorem Follows.write {data : CallbackData fast} (follows : Follows fast avg values)
    (returns : writeCallback fast data avg = .ok next) :
    Follows fast next (values ++ sampleValues m b fast data) := by
  cases fast
  · exact Averages.write follows returns
  · cases returns
    exact follows

/-! ## Runs -/

variable {state start : State} {events : List (Event fast)}

/-- Signed overflow ends the defined part of a run. -/
theorem defined_of_step {event : Event fast} {after : State}
    (step : (actor fast).Step state event after) : state.fault = none := by
  cases step <;> assumption

/-- While the client thread alone is active it only adds samples to the average. -/
theorem window_steps (m b : ℚ) (steps : Steps (actor fast) start events state)
    (window : List (CallbackData fast)) (only : events = window.map .writes)
    (defined : state.fault = none) :
    state.main = start.main ∧ ∀ values, Follows fast start.avg values →
      Follows fast state.avg (values ++ window.flatMap (sampleValues m b fast)) := by
  induction steps generalizing window with
  | refl =>
      obtain rfl := List.map_eq_nil_iff.mp only.symm
      exact ⟨rfl, by simp⟩
  | @step _ middle event next prior transition ih =>
      obtain ⟨earlier, last, rfl, rfl, singleton⟩ := List.map_eq_append_iff.mp only.symm
      obtain ⟨data, rfl, rfl⟩ := List.map_eq_singleton_iff.mp singleton
      obtain ⟨unmoved, holds⟩ := ih earlier rfl (defined_of_step transition)
      cases transition with
      | writes _ _ returns =>
          refine ⟨unmoved, fun values follows => ?_⟩
          simpa using (holds values follows).write (m := m) (b := b) returns
      | overflows => cases defined

/-- A run up to `OP_TARE`: what happened before the `reset_average` of the command, the
samples received until the average is read, and those received until it is sent. -/
def tareRun (before : List (Event fast)) (window gap : List (CallbackData fast)) (prior sent : ℚ)
    (succeeds : Bool) : List (Event fast) :=
  before ++ .resetsPrior :: (window.map .writes ++
    .readsPrior prior :: (gap.map .writes ++ [.sendsTare sent succeeds]))

variable {before : List (Event fast)} {window gap : List (CallbackData fast)} {prior sent : ℚ}
  {succeeds : Bool}

/-- What is sent is the average the window leaves. -/
theorem sent_of_tareRun (m b : ℚ)
    (runs : Runs (actor fast) (tareRun before window gap prior sent succeeds) state) :
    ∃ avg : AverageData, sent = avg.value ∧
      Follows fast avg (window.flatMap (sampleValues m b fast)) := by
  obtain ⟨earlier, cleared, _, reset, _, rest⟩ := runs.cut
  obtain ⟨filled, collect, rest⟩ := rest.split rfl
  obtain ⟨taken, read, rest⟩ := rest.head rfl
  obtain ⟨ready, wait, rest⟩ := rest.split rfl
  obtain ⟨_, send, _⟩ := rest.head rfl
  have follows : Follows fast filled.avg (window.flatMap (sampleValues m b fast)) := by
    refine (window_steps m b collect window rfl (defined_of_step read)).2 [] ?_
    cases reset
    exact follows_resetAverage fast earlier.avg
  refine ⟨filled.avg, ?_, follows⟩
  have waited := (window_steps m b wait gap rfl (defined_of_step send)).1
  cases read
  cases send with
  | sendsTare _ here =>
      rw [waited] at here
      cases here
      rfl

/-- The value sent with `OP_TARE` is the mean of the values of the samples received between
`reset_average` and the read, if there are any. -/
def SendsMean (m b : ℚ) (fast : Bool) : Prop :=
  ∀ before window gap prior sent succeeds state,
    Runs (actor fast) (tareRun before window gap prior sent succeeds) state →
      window.flatMap (sampleValues m b fast) ≠ [] →
        sent = mean (window.flatMap (sampleValues m b fast))

/-- With one sample at a time the mean of all values is sent. -/
theorem sendsMean_detailed (m b : ℚ) : SendsMean m b false := by
  intro before window gap prior sent succeeds state runs _
  obtain ⟨avg, rfl, follows⟩ := sent_of_tareRun m b runs
  exact Averages.value follows

/-- With batches the value sent is zero. -/
theorem sent_eq_zero {before : List (Event true)} {window gap : List (CallbackData true)}
    (runs : Runs (actor true) (tareRun before window gap prior sent succeeds) state) :
    sent = 0 := by
  obtain ⟨avg, rfl, follows⟩ := sent_of_tareRun 0 0 runs
  exact follows

/-! ## The count -/

/-- The samples received since the last `reset_average`. -/
def Event.receivedAfter (received : Nat) : Event fast → Nat
  | .writes _ => received + 1
  | .resetsAtStart | .resetsPrior | .resetsPost => 0
  | _ => received

/-- The samples received since the last `reset_average` of a run. -/
def received (events : List (Event fast)) : Nat := events.foldl Event.receivedAfter 0

/-- The last event works on what was received before. -/
theorem received_concat (events : List (Event fast)) (event : Event fast) :
    received (events ++ [event]) = event.receivedAfter (received events) := by
  simp [received]

/-- The count is that of the samples, as long as there are no more than an `int` counts. -/
theorem count_of_runs {events : List (Event false)} (runs : Runs (actor false) events state)
    (fits : ∀ earlier, earlier <+: events → received earlier ≤ intMax) :
    state.fault = none ∧ state.avg.count = received events := by
  refine Runs.invariant (fun events state =>
    (∀ earlier, earlier <+: events → received earlier ≤ intMax) →
      state.fault = none ∧ state.avg.count = received events) runs ?_ ?_ fits
  · rintro _ rfl _
    exact ⟨rfl, rfl⟩
  · intro events state event next ih step fits
    obtain ⟨defined, count⟩ :=
      ih fun earlier before => fits earlier (before.trans (List.prefix_append _ _))
    have whole := fits _ List.prefix_rfl
    rw [received_concat] at whole ⊢
    cases step with
    | writes _ _ returns =>
        simp only [writeCallback] at returns
        split at returns
        · cases returns
        · cases returns
          exact ⟨defined, congrArg (· + 1) count⟩
    | overflows _ _ fails =>
        simp only [writeCallback] at fails
        split at fails
        · rename_i full
          rw [count] at full
          exact absurd whole (by simp [Event.receivedAfter, full])
        · cases fails
    | _ => exact ⟨defined, by first | rfl | exact count⟩

/-- The callback takes a sample as long as there is room in the count. -/
theorem exists_write (avg : AverageData) (room : avg.count < intMax) (data : CallbackData fast) :
    ∃ next, writeCallback fast data avg = .ok next ∧ next.count ≤ avg.count + 1 ∧
      (fast = false → next.count = avg.count + 1) := by
  cases fast with
  | true => exact ⟨avg, rfl, Nat.le_succ _, nofun⟩
  | false =>
      simp only [writeCallback, if_neg room.ne]
      exact ⟨_, rfl, le_rfl, fun _ => rfl⟩

/-- Any samples can come in one behind the other. -/
theorem exists_window_steps (start : State) (window : List (CallbackData fast)) (running : start.client = true)
    (defined : start.fault = none) (room : start.avg.count + window.length ≤ intMax) :
    ∃ after, Steps (actor fast) start (window.map .writes) after ∧ after.main = start.main ∧
      after.client = true ∧ after.fault = none ∧
      (fast = false → after.avg.count = start.avg.count + window.length) := by
  induction window generalizing start with
  | nil => exact ⟨start, .refl, rfl, running, defined, fun _ => rfl⟩
  | cons data rest ih =>
      rw [List.length_cons] at room
      obtain ⟨next, returns, bound, count⟩ := exists_write start.avg (by omega) data
      have first : Steps (actor fast) start [.writes data] { start with avg := next } :=
        .step .refl (.writes defined running returns)
      obtain ⟨after, steps, main, client, fault, counted⟩ :=
        ih { start with avg := next } running defined (by simp only; omega)
      refine ⟨after, first.trans steps, main, client, fault, fun detailed => ?_⟩
      rw [counted detailed, count detailed, List.length_cons]
      omega

/-- The state in which the command collects samples. -/
def collecting : State := ⟨⟨0, 0, 0, 0, 0⟩, .collectingPrior, true, none⟩

/-- A run up to the start of the collection. -/
theorem runs_collecting (fast : Bool) :
    Runs (actor fast) [.resetsAtStart, .launches true, .resetsPrior] collecting := by
  refine ⟨initial, rfl, ?_⟩
  have cleared : Steps (actor fast) initial [.resetsAtStart] { initial with main := .launching } :=
    .step .refl (.resetsAtStart rfl rfl)
  have launched : Steps (actor fast) initial [.resetsAtStart, .launches true]
      { initial with main := .commanded, client := true } :=
    .step cleared (.launches rfl rfl true)
  exact .step launched (.resetsPrior rfl rfl)

/-- Every window can occur in a run which sends its average. -/
theorem exists_tareRun (window : List (CallbackData fast)) (fits : window.length ≤ intMax) :
    ∃ prior state, Runs (actor fast)
      (tareRun [.resetsAtStart, .launches true] window [] prior prior true) state := by
  obtain ⟨start, valid, steps⟩ := runs_collecting fast
  obtain ⟨after, collect, main, _, fault, _⟩ := exists_window_steps collecting window
    rfl rfl (by simpa [collecting] using fits)
  let performing : State := { after with main := .performing after.avg.value }
  have defined : performing.fault = none := fault
  have read : Steps (actor fast) after [.readsPrior after.avg.value] performing :=
    .step .refl (.readsPrior fault main)
  have send : Steps (actor fast) after [.readsPrior after.avg.value, .sendsTare after.avg.value true]
      { after with main := .succeeded } :=
    .step read (.sendsTare defined rfl true)
  exact ⟨after.avg.value, _, start, valid, steps.trans (collect.trans send)⟩

/-- One sample more than an `int` counts is undefined. -/
theorem exists_overflow (data : CallbackData false) :
    ∃ events state, Runs (actor false) events state ∧ state.fault = some .signedOverflow := by
  obtain ⟨start, valid, steps⟩ := runs_collecting false
  obtain ⟨after, collect, _, client, fault, counted⟩ := exists_window_steps collecting
    (List.replicate intMax data) rfl rfl (by simp [collecting])
  have full : after.avg.count = intMax := by
    rw [counted rfl]
    simp [collecting]
  have fails : writeCallback false data after.avg = .error .signedOverflow := by
    rw [writeCallback, if_pos full]
  exact ⟨_, _, ⟨start, valid, (steps.trans collect).step (.overflows fault client fails)⟩, rfl⟩

/-! ## The value of a tare -/

/-- The run is defined, and what it sends is the mean of what it saw. -/
structure TareSendsMean (m b : ℚ) (fast : Bool) : Prop where
  defined : ∀ events state, Runs (actor fast) events state → state.fault = none
  sends : SendsMean m b fast

/-- Without batches, and with no more samples behind a `reset_average` than an `int` counts, the
tare sends the mean of the samples it has seen. -/
theorem tare_sends_mean (m b : ℚ) :
    (∀ events state, Runs (actor false) events state →
      (∀ earlier, earlier <+: events → received earlier ≤ intMax) → state.fault = none) ∧
    SendsMean m b false :=
  ⟨fun _ _ runs fits => (count_of_runs runs fits).1, sendsMean_detailed m b⟩

/-- A batch with one sample at full scale. -/
def fullScaleBatch : OutputBatch := ⟨1, Vector.replicate batchSize ⟨0, 32767⟩⟩

/-- The one sample of the batch is the full scale. -/
theorem sampleValues_fullScaleBatch : sampleValues 1 0 true fullScaleBatch = [1] := by
  have entries : fullScaleBatch.entries = [⟨0, 32767⟩] := by
    rw [OutputBatch.entries, fullScaleBatch, Vector.toList_replicate, List.take_replicate]
    rfl
  change fullScaleBatch.entries.map (fun entry => sampleValue 1 0 entry.rawValue) = [1]
  rw [entries]
  norm_num [sampleValue, fullScale, adcMax]

/-- A batch of one sample of the value one is answered with a tare of zero. Without batches the
count overflows in the end. -/
theorem not_tareSendsMean : ¬ TareSendsMean 1 0 true ∧ ¬ TareSendsMean 1 0 false := by
  constructor
  · rintro ⟨_, sends⟩
    let window : List (CallbackData true) := [fullScaleBatch]
    obtain ⟨prior, state, runs⟩ := exists_tareRun window (by decide)
    have values : window.flatMap (sampleValues 1 0 true) = [1] := sampleValues_fullScaleBatch
    have sent := sends _ _ _ _ _ _ _ runs (by simp [values])
    rw [values, sent_eq_zero runs] at sent
    exact absurd sent (by simp [mean])
  · rintro ⟨defined, _⟩
    obtain ⟨events, state, runs, overflow⟩ := exists_overflow ⟨⟨0, 0⟩, 0, 0, 0, 0⟩
    rw [defined events state runs] at overflow
    cases overflow

end MotorStand.Average
