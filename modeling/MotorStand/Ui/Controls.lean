import MotorStand.Ui.Graph

/-!
# The controls of `teststandui`

A recording needs a source of data, the network or Test Mode. The handlers run
one after the other on the main loop, so a run is a list of events. The calls of
GTK which only display are left out.
-/

namespace MotorStand

namespace GraphData

/-- `idle_handle_output` with a sample of the network. -/
def idleHandleOutput (graph : GraphData) (valueTare : ℚ) : GraphData :=
  let graph := { graph with hasDataInput := true }
  if graph.isRecording then graph.logNewData valueTare else graph

/-- Recording is toggled only if there is a source. -/
def onStartStopClicked (graph : GraphData) : GraphData :=
  if !graph.hasDataInput && !graph.testMode then graph
  else { graph with isRecording := !graph.isRecording }

/-- A tick of the test timer; `random` is what `rand` returns. -/
def testTimerCb (graph : GraphData) (random : Nat) : GraphData :=
  if !graph.isRecording then graph
  else graph.logNewData (((random % 1000 : Nat) : ℚ) / 10)

/-- Test Mode was switched; `sourceId` is the timer which switching on would get. -/
def onTestToggled (graph : GraphData) (active : Bool) (sourceId : Nat) : GraphData :=
  if active then
    { graph with testMode := true, hasDataInput := true, testTimerId := sourceId }
  else
    let graph := { graph with testMode := false, hasDataInput := false }
    if graph.testTimerId ≠ 0 then { graph with testTimerId := 0 } else graph

/-- `on_reset_clicked`: the recording is stopped first. -/
def onResetClicked (graph : GraphData) : GraphData :=
  let graph := if graph.isRecording then graph.onStartStopClicked else graph
  graph.resetGraphData

end GraphData

/-- What the main loop dispatches. -/
inductive UiEvent where
  | sample (valueTare : ℚ)
  | startStopClicked
  | testToggled (active : Bool) (sourceId : Nat)
  | timerTick (random : Nat)
  | resetClicked
deriving DecidableEq

namespace UiEvent

/-- The handler of an event. -/
def handle (graph : GraphData) : UiEvent → GraphData
  | .sample valueTare => graph.idleHandleOutput valueTare
  | .startStopClicked => graph.onStartStopClicked
  | .testToggled active sourceId => graph.onTestToggled active sourceId
  | .timerTick random => graph.testTimerCb random
  | .resetClicked => graph.onResetClicked

/-- The state after the events, from the initial one. -/
def run (events : List UiEvent) : GraphData := events.foldl handle .initial

/-- The last event is handled last. -/
theorem run_concat (events : List UiEvent) (event : UiEvent) :
    run (events ++ [event]) = event.handle (run events) :=
  List.foldl_concat ..

end UiEvent

open UiEvent

/-- A recording has a source of data. -/
def Sourced (graph : GraphData) : Prop :=
  graph.isRecording = true → graph.hasDataInput = true ∨ graph.testMode = true

/-- What a reset leaves. -/
structure Cleared (graph : GraphData) : Prop where
  stopped : graph.isRecording = false
  empty : graph.data = []
  rewound : graph.currentTime = 0

/-- The event switches Test Mode off. -/
def UiEvent.SwitchesTestOff : UiEvent → Prop
  | .testToggled active _ => active = false
  | _ => False

variable {graph : GraphData} {event : UiEvent}

/-- With a source the button starts or stops the recording. -/
theorem GraphData.onStartStopClicked_of_source
    (source : graph.hasDataInput = true ∨ graph.testMode = true) :
    graph.onStartStopClicked = { graph with isRecording := !graph.isRecording } := by
  rcases source with network | test
  · simp [onStartStopClicked, network]
  · simp [onStartStopClicked, test]

/-- The only event which takes the source from a recording is switching Test Mode off. -/
theorem Sourced.handle (sourced : Sourced graph)
    (kept : event.SwitchesTestOff → graph.isRecording = false) : Sourced (event.handle graph) := by
  cases event with
  | sample valueTare =>
      intro _
      left
      simp only [UiEvent.handle, GraphData.idleHandleOutput]
      split <;> rfl
  | startStopClicked =>
      simp only [UiEvent.handle, GraphData.onStartStopClicked]
      split
      next => exact sourced
      next source =>
          intro _
          simpa [Classical.or_iff_not_imp_left] using source
  | testToggled active sourceId =>
      cases active with
      | true => exact fun _ => .inl rfl
      | false =>
          have stopped := kept rfl
          intro recording
          have same : (graph.onTestToggled false sourceId).isRecording = graph.isRecording := by
            simp only [GraphData.onTestToggled, Bool.false_eq_true, if_false]
            split <;> rfl
          rw [UiEvent.handle, same, stopped] at recording
          cases recording
  | timerTick random =>
      simp only [UiEvent.handle, GraphData.testTimerCb]
      split
      next => exact sourced
      next => exact sourced
  | resetClicked =>
      simp only [UiEvent.handle, GraphData.onResetClicked]
      split
      next recording =>
          rw [GraphData.onStartStopClicked_of_source (sourced recording)]
          exact fun _ => sourced recording
      next => exact sourced

/-- A reset stops a recording which has a source. -/
theorem Sourced.cleared (sourced : Sourced graph) : Cleared graph.onResetClicked := by
  refine ⟨?_, rfl, rfl⟩
  simp only [GraphData.onResetClicked]
  split
  next recording =>
      rw [GraphData.onStartStopClicked_of_source (sourced recording)]
      simp [GraphData.resetGraphData, recording]
  next stopped => exact Bool.eq_false_iff.mpr stopped

/-- Test Mode switched off during a recording leaves it without a source. -/
theorem not_sourced_of_switchedOff (off : event.SwitchesTestOff)
    (recording : graph.isRecording = true) : ¬ Sourced (event.handle graph) := by
  cases event with
  | testToggled active sourceId =>
      cases off
      intro sourced
      simp only [UiEvent.handle, GraphData.onTestToggled, Bool.false_eq_true, if_false] at sourced
      split at sourced <;> simp [Sourced, recording] at sourced
  | sample | startStopClicked | timerTick | resetClicked => cases off

/-- Without a source the start button refuses, and a reset does not stop the recording. -/
theorem not_cleared_of_stranded (recording : graph.isRecording = true)
    (network : graph.hasDataInput = false) (test : graph.testMode = false) :
    graph.onResetClicked.isRecording = true := by
  simp [GraphData.onResetClicked, GraphData.onStartStopClicked, GraphData.resetGraphData,
    recording, network, test]

/-- Along the events a recording always has a source, and every reset clears. -/
structure Controlled (events : List UiEvent) : Prop where
  sourced : ∀ earlier, earlier <+: events → Sourced (run earlier)
  cleared : ∀ earlier, earlier ++ [.resetClicked] <+: events →
    Cleared (run (earlier ++ [.resetClicked]))

/-- Test Mode is switched off only while nothing is recorded. -/
def TestOutlastsRecording (events : List UiEvent) : Prop :=
  ∀ earlier event, earlier ++ [event] <+: events → event.SwitchesTestOff →
    (run earlier).isRecording = false

variable {events : List UiEvent}

/-- While Test Mode outlasts the recording, there is a source for it. -/
theorem TestOutlastsRecording.sourced (outlasts : TestOutlastsRecording events) :
    Sourced (run events) := by
  induction events using List.reverseRecOn with
  | nil => exact fun recording => nomatch recording
  | append_singleton events event ih =>
      rw [run_concat]
      apply (ih _).handle (outlasts events event (List.prefix_refl _))
      intro earlier first inside
      exact outlasts earlier first (inside.trans (List.prefix_append _ _))

/-- What outlasts all of it outlasts a part. -/
theorem TestOutlastsRecording.of_prefix {earlier : List UiEvent}
    (outlasts : TestOutlastsRecording events) (before : earlier <+: events) :
    TestOutlastsRecording earlier :=
  fun first event inside => outlasts first event (inside.trans before)

/-- The controls keep their promise exactly along the events which never switch
Test Mode off during a recording. -/
theorem controlled_iff_testOutlastsRecording (events : List UiEvent) :
    Controlled events ↔ TestOutlastsRecording events := by
  constructor
  · intro controlled earlier event inside off
    have after := controlled.sourced (earlier ++ [event]) inside
    rw [run_concat] at after
    rw [← Bool.not_eq_true]
    exact fun recording => not_sourced_of_switchedOff off recording after
  · intro outlasts
    refine ⟨fun earlier before => (outlasts.of_prefix before).sourced, fun earlier before => ?_⟩
    rw [run_concat]
    apply Sourced.cleared
    exact (outlasts.of_prefix ((List.prefix_append _ _).trans before)).sourced

/-- Test Mode on, start, Test Mode off. -/
def strandedRecording : List UiEvent :=
  [.testToggled true 1, .startStopClicked, .testToggled false 0]

/-- A recording whose source is gone cannot be stopped by a reset. -/
theorem not_controlled_strandedRecording :
    ¬ Controlled (strandedRecording ++ [.resetClicked]) := by
  intro controlled
  have cleared := controlled.cleared strandedRecording (List.prefix_refl _)
  have recording : (run (strandedRecording ++ [.resetClicked])).isRecording = true := by
    rw [run_concat]
    exact not_cleared_of_stranded rfl rfl rfl
  rw [cleared.stopped] at recording
  cases recording

end MotorStand
