import Mathlib.Data.List.Perm.Basic
import MotorStand.Transition.System
import MotorStand.Ui.Controls

/-!
# The main loop of `teststandui`

The network thread hands its samples to the main loop as idle handlers, and Test Mode registers
a timer there. Handlers and timers are dispatched between the clicks in any order.
-/

namespace MotorStand

open Transition

/-! ## What is recorded -/

/-- A recorder of values with the switches of the window. -/
structure Recorder where
  recording : Bool
  source : Bool
  test : Bool
  values : List ℚ
deriving DecidableEq

namespace Recorder

/-- Nothing is switched on. -/
def initial : Recorder := ⟨false, false, false, []⟩

/-- A value which arrives is recorded if the recorder is running. -/
def take (recorder : Recorder) (value : ℚ) : Recorder :=
  if recorder.recording then { recorder with values := recorder.values ++ [value] } else recorder

/-- Starting and stopping need a source. -/
def press (recorder : Recorder) : Recorder :=
  if recorder.source || recorder.test then { recorder with recording := !recorder.recording }
  else recorder

/-- What an event is for. -/
def next (recorder : Recorder) : UiEvent → Recorder
  | .sample value => { recorder with source := true }.take value
  | .startStopClicked => recorder.press
  | .testToggled active _ => { recorder with source := active, test := active }
  | .timerTick random => recorder.take (((random % 1000 : Nat) : ℚ) / 10)
  | .resetClicked =>
      { if recorder.recording then recorder.press else recorder with values := [] }

/-- The recorder after the events. -/
def run (events : List UiEvent) : Recorder := events.foldl next initial

/-- The last event comes last. -/
theorem run_concat (events : List UiEvent) (event : UiEvent) :
    run (events ++ [event]) = (run events).next event :=
  List.foldl_concat ..

end Recorder

/-- The window is a recorder which shows its values. -/
structure Refines (recorder : Recorder) (graph : GraphData) : Prop where
  recording : graph.isRecording = recorder.recording
  source : graph.hasDataInput = recorder.source
  test : graph.testMode = recorder.test
  shows : Shows recorder.values graph

namespace Refines

variable {recorder : Recorder} {graph : GraphData}

/-- A value is taken by both. -/
theorem take (refines : Refines recorder graph) (value : ℚ) :
    Refines (recorder.take value)
      (if graph.isRecording then graph.logNewData value else graph) := by
  unfold Recorder.take
  rw [refines.recording]
  split
  next => exact ⟨refines.recording, refines.source, refines.test, refines.shows.log value⟩
  next => exact refines

/-- The button does to both the same. -/
theorem press (refines : Refines recorder graph) :
    Refines recorder.press graph.onStartStopClicked := by
  have shows := refines.shows
  unfold Recorder.press GraphData.onStartStopClicked
  rw [show (recorder.source || recorder.test) = (graph.hasDataInput || graph.testMode) by
    rw [refines.source, refines.test]]
  cases source : graph.hasDataInput || graph.testMode with
  | false =>
      have none : (!graph.hasDataInput && !graph.testMode) = true := by
        rw [← Bool.not_or, source]
        rfl
      rw [if_pos none]
      exact refines
  | true =>
      have some : (!graph.hasDataInput && !graph.testMode) ≠ true := by
        rw [← Bool.not_or, source]
        decide
      rw [if_neg some, if_pos rfl]
      exact ⟨congrArg Bool.not refines.recording, refines.source, refines.test,
        ⟨shows.time, shows.data, shows.listStore, shows.newest, shows.scaled⟩⟩

/-- Every event does to the window what it is for. -/
theorem handle (refines : Refines recorder graph) (event : UiEvent) :
    Refines (recorder.next event) (event.handle graph) := by
  have shows := refines.shows
  cases event with
  | sample value =>
      have marked : Refines { recorder with source := true } { graph with hasDataInput := true } :=
        ⟨refines.recording, rfl, refines.test,
          ⟨shows.time, shows.data, shows.listStore, shows.newest, shows.scaled⟩⟩
      exact marked.take value
  | startStopClicked => exact refines.press
  | testToggled active sourceId =>
      rw [UiEvent.handle, GraphData.onTestToggled]
      cases active with
      | true =>
          exact ⟨refines.recording, rfl, rfl,
            ⟨shows.time, shows.data, shows.listStore, shows.newest, shows.scaled⟩⟩
      | false =>
          dsimp only
          rw [if_neg Bool.false_ne_true]
          split <;> exact ⟨refines.recording, rfl, rfl,
            ⟨shows.time, shows.data, shows.listStore, shows.newest, shows.scaled⟩⟩
  | timerTick random =>
      have taken := refines.take (((random % 1000 : Nat) : ℚ) / 10)
      rw [UiEvent.handle, GraphData.testTimerCb]
      cases recording : graph.isRecording with
      | false =>
          rw [recording] at taken
          exact taken
      | true =>
          rw [recording] at taken
          exact taken
  | resetClicked =>
      have stopped : Refines (if recorder.recording then recorder.press else recorder)
          (if graph.isRecording then graph.onStartStopClicked else graph) := by
        rw [refines.recording]
        split
        next => exact refines.press
        next => exact refines
      exact ⟨stopped.recording, stopped.source, stopped.test, .reset _⟩

end Refines

/-- The window is the recorder after any events, by induction on them. -/
theorem refines_run (events : List UiEvent) : Refines (Recorder.run events) (UiEvent.run events) := by
  induction events using List.reverseRecOn with
  | nil => exact ⟨rfl, rfl, rfl, shows_initial⟩
  | append_singleton events event ih =>
      rw [Recorder.run_concat, UiEvent.run_concat]
      exact ih.handle event

/-! ## Idle handlers and timers -/

/-- What the main loop has to dispatch. -/
structure MainLoop where
  graph : GraphData
  /-- The check button of Test Mode. -/
  active : Bool
  /-- The `value_tare` of every `IdleOutput` whose handler was added and did not run yet. -/
  pending : List ℚ
  /-- The timers which call `test_timer_cb`. -/
  timers : List Nat

/-- A call of one of the two threads. -/
inductive LoopEvent where
  /-- `on_tick_timer` on the network thread; `malloc` may fail. -/
  | onTickTimer (valueTare : ℚ) (allocated : Bool)
  | idle (valueTare : ℚ)
  | timer (random : Nat)
  | startStop
  | reset
  | toggle (active : Bool) (sourceId : Nat)
deriving DecidableEq

namespace LoopEvent

/-- The handler which is called. -/
def uiEvent : LoopEvent → Option UiEvent
  | .onTickTimer _ _ => none
  | .idle valueTare => some (.sample valueTare)
  | .timer random => some (.timerTick random)
  | .startStop => some .startStopClicked
  | .reset => some .resetClicked
  | .toggle active sourceId => some (.testToggled active sourceId)

/-- The sample which is handed over. -/
def posted : LoopEvent → Option ℚ
  | .onTickTimer valueTare true => some valueTare
  | _ => none

/-- A click on the button of Test Mode. -/
def toggles : LoopEvent → Bool
  | .toggle _ _ => true
  | _ => false

end LoopEvent

/-- The steps of the two threads. -/
inductive LoopStep : MainLoop → LoopEvent → MainLoop → Prop where
  | posts {loop} (valueTare : ℚ) :
      LoopStep loop (.onTickTimer valueTare true)
        { loop with pending := loop.pending ++ [valueTare] }
  -- without memory the sample is dropped
  | drops {loop} (valueTare : ℚ) : LoopStep loop (.onTickTimer valueTare false) loop
  -- the handler frees its sample and is removed
  | idle {loop valueTare} (member : valueTare ∈ loop.pending) :
      LoopStep loop (.idle valueTare)
        { loop with
          graph := loop.graph.idleHandleOutput valueTare
          pending := loop.pending.erase valueTare }
  | timer {loop id} (registered : id ∈ loop.timers) (random : Nat) :
      LoopStep loop (.timer random) { loop with graph := loop.graph.testTimerCb random }
  | startStop {loop} :
      LoopStep loop .startStop { loop with graph := loop.graph.onStartStopClicked }
  | reset {loop} : LoopStep loop .reset { loop with graph := loop.graph.onResetClicked }
  -- a source's id is not 0
  | toggleOn {loop sourceId} (off : loop.active = false) (positive : sourceId ≠ 0) :
      LoopStep loop (.toggle true sourceId)
        { loop with
          graph := loop.graph.onTestToggled true sourceId
          active := true
          timers := sourceId :: loop.timers }
  | toggleOff {loop} (on : loop.active = true) (sourceId : Nat) :
      LoopStep loop (.toggle false sourceId)
        { loop with
          graph := loop.graph.onTestToggled false sourceId
          active := false
          timers := if loop.graph.testTimerId ≠ 0 then loop.timers.erase loop.graph.testTimerId
            else loop.timers }

/-- The window from its start. -/
def mainLoop : System MainLoop LoopEvent := ⟨(· = ⟨.initial, false, [], []⟩), LoopStep⟩

variable {events : List LoopEvent} {loop next : MainLoop} {event : LoopEvent}

/-- What a step does to the window, the handlers of the window do. -/
theorem LoopStep.graph (step : LoopStep loop event next) :
    next.graph = event.uiEvent.elim loop.graph (·.handle loop.graph) := by
  cases step <;> rfl

/-- Only its button changes Test Mode. -/
theorem UiEvent.handle_test (graph : GraphData) (event : UiEvent)
    (other : ∀ active sourceId, event ≠ .testToggled active sourceId) :
    (event.handle graph).testMode = graph.testMode ∧
      (event.handle graph).testTimerId = graph.testTimerId := by
  cases event with
  | sample valueTare =>
      rw [handle, GraphData.idleHandleOutput]
      dsimp only
      split <;> exact ⟨rfl, rfl⟩
  | timerTick random =>
      rw [handle, GraphData.testTimerCb]
      split <;> exact ⟨rfl, rfl⟩
  | startStopClicked =>
      rw [handle, GraphData.onStartStopClicked]
      split <;> exact ⟨rfl, rfl⟩
  | resetClicked =>
      rw [handle, GraphData.onResetClicked, GraphData.onStartStopClicked]
      dsimp only [GraphData.resetGraphData]
      split
      next => split <;> exact ⟨rfl, rfl⟩
      next => exact ⟨rfl, rfl⟩
  | testToggled active sourceId => exact absurd rfl (other active sourceId)

/-- The loop and the window agree about Test Mode: its timer is the only one. -/
structure OneTimer (events : List LoopEvent) (loop : MainLoop) : Prop where
  mode : loop.graph.testMode = loop.active
  odd : loop.active = decide (events.countP LoopEvent.toggles % 2 = 1)
  timers : loop.timers = if loop.active then [loop.graph.testTimerId] else []
  id : loop.graph.testTimerId ≠ 0 ↔ loop.active = true

namespace OneTimer

/-- What leaves Test Mode alone. -/
theorem keep (one : OneTimer events loop) (other : event.toggles = false)
    (test : next.graph.testMode = loop.graph.testMode ∧
      next.graph.testTimerId = loop.graph.testTimerId)
    (active : next.active = loop.active) (timers : next.timers = loop.timers) :
    OneTimer (events ++ [event]) next where
  mode := by rw [test.1, active, one.mode]
  odd := by
    have count : (events ++ [event]).countP LoopEvent.toggles = events.countP LoopEvent.toggles := by
      simp [other]
    rw [active, count, one.odd]
  timers := by rw [timers, active, test.2, one.timers]
  id := by rw [test.2, active, one.id]

/-- Every click on its button changes the parity. -/
theorem parity (events : List LoopEvent) (active : Bool) (sourceId : Nat) :
    decide ((events ++ [LoopEvent.toggle active sourceId]).countP LoopEvent.toggles % 2 = 1) =
      !decide (events.countP LoopEvent.toggles % 2 = 1) := by
  rw [List.countP_append, List.countP_singleton, LoopEvent.toggles, if_pos rfl]
  by_cases odd : events.countP LoopEvent.toggles % 2 = 1
  · rw [decide_eq_true odd]
    exact decide_eq_false (by omega)
  · rw [decide_eq_false odd]
    exact decide_eq_true (by omega)

/-- Every step keeps the account of the timers. -/
theorem step (one : OneTimer events loop) (step : LoopStep loop event next) :
    OneTimer (events ++ [event]) next := by
  cases step with
  | posts | drops => exact one.keep rfl ⟨rfl, rfl⟩ rfl rfl
  | idle member => exact one.keep rfl (UiEvent.handle_test _ (.sample _) nofun) rfl rfl
  | timer registered random =>
      exact one.keep rfl (UiEvent.handle_test _ (.timerTick random) nofun) rfl rfl
  | startStop =>
      exact one.keep rfl (UiEvent.handle_test _ .startStopClicked nofun) rfl rfl
  | reset => exact one.keep rfl (UiEvent.handle_test _ .resetClicked nofun) rfl rfl
  | toggleOn off positive =>
      have none := one.timers
      rw [off, if_neg Bool.false_ne_true] at none
      exact {
        mode := rfl
        odd := by
          rw [parity, ← one.odd, off]
          rfl
        timers := by
          rw [none]
          rfl
        id := by simpa [GraphData.onTestToggled] using positive }
  | toggleOff on sourceId =>
      have single := one.timers
      rw [on, if_pos rfl] at single
      have registered := one.id.mpr on
      have switched : loop.graph.onTestToggled false sourceId =
          { loop.graph with testMode := false, hasDataInput := false, testTimerId := 0 } := by
        simp [GraphData.onTestToggled, registered]
      exact {
        mode := by rw [switched]
        odd := by
          rw [parity, ← one.odd, on]
          rfl
        timers := by
          rw [if_pos registered, single, List.erase_cons_head]
          rfl
        id := by simp [switched] }

end OneTimer

/-- The window has seen the events which were dispatched, and no others. -/
theorem graph_of_runs (runs : Runs mainLoop events loop) :
    loop.graph = UiEvent.run (events.filterMap LoopEvent.uiEvent) := by
  apply runs.invariant fun events loop =>
    loop.graph = UiEvent.run (events.filterMap LoopEvent.uiEvent)
  · rintro start rfl
    rfl
  · intro events loop event next same step
    rw [step.graph, List.filterMap_append, same]
    cases handled : event.uiEvent with
    | none =>
        rw [List.filterMap_cons_none handled, List.filterMap_nil, List.append_nil]
        rfl
    | some handler =>
        rw [List.filterMap_cons_some handled, List.filterMap_nil, UiEvent.run_concat]
        rfl

/-- Two samples of which the later one is dispatched first, and a tick of Test Mode. -/
def crossedSamples : List LoopEvent :=
  [.onTickTimer 1 true, .onTickTimer 2 true, .toggle true 7, .startStop, .idle 2, .timer 35,
    .idle 1]

/-- A run with two samples which cross. -/
theorem runs_crossedSamples : ∃ loop, Runs mainLoop crossedSamples loop ∧
    loop.graph.data.map (·.yValue) = [2, 35 / 10, 1] := by
  have begins : Steps mainLoop ⟨.initial, false, [], []⟩ [] ⟨.initial, false, [], []⟩ := .refl
  have posted := (begins.step (LoopStep.posts 1)).step (LoopStep.posts 2)
  have started := (posted.step (LoopStep.toggleOn rfl (by decide : 7 ≠ 0))).step .startStop
  have second := started.step (LoopStep.idle (by decide : (2 : ℚ) ∈ [1, 2]))
  have ticked := second.step (LoopStep.timer (by decide : 7 ∈ [7]) 35)
  have first := ticked.step (LoopStep.idle (by decide : (1 : ℚ) ∈ [1, 2].erase 2))
  exact ⟨_, ⟨_, rfl, first⟩, by decide +kernel⟩

end MotorStand
