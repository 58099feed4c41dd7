import MotorStand.Command.Handler
import MotorStand.Transition.System
import Mathlib.Logic.Function.Basic

/-!
# Command handlers beside the sampling loop

Any number of handler threads and the main thread share `tare` and `reset`. A
step is one atomic load, store or compare-exchange, one acknowledgement, or one
`reset_adc`; the steps of different threads interleave in any order.
-/

namespace MotorStand.Auxillary

open Transition

/-- Where a thread of `handle_auxillary_command` is. -/
inductive HandlerPc where
  | absent
  | loadExpected (msg : AuxillaryServerMsg)
  | compareExchange (msg : AuxillaryServerMsg) (expected : Nat)
  | storeTare (msg : AuxillaryServerMsg)
  | acknowledge (msg : AuxillaryServerMsg)
  | finished

/-- The `switch` over the type of the message which was read. -/
def HandlerPc.enter (msg : AuxillaryServerMsg) : HandlerPc :=
  if msg.type = AuxillaryOpType.opReset.code then .loadExpected msg
  else if msg.type = AuxillaryOpType.opTare.code then .storeTare msg
  else if msg.type = AuxillaryOpType.opAck.code then .acknowledge msg
  else .finished

/-- Where `main` is: before its loop, or in front of an access of the loop. -/
inductive MainPc where
  | starting
  | loadTare
  | testReset
  | loadExpected
  | compareExchange (expected : Nat)
  | callResetAdc
  | left
deriving DecidableEq

/-- All threads and what they share. -/
structure State where
  data : AuxillaryServerData
  main : MainPc
  handler : Nat → HandlerPc

/-- The state with one handler moved on. -/
def State.moveHandler (state : State) (h : Nat) (pc : HandlerPc) : State :=
  { state with handler := Function.update state.handler h pc }

/-- What a step does. -/
inductive Event where
  | receive (h : Nat) (msg : AuxillaryServerMsg)
  | handlerLoads (h : Nat)
  | handledReset (h : Nat)
  | retriesReset (h : Nat)
  | storesTare (h : Nat) (value : Nat)
  | acks (h : Nat) (msg : AuxillaryServerMsg)
  | failsAck (h : Nat)
  | startsAdc
  | loadsTare (value : Nat)
  | testsReset
  | loadsExpected
  | clearsReset
  | retriesClear
  | callsResetAdc
  | leaves

/-- The steps of the handlers and of `main`. -/
inductive Step : State → Event → State → Prop where
  | receive {state h} (msg : AuxillaryServerMsg) (new : state.handler h = .absent) :
      Step state (.receive h msg) (state.moveHandler h (.enter msg))
  | handlerLoads {state h msg} (here : state.handler h = .loadExpected msg) :
      Step state (.handlerLoads h) (state.moveHandler h (.compareExchange msg state.data.reset))
  | handledReset {state h msg expected} (here : state.handler h = .compareExchange msg expected)
      (equal : state.data.reset = expected) :
      Step state (.handledReset h)
        ({ state with data := { state.data with reset := 1 } }.moveHandler h (.acknowledge msg))
  | retriesReset {state h msg expected} (here : state.handler h = .compareExchange msg expected)
      (different : state.data.reset ≠ expected) :
      Step state (.retriesReset h) (state.moveHandler h (.loadExpected msg))
  | storesTare {state h msg} (here : state.handler h = .storeTare msg) :
      Step state (.storesTare h msg.value)
        ({ state with data := { state.data with tare := msg.value } }.moveHandler h
          (.acknowledge msg))
  | acks {state h msg} (here : state.handler h = .acknowledge msg) :
      Step state (.acks h msg) (state.moveHandler h .finished)
  -- the peer is gone: `write` fails and nobody reads the acknowledgement
  | failsAck {state h msg} (here : state.handler h = .acknowledge msg) :
      Step state (.failsAck h) (state.moveHandler h .finished)
  | startsAdc {state} (here : state.main = .starting) :
      Step state .startsAdc { state with main := .loadTare }
  | loadsTare {state} (here : state.main = .loadTare) :
      Step state (.loadsTare state.data.tare) { state with main := .testReset }
  | testsReset {state} (here : state.main = .testReset) :
      Step state .testsReset
        { state with main := if state.data.reset ≠ 0 then .loadExpected else .loadTare }
  | loadsExpected {state} (here : state.main = .loadExpected) :
      Step state .loadsExpected { state with main := .compareExchange state.data.reset }
  | clearsReset {state expected} (here : state.main = .compareExchange expected)
      (equal : state.data.reset = expected) :
      Step state .clearsReset
        { state with data := { state.data with reset := 0 }, main := .callResetAdc }
  | retriesClear {state expected} (here : state.main = .compareExchange expected)
      (different : state.data.reset ≠ expected) :
      Step state .retriesClear { state with main := .loadExpected }
  | callsResetAdc {state} (here : state.main = .callResetAdc) :
      Step state .callsResetAdc { state with main := .loadTare }
  -- `global` is only tested in front of an iteration
  | leaves {state} (here : state.main = .loadTare) :
      Step state .leaves { state with main := .left }

/-- `atomic_init` of the shared data, no handler yet, and `main` before its loop. -/
def initial : State := ⟨⟨0, 0⟩, .starting, fun _ => .absent⟩

/-- The server with its handlers. -/
def server : System State Event := ⟨(· = initial), Step⟩

/-! ## Events of a run -/

/-- A successful compare-exchange of a handler. -/
def Event.handles : Event → Bool
  | .handledReset _ => true
  | _ => false

/-- A successful compare-exchange of `main`. -/
def Event.clears : Event → Bool
  | .clearsReset => true
  | _ => false

/-- A call of `reset_adc` inside the loop. -/
def Event.resetsAdc : Event → Bool
  | .callsResetAdc => true
  | _ => false

/-- The content of `tare` after an event. -/
def Event.tareAfter (tare : Nat) : Event → Nat
  | .storesTare _ value => value
  | _ => tare

/-- The value of the last store to `tare`; 0.0 before the first. -/
def lastTare (events : List Event) : Nat := events.foldl Event.tareAfter 0

variable {events : List Event} {state next : State} {event : Event}

/-- The last event counts once, or not at all. -/
theorem countP_concat (counted : Event → Bool) (events : List Event) (event : Event) :
    (events ++ [event]).countP counted = events.countP counted + (counted event).toNat := by
  cases counts : counted event <;> simp [counts]

/-! ## The reset flag -/

/-- A clear whose `reset_adc` is still to come. -/
def MainPc.owed : MainPc → Nat
  | .callResetAdc => 1
  | _ => 0

/-- Between the test of the flag and its clear. -/
def MainPc.clearing : MainPc → Prop
  | .loadExpected => True
  | .compareExchange _ => True
  | _ => False

/-- The flag, the position of `main` and the events so far fit together. -/
structure FlagInvariant (events : List Event) (state : State) : Prop where
  flag : state.data.reset ≤ 1
  pending : state.data.reset + events.countP Event.clears ≤ events.countP Event.handles
  calls : events.countP Event.resetsAdc + state.main.owed = events.countP Event.clears
  raised : state.main.clearing → state.data.reset = 1
  exchanging : ∀ expected, state.main = .compareExchange expected → expected = 1

/-- Nothing has been asked for at the start. -/
theorem FlagInvariant.initial : FlagInvariant [] Auxillary.initial where
  flag := Nat.zero_le 1
  pending := le_refl 0
  calls := rfl
  raised := False.elim
  exchanging := by
    intro expected here
    cases here

/-- Steps which touch neither the flag nor `main` and are not counted. -/
theorem FlagInvariant.quiet (invariant : FlagInvariant events state)
    (reset : next.data.reset = state.data.reset) (main : next.main = state.main)
    (uncounted : event.handles = false ∧ event.clears = false ∧ event.resetsAdc = false) :
    FlagInvariant (events ++ [event]) next := by
  obtain ⟨handles, clears, resetsAdc⟩ := uncounted
  obtain ⟨flag, pending, calls, raised, exchanging⟩ := invariant
  constructor
  all_goals simp_all [List.countP_append]

/-- Steps of `main` alone which leave the flag, owe no call and are not counted. -/
theorem FlagInvariant.moveMain (invariant : FlagInvariant events state) {pc : MainPc}
    (idle : state.main.owed = 0 ∧ pc.owed = 0)
    (uncounted : event.handles = false ∧ event.clears = false ∧ event.resetsAdc = false)
    (raised : pc.clearing → state.data.reset = 1)
    (exchanging : ∀ expected, pc = .compareExchange expected → expected = 1) :
    FlagInvariant (events ++ [event]) { state with main := pc } := by
  obtain ⟨handles, clears, resetsAdc⟩ := uncounted
  obtain ⟨flag, pending, calls, -, -⟩ := invariant
  constructor
  all_goals simp_all [List.countP_append]

/-- Only `main` lowers the flag, so its compare-exchange finds what it expects. -/
theorem FlagInvariant.not_retries (invariant : FlagInvariant events state) {expected : Nat}
    (different : state.data.reset ≠ expected) : state.main ≠ .compareExchange expected := by
  intro here
  have raised := invariant.raised (by rw [here]; trivial)
  have one := invariant.exchanging expected here
  omega

/-- Every step keeps the account of the flag, by cases on the step. -/
theorem FlagInvariant.step (invariant : FlagInvariant events state)
    (transition : Step state event next) : FlagInvariant (events ++ [event]) next := by
  cases transition with
  | receive | handlerLoads | retriesReset | storesTare | acks | failsAck =>
      exact invariant.quiet rfl rfl ⟨rfl, rfl, rfl⟩
  | @handledReset h msg expected here equal =>
      obtain ⟨flag, pending, calls, raised, exchanging⟩ := invariant
      refine ⟨le_refl 1, ?_, ?_, fun _ => rfl, exchanging⟩
      · rw [countP_concat, countP_concat]
        change 1 + (_ + 0) ≤ _ + 1
        omega
      · rw [countP_concat, countP_concat]
        exact calls
  | startsAdc here | leaves here | loadsTare here =>
      exact invariant.moveMain ⟨by rw [here]; rfl, rfl⟩ ⟨rfl, rfl, rfl⟩ False.elim
        (fun _ same => by cases same)
  | testsReset here =>
      have flag := invariant.flag
      split_ifs with set
      · exact invariant.moveMain ⟨by rw [here]; rfl, rfl⟩ ⟨rfl, rfl, rfl⟩
          (fun _ => by omega) (fun _ same => by cases same)
      · exact invariant.moveMain ⟨by rw [here]; rfl, rfl⟩ ⟨rfl, rfl, rfl⟩ False.elim
          (fun _ same => by cases same)
  | loadsExpected here =>
      have raised := invariant.raised (by rw [here]; trivial)
      exact invariant.moveMain ⟨by rw [here]; rfl, rfl⟩ ⟨rfl, rfl, rfl⟩ (fun _ => raised)
        (fun _ same => by cases same; exact raised)
  | retriesClear here different => exact absurd here (invariant.not_retries different)
  | clearsReset here equal =>
      have raised := invariant.raised (by rw [here]; trivial)
      obtain ⟨flag, pending, calls, -, -⟩ := invariant
      rw [here] at calls
      refine ⟨Nat.zero_le 1, ?_, ?_, False.elim, fun _ same => by cases same⟩
      · rw [countP_concat, countP_concat]
        change 0 + (_ + 1) ≤ _ + 0
        omega
      · rw [countP_concat, countP_concat]
        exact congrArg (· + 1) calls
  | callsResetAdc here =>
      obtain ⟨flag, pending, calls, -, -⟩ := invariant
      rw [here] at calls
      refine ⟨flag, ?_, ?_, False.elim, fun _ same => by cases same⟩
      · rw [countP_concat, countP_concat]
        exact pending
      · rw [countP_concat, countP_concat]
        exact calls

/-- The account of the flag holds in every interleaving. -/
theorem flagInvariant (runs : Runs server events state) : FlagInvariant events state := by
  refine runs.invariant FlagInvariant ?_ ?_
  · rintro start rfl
    exact .initial
  · intro events state event next invariant transition
    exact invariant.step transition

/-- No `reset_adc` without a handled command. -/
theorem adcResets_le (runs : Runs server events state) :
    events.countP Event.resetsAdc ≤ events.countP Event.handles := by
  obtain ⟨flag, pending, calls, -, -⟩ := flagInvariant runs
  omega

/-- The loop of `main` around its compare-exchange runs once, whatever the handlers do. -/
theorem retriesClear_not_mem (runs : Runs server events state) : .retriesClear ∉ events := by
  intro retried
  obtain ⟨before, after, rfl⟩ := List.append_of_mem retried
  obtain ⟨reached, moved, earlier, transition, -, -⟩ := runs.cut
  cases transition with
  | retriesClear here different => exact (flagInvariant earlier).not_retries different here

/-- A request is in the flag, has been taken up by `main`, or has been served. -/
def ResetPending (after : List Event) (state : State) : Prop :=
  state.data.reset = 1 ∨ (.clearsReset ∈ after ∧ state.main = .callResetAdc) ∨
    .callsResetAdc ∈ after

variable {after : List Event} {h : Nat} {msg : AuxillaryServerMsg}

/-- Steps which touch neither the flag nor `main`. -/
theorem ResetPending.quiet (pending : ResetPending after state)
    (reset : next.data.reset = state.data.reset) (main : next.main = state.main) :
    ResetPending (after ++ [event]) next := by
  rcases pending with flag | ⟨cleared, here⟩ | called
  · exact .inl (reset.trans flag)
  · exact .inr (.inl ⟨List.mem_append_left _ cleared, main.trans here⟩)
  · exact .inr (.inr (List.mem_append_left _ called))

/-- Steps of `main` which keep the flag and are not the call. -/
theorem ResetPending.moveMain (pending : ResetPending after state) {pc : MainPc}
    (idle : state.main ≠ .callResetAdc) :
    ResetPending (after ++ [event]) { state with main := pc } := by
  rcases pending with flag | ⟨cleared, here⟩ | called
  · exact .inl flag
  · exact absurd here idle
  · exact .inr (.inr (List.mem_append_left _ called))

/-- A request stays pending until it is served. -/
theorem ResetPending.step (pending : ResetPending after state)
    (transition : Step state event next) : ResetPending (after ++ [event]) next := by
  cases transition with
  | receive | handlerLoads | retriesReset | storesTare | acks | failsAck =>
      exact pending.quiet rfl rfl
  | handledReset => exact .inl rfl
  | startsAdc here | loadsTare here | testsReset here | loadsExpected here
  | retriesClear here | leaves here =>
      exact pending.moveMain (by rw [here]; nofun)
  | clearsReset => exact .inr (.inl ⟨List.mem_append_right _ (List.mem_singleton_self _), rfl⟩)
  | callsResetAdc => exact .inr (.inr (List.mem_append_right _ (List.mem_singleton_self _)))

/-- Once handled, a reset is pending or served in every later state. -/
theorem resetPending_of_handled {before : List Event}
    (runs : Runs server (before ++ .handledReset h :: after) state) : ResetPending after state := by
  obtain ⟨handling, handled, -, transition, -, steps⟩ := runs.cut
  refine steps.invariant ResetPending ?_ ?_
  · cases transition
    exact .inl rfl
  · intro events state event next pending transition
    exact pending.step transition

/-! ## The tare -/

/-- What a handler has done so far accounts for where it is. -/
def Accounted (events : List Event) (h : Nat) : HandlerPc → Prop
  | .loadExpected msg | .compareExchange msg _ =>
      .receive h msg ∈ events ∧ msg.type = AuxillaryOpType.opReset.code
  | .storeTare msg => .receive h msg ∈ events ∧ msg.type = AuxillaryOpType.opTare.code
  | .acknowledge msg => .receive h msg ∈ events ∧
      (msg.type = AuxillaryOpType.opReset.code → .handledReset h ∈ events) ∧
      (msg.type = AuxillaryOpType.opTare.code → .storesTare h msg.value ∈ events)
  | .absent | .finished => True

/-- What must have happened before an event. -/
def Event.Explained (events : List Event) : Event → Prop
  | .handledReset h => ∃ msg, .receive h msg ∈ events ∧
      msg.type = AuxillaryOpType.opReset.code
  | .storesTare h value => ∃ msg, .receive h msg ∈ events ∧
      msg.type = AuxillaryOpType.opTare.code ∧ msg.value = value
  | .acks h msg => .receive h msg ∈ events ∧
      (msg.type = AuxillaryOpType.opReset.code → .handledReset h ∈ events) ∧
      (msg.type = AuxillaryOpType.opTare.code → .storesTare h msg.value ∈ events)
  | .loadsTare value => value = lastTare events
  | _ => True

/-- `tare` holds the last value stored, and every handler is accounted for. -/
structure CommandInvariant (events : List Event) (state : State) : Prop where
  content : state.data.tare = lastTare events
  accounted : ∀ h, Accounted events h (state.handler h)

/-- What happened before a further event has still happened. -/
theorem Accounted.mono {pc : HandlerPc} (accounted : Accounted events h pc) :
    Accounted (events ++ [event]) h pc := by
  cases pc with
  | absent | finished => trivial
  | loadExpected | compareExchange | storeTare =>
      exact ⟨List.mem_append_left _ accounted.1, accounted.2⟩
  | acknowledge =>
      obtain ⟨received, reset, tare⟩ := accounted
      exact ⟨List.mem_append_left _ received, fun type => List.mem_append_left _ (reset type),
        fun type => List.mem_append_left _ (tare type)⟩

/-- The last event decides about the tare, if it stores one. -/
theorem lastTare_concat : lastTare (events ++ [event]) = event.tareAfter (lastTare events) := by
  simp [lastTare]

/-- The account of a handler which is known to be somewhere. -/
theorem CommandInvariant.account (invariant : CommandInvariant events state) {pc : HandlerPc}
    (here : state.handler h = pc) : Accounted events h pc := by
  have accounted := invariant.accounted h
  rwa [here] at accounted

/-- A step of a handler. -/
theorem CommandInvariant.advance (invariant : CommandInvariant events state) {pc : HandlerPc}
    (tare : next.data.tare = event.tareAfter state.data.tare)
    (moved : next.handler = Function.update state.handler h pc)
    (accounted : Accounted (events ++ [event]) h pc) :
    CommandInvariant (events ++ [event]) next where
  content := by rw [tare, invariant.content, lastTare_concat]
  accounted := by
    intro other
    rw [moved]
    by_cases same : other = h
    · subst same
      rw [Function.update_self]
      exact accounted
    · rw [Function.update_of_ne same]
      exact (invariant.accounted other).mono

/-- A step of `main`. -/
theorem CommandInvariant.moveMain (invariant : CommandInvariant events state)
    (tare : next.data.tare = event.tareAfter state.data.tare)
    (unmoved : next.handler = state.handler) : CommandInvariant (events ++ [event]) next where
  content := by rw [tare, invariant.content, lastTare_concat]
  accounted := by
    intro other
    rw [unmoved]
    exact (invariant.accounted other).mono

/-- Where the `switch` leads is explained by the message. -/
theorem accounted_enter (events : List Event) (h : Nat) (msg : AuxillaryServerMsg) :
    Accounted (events ++ [.receive h msg]) h (.enter msg) := by
  have received : Event.receive h msg ∈ events ++ [.receive h msg] :=
    List.mem_append_right _ (List.mem_singleton_self _)
  unfold HandlerPc.enter
  split_ifs with reset tare ack
  · exact ⟨received, reset⟩
  · exact ⟨received, tare⟩
  · exact ⟨received, fun type => absurd type reset, fun type => absurd type tare⟩
  · trivial

/-- Every step keeps the account of the commands. -/
theorem CommandInvariant.step (invariant : CommandInvariant events state)
    (transition : Step state event next) : CommandInvariant (events ++ [event]) next := by
  cases transition with
  | receive => exact invariant.advance rfl rfl (accounted_enter ..)
  | handlerLoads here | retriesReset here =>
      have accounted := invariant.account here
      exact invariant.advance rfl rfl accounted.mono
  | handledReset here =>
      obtain ⟨received, reset⟩ := invariant.account here
      refine invariant.advance rfl rfl ⟨List.mem_append_left _ received, ?_, ?_⟩
      · intro _
        exact List.mem_append_right _ (List.mem_singleton_self _)
      · intro tare
        rw [reset] at tare
        cases tare
  | storesTare here =>
      obtain ⟨received, tare⟩ := invariant.account here
      refine invariant.advance rfl rfl ⟨List.mem_append_left _ received, ?_, ?_⟩
      · intro reset
        rw [tare] at reset
        cases reset
      · intro _
        exact List.mem_append_right _ (List.mem_singleton_self _)
  | acks | failsAck => exact invariant.advance rfl rfl trivial
  | startsAdc | loadsTare | testsReset | loadsExpected | clearsReset | retriesClear
  | callsResetAdc | leaves => exact invariant.moveMain rfl rfl

/-- The account of the commands holds in every interleaving. -/
theorem commandInvariant (runs : Runs server events state) : CommandInvariant events state := by
  refine runs.invariant CommandInvariant ?_ ?_
  · rintro start rfl
    exact ⟨rfl, fun _ => trivial⟩
  · intro events state event next invariant transition
    exact invariant.step transition

/-- A step is explained by the events before it. -/
theorem CommandInvariant.explained (invariant : CommandInvariant events state)
    (transition : Step state event next) : event.Explained events := by
  cases transition with
  | handledReset here => exact ⟨_, invariant.account here⟩
  | storesTare here =>
      obtain ⟨received, tare⟩ := invariant.account here
      exact ⟨_, received, tare, rfl⟩
  | acks here => exact invariant.account here
  | loadsTare here => exact invariant.content
  | receive | handlerLoads | retriesReset | failsAck | startsAdc | testsReset | loadsExpected
  | clearsReset | retriesClear | callsResetAdc | leaves => trivial

/-- Every event of a run is explained by the events before it. -/
theorem explained_of_runs {before : List Event}
    (runs : Runs server (before ++ event :: after) state) : event.Explained before := by
  obtain ⟨reached, moved, earlier, transition, -, -⟩ := runs.cut
  exact (commandInvariant earlier).explained transition

/-- After some events `tare` is as it was or as one of them stored it. -/
theorem foldl_tareAfter (events : List Event) (tare : Nat) :
    events.foldl Event.tareAfter tare = tare ∨
      ∃ h, .storesTare h (events.foldl Event.tareAfter tare) ∈ events := by
  induction events generalizing tare with
  | nil => exact .inl rfl
  | cons event events ih =>
      rw [List.foldl_cons]
      obtain same | ⟨h, stored⟩ := ih (event.tareAfter tare)
      · rw [same]
        cases event with
        | storesTare h value => exact .inr ⟨h, List.mem_cons_self⟩
        | _ => exact .inl rfl
      · exact .inr ⟨h, List.mem_cons_of_mem _ stored⟩

/-- What a load finds when a store is among the events before it. -/
theorem lastTare_of_store (h : Nat) (first rest : List Event) (value : Nat) :
    lastTare (first ++ .storesTare h value :: rest) = value ∨
      ∃ other, .storesTare other (lastTare (first ++ .storesTare h value :: rest)) ∈ rest := by
  unfold lastTare
  rw [List.foldl_append, List.foldl_cons]
  exact foldl_tareAfter rest value

/-- A load after the acknowledgement of a tare sees that tare or a later one. -/
theorem tare_of_acked {before between : List Event} {value : Nat}
    (type : msg.type = AuxillaryOpType.opTare.code)
    (runs : Runs server (before ++ .acks h msg :: (between ++ .loadsTare value :: after)) state) :
    ∃ earlier later, before = earlier ++ .storesTare h msg.value :: later ∧
      (value = msg.value ∨ ∃ other, .storesTare other value ∈ later ++ between) := by
  obtain ⟨-, -, stores⟩ := explained_of_runs runs
  obtain ⟨earlier, later, rfl⟩ := List.append_of_mem (stores type)
  refine ⟨earlier, later, rfl, ?_⟩
  have loaded : Runs server ((earlier ++ .storesTare h msg.value ::
      (later ++ .acks h msg :: between)) ++ .loadsTare value :: after) state := by
    simpa using runs
  have load := explained_of_runs loaded
  obtain own | ⟨other, stored⟩ := lastTare_of_store h earlier (later ++ .acks h msg :: between)
    msg.value
  · exact .inl (load.trans own)
  · rw [← load] at stored
    refine .inr ⟨other, ?_⟩
    simpa using stored

/-- Before the first store `tare` is 0.0. -/
theorem tare_of_unstored {before : List Event} {value : Nat}
    (unstored : ∀ h stored, .storesTare h stored ∉ before)
    (runs : Runs server (before ++ .loadsTare value :: after) state) : value = 0 := by
  have load : value = lastTare before := explained_of_runs runs
  obtain zero | ⟨other, stored⟩ := foldl_tareAfter before 0
  · exact load.trans zero
  · exact absurd stored (unstored other _)

/-! ## A handler alone -/

/-- A handler which is moved is where it was moved to. -/
@[simp] theorem handler_moveHandler (state : State) (h : Nat) (pc : HandlerPc) :
    (state.moveHandler h pc).handler h = pc :=
  Function.update_self ..

/-- Of two moves the second counts. -/
@[simp] theorem moveHandler_moveHandler (state : State) (h : Nat) (first second : HandlerPc) :
    (state.moveHandler h first).moveHandler h second = state.moveHandler h second := by
  simp [State.moveHandler]

/-- A reset starts with the load of the flag. -/
theorem enter_of_reset (type : msg.type = AuxillaryOpType.opReset.code) :
    HandlerPc.enter msg = .loadExpected msg :=
  if_pos type

/-- A tare starts with its store. -/
theorem enter_of_tare (type : msg.type = AuxillaryOpType.opTare.code) :
    HandlerPc.enter msg = .storeTare msg := by
  simp [HandlerPc.enter, type, AuxillaryOpType.code]

/-- An undisturbed handler changes the shared data as `handle_auxillary_command` does, and
acknowledges what it answers. -/
theorem handler_alone (msg : AuxillaryServerMsg) (new : state.handler h = .absent) :
    ∃ events, Steps server state events
        ({ state with data := (dispatch msg state.data).1 }.moveHandler h .finished) ∧
      (.acks h msg ∈ events ↔ (dispatch msg state.data).2.isSome) := by
  have received : Steps server state [.receive h msg] (state.moveHandler h (.enter msg)) :=
    Steps.refl.step (Step.receive msg new)
  unfold HandlerPc.enter at received
  unfold dispatch
  split_ifs at received ⊢ with reset tare ack
  · have loads := received.step (Step.handlerLoads (handler_moveHandler ..))
    have handles := loads.step (Step.handledReset (handler_moveHandler ..) rfl)
    have acknowledges := handles.step (Step.acks (handler_moveHandler ..))
    exact ⟨_, by simpa [State.moveHandler] using acknowledges, by simp⟩
  · have stores := received.step (Step.storesTare (handler_moveHandler ..))
    have acknowledges := stores.step (Step.acks (handler_moveHandler ..))
    exact ⟨_, by simpa [State.moveHandler] using acknowledges, by simp⟩
  · have acknowledges := received.step (Step.acks (handler_moveHandler ..))
    exact ⟨_, by simpa [State.moveHandler] using acknowledges, by simp⟩
  · exact ⟨_, received, by simp⟩

/-! ## No command is lost -/

/-- What clients can rely on after the events of a run. -/
structure NoCommandLost (events : List Event) (state : State) : Prop where
  reset : ∀ before h after, events = before ++ .handledReset h :: after →
    ResetPending after state
  calls : events.countP Event.resetsAdc ≤ events.countP Event.handles
  tare : ∀ before h msg between value after, msg.type = AuxillaryOpType.opTare.code →
    events = before ++ .acks h msg :: (between ++ .loadsTare value :: after) →
    ∃ earlier later, before = earlier ++ .storesTare h msg.value :: later ∧
      (value = msg.value ∨ ∃ other, .storesTare other value ∈ later ++ between)
  untared : ∀ before value after, events = before ++ .loadsTare value :: after →
    (∀ h stored, .storesTare h stored ∉ before) → value = 0

/-- In every interleaving of any number of handlers with `main`, no command is lost. -/
theorem noCommandLost (runs : Runs server events state) : NoCommandLost events state := by
  constructor
  · rintro before h after rfl
    exact resetPending_of_handled runs
  · exact adcResets_le runs
  · rintro before h msg between value after type rfl
    exact tare_of_acked type runs
  · rintro before value after rfl unstored
    exact tare_of_unstored unstored runs

/-- A reset and a tare arrive together; the reset is requested while `main` starts. -/
theorem noCommandLost_resetAndTare : ∃ state, NoCommandLost
    [.receive 0 (.make 0 0 (.replicate 4 0)), .receive 1 (.make 5 1 (.replicate 4 0)),
      .handlerLoads 0, .startsAdc, .storesTare 1 5, .handledReset 0,
      .acks 1 (.make 5 1 (.replicate 4 0)), .loadsTare 5, .testsReset, .loadsExpected,
      .clearsReset, .callsResetAdc] state := by
  have reset : HandlerPc.enter (.make 0 0 (.replicate 4 0)) = .loadExpected _ :=
    enter_of_reset (by decide)
  have tare : HandlerPc.enter (.make 5 1 (.replicate 4 0)) = .storeTare _ :=
    enter_of_tare (by decide)
  have begins : Steps server initial [] initial := .refl
  have received := begins.step (Step.receive (h := 0) (.make 0 0 (.replicate 4 0)) rfl)
  rw [reset] at received
  have both := received.step (Step.receive (h := 1) (.make 5 1 (.replicate 4 0)) rfl)
  rw [tare] at both
  have handled := (((both.step (Step.handlerLoads (h := 0) rfl)).step (Step.startsAdc rfl)).step
    (Step.storesTare (h := 1) rfl)).step (Step.handledReset (h := 0) rfl rfl)
  have loaded := (handled.step (Step.acks (h := 1) rfl)).step (Step.loadsTare rfl)
  have cleared := ((loaded.step (Step.testsReset rfl)).step (Step.loadsExpected rfl)).step
    (Step.clearsReset rfl rfl)
  exact ⟨_, noCommandLost ⟨initial, rfl, cleared.step (Step.callsResetAdc rfl)⟩⟩

end MotorStand.Auxillary
