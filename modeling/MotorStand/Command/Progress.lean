import MotorStand.Command.Interleaving

/-!
# Progress of the handlers and of `main`

Handlers retry a compare-exchange which another thread has overtaken. No retry is without
such a thread, no handler needs the others to finish, and `main` is never more than one
sample away from a reset it was asked for.
-/

namespace MotorStand.Auxillary

open Transition

/-- The threads of the server. -/
inductive Thread where
  | handler (h : Nat)
  | main
deriving DecidableEq

/-- The thread which takes a step. -/
def Event.thread : Event → Thread
  | .receive h _ | .handlerLoads h | .handledReset h | .retriesReset h | .storesTare h _
  | .acks h _ | .failsAck h => .handler h
  | .startsAdc | .loadsTare _ | .testsReset | .loadsExpected | .clearsReset | .retriesClear
  | .callsResetAdc | .leaves => .main

/-- A compare-exchange of handler `h` which failed. -/
def Event.retries (h : Nat) : Event → Bool
  | .retriesReset other => other = h
  | _ => false

/-- A successful compare-exchange of any thread. -/
def Event.exchanges (event : Event) : Bool := event.handles || event.clears

/-- A load of `tare`, of which every round of the loop makes one for its sample. -/
def Event.samples : Event → Bool
  | .loadsTare _ => true
  | _ => false

/-- A step of `main`. -/
def Event.ofMain (event : Event) : Bool := event.thread = .main

variable {events before after : List Event} {state next : State} {event : Event} {h : Nat}

/-! ## Retries -/

/-- Handler `h` will find the flag different from what it expects. -/
def HandlerPc.overtaken (flag : Nat) : HandlerPc → Nat
  | .compareExchange _ expected => if flag = expected then 0 else 1
  | _ => 0

/-- A handler is overtaken once at a time. -/
theorem HandlerPc.overtaken_le (flag : Nat) (pc : HandlerPc) : pc.overtaken flag ≤ 1 := by
  cases pc with
  | compareExchange msg expected =>
      rw [overtaken]
      split_ifs <;> decide
  | _ => exact Nat.zero_le 1

/-- A handler which starts has nothing to be overtaken in. -/
theorem overtaken_enter (flag : Nat) (msg : AuxillaryServerMsg) :
    (HandlerPc.enter msg).overtaken flag = 0 := by
  unfold HandlerPc.enter
  split_ifs <;> rfl

/-- A handler which stands somewhere else than in front of its compare-exchange is not
overtaken, and the others stay where they are. -/
theorem overtaken_moveHandler (state : State) {other : Nat} {pc : HandlerPc} (flag : Nat)
    (idle : pc.overtaken flag = 0) :
    ((state.moveHandler other pc).handler h).overtaken flag ≤ (state.handler h).overtaken flag := by
  by_cases same : h = other
  · subst same
    rw [handler_moveHandler, idle]
    exact Nat.zero_le _
  · have kept : (state.moveHandler other pc).handler h = state.handler h :=
      Function.update_of_ne same ..
    rw [kept]

/-- A retry uses up an exchange which overtook the handler. -/
theorem retries_covered (h : Nat) (transition : Step state event next) :
    (event.retries h).toNat + (next.handler h).overtaken next.data.reset ≤
      (state.handler h).overtaken state.data.reset + event.exchanges.toNat := by
  have quiet (unretried : event.retries h = false)
      (kept : (next.handler h).overtaken next.data.reset ≤
        (state.handler h).overtaken state.data.reset) :
      (event.retries h).toNat + (next.handler h).overtaken next.data.reset ≤
        (state.handler h).overtaken state.data.reset + event.exchanges.toNat := by
    rw [unretried, Bool.toNat_false]
    omega
  cases transition with
  | receive msg new => exact quiet rfl (overtaken_moveHandler state _ (overtaken_enter ..))
  | handlerLoads here => exact quiet rfl (overtaken_moveHandler state _ (if_pos rfl))
  | storesTare | acks | failsAck => exact quiet rfl (overtaken_moveHandler state _ rfl)
  | startsAdc | loadsTare | testsReset | loadsExpected | retriesClear | callsResetAdc | leaves =>
      exact quiet rfl (Nat.le_refl _)
  | handledReset | clearsReset =>
      -- an exchange overtakes the handler at most once
      refine Nat.le_trans (Nat.add_le_add_left (HandlerPc.overtaken_le _ _) _) ?_
      simp [Event.retries, Event.exchanges, Event.handles, Event.clears]
  | @retriesReset other msg expected here different =>
      by_cases same : other = h
      · subst same
        rw [handler_moveHandler, here]
        simp [Event.retries, HandlerPc.overtaken, different]
      · exact quiet (decide_eq_false same) (overtaken_moveHandler state _ rfl)

/-- An exchange is one of a handler or of `main`. -/
theorem countP_exchanges (events : List Event) :
    events.countP Event.exchanges =
      events.countP Event.handles + events.countP Event.clears := by
  induction events with
  | nil => rfl
  | cons event events ih =>
      simp only [List.countP_cons, ih]
      cases event <;> simp only [Event.exchanges, Event.handles, Event.clears] <;> simp <;> omega

/-- A handler retries at most twice for every reset which the handlers have handled. -/
theorem retries_le (runs : Runs server events state) (h : Nat) :
    events.countP (Event.retries h) ≤ 2 * events.countP Event.handles := by
  have invariant := flagInvariant runs
  obtain ⟨start, rfl, steps⟩ := runs
  have covered := steps.countP_le (fun state => (state.handler h).overtaken state.data.reset)
    (Event.retries h) Event.exchanges fun _ _ _ transition => retries_covered h transition
  have none : (initial.handler h).overtaken initial.data.reset = 0 := rfl
  have pending := invariant.pending
  rw [none, countP_exchanges] at covered
  omega

/-! ## The way to `reset_adc` -/

/-- The steps of `main` up to and including its next `reset_adc`, if the flag is set. -/
def MainPc.rank : MainPc → Nat
  | .starting => 6
  | .loadTare => 5
  | .testReset => 4
  | .loadExpected => 3
  | .compareExchange _ => 2
  | .callResetAdc => 1
  | .left => 0

/-- The samples `main` takes on this way. -/
def MainPc.samplesLeft : MainPc → Nat
  | .starting | .loadTare => 1
  | _ => 0

/-- What is left of the way after some events in which `reset_adc` was not called. -/
structure Unserved (after : List Event) (state : State) : Prop where
  pending : state.data.reset = 1 ∨ state.main = .callResetAdc
  steps : after.countP Event.ofMain + state.main.rank ≤ 6
  samples : after.countP Event.samples + state.main.samplesLeft ≤ 1

/-- After a handled reset the call was made, the loop was left, or the way is short. -/
def Served (after : List Event) (state : State) : Prop :=
  .callsResetAdc ∈ after ∨ state.main = .left ∨ Unserved after state

/-- A raised flag is on its way to be served. -/
theorem served_of_handled (state : State) (raised : state.data.reset = 1) : Served [] state := by
  refine .inr (.inr ⟨.inl raised, ?_, ?_⟩)
  · cases state.main <;> simp [MainPc.rank]
  · cases state.main <;> simp [MainPc.samplesLeft]

/-- Steps of the handlers leave `main` where it is and do not lower the flag. -/
theorem Served.quiet (served : Served after state) (main : next.main = state.main)
    (raised : state.data.reset = 1 → next.data.reset = 1)
    (uncounted : event.ofMain = false ∧ event.samples = false) :
    Served (after ++ [event]) next := by
  obtain ⟨ofMain, samples⟩ := uncounted
  rcases served with called | left | ⟨pending, steps, sampled⟩
  · exact .inl (List.mem_append_left _ called)
  · exact .inr (.inl (main.trans left))
  · refine .inr (.inr ⟨pending.imp raised main.trans, ?_, ?_⟩)
    · rw [countP_concat, ofMain, main]
      exact steps
    · rw [countP_concat, samples, main]
      exact sampled

/-- A step of `main` towards the call. -/
theorem Served.advance (served : Served after state) {pc : MainPc}
    (inside : state.main ≠ .left) (ofMain : event.ofMain = true)
    (nearer : pc.rank + 1 ≤ state.main.rank)
    (sampled : event.samples.toNat + pc.samplesLeft ≤ state.main.samplesLeft)
    (main : next.main = pc)
    (pending : Unserved after state → next.data.reset = 1 ∨ pc = .callResetAdc) :
    Served (after ++ [event]) next := by
  rcases served with called | left | unserved
  · exact .inl (List.mem_append_left _ called)
  · exact absurd left inside
  · have steps := unserved.steps
    have samples := unserved.samples
    subst main
    refine .inr (.inr ⟨pending unserved, ?_, ?_⟩)
    · rw [countP_concat, ofMain, Bool.toNat_true]
      omega
    · rw [countP_concat]
      omega

/-- A request which `main` has not taken up yet is in the flag. -/
theorem Unserved.raised (unserved : Unserved after state) (idle : state.main ≠ .callResetAdc) :
    state.data.reset = 1 :=
  unserved.pending.resolve_right idle

/-- Every step keeps a request on its way, and those of `main` bring it nearer. -/
theorem Served.step (served : Served after state) (invariant : FlagInvariant events state)
    (transition : Step state event next) : Served (after ++ [event]) next := by
  cases transition with
  | receive | handlerLoads | retriesReset | storesTare | acks | failsAck =>
      exact served.quiet rfl id ⟨rfl, rfl⟩
  | handledReset => exact served.quiet rfl (fun _ => rfl) ⟨rfl, rfl⟩
  | startsAdc here | loadsTare here | loadsExpected here =>
      refine served.advance (by rw [here]; nofun) rfl ?_ ?_ rfl fun unserved =>
        .inl (unserved.raised (by rw [here]; nofun))
      · rw [here]
        exact Nat.le_refl _
      · rw [here]
        exact Nat.le_refl _
  | testsReset here =>
      rcases served with called | left | unserved
      · exact .inl (List.mem_append_left _ called)
      · rw [here] at left
        cases left
      · have raised := unserved.raised (by rw [here]; nofun)
        have taken : (if state.data.reset ≠ 0 then MainPc.loadExpected else .loadTare) =
            .loadExpected := if_pos (by omega)
        have served : Served after state := .inr (.inr unserved)
        refine served.advance (by rw [here]; nofun) rfl ?_ ?_ taken fun _ => .inl raised
        · rw [here]
          exact Nat.le_refl _
        · rw [here]
          exact Nat.le_refl _
  | clearsReset here =>
      refine served.advance (by rw [here]; nofun) rfl ?_ ?_ rfl fun _ => .inr rfl
      · rw [here]
        exact Nat.le_refl _
      · rw [here]
        exact Nat.le_refl _
  | retriesClear here different => exact absurd here (invariant.not_retries different)
  | callsResetAdc => exact .inl (List.mem_append_right _ (List.mem_singleton_self _))
  | leaves => exact .inr (.inl rfl)

/-- A reset which was handled is on its way, whatever came after. -/
theorem served_of_runs (runs : Runs server (before ++ .handledReset h :: after) state) :
    Served after state := by
  obtain ⟨handling, handled, -, transition, earlier, steps⟩ := runs.cut
  have both := steps.invariant (fun after state =>
    FlagInvariant ((before ++ [.handledReset h]) ++ after) state ∧ Served after state) ?_ ?_
  · exact both.2
  · rw [List.append_nil]
    refine ⟨flagInvariant earlier, served_of_handled _ ?_⟩
    cases transition
    rfl
  · rintro after state event next ⟨invariant, served⟩ transition
    rw [← List.append_assoc]
    exact ⟨invariant.step transition, served.step invariant transition⟩

/-- While the server runs, a handled reset waits for at most five steps of `main` and one
sample. The handlers' retries are paid for by the resets they have handled, and `main` never
retries. A command whose handler is not disturbed has the effect of `handle_auxillary_command`. -/
structure Responsive (events : List Event) (state : State) : Prop where
  served : ∀ before h after, events = before ++ .handledReset h :: after →
    state.main ≠ .left → .callsResetAdc ∉ after →
    after.countP Event.ofMain ≤ 5 ∧ after.countP Event.samples ≤ 1
  retries : ∀ h, events.countP (Event.retries h) ≤ 2 * events.countP Event.handles
  once : .retriesClear ∉ events
  undisturbed : ∀ h msg, state.handler h = .absent → ∃ more, Steps server state more
      ({ state with data := (dispatch msg state.data).1 }.moveHandler h .finished) ∧
    (.acks h msg ∈ more ↔ (dispatch msg state.data).2.isSome)

/-- In every interleaving. -/
theorem responsive (runs : Runs server events state) : Responsive events state := by
  constructor
  · rintro before h after rfl running unserved
    rcases served_of_runs runs with called | left | ⟨pending, steps, sampled⟩
    · exact absurd called unserved
    · exact absurd left running
    · have positive : 1 ≤ state.main.rank := by
        revert running
        cases state.main <;> simp [MainPc.rank]
      omega
  · exact retries_le runs
  · exact retriesClear_not_mem runs
  · exact fun h msg new => handler_alone msg new

/-- Two resets arrive together; the second handler is overtaken by the first. -/
theorem responsive_twoResets : ∃ state, Responsive
    [.receive 0 (.make 0 0 (.replicate 4 0)), .receive 1 (.make 0 0 (.replicate 4 0)),
      .handlerLoads 0, .handlerLoads 1, .startsAdc, .handledReset 0, .retriesReset 1, .loadsTare 0,
      .testsReset] state := by
  have reset : HandlerPc.enter (.make 0 0 (.replicate 4 0)) = .loadExpected _ :=
    enter_of_reset (by decide)
  have begins : Steps server initial [] initial := .refl
  have received := begins.step (Step.receive (h := 0) (.make 0 0 (.replicate 4 0)) rfl)
  rw [reset] at received
  have both := received.step (Step.receive (h := 1) (.make 0 0 (.replicate 4 0)) rfl)
  rw [reset] at both
  have loaded := ((both.step (Step.handlerLoads (h := 0) rfl)).step
    (Step.handlerLoads (h := 1) rfl)).step (Step.startsAdc rfl)
  have overtaken := (loaded.step (Step.handledReset (h := 0) rfl rfl)).step
    (Step.retriesReset (h := 1) rfl Nat.one_ne_zero)
  have tested := (overtaken.step (Step.loadsTare rfl)).step (Step.testsReset rfl)
  exact ⟨_, responsive ⟨initial, rfl, tested⟩⟩

/-! ## Threads which run alone -/

/-- Steps of one thread. -/
structure Alone (thread : Thread) (state : State) (events : List Event) (next : State) : Prop where
  steps : Steps server state events next
  own : ∀ event ∈ events, event.thread = thread

variable {thread : Thread}

/-- No step at all. -/
theorem Alone.refl (state : State) : Alone thread state [] state :=
  ⟨.refl, by simp⟩

/-- One more step of the thread. -/
theorem Alone.step {middle : State} (alone : Alone thread state events middle)
    (transition : Step middle event next) (own : event.thread = thread) :
    Alone thread state (events ++ [event]) next := by
  refine ⟨alone.steps.step transition, fun other member => ?_⟩
  rcases List.mem_append.mp member with earlier | last
  · exact alone.own other earlier
  · rw [List.mem_singleton.mp last]
    exact own

/-- From its acknowledgement a handler finishes. -/
theorem Alone.acks {middle : State} {msg : AuxillaryServerMsg}
    (alone : Alone (.handler h) state events middle) (here : middle.handler h = .acknowledge msg) :
    ∃ next, Alone (.handler h) state (events ++ [.acks h msg]) next ∧ next.handler h = .finished :=
  ⟨_, alone.step (Step.acks here) rfl, handler_moveHandler ..⟩

/-- Undisturbed, the compare-exchange succeeds at once. -/
theorem Alone.exchanges {middle : State} {msg : AuxillaryServerMsg}
    (alone : Alone (.handler h) state events middle) (here : middle.handler h = .loadExpected msg) :
    ∃ next, Alone (.handler h) state
        (events ++ [.handlerLoads h] ++ [.handledReset h] ++ [.acks h msg]) next ∧
      next.handler h = .finished := by
  have loaded := alone.step (Step.handlerLoads here) rfl
  have handled := loaded.step (Step.handledReset (handler_moveHandler ..) rfl) rfl
  exact handled.acks (handler_moveHandler ..)

/-- A handler needs no other thread to finish, wherever it stands. -/
theorem handler_finishes (state : State) (arrived : state.handler h ≠ .absent) :
    ∃ events next, Alone (.handler h) state events next ∧ events.length ≤ 4 ∧
      next.handler h = .finished := by
  have begins : Alone (.handler h) state [] state := .refl state
  cases here : state.handler h with
  | absent => exact absurd here arrived
  | finished => exact ⟨[], state, begins, Nat.zero_le 4, here⟩
  | acknowledge msg =>
      obtain ⟨next, alone, finished⟩ := begins.acks here
      exact ⟨_, next, alone, by simp, finished⟩
  | storeTare msg =>
      have stored := begins.step (Step.storesTare here) rfl
      obtain ⟨next, alone, finished⟩ := stored.acks (handler_moveHandler ..)
      exact ⟨_, next, alone, by simp, finished⟩
  | loadExpected msg =>
      obtain ⟨next, alone, finished⟩ := begins.exchanges here
      exact ⟨_, next, alone, by simp, finished⟩
  | compareExchange msg expected =>
      by_cases equal : state.data.reset = expected
      · have handled := begins.step (Step.handledReset here equal) rfl
        obtain ⟨next, alone, finished⟩ := handled.acks (handler_moveHandler ..)
        exact ⟨_, next, alone, by simp, finished⟩
      · have retried := begins.step (Step.retriesReset here equal) rfl
        obtain ⟨next, alone, finished⟩ := retried.exchanges (handler_moveHandler ..)
        exact ⟨_, next, alone, by simp, finished⟩

/-- From its load of the flag `main` lowers it and calls `reset_adc`. -/
theorem Alone.resets {middle : State} (alone : Alone .main state events middle)
    (here : middle.main = .loadExpected) :
    ∃ next, Alone .main state
        (events ++ [.loadsExpected] ++ [.clearsReset] ++ [.callsResetAdc]) next ∧
      next.data.reset = 0 := by
  have loaded := alone.step (Step.loadsExpected here) rfl
  have cleared := loaded.step (Step.clearsReset rfl rfl) rfl
  exact ⟨_, cleared.step (Step.callsResetAdc rfl) rfl, rfl⟩

/-- From the start of a round, with the flag set. -/
theorem Alone.round {middle : State} (alone : Alone .main state events middle)
    (here : middle.main = .loadTare) (raised : middle.data.reset = 1) :
    ∃ next, Alone .main state (events ++ [.loadsTare middle.data.tare] ++ [.testsReset] ++
        [.loadsExpected] ++ [.clearsReset] ++ [.callsResetAdc]) next ∧ next.data.reset = 0 := by
  have loaded := alone.step (Step.loadsTare here) rfl
  have tested := loaded.step (Step.testsReset rfl) rfl
  refine tested.resets (if_pos ?_)
  rw [raised]
  exact Nat.one_ne_zero

/-- `main` needs no handler to serve a reset which is in the flag. -/
theorem main_resets (runs : Runs server events state) (raised : state.data.reset = 1)
    (running : state.main ≠ .left) :
    ∃ more next, Alone .main state more next ∧ more.length ≤ 6 ∧ .callsResetAdc ∈ more ∧
      next.data.reset = 0 := by
  have begins : Alone .main state [] state := .refl state
  cases here : state.main with
  | left => exact absurd here running
  | starting =>
      have started := begins.step (Step.startsAdc here) rfl
      obtain ⟨next, alone, lowered⟩ := started.round rfl raised
      exact ⟨_, next, alone, by simp, by simp, lowered⟩
  | loadTare =>
      obtain ⟨next, alone, lowered⟩ := begins.round here raised
      exact ⟨_, next, alone, by simp, by simp, lowered⟩
  | testReset =>
      have tested := begins.step (Step.testsReset here) rfl
      have set : state.data.reset ≠ 0 := by omega
      obtain ⟨next, alone, lowered⟩ := tested.resets (if_pos set)
      exact ⟨_, next, alone, by simp, by simp, lowered⟩
  | loadExpected =>
      obtain ⟨next, alone, lowered⟩ := begins.resets here
      exact ⟨_, next, alone, by simp, by simp, lowered⟩
  | compareExchange expected =>
      have one := (flagInvariant runs).exchanging expected here
      have cleared := begins.step (Step.clearsReset here (raised.trans one.symm)) rfl
      exact ⟨_, _, cleared.step (Step.callsResetAdc rfl) rfl, by simp, by simp, rfl⟩
  | callResetAdc =>
      have called := begins.step (Step.callsResetAdc here) rfl
      obtain ⟨next, alone, lowered⟩ := called.round rfl raised
      exact ⟨_, next, alone, by simp, by simp, lowered⟩

/-- No thread waits for another one. -/
structure Unblocked (state : State) : Prop where
  handler : ∀ h, state.handler h ≠ .absent → ∃ events next,
    Alone (.handler h) state events next ∧ events.length ≤ 4 ∧ next.handler h = .finished
  main : state.data.reset = 1 → state.main ≠ .left → ∃ events next,
    Alone .main state events next ∧ events.length ≤ 6 ∧ .callsResetAdc ∈ events ∧
      next.data.reset = 0

/-- From every state of every run a handler finishes on its own, and `main` serves a pending
reset on its own. -/
theorem unblocked_of_runs (runs : Runs server events state) : Unblocked state where
  handler _ arrived := handler_finishes state arrived
  main raised running := main_resets runs raised running

/-- A handler which was overtaken in front of its compare-exchange. -/
theorem unblocked_overtaken : ∃ state, Unblocked state ∧ state.data.reset = 1 ∧
    ∃ msg, state.handler 1 = .compareExchange msg 0 := by
  have reset : HandlerPc.enter (.make 0 0 (.replicate 4 0)) = .loadExpected _ :=
    enter_of_reset (by decide)
  have begins : Steps server initial [] initial := .refl
  have received := begins.step (Step.receive (h := 0) (.make 0 0 (.replicate 4 0)) rfl)
  rw [reset] at received
  have both := received.step (Step.receive (h := 1) (.make 0 0 (.replicate 4 0)) rfl)
  rw [reset] at both
  have loaded := (both.step (Step.handlerLoads (h := 0) rfl)).step (Step.handlerLoads (h := 1) rfl)
  have overtaken := loaded.step (Step.handledReset (h := 0) rfl rfl)
  exact ⟨_, unblocked_of_runs ⟨initial, rfl, overtaken⟩, rfl, _, rfl⟩

end MotorStand.Auxillary
