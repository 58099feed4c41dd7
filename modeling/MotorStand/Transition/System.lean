import Mathlib.Tactic.Common

/-!
# Labelled transition systems

A run is a list of events. Invariants may speak about the events so far, so that
what happened earlier needs no ghost state, and a run can be cut at any event.
-/

namespace Transition

universe u v

/-- A transition system whose steps are labelled by events. -/
structure System (State : Type u) (Event : Type v) where
  Initial : State → Prop
  Step : State → Event → State → Prop

variable {State : Type u} {Event : Type v} {system : System State Event}

/-- The steps from `start` which emit the events, in order. -/
inductive Steps (system : System State Event) (start : State) : List Event → State → Prop where
  | refl : Steps system start [] start
  | step {events middle event next} (prior : Steps system start events middle)
      (transition : system.Step middle event next) : Steps system start (events ++ [event]) next

/-- A run from an initial state. -/
def Runs (system : System State Event) (events : List Event) (state : State) : Prop :=
  ∃ start, system.Initial start ∧ Steps system start events state

variable {start middle state : State} {events first second : List Event} {event : Event}

/-- Steps follow one another. -/
theorem Steps.trans (before : Steps system start first middle)
    (after : Steps system middle second state) : Steps system start (first ++ second) state := by
  induction after with
  | refl => simpa using before
  | step prior transition ih =>
      rw [← List.append_assoc]
      exact ih.step transition

/-- Steps can be cut anywhere. -/
theorem Steps.split (steps : Steps system start events state)
    (cut : events = first ++ second) :
    ∃ middle, Steps system start first middle ∧ Steps system middle second state := by
  induction steps generalizing second with
  | refl =>
      obtain ⟨rfl, rfl⟩ := List.append_eq_nil_iff.mp cut.symm
      exact ⟨start, .refl, .refl⟩
  | @step earlier reached last next prior transition ih =>
      cases second.eq_nil_or_concat with
      | inl none =>
          subst none
          rw [List.append_nil] at cut
          exact ⟨next, cut ▸ prior.step transition, .refl⟩
      | inr some =>
          obtain ⟨rest, final, rfl⟩ := some
          rw [List.concat_eq_append, ← List.append_assoc] at cut
          obtain ⟨whole, same⟩ := List.append_inj' cut rfl
          cases same
          obtain ⟨middle, before, after⟩ := ih whole
          refine ⟨middle, before, ?_⟩
          rw [List.concat_eq_append]
          exact after.step transition

/-- Without events the state is the same. -/
theorem Steps.eq_start (steps : Steps system start events state) (none : events = []) :
    state = start := by
  cases steps with
  | refl => rfl
  | step prior transition => simp at none

/-- The first step of several. -/
theorem Steps.head {rest : List Event} (steps : Steps system start events state)
    (cut : events = event :: rest) :
    ∃ middle, system.Step start event middle ∧ Steps system middle rest state := by
  induction steps generalizing rest with
  | refl => cases cut
  | @step earlier reached last next prior transition ih =>
      cases earlier with
      | nil =>
          cases cut
          obtain rfl := prior.eq_start rfl
          exact ⟨next, transition, .refl⟩
      | cons first others =>
          cases cut
          obtain ⟨middle, one, steps⟩ := ih rfl
          exact ⟨middle, one, steps.step transition⟩

/-- What holds at the start and is preserved by every step holds after any steps. -/
theorem Steps.invariant (holds : List Event → State → Prop)
    (steps : Steps system start events state) (entry : holds [] start)
    (preserved : ∀ events state event next, holds events state →
      system.Step state event next → holds (events ++ [event]) next) : holds events state := by
  induction steps with
  | refl => exact entry
  | step prior transition ih => exact preserved _ _ _ _ ih transition

/-- The invariant rule for whole runs. -/
theorem Runs.invariant (holds : List Event → State → Prop) (runs : Runs system events state)
    (initial : ∀ start, system.Initial start → holds [] start)
    (preserved : ∀ events state event next, holds events state →
      system.Step state event next → holds (events ++ [event]) next) : holds events state := by
  obtain ⟨start, valid, steps⟩ := runs
  exact steps.invariant holds (initial start valid) preserved

/-- Accounting along the steps: if no step costs more than it is credited and takes from the
potential, the costs of all steps are covered by the credits and the potential at the start. -/
theorem Steps.countP_le (potential : State → Nat) (cost credit : Event → Bool)
    (steps : Steps system start events state)
    (covered : ∀ state event next, system.Step state event next →
      (cost event).toNat + potential next ≤ potential state + (credit event).toNat) :
    events.countP cost + potential state ≤ potential start + events.countP credit := by
  induction steps with
  | refl => simp
  | @step events middle event next prior transition ih =>
      have last := covered middle event next transition
      have costs : (events ++ [event]).countP cost = events.countP cost + (cost event).toNat := by
        cases value : cost event <;> simp [value]
      have credits : (events ++ [event]).countP credit =
          events.countP credit + (credit event).toNat := by
        cases value : credit event <;> simp [value]
      omega

/-- A run cut at one of its events: the run before it, its step, and the steps after. -/
theorem Runs.cut (runs : Runs system (first ++ event :: second) state) :
    ∃ before after, Runs system first before ∧ system.Step before event after ∧
      Runs system (first ++ [event]) after ∧ Steps system after second state := by
  obtain ⟨start, valid, steps⟩ := runs
  obtain ⟨before, earlier, later⟩ := steps.split rfl
  obtain ⟨after, transition, rest⟩ := later.head rfl
  exact ⟨before, after, ⟨start, valid, earlier⟩, transition,
    ⟨start, valid, earlier.step transition⟩, rest⟩

end Transition
