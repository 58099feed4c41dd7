import MotorStand.Imperative.Loop

/-!
# Loops without a bound

`while (1) body` is given by the rounds it makes. It ends if it leaves after some
number of them; a loop which goes on for ever and one which faults do not.
-/

namespace Imperative

namespace Exec

variable {σ β ρ : Type}

/-- The first `count` rounds of `while (1) body`, or fewer if one of them leaves. -/
def rounds (body : β → Exec σ (Flow ρ β)) : Nat → β → Exec σ (Flow ρ β)
  | 0, locals => pure (.next locals)
  | count + 1, locals => do
      match ← body locals with
      | .next locals => rounds body count locals
      | .leave result => pure (.leave result)

/-- `while (1) body` ends, and its result and final store satisfy `post`. -/
def Leaves (body : β → Exec σ (Flow ρ β)) (init : β) (before : σ) (post : ρ → σ → Prop) : Prop :=
  ∃ count result after, rounds body count init before = .ok (.leave result, after) ∧
    post result after

/-- After `count` rounds the loop is about to start another one. -/
def GoesOn (body : β → Exec σ (Flow ρ β)) (init : β) (before : σ) (count : Nat) (locals : β)
    (store : σ) : Prop :=
  rounds body count init before = .ok (.next locals, store)

variable {body : β → Exec σ (Flow ρ β)} {init locals : β} {before store : σ} {result : ρ}
  {post : ρ → σ → Prop} {count : Nat}

/-- A round which goes on. -/
theorem rounds_of_next (next : body init before = .ok (.next locals, store)) (count : Nat) :
    rounds body (count + 1) init before = rounds body count locals store :=
  bind_of_returns next

/-- A round which leaves. -/
theorem rounds_of_leave (leave : body init before = .ok (.leave result, store)) (count : Nat) :
    rounds body (count + 1) init before = .ok (.leave result, store) :=
  bind_of_returns leave

/-- A round which faults. -/
theorem rounds_of_fails {fault : Fault} (fails : body init before = .error fault) (count : Nat) :
    rounds body (count + 1) init before = .error fault :=
  bind_of_fails fails

/-- A round which goes on does not decide whether the loop ends. -/
theorem leaves_of_next (next : body init before = .ok (.next locals, store)) :
    Leaves body init before post ↔ Leaves body locals store post := by
  constructor
  · rintro ⟨count, result, after, run, holds⟩
    cases count with
    | zero => cases run
    | succ count =>
        rw [rounds_of_next next] at run
        exact ⟨count, result, after, run, holds⟩
  · rintro ⟨count, result, after, run, holds⟩
    exact ⟨count + 1, result, after, (rounds_of_next next count).trans run, holds⟩

/-- A loop which is left at once ends with the result. -/
theorem leaves_of_leave (leave : body init before = .ok (.leave result, store)) :
    Leaves body init before post ↔ post result store := by
  constructor
  · rintro ⟨count, other, after, run, holds⟩
    cases count with
    | zero => cases run
    | succ count =>
        rw [rounds_of_leave leave] at run
        cases run
        exact holds
  · exact fun holds => ⟨1, result, store, rounds_of_leave leave 0, holds⟩

/-- A loop with a faulty round does not end. -/
theorem not_leaves_of_fails {fault : Fault} (fails : body init before = .error fault) :
    ¬ Leaves body init before post := by
  rintro ⟨count, result, after, run, _⟩
  cases count with
  | zero => cases run
  | succ count =>
      rw [rounds_of_fails fails] at run
      cases run

/-- No round at all. -/
theorem goesOn_zero : GoesOn body init before 0 init before := rfl

/-- Without a round nothing has changed. -/
theorem goesOn_zero_iff :
    GoesOn body init before 0 locals store ↔ locals = init ∧ store = before := by
  constructor
  · intro start
    cases start
    exact ⟨rfl, rfl⟩
  · rintro ⟨rfl, rfl⟩
    exact goesOn_zero

/-- The first of several rounds. -/
theorem goesOn_succ {last : β} {after : σ} (next : body init before = .ok (.next locals, store)) :
    GoesOn body init before (count + 1) last after ↔ GoesOn body locals store count last after := by
  rw [GoesOn, rounds_of_next next]
  rfl

/-- A loop which leaves in the round behind the first `count` ones. -/
theorem GoesOn.leaves {after : σ} (goesOn : GoesOn body init before count locals store)
    (leave : body locals store = .ok (.leave result, after)) (holds : post result after) :
    Leaves body init before post := by
  induction count generalizing init before with
  | zero =>
      obtain ⟨rfl, rfl⟩ := goesOn_zero_iff.mp goesOn
      exact (leaves_of_leave leave).mpr holds
  | succ count ih =>
      cases first : body init before with
      | error fault =>
          rw [GoesOn, rounds_of_fails first] at goesOn
          cases goesOn
      | ok pair =>
          obtain ⟨flow, middle⟩ := pair
          cases flow with
          | leave other =>
              rw [GoesOn, rounds_of_leave first] at goesOn
              cases goesOn
          | next other => exact (leaves_of_next first).mpr (ih ((goesOn_succ first).mp goesOn))

/-- A loop which is about to start another round after any number of them does not end. -/
theorem not_leaves_of_goesOn (always : ∀ count, ∃ locals store,
    GoesOn body init before count locals store) : ¬ Leaves body init before post := by
  rintro ⟨count, result, after, run, _⟩
  obtain ⟨locals, store, goesOn⟩ := always count
  rw [GoesOn, run] at goesOn
  cases goesOn

/-! ## What every round keeps -/

/-- `while (1) body` ends, and every round after which it goes on satisfies `round`. -/
structure EndsKeeping (body : β → Exec σ (Flow ρ β)) (init : β) (before : σ)
    (round : β → σ → β → σ → Prop) : Prop where
  ends : Leaves body init before fun _ _ => True
  keeps : ∀ count locals store next after, GoesOn body init before count locals store →
    body locals store = .ok (.next next, after) → round locals store next after

variable {round : β → σ → β → σ → Prop}

/-- What holds of every round holds of the first and of those behind it. -/
theorem endsKeeping_of_next (next : body init before = .ok (.next locals, store)) :
    EndsKeeping body init before round ↔
      round init before locals store ∧ EndsKeeping body locals store round := by
  constructor
  · rintro ⟨ends, keeps⟩
    refine ⟨keeps 0 init before locals store goesOn_zero next, (leaves_of_next next).mp ends, ?_⟩
    intro count later middle last after goesOn
    exact keeps (count + 1) later middle last after ((goesOn_succ next).mpr goesOn)
  · rintro ⟨first, ends, keeps⟩
    refine ⟨(leaves_of_next next).mpr ends, ?_⟩
    intro count later middle last after goesOn step
    cases count with
    | zero =>
        obtain ⟨rfl, rfl⟩ := goesOn_zero_iff.mp goesOn
        rw [next] at step
        cases step
        exact first
    | succ count => exact keeps count later middle last after ((goesOn_succ next).mp goesOn) step

/-- A first round which leaves goes on to nothing. -/
theorem EndsKeeping.of_leave (leave : body init before = .ok (.leave result, store)) :
    EndsKeeping body init before round := by
  refine ⟨(leaves_of_leave leave).mpr trivial, ?_⟩
  intro count locals middle next after goesOn step
  cases count with
  | zero =>
      obtain ⟨rfl, rfl⟩ := goesOn_zero_iff.mp goesOn
      rw [leave] at step
      cases step
  | succ count =>
      rw [GoesOn, rounds_of_leave leave] at goesOn
      cases goesOn

/-- A loop which faults does not end. -/
theorem not_endsKeeping_of_fails {fault : Fault} (fails : body init before = .error fault) :
    ¬ EndsKeeping body init before round :=
  fun ending => not_leaves_of_fails fails ending.ends

end Exec

end Imperative
