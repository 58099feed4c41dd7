import MotorStand.Imperative.Exec

/-!
# Programs and specifications which may stop

A specification returns a value, or it stops with the message of an assertion. A program meets
it if it stops with the same message, or returns a result and a store which are related to the
value.
-/

namespace Imperative

namespace Exec

variable {σ α β γ δ : Type}

/-- What an assertion demands. -/
def demand (condition : Prop) [Decidable condition] (message : String) : Except String Unit :=
  if condition then .ok () else .error message

/-- `program`, started in `before`, does what `spec` says. -/
def Meets (program : Exec σ α) (before : σ) (spec : Except String β) (related : β → α → σ → Prop) :
    Prop :=
  match spec with
  | .ok value => program.Ensures before (related value)
  | .error message => program before = .error (.assertion message)

variable {program : Exec σ α} {before : σ} {related : β → α → σ → Prop} {later : δ → γ → σ → Prop}

/-- What is specified to return returns. -/
theorem meets_ok {value : β} (ensures : program.Ensures before (related value)) :
    program.Meets before (.ok value) related := ensures

/-- A program which runs as another one meets what the other one meets. -/
theorem Meets.of_run {other : Exec σ α} {spec : Except String β}
    (meets : other.Meets before spec related) (same : program before = other before) :
    program.Meets before spec related := by
  cases spec with
  | error message => exact same.trans meets
  | ok value =>
      obtain ⟨result, after, run, holds⟩ := meets
      exact ⟨result, after, same.trans run, holds⟩

/-- In a sequence the continuations meet each other where the first parts have left off. -/
theorem Meets.bind {spec : Except String β} {next : α → Exec σ γ} {goesOn : β → Except String δ}
    (first : program.Meets before spec related)
    (rest : ∀ value result after, related value result after →
      (next result).Meets after (goesOn value) later) :
    (program >>= next).Meets before (spec >>= goesOn) later := by
  cases spec with
  | error message => exact bind_of_fails first
  | ok value =>
      obtain ⟨result, after, run, holds⟩ := first
      have continued := rest value result after holds
      change (program >>= next).Meets before (goesOn value) later
      cases outcome : goesOn value with
      | error message =>
          rw [outcome] at continued
          exact (bind_of_returns run).trans continued
      | ok last =>
          rw [outcome] at continued
          exact Ensures.bind_returns run continued

/-- What follows from the relation is met as well. -/
theorem Meets.imp {spec : Except String β} {weaker : β → α → σ → Prop}
    (meets : program.Meets before spec related)
    (weaken : ∀ value result after, related value result after → weaker value result after) :
    program.Meets before spec weaker := by
  cases spec with
  | error message => exact meets
  | ok value => exact Ensures.imp meets (weaken value)

/-- A value which only the specification goes on with. -/
theorem meets_of_then {spec : Except String β} {goesOn : β → δ} {final : δ → α → σ → Prop}
    (meets : program.Meets before spec fun value => final (goesOn value)) :
    program.Meets before (do let value ← spec; return goesOn value) final := by
  cases spec with
  | error message => exact meets
  | ok value => exact meets

/-- A demand is met by stopping if it fails, and by what follows if it holds. -/
theorem meets_demand {demanded : Prop} [Decidable demanded] {message : String}
    {goesOn : Unit → Except String β}
    (fails : ¬ demanded → program before = .error (.assertion message))
    (rest : demanded → program.Meets before (goesOn ()) related) :
    program.Meets before (demand demanded message >>= goesOn) related := by
  by_cases holds : demanded
  · rw [demand, if_pos holds]
    exact rest holds
  · rw [demand, if_neg holds]
    exact fails holds

/-- What a program ensures, it ensures behind its assertion. -/
theorem Ensures.of_require {condition : Prop} [Decidable condition] {message : String}
    {next : Unit → Exec σ α} {post : α → σ → Prop}
    (ensures : (require condition message >>= next).Ensures before post) :
    (next ()).Ensures before post := by
  by_cases holds : condition
  · obtain ⟨value, after, run, met⟩ := ensures
    exact ⟨value, after, (bind_of_returns (require_returns message holds)).symm.trans run, met⟩
  · exact absurd ensures (not_ensures_of_fails (bind_of_fails (require_fails holds)))

/-- A program which asserts what is demanded. -/
theorem meets_require {condition demanded : Prop} [Decidable condition] [Decidable demanded]
    {message : String} {next : Unit → Exec σ α} {goesOn : Unit → Except String β}
    (same : condition ↔ demanded)
    (rest : demanded → (next ()).Meets before (goesOn ()) related) :
    (require condition message >>= next).Meets before (demand demanded message >>= goesOn)
      related := by
  apply meets_demand
  · intro different
    exact bind_of_fails (require_fails (mt same.mp different))
  intro holds
  exact (rest holds).of_run (bind_of_returns (require_returns message (same.mpr holds)))

end Exec

end Imperative
