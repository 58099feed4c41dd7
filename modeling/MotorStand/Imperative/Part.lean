import MotorStand.Imperative.Exec

/-!
# Programs on a part of the store

A program which knows a part of the store only is run on the whole of it. What it leaves of
its part is put back.
-/

namespace Imperative

/-- How a part of a store is read and replaced. -/
structure Part (σ τ : Type) where
  get : σ → τ
  put : τ → σ → σ

namespace Exec

variable {σ τ α : Type}

/-- Run `program` on its part of the store. -/
def onPart (part : Part σ τ) (program : Exec τ α) : Exec σ α := fun store =>
  match program (part.get store) with
  | .ok (value, after) => .ok (value, part.put after store)
  | .error fault => .error fault

variable {part : Part σ τ} {program : Exec τ α} {store : σ}

/-- A program which returns on its part returns on the whole. -/
theorem onPart_returns {value : α} {after : τ}
    (returns : program (part.get store) = .ok (value, after)) :
    onPart part program store = .ok (value, part.put after store) := by
  rw [onPart, returns]

/-- A program which faults on its part faults on the whole. -/
theorem onPart_fails {fault : Fault} (fails : program (part.get store) = .error fault) :
    onPart part program store = .error fault := by
  rw [onPart, fails]

/-- What a program ensures on the whole store, it ensures of its part as it is put back. -/
theorem ensures_onPart_iff {post : α → σ → Prop} :
    (onPart part program).Ensures store post ↔
      program.Ensures (part.get store) fun value after => post value (part.put after store) := by
  constructor
  · rintro ⟨value, last, run, holds⟩
    cases inside : program (part.get store) with
    | error fault =>
        rw [onPart_fails inside] at run
        cases run
    | ok pair =>
        obtain ⟨result, after⟩ := pair
        rw [onPart_returns inside] at run
        cases run
        exact ⟨value, after, inside, holds⟩
  · rintro ⟨value, after, run, holds⟩
    exact ⟨value, part.put after store, onPart_returns run, holds⟩

end Exec

end Imperative
