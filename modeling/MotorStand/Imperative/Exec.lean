import Mathlib.Tactic.Common

/-!
# Programs over an explicit store

`Exec σ α` is a C-like program: it reads and updates a store of type `σ` and
either returns a value or stops at a `Fault`. `Exec.Ensures` is total
correctness. A program that ensures anything at all neither faults nor diverges,
so bounds, initialisation, divisors and assertions need no separate obligation.
-/

namespace Imperative

/-- The ways a program stops without returning. -/
inductive Fault where
  | assertion (message : String)
  | outOfBounds
  | uninitialised
  | divisionByZero
  | signedOverflow
deriving DecidableEq, Repr

/-- A program over the store `σ` which returns an `α` or faults. -/
abbrev Exec (σ α : Type) := StateT σ (Except Fault) α

namespace Exec

variable {σ α β : Type}

/-- Stop at `fault`. -/
def fail (fault : Fault) : Exec σ α := fun _ => .error fault

/-- `assert(condition && message)`. -/
def require (condition : Prop) [Decidable condition] (message : String) : Exec σ Unit :=
  if condition then pure () else fail (.assertion message)

/-- Division of exact numbers. A zero divisor has no exact quotient and faults. -/
def divide {K : Type} [Div K] [Zero K] [DecidableEq K] (numerator divisor : K) : Exec σ K :=
  if divisor = 0 then fail .divisionByZero else pure (numerator / divisor)

/-- Element `index` of a read-only array. -/
def element (values : List α) (index : Nat) : Exec σ α :=
  match values[index]? with
  | some value => pure value
  | none => fail .outOfBounds

/-- `program` started in `before` returns, and its result and final store
satisfy `post`. -/
def Ensures (program : Exec σ α) (before : σ) (post : α → σ → Prop) : Prop :=
  ∃ value after, program before = .ok (value, after) ∧ post value after

variable {program : Exec σ α} {before : σ} {post : α → σ → Prop}

/-- Weaken a postcondition. -/
theorem Ensures.imp {weaker : α → σ → Prop} (ensures : program.Ensures before post)
    (weaken : ∀ value after, post value after → weaker value after) :
    program.Ensures before weaker := by
  obtain ⟨value, after, run, holds⟩ := ensures
  exact ⟨value, after, run, weaken value after holds⟩

/-- A returned value satisfies what the store already satisfies. -/
theorem ensures_pure {value : α} (holds : post value before) :
    (pure value : Exec σ α).Ensures before post :=
  ⟨value, before, rfl, holds⟩

/-- A program which returns ensures what its result satisfies. -/
theorem Ensures.of_returns {value : α} {after : σ}
    (returns : program before = .ok (value, after)) (holds : post value after) :
    program.Ensures before post :=
  ⟨value, after, returns, holds⟩

/-- A sequence whose first program returns continues with its result. -/
theorem bind_of_returns {next : α → Exec σ β} {value : α} {after : σ}
    (returns : program before = .ok (value, after)) :
    (program >>= next) before = next value after := by
  change (program before >>= fun pair => next pair.1 pair.2) = _
  rw [returns]
  rfl

/-- A fault stops the programs sequenced after it. -/
theorem bind_of_fails {next : α → Exec σ β} {fault : Fault}
    (fails : program before = .error fault) : (program >>= next) before = .error fault := by
  change (program before >>= fun pair => next pair.1 pair.2) = _
  rw [fails]
  rfl

/-- Sequencing: the continuation starts where the first program ends. -/
theorem Ensures.bind {next : α → Exec σ β} {middle : α → σ → Prop} {final : β → σ → Prop}
    (first : program.Ensures before middle)
    (rest : ∀ value store, middle value store → (next value).Ensures store final) :
    (program >>= next).Ensures before final := by
  obtain ⟨value, store, run, holds⟩ := first
  obtain ⟨result, after, runNext, done⟩ := rest value store holds
  exact ⟨result, after, (bind_of_returns run).trans runNext, done⟩

/-- Sequencing after a program whose result is known. -/
theorem Ensures.bind_returns {next : α → Exec σ β} {value : α} {after : σ}
    {final : β → σ → Prop} (returns : program before = .ok (value, after))
    (rest : (next value).Ensures after final) : (program >>= next).Ensures before final := by
  obtain ⟨result, last, runNext, done⟩ := rest
  exact ⟨result, last, (bind_of_returns returns).trans runNext, done⟩

/-- Of a sequence which returns, the first program returns, and the continuation goes on
from there. -/
theorem Ensures.of_bind {next : α → Exec σ β} {final : β → σ → Prop}
    (ensures : (program >>= next).Ensures before final) :
    program.Ensures before fun value store => (next value).Ensures store final := by
  obtain ⟨result, after, run, done⟩ := ensures
  cases first : program before with
  | error fault =>
      rw [bind_of_fails first] at run
      cases run
  | ok pair =>
      obtain ⟨value, store⟩ := pair
      rw [bind_of_returns first] at run
      exact ⟨value, store, first, result, after, run, done⟩

/-- A sequence returns what its continuation returns. -/
theorem bind_returns_iff {next : α → Exec σ β} {result : β} {last : σ} :
    (program >>= next) before = .ok (result, last) ↔
      ∃ value store, program before = .ok (value, store) ∧
        next value store = .ok (result, last) := by
  constructor
  · intro run
    have ensures : (program >>= next).Ensures before fun value after =>
        value = result ∧ after = last := ⟨result, last, run, rfl, rfl⟩
    obtain ⟨value, store, first, _, _, rest, rfl, rfl⟩ := ensures.of_bind
    exact ⟨value, store, first, rest⟩
  · rintro ⟨value, store, first, rest⟩
    exact (bind_of_returns first).trans rest

/-- A sequence ensures nothing if its continuation never does, whatever the first
program leaves behind. -/
theorem not_ensures_bind {next : α → Exec σ β} {final : β → σ → Prop}
    (rest : ∀ value store, ¬ (next value).Ensures store final) :
    ¬ (program >>= next).Ensures before final := by
  intro ensures
  obtain ⟨value, store, _, later⟩ := ensures.of_bind
  exact rest value store later

/-- A sequence ensures nothing if its continuation does not after what the first
program ensures. -/
theorem Ensures.not_ensures_bind {next : α → Exec σ β} {middle : α → σ → Prop}
    {final : β → σ → Prop} (first : program.Ensures before middle)
    (rest : ∀ value store, middle value store → ¬ (next value).Ensures store final) :
    ¬ (program >>= next).Ensures before final := by
  obtain ⟨value, store, run, holds⟩ := first
  rintro ⟨result, after, runBoth, done⟩
  rw [bind_of_returns run] at runBoth
  exact rest value store holds ⟨result, after, runBoth, done⟩

/-- A program which faults ensures nothing. -/
theorem not_ensures_of_fails {fault : Fault} (fails : program before = .error fault) :
    ¬ program.Ensures before post := by
  rintro ⟨value, after, run, _⟩
  rw [fails] at run
  cases run

/-- A fault of the continuation is the fault of the sequence. -/
theorem Ensures.bind_fails {next : α → Exec σ β} {fault : Fault} {middle : α → σ → Prop}
    (first : program.Ensures before middle)
    (rest : ∀ value store, middle value store → next value store = .error fault) :
    (program >>= next) before = .error fault := by
  obtain ⟨value, store, run, holds⟩ := first
  exact (bind_of_returns run).trans (rest value store holds)

/-- A condition which holds is passed. -/
theorem require_returns {condition : Prop} [Decidable condition] (message : String)
    (holds : condition) : (require condition message : Exec σ Unit) before = .ok ((), before) := by
  rw [require, if_pos holds]
  rfl

/-- An assertion whose condition fails stops with its message. -/
theorem require_fails {condition : Prop} [Decidable condition] {message : String}
    (violated : ¬ condition) :
    (require condition message : Exec σ Unit) before = .error (.assertion message) := by
  rw [require, if_neg violated]
  rfl

/-- A division by anything but zero. -/
theorem divide_returns {K : Type} [Div K] [Zero K] [DecidableEq K] (numerator : K) {divisor : K}
    (nonzero : divisor ≠ 0) :
    (divide numerator divisor : Exec σ K) before = .ok (numerator / divisor, before) := by
  rw [divide, if_neg nonzero]
  rfl

/-- An element inside the list. -/
theorem element_returns {values : List α} {index : Nat} (inside : index < values.length) :
    (element values index : Exec σ α) before = .ok (values[index], before) := by
  rw [element, List.getElem?_eq_getElem inside]
  rfl

end Exec

end Imperative
