import MotorStand.Imperative.Exec
import Mathlib.Algebra.BigOperators.Intervals
import Mathlib.Algebra.BigOperators.Fin

/-!
# Counted loops

The loops carry the locals they assign as an accumulator. Each has one invariant
rule; `forUntil` is the loop whose body may return from the enclosing function,
and `forInt` the one whose index is a signed `int`.
-/

namespace Imperative

/-- What one iteration asks of its loop. -/
inductive Flow (ρ β : Type) where
  | next (locals : β)
  | leave (result : ρ)

/-- Leaving satisfies `exit`, going on satisfies `stay`. -/
def Flow.Satisfies {ρ β : Type} (stay : β → Prop) (exit : ρ → Prop) : Flow ρ β → Prop
  | .next locals => stay locals
  | .leave result => exit result

namespace Exec

variable {σ β ρ : Type}

/-- Go on with `rest`, unless the loop has been left. -/
def resume (rest : β → Exec σ (Flow ρ β)) : Flow ρ β → Exec σ (Flow ρ β)
  | .next locals => rest locals
  | .leave result => pure (.leave result)

/-- `count` iterations of `body`, the first at index `start`. -/
def iterateUp (body : Nat → β → Exec σ β) : Nat → Nat → β → Exec σ β
  | 0, _, locals => pure locals
  | count + 1, start, locals => do
      let locals ← body start locals
      iterateUp body count (start + 1) locals

/-- `for (i = lo; i < hi; ++i) body`. -/
def forUp (lo hi : Nat) (init : β) (body : Nat → β → Exec σ β) : Exec σ β :=
  iterateUp body (hi - lo) lo init

/-- `for (i = count - 1; i >= 0; --i) body`. -/
def forDown : Nat → β → (Nat → β → Exec σ β) → Exec σ β
  | 0, locals, _ => pure locals
  | count + 1, locals, body => do
      let locals ← body count locals
      forDown count locals body

/-- `iterateUp` for a body which may leave the loop. -/
def iterateUntil (body : Nat → β → Exec σ (Flow ρ β)) : Nat → Nat → β → Exec σ (Flow ρ β)
  | 0, _, locals => pure (.next locals)
  | count + 1, start, locals => do
      match ← body start locals with
      | .next locals => iterateUntil body count (start + 1) locals
      | .leave result => pure (.leave result)

/-- `for (i = lo; i < hi; ++i) body`, where the body may `return`. -/
def forUntil (lo hi : Nat) (init : β) (body : Nat → β → Exec σ (Flow ρ β)) :
    Exec σ (Flow ρ β) :=
  iterateUntil body (hi - lo) lo init

/-- `INT_MAX` of a 32-bit `int`. -/
def intMax : Nat := 2 ^ 31 - 1

/-- Go on from index `start`, which may be incremented `room` times without overflow. -/
def iterateInt (bound : Nat) (body : Nat → β → Exec σ β) : Nat → Nat → β → Exec σ β
  | 0, start, locals =>
      if start < bound then do
        let _ ← body start locals
        fail .signedOverflow
      else pure locals
  | room + 1, start, locals =>
      if start < bound then do
        let locals ← body start locals
        iterateInt bound body room (start + 1) locals
      else pure locals

/-- `for (int i = 0; i < bound; ++i) body`, where the bound need not fit in an `int`. -/
def forInt (bound : Nat) (init : β) (body : Nat → β → Exec σ β) : Exec σ β :=
  iterateInt bound body intMax 0 init

variable {before : σ} {init : β}

/-- The invariant after every iteration, by induction on their number. -/
theorem iterateUp_ensures {body : Nat → β → Exec σ β} {count start : Nat}
    (invariant : Nat → β → σ → Prop) (entry : invariant start init before)
    (step : ∀ index locals store, start ≤ index → index < start + count →
      invariant index locals store →
      (body index locals).Ensures store (invariant (index + 1))) :
    (iterateUp body count start init).Ensures before (invariant (start + count)) := by
  induction count generalizing start init before with
  | zero => exact ensures_pure entry
  | succ count ih =>
      apply (step start init before (Nat.le_refl _) (by omega) entry).bind
      intro locals store holds
      have rest := ih holds (fun index locals store lower upper =>
        step index locals store (by omega) (by omega))
      simpa [Nat.add_assoc, Nat.add_comm 1 count] using rest

/-- Invariant rule of the ascending loop. -/
theorem forUp_ensures {body : Nat → β → Exec σ β} {lo hi : Nat}
    (invariant : Nat → β → σ → Prop) (ordered : lo ≤ hi) (entry : invariant lo init before)
    (step : ∀ index locals store, lo ≤ index → index < hi → invariant index locals store →
      (body index locals).Ensures store (invariant (index + 1))) :
    (forUp lo hi init body).Ensures before (invariant hi) := by
  have run := iterateUp_ensures invariant entry (fun index locals store lower
    (upper : index < lo + (hi - lo)) => step index locals store lower (by omega))
  rwa [Nat.add_sub_of_le ordered] at run

/-- A loop which only adds `term index` to its accumulator computes their sum. -/
theorem forUp_sum_ensures {K : Type} [AddCommMonoid K] {body : Nat → K → Exec σ K}
    {lo hi : Nat} {start : K} (term : Nat → K) (ordered : lo ≤ hi)
    (step : ∀ index sum, lo ≤ index → index < hi →
      (body index sum).Ensures before fun next after => next = sum + term index ∧ after = before) :
    (forUp lo hi start body).Ensures before fun sum after =>
      sum = start + ∑ index ∈ Finset.Ico lo hi, term index ∧ after = before := by
  refine forUp_ensures (fun index sum store =>
    sum = start + ∑ earlier ∈ Finset.Ico lo index, term earlier ∧ store = before) ordered
    (by simp) ?_
  rintro index sum store lower upper ⟨rfl, rfl⟩
  apply (step index _ lower upper).imp
  rintro next after ⟨rfl, rfl⟩
  exact ⟨by rw [Finset.sum_Ico_succ_top lower, add_assoc], rfl⟩

/-- `forUp_sum_ensures` for a loop over a window of `Fin n`. -/
theorem forUp_window_ensures {K : Type} [AddCommMonoid K] {body : Nat → K → Exec σ K}
    {n lo hi : Nat} {start : K} (term : Fin n → K) (ordered : lo ≤ hi) (bounded : hi ≤ n)
    (step : ∀ (index : Fin n) sum, lo ≤ index.val → index.val < hi →
      (body index.val sum).Ensures before fun next after =>
        next = sum + term index ∧ after = before) :
    (forUp lo hi start body).Ensures before fun sum after =>
      sum = start + ∑ index, (if lo ≤ index.val ∧ index.val < hi then term index else 0) ∧
        after = before := by
  let total : Nat → K := fun index => if inside : index < n then term ⟨index, inside⟩ else 0
  have window : ∑ index ∈ Finset.Ico lo hi, total index =
      ∑ index : Fin n, if lo ≤ index.val ∧ index.val < hi then term index else 0 := by
    have spread := Fin.sum_univ_eq_sum_range
      (fun index => if lo ≤ index ∧ index < hi then total index else 0) n
    have inside : (Finset.range n).filter (fun index => lo ≤ index ∧ index < hi) =
        Finset.Ico lo hi := by
      ext index
      simp only [Finset.mem_filter, Finset.mem_range, Finset.mem_Ico]
      omega
    rw [← inside, Finset.sum_filter, ← spread]
    exact Finset.sum_congr rfl fun index _ => by simp [total]
  rw [← window]
  refine forUp_sum_ensures total ordered ?_
  intro index sum lower upper
  have inside : index < n := by omega
  refine (step ⟨index, inside⟩ sum lower upper).imp ?_
  rintro next after ⟨added, same⟩
  exact ⟨by rw [added]; simp [total, inside], same⟩

/-- Invariant rule of the descending loop. -/
theorem forDown_ensures {body : Nat → β → Exec σ β} {count : Nat}
    (invariant : Nat → β → σ → Prop) (entry : invariant count init before)
    (step : ∀ index locals store, index < count → invariant (index + 1) locals store →
      (body index locals).Ensures store (invariant index)) :
    (forDown count init body).Ensures before (invariant 0) := by
  induction count generalizing init before with
  | zero => exact ensures_pure entry
  | succ count ih =>
      apply (step count init before (by omega) entry).bind
      intro locals store holds
      exact ih holds (fun index locals store upper => step index locals store (by omega))

/-- The invariant after every iteration, or the exit condition behind a break. -/
theorem iterateUntil_ensures {body : Nat → β → Exec σ (Flow ρ β)} {count start : Nat}
    (invariant : Nat → β → σ → Prop) (exit : ρ → σ → Prop)
    (entry : invariant start init before)
    (step : ∀ index locals store, start ≤ index → index < start + count →
      invariant index locals store →
      (body index locals).Ensures store fun flow after =>
        flow.Satisfies (invariant (index + 1) · after) (exit · after)) :
    (iterateUntil body count start init).Ensures before fun flow after =>
      flow.Satisfies (invariant (start + count) · after) (exit · after) := by
  induction count generalizing start init before with
  | zero => exact ensures_pure entry
  | succ count ih =>
      apply (step start init before (Nat.le_refl _) (by omega) entry).bind
      intro flow store holds
      cases flow with
      | leave result => exact ensures_pure holds
      | next locals =>
          have rest := ih holds (fun index locals store lower upper =>
            step index locals store (by omega) (by omega))
          simpa [Nat.add_assoc, Nat.add_comm 1 count] using rest

/-- Invariant rule of the loop with an early return: each iteration either
re-establishes the invariant or leaves with `exit`. -/
theorem forUntil_ensures {body : Nat → β → Exec σ (Flow ρ β)} {lo hi : Nat}
    (invariant : Nat → β → σ → Prop) (exit : ρ → σ → Prop) (ordered : lo ≤ hi)
    (entry : invariant lo init before)
    (step : ∀ index locals store, lo ≤ index → index < hi → invariant index locals store →
      (body index locals).Ensures store fun flow after =>
        flow.Satisfies (invariant (index + 1) · after) (exit · after)) :
    (forUntil lo hi init body).Ensures before fun flow after =>
      flow.Satisfies (invariant hi · after) (exit · after) := by
  have run := iterateUntil_ensures invariant exit entry (fun index locals store lower
    (upper : index < lo + (hi - lo)) => step index locals store lower (by omega))
  rwa [Nat.add_sub_of_le ordered] at run

/-- A loop in two parts. -/
theorem iterateUntil_add (body : Nat → β → Exec σ (Flow ρ β)) (first second start : Nat)
    (init : β) : iterateUntil body (first + second) start init =
      iterateUntil body first start init >>= resume (iterateUntil body second (start + first)) := by
  induction first generalizing start init with
  | zero => simp [iterateUntil, resume]
  | succ first ih =>
      rw [Nat.succ_add, iterateUntil, iterateUntil, bind_assoc]
      congr 1
      funext flow
      cases flow with
      | next locals =>
          have shifted : start + 1 + first = start + (first + 1) := by omega
          rw [← shifted]
          exact ih (start + 1) locals
      | leave result => simp [resume]

/-- A loop is its first iterations, resumed where they end. -/
theorem forUntil_split (body : Nat → β → Exec σ (Flow ρ β)) {lo middle hi : Nat} (init : β)
    (first : lo ≤ middle) (second : middle ≤ hi) :
    forUntil lo hi init body =
      forUntil lo middle init body >>= resume (forUntil middle hi · body) := by
  have total : hi - lo = (middle - lo) + (hi - middle) := by omega
  have start : lo + (middle - lo) = middle := by omega
  have split := iterateUntil_add body (middle - lo) (hi - middle) lo init
  rw [start, ← total] at split
  exact split

/-- No iteration is left at the end of the range. -/
theorem forUntil_self (body : Nat → β → Exec σ (Flow ρ β)) (hi : Nat) (init : β) :
    forUntil hi hi init body = pure (.next init) := by
  rw [forUntil, Nat.sub_self, iterateUntil]

/-- A loop whose index does not overflow keeps its invariant up to the bound. -/
theorem iterateInt_ensures {body : Nat → β → Exec σ β} {bound room start : Nat}
    (invariant : Nat → β → σ → Prop) (ordered : start ≤ bound) (fits : bound ≤ start + room)
    (entry : invariant start init before)
    (step : ∀ index locals store, index < bound → invariant index locals store →
      (body index locals).Ensures store (invariant (index + 1))) :
    (iterateInt bound body room start init).Ensures before (invariant bound) := by
  induction room generalizing start init before with
  | zero =>
      obtain rfl : start = bound := by omega
      rw [iterateInt, if_neg (Nat.lt_irrefl _)]
      exact ensures_pure entry
  | succ room ih =>
      rw [iterateInt]
      split
      next below =>
          apply (step start init before below entry).bind
          intro locals store holds
          exact ih (by omega) (by omega) holds
      next done =>
          obtain rfl : start = bound := by omega
          exact ensures_pure entry

/-- Invariant rule of the loop with a signed index, for a bound which fits in it. -/
theorem forInt_ensures {body : Nat → β → Exec σ β} {bound : Nat}
    (invariant : Nat → β → σ → Prop) (fits : bound ≤ intMax) (entry : invariant 0 init before)
    (step : ∀ index locals store, index < bound → invariant index locals store →
      (body index locals).Ensures store (invariant (index + 1))) :
    (forInt bound init body).Ensures before (invariant bound) :=
  iterateInt_ensures invariant (Nat.zero_le _) (by omega) entry step

/-- A loop faults where its body does first. -/
theorem iterateInt_fails {body : Nat → β → Exec σ β} {bound room start last : Nat}
    {fault : Fault} (invariant : Nat → β → σ → Prop) (reached : start ≤ last)
    (inside : last < bound) (fits : last ≤ start + room) (entry : invariant start init before)
    (step : ∀ index locals store, index < last → invariant index locals store →
      (body index locals).Ensures store (invariant (index + 1)))
    (stops : ∀ locals store, invariant last locals store →
      body last locals store = .error fault) :
    iterateInt bound body room start init before = .error fault := by
  have here (same : start = last) (next : β → Exec σ β) :
      (body start init >>= next) before = .error fault := by
    subst same
    exact bind_of_fails (stops init before entry)
  induction room generalizing start init before with
  | zero =>
      rw [iterateInt, if_pos (by omega)]
      exact here (by omega) _
  | succ room ih =>
      rw [iterateInt, if_pos (by omega)]
      rcases Nat.eq_or_lt_of_le reached with same | earlier
      · exact here same _
      · apply (step start init before earlier entry).bind_fails
        intro locals store holds
        refine ih (by omega) (by omega) holds fun same next => ?_
        subst same
        exact bind_of_fails (stops locals store holds)

/-- The loop stops with the fault of the first iteration which has one. -/
theorem forInt_fails {body : Nat → β → Exec σ β} {bound last : Nat} {fault : Fault}
    (invariant : Nat → β → σ → Prop) (inside : last < bound) (fits : last ≤ intMax)
    (entry : invariant 0 init before)
    (step : ∀ index locals store, index < last → invariant index locals store →
      (body index locals).Ensures store (invariant (index + 1)))
    (stops : ∀ locals store, invariant last locals store →
      body last locals store = .error fault) :
    forInt bound init body before = .error fault :=
  iterateInt_fails invariant (Nat.zero_le _) inside (by omega) entry step stops

end Exec

end Imperative
