import MotorStand.Imperative.Heap
import Mathlib.Data.List.Nodup

/-!
# Access traces

A program over a `Memory` runs on a plain heap or on one which also records its accesses.
`Traces` says that the recording changes nothing, and what is recorded. It has one rule
for each construct of a program whose accesses do not depend on the data.
-/

namespace Imperative

/-- One access to a cell. -/
inductive Access where
  | read (address index : Nat)
  | write (address index : Nat)
deriving DecidableEq, Repr

/-- How a program over the store `σ` reaches the cells of its blocks. -/
structure Memory (σ α : Type) where
  load : Nat → Nat → Exec σ α
  store : Nat → Nat → α → Exec σ Unit

/-- A heap and the accesses made so far. -/
structure Recorded (α : Type) where
  heap : Heap α
  accesses : List Access

namespace Exec

variable {α β γ : Type}

/-- `program`, which makes `accesses`, on a heap where accesses are recorded. -/
def record (accesses : List Access) (program : Exec (Heap α) β) : Exec (Recorded α) β :=
  fun before =>
    match program before.heap with
    | .ok (value, after) => .ok (value, ⟨after, before.accesses ++ accesses⟩)
    | .error fault => .error fault

/-- The recording program does what the plain one does and records `accesses`. -/
def Traces (recording : Exec (Recorded α) β) (plain : Exec (Heap α) β)
    (accesses : List Access) : Prop :=
  recording = record accesses plain

end Exec

namespace Memory

/-- The heap itself. -/
def plain (α : Type) : Memory (Heap α) α := ⟨Heap.load, Heap.store⟩

/-- The heap with every access recorded. -/
def recording (α : Type) : Memory (Recorded α) α where
  load address index := Exec.record [.read address index] (Heap.load address index)
  store address index value :=
    Exec.record [.write address index] (Heap.store address index value)

end Memory

namespace Exec

variable {α β γ : Type} {recording : Exec (Recorded α) β} {plain : Exec (Heap α) β}
  {first second : List Access}

/-- A load is recorded. -/
theorem traces_load (address index : Nat) :
    Traces ((Memory.recording α).load address index) (Heap.load address index)
      [.read address index] := rfl

/-- A store is recorded. -/
theorem traces_store (address index : Nat) (value : α) :
    Traces ((Memory.recording α).store address index value) (Heap.store address index value)
      [.write address index] := rfl

/-- A value without an access. -/
theorem traces_pure (value : β) :
    Traces (pure value : Exec (Recorded α) β) (pure value) [] := by
  funext before
  change Except.ok (value, before) = .ok (value, ⟨before.heap, before.accesses ++ []⟩)
  rw [List.append_nil]

/-- An assertion without an access. -/
theorem traces_require (condition : Prop) [Decidable condition] (message : String) :
    Traces (require condition message : Exec (Recorded α) Unit) (require condition message)
      [] := by
  unfold require
  split
  · exact traces_pure ()
  · rfl

/-- Accesses stand one behind the other. -/
theorem Traces.bind {next : β → Exec (Recorded α) γ} {plainNext : β → Exec (Heap α) γ}
    (traces : Traces recording plain first)
    (rest : ∀ value, Traces (next value) (plainNext value) second) :
    Traces (recording >>= next) (plain >>= plainNext) (first ++ second) := by
  funext before
  obtain rfl : recording = record first plain := traces
  cases run : plain before.heap with
  | error fault =>
      have failed : record first plain before = .error fault := by
        simp only [record, run]
      rw [bind_of_fails failed, record, bind_of_fails run]
  | ok pair =>
      obtain ⟨value, after⟩ := pair
      have returned : record first plain before =
          .ok (value, ⟨after, before.accesses ++ first⟩) := by
        simp only [record, run]
      rw [bind_of_returns returned, rest value, record, record, bind_of_returns run]
      simp only [List.append_assoc]

/-- A loop makes the accesses of its iterations, in order. -/
theorem traces_iterateUp {body : Nat → β → Exec (Recorded α) β}
    {plainBody : Nat → β → Exec (Heap α) β} {accesses : Nat → List Access}
    (each : ∀ index locals, Traces (body index locals) (plainBody index locals) (accesses index))
    (count start : Nat) (init : β) :
    Traces (iterateUp body count start init) (iterateUp plainBody count start init)
      ((List.range' start count).flatMap accesses) := by
  induction count generalizing start init with
  | zero => exact traces_pure init
  | succ count ih =>
      rw [List.range'_succ, List.flatMap_cons]
      exact (each start init).bind fun locals => ih (start + 1) locals

/-- A loop records what its iterations record, in their order. -/
theorem traces_forUp {body : Nat → β → Exec (Recorded α) β}
    {plainBody : Nat → β → Exec (Heap α) β} {accesses : Nat → List Access}
    (each : ∀ index locals, Traces (body index locals) (plainBody index locals) (accesses index))
    (hi : Nat) (init : β) :
    Traces (forUp 0 hi init body) (forUp 0 hi init plainBody)
      ((List.range hi).flatMap accesses) := by
  rw [List.range_eq_range']
  exact traces_iterateUp each hi 0 init

/-- What the plain program ensures, the recording one ensures beside its accesses. -/
theorem Traces.ensures {post : β → Heap α → Prop} {heap : Heap α}
    (traces : Traces recording plain first) (ensures : plain.Ensures heap post) :
    recording.Ensures ⟨heap, []⟩ fun value after =>
      post value after.heap ∧ after.accesses = first := by
  obtain ⟨value, after, run, holds⟩ := ensures
  obtain rfl : recording = record first plain := traces
  exact ⟨value, ⟨after, first⟩, by simp [record, run], holds, rfl⟩

end Exec

namespace Access

/-- The accessed cell lies in its block. -/
def Inside {α : Type} (heap : Heap α) : Access → Prop
  | read address index => index < (heap.block address).size
  | write address index => index < (heap.block address).size

/-- The cell which a write goes to. -/
def written : Access → Option (Nat × Nat)
  | read _ _ => none
  | write address index => some (address, index)

/-- Of all cells, exactly the first `size` of the block at `address` are written, each of
them once. -/
def WritesOnce (accesses : List Access) (address size : Nat) : Prop :=
  (accesses.filterMap written).Nodup ∧
    ∀ cell, cell ∈ accesses.filterMap written ↔ cell.1 = address ∧ cell.2 < size

/-- A double loop with one write per iteration writes every cell once if its positions are
a numbering of the cells. -/
theorem writesOnce_of_positions {accesses : List Access} {address size m n : Nat}
    (position : Nat → Nat → Nat)
    (writes : accesses.filterMap written = (List.range m).flatMap fun i =>
      (List.range n).map fun j => (address, position i j))
    (bounded : ∀ i < m, ∀ j < n, position i j < size)
    (injective : ∀ i < m, ∀ j < n, ∀ r < m, ∀ c < n, position i j = position r c →
      i = r ∧ j = c)
    (onto : ∀ index < size, ∃ i < m, ∃ j < n, position i j = index) :
    WritesOnce accesses address size := by
  constructor
  · rw [writes, List.nodup_flatMap]
    constructor
    · intro i row
      rw [List.mem_range] at row
      refine List.Nodup.map_on ?_ List.nodup_range
      intro j column c other same
      rw [List.mem_range] at column other
      exact (injective i row j column i row c other (Prod.mk.inj same).2).2
    · refine List.nodup_range.pairwise_of_forall_ne ?_
      intro i row r other apart cell here there
      rw [List.mem_range] at row other
      obtain ⟨j, column, rfl⟩ := List.mem_map.mp here
      obtain ⟨c, further, same⟩ := List.mem_map.mp there
      rw [List.mem_range] at column further
      exact apart (injective r other c further i row j column (Prod.mk.inj same).2).1.symm
  · intro cell
    rw [writes]
    simp only [List.mem_flatMap, List.mem_map, List.mem_range]
    constructor
    · rintro ⟨i, row, j, column, rfl⟩
      exact ⟨rfl, bounded i row j column⟩
    · rintro ⟨same, inside⟩
      obtain ⟨i, row, j, column, placed⟩ := onto cell.2 inside
      exact ⟨i, row, j, column, by rw [placed, ← same]⟩

end Access

end Imperative
