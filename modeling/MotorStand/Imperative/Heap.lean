import MotorStand.Imperative.Loop
import Mathlib.Logic.Function.Basic

/-!
# Blocks and heaps

A `Block` is one allocation: a number of cells, each empty until it is first
written. A `Heap` maps addresses to blocks, so two pointers to the same block
are aliases and two blocks never overlap. Access outside a block and reading an
empty cell fault.
-/

namespace Imperative

/-- One allocation. -/
structure Block (α : Type) where
  size : Nat
  cell : Nat → Option α

namespace Block

variable {σ α : Type}

/-- Freshly allocated cells hold no value yet. -/
def uninitialised (α : Type) (size : Nat) : Block α := ⟨size, fun _ => none⟩

/-- The block with `value` in cell `index`. -/
def set (block : Block α) (index : Nat) (value : α) : Block α :=
  { block with cell := Function.update block.cell index (some value) }

/-- `block[index]`. -/
def read (block : Block α) (index : Nat) : Exec σ α :=
  if index < block.size then
    match block.cell index with
    | some value => pure value
    | none => Exec.fail .uninitialised
  else Exec.fail .outOfBounds

/-- `block[index] = value`. -/
def write (block : Block α) (index : Nat) (value : α) : Exec σ (Block α) :=
  if index < block.size then pure (block.set index value) else Exec.fail .outOfBounds

/-- A new block has the size which was asked for. -/
@[simp] theorem size_uninitialised (size : Nat) : (uninitialised α size).size = size := rfl

/-- A write keeps the size. -/
@[simp] theorem size_set (block : Block α) (index : Nat) (value : α) :
    (block.set index value).size = block.size := rfl

/-- A write changes one cell. -/
theorem cell_set (block : Block α) (index other : Nat) (value : α) :
    (block.set index value).cell other =
      if other = index then some value else block.cell other := by
  simp [set, Function.update_apply]

/-- Two blocks with the same size and cells are the same block. -/
@[ext] theorem ext {left right : Block α} (size : left.size = right.size)
    (cell : left.cell = right.cell) : left = right := by
  cases left
  cases right
  cases size
  cases cell
  rfl

variable {block : Block α} {index : Nat} {value : α} {before : σ}

/-- A cell which was written is read. -/
theorem read_returns (inside : index < block.size) (stored : block.cell index = some value) :
    (block.read index : Exec σ α) before = .ok (value, before) := by
  rw [read, if_pos inside, stored]
  rfl

/-- A write inside the block. -/
theorem write_returns (value : α) (inside : index < block.size) :
    (block.write index value : Exec σ (Block α)) before =
      .ok (block.set index value, before) := by
  rw [write, if_pos inside]
  rfl

end Block

/-- All allocations, by address. Addresses from `limit` on have not been handed out yet. -/
structure Heap (α : Type) where
  block : Nat → Block α
  limit : Nat
  fresh : ∀ address, limit ≤ address → (block address).size = 0

namespace Heap

variable {α : Type}

/-- The heap before any allocation. -/
def empty (α : Type) : Heap α := ⟨fun _ => .uninitialised α 0, 0, fun _ _ => rfl⟩

/-- The heap with one of its blocks replaced by a block of at most its size. -/
def replace (heap : Heap α) (address : Nat) (block : Block α)
    (bounded : block.size ≤ (heap.block address).size) : Heap α where
  block := Function.update heap.block address block
  limit := heap.limit
  fresh := by
    intro other above
    have unused := heap.fresh other above
    by_cases same : other = address
    · subst other
      simp only [Function.update_self]
      omega
    · simpa [Function.update_of_ne same] using unused

/-- The heap with a new block at `limit`. -/
def extend (heap : Heap α) (block : Block α) : Heap α where
  block := Function.update heap.block heap.limit block
  limit := heap.limit + 1
  fresh := by
    intro other above
    have different : other ≠ heap.limit := by omega
    simpa [Function.update_of_ne different] using heap.fresh other (by omega)

/-- The heap after `address[index] = value`. -/
def set (heap : Heap α) (address : Nat) (index : Nat) (value : α) : Heap α :=
  heap.replace address ((heap.block address).set index value) (Nat.le_refl _)

/-- `malloc` of `count` elements. -/
def malloc (count : Nat) : Exec (Heap α) Nat := fun heap =>
  .ok (heap.limit, heap.extend (.uninitialised α count))

/-- `free(address)`. Any later access to the block is out of bounds. -/
def free (address : Nat) : Exec (Heap α) Unit := fun heap =>
  .ok ((), heap.replace address (.uninitialised α 0) (Nat.zero_le _))

/-- `address[index]`. -/
def load (address : Nat) (index : Nat) : Exec (Heap α) α := fun heap =>
  (heap.block address).read index heap

/-- `address[index] = value`. -/
def store (address : Nat) (index : Nat) (value : α) : Exec (Heap α) Unit := fun heap =>
  if index < (heap.block address).size then .ok ((), heap.set address index value)
  else .error .outOfBounds

/-- A write allocates nothing. -/
@[simp] theorem limit_set (heap : Heap α) (address : Nat) (index : Nat) (value : α) :
    (heap.set address index value).limit = heap.limit := rfl

/-- The block which is written. -/
@[simp] theorem block_set_self (heap : Heap α) (address : Nat) (index : Nat) (value : α) :
    (heap.set address index value).block address = (heap.block address).set index value := by
  simp [set, replace]

/-- The other blocks stay as they are. -/
theorem block_set_of_ne (heap : Heap α) {address other : Nat} (index : Nat) (value : α)
    (different : other ≠ address) :
    (heap.set address index value).block other = heap.block other := by
  simp [set, replace, Function.update_of_ne different]

/-- `Frame touched before after`: every block of `before` whose address is not
`touched` is the same in `after`, and no address has been taken back. -/
structure Frame (touched : Nat → Prop) (before after : Heap α) : Prop where
  limit : before.limit ≤ after.limit
  same : ∀ address, address < before.limit → ¬ touched address →
    after.block address = before.block address

variable {touched wider : Nat → Prop} {before middle after : Heap α}

/-- Nothing is touched by doing nothing. -/
theorem Frame.refl (heap : Heap α) : Frame touched heap heap :=
  ⟨Nat.le_refl _, fun _ _ _ => rfl⟩

/-- Frames compose when the second touches only what the first may touch or what
was allocated in between. -/
theorem Frame.trans_of_fresh (first : Frame touched before middle)
    (second : Frame wider middle after)
    (inside : ∀ address, address < before.limit → wider address → touched address) :
    Frame touched before after where
  limit := Nat.le_trans first.limit second.limit
  same := by
    intro address old untouched
    have unused : ¬ wider address := fun wide => untouched (inside address old wide)
    rw [second.same address (Nat.lt_of_lt_of_le old first.limit) unused,
      first.same address old untouched]

/-- Frames follow one another. -/
theorem Frame.trans (first : Frame touched before middle) (second : Frame touched middle after) :
    Frame touched before after :=
  first.trans_of_fresh second (fun _ _ wide => wide)

/-- What touches less touches no more than a wider frame allows. -/
theorem Frame.weaken (frame : Frame touched before after)
    (inside : ∀ address, touched address → wider address) : Frame wider before after :=
  ⟨frame.limit, fun address old untouched =>
    frame.same address old (fun wide => untouched (inside address wide))⟩

/-- A write stays in the frame of its block. -/
theorem Frame.set {address : Nat} (member : touched address) (index : Nat) (value : α) :
    Frame touched before (before.set address index value) where
  limit := Nat.le_refl _
  same := by
    intro other _ untouched
    refine block_set_of_ne before index value ?_
    rintro rfl
    exact untouched member

/-- A new block touches none. -/
theorem Frame.extend (block : Block α) : Frame touched before (before.extend block) where
  limit := Nat.le_succ _
  same := by
    intro other old _
    have different : other ≠ before.limit := by omega
    simp [Heap.extend, Function.update_of_ne different]

/-- A block which is put back stays in its frame. -/
theorem Frame.replace {address : Nat} (member : touched address) {block : Block α}
    (bounded : block.size ≤ (before.block address).size) :
    Frame touched before (before.replace address block bounded) where
  limit := Nat.le_refl _
  same := by
    intro other _ untouched
    have different : other ≠ address := by
      rintro rfl
      exact untouched member
    simp [Heap.replace, Function.update_of_ne different]

variable {heap : Heap α} {address : Nat} {index : Nat} {value : α}

/-- A stored cell is loaded. -/
theorem load_returns (inside : index < (heap.block address).size)
    (stored : (heap.block address).cell index = some value) :
    load address index heap = .ok (value, heap) :=
  Block.read_returns inside stored

/-- A store inside its block. -/
theorem store_returns (value : α) (inside : index < (heap.block address).size) :
    store address index value heap = .ok ((), heap.set address index value) :=
  if_pos inside

/-- Allocation returns an address no earlier block has, and leaves those alone. -/
theorem malloc_ensures (count : Nat) (heap : Heap α) :
    (malloc count).Ensures heap fun address after =>
      address = heap.limit ∧ after.limit = heap.limit + 1 ∧
        after.block address = .uninitialised α count ∧ Frame (fun _ => False) heap after :=
  ⟨heap.limit, heap.extend (.uninitialised α count), rfl, rfl, rfl, by simp [extend], .extend _⟩

/-- Only the block is touched which is freed. -/
theorem free_ensures (address : Nat) (heap : Heap α) :
    (free address).Ensures heap fun _ after => Frame (· = address) heap after :=
  ⟨(), _, rfl, Frame.replace (by rfl) _⟩

/-- A block with cells has been handed out. -/
theorem lt_limit_of_size (positive : 0 < (heap.block address).size) : address < heap.limit := by
  by_contra above
  have unused := heap.fresh address (Nat.le_of_not_lt above)
  omega

end Heap

end Imperative
