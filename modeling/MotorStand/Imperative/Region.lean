import MotorStand.Imperative.Exec

/-!
# Byte regions

A `Region` is an allocation counted in bytes which an array of elements of
`width` bytes is laid out in. A byte holds a fragment: the value it belongs to
and its position in it. `realloc` counts bytes, so it may cut an element in two,
and an element can be read only while all its fragments are there.
-/

namespace Imperative

/-- An allocation of `size` bytes. -/
structure Region (α : Type) where
  size : Nat
  byte : Nat → Option (α × Nat)

namespace Region

variable {σ α : Type}

/-- `malloc(size)`. -/
def malloc (α : Type) (size : Nat) : Region α := ⟨size, fun _ => none⟩

/-- `realloc(region, size)`: the bytes below both sizes are kept. -/
def realloc (region : Region α) (size : Nat) : Region α :=
  ⟨size, fun offset => if offset < min region.size size then region.byte offset else none⟩

/-- The region with `value` stored as element `index`. -/
def put (region : Region α) (width index : Nat) (value : α) : Region α :=
  { region with
    byte := fun offset =>
      if offset / width = index then some (value, offset % width) else region.byte offset }

/-- Element `index` lies inside the allocated bytes. -/
def Inside (region : Region α) (width index : Nat) : Prop :=
  width * index + width ≤ region.size

instance (region : Region α) (width index : Nat) : Decidable (region.Inside width index) :=
  inferInstanceAs (Decidable (width * index + width ≤ region.size))

/-- The value all fragments of element `index` belong to. -/
def element [DecidableEq α] (region : Region α) (width index : Nat) : Option α :=
  match region.byte (width * index) with
  | none => none
  | some (value, _) =>
      if ∀ k < width, region.byte (width * index + k) = some (value, k) then some value else none

/-- `region[index]`. -/
def read [DecidableEq α] (region : Region α) (width index : Nat) : Exec σ α :=
  if region.Inside width index then
    match region.element width index with
    | some value => pure value
    | none => Exec.fail .uninitialised
  else Exec.fail .outOfBounds

/-- `region[index] = value`. -/
def write (region : Region α) (width index : Nat) (value : α) : Exec σ (Region α) :=
  if region.Inside width index then pure (region.put width index value)
  else Exec.fail .outOfBounds

variable {region : Region α} {width index other size : Nat} {value : α} {before : σ}

/-- `malloc` gets the bytes it asks for. -/
@[simp] theorem size_malloc : (malloc α size).size = size := rfl

/-- `realloc` as well. -/
@[simp] theorem size_realloc : (region.realloc size).size = size := rfl

/-- A write keeps the size. -/
@[simp] theorem size_put : (region.put width index value).size = region.size := rfl

/-- An element whose bytes lie in the region is written. -/
theorem write_returns (inside : region.Inside width index) :
    (region.write width index value : Exec σ (Region α)) before =
      .ok (region.put width index value, before) := by
  rw [write, if_pos inside]
  rfl

/-- Any other is a fault. -/
theorem write_fails (outside : ¬ region.Inside width index) :
    (region.write width index value : Exec σ (Region α)) before = .error .outOfBounds := by
  rw [write, if_neg outside]
  rfl

/-- The fragments of different elements do not overlap. -/
theorem byte_put (k : Nat) (below : k < width) :
    (region.put width index value).byte (width * other + k) =
      if other = index then some (value, k) else region.byte (width * other + k) := by
  have positive : 0 < width := Nat.zero_lt_of_lt below
  have quotient : (width * other + k) / width = other := by
    rw [Nat.mul_add_div positive, Nat.div_eq_of_lt below, Nat.add_zero]
  have remainder : (width * other + k) % width = k := by
    rw [Nat.mul_add_mod, Nat.mod_eq_of_lt below]
  simp only [put, quotient, remainder]

variable [DecidableEq α]

/-- An element which was written is read. -/
theorem read_returns (inside : region.Inside width index)
    (stored : region.element width index = some value) :
    (region.read width index : Exec σ α) before = .ok (value, before) := by
  rw [read, if_pos inside, stored]
  rfl

/-- Elements depend only on their own bytes. -/
theorem element_congr {left right : Region α} (positive : 0 < width)
    (same : ∀ k < width, left.byte (width * index + k) = right.byte (width * index + k)) :
    left.element width index = right.element width index := by
  have first : left.byte (width * index) = right.byte (width * index) := same 0 positive
  simp only [element, first]
  cases right.byte (width * index) with
  | none => rfl
  | some fragment =>
      have fragments : (∀ k < width, left.byte (width * index + k) = some (fragment.1, k)) ↔
          ∀ k < width, right.byte (width * index + k) = some (fragment.1, k) := by
        constructor
        · intro all k below
          rw [← same k below]
          exact all k below
        · intro all k below
          rw [same k below]
          exact all k below
      simp only [fragments]

/-- The element which is written. -/
theorem element_put_self (positive : 0 < width) :
    (region.put width index value).element width index = some value := by
  have all : ∀ k < width,
      (region.put width index value).byte (width * index + k) = some (value, k) := by
    intro k below
    rw [byte_put k below, if_pos rfl]
  have first := all 0 positive
  rw [Nat.add_zero] at first
  simp only [element, first]
  exact if_pos all

/-- The other elements do not share its bytes. -/
theorem element_put_of_ne (positive : 0 < width) (apart : other ≠ index) :
    (region.put width index value).element width other = region.element width other := by
  refine element_congr positive ?_
  intro k below
  rw [byte_put k below, if_neg apart]

/-- `realloc` keeps the elements below both sizes. -/
theorem element_realloc (positive : 0 < width) (kept : region.Inside width index)
    (room : (region.realloc size).Inside width index) :
    (region.realloc size).element width index = region.element width index := by
  refine element_congr positive ?_
  intro k below
  refine if_pos ?_
  simp only [Inside, size_realloc] at kept room
  omega

/-! ## Arrays in a region -/

/-- The region starts with the array `values`. -/
structure Holds (region : Region α) (width : Nat) (values : List α) : Prop where
  room : width * values.length ≤ region.size
  stored : ∀ index value, values[index]? = some value → region.element width index = some value

/-- Every region holds no values. -/
theorem Holds.nil : region.Holds width [] := ⟨Nat.zero_le _, by simp⟩

variable {values : List α}

/-- Held values lie in the region. -/
theorem Holds.inside (holds : region.Holds width values) (below : index < values.length) :
    region.Inside width index := by
  have room := holds.room
  have next : width * (index + 1) ≤ width * values.length := Nat.mul_le_mul_left width below
  rw [Nat.mul_succ] at next
  exact Nat.le_trans next room

/-- Held values are read. -/
theorem Holds.read_returns (holds : region.Holds width values) (value : α)
    (found : values[index]? = some value) :
    (region.read width index : Exec σ α) before = .ok (value, before) := by
  have below : index < values.length := (List.getElem?_eq_some_iff.mp found).1
  exact Region.read_returns (holds.inside below) (holds.stored index value found)

/-- Writing right after the array appends to it. -/
theorem Holds.put (holds : region.Holds width values) (value : α) (positive : 0 < width)
    (inside : region.Inside width values.length) :
    (region.put width values.length value).Holds width (values ++ [value]) := by
  refine ⟨?_, ?_⟩
  · rw [List.length_append, List.length_singleton, Nat.mul_succ]
    exact inside
  · intro index found present
    by_cases last : index = values.length
    · subst last
      rw [List.getElem?_concat_length] at present
      rw [element_put_self positive, present]
    · have below : index < values.length := by
        have bound := (List.getElem?_eq_some_iff.mp present).1
        rw [List.length_append, List.length_singleton] at bound
        omega
      rw [List.getElem?_append_left below] at present
      rw [element_put_of_ne positive last, holds.stored index found present]

/-- Dropping the last element needs no write. -/
theorem Holds.dropLast (holds : region.Holds width values) :
    region.Holds width values.dropLast := by
  refine ⟨Nat.le_trans (Nat.mul_le_mul_left width ?_) holds.room, ?_⟩
  · rw [List.length_dropLast]
    exact Nat.sub_le _ _
  · intro index value present
    have below := (List.getElem?_eq_some_iff.mp present).1
    rw [List.length_dropLast] at below
    rw [List.dropLast_eq_take, List.getElem?_take_of_lt below] at present
    exact holds.stored index value present

/-- A region which is still large enough keeps the array. -/
theorem Holds.realloc (holds : region.Holds width values) (positive : 0 < width)
    (room : width * values.length ≤ size) : (region.realloc size).Holds width values := by
  refine ⟨room, ?_⟩
  intro index value present
  have below : index < values.length := (List.getElem?_eq_some_iff.mp present).1
  have next : width * (index + 1) ≤ width * values.length := Nat.mul_le_mul_left width below
  rw [Nat.mul_succ] at next
  rw [element_realloc positive (holds.inside below) (Nat.le_trans next room)]
  exact holds.stored index value present

/-- The elements a callee reads through a pointer to the first `count` of them. -/
def elements (region : Region α) (width : Nat) : Nat → Exec σ (List α)
  | 0 => pure []
  | count + 1 => do
      let initial ← elements region width count
      let last ← region.read width count
      pure (initial ++ [last])

/-- Any number of held values is read in order. -/
theorem elements_of_holds (count : Nat) (bounded : count ≤ values.length)
    (holds : region.Holds width values) :
    (region.elements width count : Exec σ (List α)) before = .ok (values.take count, before) := by
  induction count with
  | zero => rfl
  | succ count ih =>
      have found : values[count]? = some values[count] := List.getElem?_eq_getElem bounded
      unfold elements
      rw [Exec.bind_of_returns (ih (Nat.le_of_succ_le bounded)),
        Exec.bind_of_returns (holds.read_returns _ found), List.take_succ_eq_append_getElem bounded]
      rfl

/-- Reading the whole array. -/
theorem Holds.elements_returns (holds : region.Holds width values) :
    (region.elements width values.length : Exec σ (List α)) before = .ok (values, before) := by
  rw [elements_of_holds _ (Nat.le_refl _) holds, List.take_length]

end Region

end Imperative
