import Mathlib.Data.List.Flatten
import Mathlib.Tactic.Common

/-!
# Streams cut into blocks

A stream sent in full blocks of one size leaves a rest which is shorter than a
block. The number of blocks, their contents and the rest are then determined by
the stream.
-/

namespace BlockStream

variable {α : Type}

/-- `blocks` and then `rest` are `stream`, cut every `size` elements. -/
structure Cut (size : Nat) (blocks : List (List α)) (rest stream : List α) : Prop where
  uniform : ∀ block ∈ blocks, block.length = size
  whole : blocks.flatten ++ rest = stream
  short : rest.length < size

variable {size : Nat} {blocks : List (List α)} {rest stream : List α}

/-- An empty stream has no blocks. -/
theorem Cut.nil (positive : 0 < size) : Cut size [] [] ([] : List α) :=
  ⟨by simp, rfl, positive⟩

/-- An element which does not fill the rest stays in it. -/
theorem Cut.keep (cut : Cut size blocks rest stream) (next : α)
    (room : rest.length + 1 < size) : Cut size blocks (rest ++ [next]) (stream ++ [next]) where
  uniform := cut.uniform
  whole := by rw [← List.append_assoc, cut.whole]
  short := by simpa using room

/-- An element which fills the rest completes a block. -/
theorem Cut.emit (cut : Cut size blocks rest stream) (next : α)
    (full : rest.length + 1 = size) :
    Cut size (blocks ++ [rest ++ [next]]) [] (stream ++ [next]) where
  uniform := by
    intro block member
    rcases List.mem_append.mp member with earlier | last
    · exact cut.uniform block earlier
    · rw [List.mem_singleton.mp last]
      simpa using full
  whole := by
    rw [List.flatten_append, List.flatten_singleton, List.append_nil, ← List.append_assoc, cut.whole]
  short := by
    rw [List.length_nil]
    omega

/-- Blocks of one size have their lengths added up. -/
theorem length_flatten_of_uniform (uniform : ∀ block ∈ blocks, block.length = size) :
    blocks.flatten.length = size * blocks.length := by
  induction blocks with
  | nil => simp
  | cons block others ih =>
      have first := uniform block (List.mem_cons_self ..)
      have tail := ih fun other member => uniform other (List.mem_cons_of_mem _ member)
      rw [List.flatten_cons, List.length_append, first, tail, List.length_cons, Nat.mul_succ,
        Nat.add_comm]

/-- The blocks and the rest are the stream. -/
theorem Cut.length_eq (cut : Cut size blocks rest stream) :
    stream.length = size * blocks.length + rest.length := by
  rw [← cut.whole, List.length_append, length_flatten_of_uniform cut.uniform]

/-- There are as many blocks as fit into the stream. -/
theorem Cut.count (cut : Cut size blocks rest stream) :
    blocks.length = stream.length / size := by
  rw [cut.length_eq, Nat.mul_add_div (Nat.zero_lt_of_lt cut.short),
    Nat.div_eq_of_lt cut.short, Nat.add_zero]

/-- What is left is less than a block. -/
theorem Cut.rest_length (cut : Cut size blocks rest stream) :
    rest.length = stream.length % size := by
  rw [cut.length_eq, Nat.mul_add_mod, Nat.mod_eq_of_lt cut.short]

/-- The blocks are the first elements of the stream, in order. -/
theorem Cut.flatten_eq_take (cut : Cut size blocks rest stream) :
    blocks.flatten = stream.take (size * (stream.length / size)) := by
  have length := length_flatten_of_uniform cut.uniform
  rw [cut.count] at length
  rw [← length, ← cut.whole, List.take_left]

/-- The rest is what remains of the stream. -/
theorem Cut.rest_eq_drop (cut : Cut size blocks rest stream) :
    rest = stream.drop (size * (stream.length / size)) := by
  have length := length_flatten_of_uniform cut.uniform
  rw [cut.count] at length
  rw [← length, ← cut.whole, List.drop_left]

/-- Nothing is left over exactly if the size divides the length of the stream. -/
theorem Cut.flatten_eq_iff (cut : Cut size blocks rest stream) :
    blocks.flatten = stream ↔ stream.length % size = 0 := by
  rw [← cut.rest_length, List.length_eq_zero_iff]
  constructor
  · intro all
    have whole := cut.whole
    rw [all] at whole
    exact List.append_right_eq_self.mp whole
  · rintro rfl
    rw [← cut.whole, List.append_nil]

end BlockStream
