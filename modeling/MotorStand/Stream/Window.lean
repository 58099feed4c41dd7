import Mathlib.Data.List.DropRight
import Mathlib.Tactic.Common

/-!
# Windows over the end of a stream

A list which grows at its end and drops its oldest element when it has become
too long holds the end of the stream, `List.rtake`.
-/

namespace SlidingWindow

variable {α β : Type}

/-- Append `next` and drop the oldest element of a window longer than `keep`. -/
def slide (keep : Nat) (window : List α) (next : α) : List α :=
  let appended := window ++ [next]
  if keep < appended.length then appended.tail else appended

variable {keep : Nat}

/-- A window is as long as it may be, or as the stream. -/
theorem length_rtake (stream : List α) : (stream.rtake keep).length = min stream.length keep := by
  rw [List.rtake, List.length_drop]
  omega

/-- A window at the end of the stream stays there. -/
theorem slide_rtake (stream : List α) (next : α) :
    slide keep (stream.rtake keep) next = (stream ++ [next]).rtake keep := by
  unfold slide
  simp only [List.length_append, List.length_singleton, length_rtake]
  split
  next full =>
      rw [← List.drop_one, List.rtake, List.rtake, List.length_append, List.length_singleton]
      -- the window started `stream.length - keep` in, and moves on by one
      have start : stream.length + 1 - keep = stream.length - keep + 1 := by omega
      rw [start, ← List.drop_append_of_le_length (by omega), List.drop_drop]
  next room =>
      have short : stream.length + 1 ≤ keep := by omega
      have all : stream.rtake keep = stream := by
        rw [List.rtake, Nat.sub_eq_zero_of_le (by omega), List.drop_zero]
      rw [all, List.rtake, List.length_append, List.length_singleton,
        Nat.sub_eq_zero_of_le short, List.drop_zero]

/-- The window of a mapped stream. -/
theorem map_rtake (stream : List α) (f : α → β) :
    (stream.rtake keep).map f = (stream.map f).rtake keep := by
  rw [List.rtake, List.rtake, List.map_drop, List.length_map]

end SlidingWindow
