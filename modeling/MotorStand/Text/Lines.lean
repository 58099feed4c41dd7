import Mathlib.Data.List.DropRight
import Mathlib.Data.List.TakeWhile
import Mathlib.Tactic.Common

/-!
# Reading a file line by line

`fgets` stores at most one line, and less if the buffer is too small for it. A
file of lines which fit is read line by line. What is left of a file begins in one of its
lines, at the start of it or further on.
-/

namespace CText

/-- `fgets` into a buffer for `room` characters and the NUL: what it stores, and what is
left of the file. -/
def fgets : Nat → List Char → List Char × List Char
  | 0, file => ([], file)
  | _ + 1, [] => ([], [])
  | room + 1, c :: file =>
      if c = '\n' then ([c], file)
      else
        let (line, rest) := fgets room file
        (c :: line, rest)

/-- What at most `count` calls of `fgets` store, up to the end of the file. -/
def fgetsUpTo (room : Nat) : Nat → List Char → List (List Char)
  | 0, _ => []
  | _ + 1, [] => []
  | count + 1, c :: file =>
      let (line, rest) := fgets room (c :: file)
      line :: fgetsUpTo room count rest

/-- What `while (fgets(...))` stores: a call takes at least one character of the file. -/
def fgetsAll (room : Nat) (file : List Char) : List (List Char) :=
  fgetsUpTo room file.length file

/-- The NUL. -/
def nul : Char := '\x00'

/-- The string which is stored in a buffer: a NUL in it ends it. -/
def cString (stored : List Char) : List Char := stored.takeWhile fun c => c.toNat ≠ 0

/-- `line` is the line of `file` in which `rest`, what is left of it, begins. -/
def LineAt (file rest line : List Char) : Prop :=
  ∃ before opening closing after, file = before ++ opening ++ rest ∧ rest = closing ++ after ∧
    line = opening ++ closing ∧ '\n' ∉ line ∧ (∀ c ∈ before.getLast?, c = '\n') ∧
      ∀ c ∈ after.head?, c = '\n'

/-- That line, from the last line break in front of `rest` to the first one in it. -/
def lineAround (file rest : List Char) : List Char :=
  (file.take (file.length - rest.length)).rtakeWhile (· ≠ '\n') ++ rest.takeWhile (· ≠ '\n')

/-- A line which a buffer for `room` characters can hold. -/
structure IsLine (room : Nat) (line : List Char) : Prop where
  ended : ∃ body, line = body ++ ['\n'] ∧ '\n' ∉ body
  fits : line.length ≤ room

variable {room count : Nat} {file line rest body before after : List Char}
  {lines : List (List Char)}

/-- Nothing of the file is lost. -/
theorem fgets_append (room : Nat) (file : List Char) :
    (fgets room file).1 ++ (fgets room file).2 = file := by
  induction file generalizing room with
  | nil => cases room <;> rfl
  | cons c file ih =>
      cases room with
      | zero => rfl
      | succ room =>
          rw [fgets]
          split
          · rfl
          · rw [List.cons_append, ih room]

/-- The buffer is not overrun. -/
theorem fgets_length_le (room : Nat) (file : List Char) : (fgets room file).1.length ≤ room := by
  induction file generalizing room with
  | nil => cases room <;> exact Nat.zero_le _
  | cons c file ih =>
      cases room with
      | zero => exact Nat.le_refl 0
      | succ room =>
          rw [fgets]
          split
          · exact Nat.succ_le_succ (Nat.zero_le room)
          · exact Nat.succ_le_succ (ih room)

/-- A call takes at least one character of the file. -/
theorem fgets_rest_length (room : Nat) (c : Char) (file : List Char) :
    (fgets (room + 1) (c :: file)).2.length ≤ file.length := by
  have nonempty : (fgets (room + 1) (c :: file)).1 ≠ [] := by
    rw [fgets]
    split <;> exact List.cons_ne_nil _ _
  have lengths := congrArg List.length (fgets_append (room + 1) (c :: file))
  rw [List.length_append, List.length_cons] at lengths
  have positive := List.length_pos_iff.mpr nonempty
  omega

/-- A line which fits is read with its line break. -/
theorem fgets_body (free : '\n' ∉ body) (fits : body.length < room) (rest : List Char) :
    fgets room (body ++ '\n' :: rest) = (body ++ ['\n'], rest) := by
  induction body generalizing room with
  | nil =>
      cases room with
      | zero => cases fits
      | succ room => exact if_pos rfl
  | cons c body ih =>
      cases room with
      | zero => cases fits
      | succ room =>
          have other : c ≠ '\n' := by
            rintro rfl
            exact free List.mem_cons_self
          have remaining := ih (fun member => free (List.mem_cons_of_mem _ member))
            (Nat.lt_of_succ_lt_succ fits)
          rw [List.cons_append, fgets, if_neg other, remaining]
          rfl

/-- A line which fits is read in one call. -/
theorem IsLine.fgets_eq (isLine : IsLine room line) (rest : List Char) :
    fgets room (line ++ rest) = (line, rest) := by
  obtain ⟨⟨body, rfl, free⟩, fits⟩ := isLine
  rw [List.length_append, List.length_singleton] at fits
  rw [List.append_assoc]
  exact fgets_body free fits rest

/-- Lines which fit are read one by one. -/
theorem fgetsUpTo_lines (all : ∀ line ∈ lines, IsLine room line)
    (enough : lines.flatten.length ≤ count) : fgetsUpTo room count lines.flatten = lines := by
  induction lines generalizing count with
  | nil => cases count <;> rfl
  | cons line lines ih =>
      have first := all line List.mem_cons_self
      obtain ⟨body, ended, _⟩ := first.ended
      have nonempty : line ≠ [] := by
        rw [ended]
        exact List.append_ne_nil_of_right_ne_nil _ (List.cons_ne_nil _ _)
      rw [List.flatten_cons, List.length_append] at enough
      cases line with
      | nil => exact absurd rfl nonempty
      | cons c tail =>
          have read := first.fgets_eq lines.flatten
          obtain ⟨fewer, rfl⟩ : ∃ fewer, count = fewer + 1 :=
            ⟨count - 1, by rw [List.length_cons] at enough; omega⟩
          rw [List.length_cons] at enough
          have remaining : lines.flatten.length ≤ fewer := by omega
          have others := ih (fun line member => all line (List.mem_cons_of_mem _ member)) remaining
          rw [List.flatten_cons, List.cons_append, fgetsUpTo, ← List.cons_append, read]
          exact congrArg ((c :: tail) :: ·) others

/-- A file of lines which fit is read line by line. -/
theorem fgetsAll_lines (all : ∀ line ∈ lines, IsLine room line) :
    fgetsAll room lines.flatten = lines :=
  fgetsUpTo_lines all (Nat.le_refl _)

/-- Behind the NUL nothing belongs to the string. -/
theorem cString_append_nul (line rest : List Char) :
    cString (line ++ nul :: rest) = cString line := by
  induction line with
  | nil => rfl
  | cons c line ih =>
      rw [cString, List.cons_append, List.takeWhile_cons, cString, List.takeWhile_cons]
      split
      · exact congrArg (c :: ·) ih
      · rfl

/-- Without a NUL the string is the whole line. -/
theorem cString_of_ne (free : ∀ c ∈ line, c.toNat ≠ 0) : cString line = line := by
  apply List.takeWhile_eq_self_iff.mpr
  intro c member
  exact decide_eq_true (free c member)

/-- A string has no NUL inside. -/
theorem ne_nul_of_mem_cString {c : Char} (member : c ∈ cString line) : c.toNat ≠ 0 := by
  simpa using List.mem_takeWhile_imp member

/-- `buf[strlen(buf)-1] = '\0'` takes the last character off the string. -/
theorem cString_set (nonempty : cString line ≠ []) :
    cString (line.set ((cString line).length - 1) nul) = (cString line).dropLast := by
  obtain ⟨front, last, split⟩ := (List.eq_nil_or_concat (cString line)).resolve_left nonempty
  rw [List.concat_eq_append] at split
  have free : ∀ c ∈ front, c.toNat ≠ 0 := by
    intro c member
    have inside : c ∈ cString line := by
      rw [split]
      exact List.mem_append_left _ member
    exact ne_nul_of_mem_cString inside
  have whole : line = front ++ last :: line.dropWhile fun c => c.toNat ≠ 0 := by
    rw [← List.singleton_append, ← List.append_assoc, ← split]
    exact (List.takeWhile_append_dropWhile ..).symm
  have shorter : line.set front.length nul =
      front ++ nul :: line.dropWhile fun c => c.toNat ≠ 0 := by
    conv_lhs => rw [whole]
    simp
  rw [split, List.length_append, List.length_singleton, Nat.add_sub_cancel, shorter,
    cString_append_nul, cString_of_ne free, List.dropLast_concat]

/-! ## The line in which a rest begins -/

/-- What stands in front of the first line break. -/
theorem takeWhile_line (free : '\n' ∉ body) (ended : ∀ c ∈ after.head?, c = '\n') :
    (body ++ after).takeWhile (· ≠ '\n') = body := by
  have none : after.takeWhile (· ≠ '\n') = [] := by
    cases after with
    | nil => rfl
    | cons c after => simp [ended c rfl]
  have inside : ∀ c ∈ body, decide (c ≠ '\n') = true := by
    rintro c member
    apply decide_eq_true
    rintro rfl
    exact free member
  rw [List.takeWhile_append_of_pos inside, none, List.append_nil]

/-- What stands behind the last line break. -/
theorem rtakeWhile_line (free : '\n' ∉ body) (started : ∀ c ∈ before.getLast?, c = '\n') :
    (before ++ body).rtakeWhile (· ≠ '\n') = body := by
  have reversed : (body.reverse ++ before.reverse).takeWhile (· ≠ '\n') = body.reverse :=
    takeWhile_line (by simpa using free) (by simpa using started)
  rw [List.rtakeWhile, List.reverse_append, reversed, List.reverse_reverse]

/-- What has been passed of the file. -/
theorem take_passed (passed rest : List Char) :
    (passed ++ rest).take ((passed ++ rest).length - rest.length) = passed := by
  simp

/-- The computed line is the one in which `rest` begins. -/
theorem lineAt_lineAround (inside : rest <:+ file) : LineAt file rest (lineAround file rest) := by
  obtain ⟨passed, rfl⟩ := inside
  refine ⟨passed.rdropWhile (· ≠ '\n'), passed.rtakeWhile (· ≠ '\n'), rest.takeWhile (· ≠ '\n'),
    rest.dropWhile (· ≠ '\n'), ?_, List.takeWhile_append_dropWhile.symm, ?_, ?_, ?_, ?_⟩
  · rw [List.rdropWhile_append_rtakeWhile]
  · rw [lineAround, take_passed]
  · rw [lineAround, take_passed]
    intro member
    rcases List.mem_append.mp member with opening | closing
    · simpa using List.mem_rtakeWhile_imp opening
    · simpa using List.mem_takeWhile_imp closing
  · intro c last
    have nonempty : passed.rdropWhile (· ≠ '\n') ≠ [] :=
      List.ne_nil_of_mem (List.mem_of_getLast? last)
    have stopped := List.rdropWhile_last_not _ passed nonempty
    rw [List.getLast?_eq_some_getLast nonempty] at last
    rw [Option.mem_some_iff.mp last] at stopped
    simpa using stopped
  · intro c first
    have stopped := List.head?_dropWhile_not (· ≠ '\n') rest
    rw [first] at stopped
    simpa using stopped

/-- There is only one such line. -/
theorem lineAt_iff (inside : rest <:+ file) : LineAt file rest line ↔ line = lineAround file rest := by
  constructor
  · rintro ⟨before, opening, closing, after, rfl, rfl, rfl, free, started, ended⟩
    rw [List.mem_append, not_or] at free
    rw [lineAround, take_passed, rtakeWhile_line free.1 started, takeWhile_line free.2 ended]
  · rintro rfl
    exact lineAt_lineAround inside

/-- Behind a skipped character the line is still the whole one. -/
example : lineAround ['1', '\n', '2', '3', '\n'] ['3', '\n'] = ['2', '3'] := by decide

end CText
