import MotorStand.Text.Lines
import Mathlib.Data.List.Basic

/-!
# Lines which do not fit

A buffer which is too small for a line takes it in pieces. `fgets` never reads across
a line break, so the pieces of a file are those of its lines.
-/

namespace CText

/-- The lines of a file, each with its line break. The last one may have none. -/
def textLines : List Char → List (List Char)
  | [] => []
  | c :: file =>
      if c = '\n' then [c] :: textLines file
      else match textLines file with
        | [] => [[c]]
        | line :: lines => (c :: line) :: lines

variable {c : Char} {file line text : List Char} {lines : List (List Char)} {room : Nat}

/-- Only the empty file has no lines. -/
theorem textLines_eq_nil : textLines file = [] ↔ file = [] := by
  cases file with
  | nil => exact iff_of_true rfl rfl
  | cons c file =>
      rw [textLines]
      split
      · simp
      · split <;> simp

/-- No line is empty, since its break belongs to it. -/
theorem nil_not_mem_textLines (file : List Char) : [] ∉ textLines file := by
  induction file with
  | nil => exact List.not_mem_nil
  | cons c file ih =>
      rw [textLines]
      split
      · simpa using ih
      · split
        · simp
        next lines found =>
            rw [found] at ih
            simp at ih ⊢
            exact ih.2

/-- The lines are the file. -/
theorem textLines_flatten (file : List Char) : (textLines file).flatten = file := by
  induction file with
  | nil => rfl
  | cons c file ih =>
      rw [textLines]
      split
      · rw [List.flatten_cons, ih, List.singleton_append]
      · cases others : textLines file with
        | nil => rw [textLines_eq_nil.mp others]; rfl
        | cons line lines =>
            rw [others, List.flatten_cons] at ih
            rw [List.flatten_cons, List.cons_append, ih]

/-- The first character ends the first line, or the line goes on in the rest of the file. -/
theorem textLines_cons (split : textLines (c :: file) = line :: lines) :
    (c = '\n' ∨ file = []) ∧ line = [c] ∧ textLines file = lines ∨
      ∃ tail, c ≠ '\n' ∧ line = c :: tail ∧ textLines file = tail :: lines := by
  rw [textLines] at split
  by_cases broken : c = '\n'
  · rw [if_pos broken] at split
    cases split
    exact .inl ⟨.inl broken, rfl, rfl⟩
  · rw [if_neg broken] at split
    cases others : textLines file with
    | nil =>
        rw [others] at split
        cases split
        exact .inl ⟨.inr (textLines_eq_nil.mp others), rfl, rfl⟩
    | cons tail rest =>
        rw [others] at split
        cases split
        exact .inr ⟨tail, broken, rfl, rfl⟩

/-- A call reads the beginning of the first line. -/
theorem fgets_textLines (split : textLines file = line :: lines) (room : Nat) :
    fgets room file = (line.take room, line.drop room ++ lines.flatten) := by
  induction file generalizing line room with
  | nil => cases split
  | cons c file ih =>
      have whole := textLines_flatten (c :: file)
      rw [split, List.flatten_cons] at whole
      cases room with
      | zero => rw [fgets, List.take_zero, List.drop_zero, whole]
      | succ room =>
          rw [fgets]
          rcases textLines_cons split with ⟨last, rfl, rfl⟩ | ⟨tail, more, rfl, rest⟩
          · rw [textLines_flatten, List.take_succ_cons, List.drop_succ_cons, List.take_nil,
              List.drop_nil, List.nil_append]
            rcases last with broken | rfl
            · exact if_pos broken
            · cases room <;> exact ite_self _
          · rw [if_neg more, ih rest room]
            rfl

/-- What is left of the first line is the next line. -/
theorem textLines_drop (split : textLines file = line :: lines) (room : Nat) :
    textLines (line.drop room ++ lines.flatten) =
      if line.drop room = [] then lines else line.drop room :: lines := by
  induction file generalizing line room with
  | nil => cases split
  | cons c file ih =>
      have whole := textLines_flatten (c :: file)
      rw [split, List.flatten_cons] at whole
      cases room with
      | zero =>
          have nonempty : line ≠ [] := by
            rintro rfl
            apply nil_not_mem_textLines (c :: file)
            rw [split]
            exact List.mem_cons_self
          rw [List.drop_zero, whole, split, if_neg nonempty]
      | succ room =>
          rcases textLines_cons split with ⟨_, rfl, rest⟩ | ⟨tail, _, rfl, rest⟩
          · rw [List.drop_succ_cons, List.drop_nil, if_pos rfl, List.nil_append, ← rest,
              textLines_flatten]
          · exact ih rest room

/-- A line is a file of its own. -/
theorem textLines_line (split : textLines file = line :: lines) : textLines line = [line] := by
  induction file generalizing line with
  | nil => cases split
  | cons c file ih =>
      rcases textLines_cons split with ⟨_, rfl, _⟩ | ⟨tail, more, rfl, rest⟩
      · exact ite_self _
      · rw [textLines, if_neg more, ih rest]

/-- What is left of a line is a line. -/
theorem textLines_rest (single : textLines line = [line]) (room : Nat)
    (more : line.drop room ≠ []) : textLines (line.drop room) = [line.drop room] := by
  have left := textLines_drop single room
  rwa [if_neg more, List.flatten_nil, List.append_nil] at left

/-- A line is one line. -/
theorem textLines_of_mem (member : line ∈ textLines file) : textLines line = [line] := by
  induction file with
  | nil => cases member
  | cons c file ih =>
      cases split : textLines (c :: file) with
      | nil => cases textLines_eq_nil.mp split
      | cons first lines =>
          rw [split] at member
          rcases List.mem_cons.mp member with rfl | later
          · exact textLines_line split
          · rcases textLines_cons split with ⟨_, _, rest⟩ | ⟨tail, _, _, rest⟩
            · exact ih (by rwa [rest])
            · exact ih (by rw [rest]; exact List.mem_cons_of_mem tail later)

/-- A file without a line break is one line. -/
theorem textLines_of_not_mem (free : '\n' ∉ file) (nonempty : file ≠ []) :
    textLines file = [file] := by
  induction file with
  | nil => exact absurd rfl nonempty
  | cons c file ih =>
      have other : c ≠ '\n' := fun broken => free (by rw [broken]; exact List.mem_cons_self)
      rw [textLines, if_neg other]
      by_cases last : file = []
      · rw [last]
        rfl
      · rw [ih (fun member => free (List.mem_cons_of_mem c member)) last]

/-! ## The calls -/

/-- As many calls as there are characters are enough. -/
theorem fgetsUpTo_enough {count other : Nat} (first : file.length ≤ count)
    (second : file.length ≤ other) :
    fgetsUpTo (room + 1) count file = fgetsUpTo (room + 1) other file := by
  induction count generalizing file other with
  | zero =>
      rw [List.length_eq_zero_iff.mp (Nat.le_zero.mp first)]
      cases other <;> rfl
  | succ count ih =>
      cases file with
      | nil => cases other <;> rfl
      | cons c file =>
          cases other with
          | zero => cases second
          | succ other =>
              have shorter := fgets_rest_length room c file
              have rest := ih (shorter.trans (Nat.le_of_succ_le_succ first))
                (shorter.trans (Nat.le_of_succ_le_succ second))
              exact congrArg ((fgets (room + 1) (c :: file)).1 :: ·) rest

/-- The first piece, and the pieces of the rest. -/
theorem fgetsAll_cons (room : Nat) (c : Char) (file : List Char) :
    fgetsAll (room + 1) (c :: file) =
      (fgets (room + 1) (c :: file)).1 ::
        fgetsAll (room + 1) (fgets (room + 1) (c :: file)).2 :=
  congrArg ((fgets (room + 1) (c :: file)).1 :: ·)
    (fgetsUpTo_enough (fgets_rest_length room c file) (Nat.le_refl _))

/-- The first piece of the first line, and the pieces of what is left. -/
theorem fgetsAll_textLines (split : textLines file = line :: lines) (room : Nat) :
    fgetsAll (room + 1) file = line.take (room + 1) ::
      fgetsAll (room + 1) (line.drop (room + 1) ++ lines.flatten) := by
  cases file with
  | nil => cases split
  | cons c file => rw [fgetsAll_cons, fgets_textLines split]

/-- The pieces of one line have the length of the buffer. -/
theorem fgetsAll_line (single : textLines line = [line]) (room : Nat) :
    fgetsAll (room + 1) line =
      line.take (room + 1) :: fgetsAll (room + 1) (line.drop (room + 1)) := by
  rw [fgetsAll_textLines single, List.flatten_nil, List.append_nil]

/-- The pieces of a file are those of its lines. -/
theorem fgetsAll_flatMap (room : Nat) (file : List Char) :
    fgetsAll (room + 1) file = (textLines file).flatMap (fgetsAll (room + 1)) := by
  generalize size : file.length = count
  induction count using Nat.strongRecOn generalizing file with
  | ind count ih =>
      cases split : textLines file with
      | nil => rw [textLines_eq_nil.mp split]; rfl
      | cons line lines =>
          have whole := textLines_flatten file
          have lengths := congrArg List.length whole
          rw [split, List.flatten_cons, List.length_append] at lengths
          have positive : 0 < line.length := by
            apply List.length_pos_iff.mpr
            rintro rfl
            apply nil_not_mem_textLines file
            rw [split]
            exact List.mem_cons_self
          have shorter : (line.drop (room + 1) ++ lines.flatten).length < count := by
            rw [List.length_append, List.length_drop]
            omega
          rw [fgetsAll_textLines split, ih _ shorter _ rfl, textLines_drop split,
            List.flatMap_cons, fgetsAll_line (textLines_line split), List.cons_append]
          congr 1
          split
          next last => rw [last]; rfl
          next more => rw [List.flatMap_cons]

/-- The pieces of a line begin at the multiples of the room. -/
theorem exists_mem_fgetsAll_line (single : text ≠ [] → textLines text = [text]) (room : Nat) :
    (∃ piece ∈ fgetsAll (room + 1) text, piece.head? = some c) ↔
      ∃ k : Nat, text[(room + 1) * k]? = some c := by
  generalize size : text.length = count
  induction count using Nat.strongRecOn generalizing text with
  | ind count ih =>
      cases text with
      | nil => exact iff_of_false (by simp [fgetsAll, fgetsUpTo]) (by simp)
      | cons a tail =>
          have whole := single (List.cons_ne_nil a tail)
          have shorter : ((a :: tail).drop (room + 1)).length < count := by
            rw [← size, List.length_drop, List.length_cons]
            omega
          have others := ih _ shorter (textLines_rest whole (room + 1)) rfl
          simp only [fgetsAll_line whole, List.mem_cons, exists_eq_or_imp, others,
            List.getElem?_drop]
          constructor
          · rintro (first | ⟨k, found⟩)
            · exact ⟨0, first⟩
            · exact ⟨k + 1, by rwa [Nat.mul_succ, Nat.add_comm]⟩
          · rintro ⟨k, found⟩
            cases k with
            | zero => exact .inl found
            | succ k => exact .inr ⟨k, by rwa [Nat.mul_succ, Nat.add_comm] at found⟩

/-! ## What is decided by the first character -/

/-- The pieces in which the lines of a file go on. -/
def continuations (room : Nat) (file : List Char) : List (List Char) :=
  (textLines file).flatMap fun text => fgetsAll room (text.drop room)

/-- Where the pieces of a file begin. -/
theorem exists_mem_fgetsAll (room : Nat) (file : List Char) :
    (∃ piece ∈ fgetsAll (room + 1) file, piece.head? = some c) ↔
      ∃ text ∈ textLines file, ∃ k : Nat, text[(room + 1) * k]? = some c := by
  rw [fgetsAll_flatMap]
  constructor
  · rintro ⟨piece, member, first⟩
    obtain ⟨text, inside, part⟩ := List.mem_flatMap.mp member
    have single := textLines_of_mem inside
    exact ⟨text, inside, (exists_mem_fgetsAll_line (fun _ => single) room).mp ⟨piece, part, first⟩⟩
  · rintro ⟨text, inside, found⟩
    have single := textLines_of_mem inside
    obtain ⟨piece, part, first⟩ := (exists_mem_fgetsAll_line (fun _ => single) room).mpr found
    exact ⟨piece, List.mem_flatMap.mpr ⟨text, inside, part⟩, first⟩

/-- Where the pieces begin which are not the first of their lines. -/
theorem exists_mem_continuations (room : Nat) (file : List Char) :
    (∃ piece ∈ continuations (room + 1) file, piece.head? = some c) ↔
      ∃ text ∈ textLines file, ∃ k : Nat, text[(room + 1) * (k + 1)]? = some c := by
  have shifted (text : List Char) (k : Nat) :
      text[(room + 1) * (k + 1)]? = (text.drop (room + 1))[(room + 1) * k]? := by
    rw [List.getElem?_drop, Nat.mul_succ, Nat.add_comm]
  simp only [shifted]
  constructor
  · rintro ⟨piece, member, first⟩
    obtain ⟨text, inside, part⟩ := List.mem_flatMap.mp member
    have single := textLines_rest (textLines_of_mem inside) (room + 1)
    exact ⟨text, inside, (exists_mem_fgetsAll_line single room).mp ⟨piece, part, first⟩⟩
  · rintro ⟨text, inside, found⟩
    have single := textLines_rest (textLines_of_mem inside) (room + 1)
    obtain ⟨piece, part, first⟩ := (exists_mem_fgetsAll_line single room).mpr found
    exact ⟨piece, List.mem_flatMap.mpr ⟨text, inside, part⟩, first⟩

/-- The first piece of every line, and behind it the pieces of what is left. -/
theorem fgetsAll_pieces (room : Nat) (file : List Char) :
    fgetsAll (room + 1) file = (textLines file).flatMap fun line =>
      line.take (room + 1) :: fgetsAll (room + 1) (line.drop (room + 1)) := by
  rw [fgetsAll_flatMap]
  exact List.flatMap_congr fun line member => fgetsAll_line (textLines_of_mem member) room

variable {starts : List Char → Bool}

/-- Pieces are counted line by line. -/
theorem countP_fgetsAll (starts_take : ∀ line, starts (line.take (room + 1)) = starts line)
    (file : List Char) :
    (fgetsAll (room + 1) file).countP starts =
      (textLines file).countP starts + (continuations (room + 1) file).countP starts := by
  rw [fgetsAll_pieces, continuations]
  induction textLines file with
  | nil => rfl
  | cons line lines ih =>
      rw [List.flatMap_cons, List.flatMap_cons, List.countP_append, List.countP_append, ih,
        List.countP_cons, List.countP_cons, starts_take]
      omega

/-- If no line goes on in a piece which counts, the first pieces of the lines are left. -/
theorem filter_fgetsAll (starts_take : ∀ line, starts (line.take (room + 1)) = starts line)
    (none : ∀ piece ∈ continuations (room + 1) file, starts piece = false) :
    (fgetsAll (room + 1) file).filter starts =
      ((textLines file).filter starts).map (List.take (room + 1)) := by
  rw [fgetsAll_pieces]
  rw [continuations] at none
  generalize textLines file = lines at none ⊢
  induction lines with
  | nil => rfl
  | cons line lines ih =>
      have rest : (fgetsAll (room + 1) (line.drop (room + 1))).filter starts = [] := by
        apply List.filter_eq_nil_iff.mpr
        intro piece member
        rw [none piece (List.mem_append_left _ member)]
        exact Bool.false_ne_true
      have others := ih fun piece member => none piece (List.mem_append_right _ member)
      rw [List.flatMap_cons, List.filter_append, others, List.filter_cons, starts_take, rest,
        List.filter_cons]
      split
      · rw [List.map_cons, List.singleton_append]
      · rw [List.nil_append]

end CText
