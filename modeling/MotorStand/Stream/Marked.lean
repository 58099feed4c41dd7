import Mathlib.Data.List.Infix
import Mathlib.Tactic.Common
import Mathlib.Tactic.Ring

/-!
# Streams of marked sections

Sections of any length, each behind a marker of `count` fillers and with nothing
escaped in them. Such a stream can be cut back into its sections if no section
holds a whole marker and none but the first begins with the filler.
-/

namespace MarkedStream

variable {α β : Type}

/-- The sections, each behind its marker. -/
def marked (filler : α) (count : Nat) (sections : List (List α)) : List α :=
  sections.flatMap fun part => List.replicate count filler ++ part

/-- The section begins with the filler. -/
def Begins (filler : α) (part : List α) : Prop := part.head? = some filler

/-- The section holds a whole marker. -/
def Imitates (filler : α) (count : Nat) (part : List α) : Prop :=
  List.replicate count filler <:+: part

variable {filler : α} {count shift : Nat} {part other rest : List α}
  {sections others : List (List α)}

/-- The first part stands behind its mark. -/
theorem marked_cons (part : List α) (sections : List (List α)) :
    marked filler count (part :: sections) =
      List.replicate count filler ++ (part ++ marked filler count sections) := by
  rw [marked, List.flatMap_cons, List.append_assoc]
  rfl

/-- No stream without a section goes on. -/
theorem eq_nil_of_marked_nil {left right : List α}
    (same : marked filler count [] = left ++ right) : left = [] :=
  (List.append_eq_nil_iff.mp same.symm).1

/-- A mark is not empty. -/
theorem replicate_ne_nil (positive : 0 < count) : List.replicate count filler ≠ [] := by
  intro none
  have length := congrArg List.length none
  rw [List.length_replicate, List.length_nil] at length
  omega

/-- Fillers in front of both sides cancel. -/
theorem replicate_cancel {left right : List α} (fewer : shift ≤ count)
    (same : List.replicate count filler ++ left = List.replicate shift filler ++ right) :
    List.replicate (count - shift) filler ++ left = right := by
  have cut : count = shift + (count - shift) := by omega
  rw [cut, List.replicate_add, List.append_assoc] at same
  exact List.append_cancel_left same

/-- Only an empty section can stand in front of a filler it does not begin with. -/
theorem eq_nil_of_filler (proper : ¬ Begins filler part) (positive : 0 < shift)
    (same : part ++ other = List.replicate shift filler ++ rest) : part = [] := by
  cases part with
  | nil => rfl
  | cons first tail =>
      obtain ⟨fewer, rfl⟩ : ∃ fewer, shift = fewer + 1 := ⟨shift - 1, by omega⟩
      rw [List.replicate_succ, List.cons_append, List.cons_append] at same
      obtain ⟨rfl, _⟩ := List.cons.inj same
      exact absurd rfl proper

/-- Markers cannot be moved: a marked stream is no other one behind less than a marker. -/
theorem marked_ne_shifted (proper : ∀ part ∈ sections, ¬ Begins filler part)
    (properOthers : ∀ part ∈ others, ¬ Begins filler part)
    (positive : 0 < shift) (short : shift < count) :
    marked filler count sections ≠ List.replicate shift filler ++ marked filler count others := by
  intro same
  induction sections generalizing others with
  | nil => exact replicate_ne_nil positive (eq_nil_of_marked_nil same)
  | cons part sections ih =>
      -- the first marker overlaps the one behind the shift
      rw [marked_cons] at same
      have overlap := replicate_cancel short.le same
      have behind : 0 < count - shift := Nat.sub_pos_of_lt short
      cases others with
      | nil => exact replicate_ne_nil behind (eq_nil_of_marked_nil overlap.symm)
      | cons other others =>
          rw [marked_cons] at overlap
          have back := replicate_cancel (Nat.sub_le count shift) overlap.symm
          rw [Nat.sub_sub_self short.le] at back
          have partEmpty := eq_nil_of_filler (proper part (List.mem_cons_self ..)) positive
            back.symm
          rw [partEmpty, List.nil_append] at back
          have otherEmpty : other = [] := by
            cases sections with
            | nil => exact absurd (eq_nil_of_marked_nil back.symm) (replicate_ne_nil positive)
            | cons next sections =>
                rw [marked_cons] at back
                have ahead := replicate_cancel short.le back.symm
                exact eq_nil_of_filler (properOthers other (List.mem_cons_self ..)) behind ahead.symm
          rw [otherEmpty, List.nil_append] at back
          exact ih (fun part member => proper part (List.mem_cons_of_mem _ member))
            (fun part member => properOthers part (List.mem_cons_of_mem _ member)) back.symm

/-- What follows a section begins with a marker, so a longer section cannot reach into it. -/
theorem section_eq {tail : List α}
    (longer : other = part ++ tail) (free : ¬ Imitates filler count other)
    (proper : ∀ part ∈ sections, ¬ Begins filler part)
    (properOthers : ∀ part ∈ others, ¬ Begins filler part)
    (same : marked filler count sections = tail ++ marked filler count others) : tail = [] := by
  cases sections with
  | nil => exact eq_nil_of_marked_nil same
  | cons next sections =>
      have front : tail <+: List.replicate count filler ++ (next ++ marked filler count sections) := by
        rw [← marked_cons, same]
        exact List.prefix_append _ _
      have short : tail.length < count := by
        apply Nat.lt_of_not_le
        intro covers
        apply free
        have whole : List.replicate count filler <+: tail := by
          apply List.prefix_of_prefix_length_le (List.prefix_append _ _) front
          rwa [List.length_replicate]
        rw [longer]
        exact whole.isInfix.trans (List.suffix_append _ _).isInfix
      have fillers : tail = List.replicate tail.length filler := by
        apply List.eq_replicate_of_mem
        intro element member
        have inside : tail <+: List.replicate count filler := by
          apply List.prefix_of_prefix_length_le front (List.prefix_append _ _)
          rw [List.length_replicate]
          exact short.le
        exact List.eq_of_mem_replicate (inside.subset member)
      by_contra nonempty
      rw [fillers] at same
      exact marked_ne_shifted proper properOthers (List.length_pos_of_ne_nil nonempty) short same

/-- Marked streams determine their sections. -/
theorem marked_injective (positive : 0 < count)
    (free : ∀ part ∈ sections, ¬ Imitates filler count part)
    (freeOthers : ∀ part ∈ others, ¬ Imitates filler count part)
    (proper : ∀ part ∈ sections.tail, ¬ Begins filler part)
    (properOthers : ∀ part ∈ others.tail, ¬ Begins filler part)
    (same : marked filler count sections = marked filler count others) : sections = others := by
  have empty (part : List α) (sections : List (List α)) :
      marked filler count (part :: sections) ≠ [] := by
    rw [marked_cons]
    exact List.append_ne_nil_of_left_ne_nil (replicate_ne_nil positive) _
  induction sections generalizing others with
  | nil =>
      cases others with
      | nil => rfl
      | cons other others => exact absurd same.symm (empty other others)
  | cons part sections ih =>
      cases others with
      | nil => exact absurd same (empty part sections)
      | cons other others =>
          rw [marked_cons, marked_cons] at same
          have behind := List.append_cancel_left same
          have equal : part = other ∧ marked filler count sections = marked filler count others := by
            rcases List.append_eq_append_iff.mp behind with ⟨tail, longer, ends⟩ | ⟨tail, longer, ends⟩
            · have none := section_eq longer (freeOthers other (List.mem_cons_self ..))
                proper properOthers ends
              rw [none] at longer ends
              exact ⟨(by simpa using longer.symm), (by simpa using ends)⟩
            · have none := section_eq longer (free part (List.mem_cons_self ..))
                properOthers proper ends
              rw [none] at longer ends
              exact ⟨(by simpa using longer), (by simpa using ends.symm)⟩
          obtain ⟨rfl, tails⟩ := equal
          rw [ih (fun part member => free part (List.mem_cons_of_mem _ member))
            (fun part member => freeOthers part (List.mem_cons_of_mem _ member))
            (fun part member => proper part (List.mem_of_mem_tail member))
            (fun part member => properOthers part (List.mem_of_mem_tail member)) tails]

/-! ## Records of one width -/

variable {width : Nat} {record : β → List α} {records : List β}

/-- Records of one width. -/
theorem length_records (uniform : ∀ entry, (record entry).length = width) (records : List β) :
    (records.flatMap record).length = width * records.length := by
  induction records with
  | nil => rfl
  | cons entry records ih =>
      rw [List.flatMap_cons, List.length_append, uniform, ih, List.length_cons]
      ring

/-- Whole records are kept by a cut behind them. -/
theorem take_records (uniform : ∀ entry, (record entry).length = width) (records : List β)
    (kept : Nat) : (records.flatMap record).take (width * kept) =
      (records.take kept).flatMap record := by
  induction records generalizing kept with
  | nil => simp
  | cons entry records ih =>
      cases kept with
      | zero => simp
      | succ kept =>
          have size : width * (kept + 1) = (record entry).length + width * kept := by
            rw [uniform]
            ring
          rw [List.flatMap_cons, size, List.take_length_add_append, ih, List.take_succ_cons,
            List.flatMap_cons]

/-- Records which tell their entries tell them all. -/
theorem records_injective (uniform : ∀ entry, (record entry).length = width)
    (positive : 0 < width) {left right : List β}
    (decodable : ∀ first ∈ left, ∀ second ∈ right, record first = record second → first = second)
    (same : left.flatMap record = right.flatMap record) : left = right := by
  have lengths := congrArg List.length same
  rw [length_records uniform, length_records uniform] at lengths
  have number := Nat.eq_of_mul_eq_mul_left positive lengths
  induction left generalizing right with
  | nil => exact (List.length_eq_zero_iff.mp number.symm).symm
  | cons first left ih =>
      cases right with
      | nil => cases number
      | cons second right =>
          rw [List.flatMap_cons, List.flatMap_cons] at same
          obtain ⟨heads, tails⟩ := List.append_inj same ((uniform first).trans (uniform second).symm)
          have equal := decodable first (List.mem_cons_self ..) second (List.mem_cons_self ..) heads
          rw [equal, ih (fun first inLeft second inRight => decodable first
            (List.mem_cons_of_mem _ inLeft) second (List.mem_cons_of_mem _ inRight)) tails
            (congrArg (width * ·) (Nat.succ.inj number)) (Nat.succ.inj number)]

/-- Position `index` of record `place`. -/
theorem getElem?_records (uniform : ∀ entry, (record entry).length = width) {index : Nat}
    (inside : index < width) (records : List β) (place : Nat) :
    (records.flatMap record)[width * place + index]? =
      records[place]?.bind fun entry => (record entry)[index]? := by
  induction records generalizing place with
  | nil => simp
  | cons entry records ih =>
      rw [List.flatMap_cons]
      cases place with
      | zero =>
          rw [Nat.mul_zero, Nat.zero_add, List.getElem?_append_left (by rwa [uniform])]
          rfl
      | succ place =>
          have behind : width * (place + 1) + index - (record entry).length =
              width * place + index := by
            rw [uniform, Nat.mul_succ]
            omega
          rw [List.getElem?_append_right (by rw [uniform, Nat.mul_succ]; omega), behind, ih,
            List.getElem?_cons_succ]

end MarkedStream
