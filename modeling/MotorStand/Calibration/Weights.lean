import MotorStand.Calibration.Routes
import MotorStand.Imperative.While
import MotorStand.Text.Comma

/-!
# The weight list of `-c`

The parsing loop of `load_cell_serv` steps over one character before each number. In
front of the first number there is no comma to step over, and the room for the numbers
is never checked.
-/

namespace MotorStand

open CText Imperative Imperative.Exec

/-- The variables of the loop: the string from where `pos` points, and the elements of
`known_weights` which are written, `value_count` of them. -/
structure Parsing where
  pos : List Char
  knownWeights : List Double

/-- The string at `pos + 1`. Behind the NUL there is none. -/
def behindCharacter {σ : Type} : List Char → Exec σ (List Char)
  | [] => fail .outOfBounds
  | _ :: rest => return rest

/-- One round of the parsing loop. -/
def parseRound {σ : Type} (parsing : Parsing) : Exec σ (Flow Parsing Parsing) := do
  let start ← behindCharacter parsing.pos
  if parsing.knownWeights.length < knownWeightsCapacity then
    let read : Parsing := ⟨(strtod start).2, parsing.knownWeights ++ [(strtod start).1]⟩
    if read.pos.head? = some ',' then return .next read
    else return .leave read
  else fail .outOfBounds

variable {σ : Type} {store : σ} {c : Char} {body rest : List Char} {weights : List Double}
  {post : Parsing → σ → Prop}

/-- A comma behind the number leads to another round. -/
theorem parseRound_next (room : weights.length < knownWeightsCapacity)
    (comma : (strtod body).2.head? = some ',') :
    parseRound ⟨c :: body, weights⟩ store =
      .ok (.next ⟨(strtod body).2, weights ++ [(strtod body).1]⟩, store) := by
  simp only [parseRound, behindCharacter, pure_bind, if_pos room, if_pos comma]
  rfl

/-- Anything else ends the loop. -/
theorem parseRound_leave (room : weights.length < knownWeightsCapacity)
    (other : (strtod body).2.head? ≠ some ',') :
    parseRound ⟨c :: body, weights⟩ store =
      .ok (.leave ⟨(strtod body).2, weights ++ [(strtod body).1]⟩, store) := by
  simp only [parseRound, behindCharacter, pure_bind, if_pos room, if_neg other]
  rfl

/-- A round faults at the end of the string, and when the array is full. -/
theorem parseRound_fails {pos : List Char}
    (beyond : pos = [] ∨ knownWeightsCapacity ≤ weights.length) :
    parseRound ⟨pos, weights⟩ store = .error .outOfBounds := by
  cases pos with
  | nil => rfl
  | cons c body =>
      have full := beyond.resolve_left (List.cons_ne_nil c body)
      simp only [parseRound, behindCharacter, pure_bind, if_neg (not_lt.mpr full)]
      rfl

/-! ## Which strings are safe -/

/-- The text begins with `count` numbers, each up to a comma. As for `strtod`, an empty text
is a number, too. -/
def BeginsWithNumbers : Nat → List Char → Prop
  | 0, _ => True
  | count + 1, text => ∃ number rest, text = number ++ ',' :: rest ∧ (strtod number).2 = [] ∧
      BeginsWithNumbers count rest

/-- A number is read up to the comma behind it. -/
theorem strtod_number {number : List Char} (whole : (strtod number).2 = []) (rest : List Char) :
    strtod (number ++ ',' :: rest) = ((strtod number).1, ',' :: rest) := by
  rw [strtod_append_comma, whole, List.nil_append]

/-- If `strtod` stops at a comma, the text begins with a number up to there. -/
theorem exists_number (stop : (strtod body).2 = ',' :: rest) :
    ∃ number, body = number ++ ',' :: rest ∧ (strtod number).2 = [] := by
  obtain ⟨number, whole⟩ := strtod_suffix body
  rw [stop] at whole
  refine ⟨number, whole.symm, ?_⟩
  rw [← whole, strtod_append_comma] at stop
  exact List.append_left_eq_self.mp stop

/-- One number less in front. -/
theorem beginsWithNumbers_succ (count : Nat) (stop : (strtod body).2 = ',' :: rest) :
    BeginsWithNumbers (count + 1) body ↔ BeginsWithNumbers count rest := by
  constructor
  · rintro ⟨number, other, rfl, whole, more⟩
    rw [strtod_number whole] at stop
    cases stop
    exact more
  · intro more
    obtain ⟨number, split, whole⟩ := exists_number stop
    exact ⟨number, rest, split, whole, more⟩

/-- Where `strtod` does not stop at a comma, there is no number with one. -/
theorem not_beginsWithNumbers (count : Nat) (other : (strtod body).2.head? ≠ some ',') :
    ¬ BeginsWithNumbers (count + 1) body := by
  rintro ⟨number, rest, rfl, whole, _⟩
  rw [strtod_number whole] at other
  exact other rfl

/-- From a state with room for `count` weights more. -/
theorem leaves_iff (count : Nat) (room : weights.length + count = knownWeightsCapacity) :
    Leaves parseRound ⟨c :: body, weights⟩ store (fun _ _ => True) ↔
      ¬ BeginsWithNumbers count body := by
  induction count generalizing c body weights with
  | zero =>
      have fails : parseRound ⟨c :: body, weights⟩ store = .error .outOfBounds :=
        parseRound_fails (.inr room.ge)
      exact iff_of_false (not_leaves_of_fails fails) (not_not_intro trivial)
  | succ count ih =>
      have below : weights.length < knownWeightsCapacity := by omega
      by_cases comma : (strtod body).2.head? = some ','
      · obtain ⟨rest, stop⟩ := List.head?_eq_some_iff.mp comma
        rw [leaves_of_next (parseRound_next below comma), beginsWithNumbers_succ count stop, stop]
        refine ih ?_
        rw [List.length_append, List.length_singleton]
        omega
      · rw [leaves_of_leave (parseRound_leave below comma)]
        exact iff_of_true trivial (not_beginsWithNumbers count comma)

/-- From the start of the text, with all the room. -/
theorem leaves_text_iff (text : List Char) (store : σ) :
    Leaves parseRound ⟨text, []⟩ store (fun _ _ => True) ↔
      text ≠ [] ∧ ¬ BeginsWithNumbers knownWeightsCapacity text.tail := by
  cases text with
  | nil =>
      have fails : parseRound ⟨[], []⟩ store = .error .outOfBounds := parseRound_fails (.inl rfl)
      exact iff_of_false (not_leaves_of_fails fails) fun both => both.1 rfl
  | cons c body =>
      rw [leaves_iff knownWeightsCapacity (Nat.zero_add _)]
      exact (and_iff_right (List.cons_ne_nil c body)).symm

/-- The loop ends, reads nothing behind the NUL and writes nothing behind `known_weights`. -/
def SafeToParse (text : List Char) : Prop :=
  ∀ store : Unit, Leaves parseRound ⟨text, []⟩ store fun _ _ => True

/-- The loop is safe exactly for the strings which are not empty and do not go on, behind
their first character, with as many numbers as there is room for and a comma. -/
theorem safeToParse_iff (text : List Char) :
    SafeToParse text ↔ text ≠ [] ∧ ¬ BeginsWithNumbers knownWeightsCapacity text.tail := by
  rw [← leaves_text_iff text ()]
  exact ⟨fun safe => safe (), fun leaves _ => leaves⟩

/-- The empty string is read behind its NUL. -/
theorem not_safeToParse_empty : ¬ SafeToParse [] := by
  intro safe
  exact not_leaves_of_fails rfl (safe ())

/-! ## Which lists are read as given -/

variable {first : Decimal} {others : List Decimal}

/-- The number of one digit. -/
def oneDigit (sign : Sign) (c : Char) (digit : c.isDigit = true) : Decimal :=
  ⟨sign, [c], none, none, by simpa using digit, (fun _ member => nomatch member), by simp⟩

/-- The loop touches nothing but its variables, and never writes more than there is room
for. -/
theorem parsed_of_rounds (count : Nat) {parsing : Parsing} {pos : List Char} {after : σ}
    (room : weights.length ≤ knownWeightsCapacity)
    (run : rounds parseRound count ⟨pos, weights⟩ store = .ok (.leave parsing, after)) :
    after = store ∧ parsing.knownWeights.length ≤ knownWeightsCapacity := by
  induction count generalizing pos weights with
  | zero => cases run
  | succ count ih =>
      by_cases beyond : pos = [] ∨ knownWeightsCapacity ≤ weights.length
      · rw [rounds_of_fails (parseRound_fails beyond)] at run
        cases run
      · rw [not_or, not_le] at beyond
        obtain ⟨c, body, rfl⟩ := List.exists_cons_of_ne_nil beyond.1
        have grown : (weights ++ [(strtod body).1]).length ≤ knownWeightsCapacity := by
          rw [List.length_append, List.length_singleton]
          exact beyond.2
        by_cases comma : (strtod body).2.head? = some ','
        · rw [rounds_of_next (parseRound_next beyond.2 comma)] at run
          exact ih grown run
        · rw [rounds_of_leave (parseRound_leave beyond.2 comma)] at run
          cases run
          exact ⟨rfl, grown⟩

/-- There is a weight behind `i` new ones exactly if `i` numbers with commas stand in front of
it. -/
theorem length_knownWeights (count : Nat) {parsing : Parsing} {after : σ}
    (run : rounds parseRound count ⟨c :: body, weights⟩ store = .ok (.leave parsing, after))
    (i : Nat) :
    BeginsWithNumbers i body ↔ weights.length + i < parsing.knownWeights.length := by
  induction count generalizing c body weights i with
  | zero => cases run
  | succ count ih =>
      by_cases room : weights.length < knownWeightsCapacity
      · by_cases comma : (strtod body).2.head? = some ','
        · obtain ⟨rest, stop⟩ := List.head?_eq_some_iff.mp comma
          rw [rounds_of_next (parseRound_next room comma), stop] at run
          have more (j : Nat) := ih run j
          simp only [List.length_append, List.length_singleton] at more
          cases i with
          | zero =>
              have first := (more 0).mp trivial
              exact iff_of_true trivial (by omega)
          | succ i =>
              rw [beginsWithNumbers_succ i stop, more i]
              omega
        · rw [rounds_of_leave (parseRound_leave room comma)] at run
          cases run
          cases i with
          | zero => exact iff_of_true trivial (by simp)
          | succ i => exact iff_of_false (not_beginsWithNumbers i comma) (by simp)
      · rw [rounds_of_fails (parseRound_fails (.inr (not_lt.mp room)))] at run
        cases run

end MotorStand
