import MotorStand.Calibration.CommandLoop
import MotorStand.Calibration.Routes
import MotorStand.Calibration.Weights

/-!
# A calibration from the keyboard

What is typed is a sequence of commands, each with its line break, and a weight with the key
which is pressed once it is on the scale. The loop takes it apart again, and the fit is the one
of the weights which were not undone.
-/

namespace MotorStand

open CText Imperative Imperative.Exec LeastSquares

/-- What is typed for one round. -/
inductive Typed where
  | blank
  | undo
  | weight (known : Decimal) (key : Char)

/-- A known weight, and what was read with it on the scale. -/
structure Weighing where
  known : ℚ
  raw : Int

/-- The point of a weighing. -/
def Weighing.point (weighing : Weighing) : Point := ⟨weighing.known, fullScale weighing.raw⟩

namespace Typed

/-- What is typed for a command: its line, and behind a weight the key. -/
def text : Typed → List Char
  | .blank => ['\n']
  | .undo => ['b', '\n']
  | .weight known key => known.text ++ ['\n', key]

/-- How many values are taken from the load cell. -/
def readings : Typed → Nat
  | .blank | .undo => 0
  | .weight _ _ => 1

/-- The line fits into `buf`. -/
def Fits : Typed → Prop
  | .blank | .undo => True
  | .weight known _ => known.text.length < buflen - 2

instance : (typed : Typed) → Decidable typed.Fits
  | .blank | .undo => .isTrue trivial
  | .weight _ _ => inferInstanceAs (Decidable (_ < _))

/-- What the weighings are afterwards, if `raw` is read. -/
def enter (raw : Int) (weighings : List Weighing) : Typed → List Weighing
  | .blank => weighings
  | .undo => weighings.dropLast
  | .weight known _ => weighings ++ [⟨known.number, raw⟩]

end Typed

/-- What is left of the weighings, from the value number `taken` on. -/
def weighingsFrom (values : Nat → Int) : Nat → List Weighing → List Typed → List Weighing
  | _, weighings, [] => weighings
  | taken, weighings, typed :: rest =>
      weighingsFrom values (taken + typed.readings) (typed.enter (values taken) weighings) rest

/-- There are never more than four weighings at a time. -/
def Room : Nat → List Typed → Prop
  | _, [] => True
  | count, .blank :: rest => Room count rest
  | count, .undo :: rest => Room (count - 1) rest
  | count, .weight _ _ :: rest => count < 4 ∧ Room (count + 1) rest

/-- The conversion keeps numbers. -/
def Exact (toNumber : Double → ℚ) : Prop :=
  ∀ double number, double.number = some number → toNumber double = number

/-- The input of a session which ends with `q`. -/
def sessionText (typed : List Typed) (rest : List Char) : List Char :=
  typed.flatMap Typed.text ++ 'q' :: '\n' :: rest

variable {toNumber : Double → ℚ} {known : Decimal} {key : Char} {rest buf body text : List Char}
  {console : Console} {weighings : List Weighing} {loop : CommandLoop} {session : Session}

/-! ## One line -/

/-- A spelled weight is converted to its number. -/
theorem toNumber_value (exact : Exact toNumber) (known : Decimal) :
    toNumber known.value = known.number :=
  exact _ _ (number_value known)

/-- A line of printable characters. -/
def Plain (body : List Char) : Prop := ∀ c ∈ body, 33 ≤ c.toNat

instance (body : List Char) : Decidable (Plain body) :=
  List.decidableBAll (fun c : Char => 33 ≤ c.toNat) body

/-- `fgets` takes a line which is short enough. -/
theorem firstText_line (plain : Plain body) (fits : body.length < buflen - 2) (rest : List Char) :
    firstText (body ++ '\n' :: rest) = body ++ ['\n'] ∧
      (fgets (buflen - 2) (body ++ '\n' :: rest)).2 = rest := by
  have free : '\n' ∉ body := fun member => absurd (plain _ member) (by decide)
  have read := fgets_body free fits rest
  refine ⟨?_, congrArg Prod.snd read⟩
  rw [firstText, read]
  apply cString_of_ne
  intro c member
  rcases List.mem_append.mp member with inside | last
  · have printable := plain c inside
    omega
  · rw [List.mem_singleton.mp last]
    decide

/-- Such a line is obeyed without its line break. -/
theorem commandRound_line (toNumber : Double → ℚ) (plain : Plain body)
    (fits : body.length < buflen - 2) (length : loop.buf.length = buflen) (rest : List Char)
    (values : Nat → Int) (taken : Nat) :
    ∃ trimmed, HoldsText trimmed body ∧
      commandRound toNumber loop ⟨body ++ '\n' :: rest, values, taken⟩ =
        obey toNumber loop.session trimmed ⟨rest, values, taken⟩ := by
  let console : Console := ⟨body ++ '\n' :: rest, values, taken⟩
  have some : console.input ≠ [] := List.append_ne_nil_of_right_ne_nil _ (List.cons_ne_nil _ _)
  obtain ⟨text, remaining⟩ := firstText_line plain fits rest
  obtain ⟨stored, read, holds⟩ := fgetsInto_line length some
  rw [remaining] at read
  rw [text] at holds
  have nonempty : body ++ ['\n'] ≠ [] := List.append_ne_nil_of_right_ne_nil _ (List.cons_ne_nil _ _)
  obtain ⟨trimmed, shorter, round⟩ := commandRound_obeys toNumber read holds nonempty
  rw [List.dropLast_concat] at shorter
  exact ⟨trimmed, shorter, round⟩

/-- A spelled number is neither blank nor a command. -/
theorem lineKind_known (known : Decimal) : lineKind known.text = .weight := by
  have digit (c : Char) (member : c ∈ known.text) : c ≠ 'b' ∧ c ≠ 'q' := by
    rcases mem_text member with digit | other
    · have bounds := toNat_of_isDigit digit
      constructor <;> rintro rfl <;> exact absurd bounds.2 (by decide)
    · have others : numberCharacters.all (fun c => c ≠ 'b' ∧ c ≠ 'q') = true := by decide
      exact of_decide_eq_true (List.all_eq_true.mp others c other)
  obtain ⟨c, tail, start, _⟩ := unsignedText_head known
  have inside : c ∈ known.text := by
    rw [Decimal.text, start]
    exact List.mem_append_right _ List.mem_cons_self
  unfold lineKind
  split
  next empty => rw [empty] at inside; cases inside
  next text => exact absurd rfl (digit 'b' (by rw [text]; exact List.mem_singleton_self _)).1
  next text => exact absurd rfl (digit 'q' (by rw [text]; exact List.mem_singleton_self _)).2
  next => rfl

/-- The state of the loop in front of a round. -/
structure Ready (loop : CommandLoop) (weighings : List Weighing) : Prop where
  buf : loop.buf.length = buflen
  sound : loop.session.Sound (weighings.map Weighing.point)
  four : loop.session.bufLen = 4

variable {values : Nat → Int} {taken : Nat} {typed : Typed} {others : List Typed}

/-- What is typed for a round is taken from the input, and does what it is for. -/
theorem commandRound_typed (exact : Exact toNumber) (ready : Ready loop weighings)
    (fits : typed.Fits) (room : Room weighings.length (typed :: others)) (rest : List Char)
    (values : Nat → Int) (taken : Nat) :
    ∃ next, commandRound toNumber loop ⟨typed.text ++ rest, values, taken⟩ =
        .ok (.next next, ⟨rest, values, taken + typed.readings⟩) ∧
      Ready next (typed.enter (values taken) weighings) := by
  cases typed with
  | blank =>
      have plain : Plain [] := fun _ member => nomatch member
      obtain ⟨trimmed, holds, round⟩ :=
        commandRound_line toNumber plain (by decide) ready.buf rest values taken
      exact ⟨⟨trimmed, loop.session⟩, round.trans (obey_blank holds rfl), holds.length,
        ready.sound, ready.four⟩
  | undo =>
      have plain : Plain ['b'] := by decide
      obtain ⟨trimmed, holds, round⟩ :=
        commandRound_line toNumber plain (by decide) ready.buf rest values taken
      obtain ⟨next, obeyed, kept, four⟩ := obey_undo toNumber ⟨rest, values, taken⟩ holds rfl
        ready.sound ready.four
      rw [← List.map_dropLast] at kept
      exact ⟨⟨trimmed, next⟩, round.trans obeyed, holds.length, kept, four⟩
  | weight known key =>
      have plain : Plain known.text := fun _ member => toNat_of_mem_text member
      obtain ⟨trimmed, holds, round⟩ :=
        commandRound_line toNumber plain fits ready.buf (key :: rest) values taken
      have free : (weighings.map Weighing.point).length ≠ 4 := by
        rw [List.length_map]
        exact room.1.ne
      obtain ⟨next, obeyed, kept, four⟩ := obey_weight_records toNumber
        ⟨key :: rest, values, taken⟩ holds (lineKind_known known) ready.sound ready.four free
      have number : (strtod known.text).1 = known.value := by
        have ends : Stops goesOn [] := fun _ member => nomatch member
        have spelled := strtod_spelled known ends
        rw [List.append_nil] at spelled
        rw [spelled]
      rw [number, toNumber_value exact] at kept
      have text : (Typed.weight known key).text ++ rest = known.text ++ '\n' :: key :: rest := by
        simp [Typed.text]
      refine ⟨⟨trimmed, next⟩, ?_, holds.length, ?_, four⟩
      · rw [text]
        exact round.trans obeyed
      · simpa [Typed.enter, Weighing.point] using kept

/-- Behind a command there is room for those which follow. -/
theorem Room.enter (room : Room weighings.length (typed :: others)) (raw : Int) :
    Room (typed.enter raw weighings).length others := by
  cases typed with
  | blank => exact room
  | undo =>
      rw [Typed.enter, List.length_dropLast]
      exact room
  | weight known key =>
      rw [Typed.enter, List.length_append]
      exact room.2

/-! ## A whole session -/

/-- The loop leaves at the `q`, with what is left of the weighings. -/
theorem session_leaves {typed : List Typed} (exact : Exact toNumber) (ready : Ready loop weighings)
    (fits : ∀ one ∈ typed, one.Fits) (room : Room weighings.length typed) (rest : List Char)
    (values : Nat → Int) (taken : Nat) :
    Leaves (commandRound toNumber) loop ⟨sessionText typed rest, values, taken⟩
      fun session console => console = ⟨rest, values, taken + (typed.map Typed.readings).sum⟩ ∧
        session.Sound ((weighingsFrom values taken weighings typed).map Weighing.point) := by
  induction typed generalizing loop weighings taken with
  | nil =>
      have plain : Plain ['q'] := by decide
      obtain ⟨trimmed, holds, round⟩ :=
        commandRound_line toNumber plain (by decide) ready.buf rest values taken
      have leave := round.trans (obey_quit holds rfl)
      exact (leaves_of_leave leave).mpr ⟨rfl, ready.sound⟩
  | cons one typed ih =>
      have text : sessionText (one :: typed) rest = one.text ++ sessionText typed rest := by
        rw [sessionText, List.flatMap_cons, List.append_assoc]
        rfl
      obtain ⟨next, round, readyNext⟩ := commandRound_typed exact ready
        (fits one List.mem_cons_self) room (sessionText typed rest) values taken
      rw [text, leaves_of_next round, List.map_cons, List.sum_cons, ← Nat.add_assoc]
      exact ih readyNext (fun other member => fits other (List.mem_cons_of_mem _ member))
        (room.enter _) _

/-- The loop starts with an empty session. -/
theorem ready_initial (length : buf.length = buflen) : Ready ⟨buf, .initial⟩ [] :=
  ⟨length, Session.initial_sound, rfl⟩

/-- A weight for every reading which was not undone, in the order of the line. -/
def FittedTo (weighings : List Weighing) (line : Int → ℚ) : Prop :=
  LeastSquaresLine (fun i => (weighings.get i).raw) (fun i => (weighings.get i).known) line

/-- Two of the readings differ. -/
def TwoReadings (weighings : List Weighing) : Prop :=
  ∃ i j, (weighings.get i).raw ≠ (weighings.get j).raw

/-- The constants of a session are those of its weighings. -/
theorem finish_converts (sound : session.Sound (weighings.map Weighing.point))
    (two : TwoReadings weighings) (heap : Heap ℚ) :
    session.finish.Ensures heap fun constants _ => ∃ m b, constants = some (m, b) ∧
      FittedTo weighings (sampleValue m b) := by
  have points : weighings.map Weighing.point =
      List.ofFn fun i => (weighings.get i).point := by
    rw [← List.ofFn_get weighings, List.map_ofFn, List.ofFn_get]
    rfl
  have keeps := sound.toKeeps
  rw [points] at keeps
  have apart : ∃ i j, (weighings.get i).point.measurement ≠ (weighings.get j).point.measurement := by
    obtain ⟨i, j, different⟩ := two
    exact ⟨i, j, fun same => different (fullScale_injective same)⟩
  have nonzero : (adcMax : ℚ) ≠ 0 := by norm_num [adcMax]
  apply (finish_ensures keeps apart heap).imp
  rintro _ _ ⟨z, scaled, rfl⟩
  have normal := scaled.of_unit nonzero
  exact ⟨_, _, rfl, _, uniqueFit_of_normal normal (regular_of_two two),
    calibration_converts two normal scaled⟩

/-- Whatever is typed in front of the `q`, as long as there are never more than four weights at
a time and two readings of the remaining ones differ: the constants are those of the
least-squares line through the remaining weights, one value has been taken for each weight, and
what follows the `q` is not read. -/
theorem typed_calibration {typed : List Typed} (exact : Exact toNumber)
    (length : buf.length = buflen) (fits : ∀ one ∈ typed, one.Fits) (room : Room 0 typed)
    (values : Nat → Int) (two : TwoReadings (weighingsFrom values 0 [] typed)) (rest : List Char)
    (heap : Heap ℚ) :
    Leaves (commandRound toNumber) ⟨buf, .initial⟩ ⟨sessionText typed rest, values, 0⟩
      fun session console => console = ⟨rest, values, (typed.map Typed.readings).sum⟩ ∧
        session.finish.Ensures heap fun constants _ => ∃ m b, constants = some (m, b) ∧
          FittedTo (weighingsFrom values 0 [] typed) (sampleValue m b) := by
  obtain ⟨count, session, console, run, consumed, sound⟩ :=
    session_leaves exact (ready_initial length) fits room rest values 0
  rw [Nat.zero_add] at consumed
  exact ⟨count, session, console, run, consumed, finish_converts sound two heap⟩

/-- The number of a double, where it has one. -/
def numberOrZero (double : Double) : ℚ := double.number.getD 0

/-- A conversion which is exact where there is a number. -/
theorem exact_numberOrZero : Exact numberOrZero := by
  intro double number finite
  rw [numberOrZero, finite, Option.getD_some]

/-- The weights 0 and 5, the second of them undone and entered as 7. -/
def correctedSession : List Typed :=
  [.weight (oneDigit .none '0' rfl) '\n', .blank, .weight (oneDigit .none '5' rfl) '\n', .undo,
    .weight (oneDigit .none '7' rfl) '\n']

/-- A session in which a weight is taken back and entered again. -/
theorem typed_calibration_corrected :
    Leaves (commandRound numberOrZero) ⟨clearedBuf, .initial⟩
        ⟨sessionText correctedSession [], Nat.cast, 0⟩ fun session console =>
      console = ⟨[], Nat.cast, (correctedSession.map Typed.readings).sum⟩ ∧
        session.finish.Ensures (Heap.empty ℚ) fun constants _ => ∃ m b, constants = some (m, b) ∧
          FittedTo (weighingsFrom Nat.cast 0 [] correctedSession) (sampleValue m b) :=
  typed_calibration exact_numberOrZero clearedBuf_holdsText.length (by decide)
    (by simp [correctedSession, Room]) Nat.cast ⟨⟨0, by decide⟩, ⟨1, by decide⟩, by decide⟩ [] _

end MotorStand
