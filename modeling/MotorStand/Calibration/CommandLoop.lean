import MotorStand.Calibration.Session
import MotorStand.Imperative.While
import MotorStand.Text.Decimal
import MotorStand.Text.Lines

/-!
# The command loop on standard input

`load_cell_calibration` does not look at what `fgets` returns. At the end of the input
`buf` still holds the last command, which is trimmed once more and obeyed again.
-/

namespace MotorStand

open CText Imperative Imperative.Exec

/-- `BUFLEN`. -/
def buflen : Nat := 129

/-- What is left of standard input, and the load cell with the number of values taken
from it. -/
structure Console where
  input : List Char
  values : Nat → Int
  taken : Nat

/-- The variables of the loop. In every round `buf` is the same memory. -/
structure CommandLoop where
  buf : List Char
  session : Session

/-- `fgets(buf,BUFLEN-1,stdin)`. At the end of the input `buf` keeps what it holds. -/
def fgetsInto (buf : List Char) : Exec Console (List Char) := fun console =>
  if console.input = [] then .ok (buf, console)
  else
    let (line, rest) := fgets (buflen - 2) console.input
    if buf.length < line.length + 1 then .error .outOfBounds
    else .ok (line ++ nul :: buf.drop (line.length + 1), { console with input := rest })

/-- `buf[strlen(buf)-1] = '\0'`. -/
def trimLast {σ : Type} (buf : List Char) : Exec σ (List Char) :=
  if buf.length ≤ (cString buf).length then fail .outOfBounds
  else if cString buf = [] then fail .outOfBounds
  else return buf.set ((cString buf).length - 1) nul

/-- `getc(stdin)`. -/
def getc : Exec Console Unit :=
  modify fun console => { console with input := console.input.tail }

/-- `next_value(GAIN_128)`. -/
def nextValue : Exec Console Int := fun console =>
  .ok (console.values console.taken, { console with taken := console.taken + 1 })

/-- What the loop takes a line for. -/
inductive LineKind where
  | blank
  | undo
  | quit
  | weight
deriving DecidableEq

/-- What the loop takes a line for: only a line of one `b` or one `q` is a command. -/
def lineKind : List Char → LineKind
  | [] => .blank
  | ['b'] => .undo
  | ['q'] => .quit
  | _ => .weight

/-- The branches of the loop. `toNumber` is the number which a `double` stores. -/
def obey (toNumber : Double → ℚ) (session : Session) (buf : List Char) :
    Exec Console (Flow Session CommandLoop) :=
  match lineKind (cString buf) with
  | .blank => return .next ⟨buf, session⟩
  | .undo => do
      let session ← session.step Session.sourceBytes .undo
      return .next ⟨buf, session⟩
  | .quit => return .leave session
  | .weight => do
      getc
      let valueRaw ← nextValue
      let known := toNumber (strtod (cString buf)).1
      let session ← session.step Session.sourceBytes (.weight known valueRaw)
      return .next ⟨buf, session⟩

/-- One round of the loop. -/
def commandRound (toNumber : Double → ℚ) (loop : CommandLoop) :
    Exec Console (Flow Session CommandLoop) := do
  let buf ← fgetsInto loop.buf
  let buf ← trimLast buf
  obey toNumber loop.session buf

/-! ## The line buffer -/

/-- The string which `fgets` stores, with its last character. -/
def firstText (input : List Char) : List Char := cString (fgets (buflen - 2) input).1

/-- `buf` holds the string `text`, with its NUL. -/
structure HoldsText (buf text : List Char) : Prop where
  length : buf.length = buflen
  string : cString buf = text
  ended : text.length < buflen

variable {σ : Type} {store : σ} {toNumber : Double → ℚ} {buf text : List Char} {session : Session}
  {stack : List Point} {console : Console}

/-- At the end of the input the buffer keeps what it had. -/
theorem fgetsInto_end (ended : console.input = []) : fgetsInto buf console = .ok (buf, console) :=
  if_pos ended

/-- The next line is stored, as far as it fits. -/
theorem fgetsInto_line (length : buf.length = buflen) (some : console.input ≠ []) :
    ∃ stored, fgetsInto buf console =
        .ok (stored, { console with input := (fgets (buflen - 2) console.input).2 }) ∧
      HoldsText stored (firstText console.input) := by
  let line := (fgets (buflen - 2) console.input).1
  have fits : line.length ≤ buflen - 2 := fgets_length_le _ _
  have string : (cString line).length ≤ line.length := (List.takeWhile_prefix _).length_le
  have small : buflen - 2 < buflen := by decide
  have room : line.length + 1 ≤ buf.length := by omega
  refine ⟨line ++ nul :: buf.drop (line.length + 1), ?_, ?_, cString_append_nul _ _,
    (string.trans fits).trans_lt small⟩
  · rw [fgetsInto, if_neg some]
    exact if_neg (not_lt.mpr room)
  · rw [List.length_append, List.length_cons, List.length_drop, ← length]
    omega

/-- The last character is taken off the line. -/
theorem trimLast_returns (store : σ) (holds : HoldsText buf text) (nonempty : text ≠ []) :
    ∃ trimmed, trimLast buf store = .ok (trimmed, store) ∧ HoldsText trimmed text.dropLast := by
  obtain ⟨length, rfl, ended⟩ := holds
  refine ⟨buf.set ((cString buf).length - 1) nul, ?_, ?_, cString_set nonempty, ?_⟩
  · rw [trimLast, if_neg (by omega), if_neg nonempty]
    rfl
  · rw [List.length_set, length]
  · rw [List.length_dropLast]
    omega

/-- On the empty string the loop writes in front of `buf`. -/
theorem trimLast_fails (empty : cString buf = []) : trimLast buf store = .error .outOfBounds := by
  rw [trimLast, if_pos empty, ite_self]
  rfl

/-! ## One round -/

/-- Only the empty line is blank. -/
theorem lineKind_eq_blank : lineKind text = .blank ↔ text = [] := by
  unfold lineKind
  split <;> simp_all

/-- Only `b` takes back. -/
theorem lineKind_eq_undo : lineKind text = .undo ↔ text = ['b'] := by
  unfold lineKind
  split <;> simp_all

/-- Only `q` ends the loop. -/
theorem lineKind_eq_quit : lineKind text = .quit ↔ text = ['q'] := by
  unfold lineKind
  split <;> simp_all

variable {loop : CommandLoop} {entered : Console}

/-- A round obeys the line without its last character. -/
theorem commandRound_obeys (toNumber : Double → ℚ)
    (read : fgetsInto loop.buf console = .ok (buf, entered)) (holds : HoldsText buf text)
    (nonempty : text ≠ []) :
    ∃ trimmed, HoldsText trimmed text.dropLast ∧
      commandRound toNumber loop console = obey toNumber loop.session trimmed entered := by
  obtain ⟨trimmed, returns, shorter⟩ := trimLast_returns entered holds nonempty
  refine ⟨trimmed, shorter, ?_⟩
  rw [commandRound, bind_of_returns read, bind_of_returns returns]

/-- Without a character to take off, the round writes in front of the buffer. -/
theorem commandRound_fails (read : fgetsInto loop.buf console = .ok (buf, entered))
    (holds : HoldsText buf []) : commandRound toNumber loop console = .error .outOfBounds := by
  rw [commandRound, bind_of_returns read]
  exact bind_of_fails (trimLast_fails holds.string)

/-- A blank line changes nothing. -/
theorem obey_blank (holds : HoldsText buf text) (kind : lineKind text = .blank) :
    obey toNumber session buf console = .ok (.next ⟨buf, session⟩, console) := by
  rw [obey, holds.string, kind]
  rfl

/-- `q` leaves the loop with the session as it is. -/
theorem obey_quit (holds : HoldsText buf text) (kind : lineKind text = .quit) :
    obey toNumber session buf console = .ok (.leave session, console) := by
  rw [obey, holds.string, kind]
  rfl

/-- `b` takes the last point back. -/
theorem obey_undo (toNumber : Double → ℚ) (console : Console) (holds : HoldsText buf text)
    (kind : lineKind text = .undo) (sound : session.Sound stack) (four : session.bufLen = 4) :
    ∃ next, obey toNumber session buf console = .ok (.next ⟨buf, next⟩, console) ∧
      next.Sound stack.dropLast ∧ next.bufLen = 4 := by
  obtain ⟨next, _, run, kept, length, rfl⟩ :=
    (Session.undo_ensures sound : session.undo.Ensures console _)
  refine ⟨next, ?_, kept, length.trans four⟩
  rw [obey, holds.string, kind]
  exact bind_of_returns run

/-- The console after a weight line. -/
def Console.measured (console : Console) : Console :=
  { console with input := console.input.tail, taken := console.taken + 1 }

/-- A weight is handed to the session with the next value of the ADC. -/
theorem obey_weight (holds : HoldsText buf text) (kind : lineKind text = .weight) :
    obey toNumber session buf console =
      (session.step Session.sourceBytes (.weight (toNumber (strtod text).1)
        (console.values console.taken)) >>= fun next => pure (.next ⟨buf, next⟩))
        console.measured := by
  rw [obey, holds.string, kind]
  rfl

/-- The fifth weight is written behind the arrays. -/
theorem obey_weight_fails (holds : HoldsText buf text) (kind : lineKind text = .weight)
    (sound : session.Sound stack) (four : session.bufLen = 4) (full : stack.length = 4) :
    obey toNumber session buf console = .error .outOfBounds := by
  rw [obey_weight holds kind]
  exact bind_of_fails (Session.step_overflows sound four full trivial)

/-- With room for it, the weight is recorded with its value. -/
theorem obey_weight_records (toNumber : Double → ℚ) (console : Console)
    (holds : HoldsText buf text) (kind : lineKind text = .weight) (sound : session.Sound stack)
    (four : session.bufLen = 4) (room : stack.length ≠ 4) :
    ∃ next, obey toNumber session buf console = .ok (.next ⟨buf, next⟩, console.measured) ∧
      next.Sound (stack ++ [⟨toNumber (strtod text).1, fullScale (console.values console.taken)⟩]) ∧
      next.bufLen = 4 := by
  have free : session.bufPos ≠ session.bufLen := by
    rw [sound.bufPos, four]
    exact room
  let command : Command := .weight (toNumber (strtod text).1) (console.values console.taken)
  have grows : session.Grows Session.sourceBytes command := fun _ full => absurd full free
  obtain ⟨next, _, run, kept, length, rfl⟩ :=
    (Session.step_ensures sound grows :
      (session.step Session.sourceBytes command).Ensures console.measured _)
  refine ⟨next, ?_, kept, (length fun _ => free).trans four⟩
  rw [obey_weight holds kind]
  exact bind_of_returns run

/-! ## Which inputs are obeyed to the end -/

/-- A recorded point has the number of the weight line of the input in which the round began
to read. -/
def FromInput (toNumber : Double → ℚ) (input : List Char) (loop : CommandLoop)
    (console : Console) (next : CommandLoop) (_ : Console) : Prop :=
  next.session.bufPos = loop.session.bufPos + 1 →
    ∃ line, console.input ≠ [] ∧ LineAt input console.input line ∧ lineKind line = .weight ∧
      next.session.knownValues.element sizeofDouble loop.session.bufPos =
        some (toNumber (strtod line).1)

/-- Whatever is in `buf` at first, the loop ends without a write outside its memory, and
every point it records is from a weight line of the input. -/
def EndsOnInput (toNumber : Double → ℚ) (input : List Char) : Prop :=
  ∀ (buf : List Char) (values : Nat → Int), buf.length = buflen →
    EndsKeeping (commandRound toNumber) ⟨buf, .initial⟩ ⟨input, values, 0⟩
      (FromInput toNumber input)

/-- What is left for the next round. Behind a weight line one character is skipped. -/
def behindFirstText (input : List Char) : List Char :=
  if lineKind (firstText input).dropLast = .weight then (fgets (buflen - 2) input).2.tail
  else (fgets (buflen - 2) input).2

/-- What the first `count` rounds find left of the input. -/
def commandInputs : Nat → List Char → List (List Char)
  | 0, _ => []
  | _ + 1, [] => []
  | count + 1, c :: file => (c :: file) :: commandInputs count (behindFirstText (c :: file))

/-- The weight at the start of `rest` is that of the weight line of `input` in which `rest`
begins. -/
def OfLine (toNumber : Double → ℚ) (input rest : List Char) : Prop :=
  lineKind (lineAround input rest) = .weight ∧
    toNumber (strtod (firstText rest).dropLast).1 = toNumber (strtod (lineAround input rest)).1

/-- With `points` entered and `last` in `buf`, the rounds go on to a `q`. No string they find is
empty, no weight is entered on four points, and every weight is that of its line. -/
def ReachesQuit (toNumber : Double → ℚ) (input : List Char) :
    Nat → List Char → List (List Char) → Prop
  | _, last, [] => ∃ c, last = ['q', c]
  | points, _, rest :: rests =>
      firstText rest ≠ [] ∧
        match lineKind (firstText rest).dropLast with
        | .blank => ReachesQuit toNumber input points (firstText rest).dropLast rests
        | .undo => ReachesQuit toNumber input (points - 1) (firstText rest).dropLast rests
        | .quit => True
        | .weight => points ≠ 4 ∧ OfLine toNumber input rest ∧
            ReachesQuit toNumber input (points + 1) (firstText rest).dropLast rests

/-- A line which is one character without its end has two. -/
theorem dropLast_eq_singleton {a : Char} : text.dropLast = [a] ↔ ∃ c, text = [a, c] := by
  constructor
  · intro front
    cases text.eq_nil_or_concat with
    | inl empty => simp [empty] at front
    | inr split =>
        obtain ⟨earlier, c, rfl⟩ := split
        rw [List.concat_eq_append, List.dropLast_concat] at front
        exact ⟨c, by rw [front]; rfl⟩
  · rintro ⟨c, rfl⟩
    rfl

/-- The loop from `loop` on ends, and records only points from the input. -/
def Ends (toNumber : Double → ℚ) (input : List Char) (loop : CommandLoop) (console : Console) :
    Prop :=
  EndsKeeping (commandRound toNumber) loop console (FromInput toNumber input)

variable {input : List Char} {next : CommandLoop} {after : Console}

/-- A round which records nothing is like the loop behind it. -/
theorem ends_of_next (round : commandRound toNumber loop console = .ok (.next next, after))
    (same : next.session.bufPos ≤ loop.session.bufPos) :
    Ends toNumber input loop console ↔ Ends toNumber input next after := by
  rw [Ends, endsKeeping_of_next round]
  exact and_iff_right fun recorded => absurd same (by omega)

/-- A blank line is passed over. -/
theorem ends_of_blank (read : fgetsInto loop.buf console = .ok (buf, entered))
    (holds : HoldsText buf text) (nonempty : text ≠ []) (kind : lineKind text.dropLast = .blank) :
    ∃ trimmed, HoldsText trimmed text.dropLast ∧
      (Ends toNumber input loop console ↔ Ends toNumber input ⟨trimmed, loop.session⟩ entered) := by
  obtain ⟨trimmed, shorter, round⟩ := commandRound_obeys toNumber read holds nonempty
  exact ⟨trimmed, shorter, ends_of_next (round.trans (obey_blank shorter kind)) (Nat.le_refl _)⟩

/-- From an undo the loop goes on with the shorter stack. -/
theorem ends_of_undo (read : fgetsInto loop.buf console = .ok (buf, entered))
    (holds : HoldsText buf text) (nonempty : text ≠ []) (kind : lineKind text.dropLast = .undo)
    (sound : loop.session.Sound stack) (four : loop.session.bufLen = 4) :
    ∃ trimmed next, HoldsText trimmed text.dropLast ∧ next.Sound stack.dropLast ∧
      next.bufLen = 4 ∧
      (Ends toNumber input loop console ↔ Ends toNumber input ⟨trimmed, next⟩ entered) := by
  obtain ⟨trimmed, shorter, round⟩ := commandRound_obeys toNumber read holds nonempty
  obtain ⟨next, obeyed, kept, small⟩ := obey_undo toNumber entered shorter kind sound four
  have popped : next.bufPos ≤ loop.session.bufPos := by
    rw [kept.bufPos, sound.bufPos, List.length_dropLast]
    exact Nat.sub_le _ _
  exact ⟨trimmed, next, shorter, kept, small, ends_of_next (round.trans obeyed) popped⟩

/-- A weight line is not empty. -/
theorem ne_nil_of_weight (kind : lineKind text.dropLast = .weight) : text ≠ [] := by
  rintro rfl
  cases kind

/-- A weight on four points stops the program. -/
theorem not_ends_of_full (read : fgetsInto loop.buf console = .ok (buf, entered))
    (holds : HoldsText buf text) (kind : lineKind text.dropLast = .weight)
    (sound : loop.session.Sound stack) (four : loop.session.bufLen = 4)
    (full : stack.length = 4) : ¬ Ends toNumber input loop console := by
  obtain ⟨trimmed, shorter, round⟩ :=
    commandRound_obeys toNumber read holds (ne_nil_of_weight kind)
  exact not_endsKeeping_of_fails (round.trans (obey_weight_fails shorter kind sound four full))

/-- The recorded point is from the input exactly if it has the number of its line. -/
theorem fromInput_iff {measurement : ℚ} (some : console.input ≠ [])
    (inside : console.input <:+ input) (sound : loop.session.Sound stack)
    (kept : next.session.Sound
      (stack ++ [⟨toNumber (strtod (firstText console.input).dropLast).1, measurement⟩])) :
    FromInput toNumber input loop console next after ↔ OfLine toNumber input console.input := by
  have recorded : next.session.bufPos = loop.session.bufPos + 1 := by
    rw [kept.bufPos, sound.bufPos, List.length_append, List.length_singleton]
  have stored : next.session.knownValues.element sizeofDouble loop.session.bufPos =
      Option.some (toNumber (strtod (firstText console.input).dropLast).1) := by
    apply kept.knownValues.stored
    rw [sound.bufPos]
    simp
  rw [FromInput, stored]
  constructor
  · intro fromLine
    obtain ⟨line, _, here, kind, same⟩ := fromLine recorded
    rw [(lineAt_iff inside).mp here] at kind same
    exact ⟨kind, Option.some.inj same⟩
  · rintro ⟨kind, same⟩ _
    exact ⟨_, some, lineAt_lineAround inside, kind, congrArg Option.some same⟩

/-- A weight in the input is recorded, and has to be that of its line. -/
theorem ends_of_weight (read : fgetsInto loop.buf console = .ok (buf, entered))
    (holds : HoldsText buf (firstText console.input))
    (kind : lineKind (firstText console.input).dropLast = .weight) (some : console.input ≠ [])
    (inside : console.input <:+ input) (sound : loop.session.Sound stack)
    (four : loop.session.bufLen = 4) (room : stack.length ≠ 4) :
    ∃ trimmed next point, HoldsText trimmed (firstText console.input).dropLast ∧
      next.Sound (stack ++ [point]) ∧ next.bufLen = 4 ∧
      (Ends toNumber input loop console ↔ OfLine toNumber input console.input ∧
        Ends toNumber input ⟨trimmed, next⟩ entered.measured) := by
  obtain ⟨trimmed, shorter, round⟩ :=
    commandRound_obeys toNumber read holds (ne_nil_of_weight kind)
  obtain ⟨next, obeyed, kept, small⟩ :=
    obey_weight_records toNumber entered shorter kind sound four room
  refine ⟨trimmed, next, _, shorter, kept, small, ?_⟩
  rw [Ends, endsKeeping_of_next (round.trans obeyed), fromInput_iff some inside sound kept]
  rfl

/-- At the end of the input an emptied buffer is written in front of. -/
theorem not_ends_of_empty (ended : console.input = []) (holds : HoldsText loop.buf []) :
    ¬ Ends toNumber input loop console :=
  not_endsKeeping_of_fails (commandRound_fails (fgetsInto_end ended) holds)

/-- At the end of the input a single character is a blank line at first. -/
theorem not_ends_of_single {c : Char} (ended : console.input = [])
    (holds : HoldsText loop.buf [c]) : ¬ Ends toNumber input loop console := by
  obtain ⟨trimmed, shorter, same⟩ :=
    ends_of_blank (fgetsInto_end ended) holds (List.cons_ne_nil c []) rfl
  rw [same]
  exact not_ends_of_empty ended shorter

/-- A weight which is still in `buf` at the end of the input is entered again. -/
theorem not_ends_of_weight (ended : console.input = []) (holds : HoldsText loop.buf text)
    (kind : lineKind text.dropLast = .weight) (sound : loop.session.Sound stack)
    (four : loop.session.bufLen = 4) : ¬ Ends toNumber input loop console := by
  have read : fgetsInto loop.buf console = .ok (loop.buf, console) := fgetsInto_end ended
  by_cases full : stack.length = 4
  · exact not_ends_of_full read holds kind sound four full
  obtain ⟨trimmed, shorter, round⟩ :=
    commandRound_obeys toNumber read holds (ne_nil_of_weight kind)
  obtain ⟨next, obeyed, kept, _⟩ :=
    obey_weight_records toNumber console shorter kind sound four full
  rw [Ends, endsKeeping_of_next (round.trans obeyed)]
  rintro ⟨first, _⟩
  have recorded : next.bufPos = loop.session.bufPos + 1 := by
    rw [kept.bufPos, sound.bufPos, List.length_append, List.length_singleton]
  obtain ⟨_, some, _⟩ := first recorded
  exact some ended

/-- At the end of the input the loop ends only if `buf` holds a `q` with one character
behind it. -/
theorem ends_of_end (ended : console.input = []) (holds : HoldsText loop.buf text)
    (sound : loop.session.Sound stack) (four : loop.session.bufLen = 4) :
    Ends toNumber input loop console ↔ ∃ c, text = ['q', c] := by
  by_cases empty : text = []
  · subst empty
    exact iff_of_false (not_ends_of_empty ended holds) (by simp)
  have read : fgetsInto loop.buf console = .ok (loop.buf, console) := fgetsInto_end ended
  rw [← dropLast_eq_singleton, ← lineKind_eq_quit]
  cases kind : lineKind text.dropLast with
  | blank =>
      obtain ⟨trimmed, shorter, same⟩ := ends_of_blank read holds empty kind
      rw [lineKind_eq_blank.mp kind] at shorter
      rw [same]
      exact iff_of_false (not_ends_of_empty ended shorter) (by decide)
  | undo =>
      obtain ⟨trimmed, next, shorter, _, _, same⟩ := ends_of_undo read holds empty kind sound four
      rw [lineKind_eq_undo.mp kind] at shorter
      rw [same]
      exact iff_of_false (not_ends_of_single ended shorter) (by decide)
  | quit =>
      obtain ⟨trimmed, shorter, round⟩ := commandRound_obeys toNumber read holds empty
      exact iff_of_true (.of_leave (round.trans (obey_quit shorter kind))) rfl
  | weight => exact iff_of_false (not_ends_of_weight ended holds kind sound four) (by decide)

/-- What is left is the end of what was there. -/
theorem behindFirstText_inside (rest : List Char) : behindFirstText rest <:+ rest := by
  have whole : (fgets (buflen - 2) rest).2 <:+ rest := ⟨_, fgets_append _ rest⟩
  rw [behindFirstText]
  split
  · exact (List.tail_suffix _).trans whole
  · exact whole

/-- What is left behind a line is shorter. -/
theorem behindFirstText_length {c : Char} {file : List Char} :
    (behindFirstText (c :: file)).length ≤ file.length := by
  have shorter : (fgets (buflen - 2) (c :: file)).2.length ≤ file.length :=
    fgets_rest_length 126 c file
  rw [behindFirstText]
  split
  · rw [List.length_tail]
    omega
  · exact shorter

/-- From a state in which the arrays hold `stack` and still have their first size. -/
theorem ends_iff {last : List Char} (count : Nat) (enough : console.input.length ≤ count)
    (inside : console.input <:+ input) (length : loop.buf.length = buflen)
    (holds : console.input = [] → HoldsText loop.buf last)
    (sound : loop.session.Sound stack) (four : loop.session.bufLen = 4) :
    Ends toNumber input loop console ↔
      ReachesQuit toNumber input stack.length last (commandInputs count console.input) := by
  induction count generalizing console loop stack last with
  | zero =>
      have ended := List.length_eq_zero_iff.mp (Nat.le_zero.mp enough)
      exact ends_of_end ended (holds ended) sound four
  | succ count ih =>
      by_cases ended : console.input = []
      · rw [ended]
        exact ends_of_end ended (holds ended) sound four
      obtain ⟨c, file, start⟩ := List.exists_cons_of_ne_nil ended
      obtain ⟨stored, read, line⟩ := fgetsInto_line length ended
      have fewer : (behindFirstText console.input).length ≤ count := by
        rw [start] at enough ⊢
        exact behindFirstText_length.trans (Nat.le_of_succ_le_succ enough)
      have shorterInside := (behindFirstText_inside console.input).trans inside
      have inputs : commandInputs (count + 1) console.input =
          console.input :: commandInputs count (behindFirstText console.input) := by
        rw [start]
        rfl
      rw [inputs, ReachesQuit]
      by_cases empty : firstText console.input = []
      · rw [empty] at line
        exact iff_of_false (not_endsKeeping_of_fails (commandRound_fails read line))
          fun both => both.1 empty
      rw [and_iff_right empty]
      cases kind : lineKind (firstText console.input).dropLast with
      | blank =>
          obtain ⟨trimmed, shorter, same⟩ := ends_of_blank read line empty kind
          have rest : behindFirstText console.input = (fgets (buflen - 2) console.input).2 :=
            if_neg (by rw [kind]; decide)
          rw [rest] at fewer shorterInside ⊢
          rw [same]
          exact ih fewer shorterInside shorter.length (fun _ => shorter) sound four
      | undo =>
          obtain ⟨trimmed, next, shorter, kept, small, same⟩ :=
            ends_of_undo read line empty kind sound four
          have rest : behindFirstText console.input = (fgets (buflen - 2) console.input).2 :=
            if_neg (by rw [kind]; decide)
          rw [rest] at fewer shorterInside ⊢
          rw [same, ih fewer shorterInside shorter.length (fun _ => shorter) kept small,
            List.length_dropLast]
      | quit =>
          obtain ⟨trimmed, shorter, round⟩ := commandRound_obeys toNumber read line empty
          exact iff_of_true (.of_leave (round.trans (obey_quit shorter kind))) trivial
      | weight =>
          have rest : behindFirstText console.input =
              (fgets (buflen - 2) console.input).2.tail := if_pos kind
          by_cases full : stack.length = 4
          · exact iff_of_false (not_ends_of_full read line kind sound four full)
              fun both => both.1 full
          obtain ⟨trimmed, next, point, shorter, kept, small, same⟩ :=
            ends_of_weight read line kind ended inside sound four full
          rw [rest] at fewer shorterInside ⊢
          have more : (stack ++ [point]).length = stack.length + 1 := List.length_append
          rw [and_iff_right full, same, ← more]
          exact and_congr_right fun _ =>
            ih fewer shorterInside shorter.length (fun _ => shorter) kept small

/-- From the start of the session, whatever the buffer holds. -/
theorem ends_initial_iff {last : List Char} (values : Nat → Int)
    (length : buf.length = buflen) (holds : input = [] → HoldsText buf last) :
    Ends toNumber input ⟨buf, .initial⟩ ⟨input, values, 0⟩ ↔
      ReachesQuit toNumber input ([] : List Point).length last
        (commandInputs input.length input) :=
  ends_iff input.length (Nat.le_refl _) List.suffix_rfl length holds Session.initial_sound rfl

/-- An empty line buffer. -/
def clearedBuf : List Char := List.replicate buflen nul

/-- A cleared buffer holds the empty text. -/
theorem clearedBuf_holdsText : HoldsText clearedBuf [] :=
  ⟨List.length_replicate, by decide, by decide⟩

/-- An input on which the loop ends reaches a `q`. -/
theorem reachesQuit_of_endsOnInput (ends : EndsOnInput toNumber input) :
    ReachesQuit toNumber input 0 [] (commandInputs input.length input) := by
  have length := clearedBuf_holdsText.length
  have cleared := ends clearedBuf (fun _ => 0) length
  exact (ends_initial_iff _ length fun _ => clearedBuf_holdsText).mp cleared

/-- The loop ends on exactly the inputs whose lines go on to a `q`. -/
theorem endsOnInput_iff (toNumber : Double → ℚ) (input : List Char) :
    EndsOnInput toNumber input ↔
      ReachesQuit toNumber input 0 [] (commandInputs input.length input) := by
  refine ⟨reachesQuit_of_endsOnInput, ?_⟩
  intro reaches buf values length
  have some : input ≠ [] := by
    rintro rfl
    obtain ⟨c, impossible⟩ := reaches
    cases impossible
  exact (ends_initial_iff values length fun ended => absurd ended some).mpr reaches

/-- A weight, the enter key and no `q`: the weight is entered once more. -/
theorem not_endsOnInput_twelve : ¬ ∃ toNumber, EndsOnInput toNumber ['1', '2', '\n', '\n'] := by
  rintro ⟨toNumber, ends⟩
  obtain ⟨_, _, _, c, impossible⟩ := reachesQuit_of_endsOnInput ends
  cases impossible

end MotorStand
