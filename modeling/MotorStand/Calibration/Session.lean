import MotorStand.Imperative.Region
import MotorStand.Fit.Filters

/-!
# The command loop of `load_cell_calibration`

The two arrays are byte regions, so that a `realloc` which counts bytes where
elements are meant shows. `bytes` is the size `realloc` is asked for when an
array of `buf_len` elements is full; `sourceBytes` is the one of the program.
-/

namespace MotorStand

open Imperative Imperative.Exec

/-- `ADC_MAX` of `ads1115.h`. -/
def adcMax : Int := 0x7fff

/-- `(double)value_raw / (double)ADC_MAX`. -/
def fullScale (valueRaw : Int) : ℚ := (valueRaw : ℚ) / (adcMax : ℚ)

/-- `sizeof(double)`. -/
def sizeofDouble : Nat := 8

/-- A weight and its measurement. -/
structure Point where
  known : ℚ
  measurement : ℚ
deriving DecidableEq

/-- What a line of input asks for. A weight line is followed by a reading. -/
inductive Command where
  | blank
  | undo
  | weight (known : ℚ) (valueRaw : Int)
deriving DecidableEq

/-- The locals of `main`. -/
structure Session where
  bufLen : Nat
  bufPos : Nat
  measurement : Region ℚ
  knownValues : Region ℚ

variable {σ : Type}

namespace Session

/-- The session before the first command. -/
def initial : Session := ⟨4, 0, .malloc ℚ (sizeofDouble * 4), .malloc ℚ (sizeofDouble * 4)⟩

/-- The byte count of `realloc(measurement,buf_len*2)`. -/
def sourceBytes (bufLen : Nat) : Nat := bufLen * 2

/-- `if (buf_pos == buf_len)`. -/
def grow (bytes : Nat → Nat) (session : Session) : Session :=
  if session.bufPos = session.bufLen then
    { session with
      measurement := session.measurement.realloc (bytes session.bufLen)
      knownValues := session.knownValues.realloc (bytes session.bufLen)
      bufLen := session.bufLen * 2 }
  else session

/-- The command `b`. The undone point is printed. -/
def undo (session : Session) : Exec σ Session :=
  if session.bufPos ≠ 0 then do
    let _ ← session.knownValues.read sizeofDouble (session.bufPos - 1)
    let _ ← session.measurement.read sizeofDouble (session.bufPos - 1)
    return { session with bufPos := session.bufPos - 1 }
  else return session

/-- A weight line. Either element is printed after it is stored. -/
def enterWeight (bytes : Nat → Nat) (known : ℚ) (valueRaw : Int) (session : Session) :
    Exec σ Session := do
  let session := session.grow bytes
  let knownValues ← session.knownValues.write sizeofDouble session.bufPos known
  let _ ← knownValues.read sizeofDouble session.bufPos
  let measurement ←
    session.measurement.write sizeofDouble session.bufPos (fullScale valueRaw)
  let _ ← measurement.read sizeofDouble session.bufPos
  return { session with
    bufPos := session.bufPos + 1, measurement := measurement, knownValues := knownValues }

/-- One round of the loop. -/
def step (bytes : Nat → Nat) (session : Session) : Command → Exec σ Session
  | .blank => return session
  | .undo => session.undo
  | .weight known valueRaw => session.enterWeight bytes known valueRaw

/-- The loop up to `q`. -/
def run (bytes : Nat → Nat) (session : Session) : List Command → Exec σ Session
  | [] => return session
  | command :: rest => do
      let session ← session.step bytes command
      run bytes session rest

/-- What `first_order_least_squares_filter` reads through its pointers `x` and `y`. -/
def fitArguments (session : Session) : Exec σ (List ℚ × List ℚ) := do
  let measurement ← session.measurement.elements sizeofDouble session.bufPos
  let knownValues ← session.knownValues.elements sizeofDouble session.bufPos
  return (measurement, knownValues)

/-- The fit after `q`: `some (m, b)`, or `none` for a session without points. -/
def finish (session : Session) : Exec (Heap ℚ) (Option (ℚ × ℚ)) :=
  if session.bufPos = 0 then return none
  else do
    let arguments ← session.fitArguments
    let (b, m) ← firstOrderLeastSquaresFilter arguments.1 arguments.2 session.bufPos
    forUp 0 session.bufPos () fun i _ => do
      let _ ← session.knownValues.read sizeofDouble i
      let _ ← session.measurement.read sizeofDouble i
      return ()
    return some (m, b)

end Session

/-! ## The undo stack -/

/-- What a command does to the points entered so far. -/
def Command.apply (stack : List Point) : Command → List Point
  | .blank => stack
  | .undo => stack.dropLast
  | .weight known valueRaw => stack ++ [⟨known, fullScale valueRaw⟩]

/-- The points which have been entered and not undone. -/
def undoStack (commands : List Command) : List Point := commands.foldl Command.apply []

/-- Weight lines are the commands which need memory. -/
def Command.IsWeight : Command → Prop
  | .weight _ _ => True
  | .blank | .undo => False

/-- The last command works on what the others left. -/
theorem undoStack_concat (commands : List Command) (command : Command) :
    undoStack (commands ++ [command]) = command.apply (undoStack commands) := by
  simp [undoStack]

namespace Session

/-- The arrays hold the points of `stack`. -/
structure Keeps (session : Session) (stack : List Point) : Prop where
  bufPos : session.bufPos = stack.length
  knownValues : session.knownValues.Holds sizeofDouble (stack.map Point.known)
  measurement : session.measurement.Holds sizeofDouble (stack.map Point.measurement)

/-- The arrays hold `stack`, and `buf_len` elements are allocated for either. -/
structure Sound (session : Session) (stack : List Point) : Prop extends session.Keeps stack where
  positive : 0 < session.bufLen
  bounded : session.bufPos ≤ session.bufLen
  knownRoom : sizeofDouble * session.bufLen ≤ session.knownValues.size
  measurementRoom : sizeofDouble * session.bufLen ≤ session.measurement.size

variable {session : Session} {stack : List Point} {bytes : Nat → Nat} {store : σ}

/-- A new session has no points and room for four. -/
theorem initial_sound : initial.Sound [] :=
  ⟨⟨rfl, .nil, .nil⟩, by decide, Nat.zero_le _, Nat.le_refl _, Nat.le_refl _⟩

/-- Commands run one part after the other. -/
theorem run_append (session : Session) (first second : List Command) :
    (session.run bytes (first ++ second) : Exec σ Session) =
      session.run bytes first >>= fun session => session.run bytes second := by
  induction first generalizing session with
  | nil => simp [run]
  | cons command rest ih =>
      simp only [List.cons_append, run, bind_assoc]
      exact bind_congr fun session => ih session

/-- The last command is one step. -/
theorem run_concat (session : Session) (commands : List Command) (command : Command) :
    (session.run bytes (commands ++ [command]) : Exec σ Session) =
      session.run bytes commands >>= fun session => session.step bytes command := by
  rw [run_append]
  refine bind_congr fun session => ?_
  simp [run]

/-- A `realloc` to enough bytes keeps the points and makes room for one more. -/
theorem grow_ensures (sound : session.Sound stack)
    (enough : session.bufPos = session.bufLen →
      sizeofDouble * (session.bufLen * 2) ≤ bytes session.bufLen) :
    (session.grow bytes).Sound stack ∧
      (session.grow bytes).bufPos < (session.grow bytes).bufLen := by
  have counted := sound.bufPos
  have positive := sound.positive
  unfold grow
  by_cases full : session.bufPos = session.bufLen
  · have room := enough full
    have wide : sizeofDouble * stack.length ≤ bytes session.bufLen := by
      refine (Nat.mul_le_mul_left _ ?_).trans room
      omega
    rw [if_pos full]
    have below : session.bufPos < session.bufLen * 2 := by omega
    refine ⟨⟨⟨counted, ?_, ?_⟩, ?_, below.le, room, room⟩, below⟩
    · exact sound.knownValues.realloc (by decide) (by rwa [List.length_map])
    · exact sound.measurement.realloc (by decide) (by rwa [List.length_map])
    · exact Nat.mul_pos positive (by decide)
  · rw [if_neg full]
    exact ⟨sound, Nat.lt_of_le_of_ne sound.bounded full⟩

/-- An element below the length lies in the region. -/
theorem inside_of_lt {region : Region ℚ} {index length : Nat}
    (room : sizeofDouble * length ≤ region.size) (below : index < length) :
    region.Inside sizeofDouble index := by
  have next : sizeofDouble * (index + 1) ≤ sizeofDouble * length :=
    Nat.mul_le_mul_left sizeofDouble below
  exact next.trans room

/-- A weight line pushes its point. -/
theorem enterWeight_ensures (known : ℚ) (valueRaw : Int) (sound : session.Sound stack)
    (enough : session.bufPos = session.bufLen →
      sizeofDouble * (session.bufLen * 2) ≤ bytes session.bufLen) :
    (session.enterWeight bytes known valueRaw).Ensures store fun next after =>
      next.Sound (stack ++ [⟨known, fullScale valueRaw⟩]) ∧
        next.bufLen = (session.grow bytes).bufLen ∧ after = store := by
  obtain ⟨⟨⟨counted, knownValues, measurement⟩, positive, _, knownRoom, measurementRoom⟩, below⟩ :=
    grow_ensures sound enough
  have knownInside := inside_of_lt knownRoom below
  have measurementInside := inside_of_lt measurementRoom below
  have knownHere : (session.grow bytes).knownValues.Inside sizeofDouble
      (stack.map Point.known).length := by rwa [List.length_map, ← counted]
  have measurementHere : (session.grow bytes).measurement.Inside sizeofDouble
      (stack.map Point.measurement).length := by rwa [List.length_map, ← counted]
  unfold enterWeight
  refine .bind_returns (Region.write_returns knownInside) ?_
  refine .bind_returns (Region.read_returns knownInside
    (Region.element_put_self (by decide))) ?_
  refine .bind_returns (Region.write_returns measurementInside) ?_
  refine .bind_returns (Region.read_returns measurementInside
    (Region.element_put_self (by decide))) ?_
  refine ensures_pure ⟨⟨⟨?_, ?_, ?_⟩, positive, below, knownRoom, measurementRoom⟩, rfl, rfl⟩
  · rw [List.length_append, List.length_singleton, ← counted]
  · have stored := knownValues.put known (by decide) knownHere
    rw [List.length_map, ← counted] at stored
    simpa using stored
  · have stored := measurement.put (fullScale valueRaw) (by decide) measurementHere
    rw [List.length_map, ← counted] at stored
    simpa using stored

/-- `b` pops the last point, if there is one. -/
theorem undo_ensures (sound : session.Sound stack) :
    session.undo.Ensures store fun next after =>
      next.Sound stack.dropLast ∧ next.bufLen = session.bufLen ∧ after = store := by
  obtain ⟨⟨counted, knownValues, measurement⟩, positive, bounded, knownRoom, measurementRoom⟩ :=
    sound
  unfold undo
  cases stack.eq_nil_or_concat with
  | inl none =>
      subst none
      rw [if_neg (by simpa using counted)]
      exact ensures_pure ⟨⟨⟨counted, knownValues, measurement⟩, positive, bounded, knownRoom,
        measurementRoom⟩, rfl, rfl⟩
  | inr some =>
      obtain ⟨earlier, last, rfl⟩ := some
      have position : session.bufPos = earlier.length + 1 := by simpa using counted
      rw [if_pos (by omega), position, Nat.add_sub_cancel]
      refine .bind_returns (knownValues.read_returns last.known ?_) ?_
      · simp
      refine .bind_returns (measurement.read_returns last.measurement ?_) ?_
      · simp
      have knownBefore := knownValues.dropLast
      have measurementBefore := measurement.dropLast
      rw [← List.map_dropLast] at knownBefore measurementBefore
      refine ensures_pure ⟨⟨⟨?_, knownBefore, measurementBefore⟩, positive, ?_, knownRoom,
        measurementRoom⟩, rfl, rfl⟩
      · simp
      · change earlier.length ≤ session.bufLen
        omega

/-- A command finds enough memory: a weight line on full arrays grows them to hold
twice as many elements. -/
def Grows (bytes : Nat → Nat) (session : Session) (command : Command) : Prop :=
  command.IsWeight → session.bufPos = session.bufLen →
    sizeofDouble * (session.bufLen * 2) ≤ bytes session.bufLen

/-- What one round of the loop preserves. Only a weight line on full arrays changes
`buf_len`. -/
theorem step_ensures {command : Command} (sound : session.Sound stack)
    (grows : session.Grows bytes command) :
    (session.step bytes command).Ensures store fun next after =>
      next.Sound (command.apply stack) ∧
        ((command.IsWeight → session.bufPos ≠ session.bufLen) → next.bufLen = session.bufLen) ∧
        after = store := by
  cases command with
  | blank => exact ensures_pure ⟨sound, fun _ => rfl, rfl⟩
  | undo =>
      apply (undo_ensures sound).imp
      rintro next after ⟨kept, length, same⟩
      exact ⟨kept, fun _ => length, same⟩
  | weight known valueRaw =>
      apply (enterWeight_ensures known valueRaw sound (grows trivial)).imp
      rintro next after ⟨kept, length, same⟩
      refine ⟨kept, fun room => ?_, same⟩
      rw [length, grow, if_neg (room trivial)]

/-- Growing the arrays gives them the bytes of twice as many elements. -/
def GrowthWorks (bytes : Nat → Nat) : Prop :=
  ∀ bufLen, sizeofDouble * (bufLen * 2) ≤ bytes bufLen

/-- No weight line is entered while there are four points. -/
def Calm (commands : List Command) : Prop :=
  ∀ earlier command, earlier ++ [command] <+: commands → command.IsWeight →
    (undoStack earlier).length ≠ 4

/-- A part of a calm session is calm. -/
theorem Calm.of_prefix {earlier commands : List Command} (calm : Calm commands)
    (before : earlier <+: commands) : Calm earlier :=
  fun first command inside => calm first command (inside.trans before)

/-- What a whole session preserves, if its arrays grow properly or never have to. -/
theorem run_ensures (bytes : Nat → Nat) (commands : List Command) (memory : GrowthWorks bytes ∨ Calm commands)
    (store : σ) :
    (initial.run bytes commands).Ensures store fun session after =>
      session.Sound (undoStack commands) ∧ (Calm commands → session.bufLen = 4) ∧
        after = store := by
  induction commands using List.reverseRecOn with
  | nil => exact ensures_pure ⟨initial_sound, fun _ => rfl, rfl⟩
  | append_singleton earlier command ih =>
      have before : earlier <+: earlier ++ [command] := List.prefix_append _ _
      have small : Calm (earlier ++ [command]) → ∀ session : Session,
          session.Sound (undoStack earlier) → session.bufLen = 4 → command.IsWeight →
            session.bufPos ≠ session.bufLen := by
        intro calm session sound length weight
        rw [length, sound.bufPos]
        exact calm earlier command (List.prefix_refl _) weight
      rw [run_concat, undoStack_concat]
      apply (ih (memory.imp_right fun calm => calm.of_prefix before)).bind
      rintro session _ ⟨sound, length, rfl⟩
      refine (step_ensures sound ?_).imp ?_
      · intro weight full
        cases memory with
        | inl works => exact works session.bufLen
        | inr calm =>
            exact absurd full (small calm session sound (length (calm.of_prefix before)) weight)
      · rintro next _ ⟨kept, unchanged, rfl⟩
        refine ⟨kept, fun calm => ?_, rfl⟩
        have four := length (calm.of_prefix before)
        rw [unchanged (small calm session sound four), four]

/-! ## The growth of the program -/

/-- On four points a weight line shrinks the arrays to eight bytes and stores
behind them. -/
theorem step_overflows {command : Command} (sound : session.Sound stack)
    (four : session.bufLen = 4) (full : stack.length = 4) (weight : command.IsWeight) :
    session.step sourceBytes command store = .error .outOfBounds := by
  cases command with
  | blank => exact weight.elim
  | undo => exact weight.elim
  | weight known valueRaw =>
      have position : session.bufPos = 4 := sound.bufPos.trans full
      have grown : (session.grow sourceBytes).knownValues.size = 8 := by
        rw [grow, if_pos (position.trans four.symm), four]
        rfl
      have index : (session.grow sourceBytes).bufPos = 4 := by
        rw [grow, if_pos (position.trans four.symm)]
        exact position
      refine bind_of_fails (Region.write_fails ?_)
      rw [Region.Inside, grown, index]
      decide

/-- The session keeps exactly the points entered: after every initial part of the
commands the program is still inside its memory, the arrays hold the undo stack,
and a fit would be given that stack. -/
def KeepsPoints (commands : List Command) : Prop :=
  ∀ (earlier : List Command) (store : Heap ℚ), earlier <+: commands →
    (initial.run sourceBytes earlier).Ensures store fun session after =>
      session.Keeps (undoStack earlier) ∧
        session.fitArguments after = .ok (((undoStack earlier).map Point.measurement,
          (undoStack earlier).map Point.known), after)

/-- The fit is handed the points of the stack. -/
theorem Keeps.fitArguments_returns (keeps : session.Keeps stack) :
    (session.fitArguments : Exec σ _) store =
      .ok ((stack.map Point.measurement, stack.map Point.known), store) := by
  have measurement : session.measurement.elements sizeofDouble session.bufPos store =
      .ok (stack.map Point.measurement, store) := by
    rw [keeps.bufPos, ← List.length_map Point.measurement]
    exact keeps.measurement.elements_returns
  have knownValues : session.knownValues.elements sizeofDouble session.bufPos store =
      .ok (stack.map Point.known, store) := by
    rw [keeps.bufPos, ← List.length_map Point.known]
    exact keeps.knownValues.elements_returns
  unfold fitArguments
  rw [bind_of_returns measurement, bind_of_returns knownValues]
  rfl

/-- In a calm session every point stays where it was stored. -/
theorem keepsPoints_of_calm {commands : List Command} (calm : Calm commands) :
    KeepsPoints commands := by
  intro earlier store before
  apply (run_ensures sourceBytes earlier (Or.inr (calm.of_prefix before)) store).imp
  rintro session _ ⟨sound, _, rfl⟩
  exact ⟨sound.toKeeps, sound.toKeeps.fitArguments_returns⟩

/-- A fifth point is not kept. -/
theorem not_keepsPoints {commands earlier : List Command} {command : Command}
    (inside : earlier ++ [command] <+: commands) (weight : command.IsWeight)
    (calm : Calm earlier) (full : (undoStack earlier).length = 4) : ¬ KeepsPoints commands := by
  intro keeps
  obtain ⟨session, after, run, _⟩ := keeps _ (Heap.empty ℚ) inside
  obtain ⟨middle, _, first, sound, length, rfl⟩ :=
    run_ensures sourceBytes earlier (Or.inr calm) (Heap.empty ℚ)
  rw [run_concat, bind_of_returns first, step_overflows sound (length calm) full weight] at run
  cases run

/-- What the whole session keeps, a part of it keeps. -/
theorem KeepsPoints.of_prefix {earlier commands : List Command} (keeps : KeepsPoints commands)
    (before : earlier <+: commands) : KeepsPoints earlier :=
  fun first store inside => keeps first store (inside.trans before)

/-- A session which keeps its points never grows its arrays. -/
theorem KeepsPoints.calm {commands : List Command} (keeps : KeepsPoints commands) :
    Calm commands := by
  induction commands using List.reverseRecOn with
  | nil =>
      intro first command inside
      have length := inside.length_le
      simp at length
  | append_singleton earlier last ih =>
      have calm := ih (keeps.of_prefix (List.prefix_append _ _))
      intro first command inside weight full
      cases List.prefix_concat_iff.mp inside with
      | inl whole =>
          obtain ⟨rfl, same⟩ := List.append_inj' whole rfl
          exact not_keepsPoints inside weight calm full keeps
      | inr before => exact calm first command before weight full

/-- The session keeps the points entered exactly if no weight line is entered while
there are four of them. -/
theorem keepsPoints_iff_calm (commands : List Command) :
    KeepsPoints commands ↔
      ∀ earlier known valueRaw, earlier ++ [.weight known valueRaw] <+: commands →
        (undoStack earlier).length ≠ 4 := by
  constructor
  · intro keeps earlier known valueRaw inside
    exact keeps.calm earlier _ inside trivial
  · intro never
    refine keepsPoints_of_calm fun earlier command inside weight => ?_
    cases command with
    | blank => exact weight.elim
    | undo => exact weight.elim
    | weight known valueRaw => exact never earlier known valueRaw inside

/-- Five weight lines, the fifth of which overruns the shrunken arrays. -/
def fiveWeights : List Command :=
  [.weight 0 10, .weight 1 20, .weight 2 30, .weight 3 40, .weight 4 50]

/-- The fifth weight is written behind the arrays. -/
theorem not_keepsPoints_fiveWeights : ¬ KeepsPoints fiveWeights := by
  intro keeps
  exact keeps.calm (fiveWeights.take 4) (.weight 4 50) (List.prefix_refl _) trivial rfl

end Session

end MotorStand
