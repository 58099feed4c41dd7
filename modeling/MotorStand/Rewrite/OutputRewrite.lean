import MotorStand.Client.LogFile
import MotorStand.Imperative.Region
import MotorStand.Server.Writethrough

/-!
# `output_rewrite`

The tool reads a log into an array which doubles when it is full, and appends the
rows to another file with their times counted from the first one. The length of
the array is an `int`.
-/

namespace MotorStand

open CText Imperative Imperative.Exec

/-- What the tool has printed, and the file whose name ends in `.adjust.log`. -/
structure RewriteStore where
  console : List Char
  adjusted : List Char

/-- `printf`. -/
def printf (text : List Char) : Exec RewriteStore Unit :=
  modify fun store => { store with console := store.console ++ text }

/-- `fprintf` to the adjusted file. -/
def fprintf (text : List Char) : Exec RewriteStore Unit :=
  modify fun store => { store with adjusted := store.adjusted ++ text }

/-- `sizeof(buf)`. -/
def sizeofBuf : Nat := 1024

/-- `data_vec` with `data_vec_pos` and `data_vec_len`. -/
structure Loaded where
  dataVec : Region DataRow
  dataVecPos : Nat
  dataVecLen : Nat

/-- What is read from a line. Each conversion starts where the one before it stopped. -/
def parseRow (line : List Char) : DataRow :=
  let (collectTime, pos) := strtol line
  let (rawValue, pos) := strtol pos
  let (value, pos) := strtod pos
  let (valueTare, _) := strtod pos
  ⟨collectTime, rawValue, value, valueTare⟩

/-- `a - b` of two `long`s. -/
def subLong (a b : Int) : Exec RewriteStore Int :=
  if longMin ≤ a - b ∧ a - b ≤ longMax then return a - b else fail .signedOverflow

namespace Loaded

/-- `malloc(sizeof(output_data)*256)`. -/
def initial : Loaded := ⟨.malloc DataRow (sizeofOutputData * 256), 0, 256⟩

/-- `if (data_vec_pos == data_vec_len)`: the length is doubled before the array is. -/
def grow (loaded : Loaded) : Exec RewriteStore Loaded :=
  if loaded.dataVecPos = loaded.dataVecLen then
    if intMax < loaded.dataVecLen * 2 then fail .signedOverflow
    else return {
      loaded with
      dataVecLen := loaded.dataVecLen * 2
      dataVec := loaded.dataVec.realloc (sizeofOutputData * (loaded.dataVecLen * 2)) }
  else return loaded

/-- Store a row at `data_vec_pos`, which stays below the length and does not overflow. -/
def append (loaded : Loaded) (row : DataRow) : Exec RewriteStore Loaded := do
  let loaded ← loaded.grow
  let dataVec ← loaded.dataVec.write sizeofOutputData loaded.dataVecPos row
  return { loaded with dataVec, dataVecPos := loaded.dataVecPos + 1 }

/-- A line without a digit in front. Its last character, the line break, is overwritten;
an empty string has none. -/
def skipLine (buf : List Char) : Exec RewriteStore Unit :=
  if cString buf = [] then fail .outOfBounds
  else printf ("skipping line: \"".toList ++ ((cString buf).dropLast ++ "\"\n".toList))

/-- The body of the loop, after `fgets` stored `buf`. -/
def readLine (loaded : Loaded) (buf : List Char) : Exec RewriteStore Loaded :=
  match buf with
  | [] => return loaded
  | c :: _ =>
      if c.isDigit then loaded.append (parseRow (cString buf))
      else do
        skipLine buf
        return loaded

/-- The loop over the lines. -/
def readLines (loaded : Loaded) : List (List Char) → Exec RewriteStore Loaded
  | [] => return loaded
  | buf :: rest => do
      let loaded ← loaded.readLine buf
      readLines loaded rest

/-- The row `i` as it is written, with its time counted from `collectOffset`. -/
def writeRow (loaded : Loaded) (collectOffset : Int) (i : Nat) : Exec RewriteStore Unit := do
  let row ← loaded.dataVec.read sizeofOutputData i
  let collectTime ← subLong row.collectTime collectOffset
  fprintf (rowText { row with collectTime })

end Loaded

/-- `strcpy(buf,argv[1])` and `strcat(buf,".adjust.log")`. -/
def nameOutput (path : List Char) : Exec RewriteStore Unit :=
  if sizeofBuf < (path ++ ".adjust.log".toList).length + 1 then fail .outOfBounds else return ()

/-- The first line of the adjusted file. -/
def adjustedHeader : List Char := "collect_time raw_value value tare_value\n".toList

/-- `output_rewrite` on the file at `path`, which holds `log`. -/
def outputRewrite (path log : List Char) : Exec RewriteStore Unit := do
  let loaded ← Loaded.initial.readLines (fgetsAll (sizeofBuf - 1) log)
  if loaded.dataVecPos = 0 then return ()
  else do
    nameOutput path
    let first ← loaded.dataVec.read sizeofOutputData 0
    fprintf adjustedHeader
    forInt loaded.dataVecPos () fun i _ => loaded.writeRow first.collectTime i

/-- The row with its time counted from `start`. -/
def DataRow.since (row : DataRow) (start : Int) : DataRow :=
  { row with collectTime := row.collectTime - start }

variable {row : DataRow}

/-! ## The array -/

/-- The largest length of the array: 256 doubled as long as an `int` can hold it. -/
def maxRows : Nat := 2 ^ 30

namespace Loaded

/-- The array holds `rows`, in a length which came from doubling. -/
structure Sound (loaded : Loaded) (rows : List DataRow) : Prop where
  pos : loaded.dataVecPos = rows.length
  holds : loaded.dataVec.Holds sizeofOutputData rows
  doubled : ∃ times ≤ 22, loaded.dataVecLen = 256 * 2 ^ times
  bounded : loaded.dataVecPos ≤ loaded.dataVecLen
  room : sizeofOutputData * loaded.dataVecLen ≤ loaded.dataVec.size

variable {loaded : Loaded} {rows : List DataRow} {store : RewriteStore}

/-- Nothing is loaded at first. -/
theorem initial_sound : initial.Sound [] :=
  ⟨rfl, .nil, ⟨0, by decide, rfl⟩, by decide, Nat.le_refl _⟩

/-- Below the largest length there is always room for one more row. -/
theorem grow_ensures (sound : loaded.Sound rows) (few : rows.length < maxRows) :
    loaded.grow.Ensures store fun next after =>
      next.Sound rows ∧ next.dataVecPos < next.dataVecLen ∧ after = store := by
  obtain ⟨pos, holds, ⟨times, small, doubled⟩, bounded, room⟩ := sound
  unfold grow
  by_cases full : loaded.dataVecPos = loaded.dataVecLen
  · have fewer : 256 * 2 ^ times < 256 * 2 ^ 22 := by
      rw [← doubled, ← full, pos]
      exact few
    have next : times + 1 ≤ 22 :=
      (Nat.pow_lt_pow_iff_right (by decide)).mp (Nat.lt_of_mul_lt_mul_left fewer)
    have twice : loaded.dataVecLen * 2 = 256 * 2 ^ (times + 1) := by
      rw [doubled, pow_succ, Nat.mul_assoc]
    have fits : ¬ intMax < loaded.dataVecLen * 2 := by
      have bound : 2 ^ (times + 1) ≤ 2 ^ 22 := Nat.pow_le_pow_right (by decide) next
      simp only [twice, intMax]
      omega
    rw [if_pos full, if_neg fits]
    have positive : 0 < loaded.dataVecLen := by
      rw [doubled]
      positivity
    apply ensures_pure
    refine ⟨⟨pos, ?_, ⟨times + 1, next, twice⟩, ?_, Nat.le_refl _⟩, ?_, rfl⟩
    · apply holds.realloc (by decide)
      apply Nat.mul_le_mul_left
      omega
    · dsimp only
      omega
    · dsimp only
      omega
  · rw [if_neg full]
    exact ensures_pure ⟨⟨pos, holds, ⟨times, small, doubled⟩, bounded, room⟩,
      Nat.lt_of_le_of_ne bounded full, rfl⟩

/-- A row more is loaded, behind a doubling where there is no room. -/
theorem append_ensures (sound : loaded.Sound rows) (few : rows.length < maxRows)
    (row : DataRow) :
    (loaded.append row).Ensures store fun next after =>
      next.Sound (rows ++ [row]) ∧ after = store := by
  apply (grow_ensures sound few).bind
  rintro grown after ⟨⟨pos, holds, doubled, _, room⟩, below, rfl⟩
  have next : sizeofOutputData * (grown.dataVecPos + 1) ≤ sizeofOutputData * grown.dataVecLen :=
    Nat.mul_le_mul_left _ below
  have inside : grown.dataVec.Inside sizeofOutputData grown.dataVecPos := next.trans room
  apply Ensures.bind_returns (Region.write_returns inside)
  apply ensures_pure
  refine ⟨⟨?_, ?_, doubled, below, room⟩, rfl⟩
  · rw [List.length_append, List.length_singleton, ← pos]
  · rw [pos] at inside ⊢
    exact holds.put row (by decide) inside

/-- At the largest length the next row makes the length overflow. -/
theorem append_overflows (sound : loaded.Sound rows) (many : rows.length = maxRows)
    (row : DataRow) : loaded.append row store = .error .signedOverflow := by
  obtain ⟨pos, _, ⟨times, small, doubled⟩, bounded, _⟩ := sound
  have most : 2 ^ times ≤ 2 ^ 22 := Nat.pow_le_pow_right (by decide) small
  have length : loaded.dataVecLen = maxRows := by
    rw [pos, many] at bounded
    simp only [maxRows] at bounded ⊢
    omega
  have full : loaded.dataVecPos = loaded.dataVecLen := by rw [pos, many, length]
  have overflows : intMax < loaded.dataVecLen * 2 := by
    rw [length]
    decide
  apply bind_of_fails
  rw [grow, if_pos full, if_pos overflows]
  rfl

end Loaded

/-! ## Reading -/

/-- `isdigit(buf[0])`. -/
def startsWithDigit (buf : List Char) : Bool := buf.head?.any Char.isDigit

/-- There is no character in front of the NUL. -/
def BeginsWithNul (buf : List Char) : Prop := ∃ c, buf.head? = some c ∧ c.toNat = 0

/-- The rows of the buffers which begin with a digit. -/
def rowsOf (bufs : List (List Char)) : List DataRow :=
  (bufs.filter startsWithDigit).map fun buf => parseRow (cString buf)

variable {buf : List Char} {bufs : List (List Char)}

/-- A line which starts with a digit is a row. -/
theorem rowsOf_digit (digit : startsWithDigit buf = true) :
    rowsOf (buf :: bufs) = parseRow (cString buf) :: rowsOf bufs := by
  rw [rowsOf, List.filter_cons, if_pos digit, List.map_cons]
  rfl

/-- Any other line is none. -/
theorem rowsOf_other (other : startsWithDigit buf = false) :
    rowsOf (buf :: bufs) = rowsOf bufs := by
  rw [rowsOf, List.filter_cons, other]
  rfl

/-- A time which `strtol` can read from digits. -/
def DataRow.Timed (row : DataRow) : Prop := 0 ≤ row.collectTime ∧ row.collectTime ≤ longMax

/-- The time of a row is what `strtol` reads first. -/
theorem parseRow_collectTime (line : List Char) :
    (parseRow line).collectTime = (strtol line).1 := rfl

/-- The time of a row fits in a `long`. -/
theorem timed_of_mem_rowsOf (member : row ∈ rowsOf bufs) :
    row.Timed := by
  obtain ⟨buf, kept, rfl⟩ := List.mem_map.mp member
  have digit := (List.mem_filter.mp kept).2
  cases buf with
  | nil => cases digit
  | cons c rest =>
      have digit : c.isDigit = true := digit
      have nonzero : c.toNat ≠ 0 := by
        have bounds := toNat_of_isDigit digit
        omega
      rw [DataRow.Timed, parseRow_collectTime, cString, List.takeWhile_cons,
        if_pos (decide_eq_true nonzero)]
      exact strtol_of_isDigit digit _

namespace Loaded

variable {loaded : Loaded} {rows : List DataRow} {store : RewriteStore}

/-- A row is appended. -/
theorem readLine_digit (digit : startsWithDigit buf = true) :
    loaded.readLine buf = loaded.append (parseRow (cString buf)) := by
  cases buf with
  | nil => cases digit
  | cons c rest => exact if_pos digit

/-- A line without a digit in front is skipped. -/
theorem readLine_skips (other : startsWithDigit buf = false) (string : ¬ BeginsWithNul buf) :
    (loaded.readLine buf).Ensures store fun next after =>
      next = loaded ∧ after.adjusted = store.adjusted := by
  cases buf with
  | nil => exact ensures_pure ⟨rfl, rfl⟩
  | cons c rest =>
      have other : c.isDigit = false := other
      have nonzero : c.toNat ≠ 0 := fun zero => string ⟨c, rfl, zero⟩
      have nonempty : cString (c :: rest) ≠ [] := by
        rw [cString, List.takeWhile_cons, if_pos (decide_eq_true nonzero)]
        exact List.cons_ne_nil _ _
      rw [readLine, other, if_neg Bool.false_ne_true, skipLine, if_neg nonempty]
      exact .of_returns rfl ⟨rfl, rfl⟩

/-- On the empty string the tool writes in front of `buf`. -/
theorem readLine_overruns (begins : BeginsWithNul buf) :
    loaded.readLine buf store = .error .outOfBounds := by
  obtain ⟨c, first, zero⟩ := begins
  obtain ⟨rest, rfl⟩ := List.head?_eq_some_iff.mp first
  have other : c.isDigit = false := by
    rw [← Bool.not_eq_true]
    intro digit
    have bounds := toNat_of_isDigit digit
    omega
  have empty : cString (c :: rest) = [] := by
    rw [cString, List.takeWhile_cons, if_neg (by simpa using zero)]
  rw [readLine, other, if_neg Bool.false_ne_true, skipLine, if_pos empty]
  rfl

/-- The rows are stored in order. -/
theorem readLines_ensures (strings : ∀ buf ∈ bufs, ¬ BeginsWithNul buf) (sound : loaded.Sound rows)
    (few : rows.length + (rowsOf bufs).length ≤ maxRows) :
    (loaded.readLines bufs).Ensures store fun last after =>
      last.Sound (rows ++ rowsOf bufs) ∧ after.adjusted = store.adjusted := by
  induction bufs generalizing loaded rows store with
  | nil => exact ensures_pure ⟨by simpa [rowsOf] using sound, rfl⟩
  | cons buf bufs ih =>
      have others := fun other member => strings other (List.mem_cons_of_mem buf member)
      rw [readLines]
      cases digit : startsWithDigit buf with
      | false =>
          rw [rowsOf_other digit] at few ⊢
          apply (readLine_skips digit (strings buf List.mem_cons_self)).bind
          rintro _ middle ⟨rfl, same⟩
          apply (ih others sound few).imp
          rintro last after ⟨kept, unchanged⟩
          exact ⟨kept, unchanged.trans same⟩
      | true =>
          rw [rowsOf_digit digit, List.length_cons] at few
          rw [readLine_digit digit]
          apply (append_ensures sound (by omega) (parseRow (cString buf))).bind
          rintro next _ ⟨appended, rfl⟩
          have fewer : (rows ++ [parseRow (cString buf)]).length + (rowsOf bufs).length ≤
              maxRows := by
            rw [List.length_append, List.length_singleton]
            omega
          apply (ih others appended fewer).imp
          rintro last after ⟨kept, unchanged⟩
          refine ⟨?_, unchanged⟩
          rw [rowsOf_digit digit]
          rwa [List.append_assoc] at kept

/-- An empty string, or one row more than the largest length, stops the tool. -/
theorem not_ensures_readLines {post : Loaded → RewriteStore → Prop} (sound : loaded.Sound rows)
    (fits : rows.length ≤ maxRows)
    (faulty : (∃ buf ∈ bufs, BeginsWithNul buf) ∨
      maxRows < rows.length + (rowsOf bufs).length) :
    ¬ (loaded.readLines bufs).Ensures store post := by
  induction bufs generalizing loaded rows store with
  | nil => 
      rcases faulty with ⟨_, member, _⟩ | many
      · cases member
      · rw [rowsOf, List.filter_nil, List.map_nil, List.length_nil] at many
        omega
  | cons buf bufs ih =>
      rw [readLines]
      by_cases begins : BeginsWithNul buf
      · exact not_ensures_of_fails (bind_of_fails (readLine_overruns begins))
      have faulty : (∃ buf ∈ bufs, BeginsWithNul buf) ∨
          maxRows < rows.length + (rowsOf (buf :: bufs)).length := by
        refine faulty.imp_left ?_
        rintro ⟨other, member, nul⟩
        rcases List.mem_cons.mp member with rfl | later
        · exact absurd nul begins
        · exact ⟨other, later, nul⟩
      cases digit : startsWithDigit buf with
      | false =>
          rw [rowsOf_other digit] at faulty
          apply (readLine_skips digit begins).not_ensures_bind
          rintro _ middle ⟨rfl, _⟩
          exact ih sound fits faulty
      | true =>
          rw [readLine_digit digit]
          rcases Nat.eq_or_lt_of_le fits with full | room
          · exact not_ensures_of_fails (bind_of_fails (append_overflows sound full _))
          · apply (append_ensures sound room (parseRow (cString buf))).not_ensures_bind
            rintro next _ ⟨appended, rfl⟩
            rw [rowsOf_digit digit, List.length_cons] at faulty
            apply ih appended
            · rw [List.length_append, List.length_singleton]
              exact room
            · rw [List.length_append, List.length_singleton]
              exact faulty.imp_right fun many => by omega

end Loaded

/-! ## The adjusted file -/

/-- The difference of two times since the start of the clock does not overflow. -/
theorem subLong_returns {a b : Int} (aNonneg : 0 ≤ a) (aBelow : a ≤ longMax) (bNonneg : 0 ≤ b)
    (bBelow : b ≤ longMax) (store : RewriteStore) : subLong a b store = .ok (a - b, store) := by
  have fits : longMin ≤ a - b ∧ a - b ≤ longMax := by
    simp only [longMin, longMax] at *
    omega
  rw [subLong, if_pos fits]
  rfl

/-- The rows with their times counted from the first one. -/
def rewrittenText : List DataRow → List Char
  | [] => []
  | first :: rest =>
      adjustedHeader ++ (first :: rest).flatMap fun row => rowText (row.since first.collectTime)

/-- The adjusted file has a line for the header and one for each row. -/
theorem count_rewrittenText (rows : List DataRow) :
    (rewrittenText rows).count '\n' = if rows = [] then 0 else rows.length + 1 := by
  cases rows with
  | nil => rfl
  | cons first rest =>
      have lines : ∀ rows : List DataRow, (rows.flatMap fun row =>
          rowText (row.since first.collectTime)).count '\n' = rows.length := by
        intro rows
        induction rows with
        | nil => rfl
        | cons row rows ih =>
            rw [List.flatMap_cons, List.count_append, count_rowText, ih, List.length_cons,
              Nat.add_comm]
      have header : adjustedHeader.count '\n' = 1 := by decide
      rw [rewrittenText, List.count_append, lines, header, if_neg (List.cons_ne_nil _ _),
        Nat.add_comm]

/-- An adjusted file shows how many rows it has. -/
theorem length_of_rewrittenText {rows others : List DataRow}
    (same : rewrittenText rows = rewrittenText others) : rows.length = others.length := by
  have counts := congrArg (List.count '\n') same
  rw [count_rewrittenText, count_rewrittenText] at counts
  cases rows with
  | nil =>
      cases others with
      | nil => rfl
      | cons row others => simp at counts
  | cons row rows =>
      cases others with
      | nil => simp at counts
      | cons other others => simpa using counts

/-- The name of the adjusted file is put together in the line buffer. -/
def PathFits (path : List Char) : Prop :=
  (path ++ ".adjust.log".toList).length + 1 ≤ sizeofBuf

section

variable {loaded : Loaded} {rows : List DataRow} {store : RewriteStore} {start : Int}

/-- A row is written with its time since the first. -/
theorem writeRow_ensures (sound : loaded.Sound rows) (startNonneg : 0 ≤ start)
    (startBelow : start ≤ longMax) {i : Nat} (found : rows[i]? = some row) (timed : row.Timed) :
    (loaded.writeRow start i).Ensures store fun _ after =>
      after.adjusted = store.adjusted ++ rowText (row.since start) := by
  apply Ensures.bind_returns (sound.holds.read_returns _ found)
  apply Ensures.bind_returns (subLong_returns timed.1 timed.2 startNonneg startBelow store)
  exact .of_returns rfl rfl

/-- The rows are written in order. -/
theorem writeRows_ensures (sound : loaded.Sound rows) (timed : ∀ row ∈ rows, row.Timed)
    (fits : rows.length ≤ intMax) (startNonneg : 0 ≤ start) (startBelow : start ≤ longMax) :
    (forInt loaded.dataVecPos () fun i _ => loaded.writeRow start i).Ensures store
      fun _ after => after.adjusted =
        store.adjusted ++ rows.flatMap fun row => rowText (row.since start) := by
  rw [sound.pos]
  apply (forInt_ensures (fun i _ written => written.adjusted =
    store.adjusted ++ (rows.take i).flatMap fun row => rowText (row.since start)) fits
    (by simp) _).imp
  · intro _ after written
    rwa [List.take_length] at written
  · intro i _ written below earlier
    have found : rows[i]? = some rows[i] := List.getElem?_eq_getElem below
    have member : rows[i] ∈ rows := List.getElem_mem below
    apply (writeRow_ensures sound startNonneg startBelow found (timed _ member)).imp
    intro _ after appended
    rw [appended, earlier, List.take_succ_eq_append_getElem below, List.flatMap_append,
      List.flatMap_singleton, List.append_assoc]

end

/-- The rows which the tool reads from a file. -/
def rowsIn (log : List Char) : List DataRow := rowsOf (fgetsAll (sizeofBuf - 1) log)

/-- Nothing stops the tool: it is given no empty string, and the length of the array and the
name of the output do not overflow. -/
structure Rewritable (path log : List Char) : Prop where
  strings : ∀ buf ∈ fgetsAll (sizeofBuf - 1) log, ¬ BeginsWithNul buf
  few : (rowsIn log).length ≤ maxRows
  fits : rowsIn log ≠ [] → PathFits path

variable {path log : List Char} {store : RewriteStore}

/-- A log which can be rewritten is rewritten. -/
theorem outputRewrite_ensures (rewritable : Rewritable path log) :
    (outputRewrite path log).Ensures store fun _ after =>
      after.adjusted = store.adjusted ++ rewrittenText (rowsIn log) := by
  obtain ⟨strings, few, fits⟩ := rewritable
  have room : ([] : List DataRow).length + (rowsIn log).length ≤ maxRows := by simpa using few
  apply (Loaded.readLines_ensures strings Loaded.initial_sound room).bind
  rintro loaded middle ⟨sound, same⟩
  have sound : loaded.Sound (rowsIn log) := sound
  have timed : ∀ row ∈ rowsIn log, row.Timed := fun _ member => timed_of_mem_rowsOf member
  have count := sound.pos
  cases rows : rowsIn log with
  | nil =>
      rw [rows, List.length_nil] at count
      rw [if_pos count]
      apply ensures_pure
      rw [same, rewrittenText, List.append_nil]
  | cons first rest =>
      rw [rows] at sound few count timed
      have firstTimed := timed first List.mem_cons_self
      have named : nameOutput path middle = .ok ((), middle) := by
        rw [nameOutput, if_neg]
        · rfl
        · exact Nat.not_lt.mpr (fits (by rw [rows]; exact List.cons_ne_nil _ _))
      rw [if_neg (by rw [count, List.length_cons]; omega)]
      apply Ensures.bind_returns named
      apply Ensures.bind_returns (sound.holds.read_returns first rfl)
      apply Ensures.bind_returns rfl
      apply (writeRows_ensures sound timed (few.trans (by decide)) firstTimed.1
        firstTimed.2).imp
      intro _ after written
      rw [written, rewrittenText, ← List.append_assoc, ← same]

/-- A path which does not fit is written past the buffer. -/
theorem not_ensures_of_path {post : Unit → RewriteStore → Prop}
    (strings : ∀ buf ∈ fgetsAll (sizeofBuf - 1) log, ¬ BeginsWithNul buf)
    (few : (rowsIn log).length ≤ maxRows) (some : rowsIn log ≠ []) (long : ¬ PathFits path) :
    ¬ (outputRewrite path log).Ensures store post := by
  have room : ([] : List DataRow).length + (rowsIn log).length ≤ maxRows := by simpa using few
  apply (Loaded.readLines_ensures strings Loaded.initial_sound room).not_ensures_bind
  rintro loaded middle ⟨sound, _⟩
  have positive : loaded.dataVecPos ≠ 0 := by
    rw [sound.pos]
    exact (List.length_pos_iff.mpr some).ne'
  rw [if_neg positive]
  apply not_ensures_of_fails
  apply bind_of_fails
  rw [nameOutput, if_pos (Nat.lt_of_not_le long)]
  rfl

/-- A run which returns had room for all rows and for the path. -/
theorem rewritable_of_ensures {post : Unit → RewriteStore → Prop}
    (ensures : (outputRewrite path log).Ensures store post) : Rewritable path log := by
  have read := ensures.of_bind
  have strings : ∀ buf ∈ fgetsAll (sizeofBuf - 1) log, ¬ BeginsWithNul buf := by
    intro buf member begins
    exact Loaded.not_ensures_readLines Loaded.initial_sound (Nat.zero_le _)
      (.inl ⟨buf, member, begins⟩) read
  have few : (rowsIn log).length ≤ maxRows := by
    apply Nat.le_of_not_lt
    intro many
    have beyond : maxRows < ([] : List DataRow).length + (rowsIn log).length := by simpa using many
    exact Loaded.not_ensures_readLines Loaded.initial_sound (Nat.zero_le _) (.inr beyond) read
  refine ⟨strings, few, fun some => ?_⟩
  by_contra long
  exact not_ensures_of_path strings few some long ensures

/-- When the tool returns, and what it has appended then. -/
theorem outputRewrite_iff {text : List Char} :
    ((outputRewrite path log).Ensures store fun _ after =>
      after.adjusted = store.adjusted ++ text) ↔
      Rewritable path log ∧ text = rewrittenText (rowsIn log) := by
  constructor
  · intro appends
    have rewritable := rewritable_of_ensures appends
    obtain ⟨_, after, run, written⟩ : (outputRewrite path log).Ensures store _ :=
      outputRewrite_ensures rewritable
    obtain ⟨_, other, again, claimed⟩ := appends
    rw [run] at again
    cases again
    rw [written] at claimed
    exact ⟨rewritable, (List.append_cancel_left claimed).symm⟩
  · rintro ⟨rewritable, rfl⟩
    exact outputRewrite_ensures rewritable

end MotorStand
