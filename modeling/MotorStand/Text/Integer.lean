import MotorStand.Text.Digits

/-!
# Integers in a text

`strtol` in base 0 takes the base from the prefix of the number. What `%ld`
prints is read back in base 10, because only zero begins with a zero.
-/

namespace CText

/-- `LONG_MAX` of a 64-bit `long`. -/
def longMax : Int := 2 ^ 63 - 1

/-- `LONG_MIN`. -/
def longMin : Int := -2 ^ 63

/-- An optional sign. -/
def scanSign : List Char → Bool × List Char
  | '-' :: rest => (true, rest)
  | '+' :: rest => (false, rest)
  | text => (false, text)

/-- The base which a number announces, and the text of its digits. -/
def scanBase : List Char → Nat × List Char
  | '0' :: x :: digit :: rest =>
      if (x = 'x' || x = 'X') && isDigitIn 16 digit then (16, digit :: rest)
      else (8, '0' :: x :: digit :: rest)
  | '0' :: rest => (8, '0' :: rest)
  | text => (10, text)

/-- The value of a sign and a magnitude, confined to a `long`. -/
def clampLong (negative : Bool) (magnitude : Nat) : Int :=
  if negative then max longMin (-magnitude) else min longMax magnitude

/-- `strtol(text, &end, 0)`: the value and the text at `end`. -/
def strtol (text : List Char) : Int × List Char :=
  let (negative, unsigned) := scanSign (text.dropWhile isSpace)
  let (base, body) := scanBase unsigned
  if body.takeWhile (isDigitIn base) = [] then (0, text)
  else
    (clampLong negative (numeral base (body.takeWhile (isDigitIn base))),
      body.dropWhile (isDigitIn base))

/-- `%ld`. -/
def printLong (value : Int) : List Char :=
  if value < 0 then '-' :: printNat value.natAbs else printNat value.natAbs

/-- The text ends, or goes on with white space. -/
def EndsField (text : List Char) : Prop := Stops (fun c => !isSpace c) text

variable {text rest spaces : List Char}

/-- In front of a digit there is no sign. -/
theorem scanSign_of_isDigit {c : Char} (digit : c.isDigit = true) :
    scanSign (c :: rest) = (false, c :: rest) := by
  unfold scanSign
  split
  next head => exact absurd digit (by rw [(List.cons.inj head).1]; decide)
  next head => exact absurd digit (by rw [(List.cons.inj head).1]; decide)
  next => rfl

/-- White space is not ink. -/
theorem isSpace_ne {c other : Char} (space : isSpace c = true) (ink : isSpace other = false) :
    c ≠ other := by
  rintro rfl
  rw [space] at ink
  cases ink

/-- White space is no digit of any base. -/
theorem stops_digits_of_endsField (base : Nat) (small : base ≤ 36) (ends : EndsField rest) :
    Stops (isDigitIn base) rest := by
  intro c member
  have space : isSpace c = true := by simpa using ends c member
  have digit : c.isDigit = false := by
    rw [← Bool.not_eq_true]
    intro digit
    rw [not_isSpace_of_isDigit digit] at space
    cases space
  have bounds := toNat_of_isSpace space
  have value : c.val.toNat = c.toNat := Char.toNat_val
  have lower : c.isLower = false := by
    rw [← Bool.not_eq_true]
    intro lower
    have lowest := of_decide_eq_true (Bool.and_eq_true_iff.mp lower).1
    rw [ge_iff_le, UInt32.le_iff_toNat_le, value] at lowest
    exact absurd (lowest.trans bounds) (by decide)
  have upper : c.isUpper = false := by
    rw [← Bool.not_eq_true]
    intro upper
    have lowest := (of_decide_eq_true upper).1
    rw [ge_iff_le, UInt32.le_iff_toNat_le, value] at lowest
    exact absurd (lowest.trans bounds) (by decide)
  simp only [isDigitIn, digitValue, digit, lower, upper, Bool.false_eq_true, if_false]
  exact decide_eq_false (by omega)

/-- A printed number is scanned up to the end of its field, in the base it was printed in. -/
theorem scanBase_printNat (value : Nat) (ends : EndsField rest) :
    ∃ base body, scanBase (printNat value ++ rest) = (base, body) ∧
      body.takeWhile (isDigitIn base) = printNat value ∧
      body.dropWhile (isDigitIn base) = rest ∧ numeral base (printNat value) = value := by
  rcases Nat.eq_zero_or_pos value with rfl | positive
  · -- a single zero is octal
    have printed : printNat 0 = ['0'] := Nat.toDigits_zero 10
    have run : ∀ c ∈ ['0'], isDigitIn 8 c = true := by
      intro c member
      rw [List.mem_singleton.mp member]
      decide
    have stops := stops_digits_of_endsField 8 (by decide) ends
    have octal : scanBase ('0' :: rest) = (8, '0' :: rest) := by
      cases rest with
      | nil => rfl
      | cons x tail =>
          have space : isSpace x = true := by simpa using ends x rfl
          have lower : x ≠ 'x' := isSpace_ne space (by decide)
          have upper : x ≠ 'X' := isSpace_ne space (by decide)
          cases tail with
          | nil => rfl
          | cons digit tail => simp [scanBase, lower, upper]
    refine ⟨8, '0' :: rest, ?_, ?_, ?_, ?_⟩
    · rw [printed]
      exact octal
    · rw [printed]
      exact takeWhile_run run stops
    · exact dropWhile_run run stops
    · rw [printed]
      rfl
  · obtain ⟨c, tail, printed, nonzero⟩ := printNat_head positive
    have run : ∀ c ∈ printNat value, isDigitIn 10 c = true :=
      fun c member => isDigitIn_of_isDigit (isDigit_printNat member)
    have stops := stops_digits_of_endsField 10 (by decide) ends
    refine ⟨10, printNat value ++ rest, ?_, takeWhile_run run stops, dropWhile_run run stops,
      numeral_printNat value⟩
    rw [printed, List.cons_append]
    unfold scanBase
    split
    next head => exact absurd (List.cons.inj head).1 nonzero
    next head => exact absurd (List.cons.inj head).1 nonzero
    next => rfl

/-- The sign of a printed `long`. -/
theorem scanSign_printLong (value : Int) (rest : List Char) :
    ∃ negative, scanSign (printLong value ++ rest) = (negative, printNat value.natAbs ++ rest) ∧
      (value = if negative then -(value.natAbs : Int) else value.natAbs) := by
  rw [printLong]
  split
  next below =>
      refine ⟨true, rfl, ?_⟩
      rw [if_pos rfl]
      omega
  next nonneg =>
      refine ⟨false, ?_, ?_⟩
      · obtain ⟨c, tail, printed, digit⟩ := printNat_cons value.natAbs
        rw [printed]
        exact scanSign_of_isDigit digit
      · rw [if_neg (by decide)]
        omega

/-- A printed `long` does not begin with white space. -/
theorem not_isSpace_printLong (value : Int) (rest : List Char) :
    Stops isSpace (printLong value ++ rest) := by
  rw [printLong]
  split
  next => exact stops_cons (by decide)
  next =>
      obtain ⟨c, tail, printed, digit⟩ := printNat_cons value.natAbs
      rw [printed]
      exact stops_cons (not_isSpace_of_isDigit digit)

/-- A smaller magnitude needs no more digits, but maybe a sign. -/
theorem printLong_length_le {small large : Int} (below : small.natAbs ≤ large.natAbs) :
    (printLong small).length ≤ (printLong large).length + 1 := by
  have digits := printNat_length_le below
  have signed : (printLong small).length ≤ (printNat small.natAbs).length + 1 := by
    rw [printLong]
    split
    · exact Nat.le_refl _
    · exact Nat.le_succ _
  have unsigned : (printNat large.natAbs).length ≤ (printLong large).length := by
    rw [printLong]
    split
    · exact Nat.le_succ _
    · exact Nat.le_refl _
  omega

/-- A larger time has no fewer digits. -/
theorem printLong_length_le_of_nonneg {small large : Int} (nonneg : 0 ≤ small)
    (below : small ≤ large) : (printLong small).length ≤ (printLong large).length := by
  have magnitude : small.natAbs ≤ large.natAbs := by omega
  rw [printLong, printLong, if_neg (not_lt.mpr nonneg),
    if_neg (not_lt.mpr (nonneg.trans below))]
  exact printNat_length_le magnitude

/-- What `%ld` prints, `strtol` reads, whatever the base it has to find. -/
theorem strtol_printLong {value : Int} (above : longMin ≤ value) (below : value ≤ longMax)
    (blank : ∀ c ∈ spaces, isSpace c = true) (ends : EndsField rest) :
    strtol (spaces ++ (printLong value ++ rest)) = (value, rest) := by
  obtain ⟨negative, signed, same⟩ := scanSign_printLong value rest
  obtain ⟨base, body, based, digits, after, number⟩ := scanBase_printNat value.natAbs ends
  have skipped := dropWhile_run blank (not_isSpace_printLong value rest)
  have clamped : clampLong negative value.natAbs = value := by
    simp only [longMin, longMax] at above below
    rw [clampLong]
    split
    next sign =>
        rw [if_pos sign] at same
        simp only [longMin]
        omega
    next sign =>
        rw [if_neg sign] at same
        simp only [longMax]
        omega
  simp only [strtol, skipped, signed, based, digits, after, number, clamped]
  exact if_neg (printNat_ne_nil _)

/-- A text which begins with a digit is no negative number. -/
theorem strtol_of_isDigit {c : Char} (digit : c.isDigit = true) (rest : List Char) :
    0 ≤ (strtol (c :: rest)).1 ∧ (strtol (c :: rest)).1 ≤ longMax := by
  have start : (c :: rest).dropWhile isSpace = c :: rest := by
    rw [List.dropWhile_cons, not_isSpace_of_isDigit digit]
    rfl
  have largest : (0 : Int) ≤ longMax := by decide
  simp only [strtol, start, scanSign_of_isDigit digit]
  split
  · exact ⟨Int.le_refl 0, largest⟩
  · simp only [clampLong, Bool.false_eq_true, if_false]
    omega

end CText
