import MotorStand.Rounding.Nearest
import MotorStand.Text.Decimal

/-!
# Doubles printed with a fixed number of digits

`%lf` rounds to six digits behind the point, `%.1f` to one, ties to even. What they print is
read back as the rounded number, and rounding once more changes nothing.
-/

namespace CText

open Rounding

/-- What `%lf` counts its last digit in: six digits stand behind the point. -/
def million : Nat := 10 ^ 6

/-- A minus sign or nothing. -/
def signText (negative : Bool) : List Char := if negative then ['-'] else []

/-- The units of the last of `places` digits behind the point. -/
def unitsAt (places : Nat) (magnitude : ℚ≥0) : Nat :=
  roundHalfEven (magnitude * (10 ^ places : Nat))

/-- A double with the given number of digits behind the point, and at least one. -/
def printPlaces (places : Nat) : Double → List Char
  | .finite negative magnitude =>
      let units := unitsAt places magnitude
      signText negative ++ (printNat (units / 10 ^ places) ++ '.' :: printPadded places units)
  | .infinite negative => signText negative ++ ['i', 'n', 'f']
  | .notANumber negative => signText negative ++ ['n', 'a', 'n']

/-- The number which is printed with the given number of digits. -/
def Double.roundedTo (places : Nat) : Double → Double
  | .finite negative magnitude =>
      .finite negative (unitsAt places magnitude / (10 ^ places : Nat))
  | .infinite negative => .infinite negative
  | .notANumber negative => .notANumber negative

/-- `%lf`. -/
def printDouble (value : Double) : List Char := printPlaces 6 value

/-- The number which `%lf` prints. -/
def Double.rounded (value : Double) : Double := value.roundedTo 6

/-- A unit is not zero. -/
theorem ten_pow_ne_zero (places : Nat) : ((10 ^ places : Nat) : ℚ≥0) ≠ 0 :=
  Nat.cast_ne_zero.mpr (Nat.pow_pos (by decide)).ne'

/-- Whole units are not rounded. -/
theorem unitsAt_div (places units : Nat) : unitsAt places (units / (10 ^ places : Nat)) = units := by
  rw [unitsAt, div_mul_cancel₀ _ (ten_pow_ne_zero places)]
  exact roundHalfEven_natCast units

/-- A sign changes nothing about the distance. -/
theorem number_near {negative : Bool} {rounded magnitude : ℚ≥0} {x bound : ℚ}
    (near : |(rounded : ℚ) - magnitude| ≤ bound)
    (number : (Double.finite negative magnitude).number = some x) :
    ∃ y, (Double.finite negative rounded).number = some y ∧ |y - x| ≤ bound := by
  cases negative with
  | false =>
      cases number
      exact ⟨_, rfl, near⟩
  | true =>
      cases number
      refine ⟨_, rfl, ?_⟩
      rw [neg_sub_neg, abs_sub_comm]
      exact near

/-- A printed number is off by half a unit of its last place at most. -/
theorem roundedTo_near (places : Nat) {value : Double} {x : ℚ} (number : value.number = some x) :
    ∃ y, (value.roundedTo places).number = some y ∧ |y - x| ≤ 1 / (2 * (10 ^ places : Nat)) := by
  cases value with
  | infinite | notANumber => cases number
  | finite negative magnitude =>
      have nonzero : 0 < 10 ^ places := Nat.pow_pos (by decide)
      exact number_near (roundHalfEven_scaled_near nonzero magnitude) number

/-- What `%lf` prints is off by half a millionth at most. -/
theorem rounded_near {value : Double} {x : ℚ} (number : value.number = some x) :
    ∃ y, value.rounded.number = some y ∧ |y - x| ≤ 1 / (2 * million) :=
  roundedTo_near 6 number

/-- Rounding once more changes nothing about the text. -/
theorem printPlaces_roundedTo (places : Nat) (value : Double) :
    printPlaces places (value.roundedTo places) = printPlaces places value := by
  cases value with
  | finite negative magnitude =>
      simp only [Double.roundedTo, printPlaces, unitsAt_div]
  | infinite negative => rfl
  | notANumber negative => rfl

/-- What `%lf` rounded is printed as before. -/
theorem printDouble_rounded (value : Double) : printDouble value.rounded = printDouble value :=
  printPlaces_roundedTo 6 value

/-- How long a printed number gets: a sign, the digits, the point and the places. -/
theorem printPlaces_length_le (places : Nat) (negative : Bool) {magnitude : ℚ≥0} {count : Nat}
    (below : magnitude < 10 ^ count) :
    (printPlaces places (.finite negative magnitude)).length ≤ count + places + 3 := by
  have sign : (signText negative).length ≤ 1 := by cases negative <;> decide
  have scaled : magnitude * (10 ^ places : Nat) < ((10 ^ count * 10 ^ places : Nat) : ℚ≥0) := by
    have positive : (0 : ℚ≥0) < 10 ^ places := by positivity
    push_cast
    exact mul_lt_mul_of_pos_right below positive
  have whole : unitsAt places magnitude / 10 ^ places ≤ 10 ^ count :=
    Nat.div_le_of_le_mul ((roundHalfEven_le scaled).trans (Nat.mul_comm _ _).le)
  have more : (10 : Nat) ^ count < 10 ^ (count + 1) := Nat.pow_lt_pow_right (by decide) (by omega)
  have digits := printNat_length_le_of_lt (Nat.succ_pos count) (whole.trans_lt more)
  rw [printPlaces, List.length_append, List.length_append, List.length_cons, printPadded_length]
  omega

/-- What is printed, as a spelled number. -/
def placesDecimal (places : Nat) (negative : Bool) (units : Nat) : Decimal where
  sign := if negative then .minus else .none
  whole := printNat (units / 10 ^ places)
  fraction := some (printPadded places units)
  exponent := none
  wholeDigits := fun _ member => isDigit_printNat member
  fractionDigits := fun _ member => isDigit_printPadded member
  nonempty := fun none => printNat_ne_nil _ (List.append_eq_nil_iff.mp none).1

/-- The spelled number is the printed text. -/
theorem placesDecimal_text (places : Nat) (negative : Bool) (magnitude : ℚ≥0) :
    (placesDecimal places negative (unitsAt places magnitude)).text =
      printPlaces places (.finite negative magnitude) := by
  have sign (units : Nat) :
      (placesDecimal places negative units).sign.text = signText negative := by
    cases negative <;> rfl
  rw [Decimal.text, sign, Decimal.unsignedText, printPlaces]
  simp only [placesDecimal, Decimal.pointText, Decimal.exponentText, List.append_nil]

/-- The spelled number has the printed value. -/
theorem placesDecimal_value (places : Nat) (negative : Bool) (units : Nat) :
    (placesDecimal places negative units).value =
      .finite negative (units / (10 ^ places : Nat)) := by
  have digits :
      numeral 10 (printNat (units / 10 ^ places) ++ printPadded places units) = units := by
    rw [numeral_append, numeral_printNat, numeral_printPadded, printPadded_length]
    exact Nat.div_add_mod units (10 ^ places)
  have sign : (placesDecimal places negative units).sign.negative = negative := by
    cases negative <;> rfl
  have magnitude : (placesDecimal places negative units).magnitude =
      units / (10 ^ places : Nat) := by
    simp only [Decimal.magnitude, placesDecimal, Option.getD_some, Decimal.exponentValue, digits,
      printPadded_length]
    rw [div_eq_mul_inv, Nat.cast_pow]
    simp
  rw [Decimal.value, sign, magnitude]

/-- White space ends a number. -/
theorem EndsField.stops_goesOn {rest : List Char} (ends : EndsField rest) : Stops goesOn rest := by
  intro c member
  have space : isSpace c = true := by simpa using ends c member
  have digit := stops_digits_of_endsField 10 (by decide) ends c member
  have small := toNat_of_isSpace space
  rw [goesOn, digit, toLower_of_lt (by omega), Bool.false_or, Bool.or_eq_false_iff,
    Bool.or_eq_false_iff]
  exact ⟨⟨decide_eq_false (isSpace_ne space (by decide)),
    decide_eq_false (isSpace_ne space (by decide))⟩,
    decide_eq_false (isSpace_ne space (by decide))⟩

variable {rest spaces : List Char}

/-- A printed number is read back as it was rounded. -/
theorem strtod_printPlaces (places : Nat) (negative : Bool) (magnitude : ℚ≥0)
    (blank : ∀ c ∈ spaces, isSpace c = true) (ends : Stops goesOn rest) :
    strtod (spaces ++ (printPlaces places (.finite negative magnitude) ++ rest)) =
      (Double.roundedTo places (.finite negative magnitude), rest) := by
  rw [← placesDecimal_text, strtod_text _ blank ends, placesDecimal_value]
  rfl

/-- What `%lf` prints of a finite double, `strtod` reads. -/
theorem strtod_printDouble (negative : Bool) (magnitude : ℚ≥0)
    (blank : ∀ c ∈ spaces, isSpace c = true) (ends : Stops goesOn rest) :
    strtod (spaces ++ (printDouble (.finite negative magnitude) ++ rest)) =
      (Double.rounded (.finite negative magnitude), rest) :=
  strtod_printPlaces 6 negative magnitude blank ends

/-- A printed number tells the number, up to half a unit of its last place. -/
theorem exists_shown (places : Nat) (negative : Bool) (magnitude : ℚ≥0) {x : ℚ}
    (number : (Double.finite negative magnitude).number = some x) (ends : Stops goesOn rest) :
    ∃ shown y, strtod (printPlaces places (.finite negative magnitude) ++ rest) = (shown, rest) ∧
      shown.number = some y ∧ |y - x| ≤ 1 / (2 * (10 ^ places : Nat)) := by
  obtain ⟨y, shown, close⟩ := roundedTo_near places number
  have none : ∀ c ∈ ([] : List Char), isSpace c = true := fun _ member => nomatch member
  have read := strtod_printPlaces places negative magnitude none ends
  rw [List.nil_append] at read
  exact ⟨_, y, read, shown, close⟩

end CText
