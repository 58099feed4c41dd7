import Mathlib.Algebra.Order.Field.Rat
import Mathlib.Data.NNRat.Lemmas
import MotorStand.Text.Integer

/-!
# Decimal numbers in a text

Doubles are exact: a sign and a magnitude, an infinity, or no number. `strtod`
reads the longest beginning of a text which spells one, in any of the forms of C.
-/

namespace CText

/-- A double in exact arithmetic. Zero has a sign, too. -/
inductive Double where
  | finite (negative : Bool) (magnitude : ℚ≥0)
  | infinite (negative : Bool)
  | notANumber (negative : Bool)
deriving DecidableEq

/-- The number of a double, for which the two zeros are one. -/
def Double.number : Double → Option ℚ
  | .finite false magnitude => some magnitude
  | .finite true magnitude => some (-magnitude)
  | .infinite _ | .notANumber _ => none

/-- A number whose sign has been taken off. -/
inductive Magnitude where
  | finite (value : ℚ≥0)
  | infinite
  | notANumber
deriving DecidableEq

/-- The double with this sign. -/
def Magnitude.signed (negative : Bool) : Magnitude → Double
  | .finite value => .finite negative value
  | .infinite => .infinite negative
  | .notANumber => .notANumber negative

/-! ## `strtod` -/

/-- What follows `word`, which is given in lower case, if the text begins with it. -/
def dropWord : List Char → List Char → Option (List Char)
  | [], text => some text
  | _ :: _, [] => none
  | w :: word, c :: text => if c.toLower = w then dropWord word text else none

/-- `INF` or `INFINITY`. -/
def scanInfinity (text : List Char) : Option (Magnitude × List Char) :=
  (dropWord ['i', 'n', 'f', 'i', 'n', 'i', 't', 'y'] text <|> dropWord ['i', 'n', 'f'] text).map
    fun rest => (.infinite, rest)

/-- The characters in parentheses behind `NAN`, if they are closed. -/
def dropPayload : List Char → List Char
  | '(' :: text =>
      match text.dropWhile fun c => c.isAlphanum || c = '_' with
      | ')' :: rest => rest
      | _ => '(' :: text
  | text => text

/-- `NAN` or `NAN(...)`. -/
def scanNan (text : List Char) : Option (Magnitude × List Char) :=
  (dropWord ['n', 'a', 'n'] text).map fun rest => (.notANumber, dropPayload rest)

/-- Digits with a point before, between or behind them: the number they spell without
the point, and how many of them are behind it. -/
def scanMantissa (base : Nat) (text : List Char) : Option (Nat × Nat × List Char) :=
  let whole := text.takeWhile (isDigitIn base)
  match text.dropWhile (isDigitIn base) with
  | '.' :: rest =>
      let fraction := rest.takeWhile (isDigitIn base)
      if whole ++ fraction = [] then none
      else some (numeral base (whole ++ fraction), fraction.length,
        rest.dropWhile (isDigitIn base))
  | rest => if whole = [] then none else some (numeral base whole, 0, rest)

/-- An exponent behind `marker`, which is given in lower case; 0 if there is none. -/
def scanExponent (marker : Char) : List Char → Int × List Char
  | [] => (0, [])
  | c :: text =>
      if c.toLower = marker then
        let (negative, body) := scanSign text
        let digits := body.takeWhile (isDigitIn 10)
        if digits = [] then (0, c :: text)
        else (if negative then -(numeral 10 digits : Int) else numeral 10 digits,
          body.dropWhile (isDigitIn 10))
      else (0, c :: text)

/-- Decimal digits and an exponent of ten. -/
def scanDecimal (text : List Char) : Option (Magnitude × List Char) :=
  (scanMantissa 10 text).map fun (number, places, rest) =>
    let (exponent, rest) := scanExponent 'e' rest
    (.finite (number * 10 ^ (exponent - places)), rest)

/-- Hexadecimal digits behind `0x` and an exponent of two. -/
def scanHexadecimal : List Char → Option (Magnitude × List Char)
  | '0' :: x :: text =>
      if x.toLower = 'x' then
        (scanMantissa 16 text).map fun (number, places, rest) =>
          let (exponent, rest) := scanExponent 'p' rest
          (.finite (number * 2 ^ (exponent - 4 * places)), rest)
      else none
  | _ => none

/-- What can stand behind the sign. -/
def scanMagnitude (text : List Char) : Option (Magnitude × List Char) :=
  scanInfinity text <|> scanNan text <|> scanHexadecimal text <|> scanDecimal text

/-- `strtod(text, &end)`: the value and the text at `end`. -/
def strtod (text : List Char) : Double × List Char :=
  let (negative, unsigned) := scanSign (text.dropWhile isSpace)
  match scanMagnitude unsigned with
  | some (magnitude, rest) => (magnitude.signed negative, rest)
  | none => (.finite false 0, text)

/-! ## Spelled numbers -/

/-- A sign as it is written. -/
inductive Sign where
  | none
  | plus
  | minus
deriving DecidableEq

/-- Its character, if there is one. -/
def Sign.text : Sign → List Char
  | .none => []
  | .plus => ['+']
  | .minus => ['-']

/-- Whether it is a minus. -/
def Sign.negative : Sign → Bool
  | .none | .plus => false
  | .minus => true

/-- The exponent of a spelled number. -/
structure Exponent where
  upperCase : Bool
  sign : Sign
  digits : List Char
  allDigits : ∀ c ∈ digits, c.isDigit = true
  nonempty : digits ≠ []

/-- The exponent as it is written. -/
def Exponent.text (exponent : Exponent) : List Char :=
  (if exponent.upperCase then 'E' else 'e') :: (exponent.sign.text ++ exponent.digits)

/-- The exponent with its sign. -/
def Exponent.value (exponent : Exponent) : Int :=
  if exponent.sign.negative then -(numeral 10 exponent.digits : Int)
  else numeral 10 exponent.digits

/-- A decimal number as it is written: with or without a sign, a point and an exponent. -/
structure Decimal where
  sign : Sign
  whole : List Char
  fraction : Option (List Char)
  exponent : Option Exponent
  wholeDigits : ∀ c ∈ whole, c.isDigit = true
  fractionDigits : ∀ c ∈ fraction.getD [], c.isDigit = true
  nonempty : whole ++ fraction.getD [] ≠ []

namespace Decimal

/-- The point and the digits behind it. -/
def pointText : Option (List Char) → List Char
  | none => []
  | some digits => '.' :: digits

/-- The exponent, if there is one. -/
def exponentText : Option Exponent → List Char
  | none => []
  | some exponent => exponent.text

/-- The number as it is written behind its sign. -/
def unsignedText (decimal : Decimal) : List Char :=
  decimal.whole ++ (pointText decimal.fraction ++ exponentText decimal.exponent)

/-- The number as it is written. -/
def text (decimal : Decimal) : List Char := decimal.sign.text ++ decimal.unsignedText

/-- Without an exponent it is zero. -/
def exponentValue : Option Exponent → Int
  | none => 0
  | some exponent => exponent.value

/-- The magnitude of the number. -/
def magnitude (decimal : Decimal) : ℚ≥0 :=
  numeral 10 (decimal.whole ++ decimal.fraction.getD []) *
    10 ^ (exponentValue decimal.exponent - (decimal.fraction.getD []).length)

/-- The double which is written. -/
def value (decimal : Decimal) : Double := .finite decimal.sign.negative decimal.magnitude

end Decimal

/-- The character would go on with a decimal number. -/
def goesOn (c : Char) : Bool :=
  isDigitIn 10 c || c = '.' || c.toLower = 'e' || c.toLower = 'x'

variable {text rest spaces : List Char} {c : Char}

/-! ## The scan of a spelled number -/

/-- Characters in front of the letters have no other case. -/
theorem toLower_of_lt (small : c.toNat < 65) : c.toLower = c := by
  apply dif_neg
  rintro ⟨above, _⟩
  rw [ge_iff_le, UInt32.le_iff_toNat_le] at above
  have value : c.val.toNat = c.toNat := Char.toNat_val
  have upper : 'A'.val.toNat = 65 := rfl
  omega

/-- What does not go on with a number is no digit. -/
theorem not_goesOn_digit (ends : Stops goesOn rest) : Stops (isDigitIn 10) rest := by
  intro c member
  have other := ends c member
  simp only [goesOn, Bool.or_eq_false_iff] at other
  exact other.1.1.1

/-- Nor is it a point or a marker. -/
theorem not_goesOn_ne (ends : Stops goesOn rest) (member : c ∈ rest.head?) :
    c ≠ '.' ∧ c.toLower ≠ 'e' ∧ c.toLower ≠ 'x' := by
  have other := ends c member
  simp only [goesOn, Bool.or_eq_false_iff, decide_eq_false_iff_not] at other
  exact ⟨other.1.1.2, other.1.2, other.2⟩

/-- Decimal digits are digits in the base ten. -/
theorem isDigitIn_run {digits : List Char} (all : ∀ c ∈ digits, c.isDigit = true) :
    ∀ c ∈ digits, isDigitIn 10 c = true :=
  fun c member => isDigitIn_of_isDigit (all c member)

/-- A written sign is scanned. -/
theorem scanSign_text (sign : Sign) {digits : List Char} (all : ∀ c ∈ digits, c.isDigit = true)
    (nonempty : digits ≠ []) (rest : List Char) :
    scanSign (sign.text ++ (digits ++ rest)) = (sign.negative, digits ++ rest) := by
  cases sign with
  | none =>
      cases digits with
      | nil => exact absurd rfl nonempty
      | cons c digits => exact scanSign_of_isDigit (all c List.mem_cons_self)
  | plus => rfl
  | minus => rfl

/-- A written exponent is scanned. -/
theorem scanExponent_text (exponent : Option Exponent) (ends : Stops goesOn rest) :
    scanExponent 'e' (Decimal.exponentText exponent ++ rest) =
      (Decimal.exponentValue exponent, rest) := by
  cases exponent with
  | none =>
      cases rest with
      | nil => rfl
      | cons c rest =>
          have marker := (not_goesOn_ne ends rfl).2.1
          simp [Decimal.exponentText, Decimal.exponentValue, scanExponent, marker]
  | some exponent =>
      obtain ⟨upperCase, sign, digits, all, nonempty⟩ := exponent
      have marker : (if upperCase then 'E' else 'e').toLower = 'e' := by
        cases upperCase <;> decide
      have signed := scanSign_text sign all nonempty rest
      have taken := takeWhile_run (isDigitIn_run all) (not_goesOn_digit ends)
      have dropped := dropWhile_run (isDigitIn_run all) (not_goesOn_digit ends)
      rw [Decimal.exponentText, Exponent.text, List.cons_append, List.append_assoc, scanExponent,
        if_pos marker, signed]
      simp only [taken, dropped, if_neg nonempty]
      rfl

/-- Behind the digits of a number there is no further digit and no point. -/
theorem stops_exponentText (exponent : Option Exponent) (ends : Stops goesOn rest) :
    ∀ c ∈ (Decimal.exponentText exponent ++ rest).head?, isDigitIn 10 c = false ∧ c ≠ '.' := by
  cases exponent with
  | none => exact fun c member => ⟨not_goesOn_digit ends c member, (not_goesOn_ne ends member).1⟩
  | some exponent =>
      intro c member
      obtain rfl := Option.some.inj member
      cases exponent.upperCase <;> decide

/-- The written digits are scanned. -/
theorem scanMantissa_text (decimal : Decimal) (ends : Stops goesOn rest) :
    scanMantissa 10 (decimal.unsignedText ++ rest) =
      some (numeral 10 (decimal.whole ++ decimal.fraction.getD []),
        (decimal.fraction.getD []).length, Decimal.exponentText decimal.exponent ++ rest) := by
  obtain ⟨sign, whole, fraction, exponent, wholeDigits, fractionDigits, nonempty⟩ := decimal
  have behind := stops_exponentText exponent ends
  have ended : Stops (isDigitIn 10) (Decimal.exponentText exponent ++ rest) :=
    fun c member => (behind c member).1
  simp only [Decimal.unsignedText, List.append_assoc]
  cases fraction with
  | none =>
      have taken := takeWhile_run (isDigitIn_run wholeDigits) ended
      have dropped := dropWhile_run (isDigitIn_run wholeDigits) ended
      rw [Option.getD_none, List.append_nil] at nonempty
      rw [Decimal.pointText, List.nil_append, scanMantissa, taken, dropped]
      cases tail : Decimal.exponentText exponent ++ rest with
      | nil => simp [nonempty]
      | cons c tail =>
          have point : c ≠ '.' := (behind c (by rw [tail]; rfl)).2
          simp [nonempty, point]
  | some fraction =>
      have point (tail : List Char) : Stops (isDigitIn 10) ('.' :: tail) :=
        stops_cons (by decide)
      have taken := takeWhile_run (isDigitIn_run wholeDigits)
        (point (fraction ++ (Decimal.exponentText exponent ++ rest)))
      have dropped := dropWhile_run (isDigitIn_run wholeDigits)
        (point (fraction ++ (Decimal.exponentText exponent ++ rest)))
      have takenFraction := takeWhile_run (isDigitIn_run fractionDigits) ended
      have droppedFraction := dropWhile_run (isDigitIn_run fractionDigits) ended
      rw [Option.getD_some] at nonempty takenFraction droppedFraction
      rw [Decimal.pointText, List.cons_append, scanMantissa, taken, dropped]
      simp only [takenFraction, droppedFraction, if_neg nonempty, Option.getD_some]

/-- An unsigned number is scanned. -/
theorem scanDecimal_text (decimal : Decimal) (ends : Stops goesOn rest) :
    scanDecimal (decimal.unsignedText ++ rest) = some (.finite decimal.magnitude, rest) := by
  rw [scanDecimal, scanMantissa_text decimal ends, Option.map_some]
  simp only [scanExponent_text decimal.exponent ends]
  rfl

/-- A spelled number begins with a digit or the point. -/
theorem unsignedText_head (decimal : Decimal) :
    ∃ c tail, decimal.unsignedText = c :: tail ∧ (c.isDigit = true ∨ c = '.') := by
  obtain ⟨sign, whole, fraction, exponent, wholeDigits, fractionDigits, nonempty⟩ := decimal
  cases whole with
  | cons c whole => exact ⟨c, _, rfl, .inl (wholeDigits c List.mem_cons_self)⟩
  | nil =>
      cases fraction with
      | none => exact absurd rfl nonempty
      | some fraction => exact ⟨'.', _, rfl, .inr rfl⟩

/-- A digit is not the marker of a hexadecimal number. -/
theorem toLower_of_isDigit (digit : c.isDigit = true) : c.toLower ≠ 'x' := by
  have bounds := toNat_of_isDigit digit
  rw [toLower_of_lt (by omega)]
  rintro rfl
  exact absurd bounds.2 (by decide)

/-- Nor is a sign. -/
theorem toLower_signText {sign : Sign} (member : c ∈ sign.text) : c.toLower ≠ 'x' := by
  cases sign with
  | none => cases member
  | plus =>
      rw [List.mem_singleton.mp member]
      decide
  | minus =>
      rw [List.mem_singleton.mp member]
      decide

/-- Nor is any character of an exponent. -/
theorem toLower_exponentText {exponent : Exponent} (member : c ∈ exponent.text) :
    c.toLower ≠ 'x' := by
  rcases List.mem_cons.mp member with rfl | signed
  · cases exponent.upperCase <;> decide
  · rcases List.mem_append.mp signed with sign | digit
    · exact toLower_signText sign
    · exact toLower_of_isDigit (exponent.allDigits c digit)

/-- No character of a spelled number is the marker of a hexadecimal one. -/
theorem toLower_unsignedText (decimal : Decimal) (member : c ∈ decimal.unsignedText) :
    c.toLower ≠ 'x' := by
  obtain ⟨sign, whole, fraction, exponent, wholeDigits, fractionDigits, nonempty⟩ := decimal
  rcases List.mem_append.mp member with inWhole | behind
  · exact toLower_of_isDigit (wholeDigits c inWhole)
  · rcases List.mem_append.mp behind with inFraction | inExponent
    · cases fraction with
      | none => cases inFraction
      | some fraction =>
          rcases List.mem_cons.mp inFraction with rfl | digit
          · decide
          · exact toLower_of_isDigit (fractionDigits c digit)
    · cases exponent with
      | none => cases inExponent
      | some exponent => exact toLower_exponentText inExponent

/-- The characters numbers are written with. -/
def numberCharacters : List Char := ['+', '-', '.', 'e', 'E']

/-- A sign is one of these characters. -/
theorem mem_numberCharacters {sign : Sign} (member : c ∈ sign.text) : c ∈ numberCharacters := by
  cases sign with
  | none => cases member
  | plus | minus =>
      rw [List.mem_singleton.mp member]
      decide

/-- A number is written with digits and these characters. -/
theorem mem_text {decimal : Decimal} (member : c ∈ decimal.text) :
    c.isDigit = true ∨ c ∈ numberCharacters := by
  obtain ⟨sign, whole, fraction, exponent, wholeDigits, fractionDigits, nonempty⟩ := decimal
  rcases List.mem_append.mp member with inSign | behind
  · exact .inr (mem_numberCharacters inSign)
  rcases List.mem_append.mp behind with inWhole | behind
  · exact .inl (wholeDigits c inWhole)
  rcases List.mem_append.mp behind with inFraction | inExponent
  · cases fraction with
    | none => cases inFraction
    | some fraction =>
        rcases List.mem_cons.mp inFraction with rfl | digit
        · exact .inr (by decide)
        · exact .inl (fractionDigits c digit)
  · cases exponent with
    | none => cases inExponent
    | some exponent =>
        rcases List.mem_cons.mp inExponent with rfl | signed
        · cases exponent.upperCase <;> exact .inr (by decide)
        rcases List.mem_append.mp signed with inSign | digit
        · exact .inr (mem_numberCharacters inSign)
        · exact .inl (exponent.allDigits c digit)

/-- None of them is a blank, a line break or the NUL. -/
theorem toNat_of_mem_text {decimal : Decimal} (member : c ∈ decimal.text) : 33 ≤ c.toNat := by
  rcases mem_text member with digit | other
  · exact (by decide : 33 ≤ 48).trans (toNat_of_isDigit digit).1
  · have printable : numberCharacters.all (33 ≤ ·.toNat) = true := by decide
    exact of_decide_eq_true (List.all_eq_true.mp printable c other)

/-- A decimal number is no hexadecimal one. -/
theorem scanHexadecimal_text (decimal : Decimal) (ends : Stops goesOn rest) :
    scanHexadecimal (decimal.unsignedText ++ rest) = none := by
  unfold scanHexadecimal
  split
  next x tail whole =>
      rw [if_neg]
      obtain ⟨c, others, written, _⟩ := unsignedText_head decimal
      rw [written, List.cons_append] at whole
      have behind := (List.cons.inj whole).2
      cases others with
      | nil => exact (not_goesOn_ne ends (by rw [show rest = x :: tail from behind]; rfl)).2.2
      | cons second others =>
          obtain ⟨rfl, _⟩ := List.cons.inj behind
          apply toLower_unsignedText decimal
          rw [written]
          exact List.mem_cons_of_mem _ List.mem_cons_self
  next => rfl

/-- No word begins with a digit or a point. -/
theorem dropWord_text (decimal : Decimal) {w : Char} (letter : 65 ≤ w.toNat) (word : List Char) :
    dropWord (w :: word) (decimal.unsignedText ++ rest) = none := by
  obtain ⟨c, tail, written, start⟩ := unsignedText_head decimal
  have small : c.toNat < 65 := by
    rcases start with digit | rfl
    · have bounds := toNat_of_isDigit digit
      omega
    · decide
  rw [written, List.cons_append, dropWord, if_neg]
  rw [toLower_of_lt small]
  rintro rfl
  omega

/-- Of the scans, the decimal one succeeds. -/
theorem scanMagnitude_text (decimal : Decimal) (ends : Stops goesOn rest) :
    scanMagnitude (decimal.unsignedText ++ rest) = some (.finite decimal.magnitude, rest) := by
  have infinity : scanInfinity (decimal.unsignedText ++ rest) = none := by
    rw [scanInfinity, dropWord_text decimal (by decide), dropWord_text decimal (by decide)]
    rfl
  have nan : scanNan (decimal.unsignedText ++ rest) = none := by
    rw [scanNan, dropWord_text decimal (by decide)]
    rfl
  rw [scanMagnitude, infinity, nan, scanHexadecimal_text decimal ends,
    scanDecimal_text decimal ends]
  rfl

/-- The sign of a number is scanned first. -/
theorem scanSign_decimal (decimal : Decimal) (rest : List Char) :
    scanSign (decimal.text ++ rest) = (decimal.sign.negative, decimal.unsignedText ++ rest) := by
  rw [Decimal.text, List.append_assoc]
  cases decimal.sign with
  | none =>
      obtain ⟨c, tail, written, start⟩ := unsignedText_head decimal
      rw [written]
      rcases start with digit | rfl
      · exact scanSign_of_isDigit digit
      · rfl
  | plus => rfl
  | minus => rfl

/-- A number does not begin with white space. -/
theorem stops_decimal (decimal : Decimal) (rest : List Char) :
    Stops isSpace (decimal.text ++ rest) := by
  rw [Decimal.text, List.append_assoc]
  cases decimal.sign with
  | none =>
      obtain ⟨c, tail, written, start⟩ := unsignedText_head decimal
      rw [written]
      rcases start with digit | rfl
      · exact stops_cons (not_isSpace_of_isDigit digit)
      · exact stops_cons (by decide)
  | plus => exact stops_cons (by decide)
  | minus => exact stops_cons (by decide)

/-- A spelled number is read as written, up to a character which does not go on with it. -/
theorem strtod_text (decimal : Decimal) (blank : ∀ c ∈ spaces, isSpace c = true)
    (ends : Stops goesOn rest) :
    strtod (spaces ++ (decimal.text ++ rest)) = (decimal.value, rest) := by
  have skipped := dropWhile_run blank (stops_decimal decimal rest)
  simp only [strtod, skipped, scanSign_decimal, scanMagnitude_text decimal ends]
  rfl

/-- The same without white space in front. -/
theorem strtod_spelled (decimal : Decimal) (ends : Stops goesOn rest) :
    strtod (decimal.text ++ rest) = (decimal.value, rest) := by
  have blank : ∀ c ∈ ([] : List Char), isSpace c = true := fun _ member => nomatch member
  have read := strtod_text decimal blank ends
  rwa [List.nil_append] at read

/-- No number begins with a comma. -/
theorem strtod_comma (rest : List Char) : strtod (',' :: rest) = (.finite false 0, ',' :: rest) :=
  rfl

/-- The number of a finite double. -/
theorem number_finite (negative : Bool) (magnitude : ℚ≥0) :
    (Double.finite negative magnitude).number =
      some (if negative then -(magnitude : ℚ) else magnitude) := by
  cases negative <;> rfl

/-- The number which is written. -/
def Decimal.number (decimal : Decimal) : ℚ :=
  if decimal.sign.negative then -(decimal.magnitude : ℚ) else decimal.magnitude

/-- The number of the value which is read. -/
theorem number_value (decimal : Decimal) : decimal.value.number = some decimal.number :=
  number_finite ..

end CText
