import Mathlib.Data.List.Basic
import Mathlib.Tactic.Common
import Mathlib.Tactic.NormNum
import Mathlib.Tactic.Ring

/-!
# Digits in a text

Numbers are spelled in a base up to 36. A scan takes the longest run of digits,
so a number is read back as written if what follows it is no digit.
-/

namespace CText

/-- The value of a digit or letter; 36 for any other character. -/
def digitValue (c : Char) : Nat :=
  if c.isDigit then c.toNat - '0'.toNat
  else if c.isLower then c.toNat - 'a'.toNat + 10
  else if c.isUpper then c.toNat - 'A'.toNat + 10
  else 36

/-- The character is a digit in this base. -/
def isDigitIn (base : Nat) (c : Char) : Bool := decide (digitValue c < base)

/-- The number which the digits spell. -/
def numeral (base : Nat) (digits : List Char) : Nat :=
  digits.foldl (fun value c => base * value + digitValue c) 0

/-- `isspace` in the C locale. -/
def isSpace (c : Char) : Bool := c = ' ' || ('\t' ≤ c && c ≤ '\r')

/-- The codes of the decimal digits. -/
theorem toNat_of_isDigit {c : Char} (digit : c.isDigit = true) : 48 ≤ c.toNat ∧ c.toNat ≤ 57 := by
  simpa [Char.isDigit, UInt32.le_iff_toNat_le, ← Char.toNat_val] using digit

/-- The codes of white space. -/
theorem toNat_of_isSpace {c : Char} (space : isSpace c = true) : c.toNat ≤ 32 := by
  rw [isSpace, Bool.or_eq_true, Bool.and_eq_true, decide_eq_true_eq, decide_eq_true_eq,
    decide_eq_true_eq] at space
  rcases space with rfl | ⟨_, below⟩
  · decide
  · rw [Char.le_def, UInt32.le_iff_toNat_le] at below
    have value : c.val.toNat = c.toNat := Char.toNat_val
    have control : '\r'.val.toNat = 13 := rfl
    omega

/-- A digit is no white space. -/
theorem not_isSpace_of_isDigit {c : Char} (digit : c.isDigit = true) : isSpace c = false := by
  have bounds := toNat_of_isDigit digit
  rw [← Bool.not_eq_true]
  intro space
  have blank := toNat_of_isSpace space
  omega

/-- Nothing at the beginning of the text satisfies `kind`. -/
def Stops (kind : Char → Bool) (text : List Char) : Prop := ∀ c ∈ text.head?, kind c = false

variable {base : Nat} {kind : Char → Bool} {run rest : List Char}

/-- A character of another kind stops a run. -/
theorem stops_cons {c : Char} (other : kind c = false) : Stops kind (c :: rest) := by
  intro first member
  obtain rfl := Option.some.inj member
  exact other

/-- A scan takes a run of the kind which stops. -/
theorem takeWhile_run (all : ∀ c ∈ run, kind c = true) (stops : Stops kind rest) :
    (run ++ rest).takeWhile kind = run := by
  rw [List.takeWhile_append_of_pos all]
  cases rest with
  | nil => simp
  | cons c rest => rw [List.takeWhile_cons, if_neg (by simp [stops c rfl]), List.append_nil]

/-- A run is dropped up to what stops it. -/
theorem dropWhile_run (all : ∀ c ∈ run, kind c = true) (stops : Stops kind rest) :
    (run ++ rest).dropWhile kind = rest := by
  rw [List.dropWhile_append_of_pos all]
  cases rest with
  | nil => rfl
  | cons c rest => rw [List.dropWhile_cons, if_neg (by simp [stops c rfl])]

/-! ## Numbers -/

/-- Digits are read behind those which were read before. -/
theorem foldl_numeral (digits : List Char) (start : Nat) :
    digits.foldl (fun value c => base * value + digitValue c) start =
      base ^ digits.length * start + numeral base digits := by
  induction digits generalizing start with
  | nil => simp [numeral]
  | cons c digits ih =>
      rw [numeral, List.foldl_cons, List.foldl_cons, ih, ih (base * 0 + digitValue c),
        List.length_cons, pow_succ]
      ring

/-- The first digits are shifted by the second ones. -/
theorem numeral_append (base : Nat) (first second : List Char) :
    numeral base (first ++ second) =
      base ^ second.length * numeral base first + numeral base second := by
  rw [numeral, List.foldl_append, foldl_numeral]
  rfl

/-- Decimal digits are digits in the base ten. -/
theorem isDigitIn_of_isDigit {c : Char} (digit : c.isDigit = true) : isDigitIn 10 c = true := by
  have bounds := toNat_of_isDigit digit
  have zero : '0'.toNat = 48 := rfl
  rw [isDigitIn, digitValue, if_pos digit, zero]
  exact decide_eq_true (by omega)

/-- For digits in the narrow sense the value is the one of the core library. -/
theorem numeral_eq_ofDigitChars {digits : List Char} (all : ∀ c ∈ digits, c.isDigit = true) :
    numeral base digits = Nat.ofDigitChars base digits 0 := by
  rw [numeral, Nat.ofDigitChars_eq_foldl]
  apply List.foldl_ext
  intro value c member
  rw [digitValue, if_pos (all c member)]

/-! ## Decimal numbers -/

/-- `%lu`: the decimal digits of a number. -/
def printNat (value : Nat) : List Char := Nat.toDigits 10 value

/-- A number is printed with digits. -/
theorem isDigit_printNat {value : Nat} {c : Char} (member : c ∈ printNat value) :
    c.isDigit = true :=
  Nat.isDigit_of_mem_toDigits (by decide) (by decide) member

/-- At least one digit is printed. -/
theorem printNat_ne_nil (value : Nat) : printNat value ≠ [] := Nat.toDigits_ne_nil

/-- A larger number has no fewer digits. -/
theorem printNat_length_le {small large : Nat} (below : small ≤ large) :
    (printNat small).length ≤ (printNat large).length := by
  have digits (value : Nat) : (printNat value).length ≤ (printNat large).length ↔
      value < 10 ^ (printNat large).length :=
    Nat.length_toDigits_le_iff (by decide) Nat.length_toDigits_pos
  exact (digits small).mpr (below.trans_lt ((digits large).mp (Nat.le_refl _)))

/-- A number below a power of ten has at most as many digits. -/
theorem printNat_length_le_of_lt {value count : Nat} (positive : 0 < count)
    (below : value < 10 ^ count) : (printNat value).length ≤ count :=
  (Nat.length_toDigits_le_iff (by decide) positive).mpr below

/-- A printed number begins with a digit. -/
theorem printNat_cons (value : Nat) :
    ∃ c tail, printNat value = c :: tail ∧ c.isDigit = true := by
  cases printed : printNat value with
  | nil => exact absurd printed (printNat_ne_nil value)
  | cons c tail =>
      have member : c ∈ printNat value := by
        rw [printed]
        exact List.mem_cons_self
      exact ⟨c, tail, rfl, isDigit_printNat member⟩

/-- A printed number is read back. -/
theorem numeral_printNat (value : Nat) : numeral 10 (printNat value) = value := by
  rw [numeral_eq_ofDigitChars fun _ member => isDigit_printNat member, printNat,
    Nat.ofDigitChars_ten_toDigits]

/-- Only zero is printed with a leading zero. -/
theorem printNat_head {value : Nat} (positive : 0 < value) :
    ∃ c rest, printNat value = c :: rest ∧ c ≠ '0' := by
  induction value using Nat.strongRecOn with
  | _ value ih =>
      rw [printNat, Nat.toDigits_eq_if (by decide)]
      split
      next single =>
          exact ⟨_, [], rfl, by simpa using positive.ne'⟩
      next several =>
          obtain ⟨c, rest, printed, nonzero⟩ := ih (value / 10) (by omega) (by omega)
          rw [printNat] at printed
          exact ⟨c, rest ++ [(value % 10).digitChar], by rw [printed]; rfl, nonzero⟩

/-- The `width` low decimal digits of a number. -/
def printPadded : Nat → Nat → List Char
  | 0, _ => []
  | width + 1, value => printPadded width (value / 10) ++ [(value % 10).digitChar]

/-- The digits fill their width. -/
theorem printPadded_length (width value : Nat) : (printPadded width value).length = width := by
  induction width generalizing value with
  | zero => rfl
  | succ width ih => rw [printPadded, List.length_append, ih, List.length_singleton]

/-- A padded number is printed with digits. -/
theorem isDigit_printPadded {width value : Nat} {c : Char} (member : c ∈ printPadded width value) :
    c.isDigit = true := by
  induction width generalizing value with
  | zero => cases member
  | succ width ih =>
      rcases List.mem_append.mp member with high | low
      · exact ih high
      · rw [List.mem_singleton.mp low, Nat.isDigit_digitChar]
        exact decide_eq_true (Nat.mod_lt _ (by decide))

/-- The digits which fit in the width are read back. -/
theorem numeral_printPadded (width value : Nat) :
    numeral 10 (printPadded width value) = value % 10 ^ width := by
  induction width generalizing value with
  | zero => rw [pow_zero, Nat.mod_one]; rfl
  | succ width ih =>
      have digit : numeral 10 [(value % 10).digitChar] = value % 10 := by
        have below : value % 10 < 10 := Nat.mod_lt _ (by decide)
        rw [← Nat.toDigits_of_lt_base below]
        exact numeral_printNat _
      rw [printPadded, numeral_append, ih, digit, List.length_singleton, pow_one, pow_succ',
        Nat.mod_mul]
      omega

end CText
