import Mathlib.Data.List.TakeWhile
import MotorStand.Text.Digits

/-!
# Addresses in dotted-decimal form

`inet_pton` converts an IPv4 address only from four decimal numbers of one to three
digits, each at most 255 and without zeros in front, with points between them.
-/

namespace CText

/-- A number of an address. -/
structure IsOctet (digits : List Char) : Prop where
  all : ∀ c ∈ digits, c.isDigit = true
  nonempty : digits ≠ []
  length : digits.length ≤ 3
  unpadded : 1 < digits.length → digits.head? ≠ some '0'
  small : numeral 10 digits ≤ 255

/-- An IPv4 address in dotted-decimal form. -/
def DottedDecimal (text : List Char) : Prop :=
  ∃ a b c d, IsOctet a ∧ IsOctet b ∧ IsOctet c ∧ IsOctet d ∧
    text = a ++ '.' :: (b ++ '.' :: (c ++ '.' :: d))

/-- One number of an address and what follows it. -/
def scanOctet (text : List Char) : Option (Nat × List Char) :=
  let digits := text.takeWhile Char.isDigit
  if digits = [] ∨ 3 < digits.length ∨ (1 < digits.length ∧ digits.head? = some '0') ∨
      255 < numeral 10 digits then none
  else some (numeral 10 digits, text.dropWhile Char.isDigit)

/-- A number and the point behind it. -/
def scanPointed (text : List Char) : Option (Nat × List Char) :=
  match scanOctet text with
  | some (octet, '.' :: rest) => some (octet, rest)
  | _ => none

/-- `inet_pton(AF_INET, text, &addr)`: the four bytes of the address, or `none` for a
result other than 1. -/
def inetPton (text : List Char) : Option (List Nat) :=
  match scanPointed text with
  | none => none
  | some (a, text) =>
      match scanPointed text with
      | none => none
      | some (b, text) =>
          match scanPointed text with
          | none => none
          | some (c, text) =>
              match scanOctet text with
              | some (d, []) => some [a, b, c, d]
              | _ => none

variable {text rest digits : List Char} {octet : Nat}

/-- A number is taken whole, and what it is taken from begins with one. -/
theorem scanOctet_eq_some_iff : scanOctet text = some (octet, rest) ↔
    ∃ digits, IsOctet digits ∧ text = digits ++ rest ∧ octet = numeral 10 digits ∧
      Stops Char.isDigit rest := by
  constructor
  · intro scanned
    rw [scanOctet] at scanned
    split at scanned
    · cases scanned
    · rename_i fits
      simp only [not_or, not_lt, not_and] at fits
      obtain ⟨some, short, unpadded, small⟩ := fits
      cases scanned
      refine ⟨_, ⟨?_, some, short, unpadded, small⟩, List.takeWhile_append_dropWhile.symm, rfl, ?_⟩
      · intro c member
        exact List.mem_takeWhile_imp member
      · intro c member
        have stopped := List.head?_dropWhile_not Char.isDigit text
        rw [Option.mem_def.mp member] at stopped
        simpa using stopped
  · rintro ⟨digits, isOctet, rfl, rfl, stops⟩
    have fits : ¬ (digits = [] ∨ 3 < digits.length ∨
        (1 < digits.length ∧ digits.head? = some '0') ∨ 255 < numeral 10 digits) := by
      rw [not_or, not_or, not_or, not_lt, not_lt, not_and]
      exact ⟨isOctet.nonempty, isOctet.length, isOctet.unpadded, isOctet.small⟩
    simp only [scanOctet, takeWhile_run isOctet.all stops, dropWhile_run isOctet.all stops,
      if_neg fits]

/-- An octet and the point behind it. -/
theorem scanPointed_eq_some_iff : scanPointed text = some (octet, rest) ↔
    ∃ digits, IsOctet digits ∧ text = digits ++ '.' :: rest ∧ octet = numeral 10 digits := by
  have point : Stops Char.isDigit ('.' :: rest) := stops_cons (by decide)
  constructor
  · intro scanned
    unfold scanPointed at scanned
    split at scanned
    next found =>
        cases scanned
        obtain ⟨digits, isOctet, whole, value, _⟩ := scanOctet_eq_some_iff.mp found
        exact ⟨digits, isOctet, whole, value⟩
    next => cases scanned
  · rintro ⟨digits, isOctet, whole, value⟩
    simp only [scanPointed, scanOctet_eq_some_iff.mpr ⟨digits, isOctet, whole, value, point⟩]

/-- `inet_pton` succeeds exactly for the addresses in dotted-decimal form. -/
theorem inetPton_isSome_iff (text : List Char) : (inetPton text).isSome ↔ DottedDecimal text := by
  have ends : Stops Char.isDigit [] := fun _ member => nomatch member
  constructor
  · intro converted
    unfold inetPton at converted
    split at converted
    · cases converted
    next a behindA first =>
        split at converted
        · cases converted
        next b behindB second =>
            split at converted
            · cases converted
            next c behindC third =>
                split at converted
                next d fourth =>
                    obtain ⟨as, octetA, rfl, _⟩ := scanPointed_eq_some_iff.mp first
                    obtain ⟨bs, octetB, rfl, _⟩ := scanPointed_eq_some_iff.mp second
                    obtain ⟨cs, octetC, rfl, _⟩ := scanPointed_eq_some_iff.mp third
                    obtain ⟨ds, octetD, rfl, _⟩ := scanOctet_eq_some_iff.mp fourth
                    exact ⟨as, bs, cs, ds, octetA, octetB, octetC, octetD, by simp⟩
                next => cases converted
  · rintro ⟨a, b, c, d, octetA, octetB, octetC, octetD, rfl⟩
    have last : scanOctet d = some (numeral 10 d, []) :=
      scanOctet_eq_some_iff.mpr ⟨d, octetD, by simp, rfl, ends⟩
    rw [inetPton, scanPointed_eq_some_iff.mpr ⟨a, octetA, rfl, rfl⟩]
    simp only
    rw [scanPointed_eq_some_iff.mpr ⟨b, octetB, rfl, rfl⟩]
    simp only
    rw [scanPointed_eq_some_iff.mpr ⟨c, octetC, rfl, rfl⟩]
    simp only [last, Option.isSome_some]

end CText
