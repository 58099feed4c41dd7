import MotorStand.Text.Decimal

/-!
# Numbers up to a comma

A comma belongs to no spelling of a number. `strtod` therefore finds the same number
whatever follows a comma, and stops there at the latest.
-/

namespace CText

variable {text rest : List Char}

/-- What is taken ends in front of a comma. -/
theorem takeWhile_comma (kind : Char → Bool) (other : kind ',' = false) (text rest : List Char) :
    (text ++ ',' :: rest).takeWhile kind = text.takeWhile kind := by
  induction text with
  | nil => simp [other]
  | cons c text ih =>
      rw [List.cons_append, List.takeWhile_cons, List.takeWhile_cons, ih]

/-- What is dropped ends in front of a comma. -/
theorem dropWhile_comma (kind : Char → Bool) (other : kind ',' = false) (text rest : List Char) :
    (text ++ ',' :: rest).dropWhile kind = text.dropWhile kind ++ ',' :: rest := by
  induction text with
  | nil => simp [other]
  | cons c text ih =>
      rw [List.cons_append, List.dropWhile_cons, List.dropWhile_cons, ih]
      split <;> rfl

/-- A scan which stops at commas and returns an end of its text. -/
structure Scans {α : Type} (scan : List Char → Option (α × List Char)) : Prop where
  comma : ∀ text rest, scan (text ++ ',' :: rest) =
    (scan text).map fun found => (found.1, found.2 ++ ',' :: rest)
  suffix : ∀ text found, scan text = some found → found.2 <:+ text

/-- A scan may try two others one after the other. -/
theorem Scans.orElse {α : Type} {first second : List Char → Option (α × List Char)}
    (left : Scans first) (right : Scans second) : Scans fun text => first text <|> second text where
  comma := by
    intro text rest
    simp only [left.comma, right.comma]
    cases first text <;> rfl
  suffix := by
    intro text found either
    cases scanned : first text with
    | some other =>
        rw [scanned] at either
        cases either
        exact left.suffix text _ scanned
    | none =>
        rw [scanned] at either
        exact right.suffix text _ either

/-! ## Words -/

/-- A word without a comma does not go beyond one. -/
theorem dropWord_comma {word : List Char} (letters : ',' ∉ word) (text rest : List Char) :
    dropWord word (text ++ ',' :: rest) = (dropWord word text).map (· ++ ',' :: rest) := by
  induction word generalizing text with
  | nil => simp [dropWord]
  | cons w word ih =>
      rw [List.mem_cons, not_or] at letters
      cases text with
      | nil =>
          have lower : ','.toLower = ',' := by decide
          simp [dropWord, lower, letters.1]
      | cons c text =>
          rw [List.cons_append, dropWord, dropWord, ih letters.2]
          split <;> rfl

/-- What is left behind a word. -/
theorem dropWord_suffix {word found : List Char} (dropped : dropWord word text = some found) :
    found <:+ text := by
  induction word generalizing text with
  | nil =>
      cases dropped
      exact List.suffix_rfl
  | cons w word ih =>
      cases text with
      | nil => cases dropped
      | cons c text =>
          rw [dropWord] at dropped
          split at dropped
          · exact (ih dropped).trans (List.suffix_cons c text)
          · cases dropped

/-- The scan of a word. -/
theorem scans_word {α : Type} (word : List Char) (letters : ',' ∉ word) (value : α) :
    Scans fun text => (dropWord word text).map fun rest => (value, rest) where
  comma := by
    intro text rest
    rw [dropWord_comma letters]
    cases dropWord word text <;> rfl
  suffix := by
    intro text found scanned
    obtain ⟨rest, dropped, rfl⟩ := Option.map_eq_some_iff.mp scanned
    exact dropWord_suffix dropped

/-- The scan of an infinity. -/
theorem scans_infinity : Scans scanInfinity := by
  have either := (scans_word ['i', 'n', 'f', 'i', 'n', 'i', 't', 'y'] (by decide)
    Magnitude.infinite).orElse (scans_word ['i', 'n', 'f'] (by decide) .infinite)
  have same : scanInfinity = fun text =>
      ((dropWord ['i', 'n', 'f', 'i', 'n', 'i', 't', 'y'] text).map fun rest =>
          (Magnitude.infinite, rest)) <|>
        (dropWord ['i', 'n', 'f'] text).map fun rest => (Magnitude.infinite, rest) := by
    funext text
    rw [scanInfinity]
    cases dropWord ['i', 'n', 'f', 'i', 'n', 'i', 't', 'y'] text <;> rfl
  rw [same]
  exact either

/-- The characters behind `nan` end in front of a comma. -/
theorem dropPayload_comma (text rest : List Char) :
    dropPayload (text ++ ',' :: rest) = dropPayload text ++ ',' :: rest := by
  cases text with
  | nil => rfl
  | cons c text =>
      by_cases opened : c = '('
      · subst opened
        rw [List.cons_append, dropPayload, dropPayload,
          dropWhile_comma (fun c => c.isAlphanum || c = '_') (by decide)]
        cases text.dropWhile fun c => c.isAlphanum || c = '_' with
        | nil => rfl
        | cons other tail =>
            by_cases closed : other = ')'
            · subst closed
              rfl
            · simp [closed]
      · simp [dropPayload, opened]

/-- What is left behind the characters. -/
theorem dropPayload_suffix (text : List Char) : dropPayload text <:+ text := by
  unfold dropPayload
  split
  next tail =>
      split
      next rest closed =>
          have behind : ')' :: rest <:+ tail := by
            rw [← closed]
            exact List.dropWhile_suffix _
          exact ((List.suffix_cons _ _).trans behind).trans (List.suffix_cons _ _)
      next => exact List.suffix_rfl
  next => exact List.suffix_rfl

/-- The scan of what is no number. -/
theorem scans_nan : Scans scanNan where
  comma := by
    intro text rest
    rw [scanNan, scanNan, dropWord_comma (by decide)]
    cases dropWord ['n', 'a', 'n'] text with
    | none => rfl
    | some behind => simp [dropPayload_comma]
  suffix := by
    intro text found scanned
    obtain ⟨rest, dropped, rfl⟩ := Option.map_eq_some_iff.mp scanned
    exact (dropPayload_suffix rest).trans (dropWord_suffix dropped)

/-! ## Numbers -/

/-- A sign stands in front of a comma. -/
theorem scanSign_comma (text rest : List Char) :
    scanSign (text ++ ',' :: rest) = ((scanSign text).1, (scanSign text).2 ++ ',' :: rest) := by
  cases text with
  | nil => rfl
  | cons c text =>
      by_cases minus : c = '-'
      · subst minus
        rfl
      · by_cases plus : c = '+'
        · subst plus
          rfl
        · simp [scanSign, minus, plus]

/-- What is left behind a sign. -/
theorem scanSign_suffix (text : List Char) : (scanSign text).2 <:+ text := by
  unfold scanSign
  split
  · exact List.suffix_cons _ _
  · exact List.suffix_cons _ _
  · exact List.suffix_rfl

/-- A comma is no digit. -/
theorem not_isDigitIn_comma {base : Nat} (small : base ≤ 36) : isDigitIn base ',' = false :=
  decide_eq_false (not_lt.mpr small)

/-- The digits end in front of a comma. -/
theorem scanMantissa_comma {base : Nat} (small : base ≤ 36) (text rest : List Char) :
    scanMantissa base (text ++ ',' :: rest) =
      (scanMantissa base text).map fun found => (found.1, found.2.1, found.2.2 ++ ',' :: rest) := by
  have other := not_isDigitIn_comma small
  rw [scanMantissa, scanMantissa, takeWhile_comma _ other, dropWhile_comma _ other]
  cases text.dropWhile (isDigitIn base) with
  | nil => cases text.takeWhile (isDigitIn base) <;> rfl
  | cons c tail =>
      by_cases point : c = '.'
      · subst point
        simp only [List.cons_append, takeWhile_comma _ other, dropWhile_comma _ other]
        split <;> rfl
      · simp only [List.cons_append]
        split
        next same => exact absurd (List.cons.inj same).1 point
        next =>
            split <;> simp [point]

/-- What is left behind the digits. -/
theorem scanMantissa_suffix {base : Nat} {found : Nat × Nat × List Char}
    (scanned : scanMantissa base text = some found) : found.2.2 <:+ text := by
  rw [scanMantissa] at scanned
  have dropped := List.dropWhile_suffix (l := text) (isDigitIn base)
  split at scanned
  next tail behind =>
      rw [behind] at dropped
      simp only at scanned
      split at scanned
      · cases scanned
      · cases scanned
        exact ((List.dropWhile_suffix _).trans (List.suffix_cons _ _)).trans dropped
  next =>
      split at scanned
      · cases scanned
      · cases scanned
        exact dropped

/-- The exponent ends in front of a comma. -/
theorem scanExponent_comma {marker : Char} (letter : ',' ≠ marker) (text rest : List Char) :
    scanExponent marker (text ++ ',' :: rest) =
      ((scanExponent marker text).1, (scanExponent marker text).2 ++ ',' :: rest) := by
  have other := not_isDigitIn_comma (show 10 ≤ 36 by decide)
  have lower : ','.toLower = ',' := by decide
  cases text with
  | nil => simp [scanExponent, lower, letter]
  | cons c text =>
      rw [List.cons_append, scanExponent, scanExponent, scanSign_comma]
      simp only [takeWhile_comma _ other, dropWhile_comma _ other]
      split
      · split <;> rfl
      · rfl

/-- What is left behind the exponent. -/
theorem scanExponent_suffix (marker : Char) (text : List Char) :
    (scanExponent marker text).2 <:+ text := by
  cases text with
  | nil => exact List.suffix_rfl
  | cons c text =>
      rw [scanExponent]
      split
      · simp only
        split
        · exact List.suffix_rfl
        · exact ((List.dropWhile_suffix _).trans (scanSign_suffix text)).trans
            (List.suffix_cons _ _)
      · exact List.suffix_rfl

/-- A mantissa with an exponent behind it. -/
theorem scans_number {base : Nat} (small : base ≤ 36) {marker : Char} (letter : ',' ≠ marker)
    (value : Nat → Nat → Int → Magnitude) :
    Scans fun text => (scanMantissa base text).map fun found =>
      (value found.1 found.2.1 (scanExponent marker found.2.2).1,
        (scanExponent marker found.2.2).2) where
  comma := by
    intro text rest
    rw [scanMantissa_comma small]
    cases scanMantissa base text with
    | none => rfl
    | some found => simp [scanExponent_comma letter]
  suffix := by
    intro text found scanned
    obtain ⟨mantissa, found, rfl⟩ := Option.map_eq_some_iff.mp scanned
    exact (scanExponent_suffix _ _).trans (scanMantissa_suffix found)

/-- The scan of a decimal number. -/
theorem scans_decimal : Scans scanDecimal :=
  scans_number (by decide) (by decide) fun number places exponent =>
    .finite (number * 10 ^ (exponent - places))

/-- The scan of a hexadecimal number. -/
theorem scans_hexadecimal : Scans scanHexadecimal := by
  have digits : Scans fun text => (scanMantissa 16 text).map fun found =>
      (Magnitude.finite (found.1 * 2 ^ ((scanExponent 'p' found.2.2).1 - 4 * found.2.1)),
        (scanExponent 'p' found.2.2).2) :=
    scans_number (by decide) (by decide) fun number places exponent =>
      .finite (number * 2 ^ (exponent - 4 * places))
  constructor
  · intro text rest
    cases text with
    | nil => rfl
    | cons c text =>
        by_cases zero : c = '0'
        · subst zero
          cases text with
          | nil => rfl
          | cons x text =>
              rw [List.cons_append, List.cons_append, scanHexadecimal, scanHexadecimal]
              split
              · exact digits.comma text rest
              · rfl
        · simp [scanHexadecimal, zero]
  · intro text found scanned
    unfold scanHexadecimal at scanned
    split at scanned
    · split at scanned
      · exact ((digits.suffix _ _ scanned).trans (List.suffix_cons _ _)).trans
          (List.suffix_cons _ _)
      · cases scanned
    · cases scanned

/-- The scans which are tried one after the other. -/
theorem scans_magnitude : Scans scanMagnitude :=
  scans_infinity.orElse (scans_nan.orElse (scans_hexadecimal.orElse scans_decimal))

/-! ## `strtod` -/

/-- What follows a comma does not matter. -/
theorem strtod_append_comma (text rest : List Char) :
    strtod (text ++ ',' :: rest) = ((strtod text).1, (strtod text).2 ++ ',' :: rest) := by
  rw [strtod, strtod, dropWhile_comma _ (by decide), scanSign_comma]
  simp only [scans_magnitude.comma]
  cases scanMagnitude (scanSign (text.dropWhile isSpace)).2 <;> rfl

/-- `strtod` stops at an end of its text. -/
theorem strtod_suffix (text : List Char) : (strtod text).2 <:+ text := by
  rw [strtod]
  simp only
  split
  next magnitude rest scanned =>
      exact ((scans_magnitude.suffix _ _ scanned).trans (scanSign_suffix _)).trans
        (List.dropWhile_suffix _)
  next => exact List.suffix_rfl

end CText
