import Mathlib.Data.List.Range
import Mathlib.Tactic.NormNum

/-!
# Bits which arrive most significant first

A word is filled by shifting it and setting its lowest bit, once for each bit which arrives.
-/

namespace Bytes

/-- The number whose bits are listed, the most significant one first. -/
def msbFirst (bits : List Bool) : Nat := bits.foldl (fun value bit => 2 * value + bit.toNat) 0

variable {width : Nat} {bits : List Bool}

/-- A further bit shifts those in front of it. -/
theorem msbFirst_concat (bits : List Bool) (bit : Bool) :
    msbFirst (bits ++ [bit]) = 2 * msbFirst bits + bit.toNat := by
  rw [msbFirst, List.foldl_concat, msbFirst]

/-- A number is below the power of two of its bits. -/
theorem msbFirst_lt (bits : List Bool) : msbFirst bits < 2 ^ bits.length := by
  induction bits using List.reverseRecOn with
  | nil => exact Nat.one_pos
  | append_singleton bits bit ih =>
      have small : bit.toNat ≤ 1 := bit.toNat_le
      rw [msbFirst_concat, List.length_append, List.length_singleton, Nat.pow_succ]
      omega

/-- `value <<= 1; value |= bit;`. -/
def shiftIn (value : BitVec width) (bit : Bool) : BitVec width :=
  value <<< 1 ||| (BitVec.ofBool bit).setWidth width

/-- While the highest bit is free nothing is shifted out. -/
theorem toNat_shiftIn {value : BitVec width} (free : 2 * value.toNat + 1 < 2 ^ width) (bit : Bool) :
    (shiftIn value bit).toNat = 2 * value.toNat + bit.toNat := by
  have small : bit.toNat < 2 ^ 1 := bit.toNat_lt
  have shifted : (value <<< 1).toNat = value.toNat <<< 1 := by
    rw [BitVec.toNat_shiftLeft, Nat.mod_eq_of_lt]
    rw [Nat.shiftLeft_eq]
    omega
  have low : ((BitVec.ofBool bit).setWidth width).toNat = bit.toNat := by
    rw [BitVec.toNat_setWidth, BitVec.toNat_ofBool, Nat.mod_eq_of_lt]
    omega
  rw [shiftIn, BitVec.toNat_or, shifted, low, ← Nat.shiftLeft_add_eq_or_of_lt small,
    Nat.shiftLeft_eq]
  omega

/-- The first bits of a word are the word without its low bits. -/
theorem msbFirst_of_le (word : BitVec width) {count : Nat} (inside : count ≤ width) :
    msbFirst ((List.range' 0 count).map word.getMsbD) = word.toNat / 2 ^ (width - count) := by
  induction count with
  | zero =>
      rw [Nat.sub_zero, Nat.div_eq_of_lt word.isLt]
      rfl
  | succ count ih =>
      have below : count < width := inside
      have bit : (word.getMsbD count).toNat = word.toNat / 2 ^ (width - (count + 1)) % 2 := by
        have position : width - 1 - count = width - (count + 1) := by omega
        rw [BitVec.getMsbD, decide_eq_true below, Bool.true_and, BitVec.getLsbD, position]
        exact Nat.toNat_testBit ..
      have place : width - count = width - (count + 1) + 1 := by omega
      rw [List.range'_1_concat, List.map_append, List.map_singleton, msbFirst_concat, ih below.le,
        Nat.zero_add, bit, place, Nat.pow_succ, ← Nat.div_div_eq_div_mul]
      exact Nat.div_add_mod ..

/-- The bits of a word are the word. -/
theorem msbFirst_word (word : BitVec width) :
    msbFirst ((List.range' 0 width).map word.getMsbD) = word.toNat := by
  rw [msbFirst_of_le word (Nat.le_refl _), Nat.sub_self, Nat.pow_zero, Nat.div_one]

end Bytes
