import Mathlib.Data.Nat.Digits.Defs
import Mathlib.Tactic.NormNum
import Mathlib.Tactic.Positivity
import Mathlib.Tactic.Zify

/-!
# Bytes of a struct

Little-endian integers, fields as windows of a byte string, and the effect of a
read which fills only the beginning of a buffer.
-/

namespace Bytes

/-- The number a little-endian field holds. -/
def decode (bytes : List UInt8) : Nat := Nat.ofDigits 256 (bytes.map UInt8.toNat)

/-- The `width` low bytes of a number. -/
def encode : Nat → Nat → List UInt8
  | 0, _ => []
  | width + 1, value => UInt8.ofNat value :: encode width (value / 256)

/-- A number takes as many bytes as it is encoded with. -/
@[simp] theorem encode_length (width value : Nat) : (encode width value).length = width := by
  induction width generalizing value with
  | zero => rfl
  | succ width ih => rw [encode, List.length_cons, ih]

/-- A number which fits in the bytes is read back. -/
theorem decode_encode {width value : Nat} (fits : value < 256 ^ width) :
    decode (encode width value) = value := by
  induction width generalizing value with
  | zero =>
      have zero : value = 0 := by simpa using fits
      rw [zero]
      rfl
  | succ width ih =>
      have quotient : value / 256 < 256 ^ width := Nat.div_lt_of_lt_mul (by rwa [← pow_succ'])
      have low : (UInt8.ofNat value).toNat = value % 256 := UInt8.toNat_ofNat'
      have high := ih quotient
      rw [decode] at high
      rw [decode, encode, List.map_cons, Nat.ofDigits_cons, high, low]
      exact Nat.mod_add_div value 256

/-- Fields of one width are told apart by their numbers. -/
theorem decode_injective {left right : List UInt8} (length : left.length = right.length)
    (same : decode left = decode right) : left = right := by
  have digits : ∀ bytes : List UInt8, ∀ digit ∈ bytes.map UInt8.toNat, digit < 256 := by
    intro bytes digit member
    obtain ⟨byte, _, rfl⟩ := List.mem_map.mp member
    exact byte.toNat_lt
  have maps := Nat.ofDigits_inj_of_len_eq (by norm_num) (by simpa using length) (digits left)
    (digits right) same
  exact (List.map_inj_right fun _ _ equal => UInt8.toNat_inj.mp equal).mp maps

/-- A field holds `value` exactly if its bytes are those of `value`. -/
theorem decode_eq_iff {bytes : List UInt8} {width value : Nat} (length : bytes.length = width)
    (fits : value < 256 ^ width) : decode bytes = value ↔ bytes = encode width value := by
  constructor
  · intro same
    refine decode_injective (by rw [length, encode_length]) ?_
    rw [same, decode_encode fits]
  · rintro rfl
    exact decode_encode fits

/-- The byte at a place, counted from the lowest. -/
theorem getElem?_encode {width index : Nat} (inside : index < width) (value : Nat) :
    (encode width value)[index]? = some (UInt8.ofNat (value / 256 ^ index)) := by
  induction width generalizing index value with
  | zero => omega
  | succ width ih =>
      rw [encode]
      cases index with
      | zero => simp
      | succ index =>
          rw [List.getElem?_cons_succ, ih (by omega), Nat.div_div_eq_div_mul, ← pow_succ']

/-- The `width` bytes of a signed number, in two's complement. -/
def encodeInt (width : Nat) (value : Int) : List UInt8 :=
  encode width (value % (256 : Int) ^ width).toNat

/-- A signed number takes as many bytes. -/
@[simp] theorem encodeInt_length (width : Nat) (value : Int) :
    (encodeInt width value).length = width := encode_length ..

/-- Signed numbers less than the whole range apart have different bytes. -/
theorem encodeInt_injective {width : Nat} {left right : Int}
    (near : |left - right| < (256 : Int) ^ width)
    (same : encodeInt width left = encodeInt width right) : left = right := by
  have positive : (0 : Int) < 256 ^ width := by positivity
  have bounded (value : Int) : (value % (256 : Int) ^ width).toNat < 256 ^ width := by
    have below := Int.emod_lt_of_pos value positive
    zify
    rwa [Int.toNat_of_nonneg (Int.emod_nonneg _ positive.ne')]
  have equal := congrArg decode same
  rw [encodeInt, encodeInt, decode_encode (bounded left), decode_encode (bounded right)] at equal
  have residues : left % (256 : Int) ^ width = right % (256 : Int) ^ width := by
    rw [← Int.toNat_of_nonneg (Int.emod_nonneg left positive.ne'), equal,
      Int.toNat_of_nonneg (Int.emod_nonneg right positive.ne')]
  have difference := (Int.emod_eq_emod_iff_emod_sub_eq_zero).mp residues
  have zero := Int.eq_zero_of_abs_lt_dvd (Int.dvd_of_emod_eq_zero difference) near
  omega

/-! ## Windows -/

/-- The field of `width` bytes at `offset`. -/
def window (offset width : Nat) (bytes : List UInt8) : List UInt8 :=
  (bytes.drop offset).take width

/-- The buffer after a read which returned `bytes`. -/
def overlay (buffer bytes : List UInt8) : List UInt8 := bytes ++ buffer.drop bytes.length

variable {buffer bytes : List UInt8} {offset width : Nat}

/-- A window inside the bytes has its full width. -/
theorem window_length (inside : offset + width ≤ bytes.length) :
    (window offset width bytes).length = width := by
  rw [window, List.length_take, List.length_drop]
  omega

/-- Overlaid bytes do not lengthen the buffer. -/
theorem overlay_length (bounded : bytes.length ≤ buffer.length) :
    (overlay buffer bytes).length = buffer.length := by
  rw [overlay, List.length_append, List.length_drop]
  omega

/-- Without bytes the buffer stays as it is. -/
theorem overlay_nil (buffer : List UInt8) : overlay buffer [] = buffer := rfl

/-- The bytes behind a read are those of the buffer. -/
theorem getElem?_overlay {index : Nat} (behind : bytes.length ≤ index) :
    (overlay buffer bytes)[index]? = buffer[index]? := by
  rw [overlay, List.getElem?_append_right behind, List.getElem?_drop, Nat.add_sub_of_le behind]

/-- A read of at least as many bytes replaces all of them. -/
theorem overlay_of_length_le (covers : buffer.length ≤ bytes.length) :
    overlay buffer bytes = bytes := by
  rw [overlay, List.drop_eq_nil_of_le covers, List.append_nil]

/-- A read replaces the beginning of each field by the bytes it has of that field. -/
theorem window_overlay (offset width : Nat) (buffer bytes : List UInt8) :
    window offset width (overlay buffer bytes) =
      overlay (window offset width buffer) (window offset width bytes) := by
  simp only [window, overlay, List.drop_append, List.take_append, List.drop_drop, List.drop_take,
    List.length_take, List.length_drop]
  by_cases covers : width ≤ bytes.length - offset
  · have none : width - (bytes.length - offset) = 0 := by omega
    rw [none, List.take_zero, Nat.min_eq_left covers, Nat.sub_self, List.take_zero]
  · have within : bytes.length - offset ≤ width := by omega
    have position : bytes.length + (offset - bytes.length) =
        offset + (bytes.length - offset) := by omega
    rw [Nat.min_eq_right within, position]

/-- The field of a prefix is a prefix of the field. -/
theorem window_take (offset width count : Nat) (bytes : List UInt8) :
    window offset width (bytes.take count) = (window offset width bytes).take (count - offset) := by
  rw [window, window, List.drop_take, List.take_take, List.take_take, Nat.min_comm]

end Bytes
