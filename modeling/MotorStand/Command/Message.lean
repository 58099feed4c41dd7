import MotorStand.Bytes.LittleEndian

/-!
# `struct auxillary_server_msg`

Sixteen bytes: the double `value`, the four-byte enumeration `type`, and four
bytes of padding. A `read` into the struct may return fewer bytes and leaves the
rest as it was.
-/

namespace MotorStand

open Bytes

/-- `sizeof(struct auxillary_server_msg)`. -/
def sizeofMsg : Nat := 16

/-- `auxillary_op_type`. -/
inductive AuxillaryOpType where
  | opReset
  | opTare
  | opAck
deriving DecidableEq

/-- The integer value of the enumeration constant. -/
def AuxillaryOpType.code : AuxillaryOpType → Nat
  | .opReset => 0
  | .opTare => 1
  | .opAck => 2

/-- The bytes of a message. -/
structure AuxillaryServerMsg where
  bytes : List UInt8
  size : bytes.length = sizeofMsg

namespace AuxillaryServerMsg

/-- The bit pattern of the double `value`. -/
def value (msg : AuxillaryServerMsg) : Nat := decode (window 0 8 msg.bytes)

/-- The bytes of `type`. -/
def typeBytes (msg : AuxillaryServerMsg) : List UInt8 := window 8 4 msg.bytes

/-- `type` as an unsigned integer. -/
def type (msg : AuxillaryServerMsg) : Nat := decode msg.typeBytes

/-- A message with the given fields and padding. -/
def make (value type : Nat) (padding : Vector UInt8 4) : AuxillaryServerMsg where
  bytes := encode 8 value ++ encode 4 type ++ padding.toList
  size := by simp [sizeofMsg]

/-- `msg.type = type`. -/
def setType (msg : AuxillaryServerMsg) (type : Nat) : AuxillaryServerMsg where
  bytes := msg.bytes.take 8 ++ encode 4 type ++ msg.bytes.drop 12
  size := by simp [msg.size, sizeofMsg]

/-- The message after `read(fd,&msg,sizeof(msg))` has stored `received`. -/
def fill (msg : AuxillaryServerMsg) (received : List UInt8) : AuxillaryServerMsg where
  bytes := overlay msg.bytes (received.take sizeofMsg)
  size := by
    refine (overlay_length ?_).trans msg.size
    rw [List.length_take, msg.size]
    exact Nat.min_le_left _ _

variable {msg : AuxillaryServerMsg} {received : List UInt8}

/-- The type takes four bytes. -/
theorem typeBytes_length (msg : AuxillaryServerMsg) : msg.typeBytes.length = 4 :=
  window_length (by rw [msg.size]; decide)

/-- The type is a known one exactly if its bytes are. -/
theorem type_eq_iff (msg : AuxillaryServerMsg) (op : AuxillaryOpType) :
    msg.type = op.code ↔ msg.typeBytes = encode 4 op.code :=
  decode_eq_iff msg.typeBytes_length (by cases op <;> decide)

/-- The bytes of the type of a new message. -/
theorem typeBytes_make (value type : Nat) (padding : Vector UInt8 4) :
    (make value type padding).typeBytes = encode 4 type := by
  have first : (encode 8 value).length = 8 := encode_length 8 value
  have second : (encode 4 type).length = 4 := encode_length 4 type
  simp only [typeBytes, make, window, List.append_assoc]
  rw [List.drop_left' first, List.take_left' second]

/-- The bytes of a type which was set. -/
theorem typeBytes_setType (msg : AuxillaryServerMsg) (type : Nat) :
    (msg.setType type).typeBytes = encode 4 type := by
  have first : (msg.bytes.take 8).length = 8 := by
    rw [List.length_take, msg.size]
    rfl
  have second : (encode 4 type).length = 4 := encode_length 4 type
  simp only [typeBytes, setType, window, List.append_assoc]
  rw [List.drop_left' first, List.take_left' second]

/-- A type which is set is read back. -/
theorem type_setType (msg : AuxillaryServerMsg) (op : AuxillaryOpType) :
    (msg.setType op.code).type = op.code :=
  (type_eq_iff _ op).mpr (typeBytes_setType msg op.code)

/-- Setting the type leaves the value alone. -/
theorem value_setType (msg : AuxillaryServerMsg) (type : Nat) :
    (msg.setType type).value = msg.value := by
  have first : (msg.bytes.take 8).length = 8 := by
    rw [List.length_take, msg.size]
    rfl
  simp only [value, setType, window, List.drop_zero, List.append_assoc]
  rw [List.take_left' first]

/-- A field of a filled message is overlaid by what arrived of it. -/
theorem window_fill (msg : AuxillaryServerMsg) {offset width : Nat}
    (inside : offset + width ≤ sizeofMsg) (received : List UInt8) :
    window offset width (msg.fill received).bytes =
      overlay (window offset width msg.bytes) (window offset width received) := by
  simp only [fill]
  rw [window_overlay, window_take, List.take_of_length_le]
  rw [window, List.length_take]
  omega

/-- The type of a filled message. -/
theorem typeBytes_fill (msg : AuxillaryServerMsg) (received : List UInt8) :
    (msg.fill received).typeBytes = overlay msg.typeBytes (window 8 4 received) :=
  window_fill msg (by decide) received

/-- A read which reaches the end of a field replaces it. -/
theorem window_fill_of_covers (msg : AuxillaryServerMsg) {offset width : Nat}
    (inside : offset + width ≤ sizeofMsg) (covers : offset + width ≤ received.length) :
    window offset width (msg.fill received).bytes = window offset width received := by
  have bound : (window offset width msg.bytes).length ≤ (window offset width received).length := by
    rw [window_length covers, window_length (by rw [msg.size]; exact inside)]
  rw [window_fill msg inside, overlay_of_length_le bound]

end AuxillaryServerMsg

/-- What one call of `read` may do. -/
inductive ReadResult where
  | interrupted
  | failed
  | received (bytes : List UInt8)

/-- `do res = read(...) while (res == -1 && errno == EINTR)`, where the calls return
`results` in turn and find the end of the stream after them. -/
def readRetrying : List ReadResult → ReadResult
  | [] => .received []
  | .interrupted :: rest => readRetrying rest
  | .failed :: _ => .failed
  | .received bytes :: _ => .received bytes

/-- Interruptions are retried. -/
theorem readRetrying_replicate (count : Nat) (results : List ReadResult) :
    readRetrying (List.replicate count .interrupted ++ results) = readRetrying results := by
  induction count with
  | zero => rfl
  | succ count ih => exact ih

end MotorStand
