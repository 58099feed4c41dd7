import MotorStand.Command.Message

/-!
# One call of `handle_auxillary_command`

The handler reads once into a message whose type is −1 and acts on whatever type
the message then has. Here it runs alone; its steps among those of other threads
are modelled with the sampling loop.
-/

namespace MotorStand

open Bytes

/-- What `data.tare` and `data.reset` point to. -/
structure AuxillaryServerData where
  tare : Nat
  reset : Nat
deriving DecidableEq

/-- `{.value = 0, .type = -1}`; nothing sets the padding. -/
def initialMsg (padding : Vector UInt8 4) : AuxillaryServerMsg := .make 0 0xffffffff padding

/-- The message after the loop around `read`, whose calls return `results`. -/
def receiveCommand (padding : Vector UInt8 4) (results : List ReadResult) : AuxillaryServerMsg :=
  match readRetrying results with
  | .received bytes => (initialMsg padding).fill bytes
  | .interrupted | .failed => initialMsg padding

/-- The `switch` over `msg.type` and the reply, if one is written. -/
def dispatch (msg : AuxillaryServerMsg) (data : AuxillaryServerData) :
    AuxillaryServerData × Option AuxillaryServerMsg :=
  if msg.type = AuxillaryOpType.opReset.code then
    -- the compare-exchange of a handler which runs alone succeeds
    ({ data with reset := 1 }, some (msg.setType AuxillaryOpType.opAck.code))
  else if msg.type = AuxillaryOpType.opTare.code then
    ({ data with tare := msg.value }, some (msg.setType AuxillaryOpType.opAck.code))
  else if msg.type = AuxillaryOpType.opAck.code then
    (data, some (msg.setType AuxillaryOpType.opAck.code))
  else (data, none)

/-- `handle_auxillary_command` on a connection whose `read` calls return `results`: the
shared data afterwards and the reply. -/
def handleAuxillaryCommand (padding : Vector UInt8 4) (results : List ReadResult)
    (data : AuxillaryServerData) : AuxillaryServerData × Option AuxillaryServerMsg :=
  dispatch (receiveCommand padding results) data

/-! ## What can be observed -/

/-- The shared data after a handler, and the value and the type of its reply. The
padding of a reply carries no information. -/
def observed (outcome : AuxillaryServerData × Option AuxillaryServerMsg) :
    AuxillaryServerData × Option (Nat × Nat) :=
  (outcome.1, outcome.2.map fun msg => (msg.value, msg.type))

variable {padding : Vector UInt8 4} {data : AuxillaryServerData}

/-- Only the value and the type of a message matter. -/
theorem observed_dispatch_congr {left right : AuxillaryServerMsg} (value : left.value = right.value)
    (type : left.type = right.type) :
    observed (dispatch left data) = observed (dispatch right data) := by
  have reply : ((left.setType AuxillaryOpType.opAck.code).value,
      (left.setType AuxillaryOpType.opAck.code).type) =
      ((right.setType AuxillaryOpType.opAck.code).value,
        (right.setType AuxillaryOpType.opAck.code).type) := by
    simp only [AuxillaryServerMsg.value_setType, AuxillaryServerMsg.type_setType, value]
  unfold observed dispatch
  rw [type, value]
  split_ifs <;> simp only [Option.map_some, Option.map_none, reply]

/-- A command of one of the three types is acknowledged. -/
theorem dispatch_replies {msg : AuxillaryServerMsg} {op : AuxillaryOpType}
    (type : msg.type = op.code) : (observed (dispatch msg data)).2 ≠ none := by
  unfold observed dispatch
  rw [type]
  cases op <;> simp [AuxillaryOpType.code]

/-- Any other type is not answered. -/
theorem dispatch_silent {msg : AuxillaryServerMsg}
    (unknown : ∀ op : AuxillaryOpType, msg.type ≠ op.code) :
    (observed (dispatch msg data)).2 = none := by
  unfold observed dispatch
  rw [if_neg (unknown _), if_neg (unknown _), if_neg (unknown _)]
  rfl

/-! ## What the first read decides -/

/-- A read which stops inside `type` leaves its last byte at `0xff`. -/
theorem type_unknown {bytes : List UInt8} (short : bytes.length < 12) (op : AuxillaryOpType) :
    ((initialMsg padding).fill bytes).type ≠ op.code := by
  rw [Ne, AuxillaryServerMsg.type_eq_iff, AuxillaryServerMsg.typeBytes_fill, initialMsg,
    AuxillaryServerMsg.typeBytes_make]
  intro same
  have few : (window 8 4 bytes).length ≤ 3 := by
    rw [window, List.length_take, List.length_drop]
    omega
  have last := congrArg (·[3]?) same
  simp only [getElem?_overlay few] at last
  cases op <;> revert last <;> decide

/-- The segments of a message, none of them empty. -/
structure Segmentation (message : List UInt8) where
  first : List UInt8
  rest : List (List UInt8)
  nonempty : ∀ segment ∈ first :: rest, segment ≠ []
  whole : (first :: rest).flatten = message

/-- The results of the `read` calls: some interruptions, then the segments in turn. -/
def Segmentation.results {message : List UInt8} (split : Segmentation message)
    (interruptions : Nat) : List ReadResult :=
  List.replicate interruptions .interrupted ++ (split.first :: split.rest).map .received

variable {message : AuxillaryServerMsg}

/-- Only the first segment is read. -/
theorem receiveCommand_segments (split : Segmentation message.bytes) (interruptions : Nat) :
    receiveCommand padding (split.results interruptions) =
      (initialMsg padding).fill split.first := by
  rw [receiveCommand, Segmentation.results, readRetrying_replicate]
  rfl

/-- The first segment is a beginning of the message. -/
theorem Segmentation.first_eq_take (split : Segmentation message.bytes) :
    split.first = message.bytes.take split.first.length := by
  have taken := congrArg (List.take split.first.length) split.whole
  rwa [List.flatten_cons, List.take_left] at taken

/-- A first segment which covers a field stores it as the whole message would. -/
theorem window_fill_first (split : Segmentation message.bytes) {offset width : Nat}
    (inside : offset + width ≤ sizeofMsg) (covers : offset + width ≤ split.first.length) :
    window offset width ((initialMsg padding).fill split.first).bytes =
      window offset width ((initialMsg padding).fill message.bytes).bytes := by
  have bound := message.size
  rw [AuxillaryServerMsg.window_fill_of_covers _ inside covers,
    AuxillaryServerMsg.window_fill_of_covers _ inside (by omega), split.first_eq_take,
    window_take, List.take_of_length_le]
  rw [window, List.length_take]
  omega

/-- Filling a message by a complete one. -/
theorem type_fill_whole (message : AuxillaryServerMsg) :
    ((initialMsg padding).fill message.bytes).type = message.type := by
  have bound := message.size
  rw [AuxillaryServerMsg.type, AuxillaryServerMsg.typeBytes,
    AuxillaryServerMsg.window_fill_of_covers _ (by decide) (by rw [bound]; decide)]
  rfl

/-- A segmentation does not matter to a command if the first segment reaches the end
of its type. -/
theorem observed_eq_of_long_first (split : Segmentation message.bytes) (interruptions : Nat)
    (long : 12 ≤ split.first.length) :
    observed (handleAuxillaryCommand padding (split.results interruptions) data) =
      observed (handleAuxillaryCommand padding [.received message.bytes] data) := by
  unfold handleAuxillaryCommand
  rw [receiveCommand_segments]
  refine observed_dispatch_congr ?_ ?_
  · exact congrArg decode (window_fill_first split (by decide) (by omega))
  · exact congrArg decode (window_fill_first split (by decide) (by omega))

/-- A shorter first segment makes the handler close the connection without a reply. -/
theorem observed_ne_of_short_first {op : AuxillaryOpType} (known : message.type = op.code)
    (split : Segmentation message.bytes) (interruptions : Nat)
    (short : split.first.length < 12) :
    observed (handleAuxillaryCommand padding (split.results interruptions) data) ≠
      observed (handleAuxillaryCommand padding [.received message.bytes] data) := by
  unfold handleAuxillaryCommand
  rw [receiveCommand_segments]
  intro same
  have silent : (observed (dispatch ((initialMsg padding).fill split.first) data)).2 = none :=
    dispatch_silent (type_unknown short)
  rw [same] at silent
  exact dispatch_replies ((type_fill_whole message).trans known) silent

/-- A command is handled as if it had arrived whole exactly if its first segment has
at least the twelve bytes up to the end of `type`. -/
theorem segmentation_irrelevant_iff (padding : Vector UInt8 4) (data : AuxillaryServerData)
    (message : AuxillaryServerMsg) (op : AuxillaryOpType) (known : message.type = op.code)
    (split : Segmentation message.bytes) (interruptions : Nat) :
    observed (handleAuxillaryCommand padding (split.results interruptions) data) =
        observed (handleAuxillaryCommand padding [.received message.bytes] data) ↔
      12 ≤ split.first.length := by
  constructor
  · intro same
    by_contra short
    exact observed_ne_of_short_first known split interruptions (not_le.mp short) same
  · exact observed_eq_of_long_first split interruptions

/-- A reset request with the value 0.0. -/
def resetRequest : AuxillaryServerMsg :=
  .make 0 AuxillaryOpType.opReset.code (Vector.replicate 4 0)

/-- The request cut in front of its padding. -/
def beforePadding : Segmentation resetRequest.bytes :=
  ⟨resetRequest.bytes.take 12, [resetRequest.bytes.drop 12], by decide, by decide⟩

/-- The request cut in front of its type. -/
def beforeType : Segmentation resetRequest.bytes :=
  ⟨resetRequest.bytes.take 8, [resetRequest.bytes.drop 8], by decide, by decide⟩

/-- A message cut in front of its padding. -/
theorem segmentation_irrelevant_beforePadding :
    observed (handleAuxillaryCommand (Vector.replicate 4 0) (beforePadding.results 1) ⟨0, 0⟩) =
        observed (handleAuxillaryCommand (Vector.replicate 4 0)
          [.received resetRequest.bytes] ⟨0, 0⟩) ↔
      12 ≤ beforePadding.first.length :=
  segmentation_irrelevant_iff _ _ resetRequest .opReset (by decide) beforePadding 1

/-- A reset which arrives in two halves is neither carried out nor acknowledged. -/
theorem segmentation_matters_beforeType :
    observed (handleAuxillaryCommand (Vector.replicate 4 0) (beforeType.results 0) ⟨0, 0⟩) ≠
      observed (handleAuxillaryCommand (Vector.replicate 4 0)
        [.received resetRequest.bytes] ⟨0, 0⟩) :=
  observed_ne_of_short_first (show resetRequest.type = AuxillaryOpType.opReset.code by decide)
    beforeType 0 (by decide)

end MotorStand
