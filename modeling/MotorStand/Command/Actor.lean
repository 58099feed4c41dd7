import MotorStand.Command.Message

/-!
# `send_server_message`

The actor builds its request in the struct it then reads the reply into. A short
read leaves bytes of the request behind, and only a read error is checked for.
-/

namespace MotorStand

open Bytes

/-- What the peer does once the connection is made: how the write ends, what it sends
(in the segments `read` returns), and whether the stream ends in a read error or is
closed. -/
structure Peer where
  writeFails : Bool
  interruptions : Nat
  segments : List (List UInt8)
  nonempty : ∀ segment ∈ segments, segment ≠ []
  readFails : Bool

/-- All bytes the peer sends. -/
def Peer.sent (peer : Peer) : List UInt8 := peer.segments.flatten

/-- The results of the `read` calls of the actor. -/
def Peer.results (peer : Peer) : List ReadResult :=
  List.replicate peer.interruptions .interrupted ++ peer.segments.map .received ++
    if peer.readFails then [.failed] else []

/-- The peer sent a complete message of type `OP_ACK`. -/
def Peer.Acknowledges (peer : Peer) : Prop :=
  ∃ reply : AuxillaryServerMsg, reply.bytes <+: peer.sent ∧
    reply.type = AuxillaryOpType.opAck.code

/-- The request, built over the bytes `bzero` has cleared. -/
def request (op : AuxillaryOpType) (value : Nat) : AuxillaryServerMsg :=
  .make value op.code (Vector.replicate 4 0)

/-- `send_server_message` after `connect` has succeeded. -/
def sendServerMessage (op : AuxillaryOpType) (value : Nat) (peer : Peer) : Nat :=
  let msg := request op value
  if peer.writeFails then 0
  else
    match readRetrying peer.results with
    | .interrupted | .failed => 0
    | .received bytes =>
        if (msg.fill bytes).type ≠ AuxillaryOpType.opAck.code then 0 else 1

/-! ## The outcome -/

variable {op : AuxillaryOpType} {value : Nat} {peer : Peer}

/-- The bytes of the first segment; none if the peer closes at once. -/
def Peer.first (peer : Peer) : List UInt8 := peer.segments.headD []

/-- Nothing arrives and the read fails. -/
def Peer.FailsAtOnce (peer : Peer) : Prop := peer.segments = [] ∧ peer.readFails = true

/-- What arrives first is read, however often the read is interrupted. -/
theorem readRetrying_results (peer : Peer) (arrives : ¬ peer.FailsAtOnce) :
    readRetrying peer.results = .received peer.first := by
  rw [Peer.results, List.append_assoc, readRetrying_replicate, Peer.first]
  cases segments : peer.segments with
  | cons first rest => rfl
  | nil =>
      have closed : peer.readFails = false := by
        by_contra failing
        exact arrives ⟨segments, by simpa using failing⟩
      rw [closed]
      rfl

/-- A connection which breaks at once is read as a failure. -/
theorem readRetrying_fails (peer : Peer) (fails : peer.FailsAtOnce) :
    readRetrying peer.results = .failed := by
  rw [Peer.results, List.append_assoc, readRetrying_replicate, fails.1, fails.2]
  rfl

/-- The actor reports success exactly if no call fails and its buffer then has the
type `OP_ACK`. -/
theorem sendServerMessage_eq_one_iff :
    sendServerMessage op value peer = 1 ↔ peer.writeFails = false ∧ ¬ peer.FailsAtOnce ∧
      ((request op value).fill peer.first).type = AuxillaryOpType.opAck.code := by
  unfold sendServerMessage
  by_cases fails : peer.FailsAtOnce
  · rw [readRetrying_fails peer fails]
    simp [fails]
  · rw [readRetrying_results peer fails]
    cases peer.writeFails <;> simp [fails]

/-- Behind the first byte of the type all three commands have the same bytes. -/
theorem drop_typeBytes (op : AuxillaryOpType) {count : Nat} (some : 0 < count) :
    (encode 4 op.code).drop count = (encode 4 AuxillaryOpType.opAck.code).drop count := by
  obtain ⟨fewer, rfl⟩ := Nat.exists_eq_succ_of_ne_zero some.ne'
  cases op <;> rfl

/-- The buffer has the type `OP_ACK` exactly if the read stops short of the type and
the request was an acknowledgement, or the type bytes which arrived begin one. -/
theorem fill_type_iff (first : List UInt8) :
    ((request op value).fill first).type = AuxillaryOpType.opAck.code ↔
      (first.length ≤ 8 ∧ op = .opAck) ∨
        (8 < first.length ∧ window 8 4 first <+: encode 4 AuxillaryOpType.opAck.code) := by
  rw [AuxillaryServerMsg.type_eq_iff, AuxillaryServerMsg.typeBytes_fill, request,
    AuxillaryServerMsg.typeBytes_make]
  have bounded : (window 8 4 first).length ≤ 4 := by
    rw [window, List.length_take]
    exact Nat.min_le_left _ _
  by_cases short : first.length ≤ 8
  · have none : window 8 4 first = [] := by
      rw [window, List.drop_eq_nil_of_le short, List.take_nil]
    have long : ¬ 8 < first.length := not_lt.mpr short
    rw [none, overlay_nil]
    simp only [short, long, true_and, false_and, or_false]
    cases op <;> decide
  · have long : 8 < first.length := not_le.mp short
    have some : 0 < (window 8 4 first).length := by
      rw [window, List.length_take, List.length_drop]
      omega
    rw [overlay, drop_typeBytes op some]
    simp only [short, long, true_and, false_and, false_or]
    constructor
    · intro same
      exact ⟨_, same⟩
    · rintro ⟨rest, same⟩
      rw [← same, List.drop_left]

/-- The actor does not report a success that was not acknowledged. -/
def Honest (op : AuxillaryOpType) (value : Nat) (peer : Peer) : Prop :=
  sendServerMessage op value peer = 1 → peer.Acknowledges

/-- The actor is honest exactly if a call fails, or an acknowledgement was sent, or
what arrived at first tells otherwise: it stops short of the type and the request was
none itself, or it reaches the type with bytes which do not begin an `OP_ACK`. -/
theorem honest_iff (op : AuxillaryOpType) (value : Nat) (peer : Peer) :
    Honest op value peer ↔
      peer.writeFails = true ∨ peer.FailsAtOnce ∨ peer.Acknowledges ∨
        (peer.first.length ≤ 8 ∧ op ≠ .opAck) ∨
        (8 < peer.first.length ∧
          ¬ window 8 4 peer.first <+: encode 4 AuxillaryOpType.opAck.code) := by
  rw [Honest, sendServerMessage_eq_one_iff, fill_type_iff]
  have written : peer.writeFails = false ↔ ¬ peer.writeFails = true := by simp
  have long : 8 < peer.first.length ↔ ¬ peer.first.length ≤ 8 := not_le.symm
  rw [written, long]
  tauto

/-- A peer which accepts the connection and closes it without a byte. -/
def silentPeer : Peer := ⟨false, 0, [], by simp, false⟩

/-- A ping of such a peer is reported as answered. -/
theorem not_honest_silentPeer : ¬ Honest .opAck 0 silentPeer := by
  intro honest
  have success : sendServerMessage .opAck 0 silentPeer = 1 := by decide
  obtain ⟨reply, before, _⟩ := honest success
  have length := before.length_le
  rw [reply.size] at length
  exact absurd length (by decide)

end MotorStand
