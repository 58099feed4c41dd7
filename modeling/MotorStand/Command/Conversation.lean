import MotorStand.Command.Actor
import MotorStand.Command.Handler

/-!
# The actor and the handler on one connection

Each end reads once, so each acts on the first segment it gets. The request and the reply may
be cut anywhere, and either direction may end early.
-/

namespace MotorStand

open Bytes

/-- What a command is for. -/
def AuxillaryOpType.effect (op : AuxillaryOpType) (value : Nat) (data : AuxillaryServerData) :
    AuxillaryServerData :=
  match op with
  | .opReset => { data with reset := 1 }
  | .opTare => { data with tare := value }
  | .opAck => data

/-- The bytes a handler writes. -/
def replyBytes (reply : Option AuxillaryServerMsg) : List UInt8 :=
  (reply.map AuxillaryServerMsg.bytes).getD []

/-- A connection: the actor as `handle_auxillary_command` sees it and the handler as
`send_server_message` sees it. Each end gets a part of what the other one sends. -/
structure Connection (op : AuxillaryOpType) (value : Nat) where
  padding : Vector UInt8 4
  actor : Peer
  handler : Peer
  request : actor.sent <+: (request op value).bytes
  reply : ∀ data,
    handler.sent <+: replyBytes (handleAuxillaryCommand padding actor.results data).2

variable {op : AuxillaryOpType} {value : Nat} {data : AuxillaryServerData}

/-- The shared data after a connection, and what the actor reports. -/
def Connection.exchange (connection : Connection op value) (data : AuxillaryServerData) :
    AuxillaryServerData × Nat :=
  ((handleAuxillaryCommand connection.padding connection.actor.results data).1,
    sendServerMessage op value connection.handler)

/-- The first segment of the request reaches the end of its type. -/
def Connection.Arrives (connection : Connection op value) : Prop :=
  12 ≤ connection.actor.first.length

instance (connection : Connection op value) : Decidable connection.Arrives :=
  inferInstanceAs (Decidable (12 ≤ _))

/-! ## What the handler does -/

/-- A value of 64 bits is read from the message it was put into. -/
theorem value_make (type : Nat) (padding : Vector UInt8 4) (fits : value < 256 ^ 8) :
    (AuxillaryServerMsg.make value type padding).value = value := by
  have first : (encode 8 value).length = 8 := encode_length 8 value
  simp only [AuxillaryServerMsg.value, AuxillaryServerMsg.make, window, List.drop_zero,
    List.append_assoc]
  rw [List.take_left' first, decode_encode fits]

/-- A request has the type of its command. -/
theorem type_request (op : AuxillaryOpType) (value : Nat) : (request op value).type = op.code :=
  (AuxillaryServerMsg.type_eq_iff _ op).mpr (AuxillaryServerMsg.typeBytes_make ..)

/-- What arrives first is the beginning of the message. -/
theorem Peer.first_prefix (peer : Peer) : peer.first <+: peer.sent := by
  rw [Peer.first, Peer.sent]
  cases peer.segments with
  | nil => exact List.prefix_rfl
  | cons first rest => exact ⟨rest.flatten, rfl⟩

/-- A field which the first segment covers is the field of the message. -/
theorem window_first {peer : Peer} {message : List UInt8} (part : peer.sent <+: message)
    {offset width : Nat} (covers : offset + width ≤ peer.first.length) :
    window offset width peer.first = window offset width message := by
  rw [List.prefix_iff_eq_take.mp (peer.first_prefix.trans part), window_take, List.take_of_length_le]
  rw [window, List.length_take]
  omega

/-- Nothing at all leaves the message as it was, whether the stream ends or the read fails. -/
theorem receiveCommand_results (padding : Vector UInt8 4) (peer : Peer) :
    receiveCommand padding peer.results = (initialMsg padding).fill peer.first := by
  rw [receiveCommand]
  by_cases fails : peer.FailsAtOnce
  · rw [readRetrying_fails peer fails, Peer.first, fails.1]
    rfl
  · rw [readRetrying_results peer fails]

/-- A first segment which covers a field of the request brings it. -/
theorem window_received (connection : Connection op value) {offset width : Nat}
    (inside : offset + width ≤ sizeofMsg)
    (covers : offset + width ≤ connection.actor.first.length) :
    window offset width (receiveCommand connection.padding connection.actor.results).bytes =
      window offset width (request op value).bytes := by
  rw [receiveCommand_results, AuxillaryServerMsg.window_fill_of_covers _ inside covers,
    window_first connection.request covers]

/-- What arrives has the type which was asked for. -/
theorem type_received (connection : Connection op value) (arrives : connection.Arrives) :
    (receiveCommand connection.padding connection.actor.results).type = op.code :=
  (congrArg decode (window_received connection (by decide) arrives)).trans (type_request op value)

/-- What arrives has the value which was sent. -/
theorem value_received (connection : Connection op value) (fits : value < 256 ^ 8)
    (arrives : connection.Arrives) :
    (receiveCommand connection.padding connection.actor.results).value = value := by
  have covers : 8 ≤ connection.actor.first.length := le_trans (by decide) arrives
  exact (congrArg decode (window_received connection (by decide) covers)).trans (value_make _ _ fits)

/-- A shorter first segment is no command. -/
theorem type_not_received (connection : Connection op value) (short : ¬ connection.Arrives)
    (other : AuxillaryOpType) :
    (receiveCommand connection.padding connection.actor.results).type ≠ other.code := by
  rw [receiveCommand_results]
  exact type_unknown (not_le.mp short) other

/-- A known command has its effect and is answered. -/
theorem dispatch_known {msg : AuxillaryServerMsg} (type : msg.type = op.code) :
    dispatch msg data =
      (op.effect msg.value data, some (msg.setType AuxillaryOpType.opAck.code)) := by
  unfold dispatch
  rw [type]
  cases op <;> simp [AuxillaryOpType.code, AuxillaryOpType.effect]

/-- An unknown command changes nothing and gets no answer. -/
theorem dispatch_unknown {msg : AuxillaryServerMsg}
    (unknown : ∀ other : AuxillaryOpType, msg.type ≠ other.code) :
    dispatch msg data = (data, none) := by
  rw [dispatch, if_neg (unknown _), if_neg (unknown _), if_neg (unknown _)]

/-- The command takes effect as a whole or not at all. -/
theorem exchange_data (connection : Connection op value) (fits : value < 256 ^ 8)
    (data : AuxillaryServerData) :
    (connection.exchange data).1 =
      if connection.Arrives then op.effect value data else data := by
  rw [Connection.exchange, handleAuxillaryCommand]
  split
  next arrives =>
      rw [dispatch_known (type_received connection arrives),
        value_received connection fits arrives]
  next short => rw [dispatch_unknown (type_not_received connection short)]

/-! ## What the actor reports -/

/-- Without the command there is no reply. -/
theorem handler_silent (connection : Connection op value) (short : ¬ connection.Arrives) :
    connection.handler.first = [] := by
  have part := connection.reply ⟨0, 0⟩
  rw [handleAuxillaryCommand, dispatch_unknown (type_not_received connection short)] at part
  exact List.prefix_nil.mp (connection.handler.first_prefix.trans part)

/-- The type bytes of a reply are those of an acknowledgement. -/
theorem handler_acknowledges (connection : Connection op value) :
    window 8 4 connection.handler.first <+: encode 4 AuxillaryOpType.opAck.code := by
  by_cases arrives : connection.Arrives
  · have part := connection.reply ⟨0, 0⟩
    rw [handleAuxillaryCommand, dispatch_known (type_received connection arrives)] at part
    have reply := AuxillaryServerMsg.typeBytes_setType
      (receiveCommand connection.padding connection.actor.results) AuxillaryOpType.opAck.code
    rw [← reply, List.prefix_iff_eq_take.mp (connection.handler.first_prefix.trans part),
      window_take]
    exact List.take_prefix _ _
  · rw [handler_silent connection arrives]
    exact List.nil_prefix

/-- The actor reports a success exactly if no call fails and the reply reaches its type, which
is not asked of a ping. -/
theorem exchange_reports (connection : Connection op value) (data : AuxillaryServerData) :
    (connection.exchange data).2 = 1 ↔
      connection.handler.writeFails = false ∧ ¬ connection.handler.FailsAtOnce ∧
        (op = .opAck ∨ 8 < connection.handler.first.length) := by
  have acknowledges := handler_acknowledges connection
  have long : 8 < connection.handler.first.length ↔ ¬ connection.handler.first.length ≤ 8 :=
    not_le.symm
  rw [Connection.exchange, sendServerMessage_eq_one_iff, fill_type_iff, long]
  tauto

/-- A command which is reported to have succeeded has taken effect. -/
theorem arrives_of_reports (connection : Connection op value) (command : op ≠ .opAck)
    (reports : (connection.exchange data).2 = 1) : connection.Arrives := by
  by_contra short
  obtain ⟨_, _, ping | long⟩ := (exchange_reports connection data).mp reports
  · exact command ping
  · rw [handler_silent connection short] at long
    exact absurd long (by decide)

/-- Both ends of a connection, in terms of the first segments which arrive. -/
structure Concludes (connection : Connection op value) (data : AuxillaryServerData) : Prop where
  effect : (connection.exchange data).1 =
    if connection.Arrives then op.effect value data else data
  report : (connection.exchange data).2 = 1 ↔
    connection.handler.writeFails = false ∧ ¬ connection.handler.FailsAtOnce ∧
      (op = .opAck ∨ 8 < connection.handler.first.length)
  honest : op ≠ .opAck → (connection.exchange data).2 = 1 →
    (connection.exchange data).1 = op.effect value data

/-- However request and reply are cut, and wherever they end. -/
theorem connection_concludes (connection : Connection op value) (fits : value < 256 ^ 8)
    (data : AuxillaryServerData) : Concludes connection data where
  effect := exchange_data connection fits data
  report := exchange_reports connection data
  honest command reports := by
    rw [exchange_data connection fits data, if_pos (arrives_of_reports connection command reports)]

/-! ## Trying again -/

/-- A command which is carried out twice has the effect of one. -/
theorem effect_effect (op : AuxillaryOpType) (value : Nat) (data : AuxillaryServerData) :
    op.effect value (op.effect value data) = op.effect value data := by
  cases op <;> rfl

/-- The command is sent on one connection after the other: the shared data afterwards, and
whether any of the attempts was reported to have succeeded. -/
def attempts (connections : List (Connection op value)) (data : AuxillaryServerData) :
    AuxillaryServerData × Bool :=
  connections.foldl (fun before connection =>
    ((connection.exchange before.1).1,
      before.2 || decide ((connection.exchange before.1).2 = 1))) (data, false)

/-- The last connection works on what the others left. -/
theorem attempts_concat (connections : List (Connection op value))
    (connection : Connection op value) (data : AuxillaryServerData) :
    attempts (connections ++ [connection]) data =
      ((connection.exchange (attempts connections data).1).1, (attempts connections data).2 ||
        decide ((connection.exchange (attempts connections data).1).2 = 1)) := by
  rw [attempts, List.foldl_append]
  rfl

/-- Any number of attempts have the effect of one, or none if none arrives. -/
theorem attempts_data (connections : List (Connection op value)) (fits : value < 256 ^ 8)
    (data : AuxillaryServerData) :
    (attempts connections data).1 =
      if ∃ connection ∈ connections, connection.Arrives then op.effect value data else data := by
  induction connections using List.reverseRecOn with
  | nil => simp [attempts]
  | append_singleton connections connection ih =>
      rw [attempts_concat, exchange_data connection fits, ih]
      by_cases last : connection.Arrives
      · have some : ∃ other ∈ connections ++ [connection], other.Arrives :=
          ⟨connection, List.mem_append_right _ (List.mem_singleton_self _), last⟩
        rw [if_pos last, if_pos some]
        split
        · exact effect_effect op value data
        · rfl
      · have same : (∃ other ∈ connections ++ [connection], other.Arrives) ↔
            ∃ other ∈ connections, other.Arrives := by
          simp [or_and_right, exists_or, last]
        rw [if_neg last]
        simp only [same]

/-- A success is reported by an attempt which arrived. -/
theorem attempts_arrived (connections : List (Connection op value)) (command : op ≠ .opAck)
    (data : AuxillaryServerData) (reported : (attempts connections data).2 = true) :
    ∃ connection ∈ connections, connection.Arrives := by
  induction connections using List.reverseRecOn with
  | nil => cases reported
  | append_singleton connections connection ih =>
      rw [attempts_concat, Bool.or_eq_true, decide_eq_true_iff] at reported
      rcases reported with earlier | last
      · obtain ⟨other, member, arrives⟩ := ih earlier
        exact ⟨other, List.mem_append_left _ member, arrives⟩
      · exact ⟨connection, List.mem_append_right _ (List.mem_singleton_self _),
          arrives_of_reports connection command last⟩

/-- Trying until a success is reported is safe: whatever was lost on the way, the command has
then taken effect exactly as it would have on its own. -/
theorem attempts_effective (connections : List (Connection op value)) (fits : value < 256 ^ 8)
    (command : op ≠ .opAck) (data : AuxillaryServerData)
    (reported : (attempts connections data).2 = true) :
    (attempts connections data).1 = op.effect value data := by
  rw [attempts_data connections fits data,
    if_pos (attempts_arrived connections command data reported)]

/-- A tare of which only the value arrives. -/
def lostTare : Connection .opTare 5 where
  padding := .replicate 4 0
  actor := ⟨false, 0, [(request .opTare 5).bytes.take 8], by decide, false⟩
  handler := ⟨false, 0, [], (fun _ none => nomatch none), true⟩
  request := by decide
  reply _ := List.nil_prefix

/-- The reply which the handler writes to a tare. -/
def tareReply : List UInt8 := encode 8 5 ++ encode 4 AuxillaryOpType.opAck.code ++ [0, 0, 0, 0]

/-- A tare which arrives in front of its padding. -/
def cutRequest : Peer := ⟨false, 1, [(request .opTare 5).bytes.take 12], by decide, false⟩

/-- It is answered by a reply which is cut inside its type. -/
def cutTare : Connection .opTare 5 where
  padding := .replicate 4 0
  actor := cutRequest
  handler := ⟨false, 1, [tareReply.take 9, tareReply.drop 9], by decide, false⟩
  request := by decide
  reply data := by
    have type : (receiveCommand (.replicate 4 0) cutRequest.results).type =
      AuxillaryOpType.opTare.code := by decide
    have written : ((receiveCommand (.replicate 4 0) cutRequest.results).setType
      AuxillaryOpType.opAck.code).bytes = tareReply := by decide
    rw [handleAuxillaryCommand, dispatch_known type, replyBytes, Option.map_some, written]
    exact List.prefix_rfl

/-- Neither cut keeps the exchange from its end. -/
theorem connection_concludes_cutTare : Concludes cutTare ⟨0, 1⟩ :=
  connection_concludes cutTare (by decide) ⟨0, 1⟩

/-- The first attempt is lost, the second one is reported. -/
theorem attempts_effective_lostTare : (attempts [lostTare, cutTare] ⟨0, 1⟩).1 = ⟨5, 1⟩ :=
  attempts_effective [lostTare, cutTare] (by decide) (by decide) ⟨0, 1⟩ (by decide)

end MotorStand
