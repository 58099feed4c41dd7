import MotorStand.Imperative.Exec
import MotorStand.Stream.Blocks

/-!
# Batches of samples

`push_batch` collects samples in one `output_batch` and sends the whole struct
when it is full. The buffer is reused without being cleared, so a datagram is
the struct as it is at the time, of which only the first `count` entries are
meant.
-/

namespace MotorStand

open Imperative Imperative.Exec BlockStream

/-- `BATCH_SIZE`. -/
def batchSize : Nat := 430

/-- `output_minimal`. -/
structure OutputMinimal where
  collectTime : Int
  rawValue : Int
deriving DecidableEq

/-- `output_batch`. -/
structure OutputBatch where
  count : Nat
  data : Vector OutputMinimal batchSize

/-- The entries a batch is meant to carry. -/
def OutputBatch.entries (batch : OutputBatch) : List OutputMinimal :=
  batch.data.toList.take batch.count

/-- What is written to the file of `-w`. -/
inductive FileRecord where
  | startFlag
  | sample (entry : OutputMinimal)
deriving DecidableEq

/-- What the server does to its surroundings: the datagrams it has handed to `sendto`, the
records it has handed to `write` for the file of `-w`, and its open descriptors. -/
structure World where
  sent : List OutputBatch
  file : List FileRecord
  descriptors : List Nat

/-- `sendto(sock,batch,sizeof(output_batch),...)`. What it returns is not looked at. -/
def sendto (batch : OutputBatch) : Exec World Unit := fun world =>
  .ok ((), { world with sent := world.sent ++ [batch] })

/-- `batch->data[index] = entry`. -/
def storeEntry (batch : OutputBatch) (index : Nat) (entry : OutputMinimal) :
    Exec World OutputBatch :=
  if inside : index < batchSize then
    return { batch with data := batch.data.set index entry inside }
  else fail .outOfBounds

/-- `push_batch`. The result is `*batch`. -/
def pushBatch (entry : OutputMinimal) (batch : OutputBatch) : Exec World OutputBatch := do
  let batch ← storeEntry batch batch.count entry
  let batch := { batch with count := batch.count + 1 }
  if batch.count = batchSize then do
    sendto batch
    return { batch with count := 0 }
  else return batch

/-- One call of `push_batch` after another. -/
def pushAll : List OutputMinimal → OutputBatch → Exec World OutputBatch
  | [], batch => return batch
  | entry :: rest, batch => do
      let batch ← pushBatch entry batch
      pushAll rest batch

/-! ## The buffer -/

variable {batch : OutputBatch} {world : World}

/-- An open batch has as many entries as it counts. -/
theorem entries_length (open_ : batch.count < batchSize) :
    batch.entries.length = batch.count := by
  rw [OutputBatch.entries, List.length_take, Vector.length_toList]
  omega

/-- The batch with one more entry. -/
def OutputBatch.stored (batch : OutputBatch) (entry : OutputMinimal)
    (inside : batch.count < batchSize) : OutputBatch :=
  { count := batch.count + 1, data := batch.data.set batch.count entry inside }

/-- Whatever the buffer held behind its entries, a store appends to them. -/
theorem entries_stored (entry : OutputMinimal) (inside : batch.count < batchSize) :
    (batch.stored entry inside).entries = batch.entries ++ [entry] := by
  have below : batch.count < (batch.data.toList.set batch.count entry).length := by
    rw [List.length_set, Vector.length_toList]
    exact inside
  simp only [OutputBatch.entries, OutputBatch.stored, Vector.toList_set]
  rw [List.take_succ_eq_append_getElem below, List.take_set_of_le (Nat.le_refl _),
    List.getElem_set_self]

/-- The entry which fills the batch sends it. -/
theorem pushBatch_sends (entry : OutputMinimal) (inside : batch.count < batchSize)
    (last : batch.count + 1 = batchSize) :
    pushBatch entry batch world = .ok ({ batch.stored entry inside with count := 0 },
      { world with sent := world.sent ++ [batch.stored entry inside] }) := by
  unfold pushBatch storeEntry
  rw [dif_pos inside, pure_bind, if_pos last]
  rfl

/-- A batch which is not full is kept. -/
theorem pushBatch_keeps (entry : OutputMinimal) (inside : batch.count < batchSize)
    (more : batch.count + 1 ≠ batchSize) :
    pushBatch entry batch world = .ok (batch.stored entry inside, world) := by
  unfold pushBatch storeEntry
  rw [dif_pos inside, pure_bind, if_neg more]
  rfl

/-- The batches sent since `before` and the open batch carry `stream`, cut every
`BATCH_SIZE` samples. -/
structure Carries (before : List OutputBatch) (stream : List OutputMinimal)
    (batch : OutputBatch) (world : World) (datagrams : List OutputBatch) : Prop where
  sent : world.sent = before ++ datagrams
  count : batch.count < batchSize
  full : ∀ datagram ∈ datagrams, datagram.count = batchSize
  cut : Cut batchSize (datagrams.map OutputBatch.entries) batch.entries stream

/-- An empty batch carries nothing, whatever its buffer holds. -/
theorem carries_start (empty : batch.count = 0) : Carries world.sent [] batch world [] := by
  refine ⟨by simp, by rw [empty]; decide, by simp, ?_⟩
  have none : batch.entries = [] := by rw [OutputBatch.entries, empty, List.take_zero]
  rw [none]
  exact .nil (by decide)

/-- One call of `push_batch` adds its entry to the stream and touches nothing but the
socket. -/
theorem pushBatch_ensures {before : List OutputBatch} {stream : List OutputMinimal}
    {datagrams : List OutputBatch} (carries : Carries before stream batch world datagrams)
    (entry : OutputMinimal) :
    (pushBatch entry batch).Ensures world fun next after =>
      (∃ datagrams, Carries before (stream ++ [entry]) next after datagrams) ∧
        after.file = world.file ∧ after.descriptors = world.descriptors := by
  obtain ⟨sent, inside, full, cut⟩ := carries
  have appended := entries_stored entry inside
  have length := entries_length inside
  by_cases last : batch.count + 1 = batchSize
  · refine .of_returns (pushBatch_sends entry inside last)
      ⟨⟨datagrams ++ [batch.stored entry inside], ?_, Nat.zero_lt_succ _, ?_, ?_⟩, rfl, rfl⟩
    · rw [sent, List.append_assoc]
    · intro datagram member
      rcases List.mem_append.mp member with earlier | new
      · exact full datagram earlier
      · rw [List.mem_singleton.mp new]
        exact last
    · rw [List.map_append, List.map_singleton, appended]
      exact cut.emit entry (by rw [length]; exact last)
  · refine .of_returns (pushBatch_keeps entry inside last)
      ⟨⟨datagrams, sent, ?_, full, ?_⟩, rfl, rfl⟩
    · change batch.count + 1 < batchSize
      omega
    · rw [appended]
      exact cut.keep entry (by rw [length]; omega)

/-- Any number of calls of `push_batch`. -/
theorem pushAll_ensures {before : List OutputBatch} (samples : List OutputMinimal)
    {stream : List OutputMinimal} {datagrams : List OutputBatch}
    (carries : Carries before stream batch world datagrams) :
    (pushAll samples batch).Ensures world fun last after =>
      ∃ datagrams, Carries before (stream ++ samples) last after datagrams := by
  induction samples generalizing batch world stream datagrams with
  | nil =>
      refine ensures_pure ⟨datagrams, ?_⟩
      rwa [List.append_nil]
  | cons entry rest ih =>
      apply (pushBatch_ensures carries entry).bind
      rintro next middle ⟨⟨grown, carries⟩, _⟩
      rw [List.append_cons]
      exact ih carries

end MotorStand
