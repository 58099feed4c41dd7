import MotorStand.Server.Sampling

/-!
# The client worker and the logger

`run_load_cell_cli_worker` receives into one buffer and calls back after every
`recvfrom`; the logger's callback writes one row per entry of a batch.
-/

namespace MotorStand

open Imperative Imperative.Exec BlockStream

/-- A row of the log file. -/
structure LogRow where
  collectTime : Int
  rawValue : Int
  value : ℚ
  tareValue : ℚ
deriving DecidableEq

/-- The conversion constants of `logger_data`. -/
structure LoggerData where
  m : ℚ
  b : ℚ

/-- How `recvfrom` leaves the buffer: filled by a whole datagram, its beginning
overwritten by a shorter one, or unchanged by an error. -/
inductive Received where
  | whole (datagram : OutputBatch)
  | short (overwrite : OutputBatch → OutputBatch)
  | failed

/-- The buffer after `recvfrom`. -/
def Received.buffer (message : OutputBatch) : Received → OutputBatch
  | .whole datagram => datagram
  | .short overwrite => overwrite message
  | .failed => message

/-- `run_load_cell_cli_worker` over the outcomes of its `recvfrom` calls. -/
def runLoadCellCliWorker {σ : Type} (callback : OutputBatch → Exec σ Unit) :
    OutputBatch → List Received → Exec σ Unit
  | _, [] => return ()
  | message, outcome :: rest => do
      callback (outcome.buffer message)
      runLoadCellCliWorker callback (outcome.buffer message) rest

/-- `&batch->data[index]`. -/
def entryAt {σ : Type} (batch : OutputBatch) (index : Nat) : Exec σ OutputMinimal :=
  if inside : index < batchSize then return batch.data[index] else fail .outOfBounds

/-- The row the logger prints for an entry. -/
def logRow (lData : LoggerData) (min : OutputMinimal) : LogRow :=
  let value := lData.m * fullScale min.rawValue + lData.b
  ⟨min.collectTime, min.rawValue, value, 0⟩

/-- `write_callback_batch`. The store is the log file; the index is an `int`. -/
def writeCallbackBatch (lData : LoggerData) (batch : OutputBatch) : Exec (List LogRow) Unit :=
  forInt batch.count () fun i _ => do
    let min ← entryAt batch i
    modify fun rows => rows ++ [logRow lData min]

/-! ## What the logger writes -/

variable {lData : LoggerData} {batch : OutputBatch} {rows : List LogRow}

section Entries

variable {σ : Type} (write : OutputMinimal → σ → σ)

/-- What is left of the store when entries are written to it one after another. -/
def writeEntries (entries : List OutputMinimal) (store : σ) : σ :=
  entries.foldl (fun store entry => write entry store) store

/-- The body of a callback: one entry is written. -/
def writeEntry (batch : OutputBatch) (i : Nat) : Exec σ Unit := do
  let min ← entryAt batch i
  modify (write min)

/-- An iteration of the loop writes its entry behind the earlier ones. -/
theorem writeEntry_ensures (store : σ) {i : Nat} (inside : i < batchSize) :
    (writeEntry write batch i).Ensures (writeEntries write (batch.data.toList.take i) store)
      fun _ after => after = writeEntries write (batch.data.toList.take (i + 1)) store := by
  have listed : i < batch.data.toList.length := by rwa [Vector.length_toList]
  have entry : (entryAt batch i : Exec σ _) = pure batch.data[i] := by
    rw [entryAt, dif_pos inside]
  rw [writeEntry, entry, pure_bind]
  apply Ensures.of_returns rfl
  rw [List.take_succ_eq_append_getElem listed, writeEntries, writeEntries, List.foldl_append]
  rfl

/-- Every entry of a batch is written, in order. -/
theorem writeBatch_ensures (bounded : batch.count ≤ batchSize) (store : σ) :
    (forInt batch.count () fun i _ => writeEntry write batch i).Ensures store fun _ after =>
      after = writeEntries write batch.entries store := by
  have fits : batch.count ≤ intMax := bounded.trans (by decide)
  apply forInt_ensures (fun i _ written =>
    written = writeEntries write (batch.data.toList.take i) store) fits (by simp [writeEntries])
  rintro i _ _ below rfl
  exact writeEntry_ensures write store (Nat.lt_of_lt_of_le below bounded)

/-- A worker whose callback writes every entry writes those of all datagrams. -/
theorem workerWrites_ensures {callback : OutputBatch → Exec σ Unit}
    (writes : ∀ batch : OutputBatch, batch.count ≤ batchSize → ∀ store,
      (callback batch).Ensures store fun _ after => after = writeEntries write batch.entries store)
    (deliveries : List OutputBatch)
    (bounded : ∀ datagram ∈ deliveries, datagram.count ≤ batchSize) (message : OutputBatch)
    (store : σ) :
    (runLoadCellCliWorker callback message (deliveries.map Received.whole)).Ensures store
      fun _ after => after = writeEntries write (deliveries.flatMap OutputBatch.entries) store := by
  induction deliveries generalizing message store with
  | nil => exact ensures_pure rfl
  | cons datagram rest ih =>
      apply (writes datagram (bounded datagram List.mem_cons_self) store).bind
      rintro _ _ rfl
      apply (ih (fun other member => bounded other (List.mem_cons_of_mem _ member)) datagram _).imp
      rintro _ after rfl
      rw [List.flatMap_cons, writeEntries, writeEntries, writeEntries, List.foldl_append]

end Entries

/-- Entries which become rows. -/
theorem writeEntries_rows (lData : LoggerData) (entries : List OutputMinimal)
    (rows : List LogRow) :
    writeEntries (fun entry rows => rows ++ [logRow lData entry]) entries rows =
      rows ++ entries.map (logRow lData) := by
  induction entries generalizing rows with
  | nil => exact (List.append_nil rows).symm
  | cons entry rest ih =>
      have written := ih (rows ++ [logRow lData entry])
      rwa [List.append_assoc] at written

/-- One row per entry, in order. -/
theorem writeCallbackBatch_ensures (lData : LoggerData) (bounded : batch.count ≤ batchSize)
    (rows : List LogRow) :
    (writeCallbackBatch lData batch).Ensures rows fun _ after =>
      after = rows ++ batch.entries.map (logRow lData) := by
  rw [← writeEntries_rows]
  exact writeBatch_ensures _ bounded rows

/-- A batch which counts more entries than it has room for is read past its end. -/
theorem writeCallbackBatch_overruns (lData : LoggerData) (overlong : batchSize < batch.count)
    (rows : List LogRow) : writeCallbackBatch lData batch rows = .error .outOfBounds := by
  apply forInt_fails (fun i _ written => written = writeEntries
    (fun entry rows => rows ++ [logRow lData entry]) (batch.data.toList.take i) rows) overlong
    (by decide) (by simp [writeEntries])
  · rintro i _ _ below rfl
    exact writeEntry_ensures _ rows below
  · intro _ written _
    apply bind_of_fails
    rw [entryAt, dif_neg (Nat.lt_irrefl _)]
    rfl

/-- Whole datagrams are logged as they arrive. -/
theorem worker_ensures (lData : LoggerData) (deliveries : List OutputBatch)
    (bounded : ∀ datagram ∈ deliveries, datagram.count ≤ batchSize) (message : OutputBatch)
    (rows : List LogRow) :
    (runLoadCellCliWorker (writeCallbackBatch lData) message
      (deliveries.map Received.whole)).Ensures rows fun _ after =>
        after = rows ++ deliveries.flatMap fun datagram => datagram.entries.map (logRow lData) := by
  rw [← List.map_flatMap, ← writeEntries_rows]
  exact workerWrites_ensures _ (fun _ bounded store => writeBatch_ensures _ bounded store)
    deliveries bounded message rows

/-! ## What a datagram can do to the logger -/

/-- The datagram is received and logged without reading past the batch and without
overflowing the index, whatever the buffer and the log hold. -/
def SafeToLog (lData : LoggerData) (datagram : OutputBatch) : Prop :=
  ∀ message rows, (runLoadCellCliWorker (writeCallbackBatch lData) message
    [.whole datagram]).Ensures rows fun _ _ => True

/-- The worker hands such a batch on. -/
theorem worker_overruns (lData : LoggerData) (overlong : batchSize < batch.count)
    (message : OutputBatch) (rows : List LogRow) :
    runLoadCellCliWorker (writeCallbackBatch lData) message [.whole batch] rows =
      .error .outOfBounds :=
  bind_of_fails (writeCallbackBatch_overruns lData overlong rows)

/-- The bound of the loop is the count of the sender. -/
theorem safeToLog_iff (lData : LoggerData) (datagram : OutputBatch) :
    SafeToLog lData datagram ↔ datagram.count ≤ batchSize := by
  constructor
  · intro safe
    apply Nat.le_of_not_lt
    intro overlong
    obtain ⟨value, after, run, _⟩ := safe datagram []
    rw [worker_overruns lData overlong] at run
    cases run
  · intro bounded message rows
    have logged := worker_ensures lData [datagram] (by simpa using bounded) message rows
    exact logged.imp fun _ _ _ => trivial

/-- A datagram which counts one entry more than there are. -/
def overlongBatch : OutputBatch := ⟨batchSize + 1, .replicate batchSize ⟨0, 0⟩⟩

/-- One entry more than a batch holds is not safe. -/
theorem not_safeToLog_overlongBatch : ¬ SafeToLog ⟨1, 0⟩ overlongBatch := by
  intro safe
  obtain ⟨value, after, run, _⟩ := safe overlongBatch []
  rw [worker_overruns _ (Nat.lt_succ_self batchSize)] at run
  cases run

/-! ## What the callback sees -/

/-- The outcome is a datagram of the full size. -/
def Received.IsWhole : Received → Prop
  | .whole _ => True
  | .short _ | .failed => False

/-- The datagrams of the full size, in order. -/
def wholeDatagrams : List Received → List OutputBatch
  | [] => []
  | .whole datagram :: rest => datagram :: wholeDatagrams rest
  | .short _ :: rest | .failed :: rest => wholeDatagrams rest

/-- A callback which records what it is given. -/
def recordCallback (batch : OutputBatch) : Exec (List OutputBatch) Unit :=
  modify fun seen => seen ++ [batch]

/-- What the buffer holds at each call of the callback. -/
def buffers (message : OutputBatch) : List Received → List OutputBatch
  | [] => []
  | outcome :: rest => outcome.buffer message :: buffers (outcome.buffer message) rest

/-- The worker, started with any contents of its buffer, calls back with the datagrams
of the full size and with nothing else. -/
def SeesReceived (message : OutputBatch) (outcomes : List Received) : Prop :=
  (runLoadCellCliWorker recordCallback message outcomes).Ensures [] fun _ seen =>
    seen = wholeDatagrams outcomes

/-- The callback is called after every `recvfrom`, whatever that returned. -/
theorem worker_returns (message : OutputBatch) (outcomes : List Received)
    (seen : List OutputBatch) :
    runLoadCellCliWorker recordCallback message outcomes seen =
      .ok ((), seen ++ buffers message outcomes) := by
  induction outcomes generalizing message seen with
  | nil =>
      rw [buffers, List.append_nil]
      rfl
  | cons outcome rest ih =>
      have called : recordCallback (outcome.buffer message) seen =
          .ok ((), seen ++ [outcome.buffer message]) := rfl
      rw [runLoadCellCliWorker, bind_of_returns called, ih, buffers, List.append_assoc]
      rfl

/-- There is one call for each `recvfrom`. -/
theorem buffers_length (message : OutputBatch) (outcomes : List Received) :
    (buffers message outcomes).length = outcomes.length := by
  induction outcomes generalizing message with
  | nil => rfl
  | cons outcome rest ih => rw [buffers, List.length_cons, ih, List.length_cons]

/-- There are no more datagrams than calls. -/
theorem wholeDatagrams_length_le (outcomes : List Received) :
    (wholeDatagrams outcomes).length ≤ outcomes.length := by
  induction outcomes with
  | nil => exact Nat.le_refl _
  | cons outcome rest ih => cases outcome <;> simp only [wholeDatagrams, List.length_cons] <;> omega

/-- The buffers are the datagrams exactly if every call brings one. -/
theorem buffers_eq_iff (message : OutputBatch) (outcomes : List Received) :
    buffers message outcomes = wholeDatagrams outcomes ↔ ∀ outcome ∈ outcomes, outcome.IsWhole := by
  induction outcomes generalizing message with
  | nil => simp [buffers, wholeDatagrams]
  | cons outcome rest ih =>
      -- a call without a datagram leaves one buffer too many
      have tooMany : buffers message (outcome :: rest) ≠ wholeDatagrams rest := by
        intro same
        have lengths := congrArg List.length same
        rw [buffers_length, List.length_cons] at lengths
        have short := wholeDatagrams_length_le rest
        omega
      cases outcome with
      | whole datagram => simp [buffers, wholeDatagrams, Received.buffer, Received.IsWhole, ih]
      | short overwrite => simpa [wholeDatagrams, Received.IsWhole] using tooMany
      | failed => simpa [wholeDatagrams, Received.IsWhole] using tooMany

/-- The result of `recvfrom` is not looked at, so the callback sees exactly the received
datagrams when every call brings one. -/
theorem seesReceived_iff (message : OutputBatch) (outcomes : List Received) :
    SeesReceived message outcomes ↔ ∀ outcome ∈ outcomes, outcome.IsWhole := by
  rw [← buffers_eq_iff message outcomes]
  constructor
  · rintro ⟨_, seen, run, delivered⟩
    rw [worker_returns] at run
    cases run
    simpa using delivered
  · intro same
    apply Ensures.of_returns (worker_returns message outcomes [])
    simpa using same

/-- A failed `recvfrom` shows the buffer as it was. -/
theorem not_seesReceived_failedFirst : ¬ SeesReceived clearedBatch [.failed] := by
  rintro ⟨_, seen, run, delivered⟩
  rw [worker_returns] at run
  cases run
  cases delivered

/-! ## From the server to the log -/

/-- The row for a sample with the value the sampling loop computes for it. -/
def serverRow (multiplierM multiplierB : ℚ) (sample : OutputMinimal) : LogRow :=
  ⟨sample.collectTime, sample.rawValue, sampleValue multiplierM multiplierB sample.rawValue, 0⟩

/-- The two conversion formulas agree. -/
theorem logRow_eq_serverRow (multiplierM multiplierB : ℚ) :
    logRow ⟨multiplierM, multiplierB⟩ = serverRow multiplierM multiplierB := by
  funext sample
  simp only [logRow, serverRow, sampleValue, mul_comm]

/-- The value in the row of a round's sample is the one the round computed. -/
theorem serverRow_value (multiplierM multiplierB : ℚ) (round : Round) :
    (serverRow multiplierM multiplierB (outputData multiplierM multiplierB round).minimal).value =
      (outputData multiplierM multiplierB round).value := rfl

/-- What becomes of a stream of samples: the full batches have been sent, the rest is
in the open batch, and every delivery of sent batches is logged entry by entry with
the server's values. -/
structure Pipeline (multiplierM multiplierB : ℚ) (samples : List OutputMinimal)
    (datagrams : List OutputBatch) (last : OutputBatch) : Prop where
  number : datagrams.length = samples.length / batchSize
  full : ∀ datagram ∈ datagrams, datagram.count = batchSize
  sent : datagrams.flatMap OutputBatch.entries =
    samples.take (batchSize * (samples.length / batchSize))
  count : last.count = samples.length % batchSize
  pending : last.entries = samples.drop (batchSize * (samples.length / batchSize))
  logged : ∀ (deliveries : List OutputBatch) (message : OutputBatch) (rows : List LogRow),
    (∀ datagram ∈ deliveries, datagram ∈ datagrams) →
    (runLoadCellCliWorker (writeCallbackBatch ⟨multiplierM, multiplierB⟩) message
      (deliveries.map Received.whole)).Ensures rows fun _ after =>
        after = rows ++ deliveries.flatMap fun datagram =>
          datagram.entries.map (serverRow multiplierM multiplierB)

/-- What the batches carry goes through the pipeline. -/
theorem pipeline_of_carries (multiplierM multiplierB : ℚ) {samples : List OutputMinimal}
    {before datagrams : List OutputBatch} {last : OutputBatch} {world : World}
    (carries : Carries before samples last world datagrams) :
    Pipeline multiplierM multiplierB samples datagrams last := by
  obtain ⟨_, inside, full, cut⟩ := carries
  have number := cut.count
  have sent := cut.flatten_eq_take
  have count := cut.rest_length
  rw [entries_length inside] at count
  rw [List.length_map] at number
  rw [← List.flatMap_def] at sent
  refine ⟨number, full, sent, count, cut.rest_eq_drop, ?_⟩
  intro deliveries message rows members
  rw [← logRow_eq_serverRow]
  refine worker_ensures _ deliveries (fun datagram member => ?_) message rows
  exact Nat.le_of_eq (full datagram (members datagram member))

/-- From `push_batch` to the log file nothing is lost, duplicated or reordered: after
every initial part of the samples the open batch has room, the datagrams carry the
full batches in order, and any delivery of them is logged with the server's values. -/
theorem pushAll_pipeline (multiplierM multiplierB : ℚ) (samples : List OutputMinimal)
    (start : OutputBatch) (empty : start.count = 0) (world : World) :
    (∀ earlier, earlier <+: samples →
      (pushAll earlier start).Ensures world fun between _ => between.count < batchSize) ∧
    ((pushAll samples start).Ensures world fun last after =>
      ∃ datagrams, after.sent = world.sent ++ datagrams ∧
        Pipeline multiplierM multiplierB samples datagrams last) ∧
    ∀ round, (serverRow multiplierM multiplierB
        (outputData multiplierM multiplierB round).minimal).value =
      (outputData multiplierM multiplierB round).value := by
  refine ⟨?_, ?_, serverRow_value multiplierM multiplierB⟩
  · intro earlier _
    apply (pushAll_ensures earlier (carries_start empty)).imp
    rintro between after ⟨datagrams, carries⟩
    exact carries.count
  · apply (pushAll_ensures samples (carries_start empty)).imp
    rintro last after ⟨datagrams, carries⟩
    exact ⟨datagrams, carries.sent, pipeline_of_carries multiplierM multiplierB carries⟩

/-- One sample more than a batch holds. -/
def batchAndOne : List OutputMinimal :=
  (List.range (batchSize + 1)).map fun i => ⟨i, 10 * i⟩

/-- A full batch is sent and one sample waits. -/
theorem pushAll_pipeline_batchAndOne :
    (∀ earlier, earlier <+: batchAndOne →
      (pushAll earlier clearedBatch).Ensures ⟨[], [], []⟩ fun between _ =>
        between.count < batchSize) ∧
    ((pushAll batchAndOne clearedBatch).Ensures ⟨[], [], []⟩ fun last after =>
      ∃ datagrams, after.sent = [] ++ datagrams ∧ Pipeline 2 1 batchAndOne datagrams last) ∧
    ∀ round, (serverRow 2 1 (outputData 2 1 round).minimal).value = (outputData 2 1 round).value :=
  pushAll_pipeline 2 1 batchAndOne clearedBatch rfl ⟨[], [], []⟩

end MotorStand
