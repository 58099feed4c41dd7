import MotorStand.Server.Batch
import MotorStand.Calibration.Routes

/-!
# The sampling loop of `load_cell_serv`

One round reads the ADC and the clock and hands the sample to the two output
paths: the open batch and, with `-w`, the file. What the handlers of the
auxiliary server do to `tare` in between is an input of the round.
-/

namespace MotorStand

open Imperative Imperative.Exec BlockStream

/-- What one round of the loop reads. -/
structure Round where
  nextRaw : Int
  tvSec : Int
  tvNsec : Int
  tare : ℚ

/-- `output_data`. -/
structure OutputData where
  minimal : OutputMinimal
  collectTimeSec : Int
  collectTimeNsec : Int
  value : ℚ
  valueTare : ℚ

/-- The struct `o` of one round. -/
def outputData (multiplierM multiplierB : ℚ) (round : Round) : OutputData :=
  let next := sampleValue multiplierM multiplierB round.nextRaw
  let microseconds := round.tvSec * 1000000 + round.tvNsec.tdiv 1000
  { minimal := ⟨microseconds, round.nextRaw⟩
    collectTimeSec := round.tvSec
    collectTimeNsec := round.tvNsec
    value := next
    valueTare := next - round.tare }

/-- The lowest descriptor which is not in use. -/
def lowestUnused (used : List Nat) : Nat :=
  ((List.range (used.length + 1)).find? fun descriptor => descriptor ∉ used).getD used.length

/-- `socket` and `open` return the lowest unused descriptor. -/
def openDescriptor : Exec World Nat := fun world =>
  .ok (lowestUnused world.descriptors,
    { world with descriptors := lowestUnused world.descriptors :: world.descriptors })

/-- `close`. -/
def closeDescriptor (descriptor : Nat) : Exec World Unit := fun world =>
  .ok ((), { world with descriptors := world.descriptors.erase descriptor })

/-- `write` to the file of `-w`, which is open at `writethrough`. What it returns for a sample is
not looked at. -/
def writeRecord (record : FileRecord) : Exec World Unit := fun world =>
  .ok ((), { world with file := world.file ++ [record] })

/-- `memset(&batch,0,sizeof(output_batch))`. -/
def clearedBatch : OutputBatch := ⟨0, Vector.replicate batchSize ⟨0, 0⟩⟩

/-- The body of the loop. -/
def sampleRound (multiplierM multiplierB : ℚ) (writethrough : Nat) (round : Round)
    (batch : OutputBatch) : Exec World OutputBatch := do
  let o := outputData multiplierM multiplierB round
  let batch ← pushBatch o.minimal batch
  if writethrough ≠ 0 then writeRecord (.sample o.minimal)
  return batch

/-- The rounds up to the one which finds `global` cleared. -/
def samplingLoop (multiplierM multiplierB : ℚ) (writethrough : Nat) :
    List Round → OutputBatch → Exec World OutputBatch
  | [], batch => return batch
  | round :: rest, batch => do
      let batch ← sampleRound multiplierM multiplierB writethrough round batch
      samplingLoop multiplierM multiplierB writethrough rest batch

/-- Open the file of `-w` and mark the start of the session in it. Without `-w`,
`writethrough` stays 0. -/
def openWritethrough (withFile : Bool) : Exec World Nat :=
  if withFile then do
    let writethrough ← openDescriptor
    writeRecord .startFlag
    return writethrough
  else return 0

/-- A run of `main` which samples `rounds` and then sees SIGINT. -/
def runServer (withFile : Bool) (multiplierM multiplierB : ℚ) (rounds : List Round) :
    Exec World Unit := do
  let sock ← openDescriptor
  let writethrough ← openWritethrough withFile
  let _ ← samplingLoop multiplierM multiplierB writethrough rounds clearedBatch
  if writethrough ≠ 0 then closeDescriptor writethrough
  closeDescriptor sock

/-! ## The descriptor of the file -/

/-- With standard input closed, the first descriptor is 0. -/
theorem lowestUnused_eq_zero {used : List Nat} (free : 0 ∉ used) : lowestUnused used = 0 := by
  rw [lowestUnused, List.range_succ_eq_map, List.find?_cons_of_pos (by simpa using free)]
  rfl

/-- Where 0 is taken, it is not given again. -/
theorem lowestUnused_ne_zero {used : List Nat} (taken : 0 ∈ used) : lowestUnused used ≠ 0 := by
  unfold lowestUnused
  cases found : (List.range (used.length + 1)).find? fun descriptor => descriptor ∉ used with
  | none =>
      have nonempty := List.length_pos_of_mem taken
      simp only [Option.getD_none]
      omega
  | some descriptor =>
      have unused := List.find?_some found
      rintro zero
      rw [Option.getD_some] at zero
      subst zero
      simp [taken] at unused

/-- The socket is opened before the file, so the file never gets the descriptor 0
which stands for a run without `-w`. -/
theorem writethrough_ne_zero (used : List Nat) : lowestUnused (lowestUnused used :: used) ≠ 0 := by
  refine lowestUnused_ne_zero ?_
  by_cases free : 0 ∈ used
  · exact List.mem_cons_of_mem _ free
  · rw [lowestUnused_eq_zero free]
    exact List.mem_cons_self ..

/-! ## Whole runs -/

variable {multiplierM multiplierB : ℚ} {writethrough : Nat} {batch : OutputBatch} {world : World}

/-- The samples of a run, as both output paths carry them. -/
def samplesOf (multiplierM multiplierB : ℚ) (rounds : List Round) : List OutputMinimal :=
  rounds.map fun round => (outputData multiplierM multiplierB round).minimal

/-- What a loop with these samples adds to the file. -/
def recorded (writethrough : Nat) (samples : List OutputMinimal) : List FileRecord :=
  if writethrough ≠ 0 then samples.map FileRecord.sample else []

/-- Samples are recorded one part after the other. -/
theorem recorded_append (writethrough : Nat) (first rest : List OutputMinimal) :
    recorded writethrough (first ++ rest) =
      recorded writethrough first ++ recorded writethrough rest := by
  unfold recorded
  split
  · exact List.map_append
  · rfl

/-- A round adds its sample to the stream of the batches and, with `-w`, to the file. No
descriptor is opened or closed. -/
theorem sampleRound_leaves {before : List OutputBatch} {stream : List OutputMinimal}
    {datagrams : List OutputBatch} (carries : Carries before stream batch world datagrams)
    (round : Round) :
    (sampleRound multiplierM multiplierB writethrough round batch).Ensures world
      fun next after =>
        (∃ datagrams, Carries before
          (stream ++ [(outputData multiplierM multiplierB round).minimal]) next after datagrams) ∧
        after.file = world.file ++
          recorded writethrough [(outputData multiplierM multiplierB round).minimal] ∧
        after.descriptors = world.descriptors := by
  apply (pushBatch_ensures carries _).bind
  rintro next middle ⟨⟨grown, sent, count, full, cut⟩, file, descriptors⟩
  by_cases opened : writethrough ≠ 0
  · rw [if_pos opened, recorded, if_pos opened]
    refine .bind_returns rfl (ensures_pure ⟨⟨grown, sent, count, full, cut⟩, ?_, descriptors⟩)
    rw [← file]
    rfl
  · rw [if_neg opened, recorded, if_neg opened, List.append_nil]
    exact ensures_pure ⟨⟨grown, sent, count, full, cut⟩, file, descriptors⟩

/-- What a whole loop adds. -/
theorem samplingLoop_leaves {before : List OutputBatch} (rounds : List Round)
    {stream : List OutputMinimal} {datagrams : List OutputBatch}
    (carries : Carries before stream batch world datagrams) :
    (samplingLoop multiplierM multiplierB writethrough rounds batch).Ensures world
      fun last after =>
        (∃ datagrams, Carries before
          (stream ++ samplesOf multiplierM multiplierB rounds) last after datagrams) ∧
        after.file = world.file ++
          recorded writethrough (samplesOf multiplierM multiplierB rounds) ∧
        after.descriptors = world.descriptors := by
  induction rounds generalizing batch world stream datagrams with
  | nil =>
      have nothing : recorded writethrough [] = [] := by simp [recorded]
      refine ensures_pure ⟨⟨datagrams, ?_⟩, ?_, rfl⟩
      · simpa [samplesOf] using carries
      · simp [samplesOf, nothing]
  | cons round rest ih =>
      apply (sampleRound_leaves carries round).bind
      rintro next middle ⟨⟨grown, carries⟩, file, descriptors⟩
      apply (ih carries).imp
      rintro last after ⟨⟨all, carries⟩, written, same⟩
      refine ⟨⟨all, ?_⟩, ?_, same.trans descriptors⟩
      · simpa [samplesOf] using carries
      · rw [written, file, List.append_assoc, ← recorded_append]
        rfl

/-- A whole run with `-w`: the file gets every sample, the datagrams carry the full
batches, and the exit path sends nothing more. -/
theorem runServer_ensures (multiplierM multiplierB : ℚ) (rounds : List Round) (world : World) :
    (runServer true multiplierM multiplierB rounds).Ensures world fun _ after =>
      (∃ datagrams rest, after.sent = world.sent ++ datagrams ∧
        Cut batchSize (datagrams.map OutputBatch.entries) rest
          (samplesOf multiplierM multiplierB rounds)) ∧
      after.file = world.file ++
        .startFlag :: (samplesOf multiplierM multiplierB rounds).map FileRecord.sample := by
  have opened := writethrough_ne_zero world.descriptors
  refine .bind_returns rfl ?_
  refine .bind_returns rfl ?_
  apply (samplingLoop_leaves rounds (carries_start rfl)).bind
  rintro last sampled ⟨⟨datagrams, sent, _, _, cut⟩, file, _⟩
  rw [List.nil_append] at cut
  rw [recorded, if_pos opened] at file
  rw [if_pos opened]
  refine .bind_returns rfl ?_
  refine .of_returns rfl ⟨⟨datagrams, last.entries, sent, cut⟩, ?_⟩
  exact file.trans (List.append_assoc _ _ _)

/-- Both output paths of a run with `-w` carry exactly the samples it read. -/
def NoSampleLost (multiplierM multiplierB : ℚ) (rounds : List Round) (world : World) : Prop :=
  (runServer true multiplierM multiplierB rounds).Ensures world fun _ after =>
    (∃ datagrams, after.sent = world.sent ++ datagrams ∧
      datagrams.flatMap OutputBatch.entries = samplesOf multiplierM multiplierB rounds) ∧
    after.file = world.file ++
      .startFlag :: (samplesOf multiplierM multiplierB rounds).map FileRecord.sample

/-- Every round takes a sample. -/
theorem samplesOf_length (multiplierM multiplierB : ℚ) (rounds : List Round) :
    (samplesOf multiplierM multiplierB rounds).length = rounds.length :=
  List.length_map _

/-- Only a stream of full batches is sent completely. -/
theorem NoSampleLost.full_batches {rounds : List Round}
    (kept : NoSampleLost multiplierM multiplierB rounds world) :
    rounds.length % batchSize = 0 := by
  obtain ⟨_, after, run, ⟨datagrams, rest, sent, cut⟩, _⟩ :=
    runServer_ensures multiplierM multiplierB rounds world
  obtain ⟨_, _, again, ⟨others, also, all⟩, _⟩ := kept
  rw [run] at again
  cases again
  have same : others = datagrams := List.append_cancel_left (also.symm.trans sent)
  rw [same] at all
  rw [← samplesOf_length multiplierM multiplierB rounds, ← cut.flatten_eq_iff,
    ← List.flatMap_def]
  exact all

/-- The batch which is open when the loop ends is not sent: no sample is lost exactly
if the number of samples is a multiple of `BATCH_SIZE`. -/
theorem noSampleLost_iff_full_batches (multiplierM multiplierB : ℚ) (rounds : List Round)
    (world : World) :
    NoSampleLost multiplierM multiplierB rounds world ↔ rounds.length % batchSize = 0 := by
  constructor
  · exact NoSampleLost.full_batches
  · intro whole
    apply (runServer_ensures multiplierM multiplierB rounds world).imp
    rintro _ after ⟨⟨datagrams, rest, sent, cut⟩, file⟩
    refine ⟨⟨datagrams, sent, ?_⟩, file⟩
    rw [List.flatMap_def, cut.flatten_eq_iff, samplesOf_length]
    exact whole

/-- A run which is stopped after one sample broadcasts nothing. -/
theorem not_noSampleLost_oneSample :
    ¬ NoSampleLost 1 0 [⟨1000, 5, 0, 0⟩] ⟨[], [], [0, 1, 2]⟩ :=
  fun kept => absurd kept.full_batches (by decide)

end MotorStand
