import MotorStand.Bytes.LittleEndian
import MotorStand.Server.Sampling
import MotorStand.Stream.Marked

/-!
# The bytes of the `-w` file

A session is a start flag and then records of 16 bytes, with nothing escaped. A
loss of power cuts the records after any byte, and the next run appends its own
session behind them.
-/

namespace MotorStand

open Bytes Imperative Imperative.Exec MarkedStream

/-- `sizeof(output_data)`. -/
def sizeofOutputData : Nat := 48

/-- `sizeof(output_minimal)`. -/
def sizeofOutputMinimal : Nat := 16

/-- The two 64-bit fields as they lie in memory. -/
def OutputMinimal.bytes (entry : OutputMinimal) : List UInt8 :=
  encodeInt 8 entry.collectTime ++ encodeInt 8 entry.rawValue

/-- What `write` appends to the file. -/
def FileRecord.bytes : FileRecord → List UInt8
  | .startFlag => List.replicate sizeofOutputData 0xff
  | .sample entry => entry.bytes

/-- A sample main can take: the clock does not run below zero, and both fields are 64 bits. -/
structure OutputMinimal.Representable (entry : OutputMinimal) : Prop where
  timeNonneg : 0 ≤ entry.collectTime
  timeBelow : entry.collectTime < 2 ^ 63
  rawAbove : -2 ^ 63 ≤ entry.rawValue
  rawBelow : entry.rawValue < 2 ^ 63

/-- What a session left in the file: its records, cut after `written` bytes. -/
structure WriteSession where
  samples : List OutputMinimal
  representable : ∀ entry ∈ samples, entry.Representable
  written : Nat

namespace WriteSession

/-- The bytes behind the start flag. -/
def recordPart (session : WriteSession) : List UInt8 :=
  (session.samples.flatMap OutputMinimal.bytes).take session.written

/-- The bytes of a session. -/
def bytes (session : WriteSession) : List UInt8 :=
  FileRecord.startFlag.bytes ++ session.recordPart

/-- The samples of which every byte was written. -/
def complete (session : WriteSession) : List OutputMinimal :=
  session.samples.take (session.written / sizeofOutputMinimal)

end WriteSession

/-- The file after several sessions. -/
def fileBytes (sessions : List WriteSession) : List UInt8 := sessions.flatMap WriteSession.bytes

/-! ## Records -/

/-- Every record has its 16 bytes. -/
theorem bytes_length (entry : OutputMinimal) : entry.bytes.length = sizeofOutputMinimal := by
  rw [OutputMinimal.bytes, List.length_append, encodeInt_length, encodeInt_length]
  rfl

/-- A record tells its sample. -/
theorem bytes_injective {first second : OutputMinimal} (representable : first.Representable)
    (also : second.Representable) (same : first.bytes = second.bytes) : first = second := by
  obtain ⟨times, raws⟩ := List.append_inj same
    ((encodeInt_length 8 _).trans (encodeInt_length 8 _).symm)
  obtain ⟨timeNonneg, timeBelow, rawAbove, rawBelow⟩ := representable
  obtain ⟨alsoNonneg, alsoBelow, alsoAbove, alsoRaw⟩ := also
  have time := encodeInt_injective (by rw [abs_lt]; norm_num at *; omega) times
  have raw := encodeInt_injective (by rw [abs_lt]; norm_num at *; omega) raws
  cases first
  cases second
  cases time
  cases raw
  rfl

/-- The last byte of a time is not that of the start flag. -/
theorem lastTimeByte_ne {entry : OutputMinimal} (representable : entry.Representable) :
    entry.bytes[7]? ≠ some 0xff := by
  obtain ⟨nonneg, below, _, _⟩ := representable
  have time : (entry.collectTime % (256 : Int) ^ 8).toNat = entry.collectTime.toNat := by
    norm_num
    omega
  rw [OutputMinimal.bytes, List.getElem?_append_left (by rw [encodeInt_length]; decide), encodeInt,
    getElem?_encode (by decide), time]
  intro same
  have value := congrArg UInt8.toNat (Option.some.inj same)
  rw [UInt8.toNat_ofNat'] at value
  have flag : UInt8.toNat 0xff = 255 := rfl
  rw [flag] at value
  norm_num at value
  omega

/-- No start flag lies in the records. -/
theorem recordPart_not_imitates (session : WriteSession) :
    ¬ Imitates 0xff sizeofOutputData session.recordPart := by
  rintro ⟨before, after, whole⟩
  -- among any 16 bytes of the records there is the last byte of a time
  have inRecord : 7 < sizeofOutputMinimal := by decide
  obtain ⟨place, reached, below⟩ : ∃ place,
      before.length ≤ sizeofOutputMinimal * place + 7 ∧
        sizeofOutputMinimal * place + 7 < before.length + sizeofOutputData := by
    refine ⟨(before.length + 8) / 16, ?_, ?_⟩
    · simp only [sizeofOutputMinimal]
      omega
    · simp only [sizeofOutputMinimal, sizeofOutputData]
      omega
  have flagByte : session.recordPart[sizeofOutputMinimal * place + 7]? = some 0xff := by
    rw [← whole, List.append_assoc, List.getElem?_append_right reached,
      List.getElem?_append_left (by rw [List.length_replicate]; omega),
      List.getElem?_replicate, if_pos (by omega)]
  have position : sizeofOutputMinimal * place + 7 < session.written := by
    have length := (List.getElem?_eq_some_iff.mp flagByte).1
    rw [WriteSession.recordPart, List.length_take] at length
    omega
  rw [WriteSession.recordPart, List.getElem?_take_of_lt position,
    getElem?_records bytes_length inRecord] at flagByte
  obtain ⟨entry, found, byte⟩ := Option.bind_eq_some_iff.mp flagByte
  have member := List.mem_of_getElem? found
  exact lastTimeByte_ne (session.representable entry member) byte

/-- The complete samples can be read from the record part. -/
theorem complete_flatMap (session : WriteSession) :
    session.complete.flatMap OutputMinimal.bytes =
      session.recordPart.take (16 * (session.recordPart.length / 16)) := by
  have size : session.recordPart.length = min session.written (16 * session.samples.length) := by
    rw [WriteSession.recordPart, List.length_take, length_records bytes_length]
    rfl
  have number : session.complete = session.samples.take (session.recordPart.length / 16) := by
    rw [WriteSession.complete, List.take_eq_take_iff, size]
    simp only [sizeofOutputMinimal]
    omega
  have inside : 16 * (session.recordPart.length / 16) ≤ session.written := by omega
  rw [number, ← take_records bytes_length, WriteSession.recordPart, List.take_take]
  rw [WriteSession.recordPart] at inside
  rw [Nat.min_eq_left inside]
  rfl

/-- The records tell the samples which are complete. -/
theorem complete_eq_of_recordPart {left right : WriteSession}
    (same : left.recordPart = right.recordPart) : left.complete = right.complete := by
  apply records_injective bytes_length (by decide)
  · intro first inLeft second inRight
    exact bytes_injective (left.representable first (List.mem_of_mem_take inLeft))
      (right.representable second (List.mem_of_mem_take inRight))
  · rw [complete_flatMap, complete_flatMap, same]

/-! ## Sessions -/

/-- A file is its sessions, each behind a start flag. -/
theorem fileBytes_eq_marked (sessions : List WriteSession) :
    fileBytes sessions = marked 0xff sizeofOutputData (sessions.map WriteSession.recordPart) := by
  rw [marked, List.flatMap_map]
  rfl

/-- No session but the first goes on with a byte of the start flag behind it. -/
def StartsApart (sessions : List WriteSession) : Prop :=
  ∀ session ∈ sessions.tail, session.recordPart.head? ≠ some 0xff

/-- The start flags of such sessions tell the file apart: sessions and complete samples
can be read back. -/
theorem fileBytes_determine_samples {left right : List WriteSession} (leftApart : StartsApart left)
    (rightApart : StartsApart right) (same : fileBytes left = fileBytes right) :
    left.length = right.length ∧
      left.map WriteSession.complete = right.map WriteSession.complete := by
  have free (sessions : List WriteSession) :
      ∀ part ∈ sessions.map WriteSession.recordPart, ¬ Imitates 0xff sizeofOutputData part := by
    intro part member
    obtain ⟨session, _, rfl⟩ := List.mem_map.mp member
    exact recordPart_not_imitates session
  have proper {sessions : List WriteSession} (apart : StartsApart sessions) :
      ∀ part ∈ (sessions.map WriteSession.recordPart).tail, ¬ Begins 0xff part := by
    intro part member
    rw [← List.map_tail] at member
    obtain ⟨session, inside, rfl⟩ := List.mem_map.mp member
    exact apart session inside
  rw [fileBytes_eq_marked, fileBytes_eq_marked] at same
  have parts := marked_injective (by decide) (free left) (free right) (proper leftApart)
    (proper rightApart) same
  have lengths : left.length = right.length := by
    simpa using congrArg List.length parts
  refine ⟨lengths, ?_⟩
  apply List.ext_getElem (by simpa using lengths)
  intro index inLeft inRight
  rw [List.getElem_map, List.getElem_map]
  rw [List.length_map] at inLeft inRight
  apply complete_eq_of_recordPart
  have part := congrArg (·[index]?) parts
  simpa [inLeft, inRight] using part

/-- One sample at time 0. -/
def atZero (written : Nat) : WriteSession :=
  ⟨[⟨0, -1⟩], by simpa using ⟨by decide, by decide, by decide, by decide⟩, written⟩

/-- One sample at time 255, whose first byte is that of the start flag. -/
def atFlagByte (written : Nat) : WriteSession :=
  ⟨[⟨255, 0⟩], by simpa using ⟨by decide, by decide, by decide, by decide⟩, written⟩

/-- A session cut behind its last record, or not at all. -/
theorem fileBytes_determine_samples_atZero :
    [atZero 16, atZero 3].length = [atZero 99, atZero 3].length ∧
      [atZero 16, atZero 3].map WriteSession.complete =
        [atZero 99, atZero 3].map WriteSession.complete :=
  fileBytes_determine_samples (by unfold StartsApart; decide) (by unfold StartsApart; decide)
    (by decide)

/-- A start flag can be taken for the end of a sample, and the sample's end for a start:
the same file holds one complete sample or none. -/
theorem not_fileBytes_determine_samples :
    ¬ ∀ left right : List WriteSession, fileBytes left = fileBytes right →
      left.length = right.length ∧
        left.map WriteSession.complete = right.map WriteSession.complete := by
  intro determines
  have same : fileBytes [atZero 15, atFlagByte 1] = fileBytes [atZero 16, atZero 0] := by decide
  have samples := (determines _ _ same).2
  exact absurd samples (by decide)

end MotorStand
