import CryptoBook.EventLog
import CryptoBook.Runs

/-! # What survives of a log

The writer empties its buffer whenever it grows past a threshold, wherever that falls, so
the file on disk after a crash may end in the middle of a record.  A truncated log is the
whole records that fit and a piece of the next one.  Both readers return the former and
stop at the latter: `NextRaw` because a header or a payload is cut short, `Next` for the
same reason or because skipping a cut payload leads past the end of the file. -/
namespace Asmm
open Bytes Runs

/-! ## Writing -/

namespace EventLogWriter

/-- A call on the writer. -/
inductive Op where
  | write (r : LogRecord)
  | flush

def step (w : EventLogWriter) : Op → EventLogWriter
  | .write r => w.write r
  | .flush => w.flush

/-- The records that a call writes. -/
def Op.records : Op → List LogRecord
  | .write r => [r]
  | .flush => []

/-- File and buffer hold the header and the records, whatever was flushed when. -/
theorem contents_run (ops : List Op) :
    (run step create ops).isOpen = true ∧
    (run step create ops).contents = LogHeader.layout.encode LogHeader.current ++
      (ops.flatMap Op.records).flatMap LogRecord.encode := by
  have hstep : ∀ (records : List LogRecord) (w : EventLogWriter) (op : Op),
      (w.isOpen = true ∧ w.contents = LogHeader.layout.encode LogHeader.current ++
        records.flatMap LogRecord.encode) →
      ((w.step op).isOpen = true ∧ (w.step op).contents =
        LogHeader.layout.encode LogHeader.current ++
          (records ++ op.records).flatMap LogRecord.encode) := by
    rintro records w op ⟨hopen, hcontents⟩
    cases op with
    | write r =>
      refine ⟨(isOpen_write w r).trans hopen, ?_⟩
      rw [step, contents_write, hcontents, Op.records, List.flatMap_append, List.flatMap_singleton,
        List.append_assoc]
    | flush =>
      refine ⟨(isOpen_flush w).trans hopen, ?_⟩
      rw [step, contents_flush, hcontents, Op.records, List.append_nil]
  exact run_traced Op.records hstep (h := [])
    ⟨isOpen_create, contents_create.trans (List.append_nil _).symm⟩ ops

end EventLogWriter

/-! ## Reading -/

/-- What `Next` fills in for a record. -/
def LogRecord.filled? : LogRecord → Option EventLogReader.Filled
  | .marketEvent ev => some (.ev ev)
  | .decision d => some (.d d)
  | _ => none

namespace EventLogReader

/-- All records that repeated `Next` fills in, until it returns false. -/
def records (r : EventLogReader) : List Filled :=
  match _hnext : r.next with
  | none => []
  | some (x, r) => x :: records r
termination_by r.rest.length
decreasing_by exact length_lt_of_next _hnext

theorem records_eq (r : EventLogReader) :
    r.records = match r.next with
      | none => []
      | some (x, r) => x :: records r := by
  rw [records]
  split <;> next h => rw [h]

/-- A piece of a record: the header is cut short, or it is there and the payload is cut
short. -/
theorem read_header_torn {r : LogRecord} {torn : List UInt8} (hpiece : torn <+: r.encode)
    (hshort : torn.length < r.encode.length) :
    read RecordHeader.layout ⟨torn⟩ = none ∨
    ∃ part, read RecordHeader.layout ⟨torn⟩ = some (r.header, ⟨part⟩) ∧
      part.length < r.payload.length := by
  by_cases hlen : torn.length < RecordHeader.layout.size
  · exact Or.inl (if_pos hlen)
  · right
    obtain ⟨part, rfl⟩ : RecordHeader.layout.encode r.header <+: torn := by
      refine List.prefix_of_prefix_length_le (List.prefix_append ..) hpiece ?_
      rw [Layout.length_encode]
      exact Nat.le_of_not_lt hlen
    refine ⟨part, read_append _ _ _, ?_⟩
    rw [LogRecord.length_encode, List.length_append, Layout.length_encode] at hshort
    omega

theorem nextRaw_torn {r : LogRecord} {torn : List UInt8} (hpiece : torn <+: r.encode)
    (hshort : torn.length < r.encode.length) : nextRaw ⟨torn⟩ = none := by
  unfold nextRaw
  rcases read_header_torn hpiece hshort with hnone | ⟨part, hsome, hpart⟩
  · rw [hnone]
  · rw [hsome]
    exact if_pos (by rw [LogRecord.len_header]; exact hpart)

theorem next_of_read_none {r : EventLogReader} (h : r.read RecordHeader.layout = none) :
    r.next = none := by
  rw [next]
  split
  · rfl
  · next hsome =>
    rw [h] at hsome
    cases hsome

/-- Nothing is filled in from less than a whole image. -/
theorem read_short {α : Type} {L : Layout α} {r : EventLogReader} (h : r.rest.length < L.size) :
    r.read L = none := if_pos h

theorem next_torn {r : LogRecord} {torn : List UInt8} (hpiece : torn <+: r.encode)
    (hshort : torn.length < r.encode.length) : next ⟨torn⟩ = none := by
  rcases read_header_torn hpiece hshort with hnone | ⟨part, hsome, hpart⟩
  · exact next_of_read_none hnone
  · have hpast : part.drop r.header.len.toNat = [] := by
      rw [LogRecord.len_header]
      exact List.drop_eq_nil_of_le (Nat.le_of_lt hpart)
    rw [next_of_read hsome, hpast, next_nil]
    cases r with
    | marketEvent ev =>
      rw [LogRecord.payload, Layout.length_encode] at hpart
      rw [read_short (L := MarketEvent.layout) hpart]
      exact if_pos rfl
    | decision d =>
      rw [LogRecord.payload, Layout.length_encode] at hpart
      rw [read_short (L := DecisionRecord.layout) hpart]
      rfl
    | quote | fill | orderCommand | execEvent | reconcile => rfl

/-- The bytes that a truncated log ends in: none, or a piece of a record. -/
def Torn (bytes : List UInt8) : Prop :=
  bytes = [] ∨ ∃ r : LogRecord, bytes <+: r.encode ∧ bytes.length < r.encode.length

theorem Torn.nextRaw_eq_none {bytes : List UInt8} (h : Torn bytes) : nextRaw ⟨bytes⟩ = none := by
  rcases h with rfl | ⟨r, hpiece, hshort⟩
  · rfl
  · exact nextRaw_torn hpiece hshort

theorem Torn.next_eq_none {bytes : List UInt8} (h : Torn bytes) : next ⟨bytes⟩ = none := by
  rcases h with rfl | ⟨r, hpiece, hshort⟩
  · exact next_nil
  · exact next_torn hpiece hshort

theorem records_append {tail : List UInt8} (htail : next ⟨tail⟩ = none) (whole : List LogRecord) :
    records ⟨whole.flatMap LogRecord.encode ++ tail⟩ = whole.filterMap LogRecord.filled? := by
  induction whole with
  | nil =>
    rw [List.flatMap_nil, List.nil_append, records_eq, htail]
    rfl
  | cons r whole ih =>
    rw [List.flatMap_cons, List.append_assoc, records_eq, next_encode]
    cases r with
    | marketEvent ev => exact congrArg (Filled.ev ev :: ·) ih
    | decision d => exact congrArg (Filled.d d :: ·) ih
    | quote | fill | orderCommand | execEvent | reconcile => exact (records_eq _).symm.trans ih

end EventLogReader

open EventLogReader

/-- **Log round trip and crash safety.**  Write any records, flush at any moments and
close: the file has the header and every record written.  Keep any beginning of it that still
has the header.  Then the log opens, and with `whole` the records that lie entirely within it,
`NextRaw` returns their types and payloads in order and then stops, and `Next` fills in exactly
the events and decisions among them.  The file on disk before closing is such a beginning. -/
theorem log_survives_truncation (ops : List EventLogWriter.Op) (path : String) :
    let w := run EventLogWriter.step EventLogWriter.create ops
    let written := ops.flatMap EventLogWriter.Op.records
    let sizeOf (records : List LogRecord) :=
      LogHeader.layout.size + (records.flatMap LogRecord.encode).length
    LogHeader.layout.size = 24 ∧
    w.close.file.length = sizeOf written ∧
    w.file <+: w.close.file ∧
    ∀ file, file <+: w.close.file → LogHeader.layout.size ≤ file.length →
      ∃ whole reader, whole <+: written ∧ sizeOf whole ≤ file.length ∧
        (∀ r, whole ++ [r] <+: written → file.length < sizeOf (whole ++ [r])) ∧
        openLog path (some file) = .ok reader ∧
        reader.rawRecords = whole.map (fun r => (r.type, r.payload)) ∧
        reader.records = whole.filterMap LogRecord.filled? := by
  intro w written sizeOf
  obtain ⟨hopen, hcontents⟩ := EventLogWriter.contents_run ops
  have hclosed : w.close.file = w.contents := EventLogWriter.file_close hopen
  have hlen := LogHeader.layout.length_encode LogHeader.current
  refine ⟨rfl, ?_, ?_, ?_⟩
  · rw [hclosed, hcontents, List.length_append, hlen]
  · rw [hclosed]
    exact List.prefix_append ..
  intro file hfile hheader
  rw [hclosed, hcontents] at hfile
  obtain ⟨rest, rfl⟩ : LogHeader.layout.encode LogHeader.current <+: file :=
    List.prefix_of_prefix_length_le (List.prefix_append ..) hfile (hlen ▸ hheader)
  obtain ⟨whole, torn, rfl, hwhole, htorn⟩ :=
    exists_whole_of_isPrefix LogRecord.encode written ((List.prefix_append_right_inj _).mp hfile)
  have htail : Torn torn := by
    rcases htorn with ⟨_, rfl⟩ | ⟨r, _, hpiece⟩
    · exact Or.inl rfl
    · exact Or.inr ⟨r, hpiece⟩
  refine ⟨whole, ⟨whole.flatMap LogRecord.encode ++ torn⟩, hwhole, ?_, ?_, openLog_header path _,
    rawRecords_append htail.nextRaw_eq_none whole, records_append htail.next_eq_none whole⟩
  · simp only [List.length_append, hlen, sizeOf]
    omega
  · intro r hr
    -- the piece belongs to the record that comes next
    rcases htorn with ⟨rfl, rfl⟩ | ⟨r', hr', _, hshort⟩
    · exact absurd hr.length_le (by simp)
    · have hsame : whole ++ [r'] = whole ++ [r] :=
        (List.prefix_of_prefix_length_le hr' hr (by simp)).eq_of_length (by simp)
      obtain rfl : r' = r := by simpa using hsame
      simp only [List.length_append, hlen, sizeOf, List.flatMap_append, List.flatMap_singleton]
      omega

end Asmm
