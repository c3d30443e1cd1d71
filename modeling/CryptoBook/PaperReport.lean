import CryptoBook.ExactQuotes
import CryptoBook.LiveLog
import CryptoBook.LogRecovery
import CryptoBook.PaperLedger
import CryptoBook.StructFormat

/-! # The report on a paper run

`analysis/paper_report.py` reads the binary log of a run with formats of its own and adds up
the quotes and the fills.  It is the second reader of the log beside `EventLogReader`, and it
computes in another way what `ReplayStrategy` sums up.

On the log of a live run the two agree in every number they share, the volumes bought and sold
differ by the inventory, and the marked value, which the script computes in floating point, is in
exact arithmetic the sum over the fills of what each has gained or lost since
(`report_agrees_with_replay`).  On a log that was cut off they behave differently:
`EventLogReader` stops at the piece of a record at the end, the script raises if that is a piece
of the payload of a quote or of a fill (`report_of_truncated_log`). -/
namespace Asmm
open Bytes

/-! ## The script -/

/-- What the script adds up. -/
structure PaperReport where
  invSeries : List Int
  quotes : Nat
  pulled : Nat
  oneSided : Nat
  quoting : Nat
  crossViol : Nat
  fills : Nat
  buyQty : Int
  sellQty : Int
  lastMidX2 : Int
  finalCash : Int
  finalInv : Int

namespace PaperReport

def empty : PaperReport := ⟨[], 0, 0, 0, 0, 0, 0, 0, 0, 0, 0, 0⟩

/-- `QUOTE_FMT`, `"<Qqqqqqqq3B5x"`. -/
def quoteFmt : List Code :=
  [.u64, .i64, .i64, .i64, .i64, .i64, .i64, .i64, .u8, .u8, .u8, .pad, .pad, .pad, .pad, .pad]

/-- `FILL_FMT`, `"<QqqqqqB7x"`. -/
def fillFmt : List Code :=
  [.u64, .i64, .i64, .i64, .i64, .i64, .u8, .pad, .pad, .pad, .pad, .pad, .pad, .pad]

/-- The branch of `REC_QUOTE`, on what was unpacked. -/
def addQuote (r : PaperReport) : List Int → PaperReport
  | [_, bpx, _, apx, _, midx2, inv, _, qn, os, pl] =>
      { r with
        quotes := r.quotes + 1
        invSeries := r.invSeries ++ [inv]
        lastMidX2 := midx2
        pulled := if pl ≠ 0 then r.pulled + 1 else r.pulled
        oneSided := if os ≠ 0 then r.oneSided + 1 else r.oneSided
        quoting := if qn ≠ 0 then r.quoting + 1 else r.quoting
        crossViol := if bpx > 0 ∧ apx > 0 ∧ bpx ≥ apx then r.crossViol + 1 else r.crossViol }
  | _ => r

/-- The branch of `REC_FILL`. -/
def addFill (r : PaperReport) : List Int → PaperReport
  | [_, _, qty, _, inv, cash, side] =>
      { r with
        fills := r.fills + 1
        buyQty := if side = 0 then r.buyQty + qty else r.buyQty
        sellQty := if side = 0 then r.sellQty else r.sellQty + -qty
        finalCash := cash
        finalInv := inv }
  | _ => r

/-- The loop over the records: `none` where `struct.unpack` raises.  `f.read` returns what is
there if that is less than it was asked for. -/
def readRecords (bytes : List UInt8) (r : PaperReport) : Option PaperReport :=
  if _h : bytes.length < 8 then some r
  else
    let rtype := (Layout.u32.decode (bytes.take 4)).toNat
    let rlen := (Layout.u32.decode ((bytes.drop 4).take 4)).toNat
    let payload := (bytes.drop 8).take rlen
    let rest := (bytes.drop 8).drop rlen
    if rtype = 3 then (unpack quoteFmt payload).bind fun v => readRecords rest (r.addQuote v)
    else if rtype = 4 then (unpack fillFmt payload).bind fun v => readRecords rest (r.addFill v)
    else readRecords rest r
termination_by bytes.length
decreasing_by all_goals (simp only [List.length_drop]; omega)

/-- `max((abs(x) for x in inv_series), default=0)`. -/
def maxAbs (r : PaperReport) : Nat := (r.invSeries.map Int.natAbs).foldl max 0

/-- `marked`, in the arithmetic the script runs on. -/
def marked {F : Type} [Double F] (r : PaperReport) : F :=
  let midTicks := Double.ofInt r.lastMidX2 / Double.ofInt 2
  Double.ofInt r.finalCash + Double.ofInt r.finalInv * midTicks

/-- In exact arithmetic its double is an integer. -/
theorem two_mul_marked (r : PaperReport) :
    2 * (r.marked : ℝ) = ((2 * r.finalCash + r.finalInv * r.lastMidX2 : Int) : ℝ) := by
  show 2 * ((r.finalCash : ℝ) + r.finalInv * (r.lastMidX2 / ((2 : Int) : ℝ))) = _
  push_cast
  ring

end PaperReport

/-- How the script ends. -/
inductive ReportOutcome where
  | raised
  | notALog
  | reported (r : PaperReport)

/-- The script, on the bytes of the file. -/
def paperReport (file : List UInt8) : ReportOutcome :=
  if file.length < 24 then .raised
  else if file.take 4 ≠ [0x41, 0x53, 0x4D, 0x4C] then .notALog
  else match PaperReport.readRecords (file.drop 24) .empty with
    | none => .raised
    | some r => .reported r

/-- Its exit code; an exception that is not caught gives 1. -/
def ReportOutcome.exitCode : ReportOutcome → Int
  | .raised => 1
  | .notALog => 2
  | .reported r => if r.crossViol = 0 then 0 else 1

/-! ## One record -/

/-- The fields of a quote as the script gets them. -/
def QuoteRecord.unpacked (q : QuoteRecord) : List Int :=
  let i64 (x : Int) := (Int64.ofInt x).toInt
  [q.finalUpdateId.toNat, i64 q.bidPx, i64 q.bidQty, i64 q.askPx, i64 q.askQty, i64 q.midX2,
    i64 q.inventoryLots, i64 q.sigmaPMicro, q.quoting.toNat, q.oneSided.toNat, q.pulled.toNat]

/-- The fields of a fill as the script gets them. -/
def FillRecord.unpacked (f : FillRecord) : List Int :=
  let i64 (x : Int) := (Int64.ofInt x).toInt
  [f.finalUpdateId.toNat, i64 f.pxTicks, i64 f.qtyLots, i64 f.feeUnits, i64 f.inventoryAfter,
    i64 f.cashAfter, f.side.toByte.toNat]

theorem unpack_quote (q : QuoteRecord) :
    unpack PaperReport.quoteFmt q.bytes = some q.unpacked := by
  have hflag : ∀ b : Bool, ((if b then 1 else 0 : UInt8).toNat : Int) = b.toNat := by
    intro b
    cases b <;> rfl
  have hlength : q.bytes.length = calcsize PaperReport.quoteFmt := q.length_bytes
  rw [unpack, if_pos hlength]
  simp only [PaperReport.quoteFmt, QuoteRecord.bytes, List.append_assoc, fields_u64, fields_i64,
    fields_u8, fields_pad, fields_nil, hflag]
  rfl

theorem unpack_fill (f : FillRecord) : unpack PaperReport.fillFmt f.bytes = some f.unpacked := by
  have hlength : f.bytes.length = calcsize PaperReport.fillFmt := f.length_bytes
  rw [unpack, if_pos hlength]
  simp only [PaperReport.fillFmt, FillRecord.bytes, List.append_assoc, fields_u64, fields_i64,
    fields_u8, fields_pad, fields_nil]
  cases hside : f.side <;> simp only [FillRecord.unpacked, hside] <;> rfl

namespace PaperReport

/-- What a whole record adds. -/
def add (r : PaperReport) : LogRecord → PaperReport
  | .quote q => r.addQuote q.unpacked
  | .fill f => r.addFill f.unpacked
  | _ => r

/-- The records the script unpacks. -/
def Unpacks : LogRecord → Prop
  | .quote _ | .fill _ => True
  | _ => False

instance : DecidablePred Unpacks
  | .quote _ | .fill _ => isTrue trivial
  | .marketEvent _ | .decision _ | .orderCommand _ | .execEvent _ | .reconcile _ => isFalse id

theorem readRecords_short {bytes : List UInt8} (h : bytes.length < 8) (r : PaperReport) :
    readRecords bytes r = some r := by
  rw [readRecords, dif_pos h]

/-- The types in the header tell the two branches of the script. -/
theorem header_type (rec : LogRecord) :
    (rec.header.type.toNat = 3 ↔ ∃ q, rec = .quote q) ∧
      (rec.header.type.toNat = 4 ↔ ∃ f, rec = .fill f) := by
  cases rec with
  | quote q =>
    have htype : (LogRecord.quote q).header.type.toNat = 3 := rfl
    simp [htype]
  | fill f =>
    have htype : (LogRecord.fill f).header.type.toNat = 4 := rfl
    simp [htype]
  | marketEvent | decision | orderCommand | execEvent | reconcile =>
    simp only [LogRecord.header, LogRecord.type, reduceCtorEq, exists_false, iff_false]
    decide

/-- What the loop does behind a header. -/
theorem readRecords_header (hdr : RecordHeader) (body : List UInt8) (r : PaperReport) :
    readRecords (RecordHeader.layout.encode hdr ++ body) r =
      if hdr.type.toNat = 3 then (unpack quoteFmt (body.take hdr.len.toNat)).bind fun v =>
        readRecords (body.drop hdr.len.toNat) (r.addQuote v)
      else if hdr.type.toNat = 4 then (unpack fillFmt (body.take hdr.len.toNat)).bind fun v =>
        readRecords (body.drop hdr.len.toNat) (r.addFill v)
      else readRecords (body.drop hdr.len.toNat) r := by
  have hsize : (RecordHeader.layout.encode hdr).length = 8 := RecordHeader.layout.length_encode hdr
  have hwords : RecordHeader.layout.encode hdr =
      Layout.u32.encode hdr.type ++ Layout.u32.encode hdr.len := rfl
  have htype : (RecordHeader.layout.encode hdr ++ body).take 4 = Layout.u32.encode hdr.type := by
    rw [hwords, List.append_assoc]
    exact List.take_left' (Layout.u32.length_encode _)
  have hlen : ((RecordHeader.layout.encode hdr ++ body).drop 4).take 4 =
      Layout.u32.encode hdr.len := by
    have hfour : (Layout.u32.encode hdr.type).length = 4 := Layout.u32.length_encode _
    rw [hwords, List.append_assoc, List.drop_left' hfour]
    exact List.take_left' (Layout.u32.length_encode _)
  have henough : ¬ (RecordHeader.layout.encode hdr ++ body).length < 8 := by
    rw [List.length_append]
    omega
  rw [readRecords, dif_neg henough]
  simp only [htype, hlen, Layout.u32.decode_encode, List.drop_left' hsize]

/-- **A whole record** is added. -/
theorem readRecords_encode (rec : LogRecord) (rest : List UInt8) (r : PaperReport) :
    readRecords (rec.encode ++ rest) r = readRecords rest (r.add rec) := by
  have htake : (rec.payload ++ rest).take rec.header.len.toNat = rec.payload :=
    List.take_left' rec.len_header.symm
  have hdrop : (rec.payload ++ rest).drop rec.header.len.toNat = rest :=
    List.drop_left' rec.len_header.symm
  rw [LogRecord.encode, List.append_assoc, readRecords_header, htake, hdrop]
  obtain ⟨hquote, hfill⟩ := header_type rec
  cases rec with
  | quote q =>
    rw [if_pos (hquote.mpr ⟨q, rfl⟩), LogRecord.payload, unpack_quote]
    rfl
  | fill f =>
    rw [if_neg (by simp [hquote]), if_pos (hfill.mpr ⟨f, rfl⟩), LogRecord.payload, unpack_fill]
    rfl
  | marketEvent | decision | orderCommand | execEvent | reconcile =>
    rw [if_neg (by simp [hquote]), if_neg (by simp [hfill])]
    rfl

/-- **A piece of a record** at the end makes the script raise if it has begun to read the
payload of a quote or of a fill. -/
theorem readRecords_torn {rec : LogRecord} {torn : List UInt8} (hpiece : torn <+: rec.encode)
    (hshort : torn.length < rec.encode.length) (r : PaperReport) :
    readRecords torn r = if Unpacks rec ∧ 8 ≤ torn.length then none else some r := by
  by_cases hlen : torn.length < 8
  · rw [readRecords_short hlen, if_neg (by omega)]
  · obtain ⟨part, rfl⟩ : RecordHeader.layout.encode rec.header <+: torn := by
      refine List.prefix_of_prefix_length_le (List.prefix_append ..) hpiece ?_
      rw [Layout.length_encode]
      exact Nat.le_of_not_lt hlen
    have hpart : part.length < rec.payload.length := by
      rw [LogRecord.length_encode, List.length_append, Layout.length_encode] at hshort
      omega
    have htake : part.take rec.header.len.toNat = part := by
      rw [rec.len_header]
      exact List.take_of_length_le (Nat.le_of_lt hpart)
    have hdrop : part.drop rec.header.len.toNat = [] := by
      rw [rec.len_header]
      exact List.drop_eq_nil_of_le (Nat.le_of_lt hpart)
    obtain ⟨hquote, hfill⟩ := header_type rec
    rw [readRecords_header, htake, hdrop, readRecords_short (by decide)]
    cases rec with
    | quote q =>
      have hcut : unpack quoteFmt part = none :=
        if_neg (Nat.ne_of_lt (Nat.lt_of_lt_of_eq hpart q.length_bytes))
      rw [if_pos (hquote.mpr ⟨q, rfl⟩), hcut, if_pos ⟨trivial, Nat.le_of_not_lt hlen⟩]
      rfl
    | fill f =>
      have hcut : unpack fillFmt part = none :=
        if_neg (Nat.ne_of_lt (Nat.lt_of_lt_of_eq hpart f.length_bytes))
      rw [if_neg (by simp [hquote]), if_pos (hfill.mpr ⟨f, rfl⟩), hcut,
        if_pos ⟨trivial, Nat.le_of_not_lt hlen⟩]
      rfl
    | marketEvent | decision | orderCommand | execEvent | reconcile =>
      rw [if_neg (by simp [hquote]), if_neg (by simp [hfill]), if_neg fun h => h.1]

theorem readRecords_whole (whole : List LogRecord) (torn : List UInt8) (r : PaperReport) :
    readRecords (whole.flatMap LogRecord.encode ++ torn) r =
      readRecords torn (whole.foldl add r) := by
  induction whole generalizing r with
  | nil => rfl
  | cons rec whole ih =>
    rw [List.flatMap_cons, List.append_assoc, readRecords_encode, ih]
    rfl

end PaperReport

theorem paperReport_header (bytes : List UInt8) :
    paperReport (LogHeader.layout.encode LogHeader.current ++ bytes) =
      match PaperReport.readRecords bytes .empty with
      | none => .raised
      | some r => .reported r := by
  have hsize : (LogHeader.layout.encode LogHeader.current).length = 24 :=
    LogHeader.layout.length_encode _
  have henough : ¬ (LogHeader.layout.encode LogHeader.current ++ bytes).length < 24 := by
    rw [List.length_append]
    omega
  have hmagic : (LogHeader.layout.encode LogHeader.current ++ bytes).take 4 =
      [0x41, 0x53, 0x4D, 0x4C] := by
    rw [List.take_append_of_le_length (by omega)]
    decide +kernel
  rw [paperReport, if_neg henough, hmagic, List.drop_left' hsize]
  exact if_neg fun h => h rfl

/-- **The script on a log that was cut off.**  Write any records and keep any beginning of the
file that still has the header, and let `whole` be the records that lie entirely within it.
`EventLogReader` reads exactly them.  So does the script, unless the record that comes next is a
quote or a fill of which the header is there; then it raises. -/
theorem report_of_truncated_log (path : String) (records : List LogRecord) (file : List UInt8)
    (hfile : file <+: LogHeader.layout.encode LogHeader.current ++
      records.flatMap LogRecord.encode) (hheader : 24 ≤ file.length) :
    let sizeOf (records : List LogRecord) := 24 + (records.flatMap LogRecord.encode).length
    ∃ whole, whole <+: records ∧ sizeOf whole ≤ file.length ∧
      (∀ rec, whole ++ [rec] <+: records → file.length < sizeOf (whole ++ [rec])) ∧
      (EventLogReader.openLog path (some file)).map EventLogReader.rawRecords =
        .ok (whole.map fun rec => (rec.type, rec.payload)) ∧
      ((∃ rec, whole ++ [rec] <+: records ∧ PaperReport.Unpacks rec ∧
          sizeOf whole + 8 ≤ file.length ∧ paperReport file = .raised) ∨
        ((∀ rec, whole ++ [rec] <+: records → PaperReport.Unpacks rec →
          file.length < sizeOf whole + 8) ∧
          paperReport file = .reported (whole.foldl PaperReport.add .empty))) := by
  intro sizeOf
  have hlen : (LogHeader.layout.encode LogHeader.current).length = 24 :=
    LogHeader.layout.length_encode LogHeader.current
  obtain ⟨rest, rfl⟩ : LogHeader.layout.encode LogHeader.current <+: file :=
    List.prefix_of_prefix_length_le (List.prefix_append ..) hfile (hlen ▸ hheader)
  obtain ⟨whole, torn, rfl, hwhole, htorn⟩ :=
    exists_whole_of_isPrefix LogRecord.encode records ((List.prefix_append_right_inj _).mp hfile)
  have hnext : ∀ rec rec', whole ++ [rec] <+: records → whole ++ [rec'] <+: records →
      rec = rec' := by
    intro rec rec' h h'
    have hsame : whole ++ [rec] = whole ++ [rec'] :=
      (List.prefix_of_prefix_length_le h h' (by simp)).eq_of_length (by simp)
    simpa using hsame
  have hsizes : (LogHeader.layout.encode LogHeader.current ++
      (whole.flatMap LogRecord.encode ++ torn)).length = sizeOf whole + torn.length := by
    simp only [List.length_append, hlen, sizeOf]
    omega
  have htail : EventLogReader.Torn torn := by
    rcases htorn with ⟨_, rfl⟩ | ⟨rec, _, hpiece⟩
    · exact Or.inl rfl
    · exact Or.inr ⟨rec, hpiece⟩
  refine ⟨whole, hwhole, by omega, ?_, ?_, ?_⟩
  · intro rec hrec
    rcases htorn with ⟨rfl, rfl⟩ | ⟨rec', hrec', _, hshort⟩
    · exact absurd hrec.length_le (by simp)
    · obtain rfl := hnext _ _ hrec hrec'
      rw [hsizes]
      simp only [sizeOf, List.flatMap_append, List.flatMap_singleton, List.length_append]
      omega
  · rw [EventLogReader.openLog_header]
    exact congrArg Except.ok (EventLogReader.rawRecords_append htail.nextRaw_eq_none whole)
  · rw [paperReport_header, PaperReport.readRecords_whole, hsizes]
    rcases htorn with ⟨rfl, rfl⟩ | ⟨rec, hrec, hpiece, hshort⟩
    · refine Or.inr ⟨fun rec hrec => absurd hrec.length_le (by simp), ?_⟩
      rw [PaperReport.readRecords_short (by decide)]
    · rw [PaperReport.readRecords_torn hpiece hshort]
      by_cases hcut : PaperReport.Unpacks rec ∧ 8 ≤ torn.length
      · rw [if_pos hcut]
        exact Or.inl ⟨rec, hrec, hcut.1, by omega, rfl⟩
      · rw [if_neg hcut]
        refine Or.inr ⟨fun rec' hrec' hunpacks => ?_, rfl⟩
        obtain rfl := hnext _ _ hrec' hrec
        have hfew : ¬ 8 ≤ torn.length := fun h => hcut ⟨hunpacks, h⟩
        omega

/-- A log with one fill, cut off eight bytes into its payload: `EventLogReader` reads no record,
the script raises. -/
theorem report_of_truncated_log_fill :
    let f : FillRecord := ⟨1, 100, 1, 0, 1, -100, .kBid⟩
    let file := LogHeader.layout.encode LogHeader.current ++
      [LogRecord.fill f].flatMap LogRecord.encode
    (EventLogReader.openLog "" (some (file.take 40))).map EventLogReader.rawRecords = .ok [] ∧
      paperReport (file.take 40) = .raised := by
  intro f file
  have hlength : (file.take 40).length = 40 := by decide +kernel
  obtain ⟨whole, hwhole, hsize, -, hread, hreport⟩ :=
    report_of_truncated_log "" [.fill f] (file.take 40) (List.take_prefix ..) (by decide +kernel)
  rw [hlength] at hsize hreport
  -- the fill does not fit
  obtain rfl : whole = [] := by
    rcases List.prefix_cons_iff.mp hwhole with rfl | ⟨rest, rfl, hrest⟩
    · rfl
    · obtain rfl := List.prefix_nil.mp hrest
      exact absurd hsize (by decide +kernel)
  refine ⟨hread, ?_⟩
  rcases hreport with ⟨_, _, _, _, hraised⟩ | ⟨hshort, _⟩
  · exact hraised
  · exact absurd (hshort (.fill f) (List.prefix_refl _) trivial) (by decide)

/-! ## What the script adds up -/

/-- The value is one of `i64`. -/
def FitsI64 (x : Int) : Prop := Int64.minValue.toInt ≤ x ∧ x ≤ Int64.maxValue.toInt
  deriving Decidable

theorem FitsI64.toInt_ofInt {x : Int} (h : FitsI64 x) : (Int64.ofInt x).toInt = x :=
  Int64.toInt_ofInt_of_le h.1 (Int.lt_add_one_of_le h.2)

/-- What the script reads of a quote does not overflow. -/
def QuoteRecord.Fits (q : QuoteRecord) : Prop :=
  FitsI64 q.bidPx ∧ FitsI64 q.askPx ∧ FitsI64 q.midX2 ∧ FitsI64 q.inventoryLots
  deriving Decidable

/-- What the script reads of a fill does not overflow. -/
def FillRecord.Fits (f : FillRecord) : Prop :=
  FitsI64 f.qtyLots ∧ FitsI64 f.inventoryAfter ∧ FitsI64 f.cashAfter
  deriving Decidable

/-- Both sides are quoted, and the bid is not below the ask. -/
def QuoteRecord.crosses (q : QuoteRecord) : Bool :=
  decide (q.bidPx > 0 ∧ q.askPx > 0 ∧ q.bidPx ≥ q.askPx)

namespace PaperReport

/-- The sums are those of the quotes and of the fills. -/
structure Sums (quotes : List QuoteRecord) (fills : List FillRecord) (r : PaperReport) : Prop where
  quotes_eq : r.quotes = quotes.length
  pulled : r.pulled = quotes.countP QuoteRecord.pulled
  oneSided : r.oneSided = quotes.countP QuoteRecord.oneSided
  crossViol : r.crossViol = quotes.countP QuoteRecord.crosses
  invSeries : r.invSeries = quotes.map QuoteRecord.inventoryLots
  fills_eq : r.fills = fills.length
  volumes : r.buyQty - r.sellQty = (fills.map FillRecord.qtyLots).sum
  finalCash : r.finalCash = (fills.getLast?.map FillRecord.cashAfter).getD 0
  finalInv : r.finalInv = (fills.getLast?.map FillRecord.inventoryAfter).getD 0
  lastMid : r.lastMidX2 = (quotes.getLast?.map QuoteRecord.midX2).getD 0

theorem sums_empty : Sums [] [] empty := ⟨rfl, rfl, rfl, rfl, rfl, rfl, rfl, rfl, rfl, rfl⟩

theorem Sums.quote {quotes : List QuoteRecord} {fills : List FillRecord} {r : PaperReport}
    (h : Sums quotes fills r) {q : QuoteRecord} (hq : q.Fits) :
    Sums (quotes ++ [q]) fills (r.addQuote q.unpacked) := by
  obtain ⟨hbid, hask, hmid, hinv⟩ := hq
  have hflag : ∀ b : Bool, ((b.toNat : Int) ≠ 0) = (b = true) := by
    intro b
    cases b <;> simp
  simp only [QuoteRecord.unpacked, addQuote, hbid.toInt_ofInt, hask.toInt_ofInt, hmid.toInt_ofInt,
    hinv.toInt_ofInt, hflag]
  refine ⟨?_, ?_, ?_, ?_, ?_, h.fills_eq, h.volumes, h.finalCash, h.finalInv, ?_⟩
  · rw [List.length_append, ← h.quotes_eq]
    rfl
  · rw [List.countP_append, ← h.pulled]
    cases hp : q.pulled <;> simp [hp]
  · rw [List.countP_append, ← h.oneSided]
    cases ho : q.oneSided <;> simp [ho]
  · rw [List.countP_append, ← h.crossViol]
    by_cases hc : q.bidPx > 0 ∧ q.askPx > 0 ∧ q.bidPx ≥ q.askPx
    · rw [if_pos hc]
      simp [QuoteRecord.crosses, hc]
    · rw [if_neg hc]
      simp [QuoteRecord.crosses, hc]
  · rw [List.map_append, ← h.invSeries]
    rfl
  · rw [List.getLast?_concat]
    rfl

theorem Sums.fill {quotes : List QuoteRecord} {fills : List FillRecord} {r : PaperReport}
    (h : Sums quotes fills r) {f : FillRecord} (hf : f.Fits) :
    Sums quotes (fills ++ [f]) (r.addFill f.unpacked) := by
  obtain ⟨hqty, hinv, hcash⟩ := hf
  have hvolumes := h.volumes
  simp only [FillRecord.unpacked, addFill, hqty.toInt_ofInt, hinv.toInt_ofInt, hcash.toInt_ofInt]
  refine ⟨h.quotes_eq, h.pulled, h.oneSided, h.crossViol, h.invSeries, ?_, ?_, ?_, ?_, h.lastMid⟩
  · rw [List.length_append, ← h.fills_eq]
    rfl
  · rw [List.map_append, List.sum_append, List.map_singleton, List.sum_singleton]
    split <;> dsimp only <;> omega
  · rw [List.getLast?_concat]
    rfl
  · rw [List.getLast?_concat]
    rfl

theorem sums_fold (records : List LogRecord)
    (hquotes : ∀ q ∈ records.filterMap LogRecord.quote?, q.Fits)
    (hfills : ∀ f ∈ records.filterMap LogRecord.fill?, f.Fits) :
    Sums (records.filterMap LogRecord.quote?) (records.filterMap LogRecord.fill?)
      (records.foldl add empty) := by
  induction records using List.reverseRecOn with
  | nil => exact sums_empty
  | append_singleton records rec ih =>
    rw [List.filterMap_append] at hquotes hfills ⊢
    rw [List.filterMap_append, List.foldl_append]
    obtain ⟨hquotes, hquote⟩ := List.forall_mem_append.mp hquotes
    obtain ⟨hfills, hfill⟩ := List.forall_mem_append.mp hfills
    have hsums := ih hquotes hfills
    cases rec with
    | quote q =>
      have hsum := hsums.quote (hquote q (List.mem_singleton_self q))
      rwa [← List.append_nil (records.filterMap LogRecord.fill?)] at hsum
    | fill f =>
      have hsum := hsums.fill (hfill f (List.mem_singleton_self f))
      rwa [← List.append_nil (records.filterMap LogRecord.quote?)] at hsum
    | marketEvent | decision | orderCommand | execEvent | reconcile =>
      show Sums (_ ++ []) (_ ++ []) _
      rw [List.append_nil, List.append_nil]
      exact hsums

end PaperReport

/-! ## What the replay sums up -/

/-- Without a mid nothing is quoted and nothing is filled. -/
theorem Strategy.Ticked.unquoted {F : Type} [Double F] {s s' : Strategy F} {book : L2Book}
    {ev : MarketEvent} {o : StrategyOutput} (h : Ticked s book ev s' o)
    (hnone : o.hasQuote = false) : s'.paper.qLots = s.paper.qLots := by
  cases h with
  | noMid => rfl
  | pulled => cases hnone
  | quoted => cases hnone

namespace StrategyLoop
variable {F : Type} [Double F]

/-- The largest position on a quote. -/
def peak (quotes : List QuoteRecord) : Nat :=
  (quotes.map fun q => q.inventoryLots.natAbs).foldl max 0

theorem peak_concat (quotes : List QuoteRecord) (q : QuoteRecord) :
    peak (quotes ++ [q]) = max (peak quotes) q.inventoryLots.natAbs := by
  simp [peak]

/-- The summary is that of the quotes so far, and the position stands on one of them. -/
structure Tallied (s : StrategyLoop F) : Prop where
  balanced : Balanced s
  quotes_eq : s.out.summary.quotes = s.out.quotes.length
  oneSided : s.out.summary.oneSidedTicks = s.out.quotes.countP QuoteRecord.oneSided
  pulled : s.out.summary.pulledTicks = s.out.quotes.countP QuoteRecord.pulled
  crossed : s.out.summary.crossViolations = s.out.quotes.countP QuoteRecord.crosses
  peak_eq : s.out.summary.maxAbsInventory = peak s.out.quotes
  held : s.strat.paper.qLots.natAbs ≤ peak s.out.quotes

omit [Double F] in
theorem Tallied.absorb {s : StrategyLoop F} (h : Tallied s) (ev : MarketEvent) :
    Tallied (s.absorb ev) := by
  have hout := out_absorb s ev
  have hstrat := strat_absorb s ev
  refine ⟨h.balanced.absorb ev, ?_, ?_, ?_, ?_, ?_, ?_⟩
  · rw [hout]
    exact h.quotes_eq
  · rw [hout]
    exact h.oneSided
  · rw [hout]
    exact h.pulled
  · rw [hout]
    exact h.crossed
  · rw [hout]
    exact h.peak_eq
  · rw [hout, hstrat]
    split <;> exact h.held

/-- What a tick adds to the counters of quotes. -/
theorem summary_tick (s : StrategyLoop F) (ev : MarketEvent) :
    let q := (s.tickOutput ev).quote
    let n := if (s.tickOutput ev).hasQuote then 1 else 0
    (s.tick ev).out.summary.quotes = s.out.summary.quotes + n ∧
    (s.tick ev).out.summary.oneSidedTicks =
      s.out.summary.oneSidedTicks + (if q.oneSided then n else 0) ∧
    (s.tick ev).out.summary.pulledTicks =
      s.out.summary.pulledTicks + (if q.pulled then n else 0) ∧
    (s.tick ev).out.summary.crossViolations =
      s.out.summary.crossViolations + (if q.crosses then n else 0 : Nat) := by
  unfold tick addFills tickOutput
  dsimp only
  split
  · refine ⟨rfl, ?_, ?_, ?_⟩ <;> unfold addQuote <;> dsimp only
    · split <;> rfl
    · split <;> rfl
    · simp only [QuoteRecord.crosses, decide_eq_true_eq]
      split
      · rfl
      · exact (Int.add_zero _).symm
  · simp

theorem Tallied.tick {s : StrategyLoop F} (h : Tallied s) (ev : MarketEvent) :
    Tallied (s.tick ev) := by
  have hticked := Strategy.onEvent_ticked h.balanced.paper s.book ev
  obtain ⟨hquotes, honeSided, hpulled, hcrossed⟩ := s.summary_tick ev
  have hlist := quotes_tick s ev
  have hpeak := maxAbsInventory_tick s ev
  have hheld := h.held
  rw [strat_tick, h.peak_eq] at hpeak
  cases hhas : (s.tickOutput ev).hasQuote with
  | true =>
    have hlots := hticked.ledger.2 hhas
    rw [hhas] at hquotes honeSided hpulled hcrossed hlist
    simp only [if_true] at hquotes honeSided hpulled hcrossed hlist
    have hconcat := peak_concat s.out.quotes (s.tickOutput ev).quote
    rw [← hlist, show (s.tickOutput ev).quote.inventoryLots = _ from hlots] at hconcat
    refine ⟨h.balanced.tick ev, ?_, ?_, ?_, ?_, ?_, ?_⟩
    · rw [hquotes, hlist, h.quotes_eq, List.length_append]
      rfl
    · rw [honeSided, hlist, h.oneSided, List.countP_append, List.countP_singleton]
    · rw [hpulled, hlist, h.pulled, List.countP_append, List.countP_singleton]
    · rw [hcrossed, hlist, h.crossed, List.countP_append, List.countP_singleton]
      rfl
    · rw [hpeak, hconcat]
      split <;> omega
    · rw [hconcat, strat_tick]
      exact Nat.le_max_right ..
  | false =>
    have hlots := hticked.unquoted hhas
    rw [hhas] at hquotes honeSided hpulled hcrossed hlist
    simp only [Bool.false_eq_true, if_false, ite_self] at hquotes honeSided hpulled hcrossed hlist
    rw [List.append_nil] at hlist
    rw [hlots] at hpeak
    refine ⟨h.balanced.tick ev, ?_, ?_, ?_, ?_, ?_, ?_⟩
    · rw [hquotes, hlist, h.quotes_eq, Nat.add_zero]
    · rw [honeSided, hlist, h.oneSided, Nat.add_zero]
    · rw [hpulled, hlist, h.pulled, Nat.add_zero]
    · rw [hcrossed, hlist, h.crossed]
      exact Int.add_zero _
    · rw [hpeak, hlist]
      exact if_neg (by omega)
    · rw [hlist, strat_tick, hlots]
      exact hheld

theorem tallied_after (p : StrategyParams F) (events : List MarketEvent) :
    Tallied (after p events) :=
  Runs.run_invariant (step_preserves (fun _ ev h => h.absorb ev) fun _ ev h => h.tick ev)
    ⟨balanced_init p, rfl, rfl, rfl, rfl, rfl, Nat.le_refl _⟩ events

end StrategyLoop

/-! ## The two agree -/

namespace Ledger

/-- The closing cash stands on the last record. -/
theorem lastCash {l₀ c₀ l₁ c₁ : Int} {fills : List FillRecord} (h : Ledger l₀ c₀ fills l₁ c₁) :
    c₁ = (fills.getLast?.map FillRecord.cashAfter).getD c₀ := by
  induction h with
  | nil => rfl
  | @cons lots cash lots' cash' f fills _ _ _ ih =>
    rw [ih, List.getLast?_cons]
    cases fills.getLast? <;> rfl

/-- An account that is marked at `midX2 / 2` has what each entry gained since. -/
theorem marked {l₀ c₀ l₁ c₁ : Int} {fills : List FillRecord} (h : Ledger l₀ c₀ fills l₁ c₁)
    (midX2 : Int) :
    2 * c₁ + l₁ * midX2 = 2 * c₀ + l₀ * midX2 +
      (fills.map fun f => f.qtyLots * (midX2 - 2 * f.pxTicks) - 2 * f.feeUnits).sum := by
  induction h with
  | nil => rw [List.map_nil, List.sum_nil, Int.add_zero]
  | @cons lots cash lots' cash' f fills inventory money _ ih =>
    rw [ih, inventory, money, List.map_cons, List.sum_cons]
    ring

end Ledger

/-- The numbers that the script and the replay share. -/
structure PaperReport.Agrees {F : Type} (r : PaperReport) (s : StrategySummary F) : Prop where
  quotes_eq : r.quotes = s.quotes
  fills_eq : r.fills = s.fills
  pulled : r.pulled = s.pulledTicks
  oneSided : r.oneSided = s.oneSidedTicks
  crossViol : r.crossViol = s.crossViolations
  finalInv : r.finalInv = s.finalInventory
  finalCash : r.finalCash = s.finalCashUnits
  maxAbs : r.maxAbs = s.maxAbsInventory

theorem PaperReport.Sums.agrees {F : Type} [Double F] {p : StrategyParams F}
    {events : List MarketEvent} {r : PaperReport}
    (h : Sums (replayStrategy events p).quotes (replayStrategy events p).fills r) :
    r.Agrees (replayStrategy events p).summary := by
  have htallied := StrategyLoop.tallied_after p events
  refine ⟨h.quotes_eq.trans htallied.quotes_eq.symm,
    h.fills_eq.trans htallied.balanced.count.symm, h.pulled.trans htallied.pulled.symm,
    h.oneSided.trans htallied.oneSided.symm, ?_,
    h.finalInv.trans htallied.balanced.ledger.last.symm,
    h.finalCash.trans htallied.balanced.ledger.lastCash.symm, ?_⟩
  · rw [h.crossViol]
    exact htallied.crossed.symm
  · rw [maxAbs, h.invSeries, List.map_map]
    exact htallied.peak_eq.symm

/-- A log of a live run replays as the events that were taken. -/
theorem LiveRun.replayStrategyFile_closedLog {F : Type} [Double F] {parser : String → Option Dom}
    {cfg : AppConfig F} (r : LiveRun F parser cfg true) (hstrat : cfg.strategyEnabled = true)
    (path : String) :
    replayStrategyFile path r.closedLog cfg.strategy =
      .ok (replayStrategy (EngineThread.eventsOf r.taken) cfg.strategy) := by
  obtain ⟨live, hs, hclosed⟩ := r.synced hstrat
  rw [replayStrategyFile, hclosed, readLogEvents_written, hs.popped]
  rfl

/-- **The script agrees with the replay.**  Take the log of any live run with a strategy, and
replay it.  If no number in its quotes and fills overflows, the script reports the numbers that
the replay sums up and fails exactly if a quote crossed.  The volumes bought and sold differ by
the inventory, and what it marks at the last mid is, in exact arithmetic, the sum over the fills
of what each gained since, less the fees. -/
theorem report_agrees_with_replay {F : Type} [Double F] {parser : String → Option Dom}
    {cfg : AppConfig F} (r : LiveRun F parser cfg true) (hstrat : cfg.strategyEnabled = true)
    (path : String) :
    ∃ file s, r.closedLog = some file ∧
      replayStrategyFile path r.closedLog cfg.strategy = .ok s ∧
      ((∀ q ∈ s.quotes, q.Fits) → (∀ f ∈ s.fills, f.Fits) →
        ∃ report, paperReport file = .reported report ∧
          report.Agrees s.summary ∧
          ((paperReport file).exitCode = 0 ↔ s.summary.crossViolations = 0) ∧
          report.buyQty - report.sellQty = report.finalInv ∧
          report.lastMidX2 = (s.quotes.getLast?.map QuoteRecord.midX2).getD 0 ∧
          2 * (report.marked : ℝ) = ((s.fills.map fun f =>
            f.qtyLots * (report.lastMidX2 - 2 * f.pxTicks) - 2 * f.feeUnits).sum : Int)) := by
  obtain ⟨live, hs, hclosed⟩ := r.synced hstrat
  let s := replayStrategy (EngineThread.eventsOf r.taken) cfg.strategy
  have hledger : Ledger 0 0 s.fills s.summary.finalInventory s.summary.finalCashUnits :=
    (StrategyLoop.balanced_after cfg.strategy (EngineThread.eventsOf r.taken)).ledger
  have hquoted : live.logged.filterMap LogRecord.quote? = s.quotes := hs.lockStep.quotes
  have hfilled : live.logged.filterMap LogRecord.fill? = s.fills := hs.lockStep.fills
  refine ⟨_, s, hclosed, r.replayStrategyFile_closedLog hstrat path, ?_⟩
  intro hquotes hfills
  rw [← hquoted] at hquotes
  rw [← hfilled] at hfills
  have hsums := PaperReport.sums_fold live.logged hquotes hfills
  have hreported : paperReport (LogHeader.layout.encode LogHeader.current ++
      live.logged.flatMap LogRecord.encode) =
        .reported (live.logged.foldl PaperReport.add .empty) := by
    rw [paperReport_header, ← List.append_nil (live.logged.flatMap _),
      PaperReport.readRecords_whole, PaperReport.readRecords_short (by decide)]
  rw [hquoted, hfilled] at hsums
  have hagrees : PaperReport.Agrees _ s.summary := hsums.agrees
  refine ⟨_, hreported, hagrees, ?_, ?_, hsums.lastMid, ?_⟩
  · have hcrossed := hagrees.crossViol
    rw [hreported, ReportOutcome.exitCode]
    split <;> omega
  · rw [hsums.volumes, hagrees.finalInv, hledger.totals.1, Int.zero_add]
  · rw [PaperReport.two_mul_marked, hagrees.finalCash, hagrees.finalInv, hledger.marked,
      Int.mul_zero, Int.zero_mul, Int.add_zero, Int.zero_add]

namespace LiveRun

/-- A snapshot with one level a side. -/
def dipSnapshot : String :=
  "\x7b\"lastUpdateId\":1,\"bids\":[[\"1000\",\"1\"]],\"asks\":[[\"1002\",\"1\"]]\x7d"

/-- A diff that leaves the best prices as they are. -/
def wideDiff : String := "\x7b\"U\":2,\"u\":2,\"b\":[],\"a\":[[\"1002\",\"2\"]]\x7d"

/-- A diff that brings four lots down to the bid quoted before. -/
def dipDiff : String := "\x7b\"U\":3,\"u\":3,\"b\":[],\"a\":[[\"1001\",\"4\"]]\x7d"

/-- The JSON parser on the three messages. -/
def dipParser (json : String) : Option Dom :=
  if json = dipSnapshot then
    some (.object [("lastUpdateId", .int 1),
      ("bids", .array [.array [.string "1000", .string "1"]]),
      ("asks", .array [.array [.string "1002", .string "1"]])])
  else if json = wideDiff then
    some (.object [("U", .int 2), ("u", .int 2), ("b", .array []),
      ("a", .array [.array [.string "1002", .string "2"]])])
  else if json = dipDiff then
    some (.object [("U", .int 3), ("u", .int 3), ("b", .array []),
      ("a", .array [.array [.string "1001", .string "4"]])])
  else none

def dipConfig : AppConfig Strategy.Whole :=
  { tinyConfig with strategyEnabled := true, strategy := Strategy.quoteAtOnce }

/-- The snapshot and the two diffs, then the stop. -/
def dipMd (i : Nat) : (c : MdCall) → MdCall.Answer c
  | .stopLoad => Nat.ble 13 i
  | .read => ⟨.kOk, if i < 9 then wideDiff else dipDiff⟩
  | .get _ _ => some dipSnapshot
  | c => tinyMd i c

/-- No cross-check is fetched. -/
def dipCheck (i : Nat) : (c : CheckCall) → c.Answer
  | .get _ _ => none
  | c => tinyCheck i c

/-- The events that the market-data thread pushes. -/
def dipPushed : List MarketEvent :=
  ((MarketDataThread.run dipParser (Main.makeParams dipConfig) 4 .new).exec dipMd 17).flatMap
    fun x => MarketDataThread.pushed x.1 x.2

/-- The engine finds them all in its first round. -/
def dipEngine (i : Nat) : (c : EngineCall) → c.Answer
  | .stopLoad => Nat.ble 5 i
  | .tryPop => dipPushed[i - 1]?
  | .tryPopCheck => none
  | .nowNs => 0
  | .sleepUs => ()

/-- A run whose first quote is filled by the next event. -/
def dipRun : LiveRun Strategy.Whole dipParser dipConfig true where
  rounds := 4
  md := .of dipMd 17 (by rfl)
  engine := .of dipEngine 10 (by rfl)
  check := .of dipCheck 9 (by rfl)
  queue := inTurn dipPushed
  checkQueue := []
  pushed := by decide +kernel
  popped := by decide +kernel
  checkPushed := by rfl
  checkPopped := by rfl

end LiveRun

/-- Four lots bought at 1001 for a fee of 4, marked at 1000.5. -/
theorem report_agrees_with_replay_dip : ∃ file report,
    LiveRun.dipRun.closedLog = some file ∧ paperReport file = .reported report ∧
      report.quotes = 2 ∧ report.fills = 1 ∧ report.buyQty - report.sellQty = 4 ∧
      (report.marked : ℝ) = -6 := by
  obtain ⟨file, s, hclosed, hreplay, hreport⟩ :=
    report_agrees_with_replay LiveRun.dipRun rfl ""
  rw [LiveRun.dipRun.replayStrategyFile_closedLog rfl, Except.ok.injEq] at hreplay
  subst hreplay
  obtain ⟨report, hreported, hagrees, -, hvolumes, hmid, hmarked⟩ :=
    hreport (by decide +kernel) (by decide +kernel)
  have hinv : report.finalInv = 4 := hagrees.finalInv.trans (by decide +kernel)
  have hmid : report.lastMidX2 = 2001 := hmid.trans (by decide +kernel)
  have hgained : ∀ midX2 : Int, midX2 = 2001 → ((replayStrategy
      (EngineThread.eventsOf LiveRun.dipRun.taken) LiveRun.dipConfig.strategy).fills.map fun f =>
        f.qtyLots * (midX2 - 2 * f.pxTicks) - 2 * f.feeUnits).sum = -12 := by
    rintro _ rfl
    decide +kernel
  rw [hgained _ hmid] at hmarked
  refine ⟨file, report, hclosed, hreported, hagrees.quotes_eq.trans (by decide +kernel),
    hagrees.fills_eq.trans (by decide +kernel), hvolumes.trans hinv, ?_⟩
  push_cast at hmarked
  linarith

end Asmm
