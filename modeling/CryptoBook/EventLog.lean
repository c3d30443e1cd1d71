import CryptoBook.Layout
import CryptoBook.Records

/-! # The binary event log

`engine/event_log.cpp`: a file header, then records framed by type and length.  The
writer buffers what it is given and empties the buffer to the file when it grows past a
threshold, on `Flush` and on `Close`; whatever the pattern of flushes, file and buffer
together hold everything written, in order (`contents_write`).

The reader fills market events and decisions and skips every other record by its length,
so what the writer adds to the log beside them is invisible to it (`next_encode`). -/
namespace Asmm
open Bytes

/-! ## Memory images -/

namespace EventKind

def toByte : EventKind → UInt8
  | .kDepthDiff => 0
  | .kTrade => 1
  | .kSnapshot => 2
  | .other byte _ => byte

def ofByte (b : UInt8) : EventKind :=
  if b = 0 then .kDepthDiff
  else if b = 1 then .kTrade
  else if h : 3 ≤ b then .other b h
  else .kSnapshot

theorem ofByte_toByte (k : EventKind) : ofByte k.toByte = k := by
  cases k with
  | kDepthDiff => rfl
  | kTrade => rfl
  | kSnapshot => rfl
  | other byte unnamed =>
    have h0 : byte ≠ 0 := by rintro rfl; exact absurd unnamed (by decide)
    have h1 : byte ≠ 1 := by rintro rfl; exact absurd unnamed (by decide)
    simp [ofByte, toByte, h0, h1, unnamed]

def layout : Layout EventKind := Layout.u8.iso toByte ofByte ofByte_toByte

end EventKind

/-- `DepthLevel`, 16 bytes. -/
def DepthLevel.layout : Layout DepthLevel :=
  (Layout.i64.pair Layout.i64).iso (fun l => (l.pxTicks, l.qtyLots)) (fun p => ⟨p.1, p.2⟩)
    fun _ => rfl

/-- `MarketEvent`, 1080 bytes. -/
def MarketEvent.layout : Layout MarketEvent :=
  (Layout.u64.pair <| Layout.i64.pair <| Layout.i64.pair <| Layout.u64.pair <|
    Layout.u64.pair <| Layout.u64.pair <| EventKind.layout.pair <| Layout.u8.pair <|
    Layout.u8.pair <| Layout.u8.pair <| (Layout.padding 4).pair <|
    Layout.vector kMaxLevelsPerEvent DepthLevel.layout).iso
    (fun ev => (ev.seq, ev.tsRecvNs, ev.tsExchangeMs, ev.firstUpdateId, ev.finalUpdateId,
      ev.prevUpdateId, ev.kind, ev.numBids, ev.numAsks, ev.flags, (), ev.levels))
    (fun (seq, tsRecvNs, tsExchangeMs, firstUpdateId, finalUpdateId, prevUpdateId, kind, numBids,
        numAsks, flags, _, levels) =>
      ⟨seq, tsRecvNs, tsExchangeMs, firstUpdateId, finalUpdateId, prevUpdateId, kind, numBids,
        numAsks, flags, levels⟩)
    fun _ => rfl

/-- `DecisionRecord`, 64 bytes. -/
def DecisionRecord.layout : Layout DecisionRecord :=
  (Layout.u64.pair <| Layout.i64.pair <| Layout.i64.pair <| Layout.i64.pair <|
    Layout.i64.pair <| Layout.i64.pair <| Layout.u32.pair <| Layout.u32.pair <|
    Layout.u8.pair <| Layout.u8.pair <| Layout.padding 6).iso
    (fun d => (d.finalUpdateId, d.bestBidPx, d.bestBidQty, d.bestAskPx, d.bestAskQty, d.midX2,
      d.numBids, d.numAsks, d.bookLive, d.hadGap, ()))
    (fun (finalUpdateId, bestBidPx, bestBidQty, bestAskPx, bestAskQty, midX2, numBids, numAsks,
        bookLive, hadGap, _) =>
      ⟨finalUpdateId, bestBidPx, bestBidQty, bestAskPx, bestAskQty, midX2, numBids, numAsks,
        bookLive, hadGap⟩)
    fun _ => rfl

/-- The bytes of a `QuoteRecord`, 72 of them. -/
def QuoteRecord.bytes (q : QuoteRecord) : List UInt8 :=
  let i64 (x : Int) := Layout.i64.encode (Int64.ofInt x)
  let flag (b : Bool) := Layout.u8.encode (if b then 1 else 0)
  Layout.u64.encode q.finalUpdateId ++ i64 q.bidPx ++ i64 q.bidQty ++ i64 q.askPx ++
    i64 q.askQty ++ i64 q.midX2 ++ i64 q.inventoryLots ++ i64 q.sigmaPMicro ++ flag q.quoting ++
    flag q.oneSided ++ flag q.pulled ++ (Layout.padding 5).encode ()

/-- The bytes of a `FillRecord`, 56 of them. -/
def FillRecord.bytes (f : FillRecord) : List UInt8 :=
  let i64 (x : Int) := Layout.i64.encode (Int64.ofInt x)
  Layout.u64.encode f.finalUpdateId ++ i64 f.pxTicks ++ i64 f.qtyLots ++ i64 f.feeUnits ++
    i64 f.inventoryAfter ++ i64 f.cashAfter ++
    Layout.u8.encode (match f.side with | .kBid => 0 | .kAsk => 1) ++ (Layout.padding 7).encode ()

/-- An enumeration over `u8` without explicit values. -/
def Side.toByte : Side → UInt8
  | .kBid => 0
  | .kAsk => 1

def CmdKind.toByte : CmdKind → UInt8
  | .kPlace => 0
  | .kCancel => 1
  | .kCancelAll => 2

def ExecKind.toByte : ExecKind → UInt8
  | .kAck => 0
  | .kPartial => 1
  | .kFilled => 2
  | .kCanceled => 3
  | .kRejected => 4
  | .kExpired => 5

def CommAsset.toByte : CommAsset → UInt8
  | .kBase => 0
  | .kQuote => 1
  | .kOther => 2

/-- The bytes of an `OrderCommand`, 48 of them. -/
def OrderCommand.bytes (c : OrderCommand) : List UInt8 :=
  let u64 (x : Nat) := Layout.u64.encode (UInt64.ofNat x)
  let i64 (x : Int) := Layout.i64.encode (Int64.ofInt x)
  u64 c.seq ++ u64 c.clientId ++ i64 c.pxTicks ++ i64 c.qtyLots ++ i64 c.tsNs ++
    Layout.u8.encode c.kind.toByte ++ Layout.u8.encode c.side.toByte ++
    (Layout.padding 6).encode ()

/-- The bytes of an `ExecEvent`, 80 of them. -/
def ExecEvent.bytes (e : ExecEvent) : List UInt8 :=
  let u64 (x : Nat) := Layout.u64.encode (UInt64.ofNat x)
  let i64 (x : Int) := Layout.i64.encode (Int64.ofInt x)
  u64 e.seq ++ u64 e.clientId ++ u64 e.exchangeOrderId ++ i64 e.lastPxTicks ++
    i64 e.lastQtyLots ++ i64 e.cumQtyLots ++ i64 e.feeUnits ++ i64 e.tsExchangeMs ++
    i64 e.tsRecvNs ++ Layout.u8.encode e.kind.toByte ++ Layout.u8.encode e.side.toByte ++
    Layout.u8.encode e.commAsset.toByte ++ Layout.u8.encode e.rejectReason ++
    (Layout.padding 4).encode ()

/-- The bytes of an `OpenOrderRow`, 48 of them. -/
def OpenOrderRow.bytes (row : OpenOrderRow) : List UInt8 :=
  let u64 (x : Nat) := Layout.u64.encode (UInt64.ofNat x)
  let i64 (x : Int) := Layout.i64.encode (Int64.ofInt x)
  u64 row.clientId ++ u64 row.exchangeOrderId ++ i64 row.pxTicks ++ i64 row.origQtyLots ++
    i64 row.cumQtyLots ++ Layout.u8.encode row.side.toByte ++ (Layout.padding 7).encode ()

/-- The bytes of a `ReconcileReport`, 816 of them. -/
def ReconcileReport.bytes (r : ReconcileReport) : List UInt8 :=
  let i64 (x : Int) := Layout.i64.encode (Int64.ofInt x)
  i64 r.baseFreeLots ++ i64 r.baseLockedLots ++ i64 r.quoteFreeUnits ++ i64 r.quoteLockedUnits ++
    i64 r.tsExchangeMs ++ Layout.u32.encode (UInt32.ofNat r.numOpen) ++
    (Layout.padding 4).encode () ++ r.rows.toList.flatMap OpenOrderRow.bytes

/-- `sizeof(QuoteRecord)` and `sizeof(FillRecord)`. -/
def QuoteRecord.size : Nat := 72

def FillRecord.size : Nat := 56

theorem QuoteRecord.length_bytes (q : QuoteRecord) : q.bytes.length = QuoteRecord.size := by
  simp only [QuoteRecord.bytes, List.length_append, Layout.length_encode]
  rfl

theorem FillRecord.length_bytes (f : FillRecord) : f.bytes.length = FillRecord.size := by
  simp only [FillRecord.bytes, List.length_append, Layout.length_encode]
  rfl

theorem OrderCommand.length_bytes (c : OrderCommand) : c.bytes.length = 48 := by
  simp only [OrderCommand.bytes, List.length_append, Layout.length_encode]
  rfl

theorem ExecEvent.length_bytes (e : ExecEvent) : e.bytes.length = 80 := by
  simp only [ExecEvent.bytes, List.length_append, Layout.length_encode]
  rfl

theorem OpenOrderRow.length_bytes (row : OpenOrderRow) : row.bytes.length = 48 := by
  simp only [OpenOrderRow.bytes, List.length_append, Layout.length_encode]
  rfl

theorem ReconcileReport.length_bytes (r : ReconcileReport) : r.bytes.length = 816 := by
  have hrows : (r.rows.toList.flatMap OpenOrderRow.bytes).length = kMaxReconcileRows * 48 := by
    rw [Bytes.length_flatMap_const OpenOrderRow.length_bytes, Vector.length_toList]
  simp only [ReconcileReport.bytes, List.length_append, Layout.length_encode, hrows]
  rfl

/-- Per-record framing. -/
structure RecordHeader where
  type : UInt32
  len : UInt32

def RecordHeader.layout : Layout RecordHeader :=
  (Layout.u32.pair Layout.u32).iso (fun h => (h.type, h.len)) (fun p => ⟨p.1, p.2⟩) fun _ => rfl

structure LogHeader where
  magic : Vector UInt8 4
  version : UInt32
  marketEventSize : UInt32
  decisionSize : UInt32
  quoteSize : UInt32
  fillSize : UInt32
  deriving DecidableEq

def LogHeader.layout : Layout LogHeader :=
  ((Layout.vector 4 Layout.u8).pair <| Layout.u32.pair <| Layout.u32.pair <| Layout.u32.pair <|
    Layout.u32.pair Layout.u32).iso
    (fun h => (h.magic, h.version, h.marketEventSize, h.decisionSize, h.quoteSize, h.fillSize))
    (fun (magic, version, marketEventSize, decisionSize, quoteSize, fillSize) =>
      ⟨magic, version, marketEventSize, decisionSize, quoteSize, fillSize⟩)
    fun _ => rfl

def kLogVersion : UInt32 := 2

/-- `"ASML"`. -/
def kLogMagic : Vector UInt8 4 := #v[0x41, 0x53, 0x4D, 0x4C]

/-- The header of a log written by this build. -/
def LogHeader.current : LogHeader where
  magic := kLogMagic
  version := kLogVersion
  marketEventSize := UInt32.ofNat MarketEvent.layout.size
  decisionSize := UInt32.ofNat DecisionRecord.layout.size
  quoteSize := UInt32.ofNat QuoteRecord.size
  fillSize := UInt32.ofNat FillRecord.size

/-! ## Records -/

/-- A record of the log.  The engine writes the first four kinds; the order flow has the
other three. -/
inductive LogRecord where
  | marketEvent (ev : MarketEvent)
  | decision (d : DecisionRecord)
  | quote (q : QuoteRecord)
  | fill (f : FillRecord)
  | orderCommand (c : OrderCommand)
  | execEvent (e : ExecEvent)
  | reconcile (r : ReconcileReport)
  deriving DecidableEq

namespace LogRecord

/-- `enum RecordType`. -/
def kRecMarketEvent : UInt32 := 1
def kRecDecision : UInt32 := 2
def kRecQuote : UInt32 := 3
def kRecFill : UInt32 := 4
def kRecOrderCmd : UInt32 := 5
def kRecExecEvent : UInt32 := 6
def kRecReconcile : UInt32 := 7

def type : LogRecord → UInt32
  | .marketEvent _ => kRecMarketEvent
  | .decision _ => kRecDecision
  | .quote _ => kRecQuote
  | .fill _ => kRecFill
  | .orderCommand _ => kRecOrderCmd
  | .execEvent _ => kRecExecEvent
  | .reconcile _ => kRecReconcile

def payload : LogRecord → List UInt8
  | .marketEvent ev => MarketEvent.layout.encode ev
  | .decision d => DecisionRecord.layout.encode d
  | .quote q => q.bytes
  | .fill f => f.bytes
  | .orderCommand c => c.bytes
  | .execEvent e => e.bytes
  | .reconcile r => r.bytes

/-- The header written before the payload. -/
def header (r : LogRecord) : RecordHeader := ⟨r.type, UInt32.ofNat r.payload.length⟩

/-- A framed record. -/
def encode (r : LogRecord) : List UInt8 := RecordHeader.layout.encode r.header ++ r.payload

def marketEvent? : LogRecord → Option MarketEvent
  | .marketEvent ev => some ev
  | _ => none

def decision? : LogRecord → Option DecisionRecord
  | .decision d => some d
  | _ => none

def quote? : LogRecord → Option QuoteRecord
  | .quote q => some q
  | _ => none

def fill? : LogRecord → Option FillRecord
  | .fill f => some f
  | _ => none

/-- Every payload is far below the range of the length field. -/
theorem len_header (r : LogRecord) : r.header.len.toNat = r.payload.length := by
  have hlt : r.payload.length < 2 ^ 32 := by
    cases r with
    | marketEvent ev => rw [payload, Layout.length_encode]; decide
    | decision d => rw [payload, Layout.length_encode]; decide
    | quote q => rw [payload, QuoteRecord.length_bytes]; decide
    | fill f => rw [payload, FillRecord.length_bytes]; decide
    | orderCommand c => rw [payload, OrderCommand.length_bytes]; decide
    | execEvent e => rw [payload, ExecEvent.length_bytes]; decide
    | reconcile r => rw [payload, ReconcileReport.length_bytes]; decide
  rw [header, UInt32.toNat_ofNat', Nat.mod_eq_of_lt hlt]

theorem length_encode (r : LogRecord) :
    r.encode.length = RecordHeader.layout.size + r.payload.length := by
  rw [encode, List.length_append, Layout.length_encode]

end LogRecord

/-! ## The writer -/

/-- The log file and the bytes not yet written to it. -/
structure EventLogWriter where
  file : List UInt8
  buf : List UInt8
  isOpen : Bool

namespace EventLogWriter

/-- 1 MiB. -/
def kFlushThreshold : Nat := 2 ^ 20

/-- `EventLogWriter::Flush`. -/
def flush (w : EventLogWriter) : EventLogWriter :=
  if w.isOpen = true ∧ w.buf ≠ [] then { w with file := w.file ++ w.buf, buf := [] } else w

/-- `EventLogWriter::Append`. -/
def append (w : EventLogWriter) (bytes : List UInt8) : EventLogWriter :=
  let w := { w with buf := w.buf ++ bytes }
  if kFlushThreshold ≤ w.buf.length then w.flush else w

/-- The constructor, on a file that could be opened. -/
def create : EventLogWriter := append ⟨[], [], true⟩ (LogHeader.layout.encode LogHeader.current)

/-- `EventLogWriter::WriteRecord`. -/
def writeRecord (w : EventLogWriter) (type : UInt32) (payload : List UInt8) : EventLogWriter :=
  (w.append (RecordHeader.layout.encode ⟨type, UInt32.ofNat payload.length⟩)).append payload

/-- `WriteMarketEvent`, `WriteDecision`, `WriteQuote`, `WriteFill`, `WriteOrderCommand`,
`WriteExecEvent` and `WriteReconcile`. -/
def write (w : EventLogWriter) (r : LogRecord) : EventLogWriter := w.writeRecord r.type r.payload

/-- `EventLogWriter::Close`. -/
def close (w : EventLogWriter) : EventLogWriter :=
  if w.isOpen then { w.flush with isOpen := false } else w

/-- Everything written so far. -/
def contents (w : EventLogWriter) : List UInt8 := w.file ++ w.buf

@[simp] theorem contents_flush (w : EventLogWriter) : w.flush.contents = w.contents := by
  unfold flush
  split
  · exact List.append_nil _
  · rfl

@[simp] theorem isOpen_flush (w : EventLogWriter) : w.flush.isOpen = w.isOpen := by
  unfold flush
  split <;> rfl

@[simp] theorem contents_append (w : EventLogWriter) (bytes : List UInt8) :
    (w.append bytes).contents = w.contents ++ bytes := by
  have hgrown : contents { w with buf := w.buf ++ bytes } = w.contents ++ bytes :=
    (List.append_assoc ..).symm
  unfold append
  dsimp only
  split
  · rw [contents_flush, hgrown]
  · exact hgrown

@[simp] theorem isOpen_append (w : EventLogWriter) (bytes : List UInt8) :
    (w.append bytes).isOpen = w.isOpen := by
  unfold append
  dsimp only
  split
  · rw [isOpen_flush]
  · rfl

/-- Whatever the buffer does, a record ends up behind what was written before. -/
theorem contents_write (w : EventLogWriter) (r : LogRecord) :
    (w.write r).contents = w.contents ++ r.encode := by
  rw [write, writeRecord, contents_append, contents_append, List.append_assoc]
  rfl

theorem isOpen_write (w : EventLogWriter) (r : LogRecord) : (w.write r).isOpen = w.isOpen := by
  rw [write, writeRecord, isOpen_append, isOpen_append]

theorem contents_create : create.contents = LogHeader.layout.encode LogHeader.current := by
  rw [create, contents_append]
  rfl

theorem isOpen_create : create.isOpen = true := by
  rw [create, isOpen_append]

/-- Closing empties the buffer. -/
theorem file_close {w : EventLogWriter} (h : w.isOpen = true) : w.close.file = w.contents := by
  rw [close, if_pos h]
  show w.flush.file = w.contents
  unfold flush contents
  by_cases hbuf : w.buf = []
  · rw [if_neg (fun hc => hc.2 hbuf), hbuf, List.append_nil]
  · rw [if_pos ⟨h, hbuf⟩]

end EventLogWriter

/-! ## The reader -/

/-- The bytes a reader has not consumed yet. -/
structure EventLogReader where
  rest : List UInt8

namespace EventLogReader

/-- The constructor, on the file at `path` (`none` if it cannot be opened). -/
def openLog (path : String) : Option (List UInt8) → Except String EventLogReader
  | none => .error ("cannot open event log for read: " ++ path)
  | some bytes =>
      if bytes.length < LogHeader.layout.size then
        .error ("event log truncated header: " ++ path)
      else
        let h := LogHeader.layout.decode (bytes.take LogHeader.layout.size)
        if h.magic ≠ kLogMagic then .error ("event log bad magic: " ++ path)
        else if h.version ≠ kLogVersion then .error ("event log version mismatch: " ++ path)
        else if h.marketEventSize ≠ LogHeader.current.marketEventSize ∨
            h.decisionSize ≠ LogHeader.current.decisionSize ∨
            h.quoteSize ≠ LogHeader.current.quoteSize ∨
            h.fillSize ≠ LogHeader.current.fillSize then
          .error ("event log struct-size mismatch (incompatible build): " ++ path)
        else .ok ⟨bytes.drop LogHeader.layout.size⟩

/-- What `Next` filled. -/
inductive Filled where
  | ev (ev : MarketEvent)
  | d (d : DecisionRecord)

/-- Read an object of the given layout, if all its bytes are there. -/
def read {α : Type} (L : Layout α) (r : EventLogReader) : Option (α × EventLogReader) :=
  if r.rest.length < L.size then none
  else some (L.decode (r.rest.take L.size), ⟨r.rest.drop L.size⟩)

theorem length_of_read {α : Type} {L : Layout α} {r r' : EventLogReader} {a : α}
    (h : r.read L = some (a, r')) : r.rest.length = L.size + r'.rest.length := by
  unfold read at h
  split at h
  · cases h
  · obtain ⟨_, rfl⟩ := Prod.mk.inj (Option.some.inj h)
    show r.rest.length = L.size + (r.rest.drop L.size).length
    rw [List.length_drop]
    omega

theorem read_of_length {α : Type} {L : Layout α} {bytes : List UInt8} (h : bytes.length = L.size)
    (rest : List UInt8) : read L ⟨bytes ++ rest⟩ = some (L.decode bytes, ⟨rest⟩) := by
  have hlen : ¬ (bytes ++ rest).length < L.size := by
    rw [List.length_append]
    omega
  simp only [read, if_neg hlen]
  rw [List.take_left' h, List.drop_left' h]

theorem read_append {α : Type} (L : Layout α) (a : α) (rest : List UInt8) :
    read L ⟨L.encode a ++ rest⟩ = some (a, ⟨rest⟩) := by
  rw [read_of_length (L.length_encode a), L.decode_encode]

/-- `EventLogReader::Next`: `none` at the end of the file or in a truncated record. -/
def next (r : EventLogReader) : Option (Filled × EventLogReader) :=
  match _hread : r.read RecordHeader.layout with
  | none => none
  | some (hdr, body) =>
      if hdr.type = LogRecord.kRecMarketEvent then
        (body.read MarketEvent.layout).map fun (ev, r) => (.ev ev, r)
      else if hdr.type = LogRecord.kRecDecision then
        (body.read DecisionRecord.layout).map fun (d, r) => (.d d, r)
      -- any other type: skip its payload and read the next one
      else next ⟨body.rest.drop hdr.len.toNat⟩
termination_by r.rest.length
decreasing_by
  have hlen := length_of_read _hread
  have hsize : RecordHeader.layout.size = 8 := rfl
  simp only [List.length_drop]
  omega

/-- `EventLogReader::NextRaw`: type and payload of the next record, whatever its type. -/
def nextRaw (r : EventLogReader) : Option ((UInt32 × List UInt8) × EventLogReader) :=
  match r.read RecordHeader.layout with
  | none => none
  | some (hdr, body) =>
      if body.rest.length < hdr.len.toNat then none
      else some ((hdr.type, body.rest.take hdr.len.toNat), ⟨body.rest.drop hdr.len.toNat⟩)

/-- A header and an object that were read are behind the reader. -/
theorem length_lt_of_reads {α : Type} {L : Layout α} {fill : α → Filled} {hdr : RecordHeader}
    {r body r' : EventLogReader} {x : Filled}
    (hread : r.read RecordHeader.layout = some (hdr, body))
    (h : (body.read L).map (fun (a, r) => (fill a, r)) = some (x, r')) :
    r'.rest.length < r.rest.length := by
  obtain ⟨⟨a, r''⟩, hbody, hx⟩ := Option.map_eq_some_iff.mp h
  obtain ⟨_, rfl⟩ := Prod.mk.inj hx
  have hhdr := length_of_read hread
  have hlen := length_of_read hbody
  have hsize : RecordHeader.layout.size = 8 := rfl
  omega

/-- A record that was read is behind the reader. -/
theorem length_lt_of_next {r r' : EventLogReader} {x : Filled} (h : r.next = some (x, r')) :
    r'.rest.length < r.rest.length := by
  fun_induction next r with
  | case1 => cases h
  | case2 r hdr body hread _ => exact length_lt_of_reads hread h
  | case3 r hdr body hread _ _ => exact length_lt_of_reads hread h
  | case4 r hdr body hread _ _ ih =>
    have hskip := ih h
    have hhdr := length_of_read hread
    have hsize : RecordHeader.layout.size = 8 := rfl
    rw [List.length_drop] at hskip
    omega

/-- `Next` after the header has been read. -/
theorem next_of_read {r body : EventLogReader} {hdr : RecordHeader}
    (h : r.read RecordHeader.layout = some (hdr, body)) :
    r.next =
      if hdr.type = LogRecord.kRecMarketEvent then
        (body.read MarketEvent.layout).map fun (ev, r) => (.ev ev, r)
      else if hdr.type = LogRecord.kRecDecision then
        (body.read DecisionRecord.layout).map fun (d, r) => (.d d, r)
      else next ⟨body.rest.drop hdr.len.toNat⟩ := by
  rw [next]
  split
  · next hnone =>
    rw [hnone] at h
    cases h
  · next hdr' body' hsome =>
    obtain ⟨rfl, rfl⟩ := Prod.mk.inj (Option.some.inj (hsome.symm.trans h))
    rfl

theorem read_header_encode (r : LogRecord) (rest : List UInt8) :
    read RecordHeader.layout ⟨r.encode ++ rest⟩ = some (r.header, ⟨r.payload ++ rest⟩) := by
  rw [LogRecord.encode, List.append_assoc, read_append]

/-- A record that `Next` does not fill is passed over. -/
theorem next_skip {r : LogRecord} (hev : r.type ≠ LogRecord.kRecMarketEvent)
    (hd : r.type ≠ LogRecord.kRecDecision) (rest : List UInt8) :
    next ⟨r.encode ++ rest⟩ = next ⟨rest⟩ := by
  have hskip : (r.payload ++ rest).drop r.header.len.toNat = rest :=
    List.drop_left' (LogRecord.len_header r).symm
  rw [next_of_read (read_header_encode r rest)]
  have htype : r.header.type = r.type := rfl
  rw [htype, if_neg hev, if_neg hd, hskip]

/-- **What `Next` makes of a written record**: events and decisions come back as they
were, every other record is passed over. -/
theorem next_encode (r : LogRecord) (rest : List UInt8) :
    next ⟨r.encode ++ rest⟩ =
      match r with
      | .marketEvent ev => some (.ev ev, ⟨rest⟩)
      | .decision d => some (.d d, ⟨rest⟩)
      | _ => next ⟨rest⟩ := by
  cases r with
  | marketEvent ev =>
    have htype : (LogRecord.marketEvent ev).header.type = LogRecord.kRecMarketEvent := rfl
    rw [next_of_read (read_header_encode _ rest), if_pos htype, LogRecord.payload, read_append]
    rfl
  | decision d =>
    have htype : (LogRecord.decision d).header.type = LogRecord.kRecDecision := rfl
    rw [next_of_read (read_header_encode _ rest), htype, if_neg (by decide), if_pos rfl,
      LogRecord.payload, read_append]
    rfl
  | quote | fill | orderCommand | execEvent | reconcile =>
    exact next_skip (by rw [LogRecord.type]; decide) (by rw [LogRecord.type]; decide) rest

theorem next_nil : next ⟨[]⟩ = none := by
  unfold next
  rfl

theorem nextRaw_encode (r : LogRecord) (rest : List UInt8) :
    nextRaw ⟨r.encode ++ rest⟩ = some ((r.type, r.payload), ⟨rest⟩) := by
  have hlen := LogRecord.len_header r
  have henough : ¬ (r.payload ++ rest).length < r.header.len.toNat := by
    rw [hlen, List.length_append]
    omega
  simp only [nextRaw, read_header_encode, if_neg henough]
  rw [List.take_left' hlen.symm, List.drop_left' hlen.symm]
  rfl

theorem length_lt_of_nextRaw {r r' : EventLogReader} {x : UInt32 × List UInt8}
    (h : r.nextRaw = some (x, r')) : r'.rest.length < r.rest.length := by
  unfold nextRaw at h
  split at h
  · cases h
  · next hdr body hread =>
    split at h
    · cases h
    · obtain ⟨_, rfl⟩ := Prod.mk.inj (Option.some.inj h)
      have hhdr := length_of_read hread
      have hsize : RecordHeader.layout.size = 8 := rfl
      simp only [List.length_drop]
      omega

/-- All records, in file order. -/
def rawRecords (r : EventLogReader) : List (UInt32 × List UInt8) :=
  match _hnext : r.nextRaw with
  | none => []
  | some (x, r) => x :: rawRecords r
termination_by r.rest.length
decreasing_by exact length_lt_of_nextRaw _hnext

theorem rawRecords_eq (r : EventLogReader) :
    r.rawRecords = match r.nextRaw with
      | none => []
      | some (x, r) => x :: rawRecords r := by
  rw [rawRecords]
  split <;> next h => rw [h]

/-- Whole records are read back, up to bytes that are no record. -/
theorem rawRecords_append {tail : List UInt8} (htail : nextRaw ⟨tail⟩ = none)
    (records : List LogRecord) :
    rawRecords ⟨records.flatMap LogRecord.encode ++ tail⟩ =
      records.map fun r => (r.type, r.payload) := by
  induction records with
  | nil =>
    rw [List.flatMap_nil, List.nil_append, rawRecords_eq, htail]
    rfl
  | cons r records ih =>
    rw [List.flatMap_cons, List.append_assoc, rawRecords_eq, nextRaw_encode, List.map_cons, ← ih]

/-- What was written stands in the file, record by record. -/
theorem rawRecords_encode (records : List LogRecord) :
    rawRecords ⟨records.flatMap LogRecord.encode⟩ = records.map fun r => (r.type, r.payload) := by
  have hread := rawRecords_append (show nextRaw ⟨[]⟩ = none from rfl) records
  rwa [List.append_nil] at hread

/-- A file that starts with this build's header opens. -/
theorem openLog_header (path : String) (rest : List UInt8) :
    openLog path (some (LogHeader.layout.encode LogHeader.current ++ rest)) = .ok ⟨rest⟩ := by
  have hlen := LogHeader.layout.length_encode LogHeader.current
  have henough : ¬ (LogHeader.layout.encode LogHeader.current ++ rest).length <
      LogHeader.layout.size := by
    rw [List.length_append, hlen]
    omega
  simp only [openLog, if_neg henough, List.take_left' hlen, List.drop_left' hlen,
    Layout.decode_encode]
  simp [LogHeader.current]

end EventLogReader
end Asmm
