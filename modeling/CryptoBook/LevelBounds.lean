import CryptoBook.Fragmentation
import CryptoBook.LogRecovery
import CryptoBook.Replay

/-! # Level indices

`ApplyEvent` reads `levels[0]` to `levels[num_bids + num_asks - 1]` and does not check the
counts, so an event is only safe to apply if they add up to at most 64
(`applyEventChecked_eq`).

Three producers feed the book.  Both fragmenters fill an event only as far as the array
goes (`fragments_inRange`).  `EventLogReader::Next` copies whatever 1080 bytes stand in the file.
Which bytes those are is described here without the reader: a log is a sequence of frames,
each as long as its header makes the reader believe (`Frame`), and what is left at the end is
no whole frame (`exists_frames`).  The reader then returns the market events among the frames
(`readEvents_frames`), and these can be applied exactly if the two bytes that hold the counts
add up to at most 64 in each of them (`level_indices_in_range_iff`). -/
namespace Asmm
open Bytes

/-! ## Applying an event -/

namespace L2Book

/-- One of the two loops of `ApplyEvent`, over the levels at `index 0`, `index 1`, ...; an
index past the array has no level. -/
def applyLevels (ev : MarketEvent) (side : Side) (index : Nat → Nat) (b : L2Book)
    (is : List Nat) : Option L2Book :=
  is.foldlM (fun b i =>
    (ev.levels[index i]?).map fun l => (b.apply side l.pxTicks l.qtyLots).1) b

/-- `L2Book::ApplyEvent` with every index checked. -/
def applyEventChecked (b : L2Book) (ev : MarketEvent) : Option L2Book := do
  let b ← applyLevels ev .kBid (fun i => i) b (List.range ev.numBids.toNat)
  let b ← applyLevels ev .kAsk (fun i => ev.numBids.toNat + i) b (List.range ev.numAsks.toNat)
  return { b with lastUpdateId := ev.finalUpdateId, lastUpdateTsNs := ev.tsRecvNs }

section
variable {ev : MarketEvent} {side : Side} {index : Nat → Nat} {b : L2Book} {is : List Nat}

theorem applyLevels_cons {i : Nat} (hi : index i < kMaxLevelsPerEvent) :
    applyLevels ev side index b (i :: is) =
      applyLevels ev side index
        (b.apply side (ev.level (index i)).pxTicks (ev.level (index i)).qtyLots).1 is := by
  have hlevel : ev.levels[index i]? = some (ev.level (index i)) := by
    rw [MarketEvent.level, Vector.getElem?_eq_getElem hi]
    rfl
  rw [applyLevels, List.foldlM_cons, hlevel]
  rfl

/-- A loop all of whose indices are in the array does what `ApplyEvent` does. -/
theorem applyLevels_of_forall (h : ∀ i ∈ is, index i < kMaxLevelsPerEvent) :
    applyLevels ev side index b is =
      some (is.foldl (fun b i =>
        (b.apply side (ev.level (index i)).pxTicks (ev.level (index i)).qtyLots).1) b) := by
  induction is generalizing b with
  | nil => rfl
  | cons i is ih =>
    obtain ⟨hi, his⟩ := List.forall_mem_cons.mp h
    rw [applyLevels_cons hi, ih his, List.foldl_cons]

/-- A loop that comes to an index past the array has no result. -/
theorem applyLevels_of_past {i : Nat} (hmem : i ∈ is) (hpast : kMaxLevelsPerEvent ≤ index i) :
    applyLevels ev side index b is = none := by
  induction is generalizing b with
  | nil => cases hmem
  | cons k is ih =>
    by_cases hk : index k < kMaxLevelsPerEvent
    · have htail : i ∈ is := by
        refine (List.mem_cons.mp hmem).resolve_left ?_
        rintro rfl
        omega
      rw [applyLevels_cons hk, ih htail]
    · have hlevel : ev.levels[index k]? = none := Vector.getElem?_eq_none (Nat.not_lt.mp hk)
      rw [applyLevels, List.foldlM_cons, hlevel]
      rfl

end

end L2Book

/-- The counts of an event fit its array. -/
def MarketEvent.InRange (ev : MarketEvent) : Prop :=
  ev.numBids.toNat + ev.numAsks.toNat ≤ kMaxLevelsPerEvent

instance (ev : MarketEvent) : Decidable ev.InRange := Nat.decLe _ _

/-- **No index is past the array** exactly if the counts fit it, whatever the book. -/
theorem L2Book.applyEventChecked_eq (b : L2Book) (ev : MarketEvent) :
    b.applyEventChecked ev = if ev.InRange then some (b.applyEvent ev) else none := by
  unfold applyEventChecked
  by_cases hbids : ev.numBids.toNat ≤ kMaxLevelsPerEvent
  · have hbid : ∀ i ∈ List.range ev.numBids.toNat, i < kMaxLevelsPerEvent := by
      intro i hi
      rw [List.mem_range] at hi
      omega
    rw [applyLevels_of_forall hbid, Option.bind_eq_bind, Option.bind_some]
    split
    · next hfits =>
      unfold MarketEvent.InRange at hfits
      have hask : ∀ i ∈ List.range ev.numAsks.toNat,
          ev.numBids.toNat + i < kMaxLevelsPerEvent := by
        intro i hi
        rw [List.mem_range] at hi
        omega
      rw [applyLevels_of_forall hask]
      rfl
    · next hfits =>
      unfold MarketEvent.InRange at hfits
      -- the last ask is past the array
      have hlast : ev.numAsks.toNat - 1 ∈ List.range ev.numAsks.toNat := by
        rw [List.mem_range]
        omega
      have hpast : kMaxLevelsPerEvent ≤ ev.numBids.toNat + (ev.numAsks.toNat - 1) := by omega
      rw [applyLevels_of_past hlast hpast]
      rfl
  · have hlast : kMaxLevelsPerEvent ∈ List.range ev.numBids.toNat := by
      rw [List.mem_range]
      omega
    have hfits : ¬ ev.InRange := fun h => hbids (Nat.le_of_add_right_le h)
    rw [applyLevels_of_past hlast (Nat.le_refl _), if_neg hfits]
    rfl

/-- An event that any book can apply without reading past the array. -/
def MarketEvent.SafeToApply (ev : MarketEvent) : Prop :=
  ev.InRange ∧ ∀ b : L2Book, b.applyEventChecked ev = some (b.applyEvent ev)

theorem MarketEvent.safeToApply_iff {ev : MarketEvent} : ev.SafeToApply ↔ ev.InRange := by
  refine ⟨fun h => h.1, fun h => ⟨h, fun b => ?_⟩⟩
  rw [b.applyEventChecked_eq, if_pos h]

/-! ## The fragmenters -/

theorem fragments_inRange (header : Bool → MarketEvent) (bids asks : List DepthLevel) :
    ∀ ev ∈ fragments header bids asks, ev.InRange :=
  (fragmentLoop_split (Nat.lt_succ_self _)).fits

/-! ## Frames of a log -/

/-- How many bytes `Next` consumes behind a header: the object it fills, or, for a type that
it skips, what the header says. -/
def RecordHeader.consumed (hdr : RecordHeader) : Nat :=
  if hdr.type = LogRecord.kRecMarketEvent then MarketEvent.layout.size
  else if hdr.type = LogRecord.kRecDecision then DecisionRecord.layout.size
  else hdr.len.toNat

/-- The event that `Next` fills in from the bytes behind a header. -/
def RecordHeader.marketEvent? (hdr : RecordHeader) (payload : List UInt8) : Option MarketEvent :=
  if hdr.type = LogRecord.kRecMarketEvent then some (MarketEvent.layout.decode payload) else none

/-- **What the loop reads behind a header**: nothing if less is left than it consumes. -/
theorem readEvents_header {header : List UInt8} (hlen : header.length = RecordHeader.layout.size)
    (body : List UInt8) :
    readEvents ⟨header ++ body⟩ =
      let hdr := RecordHeader.layout.decode header
      if body.length < hdr.consumed then []
      else (hdr.marketEvent? (body.take hdr.consumed)).toList ++
        readEvents ⟨body.drop hdr.consumed⟩ := by
  rw [readEvents_eq, EventLogReader.next_of_read (EventLogReader.read_of_length hlen body)]
  generalize RecordHeader.layout.decode header = hdr
  unfold RecordHeader.consumed RecordHeader.marketEvent?
  dsimp only
  by_cases hev : hdr.type = LogRecord.kRecMarketEvent
  · simp only [if_pos hev, EventLogReader.read]
    by_cases hshort : body.length < MarketEvent.layout.size
    · simp only [if_pos hshort, Option.map_none]
    · simp only [if_neg hshort, Option.map_some]
      rfl
  by_cases hd : hdr.type = LogRecord.kRecDecision
  · simp only [if_neg hev, if_pos hd, EventLogReader.read]
    by_cases hshort : body.length < DecisionRecord.layout.size
    · simp only [if_pos hshort, Option.map_none]
    · simp only [if_neg hshort, Option.map_some]
      rfl
  · simp only [if_neg hev, if_neg hd]
    rw [← readEvents_eq]
    by_cases hshort : body.length < hdr.len.toNat
    · -- skipping past the end of the file succeeds, but nothing follows
      rw [if_pos hshort, List.drop_eq_nil_of_le (Nat.le_of_lt hshort), readEvents_eq,
        EventLogReader.next_nil]
    · rw [if_neg hshort]
      rfl

/-- A header and the bytes that are consumed behind it. -/
structure Frame where
  header : List UInt8
  payload : List UInt8
  header_length : header.length = RecordHeader.layout.size
  payload_length : payload.length = (RecordHeader.layout.decode header).consumed

namespace Frame
variable (f : Frame)

def bytes : List UInt8 := f.header ++ f.payload

def type : UInt32 := (RecordHeader.layout.decode f.header).type

/-- `num_bids` of a market event, at offset 49. -/
def bidCount : Nat := (f.payload.getD 49 0).toNat

/-- `num_asks` of a market event, at offset 50. -/
def askCount : Nat := (f.payload.getD 50 0).toNat

def marketEvent? : Option MarketEvent :=
  (RecordHeader.layout.decode f.header).marketEvent? f.payload

theorem length_bytes_pos : 0 < f.bytes.length := by
  have hheader := f.header_length
  have hsize : RecordHeader.layout.size = 8 := rfl
  rw [bytes, List.length_append]
  omega

/-- The reader takes one frame after another. -/
theorem readEvents_append (rest : List UInt8) :
    readEvents ⟨f.bytes ++ rest⟩ = f.marketEvent?.toList ++ readEvents ⟨rest⟩ := by
  have hwhole : ¬ (f.payload ++ rest).length < (RecordHeader.layout.decode f.header).consumed := by
    rw [List.length_append, f.payload_length]
    omega
  rw [bytes, List.append_assoc, readEvents_header f.header_length]
  dsimp only
  rw [if_neg hwhole, List.take_left' f.payload_length, List.drop_left' f.payload_length]
  rfl

/-- Six words and the kind stand before the counts of an event. -/
theorem counts_decode (payload : List UInt8) :
    (MarketEvent.layout.decode payload).numBids = payload.getD 49 0 ∧
    (MarketEvent.layout.decode payload).numAsks = payload.getD 50 0 := by
  rw [← Layout.u8_decode_take, ← Layout.u8_decode_take]
  constructor
  · change Layout.u8.decode ((((((((payload.drop 8).drop 8).drop 8).drop 8).drop 8).drop
      8).drop 1).take 1) = _
    simp only [List.drop_drop]
  · change Layout.u8.decode (((((((((payload.drop 8).drop 8).drop 8).drop 8).drop 8).drop
      8).drop 1).drop 1).take 1) = _
    simp only [List.drop_drop]

/-- The counts of the event that is filled in are these two bytes. -/
theorem inRange_of_marketEvent? {ev : MarketEvent} (h : f.marketEvent? = some ev) :
    f.type = LogRecord.kRecMarketEvent ∧
      (ev.InRange ↔ f.bidCount + f.askCount ≤ kMaxLevelsPerEvent) := by
  unfold marketEvent? RecordHeader.marketEvent? at h
  split at h
  · next htype =>
    obtain rfl := Option.some.inj h
    obtain ⟨hbids, hasks⟩ := counts_decode f.payload
    rw [MarketEvent.InRange, hbids, hasks]
    exact ⟨htype, Iff.rfl⟩
  · cases h

end Frame

/-- Whole frames are read one by one, whatever stands behind them. -/
theorem readEvents_frames (frames : List Frame) (rest : List UInt8) :
    readEvents ⟨frames.flatMap Frame.bytes ++ rest⟩ =
      frames.filterMap Frame.marketEvent? ++ readEvents ⟨rest⟩ := by
  induction frames with
  | nil => rfl
  | cons f frames ih =>
    rw [List.flatMap_cons, List.append_assoc, f.readEvents_append, ih]
    cases hev : f.marketEvent? with
    | none => rw [List.filterMap_cons_none hev]; rfl
    | some ev => rw [List.filterMap_cons_some hev]; rfl

/-- Where no whole frame stands, nothing is read. -/
theorem exists_frame_or_end (bytes : List UInt8) :
    (∃ (f : Frame) (rest : List UInt8), bytes = f.bytes ++ rest) ∨ readEvents ⟨bytes⟩ = [] := by
  by_cases hheader : bytes.length < RecordHeader.layout.size
  · right
    rw [readEvents_eq, EventLogReader.next_of_read_none (EventLogReader.read_short hheader)]
  have hlen : (bytes.take RecordHeader.layout.size).length = RecordHeader.layout.size :=
    List.length_take_of_le (Nat.not_lt.mp hheader)
  have hsplit := List.take_append_drop RecordHeader.layout.size bytes
  generalize bytes.take RecordHeader.layout.size = header at *
  generalize bytes.drop RecordHeader.layout.size = body at *
  subst hsplit
  by_cases hbody : body.length < (RecordHeader.layout.decode header).consumed
  · right
    rw [readEvents_header hlen]
    exact if_pos hbody
  · left
    have hpayload := List.length_take_of_le (Nat.not_lt.mp hbody)
    refine ⟨⟨header, body.take _, hlen, hpayload⟩,
      body.drop (RecordHeader.layout.decode header).consumed, ?_⟩
    rw [Frame.bytes, List.append_assoc, List.take_append_drop]

/-- **Every file is a sequence of frames** and a rest that holds no whole one. -/
theorem exists_frames (bytes : List UInt8) :
    ∃ (frames : List Frame) (tail : List UInt8),
      bytes = frames.flatMap Frame.bytes ++ tail ∧ readEvents ⟨tail⟩ = [] := by
  induction hn : bytes.length using Nat.strongRecOn generalizing bytes with
  | ind n ih =>
    rcases exists_frame_or_end bytes with ⟨f, rest, rfl⟩ | hend
    · have hless : rest.length < n := by
        have := f.length_bytes_pos
        rw [List.length_append] at hn
        omega
      obtain ⟨frames, tail, hrest, htail⟩ := ih rest.length hless rest rfl
      refine ⟨f :: frames, tail, ?_, htail⟩
      rw [List.flatMap_cons, List.append_assoc, ← hrest]
    · exact ⟨[], bytes, rfl, hend⟩

/-- In every market event among the frames of a log, the two bytes that hold the counts add
up to at most 64. -/
def CountsFit (bytes : List UInt8) : Prop :=
  ∀ (frames : List Frame) (f : Frame) (rest : List UInt8),
    bytes = frames.flatMap Frame.bytes ++ (f.bytes ++ rest) →
    f.type = LogRecord.kRecMarketEvent → f.bidCount + f.askCount ≤ kMaxLevelsPerEvent

/-- **What is read from a log fits** exactly if its bytes say so. -/
theorem readEvents_inRange_iff (bytes : List UInt8) :
    (∀ ev ∈ readEvents ⟨bytes⟩, ev.InRange) ↔ CountsFit bytes := by
  constructor
  · rintro hall frames f rest rfl htype
    have hev : f.marketEvent? = some (MarketEvent.layout.decode f.payload) := if_pos htype
    refine (f.inRange_of_marketEvent? hev).2.mp (hall _ ?_)
    rw [readEvents_frames, f.readEvents_append, hev]
    exact List.mem_append_right _ List.mem_cons_self
  · intro hfit ev hmem
    obtain ⟨frames, tail, rfl, htail⟩ := exists_frames bytes
    rw [readEvents_frames, htail, List.append_nil] at hmem
    obtain ⟨f, hf, hev⟩ := List.mem_filterMap.mp hmem
    obtain ⟨pre, post, rfl⟩ := List.append_of_mem hf
    obtain ⟨htype, hiff⟩ := f.inRange_of_marketEvent? hev
    refine hiff.mpr (hfit pre f (post.flatMap Frame.bytes ++ tail) ?_ htype)
    simp only [List.flatMap_append, List.flatMap_cons, List.append_assoc]

/-- What is fit stays so when it is cut off. -/
theorem CountsFit.of_isPrefix {bytes whole : List UInt8} (h : CountsFit whole)
    (hcut : bytes <+: whole) : CountsFit bytes := by
  obtain ⟨lost, rfl⟩ := hcut
  rintro frames f rest rfl htype
  exact h frames f (rest ++ lost) (by simp only [List.append_assoc]) htype

/-- **A log of events that fit can be replayed**, also if it was cut off while it was being
written. -/
theorem countsFit_written {records : List LogRecord} {bytes : List UInt8}
    (hcut : bytes <+: records.flatMap LogRecord.encode)
    (h : ∀ ev ∈ records.filterMap LogRecord.marketEvent?, ev.InRange) : CountsFit bytes := by
  refine CountsFit.of_isPrefix ?_ hcut
  rw [← readEvents_inRange_iff, readEvents_encode]
  exact h

/-! ## Every path into the book -/

/-- Where an event that is applied to a book comes from. -/
inductive EventSource where
  | parseDepthDiff (parser : String → Option Dom) (json : String) (f : SymbolFilters)
      (tsRecvNs : Int64)
  | onSnapshot (r : Reconstructor) (snap : DepthSnapshot) (tsNs : Int64)
  | readLog (path : String) (bytes : List UInt8)

namespace EventSource

/-- The events that come from a source: none from a frame that does not parse or a log whose
header is rejected. -/
def events : EventSource → List MarketEvent
  | parseDepthDiff parser json f tsRecvNs => (Asmm.parseDepthDiff parser json f tsRecvNs).getD []
  | onSnapshot r snap tsNs => (r.onSnapshot snap tsNs).2
  | readLog path bytes =>
      match readLogEvents path (some bytes) with
      | .ok events => events
      | .error _ => []

/-- What has to be true of a source: nothing of the fragmenters, and of a log that its bytes
are fit, if its header is accepted. -/
def Fit : EventSource → Prop
  | parseDepthDiff _ _ _ _ => True
  | onSnapshot _ _ _ => True
  | readLog path bytes =>
      (∃ r, EventLogReader.openLog path (some bytes) = .ok r) →
        CountsFit (bytes.drop LogHeader.layout.size)

end EventSource

/-- Behind an accepted header is what remains to be read. -/
theorem openLog_eq_ok {path : String} {bytes : List UInt8} {r : EventLogReader}
    (h : EventLogReader.openLog path (some bytes) = .ok r) :
    r = ⟨bytes.drop LogHeader.layout.size⟩ := by
  unfold EventLogReader.openLog at h
  dsimp only at h
  -- every other branch is an error
  split at h
  · cases h
  split at h
  · cases h
  split at h
  · cases h
  split at h
  · cases h
  · exact (Except.ok.inj h).symm

theorem parseDepthDiff_inRange (parser : String → Option Dom) (json : String) (f : SymbolFilters)
    (tsRecvNs : Int64) :
    ∀ ev ∈ (EventSource.parseDepthDiff parser json f tsRecvNs).events, ev.InRange := by
  rw [EventSource.events, parseDepthDiff]
  cases readDepthDiff parser json f with
  | none => simp
  | some d => exact fragments_inRange _ d.bids d.asks

theorem readLog_inRange_iff (path : String) (bytes : List UInt8) :
    (∀ ev ∈ (EventSource.readLog path bytes).events, ev.InRange) ↔
      (EventSource.readLog path bytes).Fit := by
  rw [EventSource.events, EventSource.Fit, readLogEvents]
  rcases hopen : EventLogReader.openLog path (some bytes) with e | r
  · refine iff_of_true (by simp [Except.map]) ?_
    rintro ⟨r, ⟨⟩⟩
  · obtain rfl := openLog_eq_ok hopen
    refine (readEvents_inRange_iff _).trans ⟨fun h _ => h, fun h => h ⟨_, rfl⟩⟩

/-- **When level indices stay in range**, on each path into the book.  The fragments of a
diff and of a snapshot never exceed the array.  The events of a log whose header is accepted
do not exactly if, in each of its market events, the bytes that hold the counts add up to at
most 64: the reader does not look at them. -/
theorem level_indices_in_range_iff (source : EventSource) :
    (∀ ev ∈ source.events, ev.SafeToApply) ↔ source.Fit := by
  simp only [MarketEvent.safeToApply_iff]
  cases source with
  | parseDepthDiff parser json f tsRecvNs =>
    exact iff_of_true (parseDepthDiff_inRange parser json f tsRecvNs) trivial
  | onSnapshot r snap tsNs => exact iff_of_true (fragments_inRange _ snap.bids snap.asks) trivial
  | readLog path bytes => exact readLog_inRange_iff path bytes

/-- An event that claims 65 bids. -/
def crowded : MarketEvent := { MarketEvent.zero with numBids := 65 }

/-- **A log that makes the replay read past the array**: its header is accepted, and so is
the event that claims 65 bids. -/
theorem crowded_log_overruns :
    readLogEvents "crowded.log" (some (LogHeader.layout.encode LogHeader.current ++
      [LogRecord.marketEvent crowded].flatMap LogRecord.encode)) = .ok [crowded] ∧
    crowded.numBids.toNat + crowded.numAsks.toNat = 65 ∧
    L2Book.empty.applyEventChecked crowded = none := by
  refine ⟨readLogEvents_written _ _, by decide, ?_⟩
  rw [L2Book.applyEventChecked_eq, if_neg (by decide)]

end Asmm
