import Mathlib.Algebra.Group.Nat.Defs
import Mathlib.Algebra.Ring.Int.Defs
import CryptoBook.Book

/-! # Depth messages

`exchange/binance_depth.cpp`: decimal strings to scaled integers, depth diffs and
snapshots from JSON, and the fragmentation of a diff into fixed-size events.  The JSON
parser is a parameter that maps a text to a document (`Dom`); the accessors on documents
are those the source calls.

Diffs and snapshots are cut into events by the same loop (the second copy is in
`Reconstructor::OnSnapshot`), so `fragments` takes the header of an event as a parameter.
A `Group` is what the loop produces: events that share kind and ids, chained by the
continuation flag, carrying the bids in order and then the asks (`fragments_group`). -/
namespace Asmm

/-! ## Decimals -/

def kInt64Max : Nat := 2 ^ 63 - 1

/-- The character loop of `DecimalToScaled`: value, fraction digits and whether a digit
was seen. -/
def decimalLoop (scale : Int) : List Char → Nat → Int → Bool → Bool → Option (Nat × Int × Bool)
  | [], value, fracDigits, _, anyDigit => some (value, fracDigits, anyDigit)
  | c :: cs, value, fracDigits, seenDot, anyDigit =>
      if c = '.' then
        if seenDot then none else decimalLoop scale cs value fracDigits true anyDigit
      else if c < '0' ∨ c > '9' then none
      else if seenDot ∧ fracDigits ≥ scale then
        -- beyond the requested precision only padding is accepted
        if c ≠ '0' then none else decimalLoop scale cs value fracDigits seenDot true
      else if value > (kInt64Max - 9) / 10 then none
      else decimalLoop scale cs (value * 10 + (c.toNat - '0'.toNat))
        (if seenDot then fracDigits + 1 else fracDigits) seenDot true

/-- The scaling loop of `DecimalToScaled`, for so many missing digits. -/
def scaleUp : Nat → Nat → Option Nat
  | 0, value => some value
  | k + 1, value => if value > kInt64Max / 10 then none else scaleUp k (value * 10)

/-- `DecimalToScaled`. -/
def decimalToScaled (s : List Char) (scale : Int) : Option Int64 :=
  if s.isEmpty then none
  else
    let neg := s.head? == some '-'
    let digits := if neg then s.tail else s
    match decimalLoop scale digits 0 0 false false with
    | none => none
    | some (value, fracDigits, anyDigit) =>
        if !anyDigit then none
        else
          (scaleUp (scale - fracDigits).toNat value).map fun value =>
            if neg then Int64.ofInt (-value) else Int64.ofInt value

/-! ## Documents -/

/-- A parsed JSON document.  `other` stands for the values no accessor below reads. -/
inductive Dom where
  | object (fields : List (String × Dom))
  | array (elems : List Dom)
  | string (s : String)
  | int (v : Int)
  | other

namespace Dom

/-- `doc[key]`. -/
def field (d : Dom) (key : String) : Option Dom :=
  match d with
  | .object fields => fields.lookup key
  | _ => none

/-- `get(std::uint64_t&)`. -/
def getUint64 : Dom → Option UInt64
  | .int v => if 0 ≤ v ∧ v < 2 ^ 64 then some (UInt64.ofNat v.toNat) else none
  | _ => none

/-- `get(std::int64_t&)`. -/
def getInt64 : Dom → Option Int64
  | .int v => if -2 ^ 63 ≤ v ∧ v < 2 ^ 63 then some (Int64.ofInt v) else none
  | _ => none

/-- `get(simdjson::dom::array&)`. -/
def getArray : Dom → Option (List Dom)
  | .array elems => some elems
  | _ => none

/-- `get(std::string_view&)`. -/
def getString : Dom → Option String
  | .string s => some s
  | _ => none

end Dom

structure SymbolFilters where
  pxScale : Int
  qtyScale : Int

/-- The loop body of `ReadLevels`. -/
def readLevel (f : SymbolFilters) (elem : Dom) : Option DepthLevel := do
  let pair ← elem.getArray
  let pxS ← (← pair[0]?).getString
  let qtyS ← (← pair[1]?).getString
  let px ← decimalToScaled pxS.toList f.pxScale
  let qty ← decimalToScaled qtyS.toList f.qtyScale
  return ⟨px, qty⟩

/-- `ReadLevels`. -/
def readLevels (f : SymbolFilters) : List Dom → Option (List DepthLevel)
  | [] => some []
  | elem :: elems => do
      let level ← readLevel f elem
      let levels ← readLevels f elems
      return level :: levels

/-! ## Fragmentation -/

/-- `while (i < src.size() && slot < kMaxLevelsPerEvent) ev.levels[slot++] = src[i++];`:
the slots, the next free slot and what is left. -/
def fill (levels : Vector DepthLevel kMaxLevelsPerEvent) (slot : Nat) :
    List DepthLevel → Vector DepthLevel kMaxLevelsPerEvent × Nat × List DepthLevel
  | [] => (levels, slot, [])
  | l :: rest =>
      if h : slot < kMaxLevelsPerEvent then fill (levels.set slot l h) (slot + 1) rest
      else (levels, slot, l :: rest)

/-- One round of the loop: the event, and the bids and asks still to be sent. -/
def fragment (ev : MarketEvent) (bids asks : List DepthLevel) :
    MarketEvent × List DepthLevel × List DepthLevel :=
  let filledBids := fill ev.levels 0 bids
  let filledAsks := fill filledBids.1 filledBids.2.1 asks
  let ev := { ev with
    levels := filledAsks.1
    numBids := UInt8.ofNat filledBids.2.1
    numAsks := UInt8.ofNat (filledAsks.2.1 - filledBids.2.1)
    flags := if filledBids.2.2 ≠ [] ∨ filledAsks.2.2 ≠ [] then ev.flags ||| kFlagContinuation
      else ev.flags }
  (ev, filledBids.2.2, filledAsks.2.2)

/-- The `do ... while` loop.  `header first` is the event before its levels are filled in;
each round that is followed by another one consumes a level, so `rounds` does not run out
before the levels do. -/
def fragmentLoop (header : Bool → MarketEvent) :
    Nat → Bool → List DepthLevel → List DepthLevel → List MarketEvent
  | 0, _, _, _ => []
  | rounds + 1, first, bids, asks =>
      let r := fragment (header first) bids asks
      if r.2.1 ≠ [] ∨ r.2.2 ≠ [] then r.1 :: fragmentLoop header rounds false r.2.1 r.2.2
      else [r.1]

/-- All fragments of a message. -/
def fragments (header : Bool → MarketEvent) (bids asks : List DepthLevel) : List MarketEvent :=
  fragmentLoop header (bids.length + asks.length + 1) true bids asks

/-! ### What the loop produces -/

/-- The updates of some levels of one side. -/
def levelUpdates (side : Side) (levels : List DepthLevel) : List L2Book.LevelUpdate :=
  levels.map fun l => ⟨side, l.pxTicks, l.qtyLots⟩

/-- All bids, then all asks. -/
def sideUpdates (bids asks : List DepthLevel) : List L2Book.LevelUpdate :=
  levelUpdates .kBid bids ++ levelUpdates .kAsk asks

/-- A fragment of a message with ids `firstId` and `finalId`. -/
structure Fragment (kind : EventKind) (firstId finalId : UInt64) (starts cont : Bool)
    (ev : MarketEvent) : Prop where
  kind_eq : ev.kind = kind
  firstId_eq : ev.firstUpdateId = firstId
  finalId_eq : ev.finalUpdateId = finalId
  starts_eq : ev.startsSnapshot = starts
  cont_eq : ev.continues = cont

/-- The fragments of one message: only the first may start a snapshot, all but the last
are continued, and together they carry the updates `us`. -/
inductive Group (kind : EventKind) (firstId finalId : UInt64) :
    Bool → List L2Book.LevelUpdate → List MarketEvent → Prop
  | last {starts : Bool} {ev : MarketEvent} (frag : Fragment kind firstId finalId starts false ev) :
      Group kind firstId finalId starts ev.updates [ev]
  | more {starts : Bool} {ev : MarketEvent} {us : List L2Book.LevelUpdate}
      {evs : List MarketEvent} (frag : Fragment kind firstId finalId starts true ev)
      (rest : Group kind firstId finalId false us evs) :
      Group kind firstId finalId starts (ev.updates ++ us) (ev :: evs)

/-- Fragments that share kind and ids, all but the last continued, with no regard to what
they carry or start.  The chain is whole if the last one is not continued either. -/
inductive FragmentChain (kind : EventKind) (firstId finalId : UInt64) :
    Bool → List MarketEvent → Prop
  | last {starts cont : Bool} {ev : MarketEvent}
      (frag : Fragment kind firstId finalId starts cont ev) :
      FragmentChain kind firstId finalId (!cont) [ev]
  | more {starts whole : Bool} {ev : MarketEvent} {evs : List MarketEvent}
      (frag : Fragment kind firstId finalId starts true ev)
      (rest : FragmentChain kind firstId finalId whole evs) :
      FragmentChain kind firstId finalId whole (ev :: evs)

/-- A group is a whole chain. -/
theorem Group.chain {kind : EventKind} {firstId finalId : UInt64} {starts : Bool}
    {us : List L2Book.LevelUpdate} {evs : List MarketEvent}
    (hg : Group kind firstId finalId starts us evs) :
    FragmentChain kind firstId finalId true evs := by
  induction hg with
  | last frag => exact .last frag
  | more frag rest ih => exact .more frag ih

theorem Group.head_starts {kind : EventKind} {firstId finalId : UInt64}
    {us : List L2Book.LevelUpdate} {evs : List MarketEvent}
    (hg : Group kind firstId finalId true us evs) :
    ∀ ev ∈ evs.head?, ev.startsSnapshot = true := by
  cases hg with
  | last frag => exact fun ev hev => Option.some.inj hev ▸ frag.starts_eq
  | more frag rest => exact fun ev hev => Option.some.inj hev ▸ frag.starts_eq

/-- The front of a chain shows its ids. -/
theorem FragmentChain.front {kind : EventKind} {firstId finalId : UInt64} {whole : Bool}
    {evs : List MarketEvent} (hc : FragmentChain kind firstId finalId whole evs) :
    ∃ ev rest, evs = ev :: rest ∧ ev.kind = kind ∧ ev.firstUpdateId = firstId ∧
      ev.finalUpdateId = finalId := by
  cases hc with
  | last frag => exact ⟨_, _, rfl, frag.kind_eq, frag.firstId_eq, frag.finalId_eq⟩
  | more frag rest => exact ⟨_, _, rfl, frag.kind_eq, frag.firstId_eq, frag.finalId_eq⟩

/-- The fragments of a group carry its updates. -/
theorem Group.flatMap_updates {kind : EventKind} {U u : UInt64} {starts : Bool}
    {us : List L2Book.LevelUpdate} {evs : List MarketEvent} (hg : Group kind U u starts us evs) :
    evs.flatMap MarketEvent.updates = us := by
  induction hg with
  | last frag => exact List.append_nil _
  | more frag rest ih => rw [List.flatMap_cons, ih]

/-- Every fragment of a chain shows its final id. -/
theorem FragmentChain.finalId_eq {kind : EventKind} {U u : UInt64} {whole : Bool}
    {evs : List MarketEvent} (hc : FragmentChain kind U u whole evs) :
    ∀ ev ∈ evs, ev.finalUpdateId = u := by
  induction hc with
  | last frag => simpa using frag.finalId_eq
  | more frag rest ih => exact List.forall_mem_cons.mpr ⟨frag.finalId_eq, ih⟩

/-- An event before its levels are filled in. -/
structure Header (kind : EventKind) (firstId finalId : UInt64) (starts : Bool)
    (ev : MarketEvent) : Prop where
  kind_eq : ev.kind = kind
  firstId_eq : ev.firstUpdateId = firstId
  finalId_eq : ev.finalUpdateId = finalId
  flags_eq : ev.flags = if starts then kFlagSnapshotStart else 0

/-- What `fill` writes stands behind what was there, and it stops early only when the
array is full. -/
theorem fill_spec (levels : Vector DepthLevel kMaxLevelsPerEvent) {slot : Nat}
    (hslot : slot ≤ kMaxLevelsPerEvent) (ls : List DepthLevel) :
    ∃ sent, ls = sent ++ (fill levels slot ls).2.2 ∧
      (fill levels slot ls).2.1 = slot + sent.length ∧
      (fill levels slot ls).2.1 ≤ kMaxLevelsPerEvent ∧
      ((fill levels slot ls).2.2 ≠ [] → (fill levels slot ls).2.1 = kMaxLevelsPerEvent) ∧
      (fill levels slot ls).1.toList.take (slot + sent.length) =
        levels.toList.take slot ++ sent := by
  induction ls generalizing levels slot with
  | nil => exact ⟨[], rfl, rfl, hslot, fun h => absurd rfl h, (List.append_nil _).symm⟩
  | cons l rest ih =>
    by_cases h : slot < kMaxLevelsPerEvent
    · obtain ⟨sent, hls, hend, hle, hfull, hfilled⟩ := ih (levels.set slot l h) h
      have hset : (levels.set slot l h).toList.take (slot + 1) =
          levels.toList.take slot ++ [l] := by
        have hlen : slot < levels.toList.length := by rw [Vector.length_toList]; exact h
        rw [List.take_add_one, Vector.toList_set, List.take_set_of_le (Nat.le_refl _),
          List.getElem?_set_self hlen]
        rfl
      have hfill : fill levels slot (l :: rest) = fill (levels.set slot l h) (slot + 1) rest := by
        simp only [fill, dif_pos h]
      rw [hfill]
      refine ⟨l :: sent, congrArg (l :: ·) hls, ?_, hle, hfull, ?_⟩
      · rw [hend, List.length_cons]
        omega
      · rw [List.length_cons, show slot + (sent.length + 1) = slot + 1 + sent.length by omega,
          hfilled, hset, List.append_assoc]
        rfl
    · have hfill : fill levels slot (l :: rest) = (levels, slot, l :: rest) := by
        simp only [fill, dif_neg h]
      rw [hfill]
      exact ⟨[], rfl, rfl, hslot, fun _ => by dsimp only; omega, (List.append_nil _).symm⟩

/-- The array of the event begins with the bids and then the asks, and is counted so. -/
structure Carries (ev : MarketEvent) (bids asks : List DepthLevel) : Prop where
  numBids_eq : ev.numBids.toNat = bids.length
  numAsks_eq : ev.numAsks.toNat = asks.length
  levels_eq : ev.levels.toList.take (bids.length + asks.length) = bids ++ asks

/-- The bids of an event, as `ApplyEvent` reads them. -/
def MarketEvent.bidLevels (ev : MarketEvent) : List DepthLevel :=
  (List.range ev.numBids.toNat).map ev.level

/-- The asks of an event, as `ApplyEvent` reads them. -/
def MarketEvent.askLevels (ev : MarketEvent) : List DepthLevel :=
  (List.range ev.numAsks.toNat).map fun i => ev.level (ev.numBids.toNat + i)

theorem MarketEvent.updates_eq (ev : MarketEvent) :
    ev.updates = sideUpdates ev.bidLevels ev.askLevels := by
  simp only [updates, sideUpdates, levelUpdates, bidLevels, askLevels, List.map_map]
  rfl

namespace Carries
variable {ev : MarketEvent} {bids asks : List DepthLevel}

theorem level_eq (h : Carries ev bids asks) {i : Nat} (hi : i < bids.length + asks.length) :
    ev.level i = ((bids ++ asks)[i]?).getD ⟨0, 0⟩ := by
  rw [← h.levels_eq, List.getElem?_take_of_lt hi, Vector.getElem?_toList]
  rfl

theorem bidLevels_eq (h : Carries ev bids asks) : ev.bidLevels = bids := by
  rw [MarketEvent.bidLevels, h.numBids_eq]
  refine List.ext_getElem (by simp) fun i _ hi => ?_
  have hl := h.level_eq (i := i) (by omega)
  rw [List.getElem?_append_left hi, List.getElem?_eq_getElem hi] at hl
  simp [hl]

theorem askLevels_eq (h : Carries ev bids asks) : ev.askLevels = asks := by
  rw [MarketEvent.askLevels, h.numBids_eq, h.numAsks_eq]
  refine List.ext_getElem (by simp) fun i _ hi => ?_
  have hl := h.level_eq (i := bids.length + i) (by omega)
  rw [List.getElem?_append_right (by omega), Nat.add_sub_cancel_left,
    List.getElem?_eq_getElem hi] at hl
  simp [hl]

theorem updates_eq (h : Carries ev bids asks) : ev.updates = sideUpdates bids asks := by
  rw [ev.updates_eq, h.bidLevels_eq, h.askLevels_eq]

end Carries

/-- The flags of a fragment: the header's, and the continuation flag if levels are left. -/
theorem fragment_flags (starts : Bool) (left : Prop) [Decidable left] :
    let header : UInt8 := if starts then kFlagSnapshotStart else 0
    let flags := if left then header ||| kFlagContinuation else header
    (flags &&& kFlagSnapshotStart != 0) = starts ∧
      (flags &&& kFlagContinuation != 0) = decide left := by
  dsimp only
  by_cases h : left
  · rw [if_pos h, decide_eq_true h]
    cases starts <;> exact ⟨rfl, rfl⟩
  · rw [if_neg h, decide_eq_false h]
    cases starts <;> exact ⟨rfl, rfl⟩

/-- What one round sends: the array is filled unless nothing is left, and an ask is sent only
after the last bid. -/
structure Sends (bids asks : List DepthLevel)
    (r : MarketEvent × List DepthLevel × List DepthLevel) (sentBids sentAsks : List DepthLevel) :
    Prop where
  bids_eq : bids = sentBids ++ r.2.1
  asks_eq : asks = sentAsks ++ r.2.2
  carries : Carries r.1 sentBids sentAsks
  fits : sentBids.length + sentAsks.length ≤ kMaxLevelsPerEvent
  full : r.2.1 ≠ [] ∨ r.2.2 ≠ [] → sentBids.length + sentAsks.length = kMaxLevelsPerEvent
  bidsFirst : r.2.1 ≠ [] → sentAsks = []

theorem fragment_sends (ev : MarketEvent) (bids asks : List DepthLevel) :
    ∃ sentBids sentAsks, Sends bids asks (fragment ev bids asks) sentBids sentAsks := by
  unfold fragment
  obtain ⟨sentBids, hbids, hbend, hble, hbfull, hbfilled⟩ :=
    fill_spec ev.levels (Nat.zero_le _) bids
  obtain ⟨sentAsks, hasks, haend, hale, hafull, hafilled⟩ :=
    fill_spec (fill ev.levels 0 bids).1 hble asks
  generalize fill ev.levels 0 bids = filledBids at *
  obtain ⟨levels, slot, restBids⟩ := filledBids
  dsimp only at *
  generalize fill levels slot asks = filledAsks at *
  obtain ⟨levels', slot', restAsks⟩ := filledAsks
  dsimp only at *
  rw [Nat.zero_add] at hbend hbfilled
  subst hbend hbids hasks haend
  have hsmall : ∀ n, n ≤ kMaxLevelsPerEvent → (UInt8.ofNat n).toNat = n := fun n hn =>
    UInt8.toNat_ofNat_of_lt' (Nat.lt_of_le_of_lt hn (by decide))
  refine ⟨sentBids, sentAsks, rfl, rfl, ⟨hsmall _ hble, ?_, ?_⟩, hale, ?_, fun hrest => ?_⟩
  · rw [Nat.add_sub_cancel_left]
    exact hsmall _ (by omega)
  · rw [hafilled, hbfilled]
    rfl
  · rintro (hrest | hrest)
    · have := hbfull hrest
      omega
    · exact hafull hrest
  · -- the bids filled the array
    exact List.length_eq_zero_iff.mp (by have := hbfull hrest; omega)

/-- The flags of a round's event: the header's, and the continuation flag if levels are
left. -/
theorem fragment_frame {kind : EventKind} {firstId finalId : UInt64} {starts : Bool}
    {ev : MarketEvent} (hev : Header kind firstId finalId starts ev)
    (bids asks : List DepthLevel) :
    let r := fragment ev bids asks
    Fragment kind firstId finalId starts (decide (r.2.1 ≠ [] ∨ r.2.2 ≠ [])) r.1 := by
  intro r
  have hflags := fragment_flags starts (r.2.1 ≠ [] ∨ r.2.2 ≠ [])
  rw [← hev.flags_eq] at hflags
  exact ⟨hev.kind_eq, hev.firstId_eq, hev.finalId_eq, hflags.1, hflags.2⟩

/-- **One round**: with what is left, its event carries the levels there were. -/
theorem Sends.updates_eq {bids asks sentBids sentAsks : List DepthLevel}
    {r : MarketEvent × List DepthLevel × List DepthLevel}
    (h : Sends bids asks r sentBids sentAsks) :
    sideUpdates bids asks = r.1.updates ++ sideUpdates r.2.1 r.2.2 := by
  rw [h.carries.updates_eq, h.bids_eq, h.asks_eq]
  by_cases hrest : r.2.1 = []
  · simp [sideUpdates, levelUpdates, hrest]
  · simp [sideUpdates, levelUpdates, h.bidsFirst hrest]

/-- A round that is followed by another one consumes levels. -/
theorem Sends.length_lt {bids asks sentBids sentAsks : List DepthLevel}
    {r : MarketEvent × List DepthLevel × List DepthLevel}
    (h : Sends bids asks r sentBids sentAsks) (hleft : r.2.1 ≠ [] ∨ r.2.2 ≠ []) :
    r.2.1.length + r.2.2.length < bids.length + asks.length := by
  have hfull := h.full hleft
  have hpos : 0 < kMaxLevelsPerEvent := by decide
  rw [h.bids_eq, h.asks_eq, List.length_append, List.length_append]
  omega

/-- The loop sends everything that is left. -/
theorem fragmentLoop_group {kind : EventKind} {firstId finalId : UInt64} {starts : Bool}
    {header : Bool → MarketEvent}
    (hheader : ∀ first, Header kind firstId finalId (starts && first) (header first))
    {rounds : Nat} (first : Bool) {bids asks : List DepthLevel}
    (hrounds : bids.length + asks.length < rounds) :
    Group kind firstId finalId (starts && first) (sideUpdates bids asks)
      (fragmentLoop header rounds first bids asks) := by
  induction rounds generalizing first bids asks with
  | zero => exact absurd hrounds (Nat.not_lt_zero _)
  | succ rounds ih =>
    have hfrag := fragment_frame (hheader first) bids asks
    obtain ⟨sentBids, sentAsks, hsends⟩ := fragment_sends (header first) bids asks
    rw [hsends.updates_eq, fragmentLoop]
    have hless := hsends.length_lt
    clear hsends
    generalize fragment (header first) bids asks = r at *
    obtain ⟨ev, restBids, restAsks⟩ := r
    dsimp only at *
    by_cases hleft : restBids ≠ [] ∨ restAsks ≠ []
    · rw [decide_eq_true hleft] at hfrag
      rw [if_pos hleft]
      have hrest := ih false (Nat.lt_of_lt_of_le (hless hleft) (by omega))
      rw [Bool.and_false] at hrest
      exact .more hfrag hrest
    · rw [decide_eq_false hleft] at hfrag
      rw [if_neg hleft]
      obtain ⟨rfl, rfl⟩ : restBids = [] ∧ restAsks = [] := by simpa using hleft
      rw [show sideUpdates [] [] = [] from rfl, List.append_nil]
      exact .last hfrag

/-- **The fragments of a message are a group that carries its bids, then its asks.** -/
theorem fragments_group {kind : EventKind} {firstId finalId : UInt64} {starts : Bool}
    {header : Bool → MarketEvent}
    (hheader : ∀ first, Header kind firstId finalId (starts && first) (header first))
    (bids asks : List DepthLevel) :
    Group kind firstId finalId starts (sideUpdates bids asks) (fragments header bids asks) := by
  have hgroup := fragmentLoop_group hheader true
    (Nat.lt_succ_self (bids.length + asks.length))
  rwa [Bool.and_true] at hgroup

/-! ## Messages -/

/-- A depth diff as it stands in the document. -/
structure DepthDiff where
  firstId : UInt64
  finalId : UInt64
  exchangeMs : Int64
  bids : List DepthLevel
  asks : List DepthLevel

def DepthDiff.updates (d : DepthDiff) : List L2Book.LevelUpdate := sideUpdates d.bids d.asks

/-- A REST depth snapshot. -/
structure DepthSnapshot where
  lastUpdateId : UInt64
  bids : List DepthLevel
  asks : List DepthLevel

def DepthSnapshot.updates (snap : DepthSnapshot) : List L2Book.LevelUpdate :=
  sideUpdates snap.bids snap.asks

/-- `ParseDepthDiff`, up to the fragmentation. -/
def readDepthDiff (parser : String → Option Dom) (json : String) (f : SymbolFilters) :
    Option DepthDiff := do
  let doc ← parser json
  let firstId ← (← doc.field "U").getUint64
  let finalId ← (← doc.field "u").getUint64
  let exchangeMs := ((doc.field "E").bind Dom.getInt64).getD 0
  let b ← (← doc.field "b").getArray
  let a ← (← doc.field "a").getArray
  let bids ← readLevels f b
  let asks ← readLevels f a
  return ⟨firstId, finalId, exchangeMs, bids, asks⟩

/-- The header of a diff's events. -/
def DepthDiff.header (d : DepthDiff) (tsRecvNs : Int64) : MarketEvent :=
  { MarketEvent.zero with
    tsRecvNs := tsRecvNs
    tsExchangeMs := d.exchangeMs
    firstUpdateId := d.firstId
    finalUpdateId := d.finalId
    kind := .kDepthDiff }

/-- `ParseDepthDiff`: `none` where it returns false. -/
def parseDepthDiff (parser : String → Option Dom) (json : String) (f : SymbolFilters)
    (tsRecvNs : Int64) : Option (List MarketEvent) :=
  (readDepthDiff parser json f).map fun d =>
    fragments (fun _ => d.header tsRecvNs) d.bids d.asks

/-- The events of a diff are a group with its ids and its levels. -/
theorem DepthDiff.group (d : DepthDiff) (tsRecvNs : Int64) :
    Group .kDepthDiff d.firstId d.finalId false d.updates
      (fragments (fun _ => d.header tsRecvNs) d.bids d.asks) := by
  have hheader : ∀ first, Header .kDepthDiff d.firstId d.finalId (false && first)
      (d.header tsRecvNs) := fun _ => ⟨rfl, rfl, rfl, rfl⟩
  exact fragments_group hheader d.bids d.asks

/-- **A parsed frame is a group with the ids and the levels of the diff.** -/
theorem parseDepthDiff_group {parser : String → Option Dom} {json : String} {f : SymbolFilters}
    {tsRecvNs : Int64} {evs : List MarketEvent}
    (h : parseDepthDiff parser json f tsRecvNs = some evs) :
    ∃ d, readDepthDiff parser json f = some d ∧
      Group .kDepthDiff d.firstId d.finalId false d.updates evs := by
  obtain ⟨d, hread, rfl⟩ := Option.map_eq_some_iff.mp h
  exact ⟨d, hread, d.group tsRecvNs⟩

/-- `ParseDepthSnapshot`: `none` where it returns false. -/
def parseDepthSnapshot (parser : String → Option Dom) (json : String) (f : SymbolFilters) :
    Option DepthSnapshot := do
  let doc ← parser json
  let lastId ← (← doc.field "lastUpdateId").getUint64
  let b ← (← doc.field "bids").getArray
  let a ← (← doc.field "asks").getArray
  let bids ← readLevels f b
  let asks ← readLevels f a
  return ⟨lastId, bids, asks⟩

end Asmm
