/-! # Market-data and order-flow records

The fixed-size records of `core/events.hpp` and `core/types.hpp`.  Ids are `u64`
and prices, quantities and timestamps are `i64`, as in the source; the padding
members, which are always zero, are left out.

The order-flow records further down are read over unbounded integers instead: the
program only copies and compares their ids, and where it adds prices or quantities
an overflow is undefined in the source.

`EventKind` is an enumeration over `u8`, so an event read back from a log file may
hold a byte that names no kind: `other` keeps such a byte, and its proof keeps the
three named bytes out of it.  `MarketEvent.levels` is the array of 64 slots: bids
occupy `[0, numBids)`, asks `[numBids, numBids + numAsks)`. -/
namespace Asmm

inductive Side where
  | kBid
  | kAsk
  deriving DecidableEq, Repr

instance Side.decidableForall {p : Side → Prop} [∀ side, Decidable (p side)] :
    Decidable (∀ side, p side) :=
  decidable_of_iff (p .kBid ∧ p .kAsk)
    ⟨fun h side => Side.rec h.1 h.2 side, fun h => ⟨h .kBid, h .kAsk⟩⟩

/-- Outcome of applying a single book mutation. -/
inductive ApplyResult where
  | kOk
  | kNoop
  | kDropped
  deriving DecidableEq, Repr

inductive EventKind where
  | kDepthDiff
  | kTrade
  | kSnapshot
  | other (byte : UInt8) (unnamed : 3 ≤ byte)
  deriving DecidableEq

structure DepthLevel where
  pxTicks : Int64
  qtyLots : Int64
  deriving DecidableEq, Repr

/-- Shared bid and ask level budget of one event. -/
def kMaxLevelsPerEvent : Nat := 64

/-- More fragments of the same group follow. -/
def kFlagContinuation : UInt8 := 0x01

/-- First fragment of a snapshot: the book is cleared first. -/
def kFlagSnapshotStart : UInt8 := 0x02

structure MarketEvent where
  seq : UInt64
  tsRecvNs : Int64
  tsExchangeMs : Int64
  firstUpdateId : UInt64
  finalUpdateId : UInt64
  prevUpdateId : UInt64
  kind : EventKind
  numBids : UInt8
  numAsks : UInt8
  flags : UInt8
  levels : Vector DepthLevel kMaxLevelsPerEvent
  deriving DecidableEq

namespace MarketEvent

/-- `MarketEvent ev{}`: every member zero. -/
def zero : MarketEvent where
  seq := 0
  tsRecvNs := 0
  tsExchangeMs := 0
  firstUpdateId := 0
  finalUpdateId := 0
  prevUpdateId := 0
  kind := .kDepthDiff
  numBids := 0
  numAsks := 0
  flags := 0
  levels := Vector.replicate _ ⟨0, 0⟩

/-- `ev.flags & flag`, as a condition. -/
def hasFlag (ev : MarketEvent) (flag : UInt8) : Bool := ev.flags &&& flag != 0

/-- `ev.flags & kFlagContinuation`. -/
abbrev continues (ev : MarketEvent) : Bool := ev.hasFlag kFlagContinuation

/-- `ev.flags & kFlagSnapshotStart`. -/
abbrev startsSnapshot (ev : MarketEvent) : Bool := ev.hasFlag kFlagSnapshotStart

/-- `ev.levels[i]`.  An index past the array is undefined in the source; here it
reads a zero level. -/
def level (ev : MarketEvent) (i : Nat) : DepthLevel := (ev.levels[i]?).getD ⟨0, 0⟩

end MarketEvent

/-! ## Order flow -/

/-- Engine to order-gateway command. -/
inductive CmdKind where
  | kPlace
  | kCancel
  | kCancelAll
  deriving DecidableEq, Repr

/-- Status of an execution report. -/
inductive ExecKind where
  | kAck
  | kPartial
  | kFilled
  | kCanceled
  | kRejected
  | kExpired
  deriving DecidableEq, Repr

/-- The kinds after which the order is gone. -/
def ExecKind.terminal : ExecKind → Bool
  | .kAck | .kPartial => false
  | .kFilled | .kCanceled | .kRejected | .kExpired => true

/-- Which asset a commission was charged in, relative to the traded symbol. -/
inductive CommAsset where
  | kBase
  | kQuote
  | kOther
  deriving DecidableEq, Repr

structure OrderCommand where
  seq : Nat
  clientId : Nat
  pxTicks : Int
  qtyLots : Int
  tsNs : Int
  kind : CmdKind
  side : Side
  deriving DecidableEq, Repr

/-- `OrderCommand c{}`. -/
def OrderCommand.zero : OrderCommand := ⟨0, 0, 0, 0, 0, .kPlace, .kBid⟩

structure ExecEvent where
  seq : Nat
  clientId : Nat
  exchangeOrderId : Nat
  lastPxTicks : Int
  lastQtyLots : Int
  cumQtyLots : Int
  feeUnits : Int
  tsExchangeMs : Int
  tsRecvNs : Int
  kind : ExecKind
  side : Side
  commAsset : CommAsset
  rejectReason : UInt8
  deriving DecidableEq, Repr

/-- A single open order of a reconcile snapshot. -/
structure OpenOrderRow where
  clientId : Nat
  exchangeOrderId : Nat
  pxTicks : Int
  origQtyLots : Int
  cumQtyLots : Int
  side : Side
  deriving DecidableEq, Repr

def kMaxReconcileRows : Nat := 16

/-- Exchange truth pushed to the engine: `numOpen` is the true open-order count, which
may exceed the `rows` array. -/
structure ReconcileReport where
  baseFreeLots : Int
  baseLockedLots : Int
  quoteFreeUnits : Int
  quoteLockedUnits : Int
  tsExchangeMs : Int
  numOpen : Nat
  rows : Vector OpenOrderRow kMaxReconcileRows
  deriving DecidableEq

end Asmm
