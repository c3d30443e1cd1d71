import CryptoBook.Events

/-! # Records derived from the book

The strategy's output records (`strategy/records.hpp`) and the decision record of the
event log (`engine/event_log.hpp`).  A decision is integer data copied from the book and
is read back from a log, so its members have the widths of the source; the strategy's
records are only ever written out and hold exact integers. -/
namespace Asmm

/-- The quoting decision of one strategy tick.  A pulled side has price 0. -/
structure QuoteRecord where
  finalUpdateId : UInt64
  bidPx : Int
  bidQty : Int
  askPx : Int
  askQty : Int
  midX2 : Int
  inventoryLots : Int
  sigmaPMicro : Int
  quoting : Bool
  oneSided : Bool
  pulled : Bool
  deriving DecidableEq, Repr

/-- `QuoteRecord quote{}`. -/
def QuoteRecord.zero : QuoteRecord := ⟨0, 0, 0, 0, 0, 0, 0, 0, false, false, false⟩

/-- A simulated fill: `qtyLots` is positive for a buy, negative for a sell. -/
structure FillRecord where
  finalUpdateId : UInt64
  pxTicks : Int
  qtyLots : Int
  feeUnits : Int
  inventoryAfter : Int
  cashAfter : Int
  side : Side
  deriving DecidableEq, Repr

/-- Book state after one input event; a price is 0 when its side is empty. -/
structure DecisionRecord where
  finalUpdateId : UInt64
  bestBidPx : Int64
  bestBidQty : Int64
  bestAskPx : Int64
  bestAskQty : Int64
  midX2 : Int64
  numBids : UInt32
  numAsks : UInt32
  bookLive : UInt8
  hadGap : UInt8
  deriving DecidableEq, Repr

end Asmm
