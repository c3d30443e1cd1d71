import Mathlib.Algebra.Ring.Int.Defs
import CryptoBook.Book

/-! # The REST cross-check

`engine/crosscheck.cpp`: a REST snapshot is brought forward to the live book's state by
replaying the engine's recent events on it, and the top levels are compared. -/
namespace Asmm

def kMaxCrossCheckLevels : Nat := 128

/-- A REST depth snapshot for cross-checking. -/
structure CrossCheckMsg where
  lastUpdateId : UInt64
  numBids : UInt32
  numAsks : UInt32
  bids : Vector DepthLevel kMaxCrossCheckLevels
  asks : Vector DepthLevel kMaxCrossCheckLevels

/-- `CrossCheckMsg{}`. -/
def CrossCheckMsg.zero : CrossCheckMsg := ⟨0, 0, 0, .replicate _ ⟨0, 0⟩, .replicate _ ⟨0, 0⟩⟩

inductive CrossCheckResult where
  | kMatch
  | kMismatch
  | kSkipped
  deriving DecidableEq, Repr

namespace CrossCheck

/-- Apply the first `n` levels of an array to a side.  An index past the array is
undefined in the source; here it reads a zero level. -/
def seedSide (b : L2Book) (side : Side) (n : Nat)
    (levels : Vector DepthLevel kMaxCrossCheckLevels) : L2Book :=
  (List.range n).foldl
    (fun b i =>
      let l := (levels[i]?).getD ⟨0, 0⟩
      (b.apply side l.pxTicks l.qtyLots).1) b

/-- The scratch book at the snapshot's state. -/
def seed (scratch : L2Book) (msg : CrossCheckMsg) : L2Book :=
  let scratch := scratch.clear
  let scratch := seedSide scratch .kBid msg.numBids.toNat msg.bids
  seedSide scratch .kAsk msg.numAsks.toNat msg.asks

/-- The loop over the recent events: the scratch book after it, and whether the bracket
group was found (`none` where the source returns `kSkipped` from inside the loop). -/
def replayRecent (lastId : UInt64) : Bool → L2Book → List MarketEvent → L2Book × Option Bool
  | started, scratch, [] => (scratch, some started)
  | false, scratch, ev :: evs =>
      if ev.kind ≠ .kDepthDiff then replayRecent lastId false scratch evs
      else if ev.finalUpdateId ≤ lastId then replayRecent lastId false scratch evs
      else if ev.firstUpdateId ≤ lastId + 1 then
        replayRecent lastId true (scratch.applyEvent ev) evs
      else (scratch, none)
  | true, scratch, ev :: evs =>
      if ev.kind = .kSnapshot then (scratch, none)
      else replayRecent lastId true (scratch.applyEvent ev) evs

/-- One side of the comparison at depth `n`. -/
def sameLevel (a b : Option Level) : Bool :=
  match a, b with
  | some a, some b => decide (a.pxTicks = b.pxTicks) && decide (a.qtyLots = b.qtyLots)
  | _, _ => false

/-- `static_cast<std::size_t>(levels)`. -/
def toSize (levels : Int) : Nat := (levels % 2 ^ 64).toNat

/-- The comparison of the top levels. -/
def compareTop (live scratch : L2Book) (levels : Int) : CrossCheckResult :=
  if scratch.numBids < toSize levels ∨ scratch.numAsks < toSize levels then .kSkipped
  else if (List.range levels.toNat).all fun n =>
      sameLevel (scratch.depthAt .kBid n) (live.depthAt .kBid n) &&
        sameLevel (scratch.depthAt .kAsk n) (live.depthAt .kAsk n) then .kMatch
  else .kMismatch

/-- `CrossCheck`: the verdict, and the scratch book as it is left behind. -/
def crossCheck (live : L2Book) (msg : CrossCheckMsg) (recent : List MarketEvent) (levels : Int)
    (scratch : L2Book) : CrossCheckResult × L2Book :=
  match replayRecent msg.lastUpdateId false (seed scratch msg) recent with
  | (scratch, some true) => (compareTop live scratch levels, scratch)
  | (scratch, _) => (.kSkipped, scratch)

end CrossCheck
end Asmm
