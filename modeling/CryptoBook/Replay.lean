import CryptoBook.EventLog
import CryptoBook.GapVerifier
import CryptoBook.Strategy

/-! # Deterministic replay

`engine/replay.cpp`: the decisions and the strategy's records recomputed from the market
events of a log, without threads, clock or network.  Each function is a loop over the
events; its local variables are a state record and its body is a step on them. -/
namespace Asmm

/-- `MakeDecision`. -/
def makeDecision (book : L2Book) (finalUpdateId : UInt64) (bookLive hadGap : Bool) :
    DecisionRecord where
  finalUpdateId := finalUpdateId
  bestBidPx := book.bestBid.elim 0 (·.pxTicks)
  bestBidQty := book.bestBid.elim 0 (·.qtyLots)
  bestAskPx := book.bestAsk.elim 0 (·.pxTicks)
  bestAskQty := book.bestAsk.elim 0 (·.qtyLots)
  midX2 := book.midX2.getD 0
  numBids := UInt32.ofNat book.numBids
  numAsks := UInt32.ofNat book.numAsks
  bookLive := if bookLive then 1 else 0
  hadGap := if hadGap then 1 else 0

/-! ## Decisions -/

/-- The local variables of `ReplayEvents`. -/
structure DecisionReplay where
  book : L2Book
  verifier : GapVerifier
  bookLive : Bool
  out : List DecisionRecord

namespace DecisionReplay

def init : DecisionReplay := ⟨L2Book.empty, GapVerifier.fresh, false, []⟩

/-- The loop body of `ReplayEvents`. -/
def step (s : DecisionReplay) (ev : MarketEvent) : DecisionReplay :=
  let (verifier, ok) := s.verifier.check ev
  let book := if ev.startsSnapshot then s.book.clear else s.book
  let bookLive := if ev.startsSnapshot then false else s.bookLive
  let book := book.applyEvent ev
  let bookLive := if ev.kind = .kDepthDiff then true else bookLive
  ⟨book, verifier, bookLive, s.out ++ [makeDecision book ev.finalUpdateId bookLive (!ok)]⟩

end DecisionReplay

/-- `ReplayEvents`. -/
def replayEvents (events : List MarketEvent) : List DecisionRecord :=
  (events.foldl DecisionReplay.step DecisionReplay.init).out

/-! ## The strategy -/

section
variable {F : Type} [Double F]

structure StrategySummary (F : Type) where
  events : Nat
  quotes : Nat
  fills : Nat
  finalInventory : Int
  maxAbsInventory : Int
  meanInventory : F
  finalCashUnits : Int
  crossViolations : Int
  oneSidedTicks : Nat
  pulledTicks : Nat

structure StrategyReplay (F : Type) where
  quotes : List QuoteRecord
  fills : List FillRecord
  summary : StrategySummary F

/-- The local variables of `ReplayStrategy`. -/
structure StrategyLoop (F : Type) where
  book : L2Book
  strat : Strategy F
  bookLive : Bool
  out : StrategyReplay F
  invSum : Int
  quoteCount : Nat

namespace StrategyLoop

def init (p : StrategyParams F) : StrategyLoop F where
  book := L2Book.empty
  strat := Strategy.new p false
  bookLive := false
  out := ⟨[], [], ⟨0, 0, 0, 0, 0, Double.ofInt 0, 0, 0, 0, 0⟩⟩
  invSum := 0
  quoteCount := 0

/-- The bookkeeping for an emitted quote. -/
def addQuote (s : StrategyLoop F) (q : QuoteRecord) : StrategyLoop F :=
  let sum := s.out.summary
  { s with
    out := { s.out with
      quotes := s.out.quotes ++ [q]
      summary := { sum with
        quotes := sum.quotes + 1
        oneSidedTicks := if q.oneSided then sum.oneSidedTicks + 1 else sum.oneSidedTicks
        pulledTicks := if q.pulled then sum.pulledTicks + 1 else sum.pulledTicks
        crossViolations :=
          if q.bidPx > 0 ∧ q.askPx > 0 ∧ q.bidPx ≥ q.askPx then sum.crossViolations + 1
          else sum.crossViolations } }
    invSum := s.invSum + q.inventoryLots
    quoteCount := s.quoteCount + 1 }

/-- The bookkeeping for the fills of an event. -/
def addFills (s : StrategyLoop F) (fills : List FillRecord) : StrategyLoop F :=
  { s with out := { s.out with
      fills := s.out.fills ++ fills
      summary := { s.out.summary with fills := s.out.summary.fills + fills.length } } }

/-- The strategy tick of the loop body. -/
def tick (s : StrategyLoop F) (ev : MarketEvent) : StrategyLoop F :=
  let (strat, o) := s.strat.onEvent s.book ev
  let s := { s with strat := strat }
  let s := if o.hasQuote then s.addQuote o.quote else s
  let s := s.addFills o.fills
  let q : Int := s.strat.paper.qLots.natAbs
  { s with out := { s.out with summary := { s.out.summary with
      maxAbsInventory := if q > s.out.summary.maxAbsInventory then q
        else s.out.summary.maxAbsInventory } } }

/-- The loop body of `ReplayStrategy` up to the tick. -/
def absorb (s : StrategyLoop F) (ev : MarketEvent) : StrategyLoop F :=
  let s := { s with out := { s.out with summary :=
    { s.out.summary with events := s.out.summary.events + 1 } } }
  let s := if ev.startsSnapshot then
      { s with book := s.book.clear, bookLive := false, strat := s.strat.onResync }
    else s
  { s with
    book := s.book.applyEvent ev
    bookLive := if ev.kind = .kDepthDiff then true else s.bookLive }

/-- The loop body of `ReplayStrategy`. -/
def step (s : StrategyLoop F) (ev : MarketEvent) : StrategyLoop F :=
  let s := s.absorb ev
  if s.bookLive ∧ !ev.continues then s.tick ev else s

end StrategyLoop

/-- `ReplayStrategy`. -/
def replayStrategy (events : List MarketEvent) (p : StrategyParams F) : StrategyReplay F :=
  let s := events.foldl StrategyLoop.step (StrategyLoop.init p)
  { s.out with summary := { s.out.summary with
      finalInventory := s.strat.paper.qLots
      finalCashUnits := s.strat.paper.cashUnits
      meanInventory :=
        if s.quoteCount ≠ 0 then Double.ofInt s.invSum / Double.ofInt s.quoteCount
        else Double.ofInt 0 } }

end

/-! ## From a log file -/

/-- The loop of `ReadLogEvents`. -/
def readEvents (r : EventLogReader) : List MarketEvent :=
  match _hnext : r.next with
  | none => []
  | some (.ev ev, r) => ev :: readEvents r
  | some (.d _, r) => readEvents r
termination_by r.rest.length
decreasing_by
  · exact EventLogReader.length_lt_of_next _hnext
  · exact EventLogReader.length_lt_of_next _hnext

/-- `ReadLogEvents`, on the file at `path`. -/
def readLogEvents (path : String) (file : Option (List UInt8)) : Except String (List MarketEvent) :=
  (EventLogReader.openLog path file).map readEvents

/-- `ReplayLogFile`. -/
def replayLogFile (path : String) (file : Option (List UInt8)) :
    Except String (List DecisionRecord) :=
  (readLogEvents path file).map replayEvents

/-- `ReplayStrategyFile`. -/
def replayStrategyFile {F : Type} [Double F] (path : String) (file : Option (List UInt8))
    (p : StrategyParams F) : Except String (StrategyReplay F) :=
  (readLogEvents path file).map fun events => replayStrategy events p

theorem readEvents_eq (r : EventLogReader) :
    readEvents r =
      match r.next with
      | none => []
      | some (.ev ev, r) => ev :: readEvents r
      | some (.d _, r) => readEvents r := by
  rw [readEvents]
  split <;> next h => rw [h]

/-- The loop reads back the market events among the records, whatever stands between
them. -/
theorem readEvents_encode (records : List LogRecord) :
    readEvents ⟨records.flatMap LogRecord.encode⟩ = records.filterMap LogRecord.marketEvent? := by
  induction records with
  | nil => rw [readEvents_eq, List.flatMap_nil, EventLogReader.next_nil, List.filterMap_nil]
  | cons r records ih =>
    have hnext := EventLogReader.next_encode r (records.flatMap LogRecord.encode)
    rw [List.flatMap_cons, readEvents_eq, hnext]
    cases r with
    | marketEvent ev => exact congrArg (ev :: ·) ih
    | decision d => exact ih
    | quote | fill | orderCommand | execEvent | reconcile => exact (readEvents_eq _).symm.trans ih

/-- The market events of a log file that this build wrote. -/
theorem readLogEvents_written (path : String) (records : List LogRecord) :
    readLogEvents path (some (LogHeader.layout.encode LogHeader.current ++
      records.flatMap LogRecord.encode)) = .ok (records.filterMap LogRecord.marketEvent?) := by
  rw [readLogEvents, EventLogReader.openLog_header]
  exact congrArg Except.ok (readEvents_encode records)

end Asmm
