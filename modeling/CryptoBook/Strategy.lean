import CryptoBook.Book
import CryptoBook.Records
import CryptoBook.Runs

/-! # The quoting strategy

`strategy/`: the volatility estimate (`SigmaEwma`), the quote formula (`ComputeQuote`),
the paper orders (`PaperBook`) and the per-event loop that joins them (`Strategy`).

Floating point is a parameter: `Double F` is any type with the operations the source
applies to `double`, and nothing is assumed of them, so every result holds whatever they
round to.  Ticks, lots and cash are exact integers, since an overflow is undefined in the
source.

The quotes are clamped twice: by `ComputeQuote`, and again after hysteresis, which may
bring back a price that the book has meanwhile moved through.  Only the second clamp
decides what is emitted (`clamp_spec`). -/
namespace Asmm
open Runs

/-- The operations the source uses on `double`. -/
class Double (F : Type) extends Add F, Sub F, Mul F, Div F, Neg F where
  /-- `static_cast<double>`, and the literals of the source, which are all whole. -/
  ofInt : Int → F
  /-- `static_cast<i64>`. -/
  toInt : F → Int
  floor : F → F
  ceil : F → F
  sqrt : F → F
  log : F → F
  exp : F → F
  pow : F → F → F
  lt : F → F → Bool
  le : F → F → Bool

section
variable {F : Type} [Double F]

structure StrategyParams (F : Type) where
  gamma : F
  kappa : F
  tauDays : F
  sigmaHalflifeS : F
  sigmaMinSamples : Int
  sigmaSpikeThreshold : F
  hysteresisTicks : Int
  qMaxLots : Int
  quoteSizeLots : Int
  makerFeeBps : F
  minNotionalUsdt : F
  pxScale : Int
  qtyScale : Int

/-! ## Volatility -/

structure SigmaEwma (F : Type) where
  lambda : F
  minSamples : Int
  var : F
  lastBucket : Int
  lastMid : F
  haveLast : Bool
  samples : Int

namespace SigmaEwma

/-- The constructor. -/
def new (halflifeS : F) (minSamples : Int) : SigmaEwma F where
  lambda := Double.exp (-Double.log (Double.ofInt 2) / halflifeS)
  minSamples := minSamples
  var := Double.ofInt 0
  lastBucket := -1
  lastMid := Double.ofInt 0
  haveLast := false
  samples := 0

/-- `SigmaEwma::Observe`: at most one sample per second of event time. -/
def observe (s : SigmaEwma F) (tsExchangeMs : Int64) (midTicks : F) : SigmaEwma F × Bool :=
  if Double.le midTicks (Double.ofInt 0) then (s, false)
  else
    let bucket := tsExchangeMs.toInt.tdiv 1000
    if bucket ≤ s.lastBucket then (s, false)
    else if !s.haveLast then
      ({ s with haveLast := true, lastBucket := bucket, lastMid := midTicks }, false)
    else
      let k : F := Double.ofInt (bucket - s.lastBucket)
      let ret := Double.log (midTicks / s.lastMid)
      let ret1s := ret / Double.sqrt k
      ({ s with
          var := s.lambda * s.var + (Double.ofInt 1 - s.lambda) * ret1s * ret1s
          lastBucket := bucket
          lastMid := midTicks
          samples := s.samples + 1 }, true)

/-- `SigmaEwma::ResetContinuity`. -/
def resetContinuity (s : SigmaEwma F) : SigmaEwma F :=
  { s with haveLast := false, lastBucket := -1 }

/-- `SigmaEwma::ready`. -/
def ready (s : SigmaEwma F) : Bool := decide (s.minSamples ≤ s.samples)

/-- `SigmaEwma::sigma_r`. -/
def sigmaR (s : SigmaEwma F) : F := Double.sqrt s.var

end SigmaEwma

/-! ## The quote formula -/

structure Quote (F : Type) where
  bidPx : Int
  askPx : Int
  reservation : F
  deltaTotal : F

/-- The post-only clamp, as it stands at the end of `ComputeQuote` and again in
`Strategy::OnEvent`: bid and ask after it. -/
def clamp (bid ask bestBid bestAsk : Int) : Int × Int :=
  let bid := if bestAsk > 0 ∧ bid ≥ bestAsk then bestAsk - 1 else bid
  let ask := if bestBid > 0 ∧ ask ≤ bestBid then bestBid + 1 else ask
  let bid := if bid ≥ ask then ask - 1 else bid
  (bid, ask)

/-- **What the clamp guarantees**, whatever the prices before it: the bid stays below the
best ask and the ask above the best bid, if there are any, and the two do not cross. -/
theorem clamp_spec (bid ask bestBid bestAsk : Int) :
    (0 < bestAsk → (clamp bid ask bestBid bestAsk).1 < bestAsk) ∧
    (0 < bestBid → bestBid < (clamp bid ask bestBid bestAsk).2) ∧
    (clamp bid ask bestBid bestAsk).1 < (clamp bid ask bestBid bestAsk).2 := by
  -- the last clamp lowers the bid, so it cannot undo the first one
  refine ⟨fun hba => ?_, fun hbb => ?_, ?_⟩
  · have hfirst : (if bestAsk > 0 ∧ bid ≥ bestAsk then bestAsk - 1 else bid) < bestAsk := by
      split <;> omega
    simp only [clamp]
    split <;> omega
  · simp only [clamp]
    split <;> omega
  · simp only [clamp]
    split <;> omega

/-- `ComputeQuote`. -/
def computeQuote (sTicks qBase sigmaP gamma kappa tau : F) (bestBid bestAsk : Int) : Quote F :=
  let sig2tau := sigmaP * sigmaP * tau
  let r := sTicks - qBase * gamma * sig2tau
  let delta := gamma * sig2tau +
    (Double.ofInt 2 / gamma) * Double.log (Double.ofInt 1 + gamma / kappa)
  let bid : Int := Double.toInt (Double.floor (r - delta / Double.ofInt 2))
  let ask : Int := Double.toInt (Double.ceil (r + delta / Double.ofInt 2))
  let ask := if bid ≥ ask then bid + 1 else ask
  let (bid, ask) := clamp bid ask bestBid bestAsk
  ⟨bid, ask, r, delta⟩

/-! ## Paper orders -/

structure PaperQuote where
  pxTicks : Int
  qtyLots : Int
  active : Bool
  deriving DecidableEq, Repr

/-- A resting quote after a fill. -/
def PaperQuote.filled (q : PaperQuote) (fill : Int) : PaperQuote :=
  let qty := q.qtyLots - fill
  { q with qtyLots := qty, active := if qty = 0 then false else q.active }

structure PaperBook (F : Type) where
  feeBps : F
  bid : PaperQuote
  ask : PaperQuote
  qLots : Int
  cashUnits : Int

namespace PaperBook

/-- The constructor. -/
def new (makerFeeBps : F) : PaperBook F := ⟨makerFeeBps, ⟨0, 0, false⟩, ⟨0, 0, false⟩, 0, 0⟩

/-- `PaperBook::SetQuotes`. -/
def setQuotes (p : PaperBook F) (bid ask : PaperQuote) : PaperBook F :=
  { p with bid := bid, ask := ask }

/-- `PaperBook::PullQuotes`. -/
def pullQuotes (p : PaperBook F) : PaperBook F :=
  { p with bid := { p.bid with active := false }, ask := { p.ask with active := false } }

/-- `PaperBook::FeeUnits`. -/
def feeUnits (p : PaperBook F) (pxTicks qtyLots : Int) : Int :=
  let notional : F := Double.ofInt pxTicks * Double.ofInt qtyLots
  Double.toInt (Double.ceil (notional * p.feeBps / Double.ofInt 10000))

/-- The first half of `PaperBook::SimulateFills`: the bid against the best ask. -/
def fillBid (p : PaperBook F) (book : L2Book) (finalUpdateId : UInt64) :
    PaperBook F × List FillRecord :=
  if p.bid.active ∧ p.bid.qtyLots > 0 then
    match book.bestAsk with
    | none => (p, [])
    | some ba =>
        if ba.pxTicks.toInt ≤ p.bid.pxTicks then
          let fill := min p.bid.qtyLots ba.qtyLots.toInt
          if fill > 0 then
            let fee := p.feeUnits p.bid.pxTicks fill
            let p' := { p with
              qLots := p.qLots + fill
              cashUnits := p.cashUnits - p.bid.pxTicks * fill - fee
              bid := p.bid.filled fill }
            (p', [⟨finalUpdateId, p.bid.pxTicks, fill, fee, p'.qLots, p'.cashUnits, .kBid⟩])
          else (p, [])
        else (p, [])
  else (p, [])

/-- The second half of `PaperBook::SimulateFills`: the ask against the best bid. -/
def fillAsk (p : PaperBook F) (book : L2Book) (finalUpdateId : UInt64) :
    PaperBook F × List FillRecord :=
  if p.ask.active ∧ p.ask.qtyLots > 0 then
    match book.bestBid with
    | none => (p, [])
    | some bb =>
        if bb.pxTicks.toInt ≥ p.ask.pxTicks then
          let fill := min p.ask.qtyLots bb.qtyLots.toInt
          if fill > 0 then
            let fee := p.feeUnits p.ask.pxTicks fill
            let p' := { p with
              qLots := p.qLots - fill
              cashUnits := p.cashUnits + p.ask.pxTicks * fill - fee
              ask := p.ask.filled fill }
            (p', [⟨finalUpdateId, p.ask.pxTicks, -fill, fee, p'.qLots, p'.cashUnits, .kAsk⟩])
          else (p, [])
        else (p, [])
  else (p, [])

/-- `PaperBook::SimulateFills`: the book after it and the records appended. -/
def simulateFills (p : PaperBook F) (book : L2Book) (finalUpdateId : UInt64) :
    PaperBook F × List FillRecord :=
  let bought := p.fillBid book finalUpdateId
  let sold := bought.1.fillAsk book finalUpdateId
  (sold.1, bought.2 ++ sold.2)

/-- `PaperBook::ApplyRealFill`. -/
def applyRealFill (p : PaperBook F) (e : ExecEvent) : PaperBook F :=
  if e.lastQtyLots ≤ 0 then p
  else
    let qty := e.lastQtyLots
    let px := e.lastPxTicks
    let p := match e.side with
      | .kBid => { p with qLots := p.qLots + qty, cashUnits := p.cashUnits - px * qty }
      | .kAsk => { p with qLots := p.qLots - qty, cashUnits := p.cashUnits + px * qty }
    match e.commAsset with
    | .kQuote => { p with cashUnits := p.cashUnits - e.feeUnits }
    | .kBase => { p with qLots := p.qLots - e.feeUnits }
    | .kOther => p

end PaperBook

/-! ## The strategy -/

structure StrategyOutput where
  hasQuote : Bool
  quote : QuoteRecord
  fills : List FillRecord
  deriving DecidableEq

structure Strategy (F : Type) where
  p : StrategyParams F
  liveMode : Bool
  sigma : SigmaEwma F
  paper : PaperBook F
  workingBid : Int
  workingAsk : Int
  haveWorking : Bool
  fillCount : Nat

namespace Strategy

/-- `kSecondsPerDay`. -/
def kSecondsPerDay : F := Double.ofInt 86400

/-- `MakeQuote`. -/
def makeQuote (fid : UInt64) (midX2 : Int64) (inventory : Int) (sigmaP : F)
    (bidPx bidQty askPx askQty : Int) (quoting oneSided pulled : Bool) : QuoteRecord where
  finalUpdateId := fid
  bidPx := bidPx
  bidQty := bidQty
  askPx := askPx
  askQty := askQty
  midX2 := midX2.toInt
  inventoryLots := inventory
  sigmaPMicro := Double.toInt (sigmaP * Double.ofInt 1000000)
  quoting := quoting
  oneSided := oneSided
  pulled := pulled

/-- The constructor. -/
def new (p : StrategyParams F) (liveMode : Bool) : Strategy F where
  p := p
  liveMode := liveMode
  sigma := SigmaEwma.new p.sigmaHalflifeS p.sigmaMinSamples
  paper := PaperBook.new p.makerFeeBps
  workingBid := 0
  workingAsk := 0
  haveWorking := false
  fillCount := 0

/-- `Strategy::OnExec`. -/
def onExec (s : Strategy F) (e : ExecEvent) : Strategy F :=
  { s with
    paper := s.paper.applyRealFill e
    fillCount := if e.lastQtyLots > 0 then s.fillCount + 1 else s.fillCount }

/-- `Strategy::MinNotionalOk`. -/
def minNotionalOk (s : Strategy F) (pxTicks qtyLots : Int) : Bool :=
  let notional : F := Double.ofInt pxTicks * Double.ofInt qtyLots *
    Double.pow (Double.ofInt 10) (-Double.ofInt (s.p.pxScale + s.p.qtyScale))
  Double.le s.p.minNotionalUsdt notional

/-- `Strategy::OnResync`. -/
def onResync (s : Strategy F) : Strategy F :=
  { s with
    paper := s.paper.pullQuotes
    sigma := s.sigma.resetContinuity
    haveWorking := false }

/-- `paper_.PullQuotes(); have_working_ = false;`. -/
def pull (s : Strategy F) : Strategy F :=
  { s with paper := s.paper.pullQuotes, haveWorking := false }

/-- Hold a working price that moved by less than `H` ticks. -/
def hold (s : Strategy F) (px working : Int) : Int :=
  if s.haveWorking ∧ ((px - working).natAbs : Int) < s.p.hysteresisTicks then working else px

/-- The second half of `Strategy::OnEvent`, after the guards: quote both sides of the
book `bb`, `ba` (0 when a side is empty). -/
def requote (s : Strategy F) (ev : MarketEvent) (midX2 : Int64) (mid sigmaP : F) (bb ba : Int) :
    Strategy F × QuoteRecord :=
  let qBase := Double.ofInt s.paper.qLots / Double.pow (Double.ofInt 10) (Double.ofInt s.p.qtyScale)
  let qt := computeQuote mid qBase sigmaP s.p.gamma s.p.kappa s.p.tauDays bb ba
  let q := s.paper.qLots
  let quoteBid := !decide (q ≥ s.p.qMaxLots)
  let quoteAsk := !decide (q ≤ -s.p.qMaxLots)
  let oneSided := decide (q ≥ s.p.qMaxLots) || decide (q ≤ -s.p.qMaxLots)
  let (bidPx, askPx) := clamp (s.hold qt.bidPx s.workingBid) (s.hold qt.askPx s.workingAsk) bb ba
  let size := s.p.quoteSizeLots
  let pb : PaperQuote := ⟨bidPx, size, quoteBid && s.minNotionalOk bidPx size⟩
  let pa : PaperQuote := ⟨askPx, size, quoteAsk && s.minNotionalOk askPx size⟩
  ({ s with
      paper := s.paper.setQuotes pb pa
      workingBid := bidPx
      workingAsk := askPx
      haveWorking := true },
    makeQuote ev.finalUpdateId midX2 s.paper.qLots sigmaP
      (if pb.active then bidPx else 0) (if pb.active then size else 0)
      (if pa.active then askPx else 0) (if pa.active then size else 0)
      (pb.active || pa.active) oneSided false)

/-- The price of a best level, 0 when the side is empty. -/
def pxOrZero (l : Option Level) : Int := l.elim 0 fun l => l.pxTicks.toInt

/-- `Strategy::OnEvent`. -/
def onEvent (s : Strategy F) (book : L2Book) (ev : MarketEvent) : Strategy F × StrategyOutput :=
  match book.midX2 with
  | none => (s.pull, ⟨false, QuoteRecord.zero, []⟩)
  | some midX2 =>
      let mid : F := Double.ofInt midX2.toInt / Double.ofInt 2
      let s := { s with sigma := (s.sigma.observe ev.tsExchangeMs mid).1 }
      -- fills first: the quotes of the previous tick may be crossed by this book
      let (paper, fills) :=
        if s.liveMode then (s.paper, []) else s.paper.simulateFills book ev.finalUpdateId
      let s := { s with paper := paper, fillCount := s.fillCount + fills.length }
      let sr := s.sigma.sigmaR
      let sigmaP := mid * sr * Double.sqrt kSecondsPerDay
      if !s.sigma.ready || Double.lt s.p.sigmaSpikeThreshold sr then
        (s.pull, ⟨true, makeQuote ev.finalUpdateId midX2 s.paper.qLots sigmaP 0 0 0 0
          false false true, fills⟩)
      else
        let r := s.requote ev midX2 mid sigmaP (pxOrZero book.bestBid) (pxOrZero book.bestAsk)
        (r.1, ⟨true, r.2, fills⟩)

/-! ## Quotes are post-only -/

/-- A bid and an ask that, where they are active, lie strictly inside the opposite best
price and do not cross. -/
structure PostOnly (book : L2Book) (bidActive askActive : Prop) (bid ask : Int) : Prop where
  bid_below : bidActive → ∀ l, book.bestAsk = some l → bid < l.pxTicks.toInt
  ask_above : askActive → ∀ l, book.bestBid = some l → l.pxTicks.toInt < ask
  uncrossed : bidActive → askActive → bid < ask

theorem PostOnly.of_inactive {book : L2Book} {bidActive askActive : Prop} {bid ask : Int}
    (hbid : ¬ bidActive) (hask : ¬ askActive) : PostOnly book bidActive askActive bid ask :=
  ⟨fun h => absurd h hbid, fun h => absurd h hask, fun h => absurd h hbid⟩

/-- A side of a record is active when it holds a price or a quantity. -/
def BidActive (q : QuoteRecord) : Prop := q.bidPx ≠ 0 ∨ q.bidQty ≠ 0

def AskActive (q : QuoteRecord) : Prop := q.askPx ≠ 0 ∨ q.askQty ≠ 0

/-- Best prices of the book are positive. -/
def Positive (book : L2Book) : Prop :=
  (∀ l, book.bestBid = some l → 0 < l.pxTicks) ∧ (∀ l, book.bestAsk = some l → 0 < l.pxTicks)

/-- Clamped prices are post-only against the book they were clamped to. -/
theorem clamp_postOnly {book : L2Book} (hpos : Positive book) (bid ask : Int)
    (bidActive askActive : Prop) :
    PostOnly book bidActive askActive
      (clamp bid ask (pxOrZero book.bestBid) (pxOrZero book.bestAsk)).1
      (clamp bid ask (pxOrZero book.bestBid) (pxOrZero book.bestAsk)).2 := by
  obtain ⟨hask, hbid, huncrossed⟩ :=
    clamp_spec bid ask (pxOrZero book.bestBid) (pxOrZero book.bestAsk)
  refine ⟨fun _ l hl => ?_, fun _ l hl => ?_, fun _ _ => huncrossed⟩
  · have hpx : pxOrZero book.bestAsk = l.pxTicks.toInt := by rw [hl]; rfl
    exact hpx ▸ hask (hpx ▸ Int64.lt_iff_toInt_lt.mp (hpos.2 l hl))
  · have hpx : pxOrZero book.bestBid = l.pxTicks.toInt := by rw [hl]; rfl
    exact hpx ▸ hbid (hpx ▸ Int64.lt_iff_toInt_lt.mp (hpos.1 l hl))

/-- What a record shows of a quote: nothing when it is inactive, else its price. -/
theorem PostOnly.shown {book : L2Book} {bidActive askActive : Bool} {bid ask size : Int}
    (h : PostOnly book (bidActive = true) (askActive = true) bid ask) :
    PostOnly book
      ((if bidActive then bid else 0) ≠ 0 ∨ (if bidActive then size else 0) ≠ 0)
      ((if askActive then ask else 0) ≠ 0 ∨ (if askActive then size else 0) ≠ 0)
      (if bidActive then bid else 0) (if askActive then ask else 0) := by
  obtain ⟨hbid, hask, huncrossed⟩ := h
  constructor
  · cases bidActive
    · simp
    · exact fun _ => hbid rfl
  · cases askActive
    · simp
    · exact fun _ => hask rfl
  · cases bidActive <;> cases askActive
    · simp
    · simp
    · simp
    · exact fun _ _ => huncrossed rfl rfl

theorem requote_postOnly (s : Strategy F) (ev : MarketEvent) (midX2 : Int64) (mid sigmaP : F)
    {book : L2Book} (hpos : Positive book) :
    let r := s.requote ev midX2 mid sigmaP (pxOrZero book.bestBid) (pxOrZero book.bestAsk)
    PostOnly book (BidActive r.2) (AskActive r.2) r.2.bidPx r.2.askPx ∧
    PostOnly book (r.1.paper.bid.active = true) (r.1.paper.ask.active = true)
      r.1.paper.bid.pxTicks r.1.paper.ask.pxTicks :=
  ⟨(clamp_postOnly hpos _ _ _ _).shown, clamp_postOnly hpos _ _ _ _⟩

/-- Every branch of `onEvent` leaves only post-only quotes, from any state. -/
theorem onEvent_postOnly (s : Strategy F) {book : L2Book} (hpos : Positive book)
    (ev : MarketEvent) :
    let r := s.onEvent book ev
    (r.2.hasQuote = true →
      PostOnly book (BidActive r.2.quote) (AskActive r.2.quote) r.2.quote.bidPx r.2.quote.askPx) ∧
    PostOnly book (r.1.paper.bid.active = true) (r.1.paper.ask.active = true)
      r.1.paper.bid.pxTicks r.1.paper.ask.pxTicks := by
  unfold onEvent
  cases book.midX2 with
  | none => exact ⟨nofun, .of_inactive nofun nofun⟩
  | some midX2 =>
    dsimp only
    split
    · refine ⟨fun _ => .of_inactive ?_ ?_, .of_inactive nofun nofun⟩ <;>
        simp [BidActive, AskActive, makeQuote]
    · exact ⟨fun _ => (requote_postOnly _ ev midX2 _ _ hpos).1,
        (requote_postOnly _ ev midX2 _ _ hpos).2⟩

/-- A call on the strategy. -/
inductive Op where
  | onEvent (book : L2Book) (ev : MarketEvent)
  | onExec (e : ExecEvent)
  | onResync

/-- The state after one call. -/
def step (s : Strategy F) : Op → Strategy F
  | .onEvent book ev => (s.onEvent book ev).1
  | .onExec e => s.onExec e
  | .onResync => s.onResync

/-- **Quotes never cross and are post-only.**  After any calls on a strategy with any
parameters, an event over a book whose best prices are positive emits a record whose
active bid is below the best ask, whose active ask is above the best bid and whose sides
do not cross; and the same is true of the quotes left resting. -/
theorem quotes_post_only (p : StrategyParams F) (liveMode : Bool) (ops : List Op)
    (book : L2Book) (ev : MarketEvent)
    (hbid : ∀ l, book.bestBid = some l → 0 < l.pxTicks)
    (hask : ∀ l, book.bestAsk = some l → 0 < l.pxTicks) :
    let r := (run step (new p liveMode) ops).onEvent book ev
    (r.2.hasQuote = true →
      PostOnly book (BidActive r.2.quote) (AskActive r.2.quote) r.2.quote.bidPx r.2.quote.askPx) ∧
    PostOnly book (r.1.paper.bid.active = true) (r.1.paper.ask.active = true)
      r.1.paper.bid.pxTicks r.1.paper.ask.pxTicks :=
  onEvent_postOnly _ ⟨hbid, hask⟩ ev

/-- Whole numbers in place of `double`, with a flat logarithm. -/
def Whole : Type := Int

instance : Double Whole where
  add := Int.add
  sub := Int.sub
  mul := Int.mul
  div := Int.tdiv
  neg := Int.neg
  ofInt := fun x => x
  toInt := fun x => x
  floor := id
  ceil := id
  sqrt := id
  log := fun _ => (0 : Int)
  exp := id
  pow := fun _ _ => (1 : Int)
  lt := fun (x y : Int) => decide (x < y)
  le := fun (x y : Int) => decide (x ≤ y)

/-- Parameters that quote ten lots a side from the first event on. -/
def quoteAtOnce : StrategyParams Whole :=
  let one : Whole := (1 : Int)
  ⟨one, one, one, one, 0, (5 : Int), 2, 100, 10, (10 : Int), (5 : Int), 2, 5⟩

/-- A book with one level a side, 100 and 102. -/
def narrowBook : L2Book :=
  ((L2Book.empty.apply .kBid 100 1).1.apply .kAsk 102 1).1

theorem positive_narrowBook : Positive narrowBook := by
  constructor
  · intro l hl
    obtain rfl : (⟨100, 1⟩ : Level) = l := Option.some.inj hl
    decide
  · intro l hl
    obtain rfl : (⟨102, 1⟩ : Level) = l := Option.some.inj hl
    decide

/-- On the narrow book the two prices end up next to each other inside the spread. -/
theorem quotes_post_only_narrow :
    let r := (run step (new quoteAtOnce false) [.onResync]).onEvent narrowBook MarketEvent.zero
    r.2.quote.bidPx = 101 ∧ r.2.quote.askPx = 102 ∧
    PostOnly narrowBook (BidActive r.2.quote) (AskActive r.2.quote) r.2.quote.bidPx
      r.2.quote.askPx := by
  obtain ⟨hbid, hask⟩ := positive_narrowBook
  refine ⟨by decide, by decide, ?_⟩
  exact (quotes_post_only quoteAtOnce false [.onResync] narrowBook MarketEvent.zero hbid hask).1 rfl

/-! ## Hysteresis -/

/-- The strategy at the time `OnEvent` calls `ComputeQuote`: the mid is observed and the
resting quotes are matched. -/
def beforeQuote (s : Strategy F) (book : L2Book) (ev : MarketEvent) (mid : F) : Strategy F :=
  let s := { s with sigma := (s.sigma.observe ev.tsExchangeMs mid).1 }
  let (paper, fills) :=
    if s.liveMode then (s.paper, []) else s.paper.simulateFills book ev.finalUpdateId
  { s with paper := paper, fillCount := s.fillCount + fills.length }

/-- The guards of `OnEvent`: warm-up and volatility spike. -/
def mustPull (s : Strategy F) : Bool :=
  !s.sigma.ready || Double.lt s.p.sigmaSpikeThreshold s.sigma.sigmaR

/-- `mid` of `OnEvent`. -/
def midOf (midX2 : Int64) : F := Double.ofInt midX2.toInt / Double.ofInt 2

/-- `sigma_p` of `OnEvent`. -/
def sigmaPOf (s : Strategy F) (mid : F) : F := mid * s.sigma.sigmaR * Double.sqrt kSecondsPerDay

/-- The call of `ComputeQuote`. -/
def computedQuote (s : Strategy F) (mid sigmaP : F) (bb ba : Int) : Quote F :=
  computeQuote mid
    (Double.ofInt s.paper.qLots / Double.pow (Double.ofInt 10) (Double.ofInt s.p.qtyScale))
    sigmaP s.p.gamma s.p.kappa s.p.tauDays bb ba

/-- What `ComputeQuote` returns to this `OnEvent`; `none` if the quotes are pulled and it
is not called. -/
def freshQuote (s : Strategy F) (book : L2Book) (ev : MarketEvent) : Option (Quote F) :=
  match book.midX2 with
  | none => none
  | some midX2 =>
      let s := s.beforeQuote book ev (midOf midX2)
      if s.mustPull then none
      else some (s.computedQuote (midOf midX2) (s.sigmaPOf (midOf midX2))
        (pxOrZero book.bestBid) (pxOrZero book.bestAsk))

/-- The state after `OnEvent` on a book with a mid. -/
theorem onEvent_of_mid (s : Strategy F) {book : L2Book} (ev : MarketEvent) {midX2 : Int64}
    (hmid : book.midX2 = some midX2) :
    let s₁ := s.beforeQuote book ev (midOf midX2)
    (s.onEvent book ev).1 =
      if s₁.mustPull then s₁.pull
      else (s₁.requote ev midX2 (midOf midX2) (s₁.sigmaPOf (midOf midX2))
        (pxOrZero book.bestBid) (pxOrZero book.bestAsk)).1 := by
  intro s₁
  rw [onEvent, hmid]
  exact apply_ite Prod.fst _ _ _

/-- `a` and `b` are less than `m` ticks apart. -/
def Near (m a b : Int) : Prop := ((a - b).natAbs : Int) < m

theorem near_iff {m a b : Int} : Near m a b ↔ a < b + m ∧ b < a + m := by
  unfold Near
  omega

omit [Double F] in
/-- Holding moves a price by less than `H` ticks, or not at all. -/
theorem hold_near (s : Strategy F) (px working : Int) :
    Near (max s.p.hysteresisTicks 1) (s.hold px working) px := by
  rw [near_iff]
  unfold hold
  split
  · next hheld => omega
  · omega

/-- **The clamp does not drift.**  Prices near a quote that has been clamped to the same
book are still near it when they are clamped themselves. -/
theorem clamp_near {m rawBid rawAsk bid ask bestBid bestAsk : Int}
    (hbid : Near m bid (clamp rawBid rawAsk bestBid bestAsk).1)
    (hask : Near m ask (clamp rawBid rawAsk bestBid bestAsk).2) :
    Near m (clamp bid ask bestBid bestAsk).1 (clamp rawBid rawAsk bestBid bestAsk).1 ∧
    Near m (clamp bid ask bestBid bestAsk).2 (clamp rawBid rawAsk bestBid bestAsk).2 := by
  obtain ⟨hbelow, habove, huncrossed⟩ := clamp_spec rawBid rawAsk bestBid bestAsk
  generalize (clamp rawBid rawAsk bestBid bestAsk).1 = b at *
  generalize (clamp rawBid rawAsk bestBid bestAsk).2 = a at *
  rw [near_iff] at hbid hask
  simp only [near_iff, clamp]
  -- the quote is inside the book, so a price outside it is clamped towards the quote
  have hask' : ∀ ask', ask' = (if bestBid > 0 ∧ ask ≤ bestBid then bestBid + 1 else ask) →
      ask' < a + m ∧ a < ask' + m := by
    rintro _ rfl
    split <;> omega
  have hbid' : ∀ bid', bid' = (if bestAsk > 0 ∧ bid ≥ bestAsk then bestAsk - 1 else bid) →
      bid' < b + m ∧ b < bid' + m := by
    rintro _ rfl
    split <;> omega
  obtain ⟨haskUp, haskDown⟩ := hask' _ rfl
  obtain ⟨hbidUp, hbidDown⟩ := hbid' _ rfl
  refine ⟨?_, haskUp, haskDown⟩
  -- uncrossing lowers the bid to just below an ask near `a`, and `b` is below `a`
  split <;> omega

/-- The prices that `requote` stores are near the quote it computes. -/
theorem requote_near (s : Strategy F) (ev : MarketEvent) (midX2 : Int64) (mid sigmaP : F)
    (bb ba : Int) :
    let qt := s.computedQuote mid sigmaP bb ba
    let s' := (s.requote ev midX2 mid sigmaP bb ba).1
    Near (max s.p.hysteresisTicks 1) s'.workingBid qt.bidPx ∧
    Near (max s.p.hysteresisTicks 1) s'.workingAsk qt.askPx :=
  clamp_near (s.hold_near _ _) (s.hold_near _ _)

/-- **Hysteresis never drifts.**  Whatever prices a strategy has been holding and for
however long, the prices an event makes it work are less than `max H 1` ticks away from
those `ComputeQuote` has just returned, which may be any: nothing is assumed of the
floating-point operations.  An event that calls `ComputeQuote` not at all leaves no
working prices.  The best prices of the book need not even be positive, since a side that
one clamp ignores is ignored by the other. -/
theorem hysteresis_never_drifts (s : Strategy F) (book : L2Book) (ev : MarketEvent) :
    let s' := (s.onEvent book ev).1
    match s.freshQuote book ev with
    | none => s'.haveWorking = false
    | some qt =>
        s'.haveWorking = true ∧
        Near (max s.p.hysteresisTicks 1) s'.workingBid qt.bidPx ∧
        Near (max s.p.hysteresisTicks 1) s'.workingAsk qt.askPx := by
  intro s'
  unfold freshQuote
  cases hmid : book.midX2 with
  | none =>
    have hstate : s' = s.pull := by
      show (s.onEvent book ev).1 = _
      rw [onEvent, hmid]
    exact congrArg haveWorking hstate
  | some midX2 =>
    have hstate : s' = _ := s.onEvent_of_mid ev hmid
    clear_value s'
    subst hstate
    dsimp only
    cases (s.beforeQuote book ev (midOf midX2)).mustPull with
    | true => rfl
    | false => exact ⟨rfl, requote_near (s.beforeQuote book ev (midOf midX2)) ev midX2 _ _ _ _⟩

/-- On the narrow book a quote is computed at once. -/
example : ((new quoteAtOnce false).freshQuote narrowBook MarketEvent.zero).isSome := by decide

end Strategy
end
end Asmm
