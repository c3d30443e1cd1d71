import CryptoBook.CrossCheck
import CryptoBook.Replay

/-! # The engine

`Engine` of `engine/engine.cpp`, the single writer of the book: the loop bodies of
`Drain` and `HandleCrossChecks`, the stale check and the timed flush of `Run`.  The
queues are seen through what `try_pop` returned; the clock through the reading passed in.

The body of `Drain` writes to the log as it goes.  Nothing it computes depends on the
log, so `pop` returns the records it writes, in order, and appends them to the log at the
end. -/
namespace Asmm

structure EngineCounters where
  eventsApplied : Nat
  snapshotsApplied : Nat
  staleEpisodes : Nat
  crosscheckOk : Nat
  crosscheckFail : Nat
  crosscheckSkipped : Nat

structure Engine (F : Type) where
  hasCrossChecks : Bool
  crosscheckLevels : Int
  log : Option EventLogWriter
  strat : Option (Strategy F)
  lastFlushNs : Int
  book : L2Book
  scratch : L2Book
  verifier : GapVerifier
  ring : List MarketEvent
  staleThresholdNs : Int
  bookLive : Bool
  stale : Bool
  counters : EngineCounters
  stratInv : Int
  stratSigmaMicro : Int
  stratFills : Nat

namespace Engine
variable {F : Type} [Double F]

def kRingCap : Nat := 1024
def kRingKeep : Nat := 512
def kLogFlushNs : Int := 5000000000

/-- The constructor. -/
def new (staleThresholdMs : Int) (hasCrossChecks : Bool) (crosscheckLevels : Int)
    (log : Option EventLogWriter) (strat : Option (Strategy F)) : Engine F where
  hasCrossChecks := hasCrossChecks
  crosscheckLevels := crosscheckLevels
  log := log
  strat := strat
  lastFlushNs := 0
  book := L2Book.empty
  scratch := L2Book.empty
  verifier := GapVerifier.fresh
  ring := []
  staleThresholdNs := staleThresholdMs * 1000000
  bookLive := false
  stale := false
  counters := ⟨0, 0, 0, 0, 0, 0⟩
  stratInv := 0
  stratSigmaMicro := 0
  stratFills := 0

/-- `Engine::RecordRing`. -/
def recordRing (ring : List MarketEvent) (ev : MarketEvent) : List MarketEvent :=
  let ring := ring ++ [ev]
  if ring.length > kRingCap then ring.drop (ring.length - kRingKeep) else ring

/-- `Drain`, first part of the loop body: check, clear on a snapshot start, apply.  Also
returns the verifier's verdict. -/
def absorb (e : Engine F) (ev : MarketEvent) : Engine F × Bool :=
  let (verifier, ok) := e.verifier.check ev
  let e := { e with verifier := verifier }
  let e := if ev.startsSnapshot then
      { e with
        book := e.book.clear
        ring := []
        counters := { e.counters with snapshotsApplied := e.counters.snapshotsApplied + 1 }
        bookLive := false
        strat := e.strat.map Strategy.onResync }
    else e
  ({ e with
      book := e.book.applyEvent ev
      ring := recordRing e.ring ev
      counters := { e.counters with eventsApplied := e.counters.eventsApplied + 1 }
      bookLive := if ev.kind = .kDepthDiff then true else e.bookLive }, ok)

/-- `Drain`, last part of the loop body: the strategy tick, and the records it logs. -/
def tick (e : Engine F) (ev : MarketEvent) : Engine F × List LogRecord :=
  match e.strat with
  | none => (e, [])
  | some strat =>
      if e.bookLive ∧ !ev.continues then
        let (strat, o) := strat.onEvent e.book ev
        ({ e with
            strat := some strat
            stratInv := if o.hasQuote then o.quote.inventoryLots else e.stratInv
            stratSigmaMicro := if o.hasQuote then o.quote.sigmaPMicro else e.stratSigmaMicro
            stratFills := strat.fillCount },
          (if o.hasQuote then [.quote o.quote] else []) ++ o.fills.map .fill)
      else (e, [])

/-- `if (log_) log_->Write...`, for each of some records. -/
def write (e : Engine F) (records : List LogRecord) : Engine F :=
  { e with log := e.log.map fun w => records.foldl EventLogWriter.write w }

/-- The loop body of `Engine::Drain`, and the records it logs. -/
def pop (e : Engine F) (ev : MarketEvent) : Engine F × List LogRecord :=
  let absorbed := e.absorb ev
  let e := absorbed.1
  let decision := makeDecision e.book ev.finalUpdateId e.bookLive (!absorbed.2)
  let ticked := e.tick ev
  let records := .marketEvent ev :: .decision decision :: ticked.2
  (ticked.1.write records, records)

omit [Double F] in
theorem log_absorb (e : Engine F) (ev : MarketEvent) : (e.absorb ev).1.log = e.log := by
  unfold absorb
  dsimp only
  split <;> rfl

/-- The tick changes the strategy and what is shown of it, and nothing else. -/
theorem tick_frame (e : Engine F) (ev : MarketEvent) :
    ∃ strat inv sigmaMicro fills, (e.tick ev).1 =
      { e with
        strat := strat
        stratInv := inv
        stratSigmaMicro := sigmaMicro
        stratFills := fills } := by
  unfold tick
  split
  · exact ⟨_, _, _, _, rfl⟩
  · split
    · exact ⟨_, _, _, _, rfl⟩
    · exact ⟨_, _, _, _, rfl⟩

theorem log_tick (e : Engine F) (ev : MarketEvent) : (e.tick ev).1.log = e.log := by
  obtain ⟨_, _, _, _, hframe⟩ := e.tick_frame ev
  rw [hframe]

/-- The log gains the records that `pop` reports. -/
theorem log_pop (e : Engine F) (ev : MarketEvent) :
    (e.pop ev).1.log = e.log.map fun w => (e.pop ev).2.foldl EventLogWriter.write w := by
  simp only [pop, write, log_tick, log_absorb]

theorem book_tick (e : Engine F) (ev : MarketEvent) :
    (e.tick ev).1.book = e.book ∧ (e.tick ev).1.bookLive = e.bookLive := by
  obtain ⟨_, _, _, _, hframe⟩ := e.tick_frame ev
  rw [hframe]
  exact ⟨rfl, rfl⟩

/-- What `pop` does to the book, whatever the strategy and the log. -/
theorem book_pop (e : Engine F) (ev : MarketEvent) :
    (e.pop ev).1.book = (if ev.startsSnapshot then e.book.clear else e.book).applyEvent ev ∧
    (e.pop ev).1.bookLive = (if ev.kind = .kDepthDiff then true
      else if ev.startsSnapshot then false else e.bookLive) := by
  obtain ⟨hbook, hlive⟩ := (e.absorb ev).1.book_tick ev
  unfold pop write
  dsimp only
  rw [hbook, hlive]
  unfold absorb
  cases ev.startsSnapshot with
  | false => exact ⟨rfl, rfl⟩
  | true => exact ⟨rfl, rfl⟩

/-- One message of `Engine::HandleCrossChecks`. -/
def handleCrossCheck (e : Engine F) (msg : CrossCheckMsg) : Engine F :=
  let (r, scratch) := CrossCheck.crossCheck e.book msg e.ring e.crosscheckLevels e.scratch
  let c := e.counters
  { e with
    scratch := scratch
    counters := match r with
      | .kMatch => { c with crosscheckOk := c.crosscheckOk + 1 }
      | .kMismatch => { c with crosscheckFail := c.crosscheckFail + 1 }
      | .kSkipped => { c with crosscheckSkipped := c.crosscheckSkipped + 1 } }

/-- `Engine::HandleCrossChecks`, on the messages popped. -/
def handleCrossChecks (e : Engine F) (msgs : List CrossCheckMsg) : Engine F :=
  if e.hasCrossChecks then msgs.foldl handleCrossCheck e else e

/-- The stale check of `Engine::Run`. -/
def checkStale (e : Engine F) (nowNs : Int) : Engine F :=
  if e.bookLive then
    if nowNs - e.book.lastUpdateTsNs.toInt > e.staleThresholdNs then
      if !e.stale then
        { e with
          stale := true
          counters := { e.counters with staleEpisodes := e.counters.staleEpisodes + 1 } }
      else e
    else { e with stale := false }
  else e

/-- `log_->Flush()`. -/
def flush (e : Engine F) : Engine F := { e with log := e.log.map EventLogWriter.flush }

/-- The timed flush of `Engine::Run`. -/
def timedFlush (e : Engine F) (nowNs : Int) : Engine F :=
  if e.log.isSome ∧ nowNs - e.lastFlushNs > kLogFlushNs then
    { e.flush with lastFlushNs := nowNs }
  else e

end Engine
end Asmm
