import CryptoBook.Interaction
import CryptoBook.Reconstructor

/-! # The market-data thread

`MarketDataThread` of `engine/market_data_thread.cpp`: connect, bootstrap from a REST
snapshot, follow the diff stream, resync on a gap, reconnect on an error.  The two
transports, the clock, the stop flag and the queue's `try_push` are calls on the
environment, which may answer anything at any time; in particular the flag may be read as
set and later as cleared.  How long the thread sleeps is not modelled.

Every `while` loop takes `rounds`, the number of rounds after which nothing more of the
execution is looked at. -/
namespace Asmm
open Interaction

inductive WsReadStatus where
  | kOk
  | kTimeout
  | kClosed
  | kError
  deriving DecidableEq, Repr

structure WsFrame where
  status : WsReadStatus
  payload : String

structure MarketDataParams where
  wsHost : String
  wsTarget : String
  restHost : String
  snapshotTarget : String
  filters : SymbolFilters
  maxSnapshotRefetch : Int

structure MdCounters where
  eventsEmitted : Nat
  snapshotsFetched : Nat
  gapsDetected : Nat
  resyncs : Nat
  wsReconnects : Nat
  snapshotTooOld : Nat
  queueFullSpins : Nat

/-- What the thread calls. -/
inductive MdCall where
  | stopLoad
  | connect (host target : String)
  | read
  | close
  | get (host target : String)
  | nowNs
  | tryPush (ev : MarketEvent)
  | sleepMs

/-- What it is answered. -/
abbrev MdCall.Answer : MdCall → Type
  | .stopLoad => Bool
  | .connect _ _ => Bool
  | .read => WsFrame
  | .close => Unit
  | .get _ _ => Option String
  | .nowNs => Int64
  | .tryPush _ => Bool
  | .sleepMs => Unit

/-- A program of the thread. -/
abbrev MdProg := Prog MdCall MdCall.Answer

namespace Md

def stopLoad : MdProg Bool := Prog.perform MdCall.stopLoad

def connect (host target : String) : MdProg Bool := Prog.perform (MdCall.connect host target)

def read : MdProg WsFrame := Prog.perform MdCall.read

def close : MdProg Unit := Prog.perform MdCall.close

def get (host target : String) : MdProg (Option String) := Prog.perform (MdCall.get host target)

def nowNs : MdProg Int64 := Prog.perform MdCall.nowNs

def tryPush (ev : MarketEvent) : MdProg Bool := Prog.perform (MdCall.tryPush ev)

def sleepMs : MdProg Unit := Prog.perform MdCall.sleepMs

end Md

/-- The members that change. -/
structure MarketDataThread where
  recon : Reconstructor
  counters : MdCounters

namespace MarketDataThread
open Prog

def new : MarketDataThread := ⟨Reconstructor.fresh, ⟨0, 0, 0, 0, 0, 0, 0⟩⟩

inductive BootResult where
  | kLive
  | kSnapshotTooOld
  | kError
  | kStopped
  deriving DecidableEq, Repr

/-- The spin loop of `PushGroup`: push one event, false if stopped while the queue is
full. -/
def pushEvent (rounds : Nat) (ev : MarketEvent) (t : MarketDataThread) :
    MdProg (Bool × MarketDataThread) :=
  loop (fun t => do
    if ← Md.tryPush ev then pure (.inr (true, t))
    else
      let t := { t with counters := { t.counters with
        queueFullSpins := t.counters.queueFullSpins + 1 } }
      if ← Md.stopLoad then pure (.inr (false, t))
      else pure (.inl t)) rounds t

/-- The `for` loop of `PushGroup`. -/
def pushEvents (rounds : Nat) : List MarketEvent → MarketDataThread →
    MdProg (Bool × MarketDataThread)
  | [], t => pure (true, t)
  | ev :: evs, t => do
      let (ok, t) ← pushEvent rounds ev t
      if ok then pushEvents rounds evs t else pure (false, t)

/-- `PushGroup`. -/
def pushGroup (rounds : Nat) (group : List MarketEvent) (t : MarketDataThread) :
    MdProg (Bool × MarketDataThread) := do
  let (ok, t) ← pushEvents rounds group t
  if ok then
    pure (true, { t with counters := { t.counters with
      eventsEmitted := t.counters.eventsEmitted + group.length } })
  else pure (false, t)

/-- What came of reading a frame. -/
inductive Reading where
  | ended
  | ignored
  | group (scratch : List MarketEvent)

section Driver
variable (parser : String → Option Dom) (params : MarketDataParams) (rounds : Nat)

/-- The first half of both read loops: read a frame and parse it.  A frame that is not a
depth diff is ignored. -/
def readFrame : MdProg Reading := do
  let frame ← Md.read
  if frame.status ≠ .kOk then pure .ended
  else
    let now ← Md.nowNs
    match parseDepthDiff parser frame.payload params.filters now with
    | none => pure .ignored
    | some scratch => if scratch.isEmpty then pure .ignored else pure (.group scratch)

/-- The read loop of `Bootstrap`: drop frames until the bracket event.  `none` leaves the
loop without returning from `Bootstrap`. -/
def readBracket (t : MarketDataThread) : MdProg (Option BootResult × MarketDataThread) :=
  loop (fun t => do
    if ← Md.stopLoad then pure (.inr (none, t))
    else
      match ← readFrame parser params with
      | .ended => pure (.inr (some .kError, t))
      | .ignored => pure (.inl t)
      | .group scratch =>
          let (action, recon) := t.recon.onDiffGroup scratch
          let t := { t with recon := recon }
          match action with
          | .kDrop => pure (.inl t)
          | .kEmitAndGoLive => do
              let (ok, t) ← pushGroup rounds scratch t
              pure (.inr (some (if ok then .kLive else .kStopped), t))
          | .kSnapshotTooOld =>
              pure (.inr (none, { t with counters := { t.counters with
                snapshotTooOld := t.counters.snapshotTooOld + 1 } }))
          | .kEmit | .kGap | .kNeedSnapshot => pure (.inr (some .kError, t))) rounds t

/-- The attempts of `Bootstrap`. -/
def attempts : Nat → MarketDataThread → MdProg (BootResult × MarketDataThread)
  | 0, t => pure (.kSnapshotTooOld, t)
  | left + 1, t => do
      if ← Md.stopLoad then pure (.kStopped, t)
      else
        match ← Md.get params.restHost params.snapshotTarget with
        | none => pure (.kError, t)
        | some body =>
            match parseDepthSnapshot parser body params.filters with
            | none => pure (.kError, t)
            | some snap => do
                let now ← Md.nowNs
                let (recon, snapEvents) := t.recon.onSnapshot snap now
                let t : MarketDataThread := { recon := recon, counters := { t.counters with
                  snapshotsFetched := t.counters.snapshotsFetched + 1 } }
                let (ok, t) ← pushGroup rounds snapEvents t
                if !ok then pure (.kStopped, t)
                else
                  match ← readBracket parser params rounds t with
                  | (some result, t) => pure (result, t)
                  | (none, t) =>
                      if ← Md.stopLoad then pure (.kStopped, t)
                      else attempts left t

/-- `Bootstrap`. -/
def bootstrap (t : MarketDataThread) : MdProg (BootResult × MarketDataThread) :=
  attempts parser params rounds params.maxSnapshotRefetch.toNat t

/-- `RunLive`: true on a gap, false when the transport failed or the thread was stopped. -/
def runLive (t : MarketDataThread) : MdProg (Bool × MarketDataThread) :=
  loop (fun t => do
    if ← Md.stopLoad then pure (.inr (false, t))
    else
      match ← readFrame parser params with
      | .ended => pure (.inr (false, t))
      | .ignored => pure (.inl t)
      | .group scratch =>
          let (action, recon) := t.recon.onDiffGroup scratch
          let t := { t with recon := recon }
          match action with
          | .kEmit | .kEmitAndGoLive => do
              let (ok, t) ← pushGroup rounds scratch t
              pure (if ok then .inl t else .inr (false, t))
          | .kGap =>
              pure (.inr (true, { t with counters := { t.counters with
                gapsDetected := t.counters.gapsDetected + 1 } }))
          | .kDrop | .kNeedSnapshot | .kSnapshotTooOld => pure (.inl t)) rounds t

/-- `ws_.Close(); ++ws_reconnects; SleepMs(...)`. -/
def reconnect (t : MarketDataThread) : MdProg MarketDataThread := do
  Md.close
  Md.sleepMs
  pure { t with counters := { t.counters with wsReconnects := t.counters.wsReconnects + 1 } }

/-- The body of `Run` once connected: the loop state is `connected` and the members. -/
def connectedRound (t : MarketDataThread) :
    MdProg ((Bool × MarketDataThread) ⊕ MarketDataThread) := do
  match ← bootstrap parser params rounds t with
  | (.kStopped, t) => pure (.inr t)
  | (.kSnapshotTooOld, t) | (.kError, t) => do
      let t ← reconnect t
      pure (.inl (false, t))
  | (.kLive, t) => do
      let (gap, t) ← runLive parser params rounds t
      if ← Md.stopLoad then pure (.inr t)
      else if gap then
        pure (.inl (true, { recon := t.recon.reset, counters := { t.counters with
          resyncs := t.counters.resyncs + 1 } }))
      else do
        let t ← reconnect { t with recon := t.recon.reset }
        pure (.inl (false, t))

/-- The body of the loop of `Run`. -/
def round : Bool × MarketDataThread → MdProg ((Bool × MarketDataThread) ⊕ MarketDataThread)
  | (connected, t) => do
      if ← Md.stopLoad then pure (.inr t)
      else if connected then connectedRound parser params rounds t
      else if ← Md.connect params.wsHost params.wsTarget then
        connectedRound parser params rounds t
      else do
        Md.sleepMs
        pure (.inl (false, t))

/-- The loop of `Run`. -/
def runLoop (t : MarketDataThread) : MdProg MarketDataThread :=
  loop (round parser params rounds) rounds (false, t)

/-- `Run`. -/
def run (t : MarketDataThread) : MdProg MarketDataThread := do
  let t ← runLoop parser params rounds t
  Md.close
  pure t

end Driver

/-- The events a `try_push` call adds to the queue. -/
def pushed : (c : MdCall) → MdCall.Answer c → List MarketEvent
  | .tryPush ev, ok => if ok = true then [ev] else []
  | _, _ => []

end MarketDataThread
end Asmm
