import CryptoBook.Engine

/-! # Live equals replay

A `Session` is an engine with a log and a paper-mode strategy, together with the history
of the records it logged.  The engine's loop, the decision replay and the strategy replay
are three separately written loops over the same events.  `LockStep` says what they must
agree on after the same events; one event preserves it whatever the event is
(`LockStep.pop`), and nothing else the engine does touches it.  Since the log holds what
was logged, reading it back and replaying gives the logged records again. -/
namespace Asmm
open Runs

structure Session (F : Type) where
  engine : Engine F
  logged : List LogRecord

namespace Session
variable {F : Type} [Double F]

/-- A fresh engine with a new log and a paper-mode strategy. -/
def start (p : StrategyParams F) (staleThresholdMs : Int) (hasCrossChecks : Bool)
    (crosscheckLevels : Int) : Session F :=
  ⟨Engine.new staleThresholdMs hasCrossChecks crosscheckLevels (some EventLogWriter.create)
    (some (Strategy.new p false)), []⟩

/-- What the engine thread does. -/
inductive Op where
  | drain (events : List MarketEvent)
  | handleCrossChecks (msgs : List CrossCheckMsg)
  | checkStale (nowNs : Int)
  | flush
  | timedFlush (nowNs : Int)

def pop (s : Session F) (ev : MarketEvent) : Session F :=
  ⟨(s.engine.pop ev).1, s.logged ++ (s.engine.pop ev).2⟩

/-- `Engine::Drain`, on the events popped. -/
def drain (s : Session F) (events : List MarketEvent) : Session F := events.foldl pop s

def step (s : Session F) : Op → Session F
  | .drain events => s.drain events
  | .handleCrossChecks msgs => { s with engine := s.engine.handleCrossChecks msgs }
  | .checkStale nowNs => { s with engine := s.engine.checkStale nowNs }
  | .flush => { s with engine := s.engine.flush }
  | .timedFlush nowNs => { s with engine := s.engine.timedFlush nowNs }

/-- The events popped by an operation. -/
def Op.events : Op → List MarketEvent
  | .drain events => events
  | _ => []

/-- The log file once the writer is closed. -/
def closedLog (s : Session F) : Option (List UInt8) := s.engine.log.map fun w => w.close.file

/-! ## The log holds what was logged -/

/-- The log is open and holds the header and the logged records. -/
def Written (s : Session F) : Prop :=
  ∃ w, s.engine.log = some w ∧ w.isOpen = true ∧
    w.contents = LogHeader.layout.encode LogHeader.current ++ s.logged.flatMap LogRecord.encode

theorem contents_writeAll (w : EventLogWriter) (records : List LogRecord) :
    (records.foldl EventLogWriter.write w).contents
        = w.contents ++ records.flatMap LogRecord.encode ∧
      (records.foldl EventLogWriter.write w).isOpen = w.isOpen := by
  induction records generalizing w with
  | nil => exact ⟨(List.append_nil _).symm, rfl⟩
  | cons r records ih =>
    obtain ⟨hcontents, hopen⟩ := ih (w.write r)
    constructor
    · rw [List.foldl_cons, hcontents, EventLogWriter.contents_write, List.append_assoc,
        List.flatMap_cons]
    · rw [List.foldl_cons, hopen, EventLogWriter.isOpen_write]

theorem written_start (p : StrategyParams F) (staleThresholdMs : Int) (hasCrossChecks : Bool)
    (crosscheckLevels : Int) :
    Written (start p staleThresholdMs hasCrossChecks crosscheckLevels) :=
  ⟨_, rfl, EventLogWriter.isOpen_create,
    EventLogWriter.contents_create.trans (List.append_nil _).symm⟩

theorem Written.pop {s : Session F} (h : Written s) (ev : MarketEvent) : Written (s.pop ev) := by
  obtain ⟨w, hlog, hopen, hcontents⟩ := h
  obtain ⟨hall, hopen'⟩ := contents_writeAll w (s.engine.pop ev).2
  refine ⟨(s.engine.pop ev).2.foldl EventLogWriter.write w, ?_, hopen'.trans hopen, ?_⟩
  · rw [Session.pop, Engine.log_pop, hlog, Option.map_some]
  · rw [hall, hcontents, List.append_assoc, ← List.flatMap_append, Session.pop]

omit [Double F] in
theorem Written.flush {s : Session F} (h : Written s) :
    Written { s with engine := s.engine.flush } := by
  obtain ⟨w, hlog, hopen, hcontents⟩ := h
  refine ⟨w.flush, ?_, ?_, ?_⟩
  · show s.engine.log.map _ = _
    rw [hlog]
    rfl
  · rw [EventLogWriter.isOpen_flush, hopen]
  · rw [EventLogWriter.contents_flush, hcontents]

/-! ## The three loops in lock step -/

/-- What the engine, the decision replay and the strategy replay agree on. -/
structure LockStep (s : Session F) (d : DecisionReplay) (l : StrategyLoop F) : Prop where
  book : s.engine.book = d.book
  verifier : s.engine.verifier = d.verifier
  bookLive : s.engine.bookLive = d.bookLive
  decisions : s.logged.filterMap LogRecord.decision? = d.out
  book_loop : s.engine.book = l.book
  bookLive_loop : s.engine.bookLive = l.bookLive
  strat : s.engine.strat = some l.strat
  quotes : s.logged.filterMap LogRecord.quote? = l.out.quotes
  fills : s.logged.filterMap LogRecord.fill? = l.out.fills

theorem lockStep_start (p : StrategyParams F) (staleThresholdMs : Int) (hasCrossChecks : Bool)
    (crosscheckLevels : Int) :
    LockStep (start p staleThresholdMs hasCrossChecks crosscheckLevels) DecisionReplay.init
      (StrategyLoop.init p) :=
  ⟨rfl, rfl, rfl, rfl, rfl, rfl, rfl, rfl, rfl⟩

omit [Double F] in
/-- Up to the tick, the engine and the strategy replay do the same to what they share. -/
theorem absorb_loop {e : Engine F} {l : StrategyLoop F} (hbook : e.book = l.book)
    (hlive : e.bookLive = l.bookLive) (hstrat : e.strat = some l.strat) (ev : MarketEvent) :
    (e.absorb ev).1.book = (l.absorb ev).book ∧
    (e.absorb ev).1.bookLive = (l.absorb ev).bookLive ∧
    (e.absorb ev).1.strat = some (l.absorb ev).strat ∧
    (l.absorb ev).out.quotes = l.out.quotes ∧ (l.absorb ev).out.fills = l.out.fills := by
  unfold Engine.absorb StrategyLoop.absorb
  cases ev.startsSnapshot with
  | false => exact ⟨by rw [← hbook]; rfl, by rw [← hlive]; rfl, hstrat, rfl, rfl⟩
  | true => exact ⟨by rw [← hbook]; rfl, rfl, by rw [show e.strat = _ from hstrat]; rfl, rfl, rfl⟩

omit [Double F] in
/-- The decision replay does the same, and decides as the engine then does. -/
theorem absorb_decision {e : Engine F} {d : DecisionReplay} (hbook : e.book = d.book)
    (hverifier : e.verifier = d.verifier) (hlive : e.bookLive = d.bookLive) (ev : MarketEvent) :
    (e.absorb ev).1.book = (d.step ev).book ∧
    (e.absorb ev).1.verifier = (d.step ev).verifier ∧
    (e.absorb ev).1.bookLive = (d.step ev).bookLive ∧
    (d.step ev).out = d.out ++ [makeDecision (e.absorb ev).1.book ev.finalUpdateId
      (e.absorb ev).1.bookLive (!(e.absorb ev).2)] := by
  unfold Engine.absorb DecisionReplay.step
  rw [hbook, hverifier, hlive]
  cases ev.startsSnapshot with
  | false => exact ⟨rfl, rfl, rfl, rfl⟩
  | true => exact ⟨rfl, rfl, rfl, rfl⟩

/-- The tick logs what the replay collects, and touches neither book nor verifier. -/
theorem tick_loop {e : Engine F} {l : StrategyLoop F} (hbook : e.book = l.book)
    (hlive : e.bookLive = l.bookLive) (hstrat : e.strat = some l.strat) (ev : MarketEvent) :
    let l' := if l.bookLive = true ∧ (!ev.continues) = true then l.tick ev else l
    ((e.tick ev).1.book = e.book ∧ (e.tick ev).1.verifier = e.verifier ∧
      (e.tick ev).1.bookLive = e.bookLive) ∧
    (l'.book = l.book ∧ l'.bookLive = l.bookLive ∧ (e.tick ev).1.strat = some l'.strat) ∧
    l'.out.quotes = l.out.quotes ++ (e.tick ev).2.filterMap LogRecord.quote? ∧
    l'.out.fills = l.out.fills ++ (e.tick ev).2.filterMap LogRecord.fill? ∧
    (e.tick ev).2.filterMap LogRecord.decision? = [] ∧
    (e.tick ev).2.filterMap LogRecord.marketEvent? = [] := by
  unfold Engine.tick
  rw [hstrat, hlive, hbook]
  dsimp only
  by_cases hticks : l.bookLive = true ∧ (!ev.continues) = true
  · rw [if_pos hticks, if_pos hticks]
    unfold StrategyLoop.tick
    generalize l.strat.onEvent l.book ev = r
    obtain ⟨strat, hasQuote, quote, fills⟩ := r
    have hfills : (fills.map LogRecord.fill).filterMap LogRecord.fill? = fills := by
      rw [List.filterMap_map]
      exact List.filterMap_some
    have hnone : ∀ {β : Type} (pick : LogRecord → Option β), (∀ f, pick (.fill f) = none) →
        (fills.map LogRecord.fill).filterMap pick = [] := by
      intro β pick hpick
      rw [List.filterMap_map]
      exact List.filterMap_eq_nil_iff.mpr fun f _ => hpick f
    have hq := hnone LogRecord.quote? fun _ => rfl
    have hd := hnone LogRecord.decision? fun _ => rfl
    have hm := hnone LogRecord.marketEvent? fun _ => rfl
    cases hasQuote with
    | false =>
      refine ⟨⟨rfl, rfl, rfl⟩, ⟨rfl, rfl, rfl⟩, ?_, ?_, hd, hm⟩
      · simp [StrategyLoop.addFills, hq]
      · simp [StrategyLoop.addFills, hfills]
    | true =>
      refine ⟨⟨rfl, rfl, rfl⟩, ⟨rfl, rfl, rfl⟩, ?_, ?_, hd, hm⟩
      · simp [StrategyLoop.addFills, StrategyLoop.addQuote, hq, LogRecord.quote?]
      · exact congrArg (l.out.fills ++ ·) hfills.symm
  · rw [if_neg hticks, if_neg hticks]
    exact ⟨⟨hbook, rfl, hlive⟩, ⟨rfl, rfl, hstrat⟩, (List.append_nil _).symm,
      (List.append_nil _).symm, rfl, rfl⟩

/-- **One event keeps the three loops in lock step**, and is the one market event that is
logged. -/
theorem LockStep.pop {s : Session F} {d : DecisionReplay} {l : StrategyLoop F}
    (h : LockStep s d l) (ev : MarketEvent) :
    LockStep (s.pop ev) (d.step ev) (l.step ev) ∧
    (s.pop ev).logged.filterMap LogRecord.marketEvent? =
      s.logged.filterMap LogRecord.marketEvent? ++ [ev] := by
  obtain ⟨hbook, hverifier, hlive, hout⟩ :=
    absorb_decision h.book h.verifier h.bookLive ev
  obtain ⟨hbookl, hlivel, hstratl, hquotesl, hfillsl⟩ :=
    absorb_loop h.book_loop h.bookLive_loop h.strat ev
  obtain ⟨⟨htbook, htverifier, htlive⟩, ⟨hlbook, hllive, htstrat⟩, hquotes, hfills, hd, hm⟩ :=
    tick_loop hbookl hlivel hstratl ev
  have hlogged : (s.pop ev).logged = s.logged ++ .marketEvent ev :: .decision
      (makeDecision (s.engine.absorb ev).1.book ev.finalUpdateId (s.engine.absorb ev).1.bookLive
        (!(s.engine.absorb ev).2)) :: ((s.engine.absorb ev).1.tick ev).2 := rfl
  refine ⟨⟨htbook.trans hbook, htverifier.trans hverifier, htlive.trans hlive, ?_,
    htbook.trans (hbookl.trans hlbook.symm), htlive.trans (hlivel.trans hllive.symm), htstrat,
    ?_, ?_⟩, ?_⟩
  · rw [hlogged, List.filterMap_append, h.decisions, hout]
    exact congrArg (fun rest => d.out ++ _ :: rest) hd
  · rw [hlogged, List.filterMap_append, h.quotes, ← hquotesl]
    exact hquotes.symm
  · rw [hlogged, List.filterMap_append, h.fills, ← hfillsl]
    exact hfills.symm
  · rw [hlogged, List.filterMap_append]
    exact congrArg (fun rest => _ ++ ev :: rest) hm

/-! ## Whole runs -/

/-- What holds after the engine popped `events`. -/
structure Synced (p : StrategyParams F) (events : List MarketEvent) (s : Session F) : Prop where
  written : Written s
  lockStep : LockStep s (events.foldl DecisionReplay.step DecisionReplay.init)
    (events.foldl StrategyLoop.step (StrategyLoop.init p))
  popped : s.logged.filterMap LogRecord.marketEvent? = events

theorem Synced.pop {p : StrategyParams F} {events : List MarketEvent} {s : Session F}
    (h : Synced p events s) (ev : MarketEvent) : Synced p (events ++ [ev]) (s.pop ev) := by
  obtain ⟨hlock, hpopped⟩ := h.lockStep.pop ev
  refine ⟨h.written.pop ev, ?_, ?_⟩
  · rw [List.foldl_append, List.foldl_append]
    exact hlock
  · rw [hpopped, h.popped]

theorem Synced.drain {p : StrategyParams F} {events : List MarketEvent} {s : Session F}
    (h : Synced p events s) (batch : List MarketEvent) :
    Synced p (events ++ batch) (s.drain batch) :=
  run_recorded (fun _ _ ev h => h.pop ev) h batch

/-- What the records depend on is the same in both engines. -/
structure Frame (e e' : Engine F) : Prop where
  log : e'.log = e.log
  book : e'.book = e.book
  verifier : e'.verifier = e.verifier
  bookLive : e'.bookLive = e.bookLive
  strat : e'.strat = e.strat

theorem Synced.frame {p : StrategyParams F} {events : List MarketEvent} {s : Session F}
    (h : Synced p events s) {e : Engine F} (hf : Frame s.engine e) :
    Synced p events { s with engine := e } := by
  obtain ⟨⟨w, hw, hopen, hcontents⟩, hlock, hpopped⟩ := h
  refine ⟨⟨w, hf.log.trans hw, hopen, hcontents⟩, ?_, hpopped⟩
  exact ⟨hf.book.trans hlock.book, hf.verifier.trans hlock.verifier,
    hf.bookLive.trans hlock.bookLive, hlock.decisions, hf.book.trans hlock.book_loop,
    hf.bookLive.trans hlock.bookLive_loop, hf.strat.trans hlock.strat, hlock.quotes, hlock.fills⟩

omit [Double F] in
/-- A cross-check only reads what the records depend on. -/
theorem handleCrossChecks_frame (e : Engine F) (msgs : List CrossCheckMsg) :
    Frame e (e.handleCrossChecks msgs) := by
  have general : ∀ (msgs : List CrossCheckMsg) (e' : Engine F), Frame e e' →
      Frame e (msgs.foldl Engine.handleCrossCheck e') := by
    intro msgs
    induction msgs with
    | nil => exact fun e' h => h
    | cons msg msgs ih =>
      exact fun e' h => ih _ ⟨h.log, h.book, h.verifier, h.bookLive, h.strat⟩
  unfold Engine.handleCrossChecks
  split
  · exact general msgs e ⟨rfl, rfl, rfl, rfl, rfl⟩
  · exact ⟨rfl, rfl, rfl, rfl, rfl⟩

omit [Double F] in
theorem checkStale_frame (e : Engine F) (nowNs : Int) : Frame e (e.checkStale nowNs) := by
  unfold Engine.checkStale
  split
  · split
    · split <;> exact ⟨rfl, rfl, rfl, rfl, rfl⟩
    · exact ⟨rfl, rfl, rfl, rfl, rfl⟩
  · exact ⟨rfl, rfl, rfl, rfl, rfl⟩

theorem Synced.flush {p : StrategyParams F} {events : List MarketEvent} {s : Session F}
    (h : Synced p events s) : Synced p events { s with engine := s.engine.flush } :=
  ⟨h.written.flush, ⟨h.lockStep.book, h.lockStep.verifier, h.lockStep.bookLive,
    h.lockStep.decisions, h.lockStep.book_loop, h.lockStep.bookLive_loop, h.lockStep.strat,
    h.lockStep.quotes, h.lockStep.fills⟩, h.popped⟩

theorem Synced.timedFlush {p : StrategyParams F} {events : List MarketEvent} {s : Session F}
    (h : Synced p events s) (nowNs : Int) :
    Synced p events { s with engine := s.engine.timedFlush nowNs } := by
  unfold Engine.timedFlush
  split
  · exact h.flush.frame ⟨rfl, rfl, rfl, rfl, rfl⟩
  · exact h

theorem Synced.step {p : StrategyParams F} {events : List MarketEvent} {s : Session F}
    (h : Synced p events s) (op : Op) : Synced p (events ++ op.events) (s.step op) := by
  have hnone : events ++ [] = events := List.append_nil events
  cases op with
  | drain batch => exact h.drain batch
  | handleCrossChecks msgs => exact hnone.symm ▸ h.frame (handleCrossChecks_frame s.engine msgs)
  | checkStale nowNs => exact hnone.symm ▸ h.frame (checkStale_frame s.engine nowNs)
  | flush => exact hnone.symm ▸ h.flush
  | timedFlush nowNs => exact hnone.symm ▸ h.timedFlush nowNs

/-- A run of operations pops the events of all of them. -/
theorem Synced.runOps {p : StrategyParams F} {events : List MarketEvent} {s : Session F}
    (h : Synced p events s) (ops : List Op) :
    Synced p (events ++ ops.flatMap Op.events) (run Session.step s ops) :=
  run_traced Op.events (fun _ _ op h => h.step op) h ops

/-- **Live equals replay, through the log file.**  Whatever the engine pops, however the
pops are split into `Drain` calls and interleaved with cross-checks, stale checks and
flushes: the closed log file holds the records that were logged, `ReplayLogFile` returns
exactly the logged decisions, and `ReplayStrategyFile` with the engine's parameters
returns exactly the logged quotes and fills. -/
theorem live_equals_replay (p : StrategyParams F) (staleThresholdMs : Int)
    (hasCrossChecks : Bool) (crosscheckLevels : Int) (path : String) (ops : List Op) :
    let s := run step (start p staleThresholdMs hasCrossChecks crosscheckLevels) ops
    s.logged.filterMap LogRecord.marketEvent? = ops.flatMap Op.events ∧
    (EventLogReader.openLog path s.closedLog).map EventLogReader.rawRecords =
      .ok (s.logged.map fun r => (r.type, r.payload)) ∧
    replayLogFile path s.closedLog = .ok (s.logged.filterMap LogRecord.decision?) ∧
    (replayStrategyFile path s.closedLog p).map (fun r => (r.quotes, r.fills)) =
      .ok (s.logged.filterMap LogRecord.quote?, s.logged.filterMap LogRecord.fill?) := by
  intro s
  have hsync : Synced p (ops.flatMap Op.events) s :=
    Synced.runOps ⟨written_start p _ _ _, lockStep_start p _ _ _, rfl⟩ ops
  obtain ⟨w, hlog, hopen, hcontents⟩ := hsync.written
  have hclosed : s.closedLog = some (LogHeader.layout.encode LogHeader.current ++
      s.logged.flatMap LogRecord.encode) := by
    rw [closedLog, hlog, Option.map_some, EventLogWriter.file_close hopen, hcontents]
  have hread : readLogEvents path s.closedLog = .ok (ops.flatMap Op.events) := by
    rw [hclosed, readLogEvents_written, hsync.popped]
  refine ⟨hsync.popped, ?_, ?_, ?_⟩
  · rw [hclosed, EventLogReader.openLog_header]
    exact congrArg Except.ok (EventLogReader.rawRecords_encode s.logged)
  · rw [replayLogFile, hread, hsync.lockStep.decisions]
    rfl
  · rw [replayStrategyFile, hread, hsync.lockStep.quotes, hsync.lockStep.fills]
    rfl

end Session
end Asmm
