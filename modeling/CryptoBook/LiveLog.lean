import CryptoBook.LiveRun

/-! # The log of a live run

The log that `RunLive` closes at the end is what `--replay` is given later.  The engine thread
keeps in step with a `Session` at every turn, so what was proved of sessions holds of the
thread itself: the log reads back as what was logged, and both replays of it give what the
live run decided.  Since the market-data thread pushes feeds only, no decision of the log
reports a gap. -/
namespace Asmm

/-! ## Decisions along accepted events -/

namespace DecisionReplay

/-- So far, no gap and one decision for each event. -/
structure Clean (n : Nat) (s : DecisionReplay) : Prop where
  noGap : ∀ d ∈ s.out, d.hadGap = 0
  length : s.out.length = n

theorem Clean.step {n : Nat} {s : DecisionReplay} (h : Clean n s) {ev : MarketEvent}
    (hok : (s.verifier.check ev).2 = true) : Clean (n + 1) (s.step ev) := by
  refine ⟨fun d hd => ?_, ?_⟩ <;> unfold DecisionReplay.step at *
  · rcases List.mem_append.mp hd with hd | hd
    · exact h.noGap d hd
    · rw [List.mem_singleton.mp hd, hok]
      rfl
  · rw [List.length_append, h.length]
    rfl

theorem Clean.run {n : Nat} {s : DecisionReplay} (h : Clean n s) {events : List MarketEvent}
    (haccepts : s.verifier.Accepts events) :
    Clean (n + events.length) (events.foldl DecisionReplay.step s) := by
  induction events generalizing n s with
  | nil => exact h
  | cons ev events ih =>
    obtain ⟨hok, hrest⟩ := haccepts
    have hrun := ih (h.step hok) hrest
    rwa [Nat.add_assoc, Nat.add_comm 1] at hrun

end DecisionReplay

/-! ## The engine thread keeps a session -/

namespace EngineThread
variable {F : Type} [Double F]

/-- A session that popped the events taken has this engine. -/
def Logs (p : StrategyParams F) (h : List Taken) (e : Engine F) : Prop :=
  ∃ s : Session F, s.engine = e ∧ Session.Synced p (eventsOf h) s

theorem logs_maintained (p : StrategyParams F) : Maintained (Logs p) where
  pop := by
    rintro h _ ev ⟨s, rfl, hs⟩
    refine ⟨s.pop ev, rfl, ?_⟩
    have hevents : eventsOf (h ++ [.inl ev]) = eventsOf h ++ [ev] := List.filterMap_append ..
    rw [hevents]
    exact hs.pop ev
  check := by
    rintro h _ msg hhas ⟨s, rfl, hs⟩
    have hevents : eventsOf (h ++ [.inr msg]) = eventsOf h :=
      (List.filterMap_append ..).trans (List.append_nil _)
    have hframe := Session.handleCrossChecks_frame s.engine [msg]
    rw [Engine.handleCrossChecks, if_pos hhas] at hframe
    refine ⟨{ s with engine := s.engine.handleCrossCheck msg }, rfl, ?_⟩
    rw [hevents]
    exact hs.frame hframe
  stale := by
    rintro h _ nowNs ⟨s, rfl, hs⟩
    exact ⟨_, rfl, hs.frame (Session.checkStale_frame s.engine nowNs)⟩
  timedFlush := by
    rintro h _ nowNs ⟨s, rfl, hs⟩
    exact ⟨_, rfl, hs.timedFlush nowNs⟩
  flush := by
    rintro h _ ⟨s, rfl, hs⟩
    exact ⟨_, rfl, hs.flush⟩

end EngineThread

namespace LiveRun
variable {F : Type} [Double F] {parser : String → Option Dom} {cfg : AppConfig F}

/-- What `log->Close()` leaves on disk. -/
def closedLog {doLog : Bool} (r : LiveRun F parser cfg doLog) : Option (List UInt8) :=
  r.engine.result.log.map fun w => w.close.file

/-- The engine at the end is that of a session, and the log is that of its records. -/
theorem synced (r : LiveRun F parser cfg true) (hstrat : cfg.strategyEnabled = true) :
    ∃ s : Session F, Session.Synced cfg.strategy (EngineThread.eventsOf r.taken) s ∧
      r.closedLog = some (LogHeader.layout.encode LogHeader.current ++
        s.logged.flatMap LogRecord.encode) := by
  have hlogs : EngineThread.Logs cfg.strategy r.taken r.engine.result := by
    refine EngineThread.run_maintains (EngineThread.logs_maintained cfg.strategy) ?_
      r.engine.answers r.engine.returns
    refine ⟨Session.start cfg.strategy cfg.marketData.staleThresholdMs true
      cfg.marketData.crosscheckLevels, ?_, Session.written_start .., Session.lockStep_start ..,
      rfl⟩
    rw [Main.startEngine, if_pos rfl, if_pos hstrat]
    rfl
  obtain ⟨s, hengine, hs⟩ := hlogs
  obtain ⟨w, hlog, hopen, hcontents⟩ := hs.written
  refine ⟨s, hs, ?_⟩
  rw [closedLog, ← hengine, hlog, Option.map_some, EventLogWriter.file_close hopen, hcontents]

/-- **The log of a live run replays.**  For every run with a log and a strategy, whatever the
network did: the log holds a sequence of records whose market events are the first of those
pushed; replaying it gives the decisions, the quotes and the fills that were logged live, one
decision for each event applied, and none of them reports a gap. -/
theorem live_log_replays (r : LiveRun F parser cfg true) (hstrat : cfg.strategyEnabled = true)
    (path : String) :
    ∃ logged : List LogRecord,
      (EventLogReader.openLog path r.closedLog).map EventLogReader.rawRecords =
        .ok (logged.map fun rec => (rec.type, rec.payload)) ∧
      logged.filterMap LogRecord.marketEvent? <+: r.emitted ∧
      replayLogFile path r.closedLog = .ok (logged.filterMap LogRecord.decision?) ∧
      (logged.filterMap LogRecord.decision?).length = r.engine.result.counters.eventsApplied ∧
      (∀ d ∈ logged.filterMap LogRecord.decision?, d.hadGap = 0) ∧
      (replayStrategyFile path r.closedLog cfg.strategy).map (fun s => (s.quotes, s.fills)) =
        .ok (logged.filterMap LogRecord.quote?, logged.filterMap LogRecord.fill?) := by
  obtain ⟨s, hs, hclosed⟩ := r.synced hstrat
  have hread : readLogEvents path r.closedLog = .ok (EngineThread.eventsOf r.taken) := by
    rw [hclosed, readLogEvents_written, hs.popped]
  have hclean : DecisionReplay.Clean (EngineThread.eventsOf r.taken).length
      ((EngineThread.eventsOf r.taken).foldl DecisionReplay.step DecisionReplay.init) := by
    have hfeed : Feed (fun _ _ => True) (fun _ _ _ => True) (EngineThread.eventsOf r.taken)
        .idle := r.taken_feed fun i c => by cases c <;> simp [MarketDataThread.Delivers]
    have hrun := DecisionReplay.Clean.run (n := 0) (s := DecisionReplay.init)
      ⟨by rintro _ ⟨⟩, rfl⟩ (GapVerifier.accepts_feed hfeed).1
    rwa [Nat.zero_add] at hrun
  obtain ⟨left, hemitted, -⟩ := r.emitted_eq
  refine ⟨s.logged, ?_, ?_, ?_, ?_, ?_, ?_⟩
  · rw [hclosed, EventLogReader.openLog_header]
    exact congrArg Except.ok (EventLogReader.rawRecords_encode s.logged)
  · rw [hs.popped]
    exact ⟨left, hemitted.symm⟩
  · rw [replayLogFile, hread, hs.lockStep.decisions]
    rfl
  · rw [hs.lockStep.decisions, hclean.length, r.account.applied]
  · rw [hs.lockStep.decisions]
    exact hclean.noGap
  · rw [replayStrategyFile, hread, hs.lockStep.quotes, hs.lockStep.fills]
    rfl

/-- With a log the clock is read once more before the stop flag is set. -/
def tinyLogEngine (i : Nat) : (c : EngineCall) → c.Answer
  | .stopLoad => Nat.ble 8 i
  | c => tinyEngine i c

/-- The tiny run, with a strategy and a log. -/
def tinyLogged : LiveRun Strategy.Whole Pipeline.tinyParser
    { tinyConfig with strategyEnabled := true } true where
  rounds := 4
  md := .of tinyMd 13 (by rfl)
  engine := .of tinyLogEngine 10 (by rfl)
  check := .of tinyCheck 8 (by rfl)
  queue := inTurn tinyPushed
  checkQueue := inTurn tinyFetched
  pushed := by decide +kernel
  popped := by decide +kernel
  checkPushed := tinyRun.checkPushed
  checkPopped := tinyRun.checkPopped

theorem live_log_replays_tiny : ∃ decisions,
    replayLogFile "" tinyLogged.closedLog = .ok decisions ∧
      decisions.length = tinyLogged.engine.result.counters.eventsApplied := by
  obtain ⟨logged, -, -, hreplay, hlength, -⟩ := tinyLogged.live_log_replays rfl ""
  exact ⟨_, hreplay, hlength⟩

end LiveRun
end Asmm
