import CryptoBook.Replay

/-! # Replay starts afresh at a snapshot

`ReplayEvents` carries a book and a verifier from event to event.  At the first fragment of a
snapshot it clears the book, but the verifier keeps part of its state: the counters, and
`prev_u_` if the snapshot goes on in another fragment.  Neither shows in a decision.  The
counters are not read, and `prev_u_` is set again before the next check that compares it
(`Resembles`).

So a log may be cut at any snapshot: the decisions of the whole are those of the part before
it and those of the part that starts with it (`log_splits_at_snapshot`), and a decision depends on
nothing before the last snapshot. -/
namespace Asmm

namespace GapVerifier

/-- The two give the same answers from here on. -/
structure Resembles (v v' : GapVerifier) : Prop where
  haveSnapshot : v.haveSnapshot = v'.haveSnapshot
  live : v.live = v'.live
  snapshotLastId : v.snapshotLastId = v'.snapshotLastId
  prevContinuation : v.prevContinuation = v'.prevContinuation
  prevU : v.prevContinuation = false → v.prevU = v'.prevU

variable {v v' : GapVerifier}

theorem Resembles.verdict_eq (h : Resembles v v') (ev : MarketEvent) :
    v.verdict ev = v'.verdict ev := by
  unfold verdict
  rw [← h.haveSnapshot, ← h.live, ← h.snapshotLastId, ← h.prevContinuation]
  cases hcont : v.prevContinuation with
  | true => rfl
  | false => rw [h.prevU hcont]

/-- What `Check` does to `prev_u_` and `prev_continuation_` is the same for every event. -/
theorem check_tail (v : GapVerifier) (ev : MarketEvent) :
    (v.check ev).1.prevContinuation = ev.continues ∧
      (ev.continues = false → (v.check ev).1.prevU = ev.finalUpdateId) := by
  unfold check
  dsimp only
  split
  · exact ⟨rfl, fun hcont => if_neg (by rw [hcont]; decide)⟩
  · exact ⟨rfl, fun hcont => if_neg (by rw [hcont]; decide)⟩

theorem resembles_of_check {ev : MarketEvent}
    (hhave : (v.check ev).1.haveSnapshot = (v'.check ev).1.haveSnapshot)
    (hlive : (v.check ev).1.live = (v'.check ev).1.live)
    (hlast : (v.check ev).1.snapshotLastId = (v'.check ev).1.snapshotLastId) :
    Resembles (v.check ev).1 (v'.check ev).1 := by
  obtain ⟨hcont, hu⟩ := v.check_tail ev
  obtain ⟨hcont', hu'⟩ := v'.check_tail ev
  refine ⟨hhave, hlive, hlast, hcont.trans hcont'.symm, fun hwhole => ?_⟩
  rw [hcont] at hwhole
  rw [hu hwhole, hu' hwhole]

/-- Verifiers that resemble each other answer alike and go on resembling each other. -/
theorem Resembles.check (h : Resembles v v') (ev : MarketEvent) :
    (v.check ev).2 = (v'.check ev).2 ∧ Resembles (v.check ev).1 (v'.check ev).1 := by
  have hverdict := h.verdict_eq ev
  have hverdict' : verdict { v with eventsChecked := v.eventsChecked + 1 } ev =
      verdict { v' with eventsChecked := v'.eventsChecked + 1 } ev := hverdict
  constructor
  · unfold GapVerifier.check
    dsimp only
    rw [hverdict']
    split <;> rfl
  · refine resembles_of_check ?_ ?_ ?_ <;> unfold GapVerifier.check <;> dsimp only <;>
      rw [hverdict'] <;> split
    · split
      · rfl
      · exact h.haveSnapshot
    · exact h.haveSnapshot
    · split
      · rfl
      · exact h.live
    · rfl
    · split
      · rfl
      · exact h.snapshotLastId
    · exact h.snapshotLastId

/-- At the start of a snapshot any two verifiers come together. -/
theorem resembles_start (v v' : GapVerifier) {ev : MarketEvent} (hkind : ev.kind = .kSnapshot)
    (hstarts : ev.startsSnapshot = true) :
    (v.check ev).2 = (v'.check ev).2 ∧ Resembles (v.check ev).1 (v'.check ev).1 := by
  constructor
  · unfold GapVerifier.check
    dsimp only
    rw [if_pos hkind, if_pos hkind]
  · refine resembles_of_check ?_ ?_ ?_ <;> unfold GapVerifier.check <;> dsimp only <;>
      rw [if_pos hkind, if_pos hkind, if_pos hstarts, if_pos hstarts]

end GapVerifier

namespace DecisionReplay

/-- Two replays that will decide alike; `before` is what one of them has decided more. -/
structure Continues (before : List DecisionRecord) (s s' : DecisionReplay) : Prop where
  book : s.book = s'.book
  verifier : s.verifier.Resembles s'.verifier
  bookLive : s.bookLive = s'.bookLive
  out : s.out = before ++ s'.out

theorem Continues.step {before : List DecisionRecord} {s s' : DecisionReplay}
    (h : Continues before s s') (ev : MarketEvent) :
    Continues before (s.step ev) (s'.step ev) := by
  obtain ⟨hok, hverifier⟩ := h.verifier.check ev
  refine ⟨?_, hverifier, ?_, ?_⟩ <;> unfold DecisionReplay.step <;> dsimp only
  · rw [h.book]
  · rw [h.bookLive]
  · rw [h.book, h.bookLive, h.out, hok, List.append_assoc]

/-- The first fragment of a snapshot wipes out where a replay comes from. -/
theorem continues_start (s s' : DecisionReplay) {ev : MarketEvent} (hkind : ev.kind = .kSnapshot)
    (hstarts : ev.startsSnapshot = true) (hempty : s'.out = []) :
    Continues s.out (s.step ev) (s'.step ev) := by
  obtain ⟨hok, hverifier⟩ := GapVerifier.resembles_start s.verifier s'.verifier hkind hstarts
  refine ⟨?_, hverifier, ?_, ?_⟩ <;> unfold DecisionReplay.step <;> dsimp only <;>
    simp only [if_pos hstarts]
  · rfl
  · rw [hok, hempty]
    rfl

end DecisionReplay

/-- Events that begin with a snapshot, or none at all. -/
def BeginsAfresh (events : List MarketEvent) : Prop :=
  ∀ ev ∈ events.head?, ev.kind = .kSnapshot ∧ ev.startsSnapshot = true

/-- **The decisions of a part that begins with a snapshot** do not depend on what was before. -/
theorem replayEvents_append {xs ys : List MarketEvent} (hys : BeginsAfresh ys) :
    replayEvents (xs ++ ys) = replayEvents xs ++ replayEvents ys := by
  cases ys with
  | nil => simp [replayEvents, DecisionReplay.init]
  | cons ev ys =>
    obtain ⟨hkind, hstarts⟩ := hys ev rfl
    have hstart := DecisionReplay.continues_start
      (xs.foldl DecisionReplay.step DecisionReplay.init) DecisionReplay.init hkind hstarts rfl
    have hrun : ∀ {s s' : DecisionReplay} {before : List DecisionRecord},
        DecisionReplay.Continues before s s' → DecisionReplay.Continues before
          (ys.foldl DecisionReplay.step s) (ys.foldl DecisionReplay.step s') := by
      clear hys hstart
      induction ys with
      | nil => exact fun h => h
      | cons ev ys ih => exact fun h => ih (h.step ev)
    have hend := (hrun hstart).out
    rw [replayEvents, List.foldl_append, List.foldl_cons]
    exact hend

/-- **A log may be split at a snapshot.**  Let `a` and `b` be any records, of all kinds, the
first market event of `b` starting a snapshot.  Replaying the log that holds both gives the
decisions of a log of `a` followed by those of a log of `b`. -/
theorem log_splits_at_snapshot (path : String) (a b : List LogRecord)
    (hb : BeginsAfresh (b.filterMap LogRecord.marketEvent?)) :
    let log := fun records : List LogRecord =>
      some (LogHeader.layout.encode LogHeader.current ++ records.flatMap LogRecord.encode)
    replayLogFile path (log (a ++ b)) = do
      let before ← replayLogFile path (log a)
      let after ← replayLogFile path (log b)
      return before ++ after := by
  intro log
  have hlog : ∀ records, replayLogFile path (log records) =
      .ok (replayEvents (records.filterMap LogRecord.marketEvent?)) := by
    intro records
    rw [replayLogFile, readLogEvents_written]
    rfl
  rw [hlog, hlog, hlog, List.filterMap_append, replayEvents_append hb]
  rfl

/-- An event with one bid and one id.  Only the first of its levels counts. -/
def oneBid (kind : EventKind) (flags : UInt8) (id : UInt64) (px : Int64) : MarketEvent :=
  { MarketEvent.zero with
    kind := kind, flags := flags, firstUpdateId := id, finalUpdateId := id, numBids := 1
    levels := Vector.replicate _ ⟨px, 1⟩ }

/-- A snapshot of a bid and a diff that adds a better one. -/
def bidThenBetter (id : UInt64) (px : Int64) : List LogRecord :=
  [.marketEvent (oneBid .kSnapshot kFlagSnapshotStart id px),
    .marketEvent (oneBid .kDepthDiff 0 (id + 1) (px + 1))]

/-- The second snapshot finds two bids and a verifier in the middle of a stream.  Nothing of
them is left in the decisions behind it. -/
theorem log_splits_at_snapshot_again :
    let log := fun records : List LogRecord =>
      some (LogHeader.layout.encode LogHeader.current ++ records.flatMap LogRecord.encode)
    let a := bidThenBetter 1 7
    let b := bidThenBetter 5 4
    (replayLogFile "" (log (a ++ b)) = do
      let before ← replayLogFile "" (log a)
      let after ← replayLogFile "" (log b)
      return before ++ after) ∧
    (replayEvents ((a ++ b).filterMap LogRecord.marketEvent?)).map
      (fun d => (d.bestBidPx, d.numBids, d.hadGap)) =
        [(7, 1, 0), (8, 2, 0), (4, 1, 0), (5, 2, 0)] := by
  intro log a b
  refine ⟨log_splits_at_snapshot "" a b ?_, by decide +kernel⟩
  rintro ev ⟨⟩
  exact ⟨rfl, rfl⟩

end Asmm
