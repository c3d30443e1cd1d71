import CryptoBook.Engine
import CryptoBook.Interaction

/-! # The engine thread

`Engine::Run` with the loops of `Drain` and `HandleCrossChecks` in it, as a program that asks
its surroundings for the stop flag, for the next element of either queue and for the time.

A `Session` describes an engine by the operations it carried out, in any order.  Here the
order is that of the source, and what the engine takes is one history of both queues.  A
relation between that history and the engine which each of the five things the thread does
keeps holds when `Run` returns (`run_maintains`). -/
namespace Asmm
open Interaction

/-- What the engine thread calls. -/
inductive EngineCall where
  | stopLoad
  | tryPop
  | tryPopCheck
  | nowNs
  | sleepUs

/-- What it is answered. -/
abbrev EngineCall.Answer : EngineCall → Type
  | .stopLoad => Bool
  | .tryPop => Option MarketEvent
  | .tryPopCheck => Option CrossCheckMsg
  | .nowNs => Int64
  | .sleepUs => Unit

abbrev EngineProg := Prog EngineCall EngineCall.Answer

/-- What the engine takes from its queues. -/
abbrev Taken := MarketEvent ⊕ CrossCheckMsg

namespace EngineThread
open Prog
variable {F : Type} [Double F]

/-- `Drain`: whether it did any work, and the engine. -/
def drain (rounds : Nat) (e : Engine F) : EngineProg (Bool × Engine F) :=
  loop (fun (didWork, e) => do
    match ← perform EngineCall.tryPop with
    | none => pure (.inr (didWork, e))
    | some ev => pure (.inl (true, (e.pop ev).1))) rounds (false, e)

omit [Double F] in
/-- `HandleCrossChecks`. -/
def handleCrossChecks (rounds : Nat) (e : Engine F) : EngineProg (Engine F) :=
  if e.hasCrossChecks then
    loop (fun e => do
      match ← perform EngineCall.tryPopCheck with
      | none => pure (.inr e)
      | some msg => pure (.inl (e.handleCrossCheck msg))) rounds e
  else pure e

/-- The stale check: the clock is read only while the book is live. -/
def checkStale (e : Engine F) : EngineProg (Engine F) :=
  if e.bookLive then do
    let now ← perform EngineCall.nowNs
    pure (e.checkStale now.toInt)
  else pure e

/-- The timed flush: the clock is read only if there is a log. -/
def timedFlush (e : Engine F) : EngineProg (Engine F) :=
  if e.log.isSome then do
    let now ← perform EngineCall.nowNs
    pure (e.timedFlush now.toInt)
  else pure e

/-- The body of the loop of `Run`. -/
def round (rounds : Nat) (e : Engine F) : EngineProg (Engine F) := do
  let (didWork, e) ← drain rounds e
  let e ← handleCrossChecks rounds e
  let e ← checkStale e
  let e ← timedFlush e
  if didWork then pure e
  else do
    perform EngineCall.sleepUs
    pure e

/-- The loop of `Run`. -/
def runLoop (rounds : Nat) (e : Engine F) : EngineProg (Engine F) :=
  loop (fun e => do
    if ← perform EngineCall.stopLoad then pure (.inr e)
    else do
      let e ← round rounds e
      pure (.inl e)) rounds e

/-- `Run`: the loop, the final drain and the last flush. -/
def run (rounds : Nat) (e : Engine F) : EngineProg (Engine F) := do
  let e ← runLoop rounds e
  let (_, e) ← drain rounds e
  pure e.flush

/-- The element that an answered call took. -/
def took : (c : EngineCall) → c.Answer → List Taken
  | .tryPop, ev => ev.toList.map .inl
  | .tryPopCheck, msg => msg.toList.map .inr
  | _, _ => []

/-- The thread watched through what it takes. -/
def takeMonitor : Monitor EngineCall EngineCall.Answer Taken where
  emit := took
  admits _ _ := True
  inv _ := True

/-- A relation between what was taken and the engine that everything the thread does keeps. -/
structure Maintained (R : List Taken → Engine F → Prop) : Prop where
  pop : ∀ h e ev, R h e → R (h ++ [.inl ev]) (e.pop ev).1
  check : ∀ h e msg, e.hasCrossChecks = true → R h e → R (h ++ [.inr msg]) (e.handleCrossCheck msg)
  stale : ∀ h e nowNs, R h e → R h (e.checkStale nowNs)
  timedFlush : ∀ h e nowNs, R h e → R h (e.timedFlush nowNs)
  flush : ∀ h e, R h e → R h e.flush

section Loops
variable {R : List Taken → Engine F → Prop} (hR : Maintained R) {e : Engine F} {h : List Taken}
  {rounds : Nat}
include hR

theorem wp_drain (hr : R h e) : takeMonitor.wp (fun r h' => R h' r.2) (drain rounds e) h := by
  refine Monitor.wp_loop (fun s h' => R h' s.2) ?_ rounds hr
  rintro ⟨didWork, e⟩ h hr
  refine Monitor.wp_bind (Monitor.wp_perform trivial fun ev _ => ⟨trivial, ?_⟩)
  cases ev with
  | none => exact Monitor.wp_pure trivial ((List.append_nil h).symm ▸ hr)
  | some ev => exact Monitor.wp_pure trivial (hR.pop h e ev hr)

theorem wp_handleCrossChecks (hr : R h e) :
    takeMonitor.wp (fun e' h' => R h' e') (handleCrossChecks rounds e) h := by
  unfold handleCrossChecks
  split
  · next hhas =>
    -- handling a message does not take the queue away
    refine Monitor.wp_loop (fun e' h' => R h' e' ∧ e'.hasCrossChecks = true) ?_ rounds ⟨hr, hhas⟩
    rintro e h ⟨hr, hhas⟩
    refine Monitor.wp_bind (Monitor.wp_perform trivial fun msg _ => ⟨trivial, ?_⟩)
    cases msg with
    | none => exact Monitor.wp_pure trivial ((List.append_nil h).symm ▸ hr)
    | some msg => exact Monitor.wp_pure trivial ⟨hR.check h e msg hhas hr, hhas⟩
  · exact Monitor.wp_pure trivial hr

theorem wp_checkStale (hr : R h e) :
    takeMonitor.wp (fun e' h' => R h' e') (checkStale e) h := by
  unfold checkStale
  split
  · refine Monitor.wp_bind (Monitor.wp_perform_silent (fun _ => rfl) trivial fun now _ => ?_)
    exact Monitor.wp_pure trivial (hR.stale h e now.toInt hr)
  · exact Monitor.wp_pure trivial hr

theorem wp_timedFlush (hr : R h e) :
    takeMonitor.wp (fun e' h' => R h' e') (timedFlush e) h := by
  unfold timedFlush
  split
  · refine Monitor.wp_bind (Monitor.wp_perform_silent (fun _ => rfl) trivial fun now _ => ?_)
    exact Monitor.wp_pure trivial (hR.timedFlush h e now.toInt hr)
  · exact Monitor.wp_pure trivial hr

theorem wp_round (hr : R h e) : takeMonitor.wp (fun e' h' => R h' e') (round rounds e) h := by
  refine Monitor.wp_bind ((wp_drain hR hr).mono ?_)
  rintro ⟨didWork, drained⟩ h - hdrained
  refine Monitor.wp_bind ((wp_handleCrossChecks hR hdrained).mono fun checked h _ hchecked => ?_)
  refine Monitor.wp_bind ((wp_checkStale hR hchecked).mono fun aged h _ haged => ?_)
  refine Monitor.wp_bind ((wp_timedFlush hR haged).mono fun flushed h _ hflushed => ?_)
  cases didWork with
  | true => exact Monitor.wp_pure trivial hflushed
  | false =>
    refine Monitor.wp_bind (Monitor.wp_perform_silent (fun _ => rfl) trivial fun _ _ => ?_)
    exact Monitor.wp_pure trivial hflushed

theorem wp_run (hr : R h e) : takeMonitor.wp (fun e' h' => R h' e') (run rounds e) h := by
  have hloop : takeMonitor.wp (fun e' h' => R h' e') (runLoop rounds e) h := by
    refine Monitor.wp_loop (fun e' h' => R h' e') ?_ rounds hr
    intro e h hr
    refine Monitor.wp_ite ?_ (Monitor.wp_pure trivial hr) ?_
    · exact Monitor.wp_perform_silent (fun _ => rfl) trivial fun _ _ => rfl
    · exact Monitor.wp_bind ((wp_round hR hr).mono fun _ _ _ hr => Monitor.wp_pure trivial hr)
  refine Monitor.wp_bind (hloop.mono fun stopped h _ hstopped => ?_)
  refine Monitor.wp_bind ((wp_drain hR hstopped).mono fun r h _ hdrained => ?_)
  exact Monitor.wp_pure trivial (hR.flush h r.2 hdrained)

/-- **The invariant rule of the thread.**  What everything it does keeps holds of the engine
when `Run` returns, and of what the two queues have handed out until then. -/
theorem run_maintains (hr : R [] e) (answers : Nat → (c : EngineCall) → c.Answer) {calls : Nat}
    {e' : Engine F} (hret : (run rounds e).outcome answers calls = some e') :
    R (((run rounds e).exec answers calls).flatMap fun x => took x.1 x.2) e' :=
  Monitor.wp_outcome (wp_run hR hr) answers (fun _ _ => trivial) hret

end Loops
end EngineThread
end Asmm
