import CryptoBook.Events

/-! # The redundant gap verifier

`GapVerifier` of `engine/gap_verifier.cpp`: the engine's own check of the sequence rules,
on the flat stream of events it pops.  It is independent of the market-data thread's
`Reconstructor` and sees fragments where that one sees groups. -/
namespace Asmm

structure GapVerifier where
  haveSnapshot : Bool
  live : Bool
  prevContinuation : Bool
  prevU : UInt64
  snapshotLastId : UInt64
  undetectedGaps : Nat
  eventsChecked : Nat
  deriving DecidableEq

namespace GapVerifier

/-- `GapVerifier verifier;`. -/
def fresh : GapVerifier := ⟨false, false, false, 0, 0, 0, 0⟩

/-- The verdict on a diff event, and whether the verifier is live afterwards. -/
def verdict (v : GapVerifier) (ev : MarketEvent) : Bool × Bool :=
  -- the sequence is checked once per group, at its first fragment
  if v.prevContinuation then (true, v.live)
  else if !v.haveSnapshot then (true, v.live)
  else if !v.live then
    if ev.firstUpdateId ≤ v.snapshotLastId + 1 ∧ v.snapshotLastId + 1 ≤ ev.finalUpdateId then
      (true, true)
    else (false, v.live)
  else if ev.firstUpdateId ≠ v.prevU + 1 then (false, v.live)
  else (true, v.live)

/-- `GapVerifier::Check`. -/
def check (v : GapVerifier) (ev : MarketEvent) : GapVerifier × Bool :=
  let v := { v with eventsChecked := v.eventsChecked + 1 }
  let prevU := if ev.continues then v.prevU else ev.finalUpdateId
  if ev.kind = .kSnapshot then
    let v := if ev.startsSnapshot then
        { v with haveSnapshot := true, live := false, snapshotLastId := ev.finalUpdateId }
      else v
    ({ v with prevContinuation := ev.continues, prevU := prevU }, true)
  else
    let (ok, live) := v.verdict ev
    ({ v with
        live := live
        undetectedGaps := if ok then v.undetectedGaps else v.undetectedGaps + 1
        prevContinuation := ev.continues
        prevU := prevU }, ok)

/-- The state after a check. -/
def step (v : GapVerifier) (ev : MarketEvent) : GapVerifier := (v.check ev).1

/-- A check that returns true counts no gap. -/
theorem undetectedGaps_step {v : GapVerifier} {ev : MarketEvent} (hok : (v.check ev).2 = true) :
    (v.step ev).undetectedGaps = v.undetectedGaps := by
  unfold step check at *
  dsimp only at *
  split
  · split <;> rfl
  · rename_i hkind
    rw [if_neg hkind] at hok
    exact if_pos hok

end GapVerifier
end Asmm
