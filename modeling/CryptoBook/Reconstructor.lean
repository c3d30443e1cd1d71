import CryptoBook.BinanceDepth

/-! # The reconstruction protocol

`Reconstructor` of `exchange/reconstructor.cpp`: the state machine that decides what to do
with a snapshot and with each group of diff events.  It sees a group through the ids of
its first fragment.  `Decided` lists the six answers with their guards and their effect on
the state; ids are `u64` and `+ 1` wraps. -/
namespace Asmm

/-- What the driver should do with a diff group. -/
inductive ReconAction where
  | kDrop
  | kEmit
  | kEmitAndGoLive
  | kGap
  | kNeedSnapshot
  | kSnapshotTooOld
  deriving DecidableEq, Repr

inductive Reconstructor.State where
  | kIdle
  | kAwaitFirstEvent
  | kLive
  deriving DecidableEq, Repr

structure Reconstructor where
  state : Reconstructor.State
  snapshotLastId : UInt64
  prevU : UInt64
  deriving DecidableEq, Repr

namespace Reconstructor

/-- `Reconstructor recon;`. -/
def fresh : Reconstructor := ⟨.kIdle, 0, 0⟩

/-- The header of a snapshot's events. -/
def snapshotHeader (snap : DepthSnapshot) (tsNs : Int64) (firstFragment : Bool) : MarketEvent :=
  { MarketEvent.zero with
    tsRecvNs := tsNs
    firstUpdateId := snap.lastUpdateId
    finalUpdateId := snap.lastUpdateId
    kind := .kSnapshot
    flags := if firstFragment then kFlagSnapshotStart else 0 }

/-- `Reconstructor::OnSnapshot`: the new state and the events appended to `out`. -/
def onSnapshot (_ : Reconstructor) (snap : DepthSnapshot) (tsNs : Int64) :
    Reconstructor × List MarketEvent :=
  (⟨.kAwaitFirstEvent, snap.lastUpdateId, 0⟩,
    fragments (snapshotHeader snap tsNs) snap.bids snap.asks)

/-- `Reconstructor::OnDiffGroup`. -/
def onDiffGroup (r : Reconstructor) : List MarketEvent → ReconAction × Reconstructor
  | [] => (.kGap, r)
  | front :: _ =>
      let U := front.firstUpdateId
      let u := front.finalUpdateId
      match r.state with
      | .kIdle => (.kNeedSnapshot, r)
      | .kAwaitFirstEvent =>
          if u ≤ r.snapshotLastId then (.kDrop, r)
          -- here L + 1 ≤ u, so the bracket reduces to U ≤ L + 1
          else if U ≤ r.snapshotLastId + 1 then
            (.kEmitAndGoLive, { r with prevU := u, state := .kLive })
          else (.kSnapshotTooOld, r)
      | .kLive =>
          if U = r.prevU + 1 then (.kEmit, { r with prevU := u })
          else (.kGap, { r with state := .kIdle })

/-- `Reconstructor::Reset`. -/
def reset (_ : Reconstructor) : Reconstructor := ⟨.kIdle, 0, 0⟩

/-- The answers to a group with ids `U` and `u`, and the state afterwards. -/
inductive Decided (r : Reconstructor) (U u : UInt64) : ReconAction → Reconstructor → Prop
  | needSnapshot (idle : r.state = .kIdle) : Decided r U u .kNeedSnapshot r
  | drop (await : r.state = .kAwaitFirstEvent) (old : u ≤ r.snapshotLastId) :
      Decided r U u .kDrop r
  | bracket (await : r.state = .kAwaitFirstEvent) (after : r.snapshotLastId < u)
      (joins : U ≤ r.snapshotLastId + 1) :
      Decided r U u .kEmitAndGoLive { r with prevU := u, state := .kLive }
  | tooOld (await : r.state = .kAwaitFirstEvent) (after : r.snapshotLastId < u)
      (apart : r.snapshotLastId + 1 < U) : Decided r U u .kSnapshotTooOld r
  | next (live : r.state = .kLive) (joins : U = r.prevU + 1) :
      Decided r U u .kEmit { r with prevU := u }
  | gap (live : r.state = .kLive) (apart : U ≠ r.prevU + 1) :
      Decided r U u .kGap { r with state := .kIdle }

/-- **The code gives one of these answers**, by the ids of the front. -/
theorem onDiffGroup_front (r : Reconstructor) (front : MarketEvent) (rest : List MarketEvent) :
    Decided r front.firstUpdateId front.finalUpdateId (r.onDiffGroup (front :: rest)).1
      (r.onDiffGroup (front :: rest)).2 := by
  unfold onDiffGroup
  dsimp only
  split
  · exact .needSnapshot ‹_›
  · split
    · exact .drop ‹_› ‹_›
    · have hafter : r.snapshotLastId < front.finalUpdateId := UInt64.not_le.mp ‹_›
      split
      · exact .bracket ‹_› hafter ‹_›
      · exact .tooOld ‹_› hafter (UInt64.not_le.mp ‹_›)
  · split
    · exact .next ‹_› ‹_›
    · exact .gap ‹_› ‹_›

theorem onDiffGroup_decided (r : Reconstructor) {kind : EventKind} {U u : UInt64} {whole : Bool}
    {group : List MarketEvent} (hg : FragmentChain kind U u whole group) :
    Decided r U u (r.onDiffGroup group).1 (r.onDiffGroup group).2 := by
  obtain ⟨front, rest, rfl, -, rfl, rfl⟩ := hg.front
  exact r.onDiffGroup_front front rest

/-- The events of a snapshot are a group that starts a snapshot and carries its levels. -/
theorem onSnapshot_group (r : Reconstructor) (snap : DepthSnapshot) (tsNs : Int64) :
    Group .kSnapshot snap.lastUpdateId snap.lastUpdateId true snap.updates
      (r.onSnapshot snap tsNs).2 := by
  have hheader : ∀ first, Header .kSnapshot snap.lastUpdateId snap.lastUpdateId (true && first)
      (snapshotHeader snap tsNs first) := fun first => ⟨rfl, rfl, rfl, rfl⟩
  exact fragments_group hheader snap.bids snap.asks

end Reconstructor
end Asmm
