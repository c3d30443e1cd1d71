import Mathlib.Algebra.Group.Nat.Defs
import CryptoBook.VerifierGrammar

/-! # The sequence rules of the two checkers

The reconstructor judges a diff group as a whole before it is pushed, the verifier its
fragments when they are popped.  Between groups, both states say which ids may follow, and
they say the same (`Linked`): so the verifier accepts a group exactly when the
reconstructor emits it (`checkers_agree`).  The one id where the two rules part is the
last `u64`, whose successor wraps.

Both rules tie a group to the one before through its first id only.  A group whose final
id lies before its first is let through, and takes the sequence back
(`malformed_group_moves_back`); with groups that are in order the ids move forward
(`ids_move_forward_iff`). -/
namespace Asmm
open Runs

/-- The group is pushed. -/
def ReconAction.emits : ReconAction → Bool
  | .kEmit | .kEmitAndGoLive => true
  | .kDrop | .kGap | .kNeedSnapshot | .kSnapshotTooOld => false

namespace Reconstructor

/-- What may follow, in the reconstructor's state. -/
def phase (r : Reconstructor) : Phase :=
  match r.state with
  | .kIdle => .idle
  | .kAwaitFirstEvent => .await r.snapshotLastId
  | .kLive => .live r.prevU

/-- The reconstructor after a group. -/
def follow (r : Reconstructor) (group : List MarketEvent) : Reconstructor := (r.onDiffGroup group).2

/-- The successor of a waiting snapshot's id does not wrap. -/
def Bounded (r : Reconstructor) : Prop :=
  r.state = .kAwaitFirstEvent → r.snapshotLastId.toNat < 2 ^ 64 - 1

variable {r r' : Reconstructor} {U u : UInt64} {action : ReconAction}

/-- **The reconstructor emits what may follow.** -/
theorem Decided.emits_iff (h : Decided r U u action r') (hr : r.Bounded) :
    action.emits = true ↔ r.phase.Admits U u := by
  cases h with
  | needSnapshot idle => simp [ReconAction.emits, phase, idle, Phase.Admits]
  | drop await old =>
    have hnot : ¬ r.snapshotLastId + 1 ≤ u := by
      have hlast := hr await
      rw [UInt64.le_iff_toNat_le] at old
      rw [UInt64.le_iff_toNat_le, UInt64.toNat_add, UInt64.toNat_one,
        Nat.mod_eq_of_lt (by omega)]
      omega
    simp [ReconAction.emits, phase, await, Phase.Admits, hnot]
  | bracket await after joins =>
    simp [ReconAction.emits, phase, await, Phase.Admits, joins, GapVerifier.succ_le_of_lt after]
  | tooOld await after apart =>
    simp [ReconAction.emits, phase, await, Phase.Admits, apart]
  | next live joins => simp [ReconAction.emits, phase, live, Phase.Admits, joins]
  | gap live apart => simp [ReconAction.emits, phase, live, Phase.Admits, apart]

theorem Decided.phase_eq (h : Decided r U u action r') (he : action.emits = true) :
    r'.phase = .live u := by
  cases h with
  | needSnapshot idle => cases he
  | drop await old => cases he
  | bracket await after joins => rfl
  | tooOld await after apart => cases he
  | next live joins => simp [phase, live]
  | gap live apart => cases he

/-! ## Agreement -/

/-- The two checkers expect the same. -/
structure Linked (r : Reconstructor) (v : GapVerifier) : Prop where
  matched : v.Matches r.phase
  started : r.phase ≠ .idle
  bounded : r.Bounded

/-- After a snapshot they do, whatever came before. -/
theorem linked_onSnapshot (r : Reconstructor) (v : GapVerifier) (snap : DepthSnapshot)
    (tsNs : Int64) (hlast : snap.lastUpdateId.toNat < 2 ^ 64 - 1) :
    Linked (r.onSnapshot snap tsNs).1 (run GapVerifier.step v (r.onSnapshot snap tsNs).2) := by
  have hgroup := r.onSnapshot_group snap tsNs
  exact ⟨(GapVerifier.accepts_snapshot hgroup.chain (Or.inl hgroup.head_starts)).2 rfl, nofun,
    fun _ => hlast⟩

variable {v : GapVerifier} {group : List MarketEvent}

/-- They agree on the next group. -/
theorem Linked.accepts_iff (h : Linked r v) (hg : FragmentChain .kDepthDiff U u true group) :
    v.Accepts group ↔ (r.onDiffGroup group).1.emits = true := by
  rw [(r.onDiffGroup_decided hg).emits_iff h.bounded]
  constructor
  · obtain ⟨front, rest, rfl, hkind, rfl, rfl⟩ := hg.front
    exact fun haccepts => haccepts.admits hkind h.matched h.started
  · exact fun hadmits => (GapVerifier.accepts_admitted hg h.matched hadmits).1

/-- And stay linked after it if it is emitted. -/
theorem Linked.follow (h : Linked r v) (hg : FragmentChain .kDepthDiff U u true group)
    (he : (r.onDiffGroup group).1.emits = true) :
    Linked (r.follow group) (run GapVerifier.step v group) := by
  have hdecided := r.onDiffGroup_decided hg
  have hphase : (r.follow group).phase = .live u := hdecided.phase_eq he
  have hadmits := (hdecided.emits_iff h.bounded).mp he
  refine ⟨?_, ?_, fun hawait => ?_⟩
  · rw [hphase]
    exact (GapVerifier.accepts_admitted hg h.matched hadmits).2 rfl
  · rw [hphase]
    nofun
  · simp [phase, hawait] at hphase

theorem Linked.run {pre : List (List MarketEvent)} (h : Linked r v)
    (hgroups : ∀ g ∈ pre, ∃ U u, FragmentChain .kDepthDiff U u true g)
    (hemitted : Guarded Reconstructor.follow (fun r g => (r.onDiffGroup g).1.emits = true) r pre) :
    Linked (Runs.run Reconstructor.follow r pre) (Runs.run GapVerifier.step v pre.flatten) := by
  induction pre generalizing r v with
  | nil => exact h
  | cons g pre ih =>
    obtain ⟨U, u, hg⟩ := hgroups g List.mem_cons_self
    obtain ⟨he, hrest⟩ := hemitted
    rw [List.flatten_cons, run_append]
    exact ih (h.follow hg he) (fun g' hg' => hgroups g' (List.mem_cons_of_mem _ hg')) hrest

/-- **The two checkers agree group by group.**  A snapshot is taken in by the reconstructor
in any state, and its fragments by the verifier in any state; whole diff groups with any
ids follow, all emitted so far.  Then the verifier accepts every fragment of the next group
if and only if the reconstructor answers `kEmit` or `kEmitAndGoLive` for it. -/
theorem checkers_agree (r : Reconstructor) (v : GapVerifier) (snap : DepthSnapshot)
    (tsNs : Int64) (hlast : snap.lastUpdateId.toNat < 2 ^ 64 - 1)
    (pre : List (List MarketEvent)) (group : List MarketEvent)
    (hgroups : ∀ g ∈ pre ++ [group], ∃ U u, FragmentChain .kDepthDiff U u true g)
    (hemitted : Guarded follow (fun r g => (r.onDiffGroup g).1.emits = true)
      (r.onSnapshot snap tsNs).1 pre) :
    (Runs.run GapVerifier.step v ((r.onSnapshot snap tsNs).2 ++ pre.flatten)).Accepts group ↔
      ((Runs.run follow (r.onSnapshot snap tsNs).1 pre).onDiffGroup group).1.emits = true := by
  have hlinked := (linked_onSnapshot r v snap tsNs hlast).run
    (fun g hg => hgroups g (List.mem_append_left _ hg)) hemitted
  obtain ⟨U, u, hg⟩ := hgroups group (by simp)
  rw [run_append]
  exact hlinked.accepts_iff hg

/-- A snapshot, its bracket group in two fragments, and a group that continues it. -/
theorem checkers_agree_next :
    let snap : DepthSnapshot := ⟨1000, [], []⟩
    let bracket := [GapVerifier.diff 1001 1005 true, GapVerifier.diff 1001 1005 false]
    (Runs.run GapVerifier.step GapVerifier.fresh ((fresh.onSnapshot snap 0).2 ++ bracket)).Accepts
      [GapVerifier.diff 1006 1009 false] := by
  have hbracket : FragmentChain .kDepthDiff 1001 1005 true
      [GapVerifier.diff 1001 1005 true, GapVerifier.diff 1001 1005 false] :=
    .more (GapVerifier.diff_fragment ..) (.last (GapVerifier.diff_fragment 1001 1005 false))
  refine (checkers_agree fresh GapVerifier.fresh ⟨1000, [], []⟩ 0 (by decide)
    [[GapVerifier.diff 1001 1005 true, GapVerifier.diff 1001 1005 false]] _ ?_ (by decide)).mpr
    (by decide)
  intro g hg
  rcases List.mem_cons.mp hg with rfl | hg
  · exact ⟨_, _, hbracket⟩
  · obtain rfl := List.mem_singleton.mp hg
    exact ⟨_, _, .last (GapVerifier.diff_fragment 1006 1009 false)⟩

/-! ## The ids of the emitted groups -/

/-- A group that was emitted. -/
structure Emission where
  action : ReconAction
  firstId : UInt64
  finalId : UInt64
  deriving DecidableEq

/-- The reconstructor, the id of the last snapshot, and the groups emitted since. -/
structure Journal where
  recon : Reconstructor
  lastId : UInt64
  emitted : List Emission

inductive Op where
  | onSnapshot (snap : DepthSnapshot) (tsNs : Int64)
  | onDiffGroup (group : List MarketEvent)
  | reset

namespace Journal

def start : Journal := ⟨Reconstructor.fresh, 0, []⟩

/-- The emission of a group, with the ids of its front. -/
def emission (action : ReconAction) : List MarketEvent → List Emission
  | [] => []
  | front :: _ => if action.emits then [⟨action, front.firstUpdateId, front.finalUpdateId⟩] else []

def step (j : Journal) : Op → Journal
  | .onSnapshot snap tsNs => ⟨(j.recon.onSnapshot snap tsNs).1, snap.lastUpdateId, []⟩
  | .onDiffGroup group =>
      let r := j.recon.onDiffGroup group
      { j with recon := r.2, emitted := j.emitted ++ emission r.1 group }
  | .reset => { j with recon := j.recon.reset }

/-- What is emitted after a snapshot: a group that reaches past it, and then groups that
start one after the end of the one before. -/
inductive Emissions (lastId : UInt64) : List Emission → Prop
  | none : Emissions lastId []
  | bracket {e : Emission} (action : e.action = .kEmitAndGoLive) (after : lastId < e.finalId) :
      Emissions lastId [e]
  | next {es : List Emission} {d e : Emission} (before : Emissions lastId (es ++ [d]))
      (action : e.action = .kEmit) (joins : e.firstId = d.finalId + 1) :
      Emissions lastId (es ++ [d] ++ [e])

/-- The reconstructor knows the last snapshot and the last group. -/
structure Inv (j : Journal) : Prop where
  emissions : Emissions j.lastId j.emitted
  await : j.recon.state = .kAwaitFirstEvent → j.recon.snapshotLastId = j.lastId ∧ j.emitted = []
  live : j.recon.state = .kLive → ∃ es d, j.emitted = es ++ [d] ∧ j.recon.prevU = d.finalId

theorem inv_start : Inv start := ⟨.none, nofun, nofun⟩

theorem Inv.step {j : Journal} (h : Inv j) (op : Op) : Inv (j.step op) := by
  cases op with
  | onSnapshot snap tsNs => exact ⟨.none, fun _ => ⟨rfl, rfl⟩, by rintro ⟨⟩⟩
  | reset => exact ⟨h.emissions, by rintro ⟨⟩, by rintro ⟨⟩⟩
  | onDiffGroup group =>
    cases group with
    | nil =>
      have hsame : j.step (.onDiffGroup []) = j := by
        simp [Journal.step, onDiffGroup, emission]
      rwa [hsame]
    | cons front rest =>
      have hdecided := j.recon.onDiffGroup_front front rest
      have hstep : j.step (.onDiffGroup (front :: rest)) =
          ⟨(j.recon.onDiffGroup (front :: rest)).2, j.lastId,
            j.emitted ++ emission (j.recon.onDiffGroup (front :: rest)).1 (front :: rest)⟩ := rfl
      rw [hstep]
      generalize j.recon.onDiffGroup (front :: rest) = r at hdecided ⊢
      obtain ⟨action, recon⟩ := r
      dsimp only at hdecided ⊢
      cases hdecided with
      | needSnapshot idle => simpa [emission, ReconAction.emits] using h
      | drop await old => simpa [emission, ReconAction.emits] using h
      | bracket await after joins =>
        obtain ⟨hlast, hnone⟩ := h.await await
        simp only [hnone, List.nil_append, emission, ReconAction.emits, if_true]
        exact ⟨.bracket rfl (hlast ▸ after), by rintro ⟨⟩,
          fun _ => ⟨[], _, rfl, rfl⟩⟩
      | tooOld await after apart => simpa [emission, ReconAction.emits] using h
      | next live joins =>
        obtain ⟨es, d, hemitted, hprev⟩ := h.live live
        have hbefore := h.emissions
        rw [hemitted] at hbefore
        simp only [hemitted, emission, ReconAction.emits, if_true]
        refine ⟨.next hbefore rfl (hprev ▸ joins), fun hawait => ?_, fun _ => ⟨_, _, rfl, rfl⟩⟩
        exact absurd (live.symm.trans hawait) (by decide)
      | gap live apart =>
        refine ⟨?_, by rintro ⟨⟩, by rintro ⟨⟩⟩
        simpa [emission, ReconAction.emits] using h.emissions

/-- From the last snapshot on, the final ids increase strictly. -/
def Forward (lastId : UInt64) (es : List Emission) : Prop :=
  (lastId :: es.map Emission.finalId).Pairwise (· < ·)

instance (lastId : UInt64) (es : List Emission) : Decidable (Forward lastId es) :=
  inferInstanceAs (Decidable ((lastId :: es.map Emission.finalId).Pairwise (· < ·)))

/-- Every group emitted as `kEmit` ends no earlier than it starts, and does not start at 0,
where the ids wrap. -/
def InOrder (es : List Emission) : Prop :=
  ∀ e ∈ es, e.action = .kEmit → 1 ≤ e.firstId ∧ e.firstId ≤ e.finalId

theorem forward_concat {lastId : UInt64} {es : List Emission} {d e : Emission} :
    Forward lastId (es ++ [d] ++ [e]) ↔ Forward lastId (es ++ [d]) ∧ d.finalId < e.finalId := by
  have hsplit : ∀ {l : List UInt64} {x : UInt64}, (l ++ [x]).Pairwise (· < ·) ↔
      l.Pairwise (· < ·) ∧ ∀ a ∈ l, a < x := by
    simp [List.pairwise_append]
  simp only [Forward, List.map_append, List.map_cons, List.map_nil, ← List.cons_append, hsplit]
  refine and_congr_right fun ⟨_, hbefore⟩ => ⟨fun h => h d.finalId (by simp), fun hlt a ha => ?_⟩
  rcases List.mem_append.mp ha with ha | ha
  · exact UInt64.lt_trans (hbefore a ha) hlt
  · exact List.mem_singleton.mp ha ▸ hlt

theorem inOrder_concat {es : List Emission} {e : Emission} (he : e.action = .kEmit) :
    InOrder (es ++ [e]) ↔ InOrder es ∧ 1 ≤ e.firstId ∧ e.firstId ≤ e.finalId := by
  rw [InOrder, List.forall_mem_append]
  simp [InOrder, he]

/-- A group that starts one after `prevU` ends after `prevU` exactly if it is in order. -/
theorem lt_iff_of_succ {prevU U u : UInt64} (h : U = prevU + 1) :
    prevU < u ↔ 1 ≤ U ∧ U ≤ u := by
  subst h
  simp only [UInt64.lt_iff_toNat_lt, UInt64.le_iff_toNat_le, UInt64.toNat_add, UInt64.toNat_one]
  have hprev := prevU.toNat_lt
  have hu := u.toNat_lt
  omega

theorem Emissions.forward_iff {lastId : UInt64} {es : List Emission} (h : Emissions lastId es) :
    Forward lastId es ↔ InOrder es := by
  induction h with
  | none => simp [Forward, InOrder]
  | bracket action after => simp [Forward, InOrder, action, after]
  | next before action joins ih =>
    rw [forward_concat, inOrder_concat action, ih, lt_iff_of_succ joins]

/-- **Ids move forward while groups are in order.**  After any calls of `OnSnapshot`,
`OnDiffGroup` and `Reset` with any `u64` ids: the final ids of the groups emitted since the
last snapshot increase strictly from its id on, if and only if each of them that was
answered `kEmit` has `1 ≤ U ≤ u`. -/
theorem ids_move_forward_iff (ops : List Op) :
    let j := run step start ops
    Forward j.lastId j.emitted ↔ InOrder j.emitted :=
  (run_invariant (I := Inv) (fun _ op h => h.step op) inv_start ops).emissions.forward_iff

/-- **A malformed group moves the ids back.**  The group that starts at 1006 and ends at
1004 continues the one that ended at 1005, so it is emitted, and the group after it starts
at 1005 again. -/
theorem malformed_group_moves_back :
    let ops := [.onSnapshot ⟨1000, [], []⟩ 0, .onDiffGroup [GapVerifier.diff 1001 1005 false],
      .onDiffGroup [GapVerifier.diff 1006 1004 false],
      .onDiffGroup [GapVerifier.diff 1005 1008 false]]
    let j := run step start ops
    j.emitted = [⟨.kEmitAndGoLive, 1001, 1005⟩, ⟨.kEmit, 1006, 1004⟩, ⟨.kEmit, 1005, 1008⟩] ∧
    ¬ Forward j.lastId j.emitted := by
  decide

end Journal

end Reconstructor
end Asmm
