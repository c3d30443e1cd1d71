import Mathlib.Data.List.Chain
import CryptoBook.Feed

/-! # What the verifier lets through

The verifier sees single events and remembers little: whether the last event is continued,
its final id, and the id of the last snapshot.  It looks at a diff's ids only when the
event before it is not continued, and at a snapshot fragment not at all.  So a stream it
accepts need not be made of whole groups: whatever follows a continued event passes
(`torn_group_accepted`).

How fragments hang together is what it takes for granted (`Coherent`).  For a stream that
does, acceptance is exactly the sequence rule over whole snapshots and groups
(`accepts_iff_sequenced`). -/
namespace Asmm
open Runs

/-- What two neighbours of a stream owe each other: a continued event is followed by one of
the same kind with the same ids, any other by a diff or by the start of a snapshot. -/
def Joined (a b : MarketEvent) : Prop :=
  (a.continues = true → b.kind = a.kind ∧ b.firstUpdateId = a.firstUpdateId ∧
    b.finalUpdateId = a.finalUpdateId) ∧
  (a.continues = false → b.kind = .kDepthDiff ∨ b.kind = .kSnapshot ∧ b.startsSnapshot = true)

/-- Fragments hang together. -/
def Coherent (evs : List MarketEvent) : Prop := evs.IsChain Joined

instance (a b : MarketEvent) : Decidable (Joined a b) := by
  unfold Joined
  infer_instance

instance (evs : List MarketEvent) : Decidable (Coherent evs) :=
  inferInstanceAs (Decidable (evs.IsChain Joined))

/-- A stream of snapshots and diff groups, each group admitted by what came before it.
Only the last chain may be unfinished. -/
inductive Sequenced : Phase → List MarketEvent → Prop
  | done (ph : Phase) : Sequenced ph []
  | snapshot {ph : Phase} {evs rest : List MarketEvent} {U lastId : UInt64} {whole : Bool}
      (chain : FragmentChain .kSnapshot U lastId whole evs)
      (starts : ∀ ev ∈ evs.head?, ev.startsSnapshot = true) (cut : whole = false → rest = [])
      (after : Sequenced (.await lastId) rest) : Sequenced ph (evs ++ rest)
  | group {ph : Phase} {evs rest : List MarketEvent} {U u : UInt64} {whole : Bool}
      (chain : FragmentChain .kDepthDiff U u whole evs) (admits : ph.Admits U u)
      (cut : whole = false → rest = []) (after : Sequenced (.live u) rest) :
      Sequenced ph (evs ++ rest)

/-! ## Chains in a coherent stream -/

/-- What may stand at the front of a stream. -/
def Opens (ev : MarketEvent) : Prop :=
  ev.kind = .kDepthDiff ∨ ev.kind = .kSnapshot ∧ ev.startsSnapshot = true

/-- **A coherent stream begins with a chain**, and goes on with a coherent stream. -/
theorem Coherent.exists_chain {ev : MarketEvent} {evs : List MarketEvent}
    (h : Coherent (ev :: evs)) :
    ∃ chain rest whole, ev :: evs = (ev :: chain) ++ rest ∧
      FragmentChain ev.kind ev.firstUpdateId ev.finalUpdateId whole (ev :: chain) ∧
      (whole = false → rest = []) ∧ Coherent rest ∧ ∀ e ∈ rest.head?, Opens e := by
  have hfrag : ∀ e : MarketEvent, Fragment e.kind e.firstUpdateId e.finalUpdateId
      e.startsSnapshot e.continues e := fun _ => ⟨rfl, rfl, rfl, rfl, rfl⟩
  induction evs generalizing ev with
  | nil => exact ⟨[], [], _, rfl, .last (hfrag ev), fun _ => rfl, List.isChain_nil, nofun⟩
  | cons next evs ih =>
    obtain ⟨hjoined, hrest⟩ := List.isChain_cons_cons.mp h
    cases hcont : ev.continues with
    | false =>
      refine ⟨[], next :: evs, true, rfl, ?_, nofun, hrest, ?_⟩
      · have hlast := FragmentChain.last (hfrag ev)
        rwa [hcont] at hlast
      · rintro e ⟨⟩
        exact hjoined.2 hcont
    | true =>
      obtain ⟨hkind, hU, hu⟩ := hjoined.1 hcont
      obtain ⟨chain, rest, whole, heq, hchain, hcut, hcoherent, hopens⟩ := ih hrest
      rw [hkind, hU, hu] at hchain
      refine ⟨next :: chain, rest, whole, ?_, ?_, hcut, hcoherent, hopens⟩
      · rw [heq]
        rfl
      · have hmore := hfrag ev
        rw [hcont] at hmore
        exact .more hmore hchain

/-- A chain hangs together, and with what follows it. -/
theorem FragmentChain.coherent {kind : EventKind} {U u : UInt64} {whole : Bool}
    {evs rest : List MarketEvent} (hc : FragmentChain kind U u whole evs)
    (hcut : whole = false → rest = []) (hrest : Coherent rest)
    (hopens : ∀ e ∈ rest.head?, Opens e) : Coherent (evs ++ rest) := by
  induction hc with
  | @last starts cont ev frag =>
    cases rest with
    | nil => exact List.isChain_singleton _
    | cons e rest =>
      refine List.isChain_cons_cons.mpr ⟨⟨fun hcont => ?_, fun _ => hopens e rfl⟩, hrest⟩
      rw [frag.cont_eq] at hcont
      exact absurd (hcut (by rw [hcont]; rfl)) (List.cons_ne_nil _ _)
  | @more starts whole ev evs frag tail ih =>
    obtain ⟨next, evs', rfl, hkind, hU, hu⟩ := tail.front
    refine List.isChain_cons_cons.mpr ⟨⟨fun _ => ?_, fun hcont => ?_⟩, ih hcut⟩
    · exact ⟨hkind.trans frag.kind_eq.symm, hU.trans frag.firstId_eq.symm,
        hu.trans frag.finalId_eq.symm⟩
    · exact absurd (frag.cont_eq.symm.trans hcont) (by decide)

/-! ## Acceptance -/

namespace GapVerifier

/-- A diff that is accepted between groups may follow. -/
theorem Accepts.admits {v : GapVerifier} {ph : Phase} {ev : MarketEvent} {evs : List MarketEvent}
    (h : v.Accepts (ev :: evs)) (hkind : ev.kind = .kDepthDiff) (hv : v.Matches ph)
    (hph : ph ≠ .idle) : ph.Admits ev.firstUpdateId ev.finalUpdateId := by
  refine admits_of_verdict hv hph ?_
  have hok : (v.check ev).2 = true := h.1
  unfold check at hok
  dsimp only at hok
  rwa [if_neg (by rw [hkind]; decide)] at hok

/-- What the verifier accepts of a coherent stream is in sequence. -/
theorem Accepts.sequenced {n : Nat} : ∀ {v : GapVerifier} {ph : Phase} {evs : List MarketEvent},
    evs.length ≤ n → v.Matches ph → v.Accepts evs → Coherent evs →
    (∀ e ∈ evs.head?, Opens e ∧ (ph = .idle → e.kind = .kSnapshot)) → Sequenced ph evs := by
  -- on the length: a chain is taken off the front in each round
  induction n with
  | zero =>
    intro v ph evs hlen _ _ _ _
    rw [List.length_eq_zero_iff.mp (Nat.le_zero.mp hlen)]
    exact .done ph
  | succ n ih =>
    intro v ph evs hlen hv haccepts hcoherent hfront
    cases evs with
    | nil => exact .done ph
    | cons ev evs =>
      obtain ⟨chain, rest, whole, heq, hchain, hcut, hrest, hopens⟩ := hcoherent.exists_chain
      have hshort : rest.length ≤ n := by
        have hlength := congrArg List.length heq
        simp only [List.length_cons, List.length_append] at hlength hlen
        omega
      obtain ⟨hkind, hidle⟩ := hfront ev rfl
      have hadmits : ev.kind = .kDepthDiff →
          ph.Admits ev.firstUpdateId ev.finalUpdateId := fun hdiff =>
        haccepts.admits hdiff hv fun hph => by
          rw [hidle hph] at hdiff
          cases hdiff
      rw [heq] at haccepts ⊢
      have htail : (run step v (ev :: chain)).Accepts rest :=
        ((guarded_append step).mp haccepts).2
      -- the rest is in sequence with what the chain leaves behind
      have hgo : ∀ {ph' : Phase}, ph' ≠ .idle →
          (whole = true → (run step v (ev :: chain)).Matches ph') → Sequenced ph' rest := by
        intro ph' hne hmatches
        cases hwhole : whole with
        | false =>
          rw [hcut hwhole]
          exact .done ph'
        | true =>
          exact ih hshort (hmatches hwhole) htail hrest fun e he =>
            ⟨hopens e he, fun hph => absurd hph hne⟩
      rcases hkind with hdiff | ⟨hsnap, hstarts⟩
      · rw [hdiff] at hchain
        exact .group hchain (hadmits hdiff) hcut
          (hgo nofun (accepts_admitted hchain hv (hadmits hdiff)).2)
      · rw [hsnap] at hchain
        have hfirst : ∀ e ∈ (ev :: chain).head?, e.startsSnapshot = true := by
          rintro e ⟨⟩
          exact hstarts
        exact .snapshot hchain hfirst hcut
          (hgo nofun (accepts_snapshot hchain (Or.inl hfirst)).2)

/-- An accepted chain, and then what may follow it. -/
theorem Accepts.then {v : GapVerifier} {ph : Phase} {evs rest : List MarketEvent} {whole : Bool}
    (h : v.Accepts evs) (hcut : whole = false → rest = [])
    (hmatches : whole = true → (run step v evs).Matches ph)
    (hrest : ∀ v : GapVerifier, v.Matches ph → v.Accepts rest) : v.Accepts (evs ++ rest) := by
  refine (guarded_append step).mpr ⟨h, ?_⟩
  cases hwhole : whole with
  | false =>
    rw [hcut hwhole]
    trivial
  | true => exact hrest _ (hmatches hwhole)

end GapVerifier

/-- A stream in sequence is coherent, and the verifier accepts it. -/
theorem Sequenced.accepts {ph : Phase} {evs : List MarketEvent} (h : Sequenced ph evs) :
    Coherent evs ∧ (∀ e ∈ evs.head?, Opens e) ∧
      ∀ v : GapVerifier, v.Matches ph → v.Accepts evs := by
  induction h with
  | done ph => exact ⟨List.isChain_nil, nofun, fun _ _ => trivial⟩
  | @snapshot ph evs rest U lastId whole chain starts cut after ih =>
    obtain ⟨hcoherent, hopens, haccepts⟩ := ih
    obtain ⟨ev, evs', rfl, hkind, -, -⟩ := chain.front
    refine ⟨chain.coherent cut hcoherent hopens, ?_, fun v hv => ?_⟩
    · rintro e ⟨⟩
      exact Or.inr ⟨hkind, starts ev rfl⟩
    · obtain ⟨hfirst, hmatches⟩ := GapVerifier.accepts_snapshot (v := v) chain (Or.inl starts)
      exact hfirst.then cut hmatches haccepts
  | @group ph evs rest U u whole chain admits cut after ih =>
    obtain ⟨hcoherent, hopens, haccepts⟩ := ih
    obtain ⟨ev, evs', rfl, hkind, -, -⟩ := chain.front
    refine ⟨chain.coherent cut hcoherent hopens, ?_, fun v hv => ?_⟩
    · rintro e ⟨⟩
      exact Or.inl hkind
    · obtain ⟨hfirst, hmatches⟩ := GapVerifier.accepts_admitted chain hv admits
      exact hfirst.then cut hmatches haccepts

namespace GapVerifier

/-- **The language of the verifier.**  For every stream that begins with the start of a
snapshot, from any state of the verifier: `Check` returns true on every event of it and its
fragments hang together, if and only if it is a concatenation of snapshots and diff groups
with the first group after a snapshot bracketing its id, each later group continuing the
one before, and only the last chain possibly unfinished. -/
theorem accepts_iff_sequenced (v : GapVerifier) (first : MarketEvent) (evs : List MarketEvent)
    (hkind : first.kind = .kSnapshot) (hstarts : first.startsSnapshot = true) :
    v.Accepts (first :: evs) ∧ Coherent (first :: evs) ↔ Sequenced .idle (first :: evs) := by
  constructor
  · rintro ⟨haccepts, hcoherent⟩
    refine haccepts.sequenced (Nat.le_refl _) trivial hcoherent ?_
    rintro e ⟨⟩
    exact ⟨Or.inr ⟨hkind, hstarts⟩, fun _ => hkind⟩
  · intro h
    obtain ⟨hcoherent, -, haccepts⟩ := h.accepts
    exact ⟨haccepts v trivial, hcoherent⟩

/-- The start of a snapshot. -/
def snapshotStart (lastId : UInt64) : MarketEvent :=
  { MarketEvent.zero with
    kind := .kSnapshot
    firstUpdateId := lastId
    finalUpdateId := lastId
    flags := kFlagSnapshotStart }

/-- A diff fragment, continued or not. -/
def diff (U u : UInt64) (cont : Bool) : MarketEvent :=
  { MarketEvent.zero with
    firstUpdateId := U
    finalUpdateId := u
    flags := if cont then kFlagContinuation else 0 }

theorem diff_fragment (U u : UInt64) (cont : Bool) :
    Fragment .kDepthDiff U u false cont (diff U u cont) := by
  have hflags : ∀ cont, ((if cont then kFlagContinuation else 0) &&& kFlagSnapshotStart != 0) =
      false ∧ ((if cont then kFlagContinuation else 0) &&& kFlagContinuation != 0) = cont := by
    decide
  exact ⟨rfl, rfl, rfl, (hflags cont).1, (hflags cont).2⟩

/-- A snapshot, its bracket group in two fragments, and a group that breaks off. -/
theorem accepts_iff_sequenced_torn :
    Sequenced .idle [snapshotStart 1000, diff 1001 1005 true, diff 1001 1005 false,
      diff 1006 1009 true] :=
  (accepts_iff_sequenced fresh (snapshotStart 1000) _ rfl rfl).mp ⟨by decide, by decide⟩

/-- **A torn group is let through.**  The second fragment of the group that ends at 1005 is
missing, and so are the updates 1006 to 1009.  The next event passes as the missing
fragment, so every check returns true. -/
theorem torn_group_accepted :
    let evs := [snapshotStart 1000, diff 1001 1005 true, diff 1010 1012 false]
    fresh.Accepts evs ∧ (run step fresh evs).undetectedGaps = 0 ∧ ¬ Sequenced .idle evs := by
  refine ⟨by decide, by decide, fun h => ?_⟩
  exact absurd h.accepts.1 (by decide)

end GapVerifier
end Asmm
