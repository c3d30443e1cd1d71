import CryptoBook.GapVerifier
import CryptoBook.MarketDataThread
import CryptoBook.Runs

/-! # The feed

What the market-data thread may push, stated without the thread: a `Feed` is made of whole
groups.  A snapshot may come at any time; the first diff group after it must bracket its
id; each further group continues the one before; and the feed may break off anywhere, in
the middle of a group too, after which only a snapshot can follow.

The thread refines this (`run_feed`), whatever the transports deliver and whenever it is
stopped: the reconstructor's state always says which groups may follow what has been
pushed.  The engine's `GapVerifier` accepts every feed (`accepts_feed`).  So the two state
machines, which see the stream at different grains and reset at different points, never
disagree.

The messages a feed is made of are described by two predicates: `S` on a snapshot's id and
levels, `D` on a diff's ids and levels. -/
namespace Asmm
open Interaction Runs

/-- What may follow. -/
inductive Phase where
  | idle
  | await (lastId : UInt64)
  | live (prevU : UInt64)
  deriving DecidableEq

/-- The ids of a diff group that may follow.  Ids are `u64` and `+ 1` wraps. -/
def Phase.Admits : Phase → UInt64 → UInt64 → Prop
  | .idle, _, _ => False
  | .await lastId, U, u => U ≤ lastId + 1 ∧ lastId + 1 ≤ u
  | .live prevU, U, _ => U = prevU + 1

instance : ∀ (ph : Phase) (U u : UInt64), Decidable (ph.Admits U u)
  | .idle, _, _ => isFalse id
  | .await lastId, U, u => inferInstanceAs (Decidable (U ≤ lastId + 1 ∧ lastId + 1 ≤ u))
  | .live prevU, U, _ => inferInstanceAs (Decidable (U = prevU + 1))

/-- The events pushed so far, and what may follow them. -/
inductive Feed (S : UInt64 → List L2Book.LevelUpdate → Prop)
    (D : UInt64 → UInt64 → List L2Book.LevelUpdate → Prop) : List MarketEvent → Phase → Prop
  | start : Feed S D [] .idle
  | snapshot {h evs : List MarketEvent} {ph : Phase} {lastId : UInt64}
      {us : List L2Book.LevelUpdate} (before : Feed S D h ph)
      (group : Group .kSnapshot lastId lastId true us evs) (message : S lastId us) :
      Feed S D (h ++ evs) (.await lastId)
  | bracket {h evs : List MarketEvent} {lastId U u : UInt64} {us : List L2Book.LevelUpdate}
      (before : Feed S D h (.await lastId)) (group : Group .kDepthDiff U u false us evs)
      (message : D U u us) (after : lastId < u) (joins : U ≤ lastId + 1) :
      Feed S D (h ++ evs) (.live u)
  | next {h evs : List MarketEvent} {prevU U u : UInt64} {us : List L2Book.LevelUpdate}
      (before : Feed S D h (.live prevU)) (group : Group .kDepthDiff U u false us evs)
      (message : D U u us) (joins : U = prevU + 1) : Feed S D (h ++ evs) (.live u)
  | cut {h rest : List MarketEvent} {ph : Phase} (whole : Feed S D (h ++ rest) ph) :
      Feed S D h .idle

namespace MarketDataThread
section Refinement
variable (S : UInt64 → List L2Book.LevelUpdate → Prop)
  (D : UInt64 → UInt64 → List L2Book.LevelUpdate → Prop) (parser : String → Option Dom)
  (params : MarketDataParams)

/-- The answers under which every parsed message satisfies `S` or `D`. -/
def Delivers : (c : MdCall) → MdCall.Answer c → Prop
  | .get _ _, body => ∀ json, body = some json →
      ∀ snap, parseDepthSnapshot parser json params.filters = some snap →
        S snap.lastUpdateId snap.updates
  | .read, frame => frame.status = .kOk →
      ∀ d, readDepthDiff parser frame.payload params.filters = some d →
        D d.firstId d.finalId d.updates
  | _, _ => True

/-- The thread watched through what it pushes: at every moment it is a feed. -/
def feedMonitor : Monitor MdCall MdCall.Answer MarketEvent where
  emit := pushed
  admits := Delivers S D parser params
  inv h := ∃ ph, Feed S D h ph

variable {S D parser params} {rounds : Nat} {h : List MarketEvent}

/-- A call that is not a push. -/
theorem wp_silent {c : MdCall} {Q : MdCall.Answer c → List MarketEvent → Prop}
    (hsilent : ∀ x, pushed c x = []) (hinv : ∃ ph, Feed S D h ph)
    (hQ : ∀ x, Delivers S D parser params c x → Q x h) :
    (feedMonitor S D parser params).wp Q (Prog.perform c) h :=
  Monitor.wp_perform_silent hsilent hinv hQ

/-- Reading the stop flag. -/
theorem wp_stopLoad (hinv : ∃ ph, Feed S D h ph) :
    (feedMonitor S D parser params).wp (fun _ h' => h' = h) Md.stopLoad h :=
  wp_silent (fun _ => rfl) hinv fun _ _ => rfl

/-! ### Pushing -/

theorem wp_pushEvent {ev : MarketEvent} {rest : List MarketEvent} {ph : Phase}
    (hfeed : Feed S D (h ++ ev :: rest) ph) (t : MarketDataThread) :
    (feedMonitor S D parser params).wp
      (fun r h' => r.2.recon = t.recon ∧ (r.1 = true → h' = h ++ [ev]))
      (pushEvent rounds ev t) h := by
  refine Monitor.wp_loop (fun t' h' => t'.recon = t.recon ∧ h' = h) ?_ rounds ⟨rfl, rfl⟩
  rintro t' h' ⟨hrecon, rfl⟩
  refine Monitor.wp_bind (Monitor.wp_perform ⟨_, hfeed.cut⟩ fun ok _ => ?_)
  cases ok with
  | true =>
    have hpushed : Feed S D ((h' ++ [ev]) ++ rest) ph := by simpa using hfeed
    exact ⟨⟨_, hpushed.cut⟩, Monitor.wp_pure ⟨_, hpushed.cut⟩ ⟨hrecon, fun _ => rfl⟩⟩
  | false =>
    have hsame : h' ++ (feedMonitor S D parser params).emit (.tryPush ev) false = h' :=
      List.append_nil _
    rw [hsame]
    refine ⟨⟨_, hfeed.cut⟩, Monitor.wp_ite (wp_stopLoad ⟨_, hfeed.cut⟩) ?_ ?_⟩
    · exact Monitor.wp_pure ⟨_, hfeed.cut⟩ ⟨hrecon, fun hok => by cases hok⟩
    · exact Monitor.wp_pure ⟨_, hfeed.cut⟩ ⟨hrecon, rfl⟩

theorem wp_pushEvents {evs : List MarketEvent} {ph : Phase} (hfeed : Feed S D (h ++ evs) ph)
    (t : MarketDataThread) :
    (feedMonitor S D parser params).wp
      (fun r h' => r.2.recon = t.recon ∧ (r.1 = true → h' = h ++ evs))
      (pushEvents rounds evs t) h := by
  induction evs generalizing h t with
  | nil => exact Monitor.wp_pure ⟨_, hfeed.cut⟩ ⟨rfl, fun _ => (List.append_nil h).symm⟩
  | cons ev evs ih =>
    refine Monitor.wp_bind ((wp_pushEvent hfeed t).mono ?_)
    rintro ⟨ok, t'⟩ h' hinv ⟨hrecon, hpushed⟩
    cases ok with
    | false => exact Monitor.wp_pure hinv ⟨hrecon, fun hok => by cases hok⟩
    | true =>
      obtain rfl := hpushed rfl
      have hfeed' : Feed S D ((h ++ [ev]) ++ evs) ph := by simpa using hfeed
      refine (ih hfeed' t').mono ?_
      rintro r h'' - ⟨hr, hall⟩
      refine ⟨hr.trans hrecon, fun hok => ?_⟩
      simpa using hall hok

/-- **Pushing a group that may follow** keeps the feed at every moment, and a completed
push has added the whole group. -/
theorem wp_pushGroup {evs : List MarketEvent} {ph : Phase} (hfeed : Feed S D (h ++ evs) ph)
    (t : MarketDataThread) :
    (feedMonitor S D parser params).wp
      (fun r h' => r.2.recon = t.recon ∧ (r.1 = true → h' = h ++ evs))
      (pushGroup rounds evs t) h := by
  refine Monitor.wp_bind ((wp_pushEvents hfeed t).mono ?_)
  rintro ⟨ok, t'⟩ h' hinv ⟨hrecon, hpushed⟩
  cases ok with
  | false => exact Monitor.wp_pure hinv ⟨hrecon, fun hok => by cases hok⟩
  | true => exact Monitor.wp_pure hinv ⟨hrecon, hpushed⟩

/-! ### Reading -/

/-- A group that is read has the ids and the levels of a delivered diff. -/
theorem wp_readFrame (hinv : ∃ ph, Feed S D h ph) :
    (feedMonitor S D parser params).wp
      (fun r h' => h' = h ∧ ∀ scratch, r = .group scratch →
        ∃ U u us, Group .kDepthDiff U u false us scratch ∧ D U u us)
      (readFrame parser params) h := by
  refine Monitor.wp_bind (wp_silent (fun _ => rfl) hinv fun frame hframe => ?_)
  by_cases hok : frame.status ≠ .kOk
  · rw [if_pos hok]
    exact Monitor.wp_pure hinv ⟨rfl, by rintro _ ⟨⟩⟩
  · rw [if_neg hok]
    refine Monitor.wp_bind (wp_silent (fun _ => rfl) hinv fun now _ => ?_)
    cases hparse : parseDepthDiff parser frame.payload params.filters now with
    | none => exact Monitor.wp_pure hinv ⟨rfl, by rintro _ ⟨⟩⟩
    | some scratch =>
      obtain ⟨d, hread, hgroup⟩ := parseDepthDiff_group hparse
      dsimp only
      split
      · exact Monitor.wp_pure hinv ⟨rfl, by rintro _ ⟨⟩⟩
      · refine Monitor.wp_pure hinv ⟨rfl, ?_⟩
        rintro _ ⟨rfl⟩
        exact ⟨_, _, _, hgroup, hframe (Decidable.not_not.mp hok) d hread⟩

/-- Both read loops begin alike: the stop flag, then a frame. -/
theorem wp_readRound {α : Type} {Q : α → List MarketEvent → Prop} {stopped : MdProg α}
    {go : Reading → MdProg α} (hinv : ∃ ph, Feed S D h ph)
    (hstopped : (feedMonitor S D parser params).wp Q stopped h)
    (hended : (feedMonitor S D parser params).wp Q (go .ended) h)
    (hignored : (feedMonitor S D parser params).wp Q (go .ignored) h)
    (hgroup : ∀ scratch U u us, Group .kDepthDiff U u false us scratch → D U u us →
      (feedMonitor S D parser params).wp Q (go (.group scratch)) h) :
    (feedMonitor S D parser params).wp Q (Md.stopLoad >>= fun stop =>
      if stop = true then stopped else readFrame parser params >>= go) h := by
  refine Monitor.wp_ite (wp_stopLoad hinv) hstopped (Monitor.wp_bind ?_)
  refine (wp_readFrame hinv).mono ?_
  rintro reading h' - ⟨rfl, hread⟩
  cases reading with
  | ended => exact hended
  | ignored => exact hignored
  | group scratch =>
    obtain ⟨U, u, us, hg, hmessage⟩ := hread scratch rfl
    exact hgroup scratch U u us hg hmessage

/-! ### The driver -/

variable (S D) in
/-- The thread waits for the bracket event of the snapshot it pushed last. -/
structure Awaiting (t : MarketDataThread) (h : List MarketEvent) : Prop where
  state : t.recon.state = .kAwaitFirstEvent
  feed : Feed S D h (.await t.recon.snapshotLastId)

variable (S D) in
/-- The thread follows the diffs, the last one it pushed being `prevU`. -/
structure Live (t : MarketDataThread) (h : List MarketEvent) : Prop where
  state : t.recon.state = .kLive
  feed : Feed S D h (.live t.recon.prevU)

/-- `Bootstrap`'s read loop reports `kLive` only after pushing the bracket event. -/
theorem wp_readBracket {t : MarketDataThread} (ht : Awaiting S D t h) :
    (feedMonitor S D parser params).wp (fun r h' => r.1 = some .kLive → Live S D r.2 h')
      (readBracket parser params rounds t) h := by
  refine Monitor.wp_loop (Awaiting S D) ?_ rounds ht
  intro t h ht
  have hinv : ∃ ph, Feed S D h ph := ⟨_, ht.feed⟩
  refine wp_readRound hinv ?_ ?_ ?_ ?_
  · exact Monitor.wp_pure hinv (by rintro ⟨⟩)
  · exact Monitor.wp_pure hinv (by rintro ⟨⟩)
  · exact Monitor.wp_pure hinv ht
  · intro scratch U u us hgroup hmessage
    have hdecided := t.recon.onDiffGroup_decided hgroup.chain
    dsimp only
    generalize t.recon.onDiffGroup scratch = r at hdecided ⊢
    obtain ⟨action, recon⟩ := r
    cases hdecided with
    | needSnapshot idle => exact Monitor.wp_pure hinv (by rintro ⟨⟩)
    | drop await old => exact Monitor.wp_pure hinv ht
    | bracket await after joins =>
      have hfeed := ht.feed.bracket hgroup hmessage after joins
      refine Monitor.wp_bind ((wp_pushGroup hfeed _).mono ?_)
      rintro ⟨ok, t'⟩ h' hinv' ⟨hrecon, hpushed⟩
      refine Monitor.wp_pure hinv' fun hlive => ?_
      cases ok with
      | false => cases hlive
      | true =>
        obtain rfl := hpushed rfl
        exact ⟨by rw [hrecon], by rw [hrecon]; exact hfeed⟩
    | tooOld await after apart => exact Monitor.wp_pure hinv (by rintro ⟨⟩)
    | next live joins => exact Monitor.wp_pure hinv (by rintro ⟨⟩)
    | gap live apart => exact Monitor.wp_pure hinv (by rintro ⟨⟩)

/-- `Bootstrap` may be entered in any state. -/
theorem wp_attempts (left : Nat) (t : MarketDataThread) (hinv : ∃ ph, Feed S D h ph) :
    (feedMonitor S D parser params).wp (fun r h' => r.1 = .kLive → Live S D r.2 h')
      (attempts parser params rounds left t) h := by
  induction left generalizing t h with
  | zero => exact Monitor.wp_pure hinv (by rintro ⟨⟩)
  | succ left ih =>
    refine Monitor.wp_ite (wp_stopLoad hinv) (Monitor.wp_pure hinv (by rintro ⟨⟩)) ?_
    refine Monitor.wp_bind (wp_silent (fun _ => rfl) hinv fun body hbody => ?_)
    cases body with
    | none => exact Monitor.wp_pure hinv (by rintro ⟨⟩)
    | some json =>
      dsimp only
      cases hparse : parseDepthSnapshot parser json params.filters with
      | none => exact Monitor.wp_pure hinv (by rintro ⟨⟩)
      | some snap =>
        refine Monitor.wp_bind (wp_silent (fun _ => rfl) hinv fun now _ => ?_)
        obtain ⟨ph, hfeed⟩ := hinv
        have hsnap := hfeed.snapshot (t.recon.onSnapshot_group snap now)
          (hbody json rfl snap hparse)
        refine Monitor.wp_bind ((wp_pushGroup hsnap _).mono ?_)
        rintro ⟨ok, t'⟩ h' hinv' ⟨hrecon, hpushed⟩
        cases ok with
        | false => exact Monitor.wp_pure hinv' (by rintro ⟨⟩)
        | true =>
          obtain rfl := hpushed rfl
          have hawait : Awaiting S D t' _ := ⟨by rw [hrecon]; rfl, by rw [hrecon]; exact hsnap⟩
          refine Monitor.wp_bind ((wp_readBracket hawait).mono ?_)
          rintro ⟨result, t''⟩ h'' hinv'' hlive
          cases result with
          | some result => exact Monitor.wp_pure hinv'' fun he => hlive (congrArg some he)
          | none =>
            exact Monitor.wp_ite (wp_stopLoad hinv'') (Monitor.wp_pure hinv'' (by rintro ⟨⟩))
              (ih t'' hinv'')

/-- `RunLive` pushes only what continues the feed. -/
theorem wp_runLive {t : MarketDataThread} (ht : Live S D t h) :
    (feedMonitor S D parser params).wp (fun _ _ => True) (runLive parser params rounds t) h := by
  refine Monitor.wp_loop (Live S D) ?_ rounds ht
  intro t h ht
  have hinv : ∃ ph, Feed S D h ph := ⟨_, ht.feed⟩
  refine wp_readRound hinv ?_ ?_ ?_ ?_
  · exact Monitor.wp_pure hinv trivial
  · exact Monitor.wp_pure hinv trivial
  · exact Monitor.wp_pure hinv ht
  · intro scratch U u us hgroup hmessage
    have hdecided := t.recon.onDiffGroup_decided hgroup.chain
    dsimp only
    generalize t.recon.onDiffGroup scratch = r at hdecided ⊢
    obtain ⟨action, recon⟩ := r
    cases hdecided with
    | next live joins =>
      have hfeed := ht.feed.next hgroup hmessage joins
      refine Monitor.wp_bind ((wp_pushGroup hfeed _).mono ?_)
      rintro ⟨ok, t'⟩ h' hinv' ⟨hrecon, hpushed⟩
      cases ok with
      | false => exact Monitor.wp_pure hinv' trivial
      | true =>
        obtain rfl := hpushed rfl
        exact Monitor.wp_pure hinv' ⟨by rw [hrecon]; exact live, by rw [hrecon]; exact hfeed⟩
    | gap live apart => exact Monitor.wp_pure hinv trivial
    -- the reconstructor is live, so it gives no other answer
    | needSnapshot idle => exact absurd (ht.state.symm.trans idle) (by decide)
    | drop await old => exact absurd (ht.state.symm.trans await) (by decide)
    | bracket await after joins => exact absurd (ht.state.symm.trans await) (by decide)
    | tooOld await after apart => exact absurd (ht.state.symm.trans await) (by decide)

theorem wp_reconnect (t : MarketDataThread) (hinv : ∃ ph, Feed S D h ph) :
    (feedMonitor S D parser params).wp (fun _ _ => True) (reconnect t) h := by
  refine Monitor.wp_bind (wp_silent (fun _ => rfl) hinv fun _ _ => ?_)
  refine Monitor.wp_bind (wp_silent (fun _ => rfl) hinv fun _ _ => ?_)
  exact Monitor.wp_pure hinv trivial

theorem wp_connectedRound (t : MarketDataThread) (hinv : ∃ ph, Feed S D h ph) :
    (feedMonitor S D parser params).wp (fun _ _ => True)
      (connectedRound parser params rounds t) h := by
  refine Monitor.wp_bind ((wp_attempts _ t hinv).mono ?_)
  rintro ⟨result, t'⟩ h' hinv' hlive
  have hreconnect : ∀ t : MarketDataThread, ∀ h, (∃ ph, Feed S D h ph) →
      (feedMonitor S D parser params).wp (fun _ _ => True)
        (do let t ← reconnect t; pure (.inl (false, t)) :
          MdProg ((Bool × MarketDataThread) ⊕ MarketDataThread)) h := fun t h hinv =>
    Monitor.wp_bind ((wp_reconnect t hinv).mono fun _ _ hinv _ => Monitor.wp_pure hinv trivial)
  cases result with
  | kStopped => exact Monitor.wp_pure hinv' trivial
  | kSnapshotTooOld => exact hreconnect t' h' hinv'
  | kError => exact hreconnect t' h' hinv'
  | kLive =>
    refine Monitor.wp_bind ((wp_runLive (hlive rfl)).mono ?_)
    rintro ⟨gap, t''⟩ h'' hinv'' -
    refine Monitor.wp_ite (wp_stopLoad hinv'') (Monitor.wp_pure hinv'' trivial) ?_
    cases gap with
    | true => exact Monitor.wp_pure hinv'' trivial
    | false => exact hreconnect _ h'' hinv''

theorem wp_runLoop (t : MarketDataThread) (hinv : ∃ ph, Feed S D h ph) :
    (feedMonitor S D parser params).wp (fun _ _ => True) (runLoop parser params rounds t) h := by
  -- a round needs no more than that what has been pushed is a feed
  refine Monitor.wp_loop (fun _ h => ∃ ph, Feed S D h ph) ?_ rounds hinv
  rintro ⟨connected, t⟩ h hinv
  have hround : (feedMonitor S D parser params).wp
      (Monitor.turn (fun _ h => ∃ ph, Feed S D h ph) fun _ _ => True)
      (connectedRound parser params rounds t) h := by
    refine (wp_connectedRound t hinv).mono ?_
    rintro (s | t) h hinv -
    · exact hinv
    · trivial
  refine Monitor.wp_ite (wp_stopLoad hinv) (Monitor.wp_pure hinv trivial) ?_
  cases connected with
  | true => exact hround
  | false =>
    refine Monitor.wp_ite (wp_silent (fun _ => rfl) hinv fun _ _ => rfl) hround ?_
    refine Monitor.wp_bind (wp_silent (fun _ => rfl) hinv fun _ _ => ?_)
    exact Monitor.wp_pure hinv hinv

theorem wp_run (t : MarketDataThread) (hinv : ∃ ph, Feed S D h ph) :
    (feedMonitor S D parser params).wp (fun _ _ => True) (run parser params rounds t) h := by
  refine Monitor.wp_bind ((wp_runLoop t hinv).mono fun t h hinv _ => ?_)
  exact Monitor.wp_bind (wp_silent (fun _ => rfl) hinv fun _ _ => Monitor.wp_pure hinv trivial)

/-- **What the thread pushes is a feed**, for every behaviour of the transports, the clock,
the queue and the stop flag, from any state of the thread and at every moment. -/
theorem run_feed (rounds : Nat) (t : MarketDataThread)
    (answers : Nat → (c : MdCall) → MdCall.Answer c)
    (hdeliver : ∀ i c, Delivers S D parser params c (answers i c)) (calls : Nat) :
    ∃ ph, Feed S D (((run parser params rounds t).exec answers calls).flatMap
      fun x => pushed x.1 x.2) ph :=
  Monitor.wp_exec (wp_run t ⟨_, .start⟩) answers hdeliver calls

end Refinement
end MarketDataThread

/-! ## The engine's verifier -/

namespace GapVerifier

/-- Every check along the events returns true. -/
abbrev Accepts : GapVerifier → List MarketEvent → Prop :=
  Guarded step fun v ev => (v.check ev).2 = true

/-- What the verifier remembers between groups. -/
structure Agrees (v : GapVerifier) (live : Bool) : Prop where
  haveSnapshot : v.haveSnapshot = true
  live_eq : v.live = live
  between : v.prevContinuation = false

/-- The verifier's state matches what may follow. -/
def Matches (v : GapVerifier) : Phase → Prop
  | .idle => True
  | .await lastId => v.Agrees false ∧ v.snapshotLastId = lastId
  | .live prevU => v.Agrees true ∧ v.prevU = prevU

variable {v : GapVerifier} {ev : MarketEvent} {U u : UInt64} {starts cont : Bool}

theorem check_snapshot (hfrag : Fragment .kSnapshot U u starts cont ev) :
    (v.check ev).2 = true ∧ (v.step ev).prevContinuation = cont ∧
    (starts = true ∨ v.haveSnapshot = true ∧ v.live = false ∧ v.snapshotLastId = u →
      (v.step ev).haveSnapshot = true ∧ (v.step ev).live = false ∧
        (v.step ev).snapshotLastId = u) := by
  obtain ⟨hkind, -, hfinal, hstarts, hcont⟩ := hfrag
  unfold step check
  dsimp only
  rw [if_pos hkind, hstarts, hcont, hfinal]
  cases starts with
  | true => exact ⟨rfl, rfl, fun _ => ⟨rfl, rfl, rfl⟩⟩
  | false => exact ⟨rfl, rfl, fun h => h.resolve_left Bool.false_ne_true⟩

theorem check_diff (hfrag : Fragment .kDepthDiff U u starts cont ev)
    (hverdict : v.verdict ev = (true, true)) :
    (v.check ev).2 = true ∧ (v.step ev).haveSnapshot = v.haveSnapshot ∧
    (v.step ev).live = true ∧ (v.step ev).prevContinuation = cont ∧
    (cont = false → (v.step ev).prevU = u) := by
  obtain ⟨hkind, -, hfinal, -, hcont⟩ := hfrag
  have hdiff : ev.kind ≠ .kSnapshot := by rw [hkind]; decide
  have hsame : ({ v with eventsChecked := v.eventsChecked + 1 } : GapVerifier).verdict ev
      = (true, true) := hverdict
  unfold step check
  dsimp only
  rw [if_neg hdiff, hsame, hcont, hfinal]
  refine ⟨rfl, rfl, rfl, rfl, ?_⟩
  rintro rfl
  rfl

variable {evs : List MarketEvent} {whole : Bool}

/-- A snapshot is accepted in any state. -/
theorem accepts_snapshot (hc : FragmentChain .kSnapshot U u whole evs)
    (hv : (∀ ev ∈ evs.head?, ev.startsSnapshot = true) ∨
      v.haveSnapshot = true ∧ v.live = false ∧ v.snapshotLastId = u) :
    v.Accepts evs ∧ (whole = true → (run step v evs).Matches (.await u)) := by
  induction hc generalizing v with
  | last frag =>
    obtain ⟨hok, hbetween, hstate⟩ := check_snapshot frag
    obtain ⟨hsnap, hlive, hlast⟩ :=
      hstate (hv.imp_left fun h => frag.starts_eq.symm.trans (h _ rfl))
    refine ⟨⟨hok, trivial⟩, fun hwhole => ⟨⟨hsnap, hlive, ?_⟩, hlast⟩⟩
    exact hbetween.trans (by simpa using hwhole)
  | more frag rest ih =>
    obtain ⟨hok, -, hstate⟩ := check_snapshot frag
    obtain ⟨hrest, hmatches⟩ :=
      ih (Or.inr (hstate (hv.imp_left fun h => frag.starts_eq.symm.trans (h _ rfl))))
    exact ⟨⟨hok, hrest⟩, hmatches⟩

/-- A diff group is accepted if its first fragment is: the rest is not looked at. -/
theorem accepts_diff (hc : FragmentChain .kDepthDiff U u whole evs) (hsnap : v.haveSnapshot = true)
    (hverdict : ∀ ev, ev.firstUpdateId = U → ev.finalUpdateId = u →
      v.verdict ev = (true, true)) :
    v.Accepts evs ∧ (whole = true → (run step v evs).Matches (.live u)) := by
  induction hc generalizing v with
  | last frag =>
    obtain ⟨hok, hsnap', hlive, hbetween, hprev⟩ :=
      check_diff frag (hverdict _ frag.firstId_eq frag.finalId_eq)
    refine ⟨⟨hok, trivial⟩, fun hwhole => ?_⟩
    rw [Bool.not_eq_true'] at hwhole
    exact ⟨⟨hsnap'.trans hsnap, hlive, hbetween.trans hwhole⟩, hprev hwhole⟩
  | more frag rest ih =>
    obtain ⟨hok, hsnap', hlive, hcont, -⟩ :=
      check_diff frag (hverdict _ frag.firstId_eq frag.finalId_eq)
    obtain ⟨hrest, hmatches⟩ := ih (hsnap'.trans hsnap) fun ev _ _ => by
      rw [verdict, if_pos hcont, hlive]
    exact ⟨⟨hok, hrest⟩, hmatches⟩

/-- Between groups the verifier lets through what may follow. -/
theorem verdict_of_admits {ph : Phase} (hv : v.Matches ph)
    (h : ph.Admits ev.firstUpdateId ev.finalUpdateId) : v.verdict ev = (true, true) := by
  cases ph with
  | idle => exact h.elim
  | await lastId =>
    obtain ⟨⟨hsnap, hlive, hbetween⟩, rfl⟩ := hv
    simp [verdict, hsnap, hlive, hbetween, h.1, h.2]
  | live prevU =>
    obtain ⟨⟨hsnap, hlive, hbetween⟩, rfl⟩ := hv
    have hjoins : ev.firstUpdateId = v.prevU + 1 := h
    simp [verdict, hsnap, hlive, hbetween, hjoins]

/-- And nothing else. -/
theorem admits_of_verdict {ph : Phase} (hv : v.Matches ph) (hph : ph ≠ .idle)
    (hok : (v.verdict ev).1 = true) : ph.Admits ev.firstUpdateId ev.finalUpdateId := by
  cases ph with
  | idle => exact absurd rfl hph
  | await lastId =>
    obtain ⟨⟨hsnap, hlive, hbetween⟩, rfl⟩ := hv
    refine Decidable.byContradiction fun hnot => ?_
    rw [Phase.Admits] at hnot
    simp [verdict, hsnap, hlive, hbetween, hnot] at hok
  | live prevU =>
    obtain ⟨⟨hsnap, hlive, hbetween⟩, rfl⟩ := hv
    refine Decidable.byContradiction fun hnot => ?_
    rw [Phase.Admits] at hnot
    simp [verdict, hsnap, hlive, hbetween, hnot] at hok

/-- A group that may follow is accepted. -/
theorem accepts_admitted {ph : Phase} (hc : FragmentChain .kDepthDiff U u whole evs)
    (hv : v.Matches ph) (h : ph.Admits U u) :
    v.Accepts evs ∧ (whole = true → (run step v evs).Matches (.live u)) := by
  have hsnap : v.haveSnapshot = true := by
    cases ph with
    | idle => exact h.elim
    | await lastId => exact hv.1.haveSnapshot
    | live prevU => exact hv.1.haveSnapshot
  refine accepts_diff hc hsnap fun ev hU hu => verdict_of_admits hv ?_
  rwa [hU, hu]

/-- A successor that is reached does not wrap. -/
theorem succ_le_of_lt {lastId : UInt64} (h : lastId < u) : lastId + 1 ≤ u := by
  have hbound := u.toNat_lt
  rw [UInt64.lt_iff_toNat_lt] at h
  rw [UInt64.le_iff_toNat_le, UInt64.toNat_add, UInt64.toNat_one, Nat.mod_eq_of_lt (by omega)]
  omega

/-- Accepting a group after what was accepted before. -/
theorem Accepts.append {h : List MarketEvent} {ph : Phase} (hbefore : v.Accepts h)
    (hgroup : (run step v h).Accepts evs ∧ (run step (run step v h) evs).Matches ph) :
    v.Accepts (h ++ evs) ∧ (run step v (h ++ evs)).Matches ph := by
  rw [run_append]
  exact ⟨(guarded_append step).mpr ⟨hbefore, hgroup.1⟩, hgroup.2⟩

/-- **Every feed is accepted**, and the verifier's state says the same about what may
follow as the feed. -/
theorem accepts_feed {S : UInt64 → List L2Book.LevelUpdate → Prop}
    {D : UInt64 → UInt64 → List L2Book.LevelUpdate → Prop} {h : List MarketEvent} {ph : Phase}
    (hfeed : Feed S D h ph) : fresh.Accepts h ∧ (run step fresh h).Matches ph := by
  induction hfeed with
  | start => exact ⟨trivial, trivial⟩
  | snapshot before group message ih =>
    obtain ⟨haccepts, hmatches⟩ := accepts_snapshot group.chain (Or.inl group.head_starts)
    exact ih.1.append ⟨haccepts, hmatches rfl⟩
  | bracket before group message after joins ih =>
    obtain ⟨haccepts, hmatches⟩ := accepts_admitted group.chain ih.2 ⟨joins, succ_le_of_lt after⟩
    exact ih.1.append ⟨haccepts, hmatches rfl⟩
  | next before group message joins ih =>
    obtain ⟨haccepts, hmatches⟩ := accepts_admitted group.chain ih.2 joins
    exact ih.1.append ⟨haccepts, hmatches rfl⟩
  | cut whole ih =>
    obtain ⟨haccepts, -⟩ := ih
    exact ⟨(guarded_append step).mp haccepts |>.1, trivial⟩

end GapVerifier

namespace MarketDataThread

/-- **The redundant verifier never fires.**  Whatever the transports deliver (any frames
and snapshots with any `u64` ids, failures, reconnects) and whenever the thread is
stopped, at every moment of `Run`: a fresh `GapVerifier` fed the events pushed so far
returns true on each of them, and has counted no gap. -/
theorem verifier_never_fires (parser : String → Option Dom) (params : MarketDataParams)
    (rounds : Nat) (t : MarketDataThread) (answers : Nat → (c : MdCall) → MdCall.Answer c)
    (calls : Nat) :
    let events := ((run parser params rounds t).exec answers calls).flatMap
      fun x => pushed x.1 x.2
    Guarded GapVerifier.step (fun v ev => (v.check ev).2 = true) GapVerifier.fresh events ∧
    (Runs.run GapVerifier.step GapVerifier.fresh events).undetectedGaps = 0 := by
  intro events
  obtain ⟨ph, hfeed⟩ : ∃ ph, Feed (fun _ _ => True) (fun _ _ _ => True) events ph :=
    run_feed rounds t answers (fun i c => by cases c <;> simp [Delivers]) calls
  obtain ⟨haccepts, -⟩ := GapVerifier.accepts_feed hfeed
  refine ⟨haccepts, ?_⟩
  exact haccepts.invariant (I := fun v => v.undetectedGaps = 0)
    (fun v ev hv hok => (GapVerifier.undetectedGaps_step hok).trans hv) rfl

end MarketDataThread
end Asmm
