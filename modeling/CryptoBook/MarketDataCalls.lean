import CryptoBook.Relay

/-! # The calls of the market-data thread

`Relay` watches the thread through what it receives and pushes, until it is stopped.  Here it
is watched to its end, and through everything it does to its surroundings: the websocket, the
REST client and the queue (`Signal`).

The websocket has a protocol that `IWsTransport` states nowhere and the Beast client relies
on: no `Connect` while a connection is open, no `Read` without one.  `Wire` is that protocol
as a machine, and the thread never misuses it, whatever it is answered and whenever it is
stopped.  Snapshots are fetched and events pushed only while a connection is open too, and
the connection is closed when `Run` returns.  A gap tears the stream: after a diff that does
not join the one before, nothing is read or pushed until a new snapshot has been asked for.

The counters are the only account of a run that is left at shutdown.  `Tally` says what they
count: each is the number of calls of one kind, and a group that was broken off because the
thread was stopped in front of a full queue is the only thing missing.  The gaps counted are
the gaps there were, and all but the last of them were followed by a fetch. -/
namespace Asmm
open Interaction

namespace MarketDataThread

/-! ## Signals -/

/-- What a call does to the surroundings.  Of a frame the ids of the diff in it are noted, of a
body the id of the snapshot, if there is one. -/
inductive Signal where
  | connected
  | refused
  | read (ids : Option (UInt64 × UInt64))
  | fetched (lastId : Option UInt64)
  | pushed (ev : MarketEvent)
  | full
  | closed

namespace Signal

def isPushed : Signal → Bool
  | .pushed _ => true
  | _ => false

def isFull : Signal → Bool
  | .full => true
  | _ => false

def isClosed : Signal → Bool
  | .closed => true
  | _ => false

def isFetched : Signal → Bool
  | .fetched _ => true
  | _ => false

/-- A fetch that brought a snapshot. -/
def isSnapshot : Signal → Bool
  | .fetched (some _) => true
  | _ => false

end Signal

/-- The signal of an answered call.  The stop flag, the clock and sleeping leave no trace. -/
def signals (parser : String → Option Dom) (params : MarketDataParams) :
    (c : MdCall) → MdCall.Answer c → List Signal
  | .stopLoad, _ => []
  | .connect _ _, ok => if ok = true then [.connected] else [.refused]
  | .read, frame => [.read (if frame.status = .kOk then
      (readDepthDiff parser frame.payload params.filters).map fun d => (d.firstId, d.finalId)
      else none)]
  | .close, _ => [.closed]
  | .get _ _, body => [.fetched ((body.bind fun json =>
      parseDepthSnapshot parser json params.filters).map DepthSnapshot.lastUpdateId)]
  | .nowNs, _ => []
  | .tryPush ev, ok => if ok = true then [.pushed ev] else [.full]
  | .sleepMs, _ => []

theorem pushed_signal {parser : String → Option Dom} {params : MarketDataParams} {c : MdCall}
    {x : MdCall.Answer c} {ev : MarketEvent} (hev : ev ∈ MarketDataThread.pushed c x) :
    .pushed ev ∈ signals parser params c x := by
  cases c with
  | tryPush ev' =>
    cases x with
    | true => rw [List.mem_singleton.mp hev]; exact List.mem_singleton_self _
    | false => cases hev
  | _ => cases hev

/-- The connection, as the thread has to treat it: shut, open with a stream in some phase, or
open with the stream torn by a gap. -/
inductive Wire where
  | shut
  | opened (ph : Phase)
  | torn
  | misused
  deriving DecidableEq

/-- A diff on an open connection: the stream goes on as the rule says, and one that does not
join a live stream tears it. -/
def Wire.hear : Phase → UInt64 → UInt64 → Wire
  | .live prevU, U, u => if U = prevU + 1 then .opened (.live u) else .torn
  | ph, U, u => .opened (ph.take (.diff U u [])).1

/-- Closing is allowed at any time; everything else needs the connection to be shut, or to be
open.  On a torn stream only a fetch is allowed. -/
def Wire.step : Wire → Signal → Wire
  | .shut, .connected => .opened .idle
  | .shut, .refused => .shut
  | .opened ph, .read none => .opened ph
  | .opened ph, .read (some (U, u)) => .hear ph U u
  | .opened ph, .pushed _ | .opened ph, .full => .opened ph
  | .opened _, .fetched none | .torn, .fetched none => .opened .idle
  | .opened _, .fetched (some lastId) | .torn, .fetched (some lastId) => .opened (.await lastId)
  | .shut, .closed | .opened _, .closed | .torn, .closed => .shut
  | _, _ => .misused

/-- The connection, the gaps so far, and the fetches that followed one. -/
structure Trail where
  wire : Wire
  gaps : Nat
  refetched : Nat

def Trail.step (tr : Trail) (x : Signal) : Trail where
  wire := tr.wire.step x
  gaps := if tr.wire.step x = .torn then tr.gaps + 1 else tr.gaps
  refetched := if tr.wire = .torn ∧ x.isFetched = true then tr.refetched + 1 else tr.refetched

/-- The trail of some signals. -/
def trail (h : List Signal) : Trail := h.foldl Trail.step ⟨.shut, 0, 0⟩

theorem trail_concat (h : List Signal) (x : Signal) : trail (h ++ [x]) = (trail h).step x :=
  List.foldl_append

section Calls
variable (P : MarketEvent → Prop) (parser : String → Option Dom) (params : MarketDataParams)

/-- The answers under which every parsed message is made of events with `P`. -/
def Supplies : (c : MdCall) → MdCall.Answer c → Prop
  | .get _ _, body => ∀ json, body = some json →
      ∀ snap, parseDepthSnapshot parser json params.filters = some snap →
        ∀ (r : Reconstructor) now, ∀ ev ∈ (r.onSnapshot snap now).2, P ev
  | .read, frame => frame.status = .kOk →
      ∀ now scratch, parseDepthDiff parser frame.payload params.filters now = some scratch →
        ∀ ev ∈ scratch, P ev
  | _, _ => True

/-- The thread watched through its signals. -/
def callMonitor : Monitor MdCall MdCall.Answer Signal where
  emit := signals parser params
  admits := Supplies P parser params
  inv h := (trail h).wire ≠ .misused ∧ (trail h).gaps ≤ (trail h).refetched + 1 ∧
    ∀ ev, .pushed ev ∈ h → P ev

/-- A moment with the given trail. -/
structure At (tr : Trail) (h : List Signal) : Prop where
  trail_eq : trail h = tr
  proper : tr.wire ≠ .misused
  mended : tr.gaps ≤ tr.refetched + 1
  pushed : ∀ ev, .pushed ev ∈ h → P ev

/-- The counters are those of the calls. -/
structure Tally (c : MdCounters) (h : List Signal) : Prop where
  spins : c.queueFullSpins = h.countP Signal.isFull
  closes : c.wsReconnects = h.countP Signal.isClosed
  fetched : c.snapshotsFetched = h.countP Signal.isSnapshot
  emitted_le : c.eventsEmitted ≤ h.countP Signal.isPushed
  emitted_eq : c.queueFullSpins = 0 → c.eventsEmitted = h.countP Signal.isPushed
  tooOld : c.snapshotTooOld ≤ c.snapshotsFetched

variable {P parser params} {rounds : Nat} {h : List Signal} {tr : Trail} {ph : Phase} {g : Nat}

/-- Gaps and resyncs are not calls. -/
theorem Tally.recount {c : MdCounters} (hc : Tally c h) (gaps resyncs : Nat) :
    Tally { c with gapsDetected := gaps, resyncs := resyncs } h :=
  ⟨hc.spins, hc.closes, hc.fetched, hc.emitted_le, hc.emitted_eq, hc.tooOld⟩

theorem At.inv (hat : At P tr h) : (callMonitor P parser params).inv h := by
  obtain ⟨rfl, hproper, hmended, hpushed⟩ := hat
  exact ⟨hproper, hmended, hpushed⟩

/-- A signal that pushes nothing only moves the trail. -/
theorem At.signal {tr' : Trail} (hat : At P tr h) {x : Signal} (hx : x.isPushed = false)
    (hstep : tr.step x = tr') (hproper : tr'.wire ≠ .misused)
    (hmended : tr'.gaps ≤ tr'.refetched + 1) : At P tr' (h ++ [x]) := by
  refine ⟨by rw [trail_concat, hat.trail_eq, hstep], hproper, hmended, fun ev hev => ?_⟩
  rcases List.mem_append.mp hev with hev | hev
  · exact hat.pushed ev hev
  · obtain rfl := List.mem_singleton.mp hev
    cases hx

/-- Everything has been mended, and the connection is open. -/
abbrev Flows (P : MarketEvent → Prop) (ph : Phase) (g : Nat) (h : List Signal) : Prop :=
  At P ⟨.opened ph, g, g⟩ h

/-- A signal on an open connection that leaves the stream in one piece. -/
theorem At.flow (hat : Flows P ph g h) {x : Signal} (hx : x.isPushed = false) {ph' : Phase}
    (hstep : (Wire.opened ph).step x = .opened ph') : Flows P ph' g (h ++ [x]) := by
  refine At.signal hat hx ?_ (by rintro ⟨⟩) (Nat.le_succ g)
  simp [Trail.step, hstep]

theorem At.push (hat : Flows P ph g h) {ev : MarketEvent} (hev : P ev) :
    Flows P ph g (h ++ [.pushed ev]) := by
  refine ⟨?_, by rintro ⟨⟩, Nat.le_succ g, fun ev' hev' => ?_⟩
  · rw [trail_concat, hat.trail_eq]
    simp [Trail.step, Wire.step]
  · rcases List.mem_append.mp hev' with hev' | hev'
    · exact hat.pushed ev' hev'
    · cases List.mem_singleton.mp hev'
      exact hev

/-- Closing the connection. -/
theorem At.close (hat : At P tr h) : At P ⟨.shut, tr.gaps, tr.refetched⟩ (h ++ [.closed]) := by
  have hshut : tr.wire.step .closed = .shut := by
    cases hwire : tr.wire with
    | misused => exact absurd hwire hat.proper
    | shut | opened | torn => rfl
  refine hat.signal rfl ?_ (by rintro ⟨⟩) hat.mended
  simp [Trail.step, hshut, Signal.isFetched]

/-- A call without a signal. -/
theorem wp_traceless {c : MdCall} {Q : MdCall.Answer c → List Signal → Prop}
    (hsilent : ∀ x, signals parser params c x = []) (hat : At P tr h)
    (hQ : ∀ x, Supplies P parser params c x → Q x h) :
    (callMonitor P parser params).wp Q (Prog.perform c) h :=
  Monitor.wp_perform_silent hsilent hat.inv hQ

/-- Branching on the stop flag. -/
theorem wp_unlessStopped {α : Type} {Q : α → List Signal → Prop} {p q : MdProg α}
    (hat : At P tr h)
    (hp : (callMonitor P parser params).wp Q p h) (hq : (callMonitor P parser params).wp Q q h) :
    (callMonitor P parser params).wp Q (Md.stopLoad >>= fun stop => if stop = true then p else q)
      h :=
  Monitor.wp_ite (wp_traceless (fun _ => rfl) hat fun _ _ => rfl) hp hq

/-- The counters that a signal other than a push calls for. -/
def counted (c : MdCounters) (x : Signal) : MdCounters :=
  { c with
    queueFullSpins := c.queueFullSpins + x.isFull.toNat
    wsReconnects := c.wsReconnects + x.isClosed.toNat
    snapshotsFetched := c.snapshotsFetched + x.isSnapshot.toNat }

theorem Tally.signal {c : MdCounters} (hc : Tally c h) {x : Signal} (hx : x.isPushed = false) :
    Tally (counted c x) (h ++ [x]) := by
  have hcount : ∀ f : Signal → Bool, (h ++ [x]).countP f = h.countP f + (f x).toNat := by
    intro f
    cases hf : f x <;> simp [hf]
  have hpushes : (h ++ [x]).countP Signal.isPushed = h.countP Signal.isPushed := by
    rw [hcount, hx]
    rfl
  refine ⟨?_, ?_, ?_, ?_, fun hnone => ?_, ?_⟩
  · rw [hcount, ← hc.spins]
    rfl
  · rw [hcount, ← hc.closes]
    rfl
  · rw [hcount, ← hc.fetched]
    rfl
  · rw [hpushes]
    exact hc.emitted_le
  · rw [hpushes]
    exact hc.emitted_eq (Nat.eq_zero_of_add_eq_zero_right hnone)
  · exact Nat.le_add_right_of_le hc.tooOld

/-! ## Pushing -/

/-- The signals of pushing: `done` events went in, and the queue was full `spins` times. -/
structure Pushing (P : MarketEvent → Prop) (done spins : Nat) (added : List Signal) : Prop where
  kinds : ∀ x ∈ added, x = .full ∨ ∃ ev, x = .pushed ev ∧ P ev
  full : added.countP Signal.isFull = spins
  pushed : added.countP Signal.isPushed = done

namespace Pushing
variable {done done' spins spins' : Nat} {added added' : List Signal}

theorem append (ha : Pushing P done spins added) (hb : Pushing P done' spins' added') :
    Pushing P (done + done') (spins + spins') (added ++ added') := by
  refine ⟨fun x hx => ?_, ?_, ?_⟩
  · exact (List.mem_append.mp hx).elim (ha.kinds x) (hb.kinds x)
  · rw [List.countP_append, ha.full, hb.full]
  · rw [List.countP_append, ha.pushed, hb.pushed]

/-- Pushing needs the connection open and leaves the stream as it is. -/
theorem flows (ha : Pushing P done spins added) (hat : Flows P ph g h) :
    Flows P ph g (h ++ added) := by
  have hkinds := ha.kinds
  clear ha
  induction added generalizing h with
  | nil => rwa [List.append_nil]
  | cons x added ih =>
    rw [← List.singleton_append, ← List.append_assoc]
    refine ih ?_ fun y hy => hkinds y (List.mem_cons_of_mem _ hy)
    rcases hkinds x List.mem_cons_self with rfl | ⟨ev, rfl, hev⟩
    · exact hat.flow (x := .full) rfl rfl
    · exact hat.push hev

/-- Pushing neither closes the connection nor fetches anything. -/
theorem others (ha : Pushing P done spins added) :
    added.countP Signal.isClosed = 0 ∧ added.countP Signal.isSnapshot = 0 := by
  rw [List.countP_eq_zero, List.countP_eq_zero]
  constructor <;> intro x hx <;> rcases ha.kinds x hx with rfl | ⟨ev, rfl, -⟩ <;>
    exact Bool.false_ne_true

/-- The counters after a push that counted `emitted` events. -/
theorem tally (ha : Pushing P done spins added) {c : MdCounters} (hc : Tally c h)
    {emitted : Nat} (hle : emitted ≤ done) (heq : spins = 0 → emitted = done) :
    Tally
      { c with
        queueFullSpins := c.queueFullSpins + spins
        eventsEmitted := c.eventsEmitted + emitted } (h ++ added) := by
  obtain ⟨hclosed, hfetched⟩ := ha.others
  constructor
  · rw [List.countP_append, ha.full, ← hc.spins]
  · rw [List.countP_append, hclosed]
    exact hc.closes
  · rw [List.countP_append, hfetched]
    exact hc.fetched
  · rw [List.countP_append, ha.pushed]
    exact Nat.add_le_add hc.emitted_le hle
  · intro hnone
    obtain ⟨hbefore, hspins⟩ := Nat.eq_zero_of_add_eq_zero hnone
    rw [List.countP_append, ha.pushed, ← hc.emitted_eq hbefore, heq hspins]
  · exact hc.tooOld

end Pushing

theorem wp_pushEvent_signals (hat : Flows P ph g h) {ev : MarketEvent} (hev : P ev)
    (t : MarketDataThread) :
    (callMonitor P parser params).wp
      (fun r h' => ∃ spins added, h' = h ++ added ∧
        Pushing P (if r.1 = true then 1 else 0) spins added ∧
        r.2 = { t with
          counters := { t.counters with queueFullSpins := t.counters.queueFullSpins + spins } } ∧
        (r.1 = false → 0 < spins))
      (pushEvent rounds ev t) h := by
  -- so far the queue has been full every time
  refine Monitor.wp_loop (fun t' h' => ∃ spins, h' = h ++ List.replicate spins .full ∧
    t' = { t with
      counters := { t.counters with queueFullSpins := t.counters.queueFullSpins + spins } })
    ?_ rounds ⟨0, (List.append_nil h).symm, rfl⟩
  rintro t' h' ⟨spins, rfl, rfl⟩
  have hspun : ∀ n, Pushing P 0 n (List.replicate n .full) := fun n => by
    refine ⟨fun x hx => .inl (List.eq_of_mem_replicate hx), ?_, ?_⟩ <;>
      simp [List.countP_replicate, Signal.isFull, Signal.isPushed]
  have hopen := (hspun spins).flows hat
  refine Monitor.wp_bind (Monitor.wp_perform hopen.inv fun ok _ => ?_)
  cases ok with
  | true =>
    have hpushed : Pushing P 1 0 [.pushed ev] := by
      refine ⟨fun x hx => .inr ⟨ev, List.mem_singleton.mp hx, hev⟩, rfl, rfl⟩
    refine ⟨(hopen.push hev).inv, Monitor.wp_pure (hopen.push hev).inv ?_⟩
    refine ⟨spins, _, List.append_assoc .., ?_, rfl, by rintro ⟨⟩⟩
    have hboth := (hspun spins).append hpushed
    rwa [Nat.zero_add, Nat.add_zero] at hboth
  | false =>
    have hmore : h ++ List.replicate spins .full ++ [Signal.full] =
        h ++ List.replicate (spins + 1) .full := by
      rw [List.append_assoc, List.replicate_succ']
    have hopen' := (hspun (spins + 1)).flows hat
    have hemit : (callMonitor P parser params).emit (.tryPush ev) false = [.full] := rfl
    rw [hemit, hmore]
    refine ⟨hopen'.inv, wp_unlessStopped hopen' ?_ ?_⟩
    · exact Monitor.wp_pure hopen'.inv
        ⟨spins + 1, _, rfl, hspun _, rfl, fun _ => Nat.succ_pos _⟩
    · exact Monitor.wp_pure hopen'.inv ⟨spins + 1, rfl, rfl⟩

theorem wp_pushEvents_signals {evs : List MarketEvent} (hat : Flows P ph g h)
    (hevs : ∀ ev ∈ evs, P ev) (t : MarketDataThread) :
    (callMonitor P parser params).wp
      (fun r h' => ∃ done spins added, h' = h ++ added ∧ Pushing P done spins added ∧
        r.2 = { t with
          counters := { t.counters with queueFullSpins := t.counters.queueFullSpins + spins } } ∧
        (r.1 = true → done = evs.length) ∧ (r.1 = false → 0 < spins))
      (pushEvents rounds evs t) h := by
  induction evs generalizing h t with
  | nil =>
    refine Monitor.wp_pure hat.inv ⟨0, 0, [], (List.append_nil h).symm, ?_, rfl, ?_⟩
    · exact ⟨by rintro _ ⟨⟩, rfl, rfl⟩
    · exact ⟨fun _ => rfl, by rintro ⟨⟩⟩
  | cons ev evs ih =>
    refine Monitor.wp_bind ((wp_pushEvent_signals hat (hevs ev List.mem_cons_self) t).mono ?_)
    rintro ⟨ok, t'⟩ h' hinv ⟨spins, added, rfl, hpushing, hmembers, hfull⟩
    dsimp only at hmembers
    cases ok with
    | false =>
      exact Monitor.wp_pure hinv
        ⟨0, spins, added, rfl, hpushing, hmembers, by rintro ⟨⟩, hfull⟩
    | true =>
      refine (ih (hpushing.flows hat) (fun e he => hevs e (List.mem_cons_of_mem _ he)) t').mono ?_
      rintro r h'' - ⟨done, spins', added', rfl, hpushing', hmembers', hall, hfull'⟩
      refine ⟨1 + done, spins + spins', added ++ added', List.append_assoc ..,
        hpushing.append hpushing', ?_, fun hok => ?_, fun hok => ?_⟩
      · rw [hmembers', hmembers, Nat.add_assoc]
      · rw [hall hok, List.length_cons, Nat.add_comm]
      · exact Nat.add_pos_right spins (hfull' hok)

/-- The thread is connected, its counters are right, and every gap has been resynced. -/
structure Running (P : MarketEvent → Prop) (c : MdCounters) (ph : Phase) (g : Nat)
    (h : List Signal) : Prop where
  flows : Flows P ph g h
  tally : Tally c h
  gaps : c.gapsDetected = g
  resyncs : c.resyncs = g

theorem Running.inv {c : MdCounters} (hr : Running P c ph g h) :
    (callMonitor P parser params).inv h := hr.flows.inv

/-- **Pushing a group** counts what it did, and nothing else. -/
theorem wp_pushGroup_running {evs : List MarketEvent} {t : MarketDataThread}
    (hr : Running P t.counters ph g h) (hevs : ∀ ev ∈ evs, P ev) :
    (callMonitor P parser params).wp
      (fun r h' => Running P r.2.counters ph g h' ∧ ∃ spins emitted,
        r.2 = { t with
          counters := { t.counters with queueFullSpins := spins, eventsEmitted := emitted } })
      (pushGroup rounds evs t) h := by
  obtain ⟨hat, htally, hgaps, hresyncs⟩ := hr
  refine Monitor.wp_bind ((wp_pushEvents_signals hat hevs t).mono ?_)
  rintro ⟨ok, t'⟩ h' hinv ⟨done, spins, added, rfl, hpushing, hmembers, hall, hfull⟩
  obtain rfl : t' = _ := hmembers
  cases ok with
  | false =>
    have hafter := hpushing.tally htally (Nat.zero_le _) fun hnone => absurd (hfull rfl) (by omega)
    exact Monitor.wp_pure hinv ⟨⟨hpushing.flows hat, hafter, hgaps, hresyncs⟩, _, _, rfl⟩
  | true =>
    have hafter := hpushing.tally htally (Nat.le_of_eq (hall rfl).symm) fun _ => (hall rfl).symm
    exact Monitor.wp_pure hinv ⟨⟨hpushing.flows hat, hafter, hgaps, hresyncs⟩, _, _, rfl⟩

/-! ## Reading -/

/-- Both read loops begin alike: the stop flag, then a frame. -/
theorem wp_readRound_signals {α : Type} {Q : α → List Signal → Prop} {stopped : MdProg α}
    {go : Reading → MdProg α} (hat : Flows P ph g h)
    (hstopped : (callMonitor P parser params).wp Q stopped h)
    (hended : (callMonitor P parser params).wp Q (go .ended) (h ++ [.read none]))
    (hignored : (callMonitor P parser params).wp Q (go .ignored) (h ++ [.read none]))
    (hgroup : ∀ scratch U u us, Group .kDepthDiff U u false us scratch → (∀ ev ∈ scratch, P ev) →
      (callMonitor P parser params).wp Q (go (.group scratch))
        (h ++ [.read (some (U, u))])) :
    (callMonitor P parser params).wp Q (Md.stopLoad >>= fun stop =>
      if stop = true then stopped else readFrame parser params >>= go) h := by
  refine wp_unlessStopped hat hstopped (Monitor.wp_bind ?_)
  refine Monitor.wp_bind (Monitor.wp_perform hat.inv fun frame hframe => ?_)
  have hemit : (callMonitor P parser params).emit .read frame =
      signals parser params .read frame := rfl
  rw [hemit, signals]
  by_cases hok : frame.status ≠ .kOk
  · rw [if_pos hok, if_neg hok]
    exact ⟨hended.inv, Monitor.wp_pure hended.inv hended⟩
  · have hok' : frame.status = .kOk := Decidable.not_not.mp hok
    rw [if_neg hok, if_pos hok']
    cases hread : readDepthDiff parser frame.payload params.filters with
    | none =>
      refine ⟨hignored.inv, Monitor.wp_bind (Monitor.wp_perform_silent (fun _ => rfl) hignored.inv
        fun now _ => ?_)⟩
      rw [parseDepthDiff, hread]
      exact Monitor.wp_pure hignored.inv hignored
    | some d =>
      have hgo : ∀ now, (callMonitor P parser params).wp Q
          (go (.group (fragments (fun _ => d.header now) d.bids d.asks)))
          (h ++ [.read (some (d.firstId, d.finalId))]) := fun now =>
        hgroup _ _ _ _ (d.group now) (hframe hok' now _ (by rw [parseDepthDiff, hread]; rfl))
      refine ⟨(hgo 0).inv, Monitor.wp_bind (Monitor.wp_perform_silent (fun _ => rfl) (hgo 0).inv
        fun now _ => ?_)⟩
      obtain ⟨front, rest, hcons, -⟩ := (d.group now).chain.front
      have hgo := hgo now
      rw [parseDepthDiff, hread, Option.map_some]
      dsimp only
      rw [hcons] at hgo ⊢
      exact Monitor.wp_pure hgo.inv hgo

/-! ## The driver -/

/-- The stream is live, for the reconstructor as for the rule. -/
structure Joined (t : MarketDataThread) (ph : Phase) : Prop where
  state : t.recon.state = .kLive
  phase : ph = .live t.recon.prevU

/-- A frame that leaves the stream in one piece. -/
theorem Running.read {c : MdCounters} (hr : Running P c ph g h) (ids : Option (UInt64 × UInt64))
    (ph' : Phase) (hstep : (Wire.opened ph).step (.read ids) = .opened ph') :
    Running P c ph' g (h ++ [.read ids]) :=
  ⟨hr.flows.flow rfl hstep, hr.tally.signal (x := .read ids) rfl, hr.gaps, hr.resyncs⟩

/-- The read loop of `Bootstrap`, behind a snapshot that has not been found too old. -/
theorem wp_readBracket_running {t : MarketDataThread}
    (hr : Running P t.counters (.await t.recon.snapshotLastId) g h)
    (hstate : t.recon.state = .kAwaitFirstEvent)
    (hroom : t.counters.snapshotTooOld < t.counters.snapshotsFetched) :
    (callMonitor P parser params).wp
      (fun r h' => ∃ ph, Running P r.2.counters ph g h' ∧ (r.1 = some .kLive → Joined r.2 ph))
      (readBracket parser params rounds t) h := by
  refine Monitor.wp_loop (fun t' h' => Running P t'.counters (.await t'.recon.snapshotLastId) g h' ∧
    t' = t) ?_ rounds ⟨hr, rfl⟩
  clear hr
  rintro t' h' ⟨hr, rfl⟩
  refine wp_readRound_signals hr.flows (Monitor.wp_pure hr.inv ⟨_, hr, by rintro ⟨⟩⟩) ?_ ?_ ?_
  · have hr := hr.read none _ rfl
    exact Monitor.wp_pure hr.inv ⟨_, hr, by rintro ⟨⟩⟩
  · have hr := hr.read none _ rfl
    exact Monitor.wp_pure hr.inv ⟨hr, rfl⟩
  · intro scratch U u us hgroup hevs
    have hdecided := t'.recon.onDiffGroup_decided hgroup.chain
    dsimp only
    generalize t'.recon.onDiffGroup scratch = r at hdecided ⊢
    obtain ⟨action, recon⟩ := r
    cases hdecided with
    | drop await old =>
      have hr := hr.read (some (U, u)) (.await t'.recon.snapshotLastId)
        (by simp [Wire.step, Wire.hear, Phase.take, old])
      exact Monitor.wp_pure hr.inv ⟨hr, rfl⟩
    | bracket await after joins =>
      have hr := hr.read (some (U, u)) (.live u)
        (by simp [Wire.step, Wire.hear, Phase.take, UInt64.not_le.mpr after, joins])
      refine Monitor.wp_bind ((wp_pushGroup_running
        (t := ⟨{ t'.recon with prevU := u, state := .kLive }, t'.counters⟩) hr hevs).mono ?_)
      rintro ⟨ok, after⟩ h'' hinv ⟨hr', spins, emitted, hmembers⟩
      obtain rfl : after = _ := hmembers
      exact Monitor.wp_pure hinv ⟨_, hr', fun _ => ⟨rfl, rfl⟩⟩
    | tooOld await after apart =>
      obtain ⟨hat, htally, hgaps, hresyncs⟩ := hr.read (some (U, u)) .idle
        (by simp [Wire.step, Wire.hear, Phase.take, UInt64.not_le.mpr after,
          UInt64.not_le.mpr apart])
      refine Monitor.wp_pure hat.inv ⟨_, ⟨hat, ?_, hgaps, hresyncs⟩, by rintro ⟨⟩⟩
      exact ⟨htally.spins, htally.closes, htally.fetched, htally.emitted_le, htally.emitted_eq,
        hroom⟩
    | needSnapshot idle => exact absurd (hstate.symm.trans idle) (by decide)
    | next live joins => exact absurd (hstate.symm.trans live) (by decide)
    | gap live apart => exact absurd (hstate.symm.trans live) (by decide)

/-- The stream is torn: a gap has been counted that no fetch has followed yet. -/
structure Broken (P : MarketEvent → Prop) (c : MdCounters) (g : Nat) (h : List Signal) : Prop where
  torn : At P ⟨.torn, g + 1, g⟩ h
  tally : Tally c h
  gaps : c.gapsDetected = g + 1

/-- The thread may fetch: the stream is in one piece, or it was torn and the resync has been
counted. -/
def MayFetch (P : MarketEvent → Prop) (c : MdCounters) (h : List Signal) : Prop :=
  (∃ ph g, Running P c ph g h) ∨ ∃ g, Broken P c g h ∧ c.resyncs = g + 1

/-- What holds when the loop of `Run` is left: all gaps but perhaps the last were resynced. -/
structure Left (P : MarketEvent → Prop) (c : MdCounters) (h : List Signal) : Prop where
  wire : ∃ tr, At P tr h ∧ c.gapsDetected = tr.gaps ∧ tr.refetched ≤ c.resyncs
  tally : Tally c h
  resyncs : c.resyncs ≤ c.gapsDetected

theorem Running.left {c : MdCounters} (hr : Running P c ph g h) : Left P c h :=
  ⟨⟨_, hr.flows, hr.gaps, Nat.le_of_eq hr.resyncs.symm⟩, hr.tally,
    Nat.le_of_eq (hr.resyncs.trans hr.gaps.symm)⟩

theorem Broken.left {c : MdCounters} (hb : Broken P c g h) (hle : g ≤ c.resyncs)
    (hlt : c.resyncs ≤ g + 1) : Left P c h :=
  ⟨⟨_, hb.torn, hb.gaps, hle⟩, hb.tally, hb.gaps.symm ▸ hlt⟩

theorem MayFetch.left {c : MdCounters} (hm : MayFetch P c h) : Left P c h := by
  rcases hm with ⟨ph, g, hr⟩ | ⟨g, hb, hresyncs⟩
  · exact hr.left
  · exact hb.left (by omega) (by omega)

/-- Where the stream stands after a fetch. -/
def fetchedPhase (lastId : Option UInt64) : Phase := (lastId.map .await).getD .idle

/-- A fetch mends the stream, whatever it brings. -/
theorem MayFetch.fetched {c : MdCounters} (hm : MayFetch P c h) (lastId : Option UInt64) :
    ∃ g, Running P (counted c (.fetched lastId)) (fetchedPhase lastId) g
      (h ++ [.fetched lastId]) := by
  rcases hm with ⟨ph, g, hr⟩ | ⟨g, hb, hresyncs⟩
  · refine ⟨g, hr.flows.flow rfl ?_, hr.tally.signal (x := .fetched lastId) rfl, hr.gaps,
      hr.resyncs⟩
    cases lastId <;> rfl
  · have hstep : Wire.torn.step (.fetched lastId) = .opened (fetchedPhase lastId) := by
      cases lastId <;> rfl
    refine ⟨g + 1, ?_, hb.tally.signal (x := .fetched lastId) rfl, hb.gaps, hresyncs⟩
    refine hb.torn.signal rfl ?_ (by rintro ⟨⟩) (Nat.le_succ _)
    simp [Trail.step, hstep, Signal.isFetched]

/-- What holds after `Bootstrap`: unless it was stopped, the stream is in one piece. -/
structure Booted (P : MarketEvent → Prop) (attempts : Nat) (r : BootResult × MarketDataThread)
    (h : List Signal) : Prop where
  left : Left P r.2.counters h
  running : r.1 ≠ .kStopped → ∃ ph g, Running P r.2.counters ph g h ∧
    (r.1 = .kLive → Joined r.2 ph ∧ 0 < attempts)

theorem Left.stopped {t : MarketDataThread} (hl : Left P t.counters h) (attempts : Nat) :
    Booted P attempts (.kStopped, t) h :=
  ⟨hl, fun hne => absurd rfl hne⟩

theorem Running.booted {t : MarketDataThread} {result : BootResult} {attempts : Nat}
    (hr : Running P t.counters ph g h) (hlive : result = .kLive → Joined t ph ∧ 0 < attempts) :
    Booted P attempts (result, t) h :=
  ⟨hr.left, fun _ => ⟨ph, g, hr, hlive⟩⟩

theorem Booted.succ {attempts : Nat} {r : BootResult × MarketDataThread}
    (hb : Booted P attempts r h) : Booted P (attempts + 1) r h := by
  refine ⟨hb.left, fun hne => ?_⟩
  obtain ⟨ph, g, hr, hlive⟩ := hb.running hne
  exact ⟨ph, g, hr, fun he => ⟨(hlive he).1, Nat.succ_pos attempts⟩⟩

/-- `Bootstrap` may be entered with a torn stream, if there is an attempt to be made. -/
theorem wp_attempts_running (left : Nat) {t : MarketDataThread} (hm : MayFetch P t.counters h)
    (hattempt : left = 0 → ∃ ph g, Running P t.counters ph g h) :
    (callMonitor P parser params).wp (Booted P left) (attempts parser params rounds left t) h := by
  induction left generalizing t h with
  | zero =>
    obtain ⟨ph, g, hr⟩ := hattempt rfl
    exact Monitor.wp_pure hr.inv (hr.booted (by rintro ⟨⟩))
  | succ left ih =>
    obtain ⟨tr, hat, -⟩ := hm.left.wire
    refine wp_unlessStopped hat (Monitor.wp_pure hat.inv (hm.left.stopped _)) ?_
    refine Monitor.wp_bind (Monitor.wp_perform hat.inv fun body hbody => ?_)
    have hemit : (callMonitor P parser params).emit (.get params.restHost params.snapshotTarget)
      body = signals parser params (.get params.restHost params.snapshotTarget) body := rfl
    rw [hemit, signals]
    have hfailed : (callMonitor P parser params).wp (Booted P (left + 1)) (pure (.kError, t))
        (h ++ [.fetched none]) := by
      obtain ⟨g, hr⟩ := hm.fetched none
      exact Monitor.wp_pure hr.inv (hr.booted (by rintro ⟨⟩))
    cases body with
    | none => exact ⟨hfailed.inv, hfailed⟩
    | some json =>
      dsimp only [Option.bind_some]
      cases hparse : parseDepthSnapshot parser json params.filters with
      | none => exact ⟨hfailed.inv, hfailed⟩
      | some snap =>
        obtain ⟨g, hr⟩ := hm.fetched (some snap.lastUpdateId)
        refine ⟨hr.inv, ?_⟩
        refine Monitor.wp_bind (wp_traceless (fun _ => rfl) hr.flows fun now _ => ?_)
        refine Monitor.wp_bind ((wp_pushGroup_running (t := ⟨_, _⟩) hr
          (hbody json rfl snap hparse t.recon now)).mono ?_)
        rintro ⟨ok, t'⟩ h' hinv ⟨hr', spins, emitted, hmembers⟩
        obtain rfl : t' = _ := hmembers
        cases ok with
        | false => exact Monitor.wp_pure hinv (hr'.left.stopped _)
        | true =>
          have hroom : t.counters.snapshotTooOld < t.counters.snapshotsFetched + 1 :=
            Nat.lt_succ_of_le hm.left.tally.tooOld
          refine Monitor.wp_bind ((wp_readBracket_running hr' rfl hroom).mono ?_)
          rintro ⟨result, t''⟩ h'' hinv'' ⟨ph, hr'', hlive⟩
          cases result with
          | some result =>
            exact Monitor.wp_pure hinv'' (hr''.booted fun he =>
              ⟨hlive (congrArg some he), Nat.succ_pos left⟩)
          | none =>
            have hagain := ih (.inl ⟨ph, g, hr''⟩) fun _ => ⟨ph, g, hr''⟩
            exact wp_unlessStopped hr''.flows (Monitor.wp_pure hinv'' (hr''.left.stopped _))
              (hagain.mono fun _ _ _ hb => hb.succ)

/-- `RunLive` reports a gap exactly if it leaves the stream torn. -/
theorem wp_runLive_running {t : MarketDataThread} (hr : Running P t.counters ph g h)
    (hjoined : Joined t ph) :
    (callMonitor P parser params).wp
      (fun r h' => if r.1 = true then Broken P r.2.counters g h' ∧ r.2.counters.resyncs = g
        else ∃ ph, Running P r.2.counters ph g h')
      (runLive parser params rounds t) h := by
  refine Monitor.wp_loop (fun t' h' => ∃ ph, Running P t'.counters ph g h' ∧ Joined t' ph) ?_
    rounds ⟨ph, hr, hjoined⟩
  rintro t' h' ⟨_, hr, hstate, rfl⟩
  refine wp_readRound_signals hr.flows (Monitor.wp_pure hr.inv ⟨_, hr⟩) ?_ ?_ ?_
  · have hr := hr.read none _ rfl
    exact Monitor.wp_pure hr.inv ⟨_, hr⟩
  · have hr := hr.read none _ rfl
    exact Monitor.wp_pure hr.inv ⟨_, hr, hstate, rfl⟩
  · intro scratch U u us hgroup hevs
    have hdecided := t'.recon.onDiffGroup_decided hgroup.chain
    dsimp only
    generalize t'.recon.onDiffGroup scratch = r at hdecided ⊢
    obtain ⟨action, recon⟩ := r
    cases hdecided with
    | next live joins =>
      have hr := hr.read (some (U, u)) (.live u)
        (by rw [Wire.step, Wire.hear, if_pos joins])
      refine Monitor.wp_bind ((wp_pushGroup_running
        (t := ⟨{ t'.recon with prevU := u }, t'.counters⟩) hr hevs).mono ?_)
      rintro ⟨ok, after⟩ h'' hinv ⟨hr', spins, emitted, hmembers⟩
      obtain rfl : after = _ := hmembers
      cases ok with
      | true => exact Monitor.wp_pure hinv ⟨_, hr', live, rfl⟩
      | false => exact Monitor.wp_pure hinv ⟨_, hr'⟩
    | gap live apart =>
      have hstep : (Wire.opened (.live t'.recon.prevU)).step (.read (some (U, u))) = .torn := by
        rw [Wire.step, Wire.hear, if_neg apart]
      have htorn : At P ⟨.torn, g + 1, g⟩ (h' ++ [.read (some (U, u))]) := by
        refine hr.flows.signal rfl ?_ (by rintro ⟨⟩) (Nat.le_refl _)
        simp [Trail.step, hstep]
      have htally := hr.tally.signal (x := .read (some (U, u))) rfl
      exact Monitor.wp_pure htorn.inv
        ⟨⟨htorn, htally.recount _ _, congrArg (· + 1) hr.gaps⟩, hr.resyncs⟩
    | needSnapshot idle => exact absurd (hstate.symm.trans idle) (by decide)
    | drop await old => exact absurd (hstate.symm.trans await) (by decide)
    | bracket await after joins => exact absurd (hstate.symm.trans await) (by decide)
    | tooOld await after apart => exact absurd (hstate.symm.trans await) (by decide)

/-- The thread has no connection. -/
structure Shut (P : MarketEvent → Prop) (c : MdCounters) (h : List Signal) : Prop where
  wire : ∃ g, At P ⟨.shut, g, g⟩ h ∧ c.gapsDetected = g ∧ c.resyncs = g
  tally : Tally c h

/-- Between two rounds of `Run` the thread has no connection, or it keeps one whose stream is
torn and for which it may fetch. -/
def Between (P : MarketEvent → Prop) (params : MarketDataParams) (s : Bool × MarketDataThread)
    (h : List Signal) : Prop :=
  if s.1 = true then
    (∃ g, Broken P s.2.counters g h ∧ s.2.counters.resyncs = g + 1) ∧
      0 < params.maxSnapshotRefetch.toNat
  else Shut P s.2.counters h

theorem Shut.left {c : MdCounters} (hs : Shut P c h) : Left P c h := by
  obtain ⟨⟨g, hat, hgaps, hresyncs⟩, htally⟩ := hs
  exact ⟨⟨_, hat, hgaps, Nat.le_of_eq hresyncs.symm⟩, htally,
    Nat.le_of_eq (hresyncs.trans hgaps.symm)⟩

theorem wp_reconnect_running {t : MarketDataThread} (hr : Running P t.counters ph g h) :
    (callMonitor P parser params).wp (fun t' h' => Shut P t'.counters h') (reconnect t) h := by
  have hat : At P ⟨.shut, g, g⟩ (h ++ [.closed]) := hr.flows.close
  have htally := hr.tally.signal (x := .closed) rfl
  refine Monitor.wp_bind (Monitor.wp_perform hr.inv fun _ _ => ⟨hat.inv, ?_⟩)
  refine Monitor.wp_bind (wp_traceless (fun _ => rfl) hat fun _ _ => ?_)
  exact Monitor.wp_pure hat.inv ⟨⟨g, hat, hr.gaps, hr.resyncs⟩, htally⟩

theorem wp_connectedRound_running {t : MarketDataThread} (hm : MayFetch P t.counters h)
    (hattempt : params.maxSnapshotRefetch.toNat = 0 → ∃ ph g, Running P t.counters ph g h) :
    (callMonitor P parser params).wp
      (Monitor.turn (Between P params) fun t' h' => Left P t'.counters h')
      (connectedRound parser params rounds t) h := by
  have hreconnect : ∀ {t : MarketDataThread} {h : List Signal} {ph g},
      Running P t.counters ph g h →
      (callMonitor P parser params).wp
        (Monitor.turn (Between P params) fun t' h' => Left P t'.counters h')
        (do let t ← reconnect t; pure (.inl (false, t)) :
          MdProg ((Bool × MarketDataThread) ⊕ MarketDataThread)) h := fun hr =>
    Monitor.wp_bind ((wp_reconnect_running hr).mono fun _ _ hinv hshut =>
      Monitor.wp_pure hinv hshut)
  refine Monitor.wp_bind ((wp_attempts_running _ hm hattempt).mono ?_)
  rintro ⟨result, t'⟩ h' hinv ⟨hl, hgo⟩
  cases result with
  | kStopped => exact Monitor.wp_pure hinv hl
  | kSnapshotTooOld =>
    obtain ⟨ph, g, hr, -⟩ := hgo (by rintro ⟨⟩)
    exact hreconnect hr
  | kError =>
    obtain ⟨ph, g, hr, -⟩ := hgo (by rintro ⟨⟩)
    exact hreconnect hr
  | kLive =>
    obtain ⟨ph, g, hr, hjoined⟩ := hgo (by rintro ⟨⟩)
    obtain ⟨hjoined, hpos⟩ := hjoined rfl
    refine Monitor.wp_bind ((wp_runLive_running hr hjoined).mono ?_)
    rintro ⟨gap, t''⟩ h'' hinv'' hafter
    cases gap with
    | true =>
      obtain ⟨hb, hresyncs⟩ := hafter
      refine wp_unlessStopped hb.torn
        (Monitor.wp_pure hinv'' (hb.left (by omega) (by omega))) ?_
      exact Monitor.wp_pure hinv''
        ⟨⟨g, ⟨hb.torn, hb.tally.recount _ _, hb.gaps⟩, congrArg (· + 1) hresyncs⟩, hpos⟩
    | false =>
      obtain ⟨ph', hr'⟩ := hafter
      exact wp_unlessStopped hr'.flows (Monitor.wp_pure hinv'' hr'.left)
        (hreconnect (t := { t'' with recon := t''.recon.reset }) hr')

theorem wp_runLoop_running {t : MarketDataThread} (hs : Shut P t.counters h) :
    (callMonitor P parser params).wp (fun t' h' => Left P t'.counters h')
      (runLoop parser params rounds t) h := by
  refine Monitor.wp_loop (Between P params) ?_ rounds hs
  rintro ⟨connected, t⟩ h hb
  cases connected with
  | true =>
    obtain ⟨⟨g, hb, hresyncs⟩, hpos⟩ := hb
    have hm : MayFetch P t.counters h := .inr ⟨g, hb, hresyncs⟩
    exact wp_unlessStopped hb.torn (Monitor.wp_pure hb.torn.inv hm.left)
      (wp_connectedRound_running hm fun hzero => absurd hzero (Nat.ne_of_gt hpos))
  | false =>
    have hshut : Shut P t.counters h := hb
    obtain ⟨⟨g, hat, hgaps, hresyncs⟩, htally⟩ := hshut
    refine wp_unlessStopped hat (Monitor.wp_pure hat.inv (Shut.left hb)) ?_
    refine Monitor.wp_bind (Monitor.wp_perform hat.inv fun ok _ => ?_)
    cases ok with
    | true =>
      have hopened : Running P t.counters .idle g (h ++ [.connected]) :=
        ⟨hat.signal rfl rfl (by rintro ⟨⟩) (Nat.le_succ g),
          htally.signal (x := .connected) rfl, hgaps, hresyncs⟩
      exact ⟨hopened.inv, wp_connectedRound_running (.inl ⟨_, g, hopened⟩) fun _ =>
        ⟨_, g, hopened⟩⟩
    | false =>
      have hrefused : At P ⟨.shut, g, g⟩ (h ++ [.refused]) :=
        hat.signal rfl rfl (by rintro ⟨⟩) (Nat.le_succ g)
      refine ⟨hrefused.inv, ?_⟩
      refine Monitor.wp_bind (wp_traceless (fun _ => rfl) hrefused fun _ _ => ?_)
      exact Monitor.wp_pure hrefused.inv
        ⟨⟨g, hrefused, hgaps, hresyncs⟩, htally.signal (x := .refused) rfl⟩

/-- `Run` closes the connection before it returns. -/
theorem wp_run_running (rounds : Nat) {t : MarketDataThread} (hs : Shut P t.counters h) :
    (callMonitor P parser params).wp
      (fun t' h' => ∃ before, h' = before ++ [.closed] ∧ (trail h').wire = .shut ∧
        (trail h').gaps = t'.counters.gapsDetected ∧
        (trail h').refetched ≤ t'.counters.resyncs ∧
        t'.counters.resyncs ≤ t'.counters.gapsDetected ∧ Tally t'.counters before)
      (run parser params rounds t) h := by
  refine Monitor.wp_bind ((wp_runLoop_running hs).mono ?_)
  rintro t' h' hinv ⟨⟨tr, hat, hgaps, hrefetched⟩, htally, hresyncs⟩
  have hclosed := hat.close
  refine Monitor.wp_bind (Monitor.wp_perform hinv fun _ _ => ⟨hclosed.inv, ?_⟩)
  refine Monitor.wp_pure hclosed.inv ⟨h', rfl, ?_, ?_, ?_, hresyncs, htally⟩
  · exact congrArg Trail.wire hclosed.trail_eq
  · exact (congrArg Trail.gaps hclosed.trail_eq).trans hgaps.symm
  · exact Nat.le_trans (Nat.le_of_eq (congrArg Trail.refetched hclosed.trail_eq)) hrefetched

theorem shut_new : Shut P new.counters [] where
  wire := ⟨0, ⟨rfl, by rintro ⟨⟩, Nat.zero_le _, by rintro _ ⟨⟩⟩, rfl, rfl⟩
  tally := ⟨rfl, rfl, rfl, Nat.le_refl _, fun _ => rfl, Nat.le_refl _⟩

/-- What is pushed comes from parsed messages: a property of all their events holds of every
event pushed. -/
theorem run_pushed (rounds : Nat) (answers : Nat → (c : MdCall) → MdCall.Answer c)
    (hsupply : ∀ i c, Supplies P parser params c (answers i c)) (calls : Nat) :
    ∀ ev ∈ ((run parser params rounds .new).exec answers calls).flatMap
      fun x => pushed x.1 x.2, P ev := by
  intro ev hev
  have hinv := Monitor.wp_exec (wp_run_running rounds shut_new) answers hsupply calls
  obtain ⟨⟨c, x⟩, hx, hpushed⟩ := List.mem_flatMap.mp hev
  refine hinv.2.2 ev (List.mem_append_right _ (List.mem_flatMap.mpr ⟨⟨c, x⟩, hx, ?_⟩))
  exact pushed_signal hpushed

end Calls

/-- **The thread keeps to the protocol of its transports, and its counters are true.**
Whatever it is answered and whenever it is stopped: `Connect` is called only while no
connection is open; frames are read, snapshots fetched and events pushed only while one is.
After a gap nothing is read or pushed before the next fetch, and every gap but the last was
followed by one.  When `Run` returns the connection is closed, and the counters are the
numbers of the calls made: full queues, connections given up, snapshots parsed, gaps; the
events counted as emitted are those pushed, unless the queue was full; and the resyncs counted
are all gaps, or all but the last. -/
theorem transport_discipline (parser : String → Option Dom) (params : MarketDataParams)
    (rounds : Nat) (answers : Nat → (c : MdCall) → MdCall.Answer c) (calls : Nat) :
    let h := ((run parser params rounds .new).exec answers calls).flatMap
      fun x => signals parser params x.1 x.2
    (trail h).wire ≠ .misused ∧
    (trail h).gaps ≤ (trail h).refetched + 1 ∧
    ∀ t, (run parser params rounds .new).outcome answers calls = some t →
      (trail h).wire = .shut ∧
      t.counters.queueFullSpins = h.countP Signal.isFull ∧
      t.counters.wsReconnects + 1 = h.countP Signal.isClosed ∧
      t.counters.snapshotsFetched = h.countP Signal.isSnapshot ∧
      t.counters.snapshotTooOld ≤ t.counters.snapshotsFetched ∧
      t.counters.eventsEmitted ≤ h.countP Signal.isPushed ∧
      (t.counters.queueFullSpins = 0 → t.counters.eventsEmitted = h.countP Signal.isPushed) ∧
      t.counters.gapsDetected = (trail h).gaps ∧
      (trail h).refetched ≤ t.counters.resyncs ∧
      t.counters.resyncs ≤ t.counters.gapsDetected := by
  intro h
  have hsupply : ∀ i c, Supplies (fun _ => True) parser params c (answers i c) := by
    intro i c
    cases c <;> simp [Supplies]
  have hwp : (callMonitor (fun _ => True) parser params).wp _ (run parser params rounds new) [] :=
    wp_run_running rounds shut_new
  have hinv := Monitor.wp_exec hwp answers hsupply calls
  refine ⟨hinv.1, hinv.2.1, fun t hret => ?_⟩
  obtain ⟨before, hbefore, hshut, hgaps, hrefetched, hresyncs, htally⟩ :=
    Monitor.wp_outcome hwp answers hsupply hret
  have hh : h = before ++ [.closed] := hbefore
  have hcount : ∀ f : Signal → Bool, h.countP f = before.countP f + (f .closed).toNat := by
    intro f
    rw [hh]
    cases hf : f .closed <;> simp [hf]
  refine ⟨hshut, ?_, ?_, ?_, htally.tooOld, ?_, ?_, hgaps.symm, hrefetched, hresyncs⟩ <;>
    rw [hcount]
  · exact htally.spins
  · exact congrArg (· + 1) htally.closes
  · exact htally.fetched
  · exact htally.emitted_le
  · exact htally.emitted_eq

/-- A refused connection, then one on which the snapshot is fetched and the same diff comes
again and again, then the stop. -/
def flaky (i : Nat) : (c : MdCall) → MdCall.Answer c
  | .stopLoad => Nat.ble 28 i
  | .connect _ _ => Nat.ble 4 i
  | c => Pipeline.tinyAnswers i c

/-- The diff that comes again is a gap.  The first one is followed by a fetch, the second by the
stop. -/
theorem transport_discipline_flaky :
    let p := run Pipeline.tinyParser Pipeline.tinyParams 4 .new
    let h := (p.exec flaky 31).flatMap fun x =>
      signals Pipeline.tinyParser Pipeline.tinyParams x.1 x.2
    ∃ t, p.outcome flaky 31 = some t ∧ t.counters.gapsDetected = 2 ∧ t.counters.resyncs = 1 ∧
      (trail h).refetched = 1 ∧ (trail h).wire = .shut := by
  intro p h
  obtain ⟨t, hret, hgaps, hresyncs⟩ : ∃ t, p.outcome flaky 31 = some t ∧
      t.counters.gapsDetected = 2 ∧ t.counters.resyncs = 1 := ⟨_, rfl, rfl, rfl⟩
  obtain ⟨-, hmended, hend⟩ :=
    transport_discipline Pipeline.tinyParser Pipeline.tinyParams 4 flaky 31
  obtain ⟨hshut, -, -, -, -, -, -, hcounted, hrefetched, -⟩ := hend t hret
  refine ⟨t, hret, hgaps, hresyncs, Nat.le_antisymm (hresyncs ▸ hrefetched) ?_, hshut⟩
  rw [← hcounted, hgaps] at hmended
  exact Nat.le_of_succ_le_succ hmended

end MarketDataThread
end Asmm
