import Mathlib.Data.List.Forall2
import Mathlib.Data.List.Induction
import CryptoBook.Reconstruction

/-! # What the market-data thread passes on

`Feed` says that what the thread pushes is in sequence; a thread that pushes nothing satisfies
it.  Here the messages the thread receives are part of the history, and `Phase.take` is the
rule of the exchange's documentation for each of them: which message is to be passed on, and
what may follow.

Until the stop flag is read as set, the thread passes on what the rule says and nothing else,
each message once, whole and in order, and it does not ask for the next one before
(`relays_every_message`).  So while it waits for a frame in the live state, what it has pushed
gives the exchange's book at the last message it has received (`pushed_book_current`). -/
namespace Asmm
open Interaction BookReference

/-! ## The rule -/

/-- A message as it was parsed. -/
inductive Received where
  | snapshot (lastId : UInt64) (us : List L2Book.LevelUpdate)
  | diff (U u : UInt64) (us : List L2Book.LevelUpdate)
  deriving DecidableEq

/-- The events are those of the message. -/
def Received.CarriedBy : Received → List MarketEvent → Prop
  | .snapshot lastId us, evs => Group .kSnapshot lastId lastId true us evs
  | .diff U u us, evs => Group .kDepthDiff U u false us evs

/-- What may follow a message, and whether it is to be passed on. -/
def Phase.take : Phase → Received → Phase × Bool
  | _, .snapshot lastId _ => (.await lastId, true)
  | .idle, .diff _ _ _ => (.idle, false)
  | .await lastId, .diff U u _ =>
      if u ≤ lastId then (.await lastId, false)
      else if U ≤ lastId + 1 then (.live u, true)
      else (.idle, false)
  | .live prevU, .diff U u _ => if U = prevU + 1 then (.live u, true) else (.idle, false)

/-- The last event of a group closes it. -/
theorem Group.getLast {kind : EventKind} {U u : UInt64} {starts : Bool}
    {us : List L2Book.LevelUpdate} {evs : List MarketEvent} (hg : Group kind U u starts us evs) :
    ∃ front ev, evs = front ++ [ev] ∧ ∃ starts, Fragment kind U u starts false ev := by
  induction hg with
  | last frag => exact ⟨[], _, rfl, _, frag⟩
  | @more starts ev us evs frag rest ih =>
    obtain ⟨front, last, rfl, hlast⟩ := ih
    exact ⟨ev :: front, last, rfl, hlast⟩

namespace MarketDataThread

/-- What is noted of a call. -/
inductive Note where
  | asked
  | got (m : Received)
  | pushed (ev : MarketEvent)
  | lost
  | stopped
  deriving DecidableEq

/-- The messages of which the history tells. -/
def received (h : List Note) : List Received :=
  h.filterMap fun
    | .got m => some m
    | _ => none

/-- The events of which it tells. -/
def pushedIn (h : List Note) : List MarketEvent :=
  h.filterMap fun
    | .pushed ev => some ev
    | _ => none

/-- The rule, carried out along a history. -/
structure Relay where
  phase : Phase
  passed : List Received

def Relay.step (r : Relay) : Note → Relay
  | .got m => ⟨(r.phase.take m).1, if (r.phase.take m).2 then r.passed ++ [m] else r.passed⟩
  | .lost => { r with phase := .idle }
  | .asked | .pushed _ | .stopped => r

def relay (h : List Note) : Relay := h.foldl Relay.step ⟨.idle, []⟩

theorem relay_append (h h' : List Note) : relay (h ++ h') = h'.foldl Relay.step (relay h) :=
  List.foldl_append

theorem relay_pushes (h : List Note) (evs : List MarketEvent) :
    relay (h ++ evs.map .pushed) = relay h := by
  rw [relay_append, List.foldl_map]
  induction evs with
  | nil => rfl
  | cons ev evs ih => exact ih

theorem pushedIn_pushes (h : List Note) (evs : List MarketEvent) :
    pushedIn (h ++ evs.map .pushed) = pushedIn h ++ evs := by
  rw [pushedIn, List.filterMap_append, List.filterMap_map]
  exact congrArg _ List.filterMap_some

/-- The events are those of the messages, one after the other. -/
def Carried (ms : List Received) (evs : List MarketEvent) : Prop :=
  ∃ groups, evs = groups.flatten ∧ List.Forall₂ Received.CarriedBy ms groups

theorem Carried.concat {ms : List Received} {evs group : List MarketEvent} (h : Carried ms evs)
    {m : Received} (hm : m.CarriedBy group) : Carried (ms ++ [m]) (evs ++ group) := by
  obtain ⟨groups, rfl, hgroups⟩ := h
  refine ⟨groups ++ [group], by simp, List.rel_append hgroups (.cons hm .nil)⟩

theorem Carried.last {ms : List Received} {evs : List MarketEvent} {m : Received}
    (h : Carried (ms ++ [m]) evs) : ∃ before group, evs = before ++ group ∧ m.CarriedBy group := by
  obtain ⟨groups, rfl, hgroups⟩ := h
  have hlast := List.forall₂_drop ms.length hgroups
  rw [List.drop_left] at hlast
  obtain ⟨group, rest, hm, hrest, hdrop⟩ := List.forall₂_cons_left_iff.mp hlast
  obtain rfl := List.forall₂_nil_left_iff.mp hrest
  have hall := List.take_append_drop ms.length groups
  rw [hdrop] at hall
  refine ⟨(groups.take ms.length).flatten, group, ?_, hm⟩
  calc groups.flatten = (groups.take ms.length ++ [group]).flatten := by rw [hall]
    _ = (groups.take ms.length).flatten ++ group := by simp

/-- In the live state the last message received is a diff that was passed on. -/
theorem relay_live (h : List Note) {u : UInt64} (hlive : (relay h).phase = .live u) :
    ∃ U us, (received h).getLast? = some (.diff U u us) ∧
      ∃ ms, (relay h).passed = ms ++ [.diff U u us] := by
  induction h using List.reverseRecOn with
  | nil => cases hlive
  | append_singleton h x ih =>
    rw [relay_append] at hlive ⊢
    have hreceived : received (h ++ [x]) = received h ++ received [x] := List.filterMap_append ..
    cases x with
    | asked | pushed | stopped =>
      rw [hreceived.trans (List.append_nil _)]
      exact ih hlive
    | lost => cases hlive
    | got m =>
      have hlast : (received (h ++ [.got m])).getLast? = some m := by
        rw [hreceived]
        exact List.getLast?_concat
      rw [hlast]
      simp only [List.foldl_cons, List.foldl_nil, Relay.step] at hlive ⊢
      cases m with
      | snapshot lastId us => cases hlive
      | diff U u' us =>
        have hpassed : ((relay h).phase.take (.diff U u' us)) = (.live u, true) ∧ u' = u := by
          generalize (relay h).phase = ph at hlive
          cases ph with
          | idle => cases hlive
          | await lastId =>
            unfold Phase.take at hlive ⊢
            dsimp only at hlive ⊢
            split at hlive
            · cases hlive
            · split at hlive
              · obtain rfl := Phase.live.inj hlive
                simp [*]
              · cases hlive
          | live prevU =>
            unfold Phase.take at hlive ⊢
            dsimp only at hlive ⊢
            split at hlive
            · obtain rfl := Phase.live.inj hlive
              simp [*]
            · cases hlive
        obtain ⟨htake, rfl⟩ := hpassed
        exact ⟨U, us, rfl, (relay h).passed, by rw [htake]; rfl⟩

/-! ## The thread -/

section Thread
variable (parser : String → Option Dom) (params : MarketDataParams)

/-- The notes of an answered call. -/
def note : (c : MdCall) → MdCall.Answer c → List Note
  | .stopLoad, stop => if stop = true then [.stopped] else []
  | .read, frame => .asked :: (if frame.status = .kOk then
      ((readDepthDiff parser frame.payload params.filters).map fun d =>
        .got (.diff d.firstId d.finalId d.updates)).toList else [])
  | .get _ _, body => .asked :: ((body.bind fun json =>
      parseDepthSnapshot parser json params.filters).map fun snap =>
        .got (.snapshot snap.lastUpdateId snap.updates)).toList
  | .tryPush ev, ok => if ok = true then [.pushed ev] else []
  | .close, _ => [.lost]
  | .connect _ _, _ | .nowNs, _ | .sleepMs, _ => []

/-- Whenever the thread asked, everything to be passed on had been pushed. -/
def AskedIdle (h : List Note) : Prop :=
  ∀ pre post, h = pre ++ .asked :: post → Carried (relay pre).passed (pushedIn pre)

/-- There are events to be pushed, and no others. -/
structure Owes (h : List Note) (evs : List MarketEvent) : Prop where
  carried : Carried (relay h).passed (pushedIn h ++ evs)
  asked : AskedIdle h

/-- The thread watched through its notes, until it is stopped. -/
def relayMonitor : Monitor MdCall MdCall.Answer Note where
  emit := note parser params
  admits _ _ := True
  inv h := .stopped ∈ h ∨ ∃ evs, Owes h evs

/-- What holds unless the thread has been stopped. -/
def unlessStopped {α : Type} (Q : α → List Note → Prop) (a : α) (h : List Note) : Prop :=
  .stopped ∈ h ∨ Q a h

variable {parser params} {rounds : Nat} {h : List Note}

theorem AskedIdle.concat {x : Note} (hidle : AskedIdle h)
    (hx : x = .asked → Carried (relay h).passed (pushedIn h)) : AskedIdle (h ++ [x]) := by
  intro pre post hsplit
  rcases List.eq_nil_or_concat post with rfl | ⟨post, last, rfl⟩
  · obtain ⟨rfl, hlast⟩ := List.append_inj' hsplit rfl
    exact hx (List.singleton_inj.mp hlast)
  · rw [List.concat_eq_append, ← List.cons_append, ← List.append_assoc] at hsplit
    exact hidle pre post (List.append_inj' hsplit rfl).1

theorem AskedIdle.asked (hidle : AskedIdle h) (hcarried : Carried (relay h).passed (pushedIn h)) :
    AskedIdle (h ++ [.asked]) := hidle.concat fun _ => hcarried

theorem Owes.inv {evs : List MarketEvent} (ho : Owes h evs) : (relayMonitor parser params).inv h :=
  .inr ⟨evs, ho⟩

theorem wp_of_stopped {α : Type} {Q : α → List Note → Prop} (hstop : .stopped ∈ h)
    (hQ : ∀ a h', .stopped ∈ h' → Q a h') (p : MdProg α) :
    (relayMonitor parser params).wp Q p h :=
  Monitor.wp_of_ended (fun _ => Or.inl) hQ hstop p

/-- Branching on the stop flag: nothing is said of the branch in which it is set. -/
theorem wp_unlessSet {α : Type} {Q : α → List Note → Prop} {p q : MdProg α}
    {evs : List MarketEvent} (ho : Owes h evs) (hQ : ∀ a h', .stopped ∈ h' → Q a h')
    (hq : (relayMonitor parser params).wp Q q h) :
    (relayMonitor parser params).wp Q (Md.stopLoad >>= fun stop => if stop = true then p else q)
      h := by
  refine Monitor.wp_bind (Monitor.wp_perform ho.inv fun stop _ => ?_)
  cases stop with
  | true =>
    have hstop : Note.stopped ∈ h ++ (relayMonitor parser params).emit .stopLoad true :=
      List.mem_append_right _ List.mem_cons_self
    exact ⟨.inl hstop, wp_of_stopped hstop hQ p⟩
  | false =>
    have hsame : h ++ (relayMonitor parser params).emit .stopLoad false = h := List.append_nil h
    rw [hsame]
    exact ⟨ho.inv, hq⟩

theorem Owes.push {ev : MarketEvent} {evs : List MarketEvent} (ho : Owes h (ev :: evs)) :
    Owes (h ++ [.pushed ev]) evs := by
  refine ⟨?_, ho.asked.concat (by rintro ⟨⟩)⟩
  have hpushed : pushedIn (h ++ [.pushed ev]) = pushedIn h ++ [ev] := pushedIn_pushes h [ev]
  rw [hpushed, List.append_assoc, relay_append]
  exact ho.carried

theorem wp_pushEvent_relay {ev : MarketEvent} {evs : List MarketEvent} (ho : Owes h (ev :: evs))
    (t : MarketDataThread) :
    (relayMonitor parser params).wp
      (unlessStopped fun r h' => r.1 = true ∧ r.2.recon = t.recon ∧ h' = h ++ [.pushed ev])
      (pushEvent rounds ev t) h := by
  refine Monitor.wp_loop (unlessStopped fun t' h' => t'.recon = t.recon ∧ h' = h) ?_ rounds
    (.inr ⟨rfl, rfl⟩)
  rintro t' h' (hstop | ⟨hrecon, rfl⟩)
  · exact wp_of_stopped hstop (by rintro (_ | _) h' hstop <;> exact .inl hstop) _
  refine Monitor.wp_bind (Monitor.wp_perform ho.inv fun ok _ => ?_)
  cases ok with
  | true => exact ⟨ho.push.inv, Monitor.wp_pure ho.push.inv (.inr ⟨rfl, hrecon, rfl⟩)⟩
  | false =>
    have hsame : h' ++ (relayMonitor parser params).emit (.tryPush ev) false = h' :=
      List.append_nil h'
    rw [hsame]
    refine ⟨ho.inv, wp_unlessSet ho ?_ (Monitor.wp_pure ho.inv (.inr ⟨hrecon, rfl⟩))⟩
    rintro (_ | _) h' hstop <;> exact .inl hstop

theorem wp_pushEvents_relay {evs : List MarketEvent} (ho : Owes h evs) (t : MarketDataThread) :
    (relayMonitor parser params).wp
      (unlessStopped fun r h' => r.1 = true ∧ r.2.recon = t.recon ∧ h' = h ++ evs.map .pushed)
      (pushEvents rounds evs t) h := by
  induction evs generalizing h t with
  | nil => exact Monitor.wp_pure ho.inv (.inr ⟨rfl, rfl, (List.append_nil h).symm⟩)
  | cons ev evs ih =>
    refine Monitor.wp_bind ((wp_pushEvent_relay ho t).mono ?_)
    rintro ⟨ok, t'⟩ h' - (hstop | ⟨hok, hrecon, rfl⟩)
    · exact wp_of_stopped hstop (fun _ _ hstop => .inl hstop) _
    · obtain rfl : ok = true := hok
      refine (ih ho.push t').mono ?_
      rintro r h'' - (hstop | ⟨hok, hr, rfl⟩)
      · exact .inl hstop
      · exact .inr ⟨hok, hr.trans hrecon, by simp⟩

/-- Nothing is left to be pushed. -/
abbrev Settled (h : List Note) : Prop := Owes h []

theorem Owes.settled {evs : List MarketEvent} (ho : Owes h evs) :
    Settled (h ++ evs.map .pushed) := by
  induction evs generalizing h with
  | nil => rwa [List.map_nil, List.append_nil]
  | cons ev evs ih =>
    have hrest := ih ho.push
    rwa [List.append_assoc] at hrest

theorem wp_pushGroup_relay {evs : List MarketEvent} (ho : Owes h evs) (t : MarketDataThread) :
    (relayMonitor parser params).wp
      (unlessStopped fun r h' => r.1 = true ∧ r.2.recon = t.recon ∧ Settled h' ∧
        relay h' = relay h)
      (pushGroup rounds evs t) h := by
  refine Monitor.wp_bind ((wp_pushEvents_relay ho t).mono ?_)
  rintro ⟨ok, t'⟩ h' - (hstop | ⟨hok, hrecon, rfl⟩)
  · exact wp_of_stopped hstop (fun _ _ hstop => .inl hstop) _
  · obtain rfl : ok = true := hok
    exact Monitor.wp_pure ho.settled.inv (.inr ⟨rfl, hrecon, ho.settled, relay_pushes h evs⟩)

/-! ### Reading -/

theorem Owes.ask (hs : Settled h) : Settled (h ++ [.asked]) := by
  have hcarried : Carried (relay h).passed (pushedIn h) := by
    rw [← List.append_nil (pushedIn h)]
    exact hs.carried
  refine ⟨?_, hs.asked.asked hcarried⟩
  have hpushed : pushedIn (h ++ [.asked]) = pushedIn h :=
    (List.filterMap_append ..).trans (List.append_nil _)
  rw [hpushed, relay_append]
  exact hs.carried

/-- What a message leaves to be pushed, and what may follow it. -/
theorem Owes.hear (hs : Settled h) {m : Received} {group : List MarketEvent}
    (hm : m.CarriedBy group) {ph : Phase} {on : Bool}
    (htake : (relay h).phase.take m = (ph, on)) :
    Owes (h ++ [.asked, .got m]) (bif on then group else []) ∧
      (relay (h ++ [.asked, .got m])).phase = ph := by
  have hasked := hs.ask.asked.concat (x := .got m) (by rintro ⟨⟩)
  rw [List.append_assoc] at hasked
  have hpushed : pushedIn (h ++ [.asked, .got m]) = pushedIn h :=
    (List.filterMap_append ..).trans (List.append_nil _)
  have hrelay : relay (h ++ [.asked, .got m]) =
      ⟨ph, if on then (relay h).passed ++ [m] else (relay h).passed⟩ := by
    rw [relay_append]
    simp only [List.foldl_cons, List.foldl_nil, Relay.step, htake]
  have hcarried := hs.carried
  rw [List.append_nil] at hcarried
  refine ⟨⟨?_, hasked⟩, by rw [hrelay]⟩
  rw [hpushed, hrelay]
  cases on with
  | true => exact hcarried.concat hm
  | false => exact (List.append_nil (pushedIn h)).symm ▸ hcarried

/-- Both read loops begin alike: the stop flag, then a frame. -/
theorem wp_readRound_relay {α : Type} {Q : α → List Note → Prop} {stopped : MdProg α}
    {go : Reading → MdProg α} (hs : Settled h) (hQ : ∀ a h', .stopped ∈ h' → Q a h')
    (hended : (relayMonitor parser params).wp Q (go .ended) (h ++ [.asked]))
    (hignored : (relayMonitor parser params).wp Q (go .ignored) (h ++ [.asked]))
    (hgroup : ∀ scratch U u us, Group .kDepthDiff U u false us scratch →
      (relayMonitor parser params).wp Q (go (.group scratch))
        (h ++ [.asked, .got (.diff U u us)])) :
    (relayMonitor parser params).wp Q (Md.stopLoad >>= fun stop =>
      if stop = true then stopped else readFrame parser params >>= go) h := by
  refine wp_unlessSet hs hQ (Monitor.wp_bind ?_)
  refine Monitor.wp_bind (Monitor.wp_perform hs.inv fun frame _ => ?_)
  have hemit : (relayMonitor parser params).emit .read frame = note parser params .read frame := rfl
  rw [hemit, note]
  by_cases hok : frame.status ≠ .kOk
  · rw [if_pos hok, if_neg hok]
    exact ⟨hs.ask.inv, Monitor.wp_pure hs.ask.inv hended⟩
  · rw [if_neg hok, if_pos (Decidable.not_not.mp hok)]
    cases hread : readDepthDiff parser frame.payload params.filters with
    | none =>
      refine ⟨hs.ask.inv, Monitor.wp_bind (Monitor.wp_perform_silent (fun _ => rfl) hs.ask.inv
        fun now _ => ?_)⟩
      rw [parseDepthDiff, hread]
      exact Monitor.wp_pure hs.ask.inv hignored
    | some d =>
      have hinv : (relayMonitor parser params).inv
          (h ++ [.asked, .got (.diff d.firstId d.finalId d.updates)]) :=
        (hs.hear (m := .diff d.firstId d.finalId d.updates) (d.group 0) rfl).1.inv
      refine ⟨hinv, Monitor.wp_bind (Monitor.wp_perform_silent (fun _ => rfl) hinv fun now _ => ?_)⟩
      obtain ⟨front, rest, hcons, -⟩ := (d.group now).chain.front
      have hgo := hgroup _ _ _ _ (d.group now)
      rw [parseDepthDiff, hread, Option.map_some]
      dsimp only
      rw [hcons] at hgo ⊢
      exact Monitor.wp_pure hinv hgo

/-! ### The driver -/

/-- The thread waits for the bracket event of a snapshot. -/
structure Awaits (t : MarketDataThread) (h : List Note) : Prop where
  settled : Settled h
  state : t.recon.state = .kAwaitFirstEvent
  phase : (relay h).phase = .await t.recon.snapshotLastId

/-- The thread follows the diffs. -/
structure Follows (t : MarketDataThread) (h : List Note) : Prop where
  settled : Settled h
  state : t.recon.state = .kLive
  phase : (relay h).phase = .live t.recon.prevU

/-- A loop that has been stopped. -/
theorem turn_of_stopped {σ α : Type} {J : σ → List Note → Prop} {Q : α → List Note → Prop}
    (r : σ ⊕ α) (h' : List Note) (hstop : .stopped ∈ h') :
    Monitor.turn (unlessStopped J) (unlessStopped Q) r h' := by
  cases r with
  | inl s => exact .inl hstop
  | inr a => exact .inl hstop

theorem wp_readBracket_relay {t : MarketDataThread} (ha : Awaits t h) :
    (relayMonitor parser params).wp
      (unlessStopped fun r h' => Settled h' ∧ (r.1 = some .kLive → Follows r.2 h'))
      (readBracket parser params rounds t) h := by
  refine Monitor.wp_loop (unlessStopped Awaits) ?_ rounds (.inr ha)
  rintro t h (hstop | ⟨hs, hstate, hphase⟩)
  · exact wp_of_stopped hstop turn_of_stopped _
  have hasked := hs.ask
  have hphase' : (relay (h ++ [.asked])).phase = .await t.recon.snapshotLastId := by
    rw [relay_append]
    exact hphase
  refine wp_readRound_relay hs turn_of_stopped ?_ ?_ ?_
  · exact Monitor.wp_pure hasked.inv (.inr ⟨hasked, by rintro ⟨⟩⟩)
  · exact Monitor.wp_pure hasked.inv (.inr ⟨hasked, hstate, hphase'⟩)
  · intro scratch U u us hgroup
    have hdecided := t.recon.onDiffGroup_decided hgroup.chain
    dsimp only
    generalize t.recon.onDiffGroup scratch = r at hdecided ⊢
    obtain ⟨action, recon⟩ := r
    cases hdecided with
    | drop await old =>
      obtain ⟨howes, hnext⟩ := hs.hear (m := .diff U u us) hgroup
        (by rw [hphase, Phase.take, if_pos old])
      exact Monitor.wp_pure howes.inv (.inr ⟨howes, hstate, hnext⟩)
    | bracket await after joins =>
      obtain ⟨howes, hnext⟩ := hs.hear (m := .diff U u us) hgroup
        (by rw [hphase, Phase.take, if_neg (UInt64.not_le.mpr after), if_pos joins])
      refine Monitor.wp_bind ((wp_pushGroup_relay howes _).mono ?_)
      rintro ⟨ok, t'⟩ h' - (hstop | ⟨hok, hrecon, hsettled, hrelay⟩)
      · exact wp_of_stopped hstop turn_of_stopped _
      · refine Monitor.wp_pure hsettled.inv (.inr ⟨hsettled, fun _ => ⟨hsettled, ?_, ?_⟩⟩)
        · rw [hrecon]
        · rw [hrelay, hnext, hrecon]
    | tooOld await after apart =>
      obtain ⟨howes, -⟩ := hs.hear (m := .diff U u us) hgroup
        (by rw [hphase, Phase.take, if_neg (UInt64.not_le.mpr after),
          if_neg (UInt64.not_le.mpr apart)])
      exact Monitor.wp_pure howes.inv (.inr ⟨howes, by rintro ⟨⟩⟩)
    | needSnapshot idle => exact absurd (hstate.symm.trans idle) (by decide)
    | next live joins => exact absurd (hstate.symm.trans live) (by decide)
    | gap live apart => exact absurd (hstate.symm.trans live) (by decide)

theorem wp_attempts_relay (left : Nat) (t : MarketDataThread) (hs : Settled h) :
    (relayMonitor parser params).wp
      (unlessStopped fun r h' => Settled h' ∧ (r.1 = .kLive → Follows r.2 h'))
      (attempts parser params rounds left t) h := by
  induction left generalizing t h with
  | zero => exact Monitor.wp_pure hs.inv (.inr ⟨hs, by rintro ⟨⟩⟩)
  | succ left ih =>
    refine wp_unlessSet hs (fun _ _ hstop => .inl hstop) ?_
    refine Monitor.wp_bind (Monitor.wp_perform hs.inv fun body _ => ?_)
    have hemit : (relayMonitor parser params).emit (.get params.restHost params.snapshotTarget)
      body = note parser params (.get params.restHost params.snapshotTarget) body := rfl
    rw [hemit, note]
    have hfailed : (relayMonitor parser params).wp
        (unlessStopped fun (r : BootResult × MarketDataThread) h' =>
          Settled h' ∧ (r.1 = .kLive → Follows r.2 h'))
        (pure (.kError, t)) (h ++ [.asked]) :=
      Monitor.wp_pure hs.ask.inv (.inr ⟨hs.ask, by rintro ⟨⟩⟩)
    cases body with
    | none => exact ⟨hs.ask.inv, hfailed⟩
    | some json =>
      dsimp only [Option.bind_some]
      cases hparse : parseDepthSnapshot parser json params.filters with
      | none => exact ⟨hs.ask.inv, hfailed⟩
      | some snap =>
        have htake : (relay h).phase.take (.snapshot snap.lastUpdateId snap.updates) =
            (.await snap.lastUpdateId, true) := by cases (relay h).phase <;> rfl
        have hinv : (relayMonitor parser params).inv
            (h ++ [.asked, .got (.snapshot snap.lastUpdateId snap.updates)]) :=
          (hs.hear (m := .snapshot snap.lastUpdateId snap.updates)
            (t.recon.onSnapshot_group snap 0) htake).1.inv
        refine ⟨hinv, Monitor.wp_bind (Monitor.wp_perform_silent (fun _ => rfl) hinv
          fun now _ => ?_)⟩
        obtain ⟨howes, hnext⟩ := hs.hear (m := .snapshot snap.lastUpdateId snap.updates)
          (t.recon.onSnapshot_group snap now) htake
        refine Monitor.wp_bind ((wp_pushGroup_relay howes _).mono ?_)
        rintro ⟨ok, t'⟩ h' - (hstop | ⟨hok, hrecon, hsettled, hrelay⟩)
        · exact wp_of_stopped hstop (fun _ _ hstop => .inl hstop) _
        · obtain rfl : ok = true := hok
          have hawaits : Awaits t' h' :=
            ⟨hsettled, by rw [hrecon]; rfl, by rw [hrelay, hnext, hrecon]; rfl⟩
          refine Monitor.wp_bind ((wp_readBracket_relay hawaits).mono ?_)
          rintro ⟨result, t''⟩ h'' - (hstop | ⟨hsettled', hlive⟩)
          · exact wp_of_stopped hstop (fun _ _ hstop => .inl hstop) _
          · cases result with
            | some result =>
              exact Monitor.wp_pure hsettled'.inv
                (.inr ⟨hsettled', fun he => hlive (congrArg some he)⟩)
            | none =>
              exact wp_unlessSet hsettled' (fun _ _ hstop => .inl hstop) (ih t'' hsettled')

theorem wp_runLive_relay {t : MarketDataThread} (hf : Follows t h) :
    (relayMonitor parser params).wp (unlessStopped fun _ h' => Settled h')
      (runLive parser params rounds t) h := by
  refine Monitor.wp_loop (unlessStopped Follows) ?_ rounds (.inr hf)
  rintro t h (hstop | ⟨hs, hstate, hphase⟩)
  · exact wp_of_stopped hstop turn_of_stopped _
  have hasked := hs.ask
  have hphase' : (relay (h ++ [.asked])).phase = .live t.recon.prevU := by
    rw [relay_append]
    exact hphase
  refine wp_readRound_relay hs turn_of_stopped ?_ ?_ ?_
  · exact Monitor.wp_pure hasked.inv (.inr hasked)
  · exact Monitor.wp_pure hasked.inv (.inr ⟨hasked, hstate, hphase'⟩)
  · intro scratch U u us hgroup
    have hdecided := t.recon.onDiffGroup_decided hgroup.chain
    dsimp only
    generalize t.recon.onDiffGroup scratch = r at hdecided ⊢
    obtain ⟨action, recon⟩ := r
    cases hdecided with
    | next live joins =>
      obtain ⟨howes, hnext⟩ := hs.hear (m := .diff U u us) hgroup
        (by rw [hphase, Phase.take, if_pos joins])
      refine Monitor.wp_bind ((wp_pushGroup_relay howes _).mono ?_)
      rintro ⟨ok, t'⟩ h' - (hstop | ⟨hok, hrecon, hsettled, hrelay⟩)
      · exact wp_of_stopped hstop turn_of_stopped _
      · obtain rfl : ok = true := hok
        refine Monitor.wp_pure hsettled.inv (.inr ⟨hsettled, ?_, ?_⟩)
        · rw [hrecon]
          exact live
        · rw [hrelay, hnext, hrecon]
    | gap live apart =>
      obtain ⟨howes, -⟩ := hs.hear (m := .diff U u us) hgroup
        (by rw [hphase, Phase.take, if_neg apart])
      exact Monitor.wp_pure howes.inv (.inr howes)
    | needSnapshot idle => exact absurd (hstate.symm.trans idle) (by decide)
    | drop await old => exact absurd (hstate.symm.trans await) (by decide)
    | bracket await after joins => exact absurd (hstate.symm.trans await) (by decide)
    | tooOld await after apart => exact absurd (hstate.symm.trans await) (by decide)

/-- Closing the connection leaves nothing to be pushed. -/
theorem Owes.lose (hs : Settled h) : Settled (h ++ [.lost]) := by
  refine ⟨?_, hs.asked.concat (by rintro ⟨⟩)⟩
  have hpushed : pushedIn (h ++ [.lost]) = pushedIn h :=
    (List.filterMap_append ..).trans (List.append_nil _)
  rw [hpushed, relay_append]
  exact hs.carried

theorem wp_reconnect_relay (t : MarketDataThread) (hs : Settled h) :
    (relayMonitor parser params).wp (fun _ h' => Settled h') (reconnect t) h := by
  refine Monitor.wp_bind (Monitor.wp_perform hs.inv fun _ _ => ⟨hs.lose.inv, ?_⟩)
  refine Monitor.wp_bind (Monitor.wp_perform_silent (fun _ => rfl) hs.lose.inv fun _ _ => ?_)
  exact Monitor.wp_pure hs.lose.inv hs.lose

theorem wp_connectedRound_relay (t : MarketDataThread) (hs : Settled h) :
    (relayMonitor parser params).wp
      (Monitor.turn (unlessStopped fun _ h' => Settled h') (unlessStopped fun _ h' => Settled h'))
      (connectedRound parser params rounds t) h := by
  refine Monitor.wp_bind ((wp_attempts_relay _ t hs).mono ?_)
  rintro ⟨result, t'⟩ h' - (hstop | ⟨hsettled, hlive⟩)
  · exact wp_of_stopped hstop turn_of_stopped _
  have hreconnect : ∀ (t : MarketDataThread) (h : List Note), Settled h →
      (relayMonitor parser params).wp
        (Monitor.turn (unlessStopped fun _ h' => Settled h') (unlessStopped fun _ h' => Settled h'))
        (reconnect t >>= fun t => pure (.inl (false, t)) :
          MdProg ((Bool × MarketDataThread) ⊕ MarketDataThread)) h := fun t h hs =>
    Monitor.wp_bind ((wp_reconnect_relay t hs).mono fun _ _ _ hs =>
      Monitor.wp_pure hs.inv (.inr hs))
  cases result with
  | kStopped => exact Monitor.wp_pure hsettled.inv (.inr hsettled)
  | kSnapshotTooOld => exact hreconnect t' h' hsettled
  | kError => exact hreconnect t' h' hsettled
  | kLive =>
    refine Monitor.wp_bind ((wp_runLive_relay (hlive rfl)).mono ?_)
    rintro ⟨gap, t''⟩ h'' - (hstop | hsettled')
    · exact wp_of_stopped hstop turn_of_stopped _
    · refine wp_unlessSet hsettled' turn_of_stopped ?_
      cases gap with
      | true => exact Monitor.wp_pure hsettled'.inv (.inr hsettled')
      | false => exact hreconnect _ h'' hsettled'

theorem wp_run_relay (t : MarketDataThread) (hs : Settled h) :
    (relayMonitor parser params).wp (fun _ _ => True) (run parser params rounds t) h := by
  have hloop : (relayMonitor parser params).wp (unlessStopped fun _ h' => Settled h')
      (runLoop parser params rounds t) h := by
    refine Monitor.wp_loop (unlessStopped fun _ h' => Settled h') ?_ rounds (.inr hs)
    rintro ⟨connected, t⟩ h (hstop | hs)
    · exact wp_of_stopped hstop turn_of_stopped _
    refine wp_unlessSet hs turn_of_stopped ?_
    cases connected with
    | true => exact wp_connectedRound_relay t hs
    | false =>
      refine Monitor.wp_ite (Monitor.wp_perform_silent (fun _ => rfl) hs.inv fun _ _ => rfl)
        (wp_connectedRound_relay t hs) ?_
      refine Monitor.wp_bind (Monitor.wp_perform_silent (fun _ => rfl) hs.inv fun _ _ => ?_)
      exact Monitor.wp_pure hs.inv (.inr hs)
  refine Monitor.wp_bind (hloop.mono ?_)
  rintro t' h' - (hstop | hs)
  · exact wp_of_stopped hstop (fun _ _ _ => trivial) _
  · refine Monitor.wp_bind (Monitor.wp_perform hs.inv fun _ _ => ⟨hs.lose.inv, ?_⟩)
    exact Monitor.wp_pure hs.lose.inv trivial

theorem settled_nil : Settled [] where
  carried := ⟨[], rfl, .nil⟩
  asked := by
    intro pre post hsplit
    cases pre <;> cases hsplit

end Thread

/-- What a history tells of pushes is what was pushed. -/
theorem pushedIn_notes (parser : String → Option Dom) (params : MarketDataParams)
    (trace : List ((c : MdCall) × MdCall.Answer c)) :
    pushedIn (trace.flatMap fun x => note parser params x.1 x.2) =
      trace.flatMap fun x => MarketDataThread.pushed x.1 x.2 := by
  rw [pushedIn, List.filterMap_flatMap]
  refine congrArg (trace.flatMap ·) (funext fun x => ?_)
  obtain ⟨c, x⟩ := x
  cases c with
  | stopLoad => cases x <;> rfl
  | tryPush ev => cases x <;> rfl
  | read =>
    dsimp only [note]
    split
    · cases readDepthDiff parser x.payload params.filters <;> rfl
    · rfl
  | get host target =>
    dsimp only [note]
    cases x.bind fun json => parseDepthSnapshot parser json params.filters <;> rfl
  | connect | close | nowNs | sleepMs => rfl

/-- **Every message is relayed as the rule says.**  For every behaviour of the transports, the
queue and the clock, as long as the thread has not found the stop flag set: the events pushed
are those of the messages to be passed on, each once, whole and in order, except that the last
one may still be under way; and whenever the thread asked for a message, none was. -/
theorem relays_every_message (parser : String → Option Dom) (params : MarketDataParams)
    (rounds : Nat) (answers : Nat → (c : MdCall) → MdCall.Answer c) (calls : Nat) :
    let h := ((run parser params rounds .new).exec answers calls).flatMap
      fun x => note parser params x.1 x.2
    .stopped ∉ h →
      (∃ due, Carried (relay h).passed (pushedIn h ++ due)) ∧
      ∀ pre post, h = pre ++ .asked :: post → Carried (relay pre).passed (pushedIn pre) := by
  intro h hrunning
  have hinv : (relayMonitor parser params).inv h :=
    Monitor.wp_exec (wp_run_relay new settled_nil) answers (fun _ _ => trivial) calls
  obtain ⟨due, howes⟩ := hinv.resolve_left hrunning
  exact ⟨⟨due, howes.carried⟩, howes.asked⟩

/-- What is noted while the two messages are delivered. -/
def tinyNotes (calls : Nat) : List Note :=
  ((run Pipeline.tinyParser Pipeline.tinyParams 3 .new).exec Pipeline.tinyAnswers calls).flatMap
    fun x => note Pipeline.tinyParser Pipeline.tinyParams x.1 x.2

theorem relays_every_message_tiny :
    (relay (tinyNotes 10)).passed.length = 2 ∧ (pushedIn (tinyNotes 10)).length = 2 ∧
      ∃ due, Carried (relay (tinyNotes 10)).passed (pushedIn (tinyNotes 10) ++ due) :=
  ⟨by decide +kernel, by decide +kernel,
    (relays_every_message Pipeline.tinyParser Pipeline.tinyParams 3 Pipeline.tinyAnswers 10
      (by decide +kernel)).1⟩

/-- **What has been pushed is never behind what has been received.**  Let the parsed messages be
true of a sequence of level updates.  Until the stop flag is found set, whenever the thread asks
for a message in the live state, the events it has pushed give the exchange's book at the final
id of the last message it has received. -/
theorem pushed_book_current (e : Nat → L2Book.LevelUpdate) (parser : String → Option Dom)
    (params : MarketDataParams) (rounds : Nat) (answers : Nat → (c : MdCall) → MdCall.Answer c)
    (htruth : ∀ i c, Delivers (Exchange.SnapshotOf e) (Exchange.DiffOf e) parser params c
      (answers i c)) (calls : Nat) :
    let h := ((run parser params rounds .new).exec answers calls).flatMap
      fun x => note parser params x.1 x.2
    .stopped ∉ h → ∀ pre post u, h = pre ++ .asked :: post → (relay pre).phase = .live u →
      (∃ U us, (received pre).getLast? = some (.diff U u us)) ∧
      PriceMap.empty.applyAll (updatesSince (pushedIn pre)) =
        Exchange.book e u.toNat := by
  intro h hrunning pre post u hsplit hlive
  have hinv : (relayMonitor parser params).inv h :=
    Monitor.wp_exec (wp_run_relay new settled_nil) answers (fun _ _ => trivial) calls
  obtain ⟨due, howes⟩ := hinv.resolve_left hrunning
  obtain ⟨U, us, hlast, ms, hpassed⟩ := relay_live pre hlive
  refine ⟨⟨U, us, hlast⟩, ?_⟩
  -- the last event pushed ends the group of that message
  have hcarried := howes.asked pre post hsplit
  rw [hpassed] at hcarried
  obtain ⟨before, group, hpushed, hgroup⟩ := hcarried.last
  obtain ⟨front, ev, rfl, starts, hfrag⟩ := hgroup.getLast
  obtain ⟨ph, hfeed⟩ := run_feed rounds new answers htruth calls
  rw [← pushedIn_notes parser params] at hfeed
  have hall : pushedIn h = (before ++ front) ++ ev :: pushedIn (.asked :: post) := by
    rw [hsplit, pushedIn, List.filterMap_append]
    show pushedIn pre ++ _ = _
    rw [hpushed]
    simp [pushedIn]
  have hmap := ((Exchange.reconstructs hfeed).1 _ _ _ hall).map hfrag.kind_eq hfrag.cont_eq
  rwa [hfrag.finalId_eq, List.append_assoc, ← hpushed] at hmap

/-- At the third question both messages have been passed on. -/
theorem pushed_book_current_tiny :
    (received (tinyNotes 11)).length = 2 ∧
      PriceMap.empty.applyAll (updatesSince (pushedIn (tinyNotes 11))) =
        Exchange.book Pipeline.tinyExchange 2 :=
  ⟨by decide +kernel, (pushed_book_current Pipeline.tinyExchange Pipeline.tinyParser
    Pipeline.tinyParams 3 Pipeline.tinyAnswers Pipeline.tinyAnswers_true 12 (by decide +kernel)
    (tinyNotes 11) ((tinyNotes 12).drop 7) 2 (by decide +kernel) (by decide +kernel)).2⟩

end MarketDataThread
end Asmm
