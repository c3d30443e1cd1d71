import CryptoBook.LiveReplay
import CryptoBook.VerifierGrammar

/-! # Where the cross-check starts and ends

The cross-check replays events of the engine's ring on a REST snapshot, from the group that
brackets the snapshot's id on.  The ring knows nothing of groups: it is cleared at the start
of a snapshot, and trimmed by the number of events.  `Drain` returns whenever the queue is
empty, in the middle of a group too.

What is replayed is a suffix of the events popped.  It hangs together as the feed does, so
it is made of whole groups as soon as its two ends are boundaries between groups
(`aligned_iff`).  The end is one if `Drain` stopped at one.  The beginning is one unless the
ring starts inside the bracket group: an event of that group further up in the ring would
have been found first.  Neither is checked, and a cross-check in the middle of a group
reports a divergence where there is none (`mid_group_mismatch`). -/
namespace Asmm
open Runs

namespace CrossCheck

/-- A diff event past the snapshot. -/
def past (lastId : UInt64) (ev : MarketEvent) : Bool :=
  decide (ev.kind = .kDepthDiff) && decide (lastId < ev.finalUpdateId)

/-- The events that are applied to the scratch book. -/
def replayed (lastId : UInt64) (recent : List MarketEvent) : List MarketEvent :=
  recent.dropWhile fun ev => !past lastId ev

/-- A diff event of the group that brackets the snapshot. -/
def Brackets (lastId : UInt64) (ev : MarketEvent) : Prop :=
  ev.kind = .kDepthDiff ∧ ev.firstUpdateId ≤ lastId + 1 ∧ lastId < ev.finalUpdateId

variable {lastId : UInt64} {b b' : L2Book} {evs : List MarketEvent}

theorem past_iff {ev : MarketEvent} :
    past lastId ev = true ↔ ev.kind = .kDepthDiff ∧ lastId < ev.finalUpdateId := by
  simp [past]

/-- Once started, every event is applied, and a snapshot ends the check. -/
theorem replayRecent_started (h : replayRecent lastId true b evs = (b', some true)) :
    b' = evs.foldl L2Book.applyEvent b ∧ ∀ ev ∈ evs, ev.kind ≠ .kSnapshot := by
  induction evs generalizing b with
  | nil =>
    obtain ⟨rfl, -⟩ := Prod.mk.inj h
    exact ⟨rfl, nofun⟩
  | cons ev evs ih =>
    unfold replayRecent at h
    split at h
    · cases (Prod.mk.inj h).2
    · next hkind =>
      obtain ⟨hbook, hall⟩ := ih h
      refine ⟨hbook, fun e he => ?_⟩
      rcases List.mem_cons.mp he with rfl | he
      · exact hkind
      · exact hall e he

/-- Once started, events that are no snapshots are all applied. -/
theorem replayRecent_applying (hdiffs : ∀ ev ∈ evs, ev.kind ≠ .kSnapshot) :
    replayRecent lastId true b evs = (evs.foldl L2Book.applyEvent b, some true) := by
  induction evs generalizing b with
  | nil => rfl
  | cons ev evs ih =>
    rw [replayRecent, if_neg (hdiffs ev List.mem_cons_self)]
    exact ih fun e he => hdiffs e (List.mem_cons_of_mem _ he)

/-- **The search for the bracket group**: everything before the first diff past the snapshot
is skipped, and that diff decides. -/
theorem replayRecent_searching :
    replayRecent lastId false b evs = match replayed lastId evs with
      | [] => (b, some false)
      | front :: rest =>
          if front.firstUpdateId ≤ lastId + 1 then
            replayRecent lastId true (b.applyEvent front) rest
          else (b, none) := by
  induction evs with
  | nil => rfl
  | cons ev evs ih =>
    rw [replayRecent]
    by_cases hpast : past lastId ev = true
    · have hdrop : replayed lastId (ev :: evs) = ev :: evs := by
        simp [replayed, hpast]
      obtain ⟨hkind, hafter⟩ := past_iff.mp hpast
      rw [hdrop, if_neg (not_not.mpr hkind), if_neg (UInt64.not_le.mpr hafter)]
    · have hdrop : replayed lastId (ev :: evs) = replayed lastId evs := by
        simp [replayed, hpast]
      rw [hdrop, ← ih]
      rw [past_iff, not_and, UInt64.not_lt] at hpast
      split
      · rfl
      · next hkind => rw [if_pos (hpast (not_not.mp hkind))]

/-- The first event replayed is a diff past the snapshot. -/
theorem past_of_replayed {front : MarketEvent} {rest : List MarketEvent}
    (h : replayed lastId evs = front :: rest) : past lastId front = true := by
  have hfront := List.head?_dropWhile_not (fun ev => !past lastId ev) evs
  rw [show evs.dropWhile (fun ev => !past lastId ev) = front :: rest from h] at hfront
  simpa using hfront

/-- The check goes on to compare only if it started at a fragment of the bracket group. -/
theorem replayRecent_compares (h : replayRecent lastId false b evs = (b', some true)) :
    b' = (replayed lastId evs).foldl L2Book.applyEvent b ∧
    (∀ ev ∈ replayed lastId evs, ev.kind ≠ .kSnapshot) ∧
    ∃ front rest, replayed lastId evs = front :: rest ∧ Brackets lastId front := by
  rw [replayRecent_searching] at h
  cases hreplayed : replayed lastId evs with
  | nil =>
    rw [hreplayed] at h
    cases (Prod.mk.inj h).2
  | cons front rest =>
    obtain ⟨hkind, hafter⟩ := past_iff.mp (past_of_replayed hreplayed)
    rw [hreplayed] at h
    dsimp only at h
    split at h
    · next hjoins =>
      obtain ⟨hbook, hall⟩ := replayRecent_started h
      refine ⟨hbook, List.forall_mem_cons.mpr ⟨?_, hall⟩, front, rest, rfl, hkind, hjoins, hafter⟩
      rw [hkind]
      decide
    · cases (Prod.mk.inj h).2

/-- Nothing stops a check that starts at the head of the ring and meets no snapshot. -/
theorem replayRecent_head {front : MarketEvent} (hfront : Brackets lastId front)
    (hdiffs : ∀ ev ∈ evs, ev.kind ≠ .kSnapshot) :
    replayRecent lastId false b (front :: evs) =
      ((front :: evs).foldl L2Book.applyEvent b, some true) := by
  obtain ⟨hkind, hjoins, hafter⟩ := hfront
  have hreplayed : replayed lastId (front :: evs) = front :: evs := by
    simp [replayed, past_iff.mpr ⟨hkind, hafter⟩]
  rw [replayRecent_searching, hreplayed]
  dsimp only
  rw [if_pos hjoins]
  exact replayRecent_applying hdiffs

section CrossCheck
variable {live scratch : L2Book} {msg : CrossCheckMsg} {recent : List MarketEvent} {levels : Int}

theorem crossCheck_of_started {after : L2Book}
    (h : replayRecent msg.lastUpdateId false (seed scratch msg) recent = (after, some true)) :
    crossCheck live msg recent levels scratch = (compareTop live after levels, after) := by
  rw [crossCheck, h]

theorem crossCheck_compares
    (h : (crossCheck live msg recent levels scratch).1 ≠ .kSkipped) :
    (crossCheck live msg recent levels scratch).2 =
      (replayed msg.lastUpdateId recent).foldl L2Book.applyEvent (seed scratch msg) ∧
    (∀ ev ∈ replayed msg.lastUpdateId recent, ev.kind ≠ .kSnapshot) ∧
    ∃ front rest, replayed msg.lastUpdateId recent = front :: rest ∧
      Brackets msg.lastUpdateId front := by
  unfold crossCheck at h ⊢
  cases hreplay : replayRecent msg.lastUpdateId false (seed scratch msg) recent with
  | mk after found =>
    rw [hreplay] at h
    match found with
    | some true => exact replayRecent_compares hreplay
    | some false => exact absurd rfl h
    | none => exact absurd rfl h

end CrossCheck
end CrossCheck

/-! ## The ring -/

namespace Engine
variable {F : Type} [Double F]

/-- The ring forgets old events and nothing else. -/
theorem recordRing_suffix (ring : List MarketEvent) (ev : MarketEvent) :
    ∃ trimmed, ring ++ [ev] = trimmed ++ recordRing ring ev := by
  unfold recordRing
  dsimp only
  split
  · exact ⟨_, (List.take_append_drop ..).symm⟩
  · exact ⟨[], rfl⟩

theorem ring_pop (e : Engine F) (ev : MarketEvent) :
    (e.pop ev).1.ring = recordRing (if ev.startsSnapshot then [] else e.ring) ev := by
  obtain ⟨_, _, _, _, hframe⟩ := (e.absorb ev).1.tick_frame ev
  show ((e.absorb ev).1.tick ev).1.ring = _
  rw [hframe]
  unfold absorb
  cases ev.startsSnapshot <;> rfl

omit [Double F] in
theorem ring_handleCrossChecks (e : Engine F) (msgs : List CrossCheckMsg) :
    (e.handleCrossChecks msgs).ring = e.ring := by
  unfold handleCrossChecks
  split
  · have hstep : ∀ (e' : Engine F) (msg : CrossCheckMsg), e'.ring = e.ring →
        (e'.handleCrossCheck msg).ring = e.ring := fun _ _ h => h
    exact run_invariant hstep rfl msgs
  · rfl

end Engine

namespace Session
variable {F : Type} [Double F]

/-- The ring holds the last events popped. -/
def Recorded (events : List MarketEvent) (s : Session F) : Prop :=
  ∃ trimmed, events = trimmed ++ s.engine.ring

theorem Recorded.pop {events : List MarketEvent} {s : Session F} (h : Recorded events s)
    (ev : MarketEvent) : Recorded (events ++ [ev]) (s.pop ev) := by
  obtain ⟨trimmed, rfl⟩ := h
  have hring : (s.pop ev).engine.ring =
      Engine.recordRing (if ev.startsSnapshot then [] else s.engine.ring) ev :=
    s.engine.ring_pop ev
  obtain ⟨more, hmore⟩ :=
    Engine.recordRing_suffix (if ev.startsSnapshot then [] else s.engine.ring) ev
  rw [← hring] at hmore
  cases hstarts : ev.startsSnapshot with
  | true =>
    rw [hstarts, if_pos rfl] at hmore
    exact ⟨trimmed ++ s.engine.ring ++ more, by rw [List.append_assoc _ more, ← hmore]; simp⟩
  | false =>
    rw [hstarts, if_neg Bool.false_ne_true] at hmore
    exact ⟨trimmed ++ more, by rw [List.append_assoc, List.append_assoc, hmore]⟩

theorem Recorded.step {events : List MarketEvent} {s : Session F} (h : Recorded events s)
    (op : Op) : Recorded (events ++ op.events) (s.step op) := by
  have hframe : ∀ e : Engine F, e.ring = s.engine.ring →
      Recorded (events ++ []) { s with engine := e } := by
    intro e he
    rw [List.append_nil]
    exact h.imp fun trimmed heq => heq.trans (by rw [he])
  cases op with
  | drain batch => exact run_recorded (fun _ _ ev h => h.pop ev) h batch
  | handleCrossChecks msgs => exact hframe _ (Engine.ring_handleCrossChecks ..)
  | checkStale nowNs =>
    refine hframe _ ?_
    unfold Engine.checkStale
    split
    · split
      · split <;> rfl
      · rfl
    · rfl
  | flush => exact hframe _ rfl
  | timedFlush nowNs =>
    refine hframe _ ?_
    unfold Engine.timedFlush
    split <;> rfl

end Session

/-! ## Neighbours in a feed -/

/-- A diff belongs where it stands. -/
def Adjoins (a b : MarketEvent) : Prop := b.kind = .kDepthDiff → Joined a b

/-- The last event of a chain tells whether it is whole. -/
theorem FragmentChain.getLast_continues {kind : EventKind} {U u : UInt64} {whole : Bool}
    {evs : List MarketEvent} (hc : FragmentChain kind U u whole evs) :
    ∃ last, evs.getLast? = some last ∧ last.continues = !whole := by
  induction hc with
  | last frag => exact ⟨_, rfl, by rw [Bool.not_not]; exact frag.cont_eq⟩
  | more frag rest ih =>
    obtain ⟨last, hlast, hcont⟩ := ih
    exact ⟨last, by rw [List.getLast?_cons, hlast]; rfl, hcont⟩

theorem FragmentChain.kind_eq {kind : EventKind} {U u : UInt64} {whole : Bool}
    {evs : List MarketEvent} (hc : FragmentChain kind U u whole evs) :
    ∀ ev ∈ evs, ev.kind = kind := by
  induction hc with
  | last frag => simpa using frag.kind_eq
  | more frag rest ih => exact List.forall_mem_cons.mpr ⟨frag.kind_eq, ih⟩

/-- No event of the list breaks off a group at its end. -/
def EndsWhole (evs : List MarketEvent) : Prop := ∀ ev ∈ evs.getLast?, ev.continues = false

/-- A whole chain ends whole, whatever stands before it. -/
theorem FragmentChain.endsWhole {kind : EventKind} {U u : UInt64} {evs : List MarketEvent}
    (hc : FragmentChain kind U u true evs) (h : List MarketEvent) : EndsWhole (h ++ evs) := by
  obtain ⟨last, hlast, hcont⟩ := hc.getLast_continues
  intro ev hev
  rw [List.getLast?_append, hlast] at hev
  exact Option.some.inj hev ▸ hcont

theorem EndsWhole.append {xs ys : List MarketEvent} (hx : EndsWhole xs) (hy : EndsWhole ys) :
    EndsWhole (xs ++ ys) := by
  intro ev hev
  rw [List.getLast?_append] at hev
  rcases Option.or_eq_some_iff.mp hev with h | ⟨-, h⟩
  · exact hy ev h
  · exact hx ev h

theorem EndsWhole.of_append {xs ys : List MarketEvent} (h : EndsWhole (xs ++ ys)) :
    EndsWhole ys := by
  intro ev hev
  refine h ev ?_
  rw [List.getLast?_append, hev]
  rfl

section Feed
variable {S : UInt64 → List L2Book.LevelUpdate → Prop}
  {D : UInt64 → UInt64 → List L2Book.LevelUpdate → Prop} {h : List MarketEvent} {ph : Phase}

/-- A chain that may follow. -/
theorem adjoins_append {evs : List MarketEvent} {kind : EventKind} {U u : UInt64}
    (hh : h.IsChain Adjoins) (hc : FragmentChain kind U u true evs)
    (hjoin : kind = .kDepthDiff → EndsWhole h) : (h ++ evs).IsChain Adjoins := by
  have hcoherent : Coherent (evs ++ []) := hc.coherent nofun List.isChain_nil nofun
  rw [List.append_nil] at hcoherent
  refine List.isChain_append.mpr ⟨hh, hcoherent.imp fun a b hab _ => hab, ?_⟩
  intro a ha b hb hdiff
  obtain ⟨front, rest, rfl, hkind, -⟩ := hc.front
  obtain rfl : front = b := Option.some.inj hb
  have hwhole := hjoin (hkind.symm.trans hdiff) a ha
  exact ⟨fun hcont => absurd (hwhole.symm.trans hcont) (by decide), fun _ => Or.inl hdiff⟩

/-- **Every diff of a feed belongs where it stands**, and unless the feed has broken off its
last group is whole. -/
theorem Feed.adjoins (hf : Feed S D h ph) :
    h.IsChain Adjoins ∧ (ph ≠ .idle → EndsWhole h) := by
  induction hf with
  | start => exact ⟨List.isChain_nil, fun _ => nofun⟩
  | snapshot before group message ih =>
    exact ⟨adjoins_append ih.1 group.chain nofun, fun _ => group.chain.endsWhole _⟩
  | bracket before group message after joins ih =>
    exact ⟨adjoins_append ih.1 group.chain fun _ => ih.2 nofun, fun _ => group.chain.endsWhole _⟩
  | next before group message joins ih =>
    exact ⟨adjoins_append ih.1 group.chain fun _ => ih.2 nofun, fun _ => group.chain.endsWhole _⟩
  | cut whole ih => exact ⟨(List.isChain_append.mp ih.1).1, fun hne => absurd rfl hne⟩

/-- A feed has no other events. -/
theorem Feed.kinds (hf : Feed S D h ph) :
    ∀ ev ∈ h, ev.kind = .kSnapshot ∨ ev.kind = .kDepthDiff := by
  induction hf with
  | start => nofun
  | snapshot before group message ih =>
    exact List.forall_mem_append.mpr ⟨ih, fun ev hev => Or.inl (group.chain.kind_eq ev hev)⟩
  | bracket before group message after joins ih =>
    exact List.forall_mem_append.mpr ⟨ih, fun ev hev => Or.inr (group.chain.kind_eq ev hev)⟩
  | next before group message joins ih =>
    exact List.forall_mem_append.mpr ⟨ih, fun ev hev => Or.inr (group.chain.kind_eq ev hev)⟩
  | cut whole ih => exact fun ev hev => ih ev (List.mem_append_left _ hev)

end Feed

/-! ## Alignment -/

/-- The events are whole diff groups. -/
def WholeGroups (evs : List MarketEvent) : Prop :=
  ∃ groups : List (List MarketEvent), evs = groups.flatten ∧
    ∀ g ∈ groups, ∃ U u, FragmentChain .kDepthDiff U u true g

theorem WholeGroups.endsWhole {evs : List MarketEvent} (h : WholeGroups evs) : EndsWhole evs := by
  obtain ⟨groups, rfl, hall⟩ := h
  induction groups with
  | nil => nofun
  | cons g groups ih =>
    obtain ⟨U, u, hg⟩ := hall g List.mem_cons_self
    exact (hg.endsWhole []).append (ih fun g' hg' => hall g' (List.mem_cons_of_mem _ hg'))

/-- Coherent diffs that end whole begin with a whole group. -/
theorem Coherent.firstGroup {ev : MarketEvent} {evs : List MarketEvent}
    (hcoherent : Coherent (ev :: evs)) (hkind : ev.kind = .kDepthDiff)
    (hends : EndsWhole (ev :: evs)) :
    ∃ chain rest, ev :: evs = (ev :: chain) ++ rest ∧
      FragmentChain .kDepthDiff ev.firstUpdateId ev.finalUpdateId true (ev :: chain) ∧
      Coherent rest ∧ EndsWhole rest := by
  obtain ⟨chain, rest, whole, heq, hchain, hcut, hrest, -⟩ := hcoherent.exists_chain
  rw [hkind] at hchain
  rw [heq] at hends
  have hwhole : whole = true := by
    refine (Bool.not_eq_false whole).mp fun hfalse => ?_
    obtain ⟨last, hlast, hcont⟩ := hchain.getLast_continues
    rw [hcut hfalse, List.append_nil] at hends
    have hnot := hends last hlast
    rw [hcont, hfalse] at hnot
    cases hnot
  exact ⟨chain, rest, heq, hwhole ▸ hchain, hrest, hends.of_append⟩

theorem Coherent.wholeGroups {n : Nat} : ∀ {evs : List MarketEvent}, evs.length ≤ n →
    Coherent evs → (∀ ev ∈ evs, ev.kind = .kDepthDiff) → EndsWhole evs → WholeGroups evs := by
  -- on the length: a group is taken off the front in each round
  induction n with
  | zero =>
    intro evs hlen _ _ _
    exact ⟨[], List.length_eq_zero_iff.mp (Nat.le_zero.mp hlen), nofun⟩
  | succ n ih =>
    intro evs hlen hcoherent hdiffs hends
    cases evs with
    | nil => exact ⟨[], rfl, nofun⟩
    | cons ev evs =>
      obtain ⟨chain, rest, heq, hchain, hrest, hends'⟩ :=
        hcoherent.firstGroup (hdiffs ev List.mem_cons_self) hends
      rw [heq] at hlen hdiffs ⊢
      have hshort : rest.length ≤ n := by
        simp only [List.length_append, List.length_cons] at hlen
        omega
      obtain ⟨groups, rfl, hgroups⟩ :=
        ih hshort hrest (fun e he => hdiffs e (List.mem_append_right _ he)) hends'
      exact ⟨(ev :: chain) :: groups, rfl, List.forall_mem_cons.mpr ⟨⟨_, _, hchain⟩, hgroups⟩⟩

namespace CrossCheck

/-- What is replayed begins with the whole bracket group, and goes on with all fragments of
every group popped after it. -/
def Aligned (lastId : UInt64) (popped replay : List MarketEvent) : Prop :=
  ∃ before bracket later U u, popped = before ++ replay ∧ EndsWhole before ∧
    replay = bracket ++ later ∧ FragmentChain .kDepthDiff U u true bracket ∧
    U ≤ lastId + 1 ∧ lastId < u ∧ WholeGroups later

theorem Aligned.endsWhole {lastId : UInt64} {popped replay : List MarketEvent}
    (h : Aligned lastId popped replay) : EndsWhole popped := by
  obtain ⟨before, bracket, later, U, u, hbefore, -, hreplay, hbracket, -, -, hlater⟩ := h
  rw [hbefore, hreplay, ← List.append_assoc]
  exact (hbracket.endsWhole _).append hlater.endsWhole

/-- The last event popped ends its group; and if the ring starts with an event of the
bracket group, then the event popped before it, which the ring has lost, ended its group
too. -/
structure OnBoundaries (lastId : UInt64) (popped ring : List MarketEvent) : Prop where
  ends : EndsWhole popped
  starts : ∀ trimmed, popped = trimmed ++ ring → ∀ first ∈ ring.head?, Brackets lastId first →
    EndsWhole trimmed

/-- Neighbours among diffs hang together. -/
theorem coherent_of_adjoins {evs : List MarketEvent} (h : evs.IsChain Adjoins)
    (hdiffs : ∀ ev ∈ evs, ev.kind = .kDepthDiff) : Coherent evs := by
  induction evs with
  | nil => exact List.isChain_nil
  | cons a evs ih =>
    cases evs with
    | nil => exact List.isChain_singleton a
    | cons b evs =>
      obtain ⟨hab, hrest⟩ := List.isChain_cons_cons.mp h
      refine List.isChain_cons_cons.mpr ⟨hab (hdiffs b (by simp)), ih hrest fun e he => ?_⟩
      exact hdiffs e (List.mem_cons_of_mem _ he)

/-- An event that was passed over is not continued into the bracket group: it would have
been of that group itself. -/
theorem endsWhole_of_passed {lastId : UInt64} {passed : List MarketEvent} {front : MarketEvent}
    (hpassed : ∀ ev ∈ passed, past lastId ev = false) (hfront : past lastId front = true)
    (hadjoins : ∀ ev ∈ passed.getLast?, Adjoins ev front) : EndsWhole passed := by
  intro ev hev
  refine Bool.not_eq_true _ ▸ fun hcont => ?_
  obtain ⟨hkind, hafter⟩ := past_iff.mp hfront
  obtain ⟨hsame, -, hfinal⟩ := (hadjoins ev hev hkind).1 hcont
  have hpast : past lastId ev = true :=
    past_iff.mpr ⟨hsame.symm.trans hkind, hfinal ▸ hafter⟩
  rw [hpassed ev (List.mem_of_getLast? hev)] at hpast
  cases hpast

/-- **What is replayed is aligned exactly if it starts and ends on boundaries.** -/
theorem aligned_iff {lastId : UInt64} {popped trimmed ring : List MarketEvent}
    (hpopped : popped = trimmed ++ ring) (hadjoins : popped.IsChain Adjoins)
    (hdiffs : ∀ ev ∈ replayed lastId ring, ev.kind = .kDepthDiff)
    {front : MarketEvent} {rest : List MarketEvent}
    (hfront : replayed lastId ring = front :: rest) (hbrackets : Brackets lastId front) :
    Aligned lastId popped (replayed lastId ring) ↔ OnBoundaries lastId popped ring := by
  have hring : ring = ring.takeWhile (fun ev => !past lastId ev) ++ replayed lastId ring :=
    List.takeWhile_append_dropWhile.symm
  have hpassed : ∀ ev ∈ ring.takeWhile (fun ev => !past lastId ev), past lastId ev = false :=
    fun ev hev => by simpa using List.all_eq_true.mp List.all_takeWhile ev hev
  generalize ring.takeWhile (fun ev => !past lastId ev) = passed at hring hpassed
  have hsplit : popped = (trimmed ++ passed) ++ replayed lastId ring := by
    rw [hpopped, List.append_assoc, ← hring]
  constructor
  · intro haligned
    refine ⟨haligned.endsWhole, fun trimmed' htrimmed first hfirst hfirstBrackets => ?_⟩
    obtain ⟨before, -, -, -, -, hbefore, hwhole, -⟩ := haligned
    obtain rfl : before = trimmed ++ passed :=
      List.append_cancel_right (hbefore.symm.trans hsplit)
    obtain rfl : trimmed' = trimmed := List.append_cancel_right (htrimmed.symm.trans hpopped)
    -- an event of the bracket group at the head of the ring is where the replay starts
    cases passed with
    | nil => rwa [List.append_nil] at hwhole
    | cons ev passed =>
      rw [hring] at hfirst
      obtain rfl : ev = first := Option.some.inj hfirst
      have hpast := past_iff.mpr ⟨hfirstBrackets.1, hfirstBrackets.2.2⟩
      rw [hpassed ev List.mem_cons_self] at hpast
      cases hpast
  · rintro ⟨hends, hstarts⟩
    have hjoints := hadjoins
    rw [hsplit] at hjoints hends
    obtain ⟨-, hreplayAdjoins, hjoint⟩ := List.isChain_append.mp hjoints
    have hcoherent := coherent_of_adjoins hreplayAdjoins hdiffs
    rw [hfront] at hcoherent hends hdiffs hjoint
    obtain ⟨chain, later, heq, hchain, hlater, hends'⟩ :=
      hcoherent.firstGroup (hdiffs front List.mem_cons_self) hends.of_append
    rw [heq] at hdiffs
    refine ⟨trimmed ++ passed, front :: chain, later, _, _, hsplit, ?_, hfront.trans heq, hchain,
      hbrackets.2.1, hbrackets.2.2, hlater.wholeGroups (Nat.le_refl _)
        (fun e he => hdiffs e (List.mem_append_right _ he)) hends'⟩
    cases passed with
    | nil =>
      rw [List.append_nil]
      exact hstarts trimmed hpopped front (by rw [hring, hfront]; rfl) hbrackets
    | cons ev passed =>
      -- the event before the replay is one that was passed over
      have hwhole : EndsWhole (ev :: passed) := by
        refine endsWhole_of_passed hpassed (past_iff.mpr ⟨hbrackets.1, hbrackets.2.2⟩) ?_
        intro e he
        refine hjoint e ?_ front rfl
        rw [List.getLast?_append, he]
        rfl
      intro e he
      rw [List.getLast?_append, List.getLast?_cons] at he
      exact hwhole e (by rw [List.getLast?_cons]; exact he)

end CrossCheck

namespace Session
open CrossCheck

section Alignment
variable {F : Type} [Double F] {S : UInt64 → List L2Book.LevelUpdate → Prop}
  {D : UInt64 → UInt64 → List L2Book.LevelUpdate → Prop} {ph : Phase}

/-- **The cross-check is aligned exactly on boundaries.**  An engine, with or without a log
and a strategy, has popped any part of a feed, split into `Drain` calls in any way and
interleaved with everything else it does.  Whenever a cross-check at that moment goes on to
compare levels: the scratch book is the REST snapshot with the `replayed` events of the
ring applied, and these are the whole bracket group and all fragments of every group after
it, if and only if the last event popped ended its group and the ring does not start inside
the bracket group. -/
theorem crosscheck_aligned_iff (staleThresholdMs : Int) (hasCrossChecks : Bool)
    (crosscheckLevels : Int) (log : Option EventLogWriter) (strat : Option (Strategy F))
    (ops : List Op) (hfeed : Feed S D (ops.flatMap Op.events) ph) (msg : CrossCheckMsg) :
    let e := (run step ⟨Engine.new staleThresholdMs hasCrossChecks crosscheckLevels log strat, []⟩
      ops).engine
    let r := crossCheck e.book msg e.ring e.crosscheckLevels e.scratch
    r.1 ≠ .kSkipped →
      r.2 = (replayed msg.lastUpdateId e.ring).foldl L2Book.applyEvent (seed e.scratch msg) ∧
      (Aligned msg.lastUpdateId (ops.flatMap Op.events) (replayed msg.lastUpdateId e.ring) ↔
        OnBoundaries msg.lastUpdateId (ops.flatMap Op.events) e.ring) := by
  intro e r hcompares
  obtain ⟨hscratch, hnosnap, front, rest, hfront, hbrackets⟩ := crossCheck_compares hcompares
  obtain ⟨trimmed, hpopped⟩ : Recorded ([] ++ ops.flatMap Op.events) (run step
      ⟨Engine.new staleThresholdMs hasCrossChecks crosscheckLevels log strat, []⟩ ops) :=
    run_traced Op.events (fun _ _ op h => h.step op) ⟨[], rfl⟩ ops
  rw [List.nil_append] at hpopped
  refine ⟨hscratch, aligned_iff hpopped hfeed.adjoins.1 (fun ev hev => ?_) hfront hbrackets⟩
  have hmem : ev ∈ ops.flatMap Op.events := by
    rw [hpopped]
    exact List.mem_append_right _ ((List.dropWhile_sublist _).subset hev)
  exact (hfeed.kinds ev hmem).resolve_left (hnosnap ev hev)

end Alignment

/-! ## A group in two fragments -/

/-- The levels of an event. -/
def levelsOf (levels : List DepthLevel) : Vector DepthLevel kMaxLevelsPerEvent :=
  Vector.ofFn fun i => levels.getD i ⟨0, 0⟩

/-- A snapshot at 1000 with one bid and one ask. -/
def twoLevels : MarketEvent :=
  { GapVerifier.snapshotStart 1000 with
    numBids := 1
    numAsks := 1
    levels := levelsOf [⟨100, 1⟩, ⟨200, 1⟩] }

/-- A fragment of the group that ends at 1005, with one new bid. -/
def newBid (px qty : Int64) (cont : Bool) : MarketEvent :=
  { GapVerifier.diff 1001 1005 cont with numBids := 1, levels := levelsOf [⟨px, qty⟩] }

/-- The exchange's book at 1003, when both new bids are in. -/
def restMsg : CrossCheckMsg where
  lastUpdateId := 1003
  numBids := 3
  numAsks := 1
  bids := Vector.ofFn fun i => [⟨102, 7⟩, ⟨101, 1⟩, ⟨100, 1⟩].getD i ⟨0, 0⟩
  asks := Vector.ofFn fun i => [⟨200, 1⟩].getD i ⟨0, 0⟩

/-- The engine that compares one level, after some `Drain` calls. -/
def drained (batches : List (List MarketEvent)) : Engine Strategy.Whole :=
  (run step ⟨Engine.new 1000 true 1 none none, []⟩ (batches.map Op.drain)).engine

/-- The snapshot, and a group with a new bid in each of its two fragments. -/
theorem feed_newBids : Feed (fun _ _ => True) (fun _ _ _ => True)
    [twoLevels, newBid 101 1 true, newBid 102 7 false] (.live 1005) := by
  have hsnapshot : Group .kSnapshot 1000 1000 true twoLevels.updates [twoLevels] :=
    .last ⟨rfl, rfl, rfl, by decide, by decide⟩
  have hgroup : Group .kDepthDiff 1001 1005 false
      ((newBid 101 1 true).updates ++ (newBid 102 7 false).updates)
      [newBid 101 1 true, newBid 102 7 false] :=
    .more ⟨rfl, rfl, rfl, by decide, by decide⟩ (.last ⟨rfl, rfl, rfl, by decide, by decide⟩)
  exact .bracket (.snapshot .start hsnapshot trivial) hgroup trivial (by decide) (by decide)

/-- The whole group is popped, though in two `Drain` calls: what is replayed is the bracket
group, and the books match. -/
theorem crosscheck_aligned_whole_group :
    let e := drained [[twoLevels, newBid 101 1 true], [newBid 102 7 false]]
    (crossCheck e.book restMsg e.ring e.crosscheckLevels e.scratch).1 = .kMatch ∧
    Aligned 1003 [twoLevels, newBid 101 1 true, newBid 102 7 false] (replayed 1003 e.ring) := by
  intro e
  have hmatch : (crossCheck e.book restMsg e.ring e.crosscheckLevels e.scratch).1 = .kMatch := by
    decide +kernel
  have hhead : e.ring.head? = some twoLevels := by decide +kernel
  refine ⟨hmatch, (crosscheck_aligned_iff 1000 true 1 none none
    ([[twoLevels, newBid 101 1 true], [newBid 102 7 false]].map Op.drain) feed_newBids restMsg
    fun hskipped => absurd (hmatch.symm.trans hskipped) (by decide)).2.mpr ⟨?_, ?_⟩⟩
  · rintro ev ⟨⟩
    decide
  · intro trimmed _ first hfirst hbrackets
    obtain rfl : twoLevels = first := Option.some.inj (hhead.symm.trans hfirst)
    exact absurd hbrackets.1 (by decide)

/-- **A cross-check in the middle of a group.**  `Drain` has popped the first of two
fragments when a REST snapshot comes that lies inside the group.  The bracket group is found
and its popped half replayed.  The bid of the other half is in the snapshot and not yet in
the book, and the check reports a divergence. -/
theorem mid_group_mismatch :
    let e := drained [[twoLevels, newBid 101 1 true]]
    Feed (fun _ _ => True) (fun _ _ _ => True) [twoLevels, newBid 101 1 true] .idle ∧
    (crossCheck e.book restMsg e.ring e.crosscheckLevels e.scratch).1 = .kMismatch ∧
    ¬ Aligned 1003 [twoLevels, newBid 101 1 true] (replayed 1003 e.ring) := by
  refine ⟨feed_newBids.cut (h := [twoLevels, newBid 101 1 true]), by decide +kernel, fun h => ?_⟩
  exact absurd (h.endsWhole (newBid 101 1 true) rfl) (by decide)

/-! ## A group that outgrows the ring -/

section Drain
variable {F : Type} [Double F] (s : Session F) {batch : List MarketEvent}

/-- Events that fit are all kept. -/
theorem ring_drain (hfit : s.engine.ring.length + batch.length ≤ Engine.kRingCap)
    (hstarts : ∀ ev ∈ batch, ev.startsSnapshot = false) :
    (s.drain batch).engine.ring = s.engine.ring ++ batch := by
  induction batch generalizing s with
  | nil => exact (List.append_nil _).symm
  | cons ev batch ih =>
    rw [List.length_cons] at hfit
    have hring : (s.pop ev).engine.ring = s.engine.ring ++ [ev] := by
      refine (s.engine.ring_pop ev).trans ?_
      rw [hstarts ev List.mem_cons_self, if_neg Bool.false_ne_true, Engine.recordRing]
      refine if_neg ?_
      simp only [List.length_append, List.length_singleton]
      omega
    have hrest := ih (s.pop ev) (by rw [hring, List.length_append, List.length_singleton]; omega)
      fun e he => hstarts e (List.mem_cons_of_mem _ he)
    rw [hring, List.append_assoc] at hrest
    exact hrest

theorem book_drain (hstarts : ∀ ev ∈ batch, ev.startsSnapshot = false) :
    (s.drain batch).engine.book = batch.foldl L2Book.applyEvent s.engine.book := by
  induction batch generalizing s with
  | nil => rfl
  | cons ev batch ih =>
    have hbook : (s.pop ev).engine.book = s.engine.book.applyEvent ev := by
      refine (s.engine.book_pop ev).1.trans ?_
      rw [hstarts ev List.mem_cons_self, if_neg Bool.false_ne_true]
    have hrest := ih (s.pop ev) fun e he => hstarts e (List.mem_cons_of_mem _ he)
    rw [hbook] at hrest
    exact hrest

end Drain

/-- The last `n + 1` fragments of the group, without levels. -/
def quietEnd (n : Nat) : List MarketEvent :=
  List.replicate n (GapVerifier.diff 1001 1005 true) ++ [GapVerifier.diff 1001 1005 false]

/-- The group in `n + 2` fragments, with a new bid in the first. -/
def longGroup (n : Nat) : List MarketEvent := newBid 101 1 true :: quietEnd n

/-- The exchange's book at 1000. -/
def restBefore : CrossCheckMsg where
  lastUpdateId := 1000
  numBids := 1
  numAsks := 1
  bids := Vector.ofFn fun i => [⟨100, 1⟩].getD i ⟨0, 0⟩
  asks := Vector.ofFn fun i => [⟨200, 1⟩].getD i ⟨0, 0⟩

theorem feed_longGroup (n : Nat) : Feed (fun _ _ => True) (fun _ _ _ => True)
    (twoLevels :: longGroup n) (.live 1005) := by
  have htail : ∃ us, Group .kDepthDiff 1001 1005 false us (quietEnd n) := by
    induction n with
    | zero => exact ⟨_, .last (GapVerifier.diff_fragment ..)⟩
    | succ n ih =>
      obtain ⟨us, hus⟩ := ih
      exact ⟨_, .more (GapVerifier.diff_fragment ..) hus⟩
  obtain ⟨us, hus⟩ := htail
  have hsnapshot : Group .kSnapshot 1000 1000 true twoLevels.updates [twoLevels] :=
    .last ⟨rfl, rfl, rfl, by decide, by decide⟩
  have hgroup : Group .kDepthDiff 1001 1005 false ((newBid 101 1 true).updates ++ us)
      (longGroup n) := .more ⟨rfl, rfl, rfl, by decide, by decide⟩ hus
  exact .bracket (.snapshot .start hsnapshot trivial) hgroup trivial (by decide) (by decide)

/-- A fragment without levels leaves the levels alone. -/
theorem levels_quiet (n : Nat) (b : L2Book) :
    let after := (quietEnd n).foldl L2Book.applyEvent b
    after.bids = b.bids ∧ after.asks = b.asks := by
  induction n generalizing b with
  | zero => exact ⟨rfl, rfl⟩
  | succ n ih => exact ih (b.applyEvent (GapVerifier.diff 1001 1005 true))

/-- After the snapshot and the first fragment. -/
def begun : Session Strategy.Whole :=
  (⟨Engine.new 1000 true 1 none none, []⟩ : Session Strategy.Whole).drain
    [twoLevels, newBid 101 1 true]

theorem drained_longGroup (n : Nat) :
    drained [twoLevels :: longGroup n] = (begun.drain (quietEnd n)).engine := by
  simp only [drained, run, List.map_cons, List.map_nil, List.foldl_cons, List.foldl_nil, step,
    drain, longGroup, begun]

theorem quiet_fragment {n : Nat} {ev : MarketEvent} (hev : ev ∈ quietEnd n) :
    ∃ cont, Fragment .kDepthDiff 1001 1005 false cont ev := by
  rcases List.mem_append.mp hev with h | h
  · exact ⟨true, List.eq_of_mem_replicate h ▸ GapVerifier.diff_fragment ..⟩
  · exact ⟨false, List.mem_singleton.mp h ▸ GapVerifier.diff_fragment ..⟩

/-- What is trimmed, and what is kept. -/
theorem longGroup_split {n k : Nat} (hk : k ≤ n) :
    twoLevels :: longGroup n =
      ([twoLevels, newBid 101 1 true] ++
        List.replicate (n - k) (GapVerifier.diff 1001 1005 true)) ++ quietEnd k := by
  have hcount : List.replicate n (GapVerifier.diff 1001 1005 true) =
      List.replicate (n - k) (GapVerifier.diff 1001 1005 true) ++
        List.replicate k (GapVerifier.diff 1001 1005 true) := by
    rw [List.replicate_append_replicate, Nat.sub_add_cancel hk]
  rw [longGroup, quietEnd, quietEnd, hcount]
  simp only [List.append_assoc, List.cons_append, List.nil_append]

/-- The ring keeps the last `kRingKeep` fragments of the group. -/
theorem ring_longGroup {n k : Nat} (hn : n + 2 = Engine.kRingCap) (hk : k + 1 = Engine.kRingKeep) :
    (drained [twoLevels :: longGroup n]).ring = quietEnd k := by
  have hcap : Engine.kRingCap = 1024 := rfl
  have hkeep : Engine.kRingKeep = 512 := rfl
  have hbegun : begun.engine.ring = [twoLevels, newBid 101 1 true] := by decide +kernel
  have hfit : begun.engine.ring.length +
      (List.replicate n (GapVerifier.diff 1001 1005 true)).length ≤ Engine.kRingCap := by
    rw [hbegun, List.length_replicate]
    exact Nat.le_of_eq ((Nat.add_comm 2 n).trans hn)
  have hstarts : ∀ ev ∈ List.replicate n (GapVerifier.diff 1001 1005 true),
      ev.startsSnapshot = false := fun ev hev =>
    (quiet_fragment (List.mem_append_left _ hev)).elim fun _ hfrag => hfrag.starts_eq
  rw [drained_longGroup, drain, quietEnd, List.foldl_append]
  refine (Engine.ring_pop _ _).trans ?_
  rw [(GapVerifier.diff_fragment 1001 1005 false).starts_eq, if_neg Bool.false_ne_true,
    show (List.foldl pop begun _).engine.ring = _ from ring_drain begun hfit hstarts, hbegun]
  have hsplit : [twoLevels, newBid 101 1 true] ++
      List.replicate n (GapVerifier.diff 1001 1005 true) ++
      [GapVerifier.diff 1001 1005 false] = _ :=
    longGroup_split (show k ≤ n by omega)
  rw [Engine.recordRing, hsplit]
  simp only [quietEnd, List.length_append, List.length_replicate, List.length_cons,
    List.length_nil]
  rw [if_pos (by omega)]
  refine List.drop_left' ?_
  simp only [List.length_append, List.length_replicate, List.length_cons, List.length_nil]
  omega

theorem book_longGroup (n : Nat) :
    (drained [twoLevels :: longGroup n]).book.bids = [⟨100, 1⟩, ⟨101, 1⟩] ∧
    (drained [twoLevels :: longGroup n]).book.asks = [⟨200, 1⟩] := by
  have hbegun : begun.engine.book.bids = [⟨100, 1⟩, ⟨101, 1⟩] ∧
      begun.engine.book.asks = [⟨200, 1⟩] := by decide +kernel
  have hbook := book_drain begun fun ev hev =>
    (quiet_fragment (n := n) hev).elim fun _ hfrag => hfrag.starts_eq
  rw [drained_longGroup, hbook]
  obtain ⟨hbids, hasks⟩ := levels_quiet n begun.engine.book
  exact ⟨hbids.trans hbegun.1, hasks.trans hbegun.2⟩

theorem crosscheckLevels_drained (batches : List (List MarketEvent)) :
    (drained batches).crosscheckLevels = 1 := by
  have hpop : ∀ (s : Session Strategy.Whole) (ev : MarketEvent),
      s.engine.crosscheckLevels = 1 → (s.pop ev).engine.crosscheckLevels = 1 := by
    intro s ev hs
    refine Eq.trans ?_ hs
    obtain ⟨_, _, _, _, hframe⟩ := (s.engine.absorb ev).1.tick_frame ev
    show ((s.engine.absorb ev).1.tick ev).1.crosscheckLevels = _
    rw [hframe]
    unfold Engine.absorb
    cases ev.startsSnapshot <;> rfl
  rw [drained, run, List.foldl_map]
  exact run_invariant (I := fun s : Session Strategy.Whole => s.engine.crosscheckLevels = 1)
    (fun s batch h => run_invariant hpop h batch) rfl batches

/-- The book has a bid that the scratch book lacks. -/
theorem compareTop_longGroup {live scratch : L2Book}
    (hlive : live.bids = [⟨100, 1⟩, ⟨101, 1⟩] ∧ live.asks = [⟨200, 1⟩])
    (hscratch : scratch.bids = [⟨100, 1⟩] ∧ scratch.asks = [⟨200, 1⟩]) :
    compareTop live scratch 1 = .kMismatch := by
  obtain ⟨bids, asks, id, ts⟩ := live
  obtain ⟨bids', asks', id', ts'⟩ := scratch
  obtain ⟨rfl, rfl⟩ := hlive
  obtain ⟨rfl, rfl⟩ := hscratch
  rfl

theorem longGroup_mismatch {n k : Nat} (hn : n + 2 = Engine.kRingCap)
    (hk : k + 2 = Engine.kRingKeep) :
    let e := drained [twoLevels :: longGroup n]
    (crossCheck e.book restBefore e.ring e.crosscheckLevels e.scratch).1 = .kMismatch ∧
    ¬ Aligned 1000 (twoLevels :: longGroup n) (replayed 1000 e.ring) := by
  intro e
  have hcap : Engine.kRingCap = 1024 := rfl
  have hkeep : Engine.kRingKeep = 512 := rfl
  have hring : e.ring = quietEnd (k + 1) := ring_longGroup hn hk
  have hbrackets : Brackets 1000 (GapVerifier.diff 1001 1005 true) := ⟨rfl, by decide, by decide⟩
  constructor
  · have hseed : (seed e.scratch restBefore).bids = [⟨100, 1⟩] ∧
        (seed e.scratch restBefore).asks = [⟨200, 1⟩] := by
      show (seed L2Book.empty restBefore).bids = _ ∧ (seed L2Book.empty restBefore).asks = _
      decide +kernel
    obtain ⟨hbids, hasks⟩ := levels_quiet (k + 1) (seed e.scratch restBefore)
    have hreplay := replayRecent_head (b := seed e.scratch restBefore) hbrackets
      fun ev (hev : ev ∈ quietEnd k) =>
        (quiet_fragment hev).elim fun _ hfrag => by rw [hfrag.kind_eq]; decide
    rw [hring, crosscheckLevels_drained, crossCheck_of_started hreplay]
    exact compareTop_longGroup (book_longGroup n) ⟨hbids.trans hseed.1, hasks.trans hseed.2⟩
  · -- the last fragment that was trimmed is continued into the ring
    rintro ⟨before, -, -, -, -, hbefore, hwhole, -⟩
    have hreplayed : replayed 1000 e.ring = e.ring := by
      rw [hring]
      rfl
    rw [hreplayed, hring, longGroup_split (k := k + 1) (by omega)] at hbefore
    obtain rfl := List.append_cancel_right hbefore
    have hlast := hwhole (GapVerifier.diff 1001 1005 true) (by
      rw [List.getLast?_append, List.getLast?_replicate, if_neg (by omega)]
      rfl)
    exact absurd hlast (by decide)

/-- **A cross-check on a trimmed ring.**  All 1024 fragments of a group have been popped, and
the last of them made the ring trim itself to 512.  The ring then starts in the middle of
the bracket group.  The bid of the first fragment is in the book and missing in the scratch
book, and the check reports a divergence. -/
theorem trimmed_group_mismatch :
    let evs := twoLevels :: longGroup 1022
    let e := drained [evs]
    Feed (fun _ _ => True) (fun _ _ _ => True) evs (.live 1005) ∧
    (crossCheck e.book restBefore e.ring e.crosscheckLevels e.scratch).1 = .kMismatch ∧
    ¬ Aligned 1000 evs (replayed 1000 e.ring) :=
  ⟨feed_longGroup _, longGroup_mismatch (k := 510) rfl rfl⟩

end Session

end Asmm
