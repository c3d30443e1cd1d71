import CryptoBook.BookReference
import CryptoBook.Feed
import CryptoBook.LiveReplay
import CryptoBook.SpscQueue

/-! # Reconstruction is safe

The exchange is any sequence of level updates; its book after the first `n` of them is
`Exchange.book`.  Of the messages only this is assumed: a parsed snapshot lists the levels
of the book at its id (`SnapshotOf`), and a parsed diff gives, for every level touched
between its two ids, the quantity in the book at its last id (`DiffOf`).

A diff therefore brings any map that is at most as far behind as its first id up to its
last id, however much of it the map already contains: quantities are absolute
(`DiffOf.catches_up`).  Along a feed this carries from the snapshot to the bracket event
and from there to each further group (`Exchange.reconstructs`).

`Pipeline` puts the parts together: the market-data thread, the ring with any
interleaving of its two sides, and the engine with any split of what it pops into `Drain`
calls. -/
namespace Asmm
open AbsoluteUpdates Runs L2Book BookReference

theorem PriceMap.applyAll_append (m : PriceMap) (us vs : List LevelUpdate) :
    m.applyAll (us ++ vs) = (m.applyAll us).applyAll vs := by
  rw [applyAll, List.map_append, replay_append]
  rfl

/-! ## The exchange -/

namespace Exchange

/-- The book after the first `n` updates; the updates are counted from 1. -/
def book (e : Nat → LevelUpdate) (n : Nat) : PriceMap :=
  PriceMap.empty.applyAll ((List.range n).map fun i => e (i + 1))

/-- The snapshot lists the levels of the book at its id. -/
def SnapshotOf (e : Nat → LevelUpdate) (lastId : UInt64) (us : List LevelUpdate) : Prop :=
  ∀ side px qty, ⟨side, px, qty⟩ ∈ us ↔ book e lastId.toNat (side, px) = some qty

/-- The diff covers the updates from `U` to `u` and gives quantities of the book at `u`. -/
structure DiffOf (e : Nat → LevelUpdate) (U u : UInt64) (us : List LevelUpdate) : Prop where
  positive : 1 ≤ U
  ordered : U ≤ u
  values : ∀ x ∈ us, x.assignment.2 = book e u.toNat (x.side, x.pxTicks)
  covers : ∀ i, U.toNat ≤ i → i ≤ u.toNat →
    ∃ x ∈ us, x.side = (e i).side ∧ x.pxTicks = (e i).pxTicks

variable {e : Nat → LevelUpdate}

theorem book_succ (n : Nat) :
    book e (n + 1) = Function.update (book e n) (e (n + 1)).assignment.1
      (e (n + 1)).assignment.2 := by
  rw [book, List.range_succ, List.map_append, PriceMap.applyAll_append]
  rfl

/-- A level of the book is never empty. -/
theorem book_ne_zero (n : Nat) (key : Side × Int64) : book e n key ≠ some 0 := by
  induction n with
  | zero => exact (Option.some_ne_none 0).symm
  | succ n ih =>
    rw [book_succ]
    by_cases hkey : key = (e (n + 1)).assignment.1
    · subst hkey
      rw [Function.update_self]
      unfold LevelUpdate.assignment
      dsimp only
      split
      · exact (Option.some_ne_none 0).symm
      · intro he
        exact absurd (Option.some.inj he) ‹_›
    · rw [Function.update_of_ne hkey]
      exact ih

/-- A level that no update touches stays as it is. -/
theorem book_eq_of_untouched {m n : Nat} (hmn : m ≤ n) {key : Side × Int64}
    (hkey : ∀ i, m < i → i ≤ n → (e i).assignment.1 ≠ key) : book e m key = book e n key := by
  induction hmn with
  | refl => rfl
  | @step n hmn ih =>
    rw [Nat.succ_eq_add_one, book_succ,
      Function.update_of_ne (hkey (n + 1) (Nat.lt_succ_of_le hmn) (Nat.le_refl _)).symm]
    exact ih fun i hi hin => hkey i hi (Nat.le_succ_of_le hin)

/-- A snapshot, applied to the empty map, gives the book at its id. -/
theorem SnapshotOf.applies {lastId : UInt64} {us : List LevelUpdate}
    (h : SnapshotOf e lastId us) : PriceMap.empty.applyAll us = book e lastId.toNat := by
  refine replay_catches_up ?_ ?_
  · intro u hu
    obtain ⟨⟨side, px, qty⟩, hx, rfl⟩ := List.mem_map.mp hu
    have hlevel := (h side px qty).mp hx
    have hqty : qty ≠ 0 := by
      rintro rfl
      exact book_ne_zero _ _ hlevel
    show (if qty = 0 then none else some qty) = _
    rw [if_neg hqty]
    exact hlevel.symm
  · rintro ⟨side, px⟩ hnone
    cases hlevel : book e lastId.toNat (side, px) with
    | none => rfl
    | some qty =>
      exact absurd rfl (hnone _ (List.mem_map_of_mem ((h side px qty).mpr hlevel)))

/-- **A diff catches a part of the book up**, from any point at most as far behind as its
first id, and makes known the levels it names. -/
theorem DiffOf.catches_part_up {U u : UInt64} {us : List LevelUpdate} (h : DiffOf e U u us)
    {known : Side × Int64 → Prop} {m : PriceMap} {n : Nat} (hpart : PartOn known m (book e n))
    (hU : U.toNat ≤ n + 1) (hu : n ≤ u.toNat) :
    PartOn (fun key => known key ∨ ∃ x ∈ us, (x.side, x.pxTicks) = key) (m.applyAll us)
      (book e u.toNat) := by
  have hnamed : ∀ key : Side × Int64, (∃ a ∈ us.map LevelUpdate.assignment, a.1 = key) ↔
      ∃ x ∈ us, (x.side, x.pxTicks) = key := fun key => by simp [LevelUpdate.assignment]
  refine PartOn.congr (hpart.replay ?_ ?_) fun key => or_congr_right (hnamed key)
  · intro a ha
    obtain ⟨x, hx, rfl⟩ := List.mem_map.mp ha
    exact h.values x hx
  · intro key _ hnone
    refine book_eq_of_untouched hu fun i hi hiu he => ?_
    obtain ⟨x, hx, hside, hpx⟩ := h.covers i (by omega) hiu
    refine hnone _ (List.mem_map_of_mem hx) ?_
    rw [← he]
    exact Prod.ext hside hpx

/-- A diff catches the whole book up. -/
theorem DiffOf.catches_up {U u : UInt64} {us : List LevelUpdate} (h : DiffOf e U u us) {n : Nat}
    (hU : U.toNat ≤ n + 1) (hu : n ≤ u.toNat) : (book e n).applyAll us = book e u.toNat := by
  have hwhole : PartOn (fun _ => True) (book e n) (book e n) :=
    ⟨fun _ _ => rfl, fun _ hnot => absurd trivial hnot⟩
  funext key
  exact (h.catches_part_up hwhole hU hu).same key (Or.inl trivial)

end Exchange

/-! ## Along a feed -/

/-- The events from the last one that starts a snapshot on. -/
def sinceSnapshot (events : List MarketEvent) : List MarketEvent :=
  events.foldl (fun since ev => if ev.startsSnapshot then [ev] else since ++ [ev]) []

/-- The level updates applied since the last snapshot start. -/
def updatesSince (events : List MarketEvent) : List LevelUpdate :=
  (sinceSnapshot events).flatMap MarketEvent.updates

/-- The engine's `book_live_` after the events. -/
def liveAfter (events : List MarketEvent) : Bool :=
  events.foldl (fun live ev => if ev.kind = .kDepthDiff then true
    else if ev.startsSnapshot then false else live) false

theorem updatesSince_concat (h : List MarketEvent) (ev : MarketEvent) :
    updatesSince (h ++ [ev]) =
      if ev.startsSnapshot then ev.updates else updatesSince h ++ ev.updates := by
  unfold updatesSince sinceSnapshot
  rw [List.foldl_append, List.foldl_cons, List.foldl_nil]
  split
  · exact List.append_nil _
  · rw [List.flatMap_append, List.flatMap_cons, List.flatMap_nil, List.append_nil]

theorem liveAfter_concat (h : List MarketEvent) (ev : MarketEvent) :
    liveAfter (h ++ [ev]) = if ev.kind = .kDepthDiff then true
      else if ev.startsSnapshot then false else liveAfter h := by
  rw [liveAfter, List.foldl_append]
  rfl

/-- A group that starts a snapshot replaces the updates, any other adds to them. -/
theorem Group.updatesSince {kind : EventKind} {U u : UInt64} {starts : Bool}
    {us : List LevelUpdate} {evs : List MarketEvent} (hg : Group kind U u starts us evs)
    (h : List MarketEvent) :
    updatesSince (h ++ evs) = if starts then us else updatesSince h ++ us := by
  induction hg generalizing h with
  | last frag => rw [updatesSince_concat, frag.starts_eq]
  | @more starts ev us evs frag rest ih =>
    have hmid : h ++ ev :: evs = (h ++ [ev]) ++ evs := by simp
    rw [hmid, ih, updatesSince_concat, frag.starts_eq]
    cases starts with
    | true => rfl
    | false => exact List.append_assoc ..

namespace Exchange

/-- What holds once `ev` has been applied after `pre`: the engine is live exactly on diffs,
and where a diff group is complete the map is the exchange's book at its last id. -/
structure Settled (e : Nat → LevelUpdate) (pre : List MarketEvent) (ev : MarketEvent) : Prop where
  live : liveAfter (pre ++ [ev]) = true ↔ ev.kind = .kDepthDiff
  map : ev.kind = .kDepthDiff → ev.continues = false →
    PriceMap.empty.applyAll (updatesSince (pre ++ [ev])) = book e ev.finalUpdateId.toNat

variable {e : Nat → LevelUpdate}

theorem live_fragment {kind : EventKind} {U u : UInt64} {starts cont : Bool} {ev : MarketEvent}
    (frag : Fragment kind U u starts cont ev) {h : List MarketEvent}
    (hkind : kind = .kDepthDiff ∨ kind = .kSnapshot ∧ (starts = true ∨ liveAfter h = false)) :
    liveAfter (h ++ [ev]) = true ↔ ev.kind = .kDepthDiff := by
  rw [liveAfter_concat, frag.kind_eq, frag.starts_eq]
  rcases hkind with rfl | ⟨rfl, rfl | hlive⟩
  · simp
  · simp
  · simp [hlive]

/-- Inside a group only the last event can be complete. -/
theorem settled_group {kind : EventKind} {U u : UInt64} {starts : Bool} {us : List LevelUpdate}
    {evs : List MarketEvent} (hg : Group kind U u starts us evs) {h : List MarketEvent}
    (hbefore : Always (Settled e) h)
    (hkind : kind = .kDepthDiff ∨ kind = .kSnapshot ∧ (starts = true ∨ liveAfter h = false))
    (hafter : kind = .kDepthDiff →
      PriceMap.empty.applyAll (updatesSince (h ++ evs)) = book e u.toNat) :
    Always (Settled e) (h ++ evs) := by
  induction hg generalizing h with
  | last frag =>
    refine always_concat.mpr ⟨hbefore, live_fragment frag hkind, fun hdiff _ => ?_⟩
    rw [frag.finalId_eq]
    exact hafter (frag.kind_eq ▸ hdiff)
  | @more starts ev us evs frag rest ih =>
    have hmid : h ++ ev :: evs = (h ++ [ev]) ++ evs := by simp
    have hlive := live_fragment frag hkind
    rw [hmid] at hafter ⊢
    refine ih (always_concat.mpr ⟨hbefore, hlive, fun _ hwhole => ?_⟩) ?_ hafter
    · exact absurd (frag.cont_eq.symm.trans hwhole) (by decide)
    · rcases hkind with hdiff | ⟨hsnap, -⟩
      · exact Or.inl hdiff
      · refine Or.inr ⟨hsnap, Or.inr ?_⟩
        rw [frag.kind_eq, hsnap] at hlive
        simpa using hlive

/-- The map after the events is the exchange's book at the id the feed stands at. -/
def Holds (e : Nat → LevelUpdate) (h : List MarketEvent) : Phase → Prop
  | .idle => True
  | .await lastId => PriceMap.empty.applyAll (updatesSince h) = book e lastId.toNat
  | .live prevU => PriceMap.empty.applyAll (updatesSince h) = book e prevU.toNat

/-- A diff group that joins extends the map to its last id. -/
theorem holds_diff {U u : UInt64} {us : List LevelUpdate} {evs h : List MarketEvent} {n : Nat}
    (hg : Group .kDepthDiff U u false us evs) (hd : DiffOf e U u us)
    (hmap : PriceMap.empty.applyAll (updatesSince h) = book e n) (hU : U.toNat ≤ n + 1)
    (hu : n ≤ u.toNat) :
    PriceMap.empty.applyAll (updatesSince (h ++ evs)) = book e u.toNat := by
  rw [hg.updatesSince, if_neg Bool.false_ne_true, PriceMap.applyAll_append, hmap]
  exact hd.catches_up hU hu

/-- **Along every feed of true messages the book is reconstructed.** -/
theorem reconstructs {h : List MarketEvent} {ph : Phase}
    (hfeed : Feed (SnapshotOf e) (DiffOf e) h ph) : Always (Settled e) h ∧ Holds e h ph := by
  induction hfeed with
  | start => exact ⟨always_nil, trivial⟩
  | @snapshot h evs ph lastId us before group message ih =>
    refine ⟨settled_group group ih.1 (Or.inr ⟨rfl, Or.inl rfl⟩) (by rintro ⟨⟩), ?_⟩
    show PriceMap.empty.applyAll (updatesSince (h ++ evs)) = _
    rw [group.updatesSince, if_pos rfl]
    exact message.applies
  | @bracket h evs lastId U u us before group message after joins ih =>
    have hlt := UInt64.lt_iff_toNat_lt.mp after
    have hjoins : U.toNat ≤ lastId.toNat + 1 := by
      have hle := UInt64.le_iff_toNat_le.mp joins
      rw [UInt64.toNat_add, UInt64.toNat_one] at hle
      exact Nat.le_trans hle (Nat.mod_le _ _)
    have hmap := holds_diff group message ih.2 hjoins (Nat.le_of_lt hlt)
    exact ⟨settled_group group ih.1 (Or.inl rfl) fun _ => hmap, hmap⟩
  | @next h evs prevU U u us before group message joins ih =>
    -- `1 ≤ U`, so `prevU + 1` did not wrap
    have hU : U.toNat = prevU.toNat + 1 := by
      have hpos := UInt64.le_iff_toNat_le.mp message.positive
      have hbound := prevU.toNat_lt
      rw [joins, UInt64.toNat_add, UInt64.toNat_one] at hpos ⊢
      omega
    have hle := UInt64.le_iff_toNat_le.mp message.ordered
    have hmap := holds_diff group message ih.2 (Nat.le_of_eq hU) (by omega)
    exact ⟨settled_group group ih.1 (Or.inl rfl) fun _ => hmap, hmap⟩
  | cut whole ih => exact ⟨ih.1.of_append, trivial⟩

end Exchange

/-! ## The engine -/

namespace Session
variable {F : Type} [Double F]

/-- The engine's book and `book_live_` are those of the events it popped. -/
structure Mirrors (events : List MarketEvent) (s : Session F) : Prop where
  levels : ∀ side, s.engine.book.levels side =
    (L2Book.empty.applyAll (updatesSince events)).levels side
  live : s.engine.bookLive = liveAfter events

theorem Mirrors.pop {events : List MarketEvent} {s : Session F} (h : Mirrors events s)
    (ev : MarketEvent) : Mirrors (events ++ [ev]) (s.pop ev) := by
  obtain ⟨hbook, hlive⟩ := s.engine.book_pop ev
  constructor
  · intro side
    show (s.engine.pop ev).1.book.levels side = _
    rw [hbook, levels_applyEvent, updatesSince_concat]
    cases ev.startsSnapshot with
    | true => rfl
    | false =>
      rw [if_neg Bool.false_ne_true, if_neg Bool.false_ne_true]
      refine (levels_applyAll_congr h.levels ev.updates side).trans ?_
      rw [L2Book.applyAll, L2Book.applyAll, L2Book.applyAll, List.foldl_append]
  · show (s.engine.pop ev).1.bookLive = _
    rw [hlive, liveAfter_concat, h.live]

theorem Mirrors.drain {events : List MarketEvent} {s : Session F} (h : Mirrors events s)
    (batch : List MarketEvent) : Mirrors (events ++ batch) (s.drain batch) :=
  run_recorded (fun _ _ ev h => h.pop ev) h batch

/-- Nothing but a pop touches the book. -/
theorem Mirrors.step {events : List MarketEvent} {s : Session F} (h : Mirrors events s) (op : Op) :
    Mirrors (events ++ op.events) (s.step op) := by
  have hframe : ∀ e : Engine F, e.book = s.engine.book → e.bookLive = s.engine.bookLive →
      Mirrors (events ++ []) { s with engine := e } := by
    intro e hbook hlive
    rw [List.append_nil]
    exact ⟨fun side => hbook ▸ h.levels side, hlive.trans h.live⟩
  cases op with
  | drain batch => exact h.drain batch
  | handleCrossChecks msgs =>
    have hf := handleCrossChecks_frame s.engine msgs
    exact hframe _ hf.book hf.bookLive
  | checkStale nowNs =>
    have hf := checkStale_frame s.engine nowNs
    exact hframe _ hf.book hf.bookLive
  | flush => exact hframe _ rfl rfl
  | timedFlush nowNs =>
    refine hframe _ ?_ ?_ <;> unfold Engine.timedFlush <;> split <;> rfl

theorem Mirrors.runOps {events : List MarketEvent} {s : Session F} (h : Mirrors events s)
    (ops : List Op) : Mirrors (events ++ ops.flatMap Op.events) (run Session.step s ops) :=
  run_traced Op.events (fun _ _ op h => h.step op) h ops

end Session

/-! ## The whole pipeline -/

/-- `MarketQueue`: `SpscQueue<MarketEvent, 4096>`. -/
def kMarketQueueLog : Fin 64 := 12

/-- A moment of market-data thread, ring and engine: what the environment answered the
thread's first calls, how the two sides of the ring were interleaved, and what the engine
thread did.  What the ring accepted is what the thread pushed, and what the engine drained
is what the ring returned, except for pops it has not applied yet. -/
structure Pipeline (F : Type) (parser : String → Option Dom) (params : MarketDataParams) where
  rounds : Nat
  answers : Nat → (c : MdCall) → MdCall.Answer c
  calls : Nat
  schedule : List (SpscQueue.Turn MarketEvent)
  engine : Engine F
  ops : List Session.Op
  accepted : BoundedFifo.pushes (SpscQueue.run kMarketQueueLog .zero schedule).answers =
    ((MarketDataThread.run parser params rounds .new).exec answers calls).flatMap
      fun x => MarketDataThread.pushed x.1 x.2
  drained : ops.flatMap Session.Op.events <+:
    BoundedFifo.pops (SpscQueue.run kMarketQueueLog .zero schedule).answers
  constructed : ∃ staleThresholdMs hasCrossChecks crosscheckLevels log strat,
    engine = Engine.new staleThresholdMs hasCrossChecks crosscheckLevels log strat

namespace Pipeline
variable {F : Type} {parser : String → Option Dom} {params : MarketDataParams}

/-- The events the engine has applied. -/
def applied (p : Pipeline F parser params) : List MarketEvent := p.ops.flatMap Session.Op.events

/-- The engine now. -/
def engineNow (p : Pipeline F parser params) [Double F] : Engine F :=
  (run Session.step ⟨p.engine, []⟩ p.ops).engine

/-- What the engine has applied is a feed. -/
theorem applied_feed {S : UInt64 → List LevelUpdate → Prop}
    {D : UInt64 → UInt64 → List LevelUpdate → Prop} (p : Pipeline F parser params)
    (hdeliver : ∀ i c, MarketDataThread.Delivers S D parser params c (p.answers i c)) :
    Feed S D p.applied .idle := by
  obtain ⟨ph, hfeed⟩ := MarketDataThread.run_feed p.rounds .new p.answers hdeliver p.calls
  obtain ⟨rest, hrest⟩ := p.drained.trans
    (SpscQueue.pops_isPrefix_pushes kMarketQueueLog .zero p.schedule)
  rw [← p.accepted, ← hrest] at hfeed
  exact hfeed.cut

theorem engineNow_mirrors [Double F] (p : Pipeline F parser params) :
    Session.Mirrors p.applied (run Session.step ⟨p.engine, []⟩ p.ops) := by
  obtain ⟨staleThresholdMs, hasCrossChecks, crosscheckLevels, log, strat, hnew⟩ := p.constructed
  have hstart : Session.Mirrors [] (⟨p.engine, []⟩ : Session F) := by
    rw [hnew]
    exact ⟨fun _ => rfl, rfl⟩
  exact hstart.runOps p.ops

/-- **Reconstruction safety.**  Let the exchange be any sequence of level updates, and let
every parsed snapshot and diff be true of it.  Then for every behaviour of the transports,
every interleaving of the ring and every split into `Drain` calls, once the engine has just
applied `ev`: the book is live exactly if `ev` is a diff event, and if it is one without
the continuation flag, the updates applied since the last snapshot start, replayed on an
empty map, give exactly the exchange's book at the final id of `ev`; a side of the engine's
book on which no call has lost a level since then equals it. -/
theorem reconstruction_safety [Double F] (e : Nat → LevelUpdate) (p : Pipeline F parser params)
    (htruth : ∀ i c, MarketDataThread.Delivers (Exchange.SnapshotOf e) (Exchange.DiffOf e)
      parser params c (p.answers i c))
    (pre : List MarketEvent) (ev : MarketEvent) (hlast : p.applied = pre ++ [ev]) :
    (p.engineNow.bookLive = true ↔ ev.kind = .kDepthDiff) ∧
    (ev.kind = .kDepthDiff → ev.continues = false →
      PriceMap.empty.applyAll (updatesSince p.applied) =
        Exchange.book e ev.finalUpdateId.toNat ∧
      ∀ side, ((Watch.start L2Book.empty).calls (updatesSince p.applied)).lossy side = false →
        ∀ px qty, Exchange.book e ev.finalUpdateId.toNat (side, px) = some qty ↔
          ⟨px, qty⟩ ∈ p.engineNow.book.levels side) := by
  obtain ⟨hsettled, -⟩ := Exchange.reconstructs (p.applied_feed htruth)
  obtain ⟨hlive, hmap⟩ := hsettled pre ev [] hlast
  rw [← hlast] at hlive hmap
  obtain ⟨hlevels, hbookLive⟩ := p.engineNow_mirrors
  refine ⟨(Bool.eq_iff_iff.mp hbookLive).trans hlive, fun hdiff hwhole => ?_⟩
  have hbook := hmap hdiff hwhole
  refine ⟨hbook, fun side hlossless px qty => ?_⟩
  have htracks := tracks_calls (updatesSince p.applied) valid_empty
    (tracks_start side L2Book.empty)
  have hexact := htracks.exact hlossless px qty
  rw [hbook, Watch.book_calls] at hexact
  rw [hexact]
  exact Iff.of_eq (congrArg (_ ∈ ·) (hlevels side).symm)

/-! ### A run -/

/-- A bid, then an ask. -/
def tinyExchange (n : Nat) : LevelUpdate := if n = 1 then ⟨.kBid, 7, 5⟩ else ⟨.kAsk, 9, 3⟩

/-- A snapshot after the first update. -/
def tinySnapshot : String := "\x7b\"lastUpdateId\":1,\"bids\":[[\"7\",\"5\"]],\"asks\":[]\x7d"

/-- A diff that covers both. -/
def tinyDiff : String := "\x7b\"U\":1,\"u\":2,\"b\":[[\"7\",\"5\"]],\"a\":[[\"9\",\"3\"]]\x7d"

/-- The JSON parser on the two messages. -/
def tinyParser (json : String) : Option Dom :=
  if json = tinySnapshot then
    some (.object [("lastUpdateId", .int 1), ("bids", .array [.array [.string "7", .string "5"]]),
      ("asks", .array [])])
  else if json = tinyDiff then
    some (.object [("U", .int 1), ("u", .int 2), ("b", .array [.array [.string "7", .string "5"]]),
      ("a", .array [.array [.string "9", .string "3"]])])
  else none

def tinyParams : MarketDataParams := ⟨"", "", "", "", ⟨0, 0⟩, 1⟩

/-- Every call succeeds, and the same two messages are delivered again and again. -/
def tinyAnswers (_ : Nat) : (c : MdCall) → MdCall.Answer c
  | .stopLoad => false
  | .connect _ _ => true
  | .read => ⟨.kOk, tinyDiff⟩
  | .close => ()
  | .get _ _ => some tinySnapshot
  | .nowNs => 0
  | .tryPush _ => true
  | .sleepMs => ()

/-- What the thread pushes in its first ten calls. -/
def tinyEvents : List MarketEvent :=
  ((MarketDataThread.run tinyParser tinyParams 2 .new).exec tinyAnswers 10).flatMap
    fun x => MarketDataThread.pushed x.1 x.2

/-- Each event is popped before the next is pushed. -/
def tinyPipeline : Pipeline Strategy.Whole tinyParser tinyParams where
  rounds := 2
  answers := tinyAnswers
  calls := 10
  schedule := tinyEvents.flatMap fun ev => List.replicate 5 (.producer ev) ++
    List.replicate 6 .consumer
  engine := Engine.new 0 false 0 none none
  ops := [.drain tinyEvents]
  accepted := by decide +kernel
  drained := by decide +kernel
  constructed := ⟨0, false, 0, none, none, rfl⟩

theorem tinyExchange_book :
    Exchange.book tinyExchange 1 = Function.update PriceMap.empty (.kBid, 7) (some 5) ∧
    Exchange.book tinyExchange 2 =
      Function.update (Function.update PriceMap.empty (.kBid, 7) (some 5)) (.kAsk, 9) (some 3) :=
  ⟨rfl, rfl⟩

theorem tiny_snapshotOf : Exchange.SnapshotOf tinyExchange 1 [⟨.kBid, 7, 5⟩] := by
  intro side px qty
  show _ ↔ Exchange.book tinyExchange 1 (side, px) = some qty
  rw [tinyExchange_book.1]
  by_cases hkey : (side, px) = (.kBid, 7)
  · obtain ⟨rfl, rfl⟩ := Prod.mk.inj hkey
    simp [eq_comm]
  · rw [Function.update_of_ne hkey]
    simp_all [PriceMap.empty]

theorem tiny_diffOf : Exchange.DiffOf tinyExchange 1 2 [⟨.kBid, 7, 5⟩, ⟨.kAsk, 9, 3⟩] where
  positive := by decide
  ordered := by decide
  values := by decide
  covers := by
    intro i hi hi'
    obtain rfl | rfl : i = 1 ∨ i = 2 := by
      have : i ≤ 2 := hi'
      have : 1 ≤ i := hi
      omega
    · exact ⟨_, List.mem_cons_self, rfl, rfl⟩
    · exact ⟨_, List.mem_cons_of_mem _ List.mem_cons_self, rfl, rfl⟩

theorem tinyAnswers_true (i : Nat) (c : MdCall) :
    MarketDataThread.Delivers (Exchange.SnapshotOf tinyExchange) (Exchange.DiffOf tinyExchange)
      tinyParser tinyParams c (tinyAnswers i c) := by
  cases c with
  | get host target =>
    rintro json ⟨rfl⟩ snap hsnap
    obtain rfl : snap = ⟨1, [⟨7, 5⟩], []⟩ := (Option.some.inj (hsnap.symm.trans (by rfl)))
    exact tiny_snapshotOf
  | read =>
    rintro - d hd
    obtain rfl : d = ⟨1, 2, 0, [⟨7, 5⟩], [⟨9, 3⟩]⟩ := (Option.some.inj (hd.symm.trans (by rfl)))
    exact tiny_diffOf
  | stopLoad | connect | close | nowNs | tryPush | sleepMs => trivial

theorem tinyEvents_ne_nil : tinyEvents ≠ [] := by decide +kernel

/-- The bracket diff repeats the level of the snapshot, and the book is right. -/
theorem reconstruction_safety_bracket :
    tinyPipeline.engineNow.bookLive = true ∧
    PriceMap.empty.applyAll (updatesSince tinyPipeline.applied) = Exchange.book tinyExchange 2 ∧
    (⟨9, 3⟩ : Level) ∈ tinyPipeline.engineNow.book.levels .kAsk := by
  have hlast : tinyPipeline.applied =
      tinyEvents.dropLast ++ [tinyEvents.getLast tinyEvents_ne_nil] := by
    rw [List.dropLast_concat_getLast]
    exact List.append_nil _
  have hdiff : (tinyEvents.getLast tinyEvents_ne_nil).kind = .kDepthDiff := by decide +kernel
  have hid : (tinyEvents.getLast tinyEvents_ne_nil).finalUpdateId = 2 := by decide +kernel
  obtain ⟨hlive, hbook⟩ :=
    reconstruction_safety tinyExchange tinyPipeline tinyAnswers_true _ _ hlast
  obtain ⟨hmap, hlevels⟩ := hbook hdiff (by decide +kernel)
  rw [hid] at hmap hlevels
  exact ⟨hlive.mpr hdiff, hmap, (hlevels .kAsk (by decide +kernel) 9 3).mp rfl⟩

end Pipeline
end Asmm
