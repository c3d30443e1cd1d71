import Mathlib.Data.List.TakeWhile
import CryptoBook.CrossCheckAlignment
import CryptoBook.Reconstruction

/-! # What the cross-check's verdict says

The exchange is any sequence of level updates, as in `Reconstruction`.  A REST snapshot lists
levels of its book at some id, and the recent events are snapshot events followed by
consecutive whole diff groups (`DiffRun`).  What the scratch book holds at the end is a part
of the exchange's book (`PartOn`): the levels the snapshot lists, as far as they are still
there, and the levels named by a group that was replayed.

A snapshot that lists every level makes this the whole book, and the verdict is exact
(`verdict_exact`).  A snapshot of limited depth does not.  The check counts the levels of the
scratch book, but a level it has never seen may lie between two that it has, and then it
reports a divergence where there is none (`depth_limited_mismatch_iff`). -/
namespace Asmm
open AbsoluteUpdates OrderedSearch L2Book BookReference

/-! ## Ranked levels -/

/-- All levels of one side of a map, best first. -/
structure Ranks (side : Side) (m : PriceMap) (ls : List Level) : Prop where
  ranked : ls.Pairwise (fun x y => isWorse side y.pxTicks x.pxTicks)
  mem_iff : ∀ px qty, ⟨px, qty⟩ ∈ ls ↔ m (side, px) = some qty

theorem Ranks.ordered {side : Side} {m : PriceMap} {ls : List Level} (h : Ranks side m ls) :
    Ordered (fun a b => isWorse side b a) Level.pxTicks ls := h.ranked

/-- A side has one ranking. -/
theorem Ranks.unique {side : Side} {m : PriceMap} {x y : List Level} (hx : Ranks side m x)
    (hy : Ranks side m y) : x = y :=
  have : Std.Irrefl fun a b => isWorse side b a := ⟨irrefl_of (isWorse side)⟩
  have : IsTrans Int64 fun a b => isWorse side b a :=
    ⟨fun _ _ _ hab hbc => trans_of (isWorse side) hbc hab⟩
  hx.ordered.eq_of_mem_iff hy.ordered fun ⟨px, qty⟩ =>
    (hx.mem_iff px qty).trans (hy.mem_iff px qty).symm

/-- The ranking of a part of a map. -/
theorem Ranks.filter {side : Side} {known : Side × Int64 → Prop} [DecidablePred known]
    {m whole : PriceMap} {ls : List Level} (h : Ranks side whole ls)
    (hpart : PartOn known m whole) :
    Ranks side m (ls.filter fun l => decide (known (side, l.pxTicks))) := by
  refine ⟨h.ranked.filter _, fun px qty => ?_⟩
  rw [List.mem_filter, h.mem_iff, decide_eq_true_iff]
  constructor
  · rintro ⟨hqty, hknown⟩
    exact (hpart.same _ hknown).trans hqty
  · intro hqty
    have hknown : known (side, px) := by
      refine Decidable.byContradiction fun hnot => ?_
      rw [hpart.absent _ hnot] at hqty
      cases hqty
    exact ⟨(hpart.same _ hknown).symm.trans hqty, hknown⟩

/-- A book that holds exactly the levels of a map. -/
def L2Book.Equals (b : L2Book) (m : PriceMap) : Prop :=
  ∀ side, Ranks side m (b.levels side).reverse

/-- The best `n` levels of a side, best first. -/
def L2Book.topLevels (b : L2Book) (side : Side) (n : Nat) : List Level :=
  (b.levels side).reverse.take n

/-- A book that has lost nothing since it was cleared holds exactly the updates' map. -/
theorem equals_of_lossless {b : L2Book} {us : List LevelUpdate}
    (h : ∀ side, ((Watch.start b.clear).calls us).lossy side = false) :
    (b.clear.applyAll us).Equals (PriceMap.empty.applyAll us) := by
  intro side
  have htracks := tracks_calls us b.valid_clear (tracks_start side b)
  have hvalid : (b.clear.applyAll us).Valid := b.valid_clear.applyAll us
  refine ⟨List.pairwise_reverse.mpr (hvalid side).sorted, fun px qty => ?_⟩
  rw [List.mem_reverse, htracks.exact (h side) px qty, Watch.book_calls]
  rfl

/-! ## The message -/

/-- `ToCrossCheckMsg`: `none` where it returns false.  Slots past the levels of the snapshot
keep what `out` held. -/
def toCrossCheckMsg (snap : DepthSnapshot) (out : CrossCheckMsg) : Option CrossCheckMsg :=
  if snap.bids.length > kMaxCrossCheckLevels ∨ snap.asks.length > kMaxCrossCheckLevels then none
  else some
    { lastUpdateId := snap.lastUpdateId
      numBids := UInt32.ofNat snap.bids.length
      numAsks := UInt32.ofNat snap.asks.length
      bids := Vector.ofFn fun i => (snap.bids[i.val]?).getD out.bids[i]
      asks := Vector.ofFn fun i => (snap.asks[i.val]?).getD out.asks[i] }

namespace CrossCheckMsg

/-- The levels a message lists on a side. -/
def listed (msg : CrossCheckMsg) : Side → List DepthLevel
  | .kBid => msg.bids.toList.take msg.numBids.toNat
  | .kAsk => msg.asks.toList.take msg.numAsks.toNat

/-- What seeding applies: the bids, then the asks. -/
def updates (msg : CrossCheckMsg) : List LevelUpdate :=
  sideUpdates (msg.listed .kBid) (msg.listed .kAsk)

/-- The counts do not point past the arrays. -/
structure InBounds (msg : CrossCheckMsg) : Prop where
  bids : msg.numBids.toNat ≤ kMaxCrossCheckLevels
  asks : msg.numAsks.toNat ≤ kMaxCrossCheckLevels

theorem mem_updates {msg : CrossCheckMsg} {side : Side} {px qty : Int64} :
    ⟨side, px, qty⟩ ∈ msg.updates ↔ ⟨px, qty⟩ ∈ msg.listed side := by
  have hmem : ∀ (side' : Side) (ls : List DepthLevel),
      (⟨side, px, qty⟩ : LevelUpdate) ∈ levelUpdates side' ls ↔ side' = side ∧ ⟨px, qty⟩ ∈ ls := by
    intro side' ls
    rw [levelUpdates, List.mem_map]
    constructor
    · rintro ⟨⟨px', qty'⟩, hl, he⟩
      obtain ⟨rfl, rfl, rfl⟩ := LevelUpdate.mk.inj he
      exact ⟨rfl, hl⟩
    · rintro ⟨rfl, hl⟩
      exact ⟨_, hl, rfl⟩
  rw [updates, sideUpdates, List.mem_append, hmem, hmem]
  cases side <;> simp

/-- A count that fits the array fits its field. -/
theorem toNat_count {n : Nat} (hn : n ≤ kMaxCrossCheckLevels) : (UInt32.ofNat n).toNat = n :=
  UInt32.toNat_ofNat_of_lt' (Nat.lt_of_le_of_lt hn (by decide))

/-- The array that begins with a list, as far as its count points, is the list. -/
theorem take_ofFn {ls : List DepthLevel} (hsmall : ls.length ≤ kMaxCrossCheckLevels)
    (rest : Fin kMaxCrossCheckLevels → DepthLevel) :
    (Vector.ofFn fun i : Fin kMaxCrossCheckLevels => (ls[i.val]?).getD (rest i)).toList.take
      (UInt32.ofNat ls.length).toNat = ls := by
  rw [toNat_count hsmall]
  refine List.ext_getElem (by simp [Nat.min_eq_left hsmall]) fun i hi hi' => ?_
  simp [hi']

/-- A message packed from a snapshot lists the snapshot. -/
theorem updates_toCrossCheckMsg {snap : DepthSnapshot} {out msg : CrossCheckMsg}
    (h : toCrossCheckMsg snap out = some msg) :
    msg.lastUpdateId = snap.lastUpdateId ∧ msg.InBounds ∧ msg.updates = snap.updates := by
  unfold toCrossCheckMsg at h
  split at h
  · cases h
  · next hsmall =>
    obtain ⟨hbids, hasks⟩ : snap.bids.length ≤ kMaxCrossCheckLevels ∧
        snap.asks.length ≤ kMaxCrossCheckLevels := by omega
    obtain rfl := Option.some.inj h
    refine ⟨rfl, ⟨(toNat_count hbids).trans_le hbids, (toNat_count hasks).trans_le hasks⟩, ?_⟩
    simp only [updates, listed, take_ofFn hbids, take_ofFn hasks]
    rfl

/-- Seeding one side. -/
theorem seedSide_eq (b : L2Book) (side : Side) {n : Nat} (hn : n ≤ kMaxCrossCheckLevels)
    (levels : Vector DepthLevel kMaxCrossCheckLevels) :
    CrossCheck.seedSide b side n levels =
      b.applyAll (levelUpdates side (levels.toList.take n)) := by
  have htake : levels.toList.take n =
      (List.range n).map fun i => (levels[i]?).getD ⟨0, 0⟩ := by
    refine List.ext_getElem (by simp [Nat.min_eq_left hn]) fun i hi hi' => ?_
    have hlt : i < kMaxCrossCheckLevels := by
      rw [List.length_map, List.length_range] at hi'
      omega
    simp [hlt]
  rw [htake, levelUpdates, applyAll, List.foldl_map, List.foldl_map]
  rfl

/-- **Seeding is the application of the listed levels to a cleared book.** -/
theorem seed_eq {msg : CrossCheckMsg} (h : msg.InBounds) (scratch : L2Book) :
    CrossCheck.seed scratch msg = scratch.clear.applyAll msg.updates := by
  rw [CrossCheck.seed, seedSide_eq _ _ h.bids, seedSide_eq _ _ h.asks, updates, sideUpdates,
    applyAll, applyAll, applyAll, List.foldl_append]
  rfl

end CrossCheckMsg

/-! ## Consecutive groups -/

/-- Whole diff groups in a row, with their ids: each carries the levels its updates touched,
with their quantities at its last id, and begins where the one before it ended. -/
inductive DiffRun (e : Nat → LevelUpdate) : List (UInt64 × UInt64) → List MarketEvent → Prop
  | nil : DiffRun e [] []
  | cons {U u : UInt64} {us : List LevelUpdate} {evs rest : List MarketEvent}
      {ids : List (UInt64 × UInt64)} (group : Group .kDepthDiff U u false us evs)
      (message : Exchange.DiffOf e U u us)
      (joins : ∀ id ∈ ids.head?, id.1.toNat = u.toNat + 1) (later : DiffRun e ids rest) :
      DiffRun e ((U, u) :: ids) (evs ++ rest)

namespace DiffRun
variable {e : Nat → LevelUpdate} {ids : List (UInt64 × UInt64)} {evs : List MarketEvent}

theorem kind_eq (h : DiffRun e ids evs) : ∀ ev ∈ evs, ev.kind = .kDepthDiff := by
  induction h with
  | nil => nofun
  | cons group message joins later ih =>
    exact List.forall_mem_append.mpr ⟨group.chain.kind_eq, ih⟩

/-- The id the run stands at, if it started at `n`. -/
def endsAt (ids : List (UInt64 × UInt64)) (n : Nat) : Nat :=
  (ids.getLast?.map fun id => id.2.toNat).getD n

theorem endsAt_cons (id : UInt64 × UInt64) (ids : List (UInt64 × UInt64)) (n : Nat) :
    endsAt (id :: ids) n = endsAt ids id.2.toNat := by
  cases ids with
  | nil => rfl
  | cons id' ids => rw [endsAt, List.getLast?_cons_cons, endsAt, List.getLast?_cons]; rfl

/-- The first group of a run can follow a book at `n`. -/
def Joins (ids : List (UInt64 × UInt64)) (n : Nat) : Prop :=
  ∀ id ∈ ids.head?, id.1.toNat ≤ n + 1 ∧ n ≤ id.2.toNat

/-- What follows a group can follow the book at its last id. -/
theorem joins_after (h : DiffRun e ids evs) {n : Nat}
    (hnext : ∀ id ∈ ids.head?, id.1.toNat = n + 1) : Joins ids n := by
  cases h with
  | nil => nofun
  | @cons U u us evs rest ids group message joins later =>
    rintro id ⟨⟩
    have hU := hnext (U, u) rfl
    have hle := UInt64.le_iff_toNat_le.mp message.ordered
    exact ⟨Nat.le_of_eq hU, by dsimp only at hU ⊢; omega⟩

/-- The levels named by events. -/
def Named (evs : List MarketEvent) (key : Side × Int64) : Prop :=
  ∃ x ∈ evs.flatMap MarketEvent.updates, (x.side, x.pxTicks) = key

/-- **A run catches a part of the book up**, and makes known the levels it names. -/
theorem catches_up (h : DiffRun e ids evs) {known : Side × Int64 → Prop} {m : PriceMap} {n : Nat}
    (hpart : PartOn known m (Exchange.book e n)) (hjoins : Joins ids n) :
    PartOn (fun key => known key ∨ Named evs key)
      (m.applyAll (evs.flatMap MarketEvent.updates)) (Exchange.book e (endsAt ids n)) := by
  induction h generalizing known m n with
  | nil =>
    refine ⟨fun key hkey => hpart.same key (hkey.resolve_right ?_), fun key hkey =>
      hpart.absent key fun hknown => hkey (Or.inl hknown)⟩
    rintro ⟨x, hx, -⟩
    cases hx
  | @cons U u us evs rest ids group message joins later ih =>
    obtain ⟨hU, hu⟩ := hjoins (U, u) rfl
    have hrest := ih (message.catches_part_up hpart hU hu) (joins_after later joins)
    rw [endsAt_cons, List.flatMap_append, group.flatMap_updates, PriceMap.applyAll_append]
    refine hrest.congr fun key => ?_
    unfold Named
    rw [or_assoc, List.flatMap_append, group.flatMap_updates]
    simp only [List.mem_append, or_and_right, exists_or]

/-- **What is replayed of a run is a run**: the groups from the first one past the snapshot
on. -/
theorem replayed (h : DiffRun e ids evs) (lastId : UInt64) :
    DiffRun e (ids.dropWhile fun id => decide (id.2 ≤ lastId))
      (CrossCheck.replayed lastId evs) := by
  induction h with
  | nil => exact .nil
  | @cons U u us evs rest ids group message joins later ih =>
    have hpast : ∀ ev ∈ evs, CrossCheck.past lastId ev = decide (lastId < u) := by
      intro ev hev
      rw [CrossCheck.past, group.chain.kind_eq ev hev, group.chain.finalId_eq ev hev]
      rfl
    by_cases hold : u ≤ lastId
    · have hdrop : CrossCheck.replayed lastId (evs ++ rest) = CrossCheck.replayed lastId rest := by
        refine List.dropWhile_append_of_pos fun ev hev => ?_
        rw [hpast ev hev, decide_eq_false (UInt64.not_lt.mpr hold)]
        rfl
      rw [hdrop, List.dropWhile_cons_of_pos (by simpa using hold)]
      exact ih
    · obtain ⟨front, more, rfl, -⟩ := group.chain.front
      have hfront := hpast front List.mem_cons_self
      rw [decide_eq_true (UInt64.not_le.mp hold)] at hfront
      have hkeep : CrossCheck.replayed lastId (front :: more ++ rest) = front :: more ++ rest :=
        List.dropWhile_cons_of_neg (by simp [hfront])
      rw [hkeep, List.dropWhile_cons_of_neg (by simpa using hold)]
      exact .cons group message joins later

/-- Ids grow, so what follows a group past the snapshot is past it too. -/
theorem all_past (h : DiffRun e ids evs) {lastId : UInt64}
    (hhead : ∀ id ∈ ids.head?, lastId < id.2) : ∀ ev ∈ evs, CrossCheck.past lastId ev = true := by
  induction h with
  | nil => nofun
  | @cons U u us evs rest ids group message joins later ih =>
    have hu : lastId < u := hhead (U, u) rfl
    refine List.forall_mem_append.mpr ⟨fun ev hev => CrossCheck.past_iff.mpr
      ⟨group.chain.kind_eq ev hev, group.chain.finalId_eq ev hev ▸ hu⟩, ih fun id hid => ?_⟩
    have hnext := (joins_after later joins id hid).2
    rw [UInt64.lt_iff_toNat_lt] at hu ⊢
    exact Nat.lt_of_lt_of_le hu hnext

/-- What is replayed of a run is everything in it that is past the snapshot. -/
theorem replayed_eq_filter (h : DiffRun e ids evs) (lastId : UInt64) :
    CrossCheck.replayed lastId evs = evs.filter (CrossCheck.past lastId) := by
  have hall : ∀ ev ∈ CrossCheck.replayed lastId evs, CrossCheck.past lastId ev = true := by
    refine (h.replayed lastId).all_past fun id hid => ?_
    rw [← List.find?_not_eq_head?_dropWhile] at hid
    simpa using List.find?_some hid
  have hnone : ∀ ev ∈ evs.takeWhile (fun ev => !CrossCheck.past lastId ev),
      ¬ CrossCheck.past lastId ev = true := fun ev hev => by
    simpa using List.mem_takeWhile_imp hev
  conv_rhs => rw [← List.takeWhile_append_dropWhile
    (p := fun ev => !CrossCheck.past lastId ev) (l := evs), List.filter_append]
  rw [List.filter_eq_nil_iff.mpr hnone, List.nil_append]
  exact (List.filter_eq_self.mpr hall).symm

end DiffRun

namespace CrossCheck
variable {e : Nat → LevelUpdate} {msg : CrossCheckMsg} {snaps diffs : List MarketEvent}
  {ids : List (UInt64 × UInt64)} {lastId : UInt64} {levels : Int} {live scratch : L2Book}

/-! ## Where the replay starts -/

/-- The ids of the first group past the snapshot. -/
def firstPast (lastId : UInt64) (ids : List (UInt64 × UInt64)) : Option (UInt64 × UInt64) :=
  ids.find? fun id => decide (lastId < id.2)

theorem head?_dropWhile_ids :
    (ids.dropWhile fun id => decide (id.2 ≤ lastId)).head? = firstPast lastId ids := by
  rw [← List.find?_not_eq_head?_dropWhile, firstPast]
  congr 1
  funext id
  rw [← decide_not, decide_eq_decide, UInt64.not_le]

/-- Snapshot events in front of the run are passed over. -/
theorem replayed_append_snapshots (hsnaps : ∀ ev ∈ snaps, ev.kind = .kSnapshot) :
    replayed lastId (snaps ++ diffs) = replayed lastId diffs := by
  refine List.dropWhile_append_of_pos fun ev hev => ?_
  rw [past, hsnaps ev hev]
  rfl

/-- With no group past the snapshot there is nothing to replay. -/
theorem crossCheck_of_none (hsnaps : ∀ ev ∈ snaps, ev.kind = .kSnapshot)
    (hrun : DiffRun e ids diffs) (hnone : firstPast msg.lastUpdateId ids = none) :
    (crossCheck live msg (snaps ++ diffs) levels scratch).1 = .kSkipped := by
  have hreplay := hrun.replayed msg.lastUpdateId
  rw [← head?_dropWhile_ids, List.head?_eq_none_iff] at hnone
  rw [hnone] at hreplay
  generalize hevs : replayed msg.lastUpdateId diffs = evs at hreplay
  cases hreplay
  rw [crossCheck, replayRecent_searching, replayed_append_snapshots hsnaps, hevs]

/-- A group past the snapshot decides by its first id. -/
theorem crossCheck_of_some (live scratch : L2Book) (levels : Int)
    (hsnaps : ∀ ev ∈ snaps, ev.kind = .kSnapshot) (hrun : DiffRun e ids diffs) {U u : UInt64}
    (hfirst : firstPast msg.lastUpdateId ids = some (U, u)) :
    let after := (replayed msg.lastUpdateId (snaps ++ diffs)).foldl L2Book.applyEvent
      (seed scratch msg)
    crossCheck live msg (snaps ++ diffs) levels scratch =
      if U.toNat ≤ msg.lastUpdateId.toNat + 1 then (compareTop live after levels, after)
      else (.kSkipped, seed scratch msg) := by
  intro after
  have hlt : msg.lastUpdateId < u := by simpa using List.find?_some hfirst
  have hjoin : U ≤ msg.lastUpdateId + 1 ↔ U.toNat ≤ msg.lastUpdateId.toNat + 1 := by
    have hu := u.toNat_lt
    rw [UInt64.lt_iff_toNat_lt] at hlt
    rw [UInt64.le_iff_toNat_le, UInt64.toNat_add, UInt64.toNat_one, Nat.mod_eq_of_lt (by omega)]
  have hreplay := hrun.replayed msg.lastUpdateId
  obtain ⟨later, hids⟩ := List.head?_eq_some_iff.mp (head?_dropWhile_ids.trans hfirst)
  rw [hids] at hreplay
  obtain ⟨front, rest, hevs, hU⟩ : ∃ front rest,
      replayed msg.lastUpdateId diffs = front :: rest ∧ front.firstUpdateId = U := by
    generalize replayed msg.lastUpdateId diffs = evs at hreplay
    cases hreplay with
    | cons group message joins later =>
      obtain ⟨front, rest, rfl, -, hU, -⟩ := group.chain.front
      exact ⟨front, _, rfl, hU⟩
  have hdiffs : ∀ ev ∈ rest, ev.kind ≠ .kSnapshot := by
    intro ev hev
    rw [hreplay.kind_eq ev (hevs ▸ List.mem_cons_of_mem _ hev)]
    decide
  rw [crossCheck, replayRecent_searching, replayed_append_snapshots hsnaps, hevs]
  dsimp only
  rw [hU, replayRecent_applying hdiffs]
  by_cases hle : U.toNat ≤ msg.lastUpdateId.toNat + 1
  · rw [if_pos (hjoin.mpr hle), if_pos hle]
    simp only [after, replayed_append_snapshots hsnaps, hevs, List.foldl_cons]
  · rw [if_neg (mt hjoin.mp hle), if_neg hle]

end CrossCheck

/-! ## What the scratch book holds -/

namespace CrossCheck
variable {e : Nat → LevelUpdate} {msg : CrossCheckMsg} {snaps diffs recent : List MarketEvent}
  {ids : List (UInt64 × UInt64)} {levels : Int} {live scratch : L2Book}

/-- What is applied to the scratch book after it is cleared. -/
def applied (msg : CrossCheckMsg) (recent : List MarketEvent) : List LevelUpdate :=
  msg.updates ++ (replayed msg.lastUpdateId recent).flatMap MarketEvent.updates

/-- No call on the scratch book evicts a level or drops one. -/
def Lossless (scratch : L2Book) (msg : CrossCheckMsg) (recent : List MarketEvent) : Prop :=
  ∀ side, ((Watch.start scratch.clear).calls (applied msg recent)).lossy side = false

instance : Decidable (Lossless scratch msg recent) :=
  inferInstanceAs (Decidable (∀ _ : Side, _))

theorem equals_of_replay (hmsg : msg.InBounds) (hlossless : Lossless scratch msg recent) :
    ((replayed msg.lastUpdateId recent).foldl L2Book.applyEvent (seed scratch msg)).Equals
      (PriceMap.empty.applyAll (applied msg recent)) := by
  intro side
  have hlevels := equals_of_lossless hlossless side
  rw [levels_foldl_applyEvent, CrossCheckMsg.seed_eq hmsg]
  rwa [applied, L2Book.applyAll, List.foldl_append] at hlevels

/-- A run that reaches past the snapshot ends where what is replayed of it ends. -/
theorem endsAt_dropWhile {lastId : UInt64} {id : UInt64 × UInt64} {later : List (UInt64 × UInt64)}
    (h : ids.dropWhile (fun id => decide (id.2 ≤ lastId)) = id :: later) (n : Nat) :
    DiffRun.endsAt (id :: later) n = DiffRun.endsAt ids n := by
  obtain ⟨passed, hids⟩ : id :: later <:+ ids := h ▸ List.dropWhile_suffix _
  rw [← hids, DiffRun.endsAt, DiffRun.endsAt, List.getLast?_append, List.getLast?_cons]
  rfl

/-- **What the updates come to**: the part of the book at the end of the run that the snapshot
showed and the replayed groups name. -/
theorem part_of_replay {known : Side × Int64 → Prop}
    (hpart : PartOn known (PriceMap.empty.applyAll msg.updates)
      (Exchange.book e msg.lastUpdateId.toNat))
    (hsnaps : ∀ ev ∈ snaps, ev.kind = .kSnapshot) (hrun : DiffRun e ids diffs) {U u : UInt64}
    (hfirst : firstPast msg.lastUpdateId ids = some (U, u))
    (hU : U.toNat ≤ msg.lastUpdateId.toNat + 1) :
    PartOn (fun key => known key ∨ DiffRun.Named (replayed msg.lastUpdateId (snaps ++ diffs)) key)
      (PriceMap.empty.applyAll (applied msg (snaps ++ diffs)))
      (Exchange.book e (DiffRun.endsAt ids msg.lastUpdateId.toNat)) := by
  have hlt : msg.lastUpdateId < u := by simpa using List.find?_some hfirst
  obtain ⟨later, hids⟩ := List.head?_eq_some_iff.mp (head?_dropWhile_ids.trans hfirst)
  have hreplay := hrun.replayed msg.lastUpdateId
  rw [hids] at hreplay
  have hjoins : DiffRun.Joins ((U, u) :: later) msg.lastUpdateId.toNat := by
    rintro id ⟨⟩
    exact ⟨hU, Nat.le_of_lt (UInt64.lt_iff_toNat_lt.mp hlt)⟩
  rw [applied, PriceMap.applyAll_append, replayed_append_snapshots hsnaps, ← endsAt_dropWhile hids]
  exact hreplay.catches_up hpart hjoins

end CrossCheck

/-! ## The comparison -/

namespace CrossCheck

theorem sameLevel_iff {a b : Option Level} : sameLevel a b = true ↔ a = b ∧ a ≠ none := by
  cases a with
  | none => simp [sameLevel]
  | some a =>
    cases b with
    | none => simp [sameLevel]
    | some b =>
      obtain ⟨apx, aqty⟩ := a
      obtain ⟨bpx, bqty⟩ := b
      simp [sameLevel]

/-- Levels that are there agree one by one exactly if the best levels are the same. -/
theorem topLevels_eq_iff {live scratch : L2Book} {side : Side} {n : Nat}
    (hn : n ≤ (scratch.levels side).length) :
    scratch.topLevels side n = live.topLevels side n ↔
      ∀ i, i < n → sameLevel (scratch.depthAt side i) (live.depthAt side i) = true := by
  rw [topLevels, topLevels, take_eq_take_iff_getElem?]
  refine forall_congr' fun i => imp_congr_right fun hi => ?_
  have hsome : (scratch.levels side).reverse[i]? ≠ none := by
    rw [ne_eq, List.getElem?_eq_none_iff, List.length_reverse]
    omega
  rw [sameLevel_iff, depthAt_eq, depthAt_eq]
  exact (and_iff_left hsome).symm

/-- **The comparison**: skipped if a side of the scratch book is too short, otherwise a match
exactly if the best levels are the same. -/
theorem compareTop_eq {live scratch : L2Book} {levels : Int} (hpos : 0 ≤ levels)
    (hint : levels < 2 ^ 31) :
    compareTop live scratch levels =
      if ∀ side, levels.toNat ≤ (scratch.levels side).length then
        if ∀ side, scratch.topLevels side levels.toNat = live.topLevels side levels.toNat then
          .kMatch
        else .kMismatch
      else .kSkipped := by
  have hsize : toSize levels = levels.toNat := by
    rw [toSize, Int.emod_eq_of_lt hpos (by omega)]
  have hshort : (scratch.numBids < levels.toNat ∨ scratch.numAsks < levels.toNat) ↔
      ¬ ∀ side, levels.toNat ≤ (scratch.levels side).length := by
    rw [← Nat.not_le, ← Nat.not_le, ← not_and_or, not_iff_not]
    exact ⟨fun h side => Side.rec h.1 h.2 side, fun h => ⟨h .kBid, h .kAsk⟩⟩
  unfold compareTop
  rw [hsize]
  by_cases hlong : ∀ side, levels.toNat ≤ (scratch.levels side).length
  · rw [if_neg (fun h => hshort.mp h hlong), if_pos hlong]
    refine if_congr ?_ rfl rfl
    rw [List.all_eq_true]
    constructor
    · intro hall side
      refine (topLevels_eq_iff (hlong side)).mpr fun i hi => ?_
      have hboth := hall i (List.mem_range.mpr hi)
      rw [Bool.and_eq_true] at hboth
      cases side with
      | kBid => exact hboth.1
      | kAsk => exact hboth.2
    · intro hbest i hi
      have hlevel := fun side =>
        (topLevels_eq_iff (hlong side)).mp (hbest side) i (List.mem_range.mp hi)
      rw [hlevel .kBid, hlevel .kAsk]
      rfl
  · rw [if_pos (hshort.mpr hlong), if_neg hlong]

/-- The comparison with a scratch book that holds a known map. -/
theorem compareTop_of_equals {live scratch : L2Book} {levels : Int} {m : PriceMap}
    {rank : Side → List Level} (hpos : 0 ≤ levels) (hint : levels < 2 ^ 31)
    (hequals : scratch.Equals m) (hrank : ∀ side, Ranks side m (rank side)) :
    compareTop live scratch levels =
      if ∀ side, levels.toNat ≤ (rank side).length then
        if ∀ side, live.topLevels side levels.toNat = (rank side).take levels.toNat then .kMatch
        else .kMismatch
      else .kSkipped := by
  have hlist : ∀ side, (scratch.levels side).reverse = rank side := fun side =>
    (hequals side).unique (hrank side)
  have hlength : ∀ side, (scratch.levels side).length = (rank side).length := fun side => by
    rw [← hlist, List.length_reverse]
  rw [compareTop_eq hpos hint]
  refine if_congr ?_ (if_congr (forall_congr' fun side => ?_) rfl rfl) rfl
  · simp only [hlength]
  · rw [topLevels, hlist]
    exact eq_comm

end CrossCheck

open CrossCheck CrossCheckMsg Pipeline

/-- **The verdict is exact for full snapshots.**  The snapshot lists the whole book at its id,
the recent events are snapshot events and then consecutive whole diff groups of the same
exchange, and no call on the scratch book loses a level.  The check is skipped if no group is
past the snapshot or the first one that is leaves a gap.  Otherwise the scratch book is the
exchange's book at the end of the run, and the verdict is whether the live book has the same
best levels, unless a side has too few.  What the scratch book held before does not matter. -/
theorem verdict_exact {e : Nat → LevelUpdate} {msg : CrossCheckMsg}
    {snaps diffs : List MarketEvent} {ids : List (UInt64 × UInt64)} {levels : Int}
    (live scratch : L2Book) (hmsg : msg.InBounds)
    (hfull : Exchange.SnapshotOf e msg.lastUpdateId msg.updates)
    (hsnaps : ∀ ev ∈ snaps, ev.kind = .kSnapshot) (hrun : DiffRun e ids diffs)
    (hpos : 0 ≤ levels) (hint : levels < 2 ^ 31)
    (hlossless : Lossless scratch msg (snaps ++ diffs)) :
    let r := crossCheck live msg (snaps ++ diffs) levels scratch
    let m := Exchange.book e (DiffRun.endsAt ids msg.lastUpdateId.toNat)
    (∀ other, crossCheck live msg (snaps ++ diffs) levels other = r) ∧
    match firstPast msg.lastUpdateId ids with
    | none => r.1 = .kSkipped
    | some (U, _) =>
        if msg.lastUpdateId.toNat + 1 < U.toNat then r.1 = .kSkipped
        else
          r.2.Equals m ∧
          ∀ rank : Side → List Level, (∀ side, Ranks side m (rank side)) →
            r.1 =
              if ∀ side, levels.toNat ≤ (rank side).length then
                if ∀ side, live.topLevels side levels.toNat = (rank side).take levels.toNat then
                  .kMatch
                else .kMismatch
              else .kSkipped := by
  intro r m
  refine ⟨fun other => rfl, ?_⟩
  cases hfirst : firstPast msg.lastUpdateId ids with
  | none => exact crossCheck_of_none hsnaps hrun hfirst
  | some id =>
    obtain ⟨U, u⟩ := id
    have hr := crossCheck_of_some live scratch levels hsnaps hrun hfirst
    dsimp only at hr ⊢
    by_cases hgap : msg.lastUpdateId.toNat + 1 < U.toNat
    · rw [if_neg (Nat.not_le.mpr hgap)] at hr
      rw [if_pos hgap]
      exact congrArg Prod.fst hr
    · have hU := Nat.not_lt.mp hgap
      rw [if_pos hU] at hr
      rw [if_neg hgap]
      have hseeded : PartOn (fun _ => True) (PriceMap.empty.applyAll msg.updates)
          (Exchange.book e msg.lastUpdateId.toNat) :=
        ⟨fun key _ => congrFun hfull.applies key, fun _ hnot => absurd trivial hnot⟩
      have hpart := part_of_replay hseeded hsnaps hrun hfirst hU
      have hmap : PriceMap.empty.applyAll (applied msg (snaps ++ diffs)) = m :=
        funext fun key => hpart.same key (Or.inl trivial)
      have hequals : r.2.Equals m := by
        rw [show r = _ from hr, ← hmap]
        exact equals_of_replay hmsg hlossless
      refine ⟨hequals, fun rank hrank => ?_⟩
      have hverdict : r.1 = compareTop live r.2 levels := by rw [show r = _ from hr]
      rw [hverdict]
      exact compareTop_of_equals hpos hint hequals hrank

/-! ### A run -/

/-- The exchange's book after `n` updates, as a book that is given all of them. -/
def Exchange.mirror (e : Nat → LevelUpdate) (n : Nat) : L2Book :=
  L2Book.empty.clear.applyAll ((List.range n).map fun i => e (i + 1))

/-- A message packed from a snapshot. -/
def packed (snap : DepthSnapshot) : CrossCheckMsg := (toCrossCheckMsg snap .zero).getD .zero

/-- A run of one group. -/
theorem DiffRun.single {e : Nat → LevelUpdate} (d : DepthDiff)
    (h : Exchange.DiffOf e d.firstId d.finalId d.updates) :
    DiffRun e [(d.firstId, d.finalId)] (fragments (fun _ => d.header 0) d.bids d.asks) := by
  have hrun := DiffRun.cons (d.group 0) h (by simp) .nil
  rwa [List.append_nil] at hrun

/-- The diff of `tinyExchange`, which begins before the snapshot. -/
def tinyDepthDiff : DepthDiff := ⟨1, 2, 0, [⟨7, 5⟩], [⟨9, 3⟩]⟩

def tinyMsg : CrossCheckMsg := packed ⟨1, [⟨7, 5⟩], []⟩

def tinyRecent : List MarketEvent :=
  fragments (fun _ => tinyDepthDiff.header 0) tinyDepthDiff.bids tinyDepthDiff.asks

theorem tiny_run : DiffRun tinyExchange [(1, 2)] tinyRecent :=
  DiffRun.single tinyDepthDiff tiny_diffOf

theorem packed_lists {snap : DepthSnapshot} (hbids : snap.bids.length ≤ kMaxCrossCheckLevels)
    (hasks : snap.asks.length ≤ kMaxCrossCheckLevels) :
    (packed snap).InBounds ∧ (packed snap).updates = snap.updates := by
  have hpacked : toCrossCheckMsg snap .zero = some (packed snap) := by
    rw [packed, toCrossCheckMsg, if_neg (by omega)]
    rfl
  exact (CrossCheckMsg.updates_toCrossCheckMsg hpacked).2

theorem tinyMsg_lists : tinyMsg.InBounds ∧ tinyMsg.updates = [⟨.kBid, 7, 5⟩] :=
  packed_lists (by decide) (by decide)

theorem tiny_lossless : Lossless L2Book.empty tinyMsg tinyRecent := by decide +kernel

/-- A live book that follows the exchange matches. -/
theorem verdict_exact_bracket :
    (crossCheck (Exchange.mirror tinyExchange 2) tinyMsg ([] ++ tinyRecent) 1 L2Book.empty).1 =
      .kMatch := by
  have hsnaps : ∀ ev ∈ ([] : List MarketEvent), ev.kind = .kSnapshot := nofun
  have hlevels : (0 : Int) ≤ 1 := by decide
  have h := (verdict_exact (Exchange.mirror tinyExchange 2) L2Book.empty tinyMsg_lists.1
    (tinyMsg_lists.2 ▸ tiny_snapshotOf) hsnaps tiny_run hlevels (by decide) tiny_lossless).2
  rw [show firstPast tinyMsg.lastUpdateId [(1, 2)] = some (1, 2) from rfl] at h
  dsimp only at h
  rw [if_neg (by decide)] at h
  rw [h.2 _ h.1]
  decide +kernel

/-! ## Snapshots of limited depth -/

/-- The message lists the best `k` levels of each side of a map. -/
def CrossCheckMsg.ListsBest (msg : CrossCheckMsg) (k : Nat) (m : PriceMap) : Prop :=
  ∀ side, ∃ rank, Ranks side m rank ∧
    ∀ px qty, ⟨px, qty⟩ ∈ msg.listed side ↔ (⟨px, qty⟩ : Level) ∈ rank.take k

/-- A snapshot of limited depth, the groups that lead from it to the live book, which holds
what the exchange holds, and a scratch book that loses nothing. -/
structure DepthLimited (e : Nat → LevelUpdate) (k : Nat) (msg : CrossCheckMsg)
    (ids : List (UInt64 × UInt64)) (recent : List MarketEvent) (live scratch : L2Book) : Prop where
  inBounds : msg.InBounds
  lists : msg.ListsBest k (Exchange.book e msg.lastUpdateId.toNat)
  run : DiffRun e ids recent
  covers : ∃ id ∈ firstPast msg.lastUpdateId ids, id.1.toNat ≤ msg.lastUpdateId.toNat + 1
  live_equals : live.Equals (Exchange.book e (DiffRun.endsAt ids msg.lastUpdateId.toNat))
  lossless : Lossless scratch msg recent

/-- The level is listed by the message, or named by a diff past it. -/
def Seen (msg : CrossCheckMsg) (recent : List MarketEvent) (key : Side × Int64) : Prop :=
  (∃ l ∈ msg.listed key.1, l.pxTicks = key.2) ∨
    DiffRun.Named (recent.filter (past msg.lastUpdateId)) key

instance (evs : List MarketEvent) : DecidablePred (DiffRun.Named evs) := fun _ =>
  inferInstanceAs (Decidable (∃ _ ∈ _, _))

instance (msg : CrossCheckMsg) (recent : List MarketEvent) : DecidablePred (Seen msg recent) :=
  fun _ => inferInstanceAs (Decidable (_ ∨ _))

/-- Seeding gives the part of the book that the message lists. -/
theorem CrossCheckMsg.ListsBest.part {e : Nat → LevelUpdate} {msg : CrossCheckMsg} {k n : Nat}
    (h : msg.ListsBest k (Exchange.book e n)) :
    PartOn (fun key => ∃ l ∈ msg.listed key.1, l.pxTicks = key.2)
      (PriceMap.empty.applyAll msg.updates) (Exchange.book e n) := by
  have hnothing : PartOn (fun _ => False) PriceMap.empty (Exchange.book e n) :=
    ⟨fun _ => False.elim, fun _ _ => rfl⟩
  refine PartOn.congr (hnothing.replay ?_ fun _ => False.elim) fun key => ?_
  · intro a ha
    obtain ⟨⟨side, px, qty⟩, hx, rfl⟩ := List.mem_map.mp ha
    obtain ⟨rank, hrank, hlisted⟩ := h side
    have hqty := (hrank.mem_iff px qty).mp
      (List.mem_of_mem_take ((hlisted px qty).mp (mem_updates.mp hx)))
    have hne : qty ≠ 0 := by
      rintro rfl
      exact Exchange.book_ne_zero _ _ hqty
    show (if qty = 0 then none else some qty) = _
    rw [if_neg hne]
    exact hqty.symm
  · rw [false_or]
    constructor
    · rintro ⟨a, ha, hkey⟩
      obtain ⟨⟨side, px, qty⟩, hx, rfl⟩ := List.mem_map.mp ha
      subst hkey
      exact ⟨⟨px, qty⟩, mem_updates.mp hx, rfl⟩
    · rintro ⟨⟨px, qty⟩, hl, hpx⟩
      exact ⟨_, List.mem_map_of_mem (mem_updates.mpr hl), Prod.ext rfl hpx⟩

/-- **When a snapshot of limited depth raises no false alarm.**  The live book is right, and
still the check reports a mismatch unless a side shows fewer than `levels` levels that were
seen, or all of the best levels of both sides were seen. -/
theorem depth_limited_mismatch_iff {e : Nat → LevelUpdate} {k : Nat} {msg : CrossCheckMsg}
    {ids : List (UInt64 × UInt64)} {recent : List MarketEvent} {live scratch : L2Book}
    {levels : Int} (h : DepthLimited e k msg ids recent live scratch) (hpos : 0 ≤ levels)
    (hint : levels < 2 ^ 31) :
    (crossCheck live msg recent levels scratch).1 ≠ .kMismatch ↔
      (∃ side, ((live.levels side).countP fun l => decide (Seen msg recent (side, l.pxTicks))) <
        levels.toNat) ∨
      ∀ side, ∀ l ∈ live.topLevels side levels.toNat, Seen msg recent (side, l.pxTicks) := by
  obtain ⟨⟨U, u⟩, hfirst, hU⟩ := h.covers
  have hsnaps : ∀ ev ∈ ([] : List MarketEvent), ev.kind = .kSnapshot := nofun
  have hr := crossCheck_of_some live scratch levels hsnaps h.run hfirst
  have hpart := part_of_replay h.lists.part hsnaps h.run hfirst hU
  rw [List.nil_append] at hr hpart
  have hseen : PartOn (Seen msg recent) (PriceMap.empty.applyAll (applied msg recent))
      (Exchange.book e (DiffRun.endsAt ids msg.lastUpdateId.toNat)) :=
    hpart.congr fun key => by rw [h.run.replayed_eq_filter]; rfl
  let rank (side : Side) : List Level :=
    (live.levels side).reverse.filter fun l => decide (Seen msg recent (side, l.pxTicks))
  have hlength : ∀ side, (rank side).length =
      (live.levels side).countP fun l => decide (Seen msg recent (side, l.pxTicks)) := by
    intro side
    rw [← List.countP_eq_length_filter, List.countP_reverse]
  have hrank : ∀ side, Ranks side (PriceMap.empty.applyAll (applied msg recent)) (rank side) :=
    fun side => (h.live_equals side).filter hseen
  rw [hr, if_pos hU,
    compareTop_of_equals hpos hint (equals_of_replay h.inBounds h.lossless) hrank]
  by_cases hlong : ∀ side, levels.toNat ≤ (rank side).length
  · have hfront : (∀ side, live.topLevels side levels.toNat = (rank side).take levels.toNat) ↔
        ∀ side, ∀ l ∈ live.topLevels side levels.toNat, Seen msg recent (side, l.pxTicks) := by
      refine forall_congr' fun side => eq_comm.trans
        ((take_filter_eq_take_iff (hlong side)).trans ?_)
      simp only [decide_eq_true_iff]
      rfl
    have hnot : ¬ ∃ side, ((live.levels side).countP fun l =>
        decide (Seen msg recent (side, l.pxTicks))) < levels.toNat := by
      rintro ⟨side, hside⟩
      have := hlong side
      rw [hlength] at this
      omega
    rw [if_pos hlong, ← hfront, or_iff_right hnot]
    split <;> simp_all
  · rw [if_neg hlong]
    refine iff_of_true nofun (Or.inl ?_)
    simpa [hlength] using hlong

/-- A full book is the best levels of itself, as many as there are. -/
theorem tiny_depthLimited : DepthLimited tinyExchange 1 tinyMsg [(1, 2)] tinyRecent
    (Exchange.mirror tinyExchange 2) L2Book.empty where
  inBounds := tinyMsg_lists.1
  lists := by
    have hbook : (Exchange.mirror tinyExchange 1).Equals (Exchange.book tinyExchange 1) :=
      equals_of_lossless (by decide +kernel)
    intro side
    refine ⟨_, hbook side, fun px qty => ?_⟩
    rw [← mem_updates, tinyMsg_lists.2]
    cases side with
    | kBid => simp [show (Exchange.mirror tinyExchange 1).levels .kBid = [⟨7, 5⟩] from rfl]
    | kAsk => simp [show (Exchange.mirror tinyExchange 1).levels .kAsk = [] from rfl]
  run := tiny_run
  covers := ⟨(1, 2), rfl, by decide⟩
  live_equals := equals_of_lossless (by decide +kernel)
  lossless := tiny_lossless

/-- All best levels were seen, and there is no alarm. -/
theorem depth_limited_seen :
    (crossCheck (Exchange.mirror tinyExchange 2) tinyMsg tinyRecent 1 L2Book.empty).1 ≠
      .kMismatch :=
  (depth_limited_mismatch_iff tiny_depthLimited (by decide) (by decide)).mpr
    (Or.inr (by decide +kernel))

/-- Two bids and an ask; then the best bid goes and a bid far below appears. -/
def uncoveringExchange : Nat → LevelUpdate
  | 1 => ⟨.kBid, 100, 1⟩
  | 2 => ⟨.kBid, 99, 1⟩
  | 3 => ⟨.kAsk, 200, 1⟩
  | 4 => ⟨.kBid, 100, 0⟩
  | _ => ⟨.kBid, 50, 1⟩

/-- The best level of each side after three updates. -/
def topMsg : CrossCheckMsg := packed ⟨3, [⟨100, 1⟩], [⟨200, 1⟩]⟩

/-- The last two updates. -/
def uncoveringDiff : DepthDiff := ⟨4, 5, 0, [⟨100, 0⟩, ⟨50, 1⟩], []⟩

def uncoveringRecent : List MarketEvent :=
  fragments (fun _ => uncoveringDiff.header 0) uncoveringDiff.bids uncoveringDiff.asks

theorem uncovering_diffOf :
    Exchange.DiffOf uncoveringExchange 4 5 uncoveringDiff.updates where
  positive := by decide
  ordered := by decide
  values := by decide
  covers := by
    intro i hi hi'
    obtain rfl | rfl : i = 4 ∨ i = 5 := by
      have : i ≤ 5 := hi'
      have : 4 ≤ i := hi
      omega
    · exact ⟨_, List.mem_cons_self, rfl, rfl⟩
    · exact ⟨_, List.mem_cons_of_mem _ List.mem_cons_self, rfl, rfl⟩

theorem uncovering_depthLimited : DepthLimited uncoveringExchange 1 topMsg [(4, 5)]
    uncoveringRecent (Exchange.mirror uncoveringExchange 5) L2Book.empty where
  inBounds := (packed_lists (by decide) (by decide)).1
  lists := by
    have hbook : (Exchange.mirror uncoveringExchange 3).Equals
        (Exchange.book uncoveringExchange 3) := equals_of_lossless (by decide +kernel)
    have hbids : (Exchange.mirror uncoveringExchange 3).levels .kBid = [⟨99, 1⟩, ⟨100, 1⟩] := rfl
    have hasks : (Exchange.mirror uncoveringExchange 3).levels .kAsk = [⟨200, 1⟩] := rfl
    intro side
    refine ⟨_, hbook side, fun px qty => ?_⟩
    cases side with
    | kBid => simp [show topMsg.listed .kBid = [⟨100, 1⟩] from rfl, hbids]
    | kAsk => simp [show topMsg.listed .kAsk = [⟨200, 1⟩] from rfl, hasks]
  run := DiffRun.single uncoveringDiff uncovering_diffOf
  covers := ⟨(4, 5), rfl, by decide⟩
  live_equals := equals_of_lossless (by decide +kernel)
  lossless := by decide +kernel

/-- **A false alarm.**  The snapshot never showed the bid at 99, which is now the best.  The
scratch book has the bid at 50 and is deep enough for one level, and the live book, which is
right, is reported as diverged. -/
theorem depth_limited_false_alarm :
    DepthLimited uncoveringExchange 1 topMsg [(4, 5)] uncoveringRecent
      (Exchange.mirror uncoveringExchange 5) L2Book.empty ∧
    (crossCheck (Exchange.mirror uncoveringExchange 5) topMsg uncoveringRecent 1
      L2Book.empty).1 = .kMismatch :=
  ⟨uncovering_depthLimited, by decide +kernel⟩

end Asmm
