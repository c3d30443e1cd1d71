import Mathlib.Data.List.Perm.Subperm
import CryptoBook.CrossCheckVerdict
import CryptoBook.Fragmentation

/-! # Cross-checks against an honest exchange

A cross-check that reports a mismatch claims that the book has diverged from the exchange.
Here is when it cannot: snapshots and diffs are true, a cross-check lists the whole book,
every diff fits one event, and the books that a diff leads through have no more prices between
them than `L2Book` has levels (`Room`).  Each of these is needed: without them a check can
start or end inside a group, miss levels below its depth, or lose levels on one book and not
on the other.

With room no call of `Apply` loses a level, so a book that has followed the exchange from a
snapshot on is the exchange's book (`Exact`).  The engine's book is one, and the scratch book
of a check that compares anything is another, started from another snapshot and brought to the
same id (`Stretch`). -/
namespace Asmm
open AbsoluteUpdates OrderedSearch L2Book BookReference Runs

/-! ## Room on the book -/

namespace BookReference
variable {prices : Side → List Int64}

/-- A book whose prices, with the update's, are few has room for the update. -/
theorem loses_eq_false {b : L2Book} (hb : b.Valid)
    (hfew : ∀ side, (prices side).length ≤ kMaxLevels)
    (hheld : ∀ side, ∀ l ∈ b.levels side, l.pxTicks ∈ prices side) {u : LevelUpdate}
    (hu : u.qtyLots ≠ 0 → u.pxTicks ∈ prices u.side) : loses b u = false := by
  refine Bool.eq_false_iff.mpr fun hloses => ?_
  obtain ⟨hqty, hnew, hfull⟩ := (loses_iff hb u).mp hloses
  have hnodup : (u.pxTicks :: (b.levels u.side).map Level.pxTicks).Nodup := by
    refine List.nodup_cons.mpr ⟨?_, ?_⟩
    · rintro hmem
      obtain ⟨l, hl, hpx⟩ := List.mem_map.mp hmem
      exact hnew l hl hpx
    · refine List.pairwise_map.mpr ((hb u.side).sorted.imp fun hworse heq => ?_)
      exact irrefl_of (isWorse u.side) _ (heq ▸ hworse)
  have hsub : u.pxTicks :: (b.levels u.side).map Level.pxTicks ⊆ prices u.side := by
    refine List.cons_subset.mpr ⟨hu hqty, fun px hpx => ?_⟩
    obtain ⟨l, hl, rfl⟩ := List.mem_map.mp hpx
    exact hheld u.side l hl
  have hlength := (List.subperm_of_subset hnodup hsub).length_le
  rw [List.length_cons, List.length_map, hfull] at hlength
  exact absurd (hfew u.side) (by omega)

/-- Calls that name few prices lose nothing. -/
theorem lossy_calls (hfew : ∀ side, (prices side).length ≤ kMaxLevels) {us : List LevelUpdate}
    (hus : ∀ u ∈ us, u.qtyLots ≠ 0 → u.pxTicks ∈ prices u.side) {w : Watch}
    (hvalid : w.book.Valid) (hheld : ∀ side, ∀ l ∈ w.book.levels side, l.pxTicks ∈ prices side)
    (side : Side) : (w.calls us).lossy side = w.lossy side := by
  induction us generalizing w with
  | nil => rfl
  | cons u us ih =>
    obtain ⟨hu, hrest⟩ := List.forall_mem_cons.mp hus
    have hkeeps : (w.call u).lossy side = w.lossy side := by
      simp [Watch.call, loses_eq_false hvalid hfew hheld hu]
    refine (ih hrest (hvalid.apply u.side u.pxTicks u.qtyLots) fun other l hl => ?_).trans hkeeps
    by_cases hother : other = u.side
    · subst hother
      rcases (hvalid.apply_applied u.side u.pxTicks u.qtyLots).mem_after hl with
        ⟨rfl, hqty⟩ | ⟨hold, -⟩
      · exact hu hqty
      · exact hheld u.side l hold
    · rw [show (w.call u).book = (w.book.apply u.side u.pxTicks u.qtyLots).1 from rfl,
        levels_apply_other _ hother] at hl
      exact hheld other l hl

end BookReference

namespace Exchange
variable {e : Nat → LevelUpdate}

/-- The books from one id to another have no more prices between them than the book has
levels. -/
def Room (e : Nat → LevelUpdate) (m n : Nat) : Prop :=
  ∃ prices : Side → List Int64, (∀ side, (prices side).length ≤ kMaxLevels) ∧
    ∀ i, m ≤ i → i ≤ n → ∀ side px, book e i (side, px) ≠ none → px ∈ prices side

/-- A watched book that has lost nothing and is the exchange's book at `n`. -/
structure Exact (e : Nat → LevelUpdate) (n : Nat) (w : Watch) : Prop where
  valid : w.book.Valid
  lossless : ∀ side, w.lossy side = false
  tracks : ∀ side, Tracks side w (book e n)

theorem Exact.equals {n : Nat} {w : Watch} (h : Exact e n w) : w.book.Equals (book e n) := by
  intro side
  refine ⟨List.pairwise_reverse.mpr (h.valid side).sorted, fun px qty => ?_⟩
  rw [List.mem_reverse]
  exact ((h.tracks side).exact (h.lossless side) px qty).symm

/-- A true snapshot on a cleared book. -/
theorem exact_snapshot {lastId : UInt64} {us : List LevelUpdate} (hs : SnapshotOf e lastId us)
    (hroom : Room e lastId.toNat lastId.toNat) (b : L2Book) :
    Exact e lastId.toNat ((Watch.start b.clear).calls us) := by
  obtain ⟨prices, hfew, hprices⟩ := hroom
  refine ⟨valid_calls us b.valid_clear, fun side => ?_, fun side => ?_⟩
  · refine lossy_calls hfew (fun u hu _ => ?_) b.valid_clear (fun side l hl => ?_) side
    · refine hprices _ (Nat.le_refl _) (Nat.le_refl _) _ _ ?_
      rw [(hs u.side u.pxTicks u.qtyLots).mp hu]
      exact Option.some_ne_none _
    · rw [Watch.start, levels_clear] at hl
      cases hl
  · rw [← hs.applies]
    exact tracks_calls us b.valid_clear (tracks_start side b)

/-- A true diff on the exchange's book. -/
theorem Exact.diff {n : Nat} {w : Watch} (h : Exact e n w) {U u : UInt64} {us : List LevelUpdate}
    (hd : DiffOf e U u us) (hroom : Room e (U.toNat - 1) u.toNat) (hU : U.toNat ≤ n + 1)
    (hu : n ≤ u.toNat) : Exact e u.toNat (w.calls us) := by
  obtain ⟨prices, hfew, hprices⟩ := hroom
  refine ⟨valid_calls us h.valid, fun side => ?_, fun side => ?_⟩
  · rw [← h.lossless side]
    refine lossy_calls hfew (fun x hx hqty => ?_) h.valid (fun side l hl => ?_) side
    · refine hprices _ (by omega) (Nat.le_refl _) _ _ ?_
      rw [← hd.values x hx, LevelUpdate.assignment, if_neg hqty]
      exact Option.some_ne_none _
    · refine hprices n (by omega) hu _ _ ?_
      rw [(h.tracks side).held l hl]
      exact Option.some_ne_none _
  · rw [← hd.catches_up hU hu]
    exact tracks_calls us h.valid (h.tracks side)

end Exchange

namespace DiffRun
variable {e : Nat → LevelUpdate} {ids : List (UInt64 × UInt64)} {evs : List MarketEvent}

/-- **A run of true diffs keeps a book exact.** -/
theorem exact (h : DiffRun e ids evs)
    (hrooms : ∀ id ∈ ids, Exchange.Room e (id.1.toNat - 1) id.2.toNat) {n : Nat} {w : Watch}
    (hw : Exchange.Exact e n w) (hjoins : Joins ids n) :
    Exchange.Exact e (endsAt ids n) (w.calls (evs.flatMap MarketEvent.updates)) := by
  induction h generalizing n w with
  | nil => exact hw
  | @cons U u us evs rest ids group message joins later ih =>
    obtain ⟨hroom, hrest⟩ := List.forall_mem_cons.mp hrooms
    obtain ⟨hU, hu⟩ := hjoins (U, u) rfl
    rw [endsAt_cons, List.flatMap_append, group.flatMap_updates, Watch.calls, List.foldl_append]
    exact ih hrest (hw.diff message hroom hU hu) (joins_after later joins)

/-- A group behind a run. -/
theorem concat (h : DiffRun e ids evs) {U u : UInt64} {us : List LevelUpdate}
    {more : List MarketEvent} (group : Group .kDepthDiff U u false us more)
    (message : Exchange.DiffOf e U u us)
    (joins : ∀ id ∈ ids.getLast?, U.toNat = id.2.toNat + 1) :
    DiffRun e (ids ++ [(U, u)]) (evs ++ more) := by
  induction h with
  | nil =>
    have hrun := DiffRun.cons group message (by rintro _ ⟨⟩) .nil
    rwa [List.append_nil] at hrun
  | @cons U' u' us' evs rest ids group' message' joins' later ih =>
    rw [List.append_assoc, List.cons_append]
    refine .cons group' message' ?_ (ih ?_)
    · cases ids with
      | nil =>
        rintro id ⟨⟩
        exact joins (U', u') rfl
      | cons id' ids => exact joins'
    · intro id hid
      refine joins id ?_
      rw [List.getLast?_cons, Option.mem_def.mp hid]
      rfl

/-- What is left of a run of unfragmented groups when events are cut off in front. -/
theorem suffix (h : DiffRun e ids evs) (hwhole : ∀ ev ∈ evs, ev.continues = false)
    {evs' : List MarketEvent} (hsuffix : evs' <:+ evs) :
    ∃ ids', ids' <:+ ids ∧ DiffRun e ids' evs' := by
  induction h with
  | nil =>
    obtain rfl := List.suffix_nil.mp hsuffix
    exact ⟨[], List.suffix_refl _, .nil⟩
  | @cons U u us evs rest ids group message joins later ih =>
    cases group with
    | more frag =>
      have hcut := hwhole _ (List.mem_append_left _ List.mem_cons_self)
      rw [frag.cont_eq] at hcut
      cases hcut
    | @last starts ev frag =>
      rcases List.suffix_cons_iff.mp hsuffix with rfl | hrest
      · exact ⟨_, List.suffix_refl _, .cons (.last frag) message joins later⟩
      · obtain ⟨ids', hids, hrun⟩ :=
          ih (fun ev hev => hwhole ev (List.mem_append_right _ hev)) hrest
        exact ⟨ids', hids.trans (List.suffix_cons ..), hrun⟩

end DiffRun

/-! ## The events since the last snapshot -/

theorem sinceSnapshot_concat (h : List MarketEvent) (ev : MarketEvent) :
    sinceSnapshot (h ++ [ev]) = if ev.startsSnapshot then [ev] else sinceSnapshot h ++ [ev] := by
  rw [sinceSnapshot, List.foldl_append]
  rfl

theorem sinceSnapshot_suffix (h : List MarketEvent) : sinceSnapshot h <:+ h := by
  induction h using List.reverseRecOn with
  | nil => exact List.suffix_refl _
  | append_singleton h ev ih =>
    rw [sinceSnapshot_concat]
    cases ev.startsSnapshot with
    | true => exact List.suffix_append h [ev]
    | false => exact List.suffix_append_self_iff.mpr ih

/-- Events that start no snapshot are added. -/
theorem sinceSnapshot_append {h evs : List MarketEvent}
    (hevs : ∀ ev ∈ evs, ev.startsSnapshot = false) :
    sinceSnapshot (h ++ evs) = sinceSnapshot h ++ evs := by
  induction evs using List.reverseRecOn with
  | nil => rw [List.append_nil, List.append_nil]
  | append_singleton evs ev ih =>
    obtain ⟨hbefore, hlast⟩ := List.forall_mem_append.mp hevs
    rw [← List.append_assoc, sinceSnapshot_concat, if_neg (by simp [hlast ev]), ih hbefore,
      List.append_assoc]

namespace Exchange
variable {e : Nat → LevelUpdate}

/-- A true snapshot, and room for it. -/
def FullSnapshot (e : Nat → LevelUpdate) (lastId : UInt64) (us : List LevelUpdate) : Prop :=
  SnapshotOf e lastId us ∧ Room e lastId.toNat lastId.toNat

/-- A true diff, and room for it. -/
def FullDiff (e : Nat → LevelUpdate) (U u : UInt64) (us : List LevelUpdate) : Prop :=
  DiffOf e U u us ∧ Room e (U.toNat - 1) u.toNat

/-- **A cleared book that is given a snapshot and consecutive diffs** is exact. -/
theorem FullSnapshot.exact {lastId : UInt64} {us : List LevelUpdate}
    (hs : FullSnapshot e lastId us) {ids : List (UInt64 × UInt64)} {evs : List MarketEvent}
    (hrun : DiffRun e ids evs) (hrooms : ∀ id ∈ ids, Room e (id.1.toNat - 1) id.2.toNat)
    (hjoins : DiffRun.Joins ids lastId.toNat) (b : L2Book) :
    Exact e (DiffRun.endsAt ids lastId.toNat)
      ((Watch.start b.clear).calls (us ++ evs.flatMap MarketEvent.updates)) := by
  rw [Watch.calls, List.foldl_append]
  exact hrun.exact hrooms (exact_snapshot hs.1 hs.2 b) hjoins

/-- A snapshot and consecutive diffs behind it. -/
structure Followed (e : Nat → LevelUpdate) (lastId : UInt64) (ids : List (UInt64 × UInt64))
    (snaps diffs : List MarketEvent) : Prop where
  kinds : ∀ ev ∈ snaps, ev.kind = .kSnapshot
  snapshot : FullSnapshot e lastId (snaps.flatMap MarketEvent.updates)
  run : DiffRun e ids diffs
  rooms : ∀ id ∈ ids, Room e (id.1.toNat - 1) id.2.toNat
  joins : DiffRun.Joins ids lastId.toNat

/-- The events since a snapshot start: a part of a snapshot, or a whole one and diffs behind
it. -/
def Stretch (e : Nat → LevelUpdate) (evs : List MarketEvent) : Prop :=
  (∀ ev ∈ evs, ev.kind = .kSnapshot) ∨
    ∃ lastId ids snaps diffs, evs = snaps ++ diffs ∧ Followed e lastId ids snaps diffs

/-- What may follow, said of the events since the snapshot start. -/
def Standing (e : Nat → LevelUpdate) (evs : List MarketEvent) : Phase → Prop
  | .idle => True
  | .await lastId => Followed e lastId [] evs []
  | .live prevU => ∃ lastId ids snaps diffs, evs = snaps ++ diffs ∧
      Followed e lastId ids snaps diffs ∧ ∃ id ∈ ids.getLast?, id.2 = prevU

/-- A diff group that may follow. -/
theorem Followed.diff {lastId : UInt64} {ids : List (UInt64 × UInt64)}
    {snaps diffs evs : List MarketEvent} (h : Followed e lastId ids snaps diffs) {U u : UInt64}
    {us : List LevelUpdate} (group : Group .kDepthDiff U u false us evs)
    (message : FullDiff e U u us) (hnext : ∀ id ∈ ids.getLast?, U.toNat = id.2.toNat + 1)
    (hfirst : ids = [] → U.toNat ≤ lastId.toNat + 1 ∧ lastId.toNat ≤ u.toNat) :
    Followed e lastId (ids ++ [(U, u)]) snaps (diffs ++ evs) where
  kinds := h.kinds
  snapshot := h.snapshot
  run := h.run.concat group message.1 hnext
  rooms := by
    refine List.forall_mem_append.mpr ⟨h.rooms, fun id hid => ?_⟩
    rw [List.mem_singleton.mp hid]
    exact message.2
  joins := by
    cases ids with
    | nil =>
      rintro id ⟨⟩
      exact hfirst rfl
    | cons id ids => exact h.joins

theorem Standing.stretch {evs : List MarketEvent} {ph : Phase} (h : Standing e evs ph)
    (hph : ph ≠ .idle) : Stretch e evs := by
  cases ph with
  | idle => exact absurd rfl hph
  | await lastId => exact Or.inl h.kinds
  | live prevU =>
    obtain ⟨lastId, ids, snaps, diffs, hevs, hfollowed, -⟩ := h
    exact Or.inr ⟨lastId, ids, snaps, diffs, hevs, hfollowed⟩

/-- Every diff event is a group of its own. -/
def Unfragmented (evs : List MarketEvent) : Prop :=
  ∀ ev ∈ evs, ev.kind = .kDepthDiff → ev.continues = false

/-- Where a group has been added, only the moments inside it are left to look at. -/
theorem stretch_append {h evs : List MarketEvent}
    (hbefore : ∀ pre, pre <+: h → Unfragmented pre → Stretch e (sinceSnapshot pre))
    (hinside : ∀ part, part <+: evs → part ≠ [] → Unfragmented (h ++ part) →
      Stretch e (sinceSnapshot (h ++ part))) :
    ∀ pre, pre <+: h ++ evs → Unfragmented pre → Stretch e (sinceSnapshot pre) := by
  intro pre hpre hwhole
  rcases List.prefix_or_prefix_of_prefix hpre (List.prefix_append h evs) with hin | ⟨part, rfl⟩
  · exact hbefore pre hin hwhole
  · by_cases hpart : part = []
    · rw [hpart, List.append_nil] at hwhole ⊢
      exact hbefore h (List.prefix_refl h) hwhole
    · exact hinside part ((List.prefix_append_right_inj h).mp hpre) hpart hwhole

/-- The part of a snapshot that has been applied. -/
theorem sinceSnapshot_group {U u : UInt64} {us : List LevelUpdate} {evs part : List MarketEvent}
    (group : Group .kSnapshot U u true us evs) (hpart : part <+: evs) (hne : part ≠ [])
    (h : List MarketEvent) : sinceSnapshot (h ++ part) = part := by
  obtain ⟨rest, rfl⟩ := hpart
  obtain ⟨front, part, rfl⟩ := List.exists_cons_of_ne_nil hne
  have hflags := group.map_startsSnapshot
  rw [List.cons_append, List.map_cons] at hflags
  obtain ⟨hfront, hothers⟩ := List.cons.inj hflags
  have hrest : ∀ ev ∈ part, ev.startsSnapshot = false := fun ev hev => by
    have hmem : ev.startsSnapshot ∈ (part ++ rest).map MarketEvent.startsSnapshot :=
      List.mem_map_of_mem (List.mem_append_left rest hev)
    rw [hothers] at hmem
    exact List.eq_of_mem_replicate hmem
  rw [List.append_cons, sinceSnapshot_append hrest, sinceSnapshot_concat, hfront]
  rfl

/-- A diff group that is entered without being fragmented is one event. -/
theorem unfragmented_group {U u : UInt64} {us : List LevelUpdate} {h evs part : List MarketEvent}
    (group : Group .kDepthDiff U u false us evs) (hpart : part <+: evs) (hne : part ≠ [])
    (hwhole : Unfragmented (h ++ part)) :
    part = evs ∧ sinceSnapshot (h ++ evs) = sinceSnapshot h ++ evs := by
  obtain ⟨rest, hrest⟩ := hpart
  obtain ⟨front, part, rfl⟩ := List.exists_cons_of_ne_nil hne
  have hfront := hwhole front (by simp)
  cases group with
  | more frag =>
    obtain ⟨rfl, -⟩ := List.cons.inj hrest
    exact absurd (hfront frag.kind_eq) (by rw [frag.cont_eq]; decide)
  | last frag =>
    obtain ⟨rfl, htail⟩ := List.cons.inj hrest
    obtain ⟨rfl, rfl⟩ := List.append_eq_nil_iff.mp htail
    exact ⟨rfl, sinceSnapshot_append (by simpa using frag.starts_eq)⟩

/-- **Along every feed of unfragmented diffs** the events since the last snapshot start are a
part of a snapshot, or a snapshot and consecutive diffs. -/
theorem stretch_feed {h : List MarketEvent} {ph : Phase}
    (hfeed : Feed (FullSnapshot e) (FullDiff e) h ph) :
    (∀ pre, pre <+: h → Unfragmented pre → Stretch e (sinceSnapshot pre)) ∧
      (Unfragmented h → Standing e (sinceSnapshot h) ph) := by
  -- a diff group that leads from one standing to the next
  have hdiff : ∀ {h evs : List MarketEvent} {U u : UInt64} {us : List LevelUpdate},
      Group .kDepthDiff U u false us evs →
      (∀ pre, pre <+: h → Unfragmented pre → Stretch e (sinceSnapshot pre)) →
      (Unfragmented h → Standing e (sinceSnapshot h ++ evs) (.live u)) →
      (∀ pre, pre <+: h ++ evs → Unfragmented pre → Stretch e (sinceSnapshot pre)) ∧
        (Unfragmented (h ++ evs) → Standing e (sinceSnapshot (h ++ evs)) (.live u)) := by
    intro h evs U u us group hbefore hstanding
    refine ⟨stretch_append hbefore fun part hpart hne hwhole => ?_, fun hwhole => ?_⟩
    · obtain ⟨rfl, hsince⟩ := unfragmented_group group hpart hne hwhole
      rw [hsince]
      refine (hstanding fun ev hev => hwhole ev (List.mem_append_left _ hev)).stretch ?_
      rintro ⟨⟩
    · obtain ⟨front, more, rfl, -⟩ := group.chain.front
      obtain ⟨-, hsince⟩ := unfragmented_group group (List.prefix_refl _) (List.cons_ne_nil _ _)
        hwhole
      rw [hsince]
      exact hstanding fun ev hev => hwhole ev (List.mem_append_left _ hev)
  induction hfeed with
  | start =>
    refine ⟨fun pre hpre _ => ?_, fun _ => trivial⟩
    obtain rfl := List.prefix_nil.mp hpre
    exact Or.inl (by rintro _ ⟨⟩)
  | @snapshot h evs ph lastId us before group message ih =>
    have hkinds := group.chain.kind_eq
    refine ⟨stretch_append ih.1 fun part hpart hne _ => ?_, fun _ => ?_⟩
    · rw [sinceSnapshot_group group hpart hne]
      exact Or.inl fun ev hev => hkinds ev (hpart.subset hev)
    · obtain ⟨front, more, rfl, -⟩ := group.chain.front
      rw [sinceSnapshot_group group (List.prefix_refl _) (List.cons_ne_nil _ _)]
      exact ⟨hkinds, group.flatMap_updates.symm ▸ message, .nil, by rintro _ ⟨⟩, by rintro _ ⟨⟩⟩
  | @bracket h evs lastId U u us before group message after joins ih =>
    refine hdiff group ih.1 fun hwhole => ⟨lastId, [(U, u)], _, evs, rfl, ?_, (U, u), rfl, rfl⟩
    refine (ih.2 hwhole).diff group message (by rintro _ ⟨⟩) fun _ => ?_
    have hlt := UInt64.lt_iff_toNat_lt.mp after
    have hle := UInt64.le_iff_toNat_le.mp joins
    rw [UInt64.toNat_add, UInt64.toNat_one] at hle
    exact ⟨Nat.le_trans hle (Nat.mod_le _ _), Nat.le_of_lt hlt⟩
  | @next h evs prevU U u us before group message joins ih =>
    refine hdiff group ih.1 fun hwhole => ?_
    obtain ⟨lastId, ids, snaps, diffs, hevs, hfollowed, id, hid, rfl⟩ := ih.2 hwhole
    refine ⟨lastId, ids ++ [(U, u)], snaps, diffs ++ evs, by rw [hevs, List.append_assoc], ?_,
      (U, u), by simp, rfl⟩
    refine hfollowed.diff group message (fun id' hid' => ?_) fun hnone => ?_
    · obtain rfl := Option.mem_unique hid' hid
      -- `1 ≤ U`, so `prevU + 1` did not wrap
      have hpos := UInt64.le_iff_toNat_le.mp message.1.positive
      have hbound := id'.2.toNat_lt
      rw [joins, UInt64.toNat_add, UInt64.toNat_one] at hpos ⊢
      omega
    · rw [hnone] at hid
      cases hid
  | cut whole ih => exact ⟨fun pre hpre => ih.1 pre (hpre.trans (List.prefix_append ..)),
      fun _ => trivial⟩

end Exchange

/-! ## The verdict -/

namespace CrossCheck
open Exchange
variable {e : Nat → LevelUpdate} {msg : CrossCheckMsg} {live scratch : L2Book} {levels : Int}

/-- Books with the same levels do not differ. -/
theorem compareTop_of_same {after : L2Book} (hint : levels < 2 ^ 31)
    (hsame : ∀ side, live.levels side = after.levels side) :
    compareTop live after levels ≠ .kMismatch := by
  unfold compareTop
  by_cases hshort : after.numBids < toSize levels ∨ after.numAsks < toSize levels
  · rw [if_pos hshort]
    decide
  rw [if_neg hshort, if_pos]
  · decide
  rw [List.all_eq_true]
  intro i hi
  rw [List.mem_range] at hi
  have hsize : toSize levels = levels.toNat := by
    rw [toSize, Int.emod_eq_of_lt (by omega) (by omega)]
  have hlevel : ∀ side, levels.toNat ≤ (after.levels side).length →
      sameLevel (after.depthAt side i) (live.depthAt side i) = true := by
    intro side hlong
    rw [sameLevel_iff, depthAt_eq, depthAt_eq, hsame]
    refine ⟨rfl, ?_⟩
    rw [ne_eq, List.getElem?_eq_none_iff, List.length_reverse]
    omega
  rw [hsize, not_or, Nat.not_lt, Nat.not_lt] at hshort
  rw [hlevel .kBid hshort.1, hlevel .kAsk hshort.2]
  rfl

/-- A message that lists the whole book at its id, with room for it. -/
structure Whole (e : Nat → LevelUpdate) (msg : CrossCheckMsg) : Prop where
  inBounds : msg.InBounds
  snapshot : FullSnapshot e msg.lastUpdateId msg.updates

/-- The end of a stretch: snapshot events, and diffs that are the end of its diffs. -/
theorem suffix_split {ring snaps diffs : List MarketEvent} (h : ring <:+ snaps ++ diffs) :
    ∃ snaps' diffs', ring = snaps' ++ diffs' ∧ snaps' ⊆ snaps ∧ diffs' <:+ diffs := by
  rcases List.suffix_or_suffix_of_suffix h (List.suffix_append snaps diffs) with hin | ⟨part, rfl⟩
  · exact ⟨[], ring, rfl, List.nil_subset _, hin⟩
  · obtain ⟨trimmed, htrimmed⟩ := h
    rw [← List.append_assoc] at htrimmed
    refine ⟨part, diffs, rfl, ?_, List.suffix_refl _⟩
    rw [← List.append_cancel_right htrimmed]
    exact List.subset_append_right _ _

/-- What the scratch book holds after the replay. -/
theorem levels_replay (hmsg : msg.InBounds) (evs : List MarketEvent) (side : Side) :
    (evs.foldl L2Book.applyEvent (seed scratch msg)).levels side =
      (scratch.clear.applyAll (msg.updates ++ evs.flatMap MarketEvent.updates)).levels side := by
  rw [levels_foldl_applyEvent, CrossCheckMsg.seed_eq hmsg]
  simp only [L2Book.applyAll, List.foldl_append]

/-- The end of a run is where its last groups end. -/
theorem endsAt_suffix {ids ids' : List (UInt64 × UInt64)} (h : ids' <:+ ids) (hne : ids' ≠ [])
    (m n : Nat) : DiffRun.endsAt ids' m = DiffRun.endsAt ids n := by
  obtain ⟨trimmed, rfl⟩ := h
  obtain ⟨id, ids', rfl⟩ := List.exists_cons_of_ne_nil hne
  rw [DiffRun.endsAt, DiffRun.endsAt, List.getLast?_append, List.getLast?_cons]
  rfl

/-- **No false alarm.**  On a stretch of unfragmented diffs, with the live book made of its
updates, a check against the whole book does not report a mismatch. -/
theorem crossCheck_not_mismatch {evs ring : List MarketEvent} (hstretch : Stretch e evs)
    (hwhole : Unfragmented evs) (hring : ring <:+ evs) (hmsg : Whole e msg)
    (hlive : ∀ side, live.levels side =
      (L2Book.empty.applyAll (evs.flatMap MarketEvent.updates)).levels side)
    (hint : levels < 2 ^ 31) :
    (crossCheck live msg ring levels scratch).1 ≠ .kMismatch := by
  rcases hstretch with hkinds | ⟨lastId, ids, snaps, diffs, rfl, hfollowed⟩
  · have hskipped : (crossCheck live msg (ring ++ []) levels scratch).1 = .kSkipped :=
      crossCheck_of_none (e := e) (fun ev hev => hkinds ev (hring.subset hev)) .nil rfl
    rw [List.append_nil] at hskipped
    rw [hskipped]
    decide
  · obtain ⟨snaps', diffs', rfl, hsnaps, hdiffs⟩ := suffix_split hring
    have hkinds : ∀ ev ∈ snaps', ev.kind = .kSnapshot := fun ev hev =>
      hfollowed.kinds ev (hsnaps hev)
    obtain ⟨ids', hids, hrun⟩ := hfollowed.run.suffix (fun ev hev =>
      hwhole ev (List.mem_append_right _ hev) (hfollowed.run.kind_eq ev hev)) hdiffs
    cases hfirst : firstPast msg.lastUpdateId ids' with
    | none =>
      rw [crossCheck_of_none hkinds hrun hfirst]
      decide
    | some id =>
      obtain ⟨U, u⟩ := id
      have hr := crossCheck_of_some live scratch levels hkinds hrun hfirst
      dsimp only at hr
      rw [hr]
      by_cases hU : U.toNat ≤ msg.lastUpdateId.toNat + 1
      · rw [if_pos hU]
        obtain ⟨later, hpast⟩ := List.head?_eq_some_iff.mp (head?_dropWhile_ids.trans hfirst)
        have hlt : msg.lastUpdateId < u := by simpa using List.find?_some hfirst
        have hreplay := hrun.replayed msg.lastUpdateId
        rw [hpast] at hreplay
        refine compareTop_of_same hint fun side => ?_
        have hafter := hmsg.snapshot.exact hreplay (fun id hid => ?_) ?_ scratch
        · have hbefore := hfollowed.snapshot.exact hfollowed.run hfollowed.rooms hfollowed.joins
            L2Book.empty
          rw [endsAt_dropWhile hpast, endsAt_suffix hids (List.ne_nil_of_mem
            (List.mem_of_find?_eq_some hfirst)) _ lastId.toNat] at hafter
          have hboth := (hbefore.equals side).unique (hafter.equals side)
          rw [List.reverse_inj, Watch.book_calls, Watch.book_calls] at hboth
          rw [hlive, List.flatMap_append, replayed_append_snapshots hkinds,
            levels_replay hmsg.inBounds]
          exact hboth
        · refine hfollowed.rooms id (hids.subset ?_)
          rw [← hpast] at hid
          exact (List.dropWhile_suffix _).subset hid
        · rintro id ⟨⟩
          exact ⟨hU, Nat.le_of_lt (UInt64.lt_iff_toNat_lt.mp hlt)⟩
      · rw [if_neg hU]
        exact fun hmismatch => by cases hmismatch

end CrossCheck
end Asmm
