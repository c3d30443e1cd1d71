import CryptoBook.OrderedSearch
import CryptoBook.Events
import CryptoBook.Runs

/-! # The bounded level-2 book

`L2Book` of `core/book.cpp`.  Each side is the active part of a fixed array of
`kMaxLevels` slots, stored worst price first: bids ascend, asks descend, so the
best level of a side is its last one.  A list holds the active part; `eraseAt` and
`insertAt` are the two `memmove` helpers, and slots past the active part are never
read.

`applySide` is the body of `L2Book::Apply` for the side it selects.  What a call can
do to an ordered side is said once, by `Applied`, and `applySide_applied` shows that
the code does one of these six things.  Every later fact about the book is a case
analysis on `Applied`, never on the code. -/
namespace Asmm
open OrderedSearch

structure Level where
  pxTicks : Int64
  qtyLots : Int64
  deriving DecidableEq, Repr

/-- Index order runs worst to best: bids ascending, asks descending. -/
def isWorse (side : Side) (a b : Int64) : Prop :=
  match side with
  | .kBid => a < b
  | .kAsk => b < a

instance (side : Side) : DecidableRel (isWorse side) := fun a b =>
  match side with
  | .kBid => inferInstanceAs (Decidable (a < b))
  | .kAsk => inferInstanceAs (Decidable (b < a))

instance (side : Side) : IsStrictTotalOrder Int64 (isWorse side) where
  irrefl a h := by cases side <;> exact Int64.lt_irrefl h
  trans a b c hab hbc := by
    cases side
    · exact Int64.lt_trans hab hbc
    · exact Int64.lt_trans hbc hab
  trichotomous a b hab hba := by
    cases side
    · exact Int64.le_antisymm (Int64.not_lt.mp hba) (Int64.not_lt.mp hab)
    · exact Int64.le_antisymm (Int64.not_lt.mp hab) (Int64.not_lt.mp hba)

/-- Two sides, worst price first, and the bookkeeping of the last event applied. -/
structure L2Book where
  bids : List Level
  asks : List Level
  lastUpdateTsNs : Int64
  lastUpdateId : UInt64
  deriving DecidableEq

namespace L2Book

def kMaxLevels : Nat := 1024

/-- Erase the element at `idx`, shifting the tail down. -/
def eraseAt (arr : List Level) (idx : Nat) : List Level := arr.eraseIdx idx

/-- Insert `v` at `idx`, shifting the tail up. -/
def insertAt (arr : List Level) (idx : Nat) (v : Level) : List Level := arr.insertIdx idx v

/-- First index whose price is not worse than `px`. -/
def lowerBound (side : Side) (arr : List Level) (px : Int64) : Nat :=
  partitionPoint (fun i => arr[i]?.any fun l => decide (isWorse side l.pxTicks px))
    arr.length 0 arr.length

/-- `L2Book::Apply` on the array of one side. -/
def applySide (side : Side) (arr : List Level) (px qty : Int64) : List Level × ApplyResult :=
  let n := arr.length
  let idx := lowerBound side arr px
  let found := arr[idx]?.any fun l => decide (l.pxTicks = px)
  if found then
    if qty = 0 then (eraseAt arr idx, .kOk)
    else (arr.modify idx fun l => { l with qtyLots := qty }, .kOk)
  else if qty = 0 then
    (arr, .kNoop)
  else if n = kMaxLevels then
    -- Full: `arr[0]` is the worst kept level.
    if arr[0]?.any fun w => decide (isWorse side px w.pxTicks) then
      (arr, .kDropped)
    else
      let newIdx := if idx > 0 then idx - 1 else 0
      (insertAt (eraseAt arr 0) newIdx ⟨px, qty⟩, .kOk)
  else
    (insertAt arr idx ⟨px, qty⟩, .kOk)

/-! ## What a call does to an ordered side -/

/-- `lo` and `hi` are the levels worse and better than `px`. -/
structure Around (side : Side) (px : Int64) (lo hi : List Level) : Prop where
  below : ∀ a ∈ lo, isWorse side a.pxTicks px
  above : ∀ a ∈ hi, isWorse side px a.pxTicks

/-- The six outcomes of an update at `px`, on a side split around `px`. -/
inductive Applied (side : Side) (px qty : Int64) :
    List Level → List Level → ApplyResult → Prop
  | delete {lo hi : List Level} (q : Int64) (hs : Around side px lo hi) (hq : qty = 0) :
      Applied side px qty (lo ++ ⟨px, q⟩ :: hi) (lo ++ hi) .kOk
  | update {lo hi : List Level} (q : Int64) (hs : Around side px lo hi) (hq : qty ≠ 0) :
      Applied side px qty (lo ++ ⟨px, q⟩ :: hi) (lo ++ ⟨px, qty⟩ :: hi) .kOk
  | noop {lo hi : List Level} (hs : Around side px lo hi) (hq : qty = 0) :
      Applied side px qty (lo ++ hi) (lo ++ hi) .kNoop
  | drop {hi : List Level} (hs : Around side px [] hi) (hq : qty ≠ 0)
      (hfull : hi.length = kMaxLevels) : Applied side px qty hi hi .kDropped
  | evict {lo hi : List Level} (w : Level) (hs : Around side px (w :: lo) hi) (hq : qty ≠ 0)
      (hfull : (w :: lo ++ hi).length = kMaxLevels) :
      Applied side px qty (w :: lo ++ hi) (lo ++ ⟨px, qty⟩ :: hi) .kOk
  | insert {lo hi : List Level} (hs : Around side px lo hi) (hq : qty ≠ 0)
      (hroom : (lo ++ hi).length ≠ kMaxLevels) :
      Applied side px qty (lo ++ hi) (lo ++ ⟨px, qty⟩ :: hi) .kOk

/-- Levels of one side, in index order. -/
abbrev Sorted (side : Side) (arr : List Level) : Prop :=
  Ordered (isWorse side) Level.pxTicks arr

/-- The search position splits an ordered side around the probed price, with the level
of that price, if there is one, first in the upper part. -/
theorem lowerBound_split {side : Side} {arr : List Level} (h : Sorted side arr) (px : Int64) :
    ∃ lo hi, Around side px lo hi ∧ lowerBound side arr px = lo.length ∧
      ((∃ q, arr = lo ++ ⟨px, q⟩ :: hi) ∨ arr = lo ++ hi) := by
  obtain ⟨lo, hi, rfl, hlo, hhi, hidx⟩ := exists_split h px
  obtain ⟨_, hhiord, _⟩ := ordered_append.mp h
  cases hi with
  | nil => exact ⟨lo, [], ⟨hlo, by simp⟩, hidx, Or.inr rfl⟩
  | cons a hi =>
    obtain ⟨ha, _⟩ := ordered_cons.mp hhiord
    rcases trichotomous_of (isWorse side) a.pxTicks px with hlt | heq | hgt
    · exact absurd hlt (hhi a (List.mem_cons_self ..))
    · exact ⟨lo, hi, ⟨hlo, fun b hb => heq ▸ ha b hb⟩, hidx, Or.inl ⟨a.qtyLots, heq ▸ rfl⟩⟩
    · refine ⟨lo, a :: hi, ⟨hlo, ?_⟩, hidx, Or.inr rfl⟩
      intro b hb
      rcases List.mem_cons.mp hb with rfl | hb
      · exact hgt
      · exact trans_of (isWorse side) hgt (ha b hb)

theorem Around.not_found {side : Side} {px : Int64} {lo hi : List Level}
    (hs : Around side px lo hi) :
    ((lo ++ hi)[lo.length]?.any fun l => decide (l.pxTicks = px)) = false := by
  rw [List.getElem?_append_right (Nat.le_refl _), Nat.sub_self]
  cases hi with
  | nil => rfl
  | cons a hi =>
    simp only [List.getElem?_cons_zero, Option.any_some, decide_eq_false_iff_not]
    intro he
    exact irrefl_of (isWorse side) _ (he ▸ hs.above a (List.mem_cons_self ..))

/-- **The code does one of the six things.** -/
theorem applySide_applied {side : Side} {arr : List Level} (h : Sorted side arr)
    (px qty : Int64) :
    Applied side px qty arr (applySide side arr px qty).1 (applySide side arr px qty).2 := by
  obtain ⟨lo, hi, hs, hidx, ⟨q, rfl⟩ | rfl⟩ := lowerBound_split h px
  · have hfound : ((lo ++ ⟨px, q⟩ :: hi)[lo.length]?.any fun l => decide (l.pxTicks = px))
        = true := by simp
    by_cases hq : qty = 0
    · have he : applySide side (lo ++ ⟨px, q⟩ :: hi) px qty = (lo ++ hi, .kOk) := by
        simp only [applySide, hidx, hfound, if_pos, hq, eraseAt, eraseIdx_split]
      rw [he]
      exact .delete q hs hq
    · have he : applySide side (lo ++ ⟨px, q⟩ :: hi) px qty
          = (lo ++ ⟨px, qty⟩ :: hi, .kOk) := by
        simp only [applySide, hidx, hfound, if_pos, if_neg hq, modify_split]
      rw [he]
      exact .update q hs hq
  · have hnot := hs.not_found
    by_cases hq : qty = 0
    · have he : applySide side (lo ++ hi) px qty = (lo ++ hi, .kNoop) := by
        simp [applySide, hidx, hnot, hq]
      rw [he]
      exact .noop hs hq
    · by_cases hfull : (lo ++ hi).length = kMaxLevels
      · cases lo with
        | nil =>
          have hw : (([] ++ hi : List Level)[0]?.any fun w => decide (isWorse side px w.pxTicks))
              = true := by
            cases hi with
            | nil => simp [kMaxLevels] at hfull
            | cons a hi => simpa using hs.above a (List.mem_cons_self ..)
          have he : applySide side ([] ++ hi) px qty = ([] ++ hi, .kDropped) := by
            simp only [applySide, hidx, hnot, if_neg hq, if_pos hfull, hw]
            simp
          rw [he]
          exact .drop hs hq hfull
        | cons w lo =>
          have hw : ((w :: lo ++ hi)[0]?.any fun w => decide (isWorse side px w.pxTicks))
              = false := by
            simp only [List.cons_append, List.getElem?_cons_zero, Option.any_some,
              decide_eq_false_iff_not]
            intro hbad
            exact irrefl_of (isWorse side) _
              (trans_of (isWorse side) hbad (hs.below w (List.mem_cons_self ..)))
          have he : applySide side (w :: lo ++ hi) px qty
              = (lo ++ ⟨px, qty⟩ :: hi, .kOk) := by
            simp only [applySide, hidx, hnot, if_neg hq, if_pos hfull, hw]
            simp [eraseAt, insertAt, insertIdx_split]
          rw [he]
          exact .evict w hs hq hfull
      · have he : applySide side (lo ++ hi) px qty = (lo ++ ⟨px, qty⟩ :: hi, .kOk) := by
          simp only [applySide, hidx, hnot, if_neg hq, if_neg hfull]
          simp [insertAt, insertIdx_split]
        rw [he]
        exact .insert hs hq hfull

/-! ## The representation invariant of a side -/

/-- Strictly ordered, at most `kMaxLevels` long, and free of zero quantities. -/
structure SideValid (side : Side) (arr : List Level) : Prop where
  sorted : Sorted side arr
  bounded : arr.length ≤ kMaxLevels
  nonzero : ∀ l ∈ arr, l.qtyLots ≠ 0

theorem sideValid_nil (side : Side) : SideValid side [] :=
  ⟨ordered_nil, Nat.zero_le _, by simp⟩

/-- A side split around `px` is ordered when both halves are. -/
theorem Around.sorted {side : Side} {px : Int64} {lo hi : List Level} (hs : Around side px lo hi)
    (hlo : Sorted side lo) (hhi : Sorted side hi) : Sorted side (lo ++ hi) :=
  ordered_append.mpr ⟨hlo, hhi, fun a ha b hb =>
    trans_of (isWorse side) (hs.below a ha) (hs.above b hb)⟩

theorem Around.sorted_insert {side : Side} {px : Int64} {lo hi : List Level}
    (hs : Around side px lo hi) (hlo : Sorted side lo) (hhi : Sorted side hi) (q : Int64) :
    Sorted side (lo ++ ⟨px, q⟩ :: hi) := by
  refine ordered_append.mpr ⟨hlo, ordered_cons.mpr ⟨hs.above, hhi⟩, ?_⟩
  intro a ha b hb
  rcases List.mem_cons.mp hb with rfl | hb
  · exact hs.below a ha
  · exact trans_of (isWorse side) (hs.below a ha) (hs.above b hb)

theorem Around.ne_of_mem {side : Side} {px : Int64} {lo hi : List Level}
    (hs : Around side px lo hi) {l : Level} (hl : l ∈ lo ++ hi) : l.pxTicks ≠ px := by
  intro he
  rcases List.mem_append.mp hl with hl | hl
  · exact irrefl_of (isWorse side) _ (he ▸ hs.below l hl)
  · exact irrefl_of (isWorse side) _ (he ▸ hs.above l hl)

section Outcome
variable {side : Side} {px qty : Int64} {arr arr' : List Level} {r : ApplyResult}

/-- A level held after the call is the one just written, or an old one elsewhere. -/
theorem Applied.mem_after (ha : Applied side px qty arr arr' r) {l : Level} (hl : l ∈ arr') :
    (l = ⟨px, qty⟩ ∧ qty ≠ 0) ∨ (l ∈ arr ∧ l.pxTicks ≠ px) := by
  cases ha with
  | delete q hs hq => exact Or.inr ⟨by grind, hs.ne_of_mem hl⟩
  | noop hs hq => exact Or.inr ⟨hl, hs.ne_of_mem hl⟩
  | drop hs hq hfull => exact Or.inr ⟨hl, hs.ne_of_mem hl⟩
  | update q hs hq =>
    by_cases he : l = ⟨px, qty⟩
    · exact Or.inl ⟨he, hq⟩
    · exact Or.inr ⟨by grind, hs.ne_of_mem (by grind)⟩
  | evict w hs hq hfull =>
    by_cases he : l = ⟨px, qty⟩
    · exact Or.inl ⟨he, hq⟩
    · exact Or.inr ⟨by grind, hs.ne_of_mem (by grind)⟩
  | insert hs hq hroom =>
    by_cases he : l = ⟨px, qty⟩
    · exact Or.inl ⟨he, hq⟩
    · exact Or.inr ⟨by grind, hs.ne_of_mem (by grind)⟩

theorem Applied.sorted (ha : Applied side px qty arr arr' r) (hsorted : Sorted side arr) :
    Sorted side arr' := by
  cases ha with
  | delete q hs hq =>
    obtain ⟨hlo, hhi, _⟩ := ordered_append.mp hsorted
    exact hs.sorted hlo (ordered_cons.mp hhi).2
  | update q hs hq =>
    obtain ⟨hlo, hhi, _⟩ := ordered_append.mp hsorted
    exact hs.sorted_insert hlo (ordered_cons.mp hhi).2 qty
  | noop hs hq => exact hsorted
  | drop hs hq hfull => exact hsorted
  | @evict lo hi w hs hq hfull =>
    obtain ⟨hwlo, hhi, _⟩ := ordered_append.mp hsorted
    have hs' : Around side px lo hi :=
      ⟨fun a ha => hs.below a (List.mem_cons_of_mem _ ha), hs.above⟩
    exact hs'.sorted_insert (ordered_cons.mp hwlo).2 hhi qty
  | insert hs hq hroom =>
    obtain ⟨hlo, hhi, _⟩ := ordered_append.mp hsorted
    exact hs.sorted_insert hlo hhi qty

theorem Applied.bounded (ha : Applied side px qty arr arr' r)
    (hbound : arr.length ≤ kMaxLevels) : arr'.length ≤ kMaxLevels := by
  cases ha with
  | noop hs hq => exact hbound
  | drop hs hq hfull => exact hbound
  | delete q hs hq =>
    simp only [List.length_append, List.length_cons] at hbound ⊢
    omega
  | update q hs hq =>
    simp only [List.length_append, List.length_cons] at hbound ⊢
    omega
  | evict w hs hq hfull =>
    simp only [List.length_append, List.length_cons] at hfull ⊢
    omega
  | insert hs hq hroom =>
    simp only [List.length_append, List.length_cons] at hbound hroom ⊢
    omega

/-- **Every outcome keeps the invariant.** -/
theorem Applied.valid (ha : Applied side px qty arr arr' r) (hv : SideValid side arr) :
    SideValid side arr' := by
  refine ⟨ha.sorted hv.sorted, ha.bounded hv.bounded, fun l hl => ?_⟩
  rcases ha.mem_after hl with ⟨rfl, hq⟩ | ⟨hold, _⟩
  · exact hq
  · exact hv.nonzero l hold

/-- A call that reports `kNoop` or `kDropped` changed nothing. -/
theorem Applied.unchanged (ha : Applied side px qty arr arr' r) (hr : r ≠ .kOk) :
    arr' = arr := by
  cases ha with
  | noop | drop => rfl
  | delete | update | evict | insert => exact absurd rfl hr

end Outcome

/-! ## The book -/

/-- `L2Book book;`. -/
def empty : L2Book := ⟨[], [], 0, 0⟩

/-- The active levels of one side, worst first. -/
def levels (b : L2Book) : Side → List Level
  | .kBid => b.bids
  | .kAsk => b.asks

/-- Write back the active levels of one side. -/
def setLevels (b : L2Book) : Side → List Level → L2Book
  | .kBid, arr => { b with bids := arr }
  | .kAsk, arr => { b with asks := arr }

/-- `L2Book::Apply`. -/
def apply (b : L2Book) (side : Side) (px qty : Int64) : L2Book × ApplyResult :=
  let r := applySide side (b.levels side) px qty
  (b.setLevels side r.1, r.2)

/-- `L2Book::ApplyEvent`: bids, then asks, then the bookkeeping. -/
def applyEvent (b : L2Book) (ev : MarketEvent) : L2Book :=
  let b := (List.range ev.numBids.toNat).foldl
    (fun b i => (b.apply .kBid (ev.level i).pxTicks (ev.level i).qtyLots).1) b
  let b := (List.range ev.numAsks.toNat).foldl
    (fun b i =>
      let j := ev.numBids.toNat + i
      (b.apply .kAsk (ev.level j).pxTicks (ev.level j).qtyLots).1) b
  { b with lastUpdateId := ev.finalUpdateId, lastUpdateTsNs := ev.tsRecvNs }

/-- `L2Book::Clear`. -/
def clear (_ : L2Book) : L2Book := ⟨[], [], 0, 0⟩

def numBids (b : L2Book) : Nat := b.bids.length

def numAsks (b : L2Book) : Nat := b.asks.length

/-- `L2Book::BestBid`. -/
def bestBid (b : L2Book) : Option Level :=
  if b.numBids = 0 then none else b.bids[b.numBids - 1]?

/-- `L2Book::BestAsk`. -/
def bestAsk (b : L2Book) : Option Level :=
  if b.numAsks = 0 then none else b.asks[b.numAsks - 1]?

/-- `L2Book::MidX2`. -/
def midX2 (b : L2Book) : Option Int64 :=
  match b.bestBid, b.bestAsk with
  | some bid, some ask => some (bid.pxTicks + ask.pxTicks)
  | _, _ => none

/-- `L2Book::DepthAt`: the `n`-th level from the top. -/
def depthAt (b : L2Book) (side : Side) (n : Nat) : Option Level :=
  if n ≥ (b.levels side).length then none
  else (b.levels side)[(b.levels side).length - 1 - n]?

@[simp] theorem levels_empty (side : Side) : empty.levels side = [] := by cases side <;> rfl

@[simp] theorem levels_clear (b : L2Book) (side : Side) : b.clear.levels side = [] := by
  cases side <;> rfl

@[simp] theorem levels_setLevels_self (b : L2Book) (side : Side) (arr : List Level) :
    (b.setLevels side arr).levels side = arr := by cases side <;> rfl

theorem levels_setLevels_other (b : L2Book) {side other : Side} (h : other ≠ side)
    (arr : List Level) : (b.setLevels side arr).levels other = b.levels other := by
  cases side <;> cases other <;> first | rfl | exact absurd rfl h

@[simp] theorem setLevels_levels (b : L2Book) (side : Side) :
    b.setLevels side (b.levels side) = b := by cases side <;> rfl

/-- An update leaves the other side as it is. -/
theorem levels_apply_other (b : L2Book) {side other : Side} (h : other ≠ side)
    (px qty : Int64) : (b.apply side px qty).1.levels other = b.levels other :=
  b.levels_setLevels_other h _

theorem depthAt_eq (b : L2Book) (side : Side) (n : Nat) :
    b.depthAt side n = (b.levels side).reverse[n]? := by
  unfold depthAt
  split
  · rename_i hn
    rw [List.getElem?_eq_none (by simpa using hn)]
  · rename_i hn
    rw [List.getElem?_reverse (by omega)]

theorem bestBid_eq (b : L2Book) : b.bestBid = b.bids.getLast? := by
  unfold bestBid numBids
  split
  · rename_i h
    rw [List.length_eq_zero_iff.mp h]
    rfl
  · exact (List.getLast?_eq_getElem? ..).symm

theorem bestAsk_eq (b : L2Book) : b.bestAsk = b.asks.getLast? := by
  unfold bestAsk numAsks
  split
  · rename_i h
    rw [List.length_eq_zero_iff.mp h]
    rfl
  · exact (List.getLast?_eq_getElem? ..).symm

/-! ## Runs of the book -/

/-- Both sides are valid. -/
def Valid (b : L2Book) : Prop := ∀ side, SideValid side (b.levels side)

theorem valid_empty : empty.Valid := fun side => by rw [levels_empty]; exact sideValid_nil side

theorem valid_clear (b : L2Book) : b.clear.Valid := fun side => by
  rw [levels_clear]; exact sideValid_nil side

theorem Valid.apply_applied {b : L2Book} (hb : b.Valid) (side : Side) (px qty : Int64) :
    Applied side px qty (b.levels side) ((b.apply side px qty).1.levels side)
      (b.apply side px qty).2 := by
  have h := applySide_applied (hb side).sorted px qty
  simpa [apply] using h

theorem Valid.apply {b : L2Book} (hb : b.Valid) (side : Side) (px qty : Int64) :
    (b.apply side px qty).1.Valid := by
  intro other
  by_cases h : other = side
  · subst h
    exact (hb.apply_applied other px qty).valid (hb other)
  · rw [b.levels_apply_other h]
    exact hb other

/-- The level updates an event carries, in the order `applyEvent` applies them. -/
structure LevelUpdate where
  side : Side
  pxTicks : Int64
  qtyLots : Int64
  deriving DecidableEq, Repr

/-- Apply a list of updates one by one. -/
def applyAll (b : L2Book) (us : List LevelUpdate) : L2Book :=
  us.foldl (fun b u => (b.apply u.side u.pxTicks u.qtyLots).1) b

end L2Book

/-- The updates of an event: its bids, then its asks. -/
def MarketEvent.updates (ev : MarketEvent) : List L2Book.LevelUpdate :=
  (List.range ev.numBids.toNat).map
      (fun i => ⟨.kBid, (ev.level i).pxTicks, (ev.level i).qtyLots⟩) ++
    (List.range ev.numAsks.toNat).map (fun i =>
      ⟨.kAsk, (ev.level (ev.numBids.toNat + i)).pxTicks, (ev.level (ev.numBids.toNat + i)).qtyLots⟩)

namespace L2Book

/-- `applyEvent` is the one-by-one application of the event's updates. -/
theorem applyEvent_eq (b : L2Book) (ev : MarketEvent) :
    b.applyEvent ev = { b.applyAll ev.updates with
      lastUpdateId := ev.finalUpdateId, lastUpdateTsNs := ev.tsRecvNs } := by
  simp only [applyEvent, applyAll, MarketEvent.updates, List.foldl_append, List.foldl_map]

@[simp] theorem levels_applyEvent (b : L2Book) (ev : MarketEvent) (side : Side) :
    (b.applyEvent ev).levels side = (b.applyAll ev.updates).levels side := by
  rw [applyEvent_eq]
  cases side <;> rfl

/-- What the updates do to the levels depends on the levels only. -/
theorem levels_applyAll_congr {b b' : L2Book} (h : ∀ side, b.levels side = b'.levels side)
    (us : List LevelUpdate) (side : Side) :
    (b.applyAll us).levels side = (b'.applyAll us).levels side := by
  induction us generalizing b b' with
  | nil => exact h side
  | cons u us ih =>
    refine ih fun other => ?_
    by_cases ho : other = u.side
    · subst ho
      simp [apply, h]
    · rw [levels_apply_other _ ho, levels_apply_other _ ho]
      exact h other

theorem Valid.applyAll {b : L2Book} (hb : b.Valid) (us : List LevelUpdate) :
    (b.applyAll us).Valid :=
  Runs.run_invariant (I := Valid) (fun _ u hb => hb.apply u.side u.pxTicks u.qtyLots) hb us

/-- What the updates of some events do to the levels. -/
theorem levels_foldl_applyEvent (b : L2Book) (evs : List MarketEvent) (side : Side) :
    (evs.foldl applyEvent b).levels side =
      (b.applyAll (evs.flatMap MarketEvent.updates)).levels side := by
  induction evs generalizing b with
  | nil => rfl
  | cons ev evs ih =>
    rw [List.foldl_cons, ih, List.flatMap_cons,
      levels_applyAll_congr (fun side => levels_applyEvent b ev side)]
    rw [applyAll, applyAll, applyAll, List.foldl_append]

theorem Valid.applyEvent {b : L2Book} (hb : b.Valid) (ev : MarketEvent) :
    (b.applyEvent ev).Valid := by
  intro side
  rw [levels_applyEvent]
  exact hb.applyAll ev.updates side

/-- A call on the book. -/
inductive Op where
  | apply (side : Side) (px qty : Int64)
  | applyEvent (ev : MarketEvent)
  | clear

/-- The state after one call. -/
def step (b : L2Book) : Op → L2Book
  | .apply side px qty => (b.apply side px qty).1
  | .applyEvent ev => b.applyEvent ev
  | .clear => b.clear

/-- The state after a sequence of calls on a fresh book. -/
def run (ops : List Op) : L2Book := ops.foldl step empty

theorem Valid.step {b : L2Book} (hb : b.Valid) (op : Op) : (b.step op).Valid := by
  cases op with
  | apply side px qty => exact hb.apply side px qty
  | applyEvent ev => exact hb.applyEvent ev
  | clear => exact b.valid_clear

theorem valid_run (ops : List Op) : (run ops).Valid :=
  Runs.run_invariant (I := Valid) (fun _ op hb => hb.step op) valid_empty ops

/-- The last element of an ordered side is the one no other element improves on. -/
theorem getLast?_eq_some_iff_best {side : Side} {arr : List Level} (h : Sorted side arr)
    (l : Level) :
    arr.getLast? = some l ↔ l ∈ arr ∧ ∀ l' ∈ arr, ¬ isWorse side l.pxTicks l'.pxTicks := by
  constructor
  · intro hl
    obtain ⟨init, rfl⟩ := List.getLast?_eq_some_iff.mp hl
    obtain ⟨_, _, hcross⟩ := ordered_append.mp h
    refine ⟨by simp, ?_⟩
    intro l' hl' hw
    rcases List.mem_append.mp hl' with hi | hi
    · exact irrefl_of (isWorse side) _
        (trans_of (isWorse side) hw (hcross l' hi l (List.mem_singleton_self l)))
    · rw [List.mem_singleton.mp hi] at hw
      exact irrefl_of (isWorse side) _ hw
  · rintro ⟨hmem, hbest⟩
    obtain ⟨last, hlast⟩ : ∃ last, arr.getLast? = some last := by
      cases hg : arr.getLast? with
      | none => rw [List.getLast?_eq_none_iff.mp hg] at hmem; cases hmem
      | some last => exact ⟨last, rfl⟩
    obtain ⟨init, rfl⟩ := List.getLast?_eq_some_iff.mp hlast
    obtain ⟨_, _, hcross⟩ := ordered_append.mp h
    rcases List.mem_append.mp hmem with hi | hi
    · exact absurd (hcross l hi last (List.mem_singleton_self _))
        (hbest last (List.mem_append_right _ (List.mem_singleton_self _)))
    · rw [hlast, List.mem_singleton.mp hi]

/-- **The representation invariant, over every run of the book.**  Whatever calls are
made on a fresh book: neither side outgrows its array, bids ascend and asks descend
strictly, no active level is empty, an update touches one side only, the best
levels are the extreme prices, `depthAt` lists a side once from best to worst, and
a call that reports `kNoop` or `kDropped` changed nothing. -/
theorem representation_invariant (ops : List Op) :
    (run ops).numBids ≤ kMaxLevels ∧ (run ops).numAsks ≤ kMaxLevels ∧
    (run ops).bids.Pairwise (fun x y => x.pxTicks < y.pxTicks) ∧
    (run ops).asks.Pairwise (fun x y => y.pxTicks < x.pxTicks) ∧
    (∀ side, ∀ l ∈ (run ops).levels side, l.qtyLots ≠ 0) ∧
    (∀ side px qty other, other ≠ side →
      ((run ops).apply side px qty).1.levels other = (run ops).levels other) ∧
    (∀ l, (run ops).bestBid = some l ↔
      l ∈ (run ops).bids ∧ ∀ l' ∈ (run ops).bids, l'.pxTicks ≤ l.pxTicks) ∧
    (∀ l, (run ops).bestAsk = some l ↔
      l ∈ (run ops).asks ∧ ∀ l' ∈ (run ops).asks, l.pxTicks ≤ l'.pxTicks) ∧
    (∀ side n, (run ops).depthAt side n = ((run ops).levels side).reverse[n]?) ∧
    (∀ side, ((run ops).levels side).reverse.Pairwise
      (fun x y => isWorse side y.pxTicks x.pxTicks)) ∧
    (∀ side px qty, ((run ops).apply side px qty).2 = .kNoop ∨
      ((run ops).apply side px qty).2 = .kDropped →
        ((run ops).apply side px qty).1 = run ops) := by
  have hv := valid_run ops
  refine ⟨(hv .kBid).bounded, (hv .kAsk).bounded, (hv .kBid).sorted, (hv .kAsk).sorted,
    fun side => (hv side).nonzero, fun side px qty other h => levels_apply_other _ h px qty,
    ?_, ?_, fun side n => depthAt_eq _ side n,
    fun side => List.pairwise_reverse.mpr (hv side).sorted, ?_⟩
  · intro l
    have hbest := getLast?_eq_some_iff_best (hv .kBid).sorted l
    simp only [isWorse, Int64.not_lt] at hbest
    rw [bestBid_eq]
    exact hbest
  · intro l
    have hbest := getLast?_eq_some_iff_best (hv .kAsk).sorted l
    simp only [isWorse, Int64.not_lt] at hbest
    rw [bestAsk_eq]
    exact hbest
  · intro side px qty hr
    have hne : ((run ops).apply side px qty).2 ≠ .kOk := by
      rcases hr with hr | hr <;> rw [hr] <;> decide
    have hsame := (hv.apply_applied side px qty).unchanged hne
    have hset : ((run ops).apply side px qty).1 =
        (run ops).setLevels side (((run ops).apply side px qty).1.levels side) := by
      simp [apply]
    rw [hset, hsame, setLevels_levels]

end L2Book
end Asmm
