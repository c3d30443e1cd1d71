import Mathlib.Data.List.Induction
import CryptoBook.BookReference

/-! # The top of the bounded book

A level that the bounded book has lost stays lost until it is updated again.  When it was
lost there were `kMaxLevels` better ones, so it takes as many deletions to bring it to the
top: until then the best level of the book is the best level of the reference
(`top_of_book`).  After them it may be the best level there is and still be missing, and
the side may even be empty (`drift_loses_best`).  No call reports any of this: the level
was dropped long before, and the deletions are ordinary. -/
namespace Asmm
open OrderedSearch AbsoluteUpdates L2Book

/-- `BestBid` and `BestAsk`. -/
def L2Book.best (b : L2Book) : Side → Option Level
  | .kBid => b.bestBid
  | .kAsk => b.bestAsk

theorem L2Book.best_kBid (b : L2Book) : b.best .kBid = b.bestBid := rfl

theorem L2Book.best_eq (b : L2Book) (side : Side) : b.best side = (b.levels side).getLast? := by
  cases side with
  | kBid => exact b.bestBid_eq
  | kAsk => exact b.bestAsk_eq

namespace BookReference

/-- The best level of a map on one side, if it has any. -/
def IsBest (side : Side) (m : PriceMap) : Option Level → Prop
  | none => ∀ px, m (side, px) = none
  | some l => m (side, l.pxTicks) = some l.qtyLots ∧
      ∀ px qty, m (side, px) = some qty → px = l.pxTicks ∨ isWorse side px l.pxTicks

/-- The last level of a side is the best of the reference, if it is better than every lost
level. -/
theorem isBest_getLast? {side : Side} {m : PriceMap} {arr : List Level} (hs : Sorted side arr)
    (hh : Held side m arr)
    (hlost : ∀ p, Lost side m arr p → ∃ l, arr.getLast? = some l ∧ isWorse side p l.pxTicks) :
    IsBest side m arr.getLast? := by
  have hheld : ∀ {px qty}, m (side, px) = some qty → (∃ l ∈ arr, l.pxTicks = px) ∨
      ∃ l, arr.getLast? = some l ∧ isWorse side px l.pxTicks := by
    intro px qty hpx
    by_cases hmem : ∀ l ∈ arr, l.pxTicks ≠ px
    · refine Or.inr (hlost px ⟨?_, hmem⟩)
      rw [hpx]
      exact Option.some_ne_none qty
    · exact Or.inl (by simpa using hmem)
  cases hlast : arr.getLast? with
  | none =>
    intro px
    rw [← Option.not_isSome_iff_eq_none, Option.isSome_iff_exists]
    rintro ⟨qty, hpx⟩
    rcases hheld hpx with ⟨l, hl, _⟩ | ⟨l, hl, _⟩
    · rw [List.getLast?_eq_none_iff.mp hlast] at hl
      cases hl
    · rw [hlast] at hl
      cases hl
  | some l =>
    obtain ⟨hmem, hbest⟩ := (getLast?_eq_some_iff_best hs l).mp hlast
    refine ⟨hh l hmem, fun px qty hpx => ?_⟩
    rcases hheld hpx with ⟨l', hl', rfl⟩ | ⟨l', hl', hworse⟩
    · rcases trichotomous_of (isWorse side) l'.pxTicks l.pxTicks with hlt | heq | hgt
      · exact Or.inr hlt
      · exact Or.inl heq
      · exact absurd hgt (hbest l' hl')
    · rw [hlast] at hl'
      exact Or.inr (Option.some.inj hl' ▸ hworse)

/-- With a margin, the last level is better than every lost one. -/
theorem Margin.getLast?_better {side : Side} {m : PriceMap} {arr : List Level} {k : Nat}
    (hm : Margin side m arr (k + 1)) (hs : Sorted side arr) {p : Int64} (hp : Lost side m arr p) :
    ∃ l, arr.getLast? = some l ∧ isWorse side p l.pxTicks := by
  cases hlast : arr.getLast? with
  | none =>
    have hsize := hm.size
    rw [List.getLast?_eq_none_iff.mp hlast] at hsize
    cases hsize
  | some l =>
    obtain ⟨init, rfl⟩ := List.getLast?_eq_some_iff.mp hlast
    exact ⟨l, rfl, isWorse_of_better hs hp.2 (hm.above p hp) (by simp)⟩

/-- **The top of the book is that of the reference**, after any calls on a cleared book
which, since a level of the side was first lost, have deleted fewer than `kMaxLevels` held
levels of it: `BestBid` and `BestAsk` are the best levels of the reference, and empty when
it is empty. -/
theorem top_of_book (b : L2Book) (us : List LevelUpdate) (side : Side)
    (hdeleted : ((Watch.start b.clear).calls us).deleted side < kMaxLevels) :
    IsBest side (PriceMap.empty.applyAll us) ((b.clear.applyAll us).best side) := by
  have ht := tracks_calls us b.valid_clear (tracks_start side b)
  have hs := (valid_calls us b.valid_clear (w := .start b.clear) side).sorted
  have hbook := Watch.book_start_calls b.clear us
  rw [best_eq, ← hbook]
  refine isBest_getLast? hs ht.held fun p hp => ?_
  cases hlossy : ((Watch.start b.clear).calls us).lossy side with
  | false => exact absurd hp (ht.complete hlossy p)
  | true =>
    have hm := ht.margin hlossy
    rw [show kMaxLevels - ((Watch.start b.clear).calls us).deleted side =
      kMaxLevels - ((Watch.start b.clear).calls us).deleted side - 1 + 1 from by omega] at hm
    exact hm.getLast?_better hs hp

/-! ## A price that drifts through the kept levels -/

section Steps
variable {side : Side} {px qty : Int64} {arr arr' lo : List Level} {r : ApplyResult}

/-- A new best level goes on top. -/
theorem levels_insert_best (ha : Applied side px qty arr arr' r) (hq : qty ≠ 0)
    (hroom : arr.length ≠ kMaxLevels) (hall : ∀ a ∈ arr, isWorse side a.pxTicks px) :
    arr' = arr ++ [⟨px, qty⟩] := by
  have habsent : ∀ a ∈ arr, a.pxTicks ≠ px := fun a hmem he =>
    irrefl_of (isWorse side) _ (he ▸ hall a hmem)
  cases ha with
  | delete q hs hzero => exact absurd hzero hq
  | update q hs _ => exact absurd rfl (habsent ⟨px, q⟩ (by simp))
  | noop hs hzero => exact absurd hzero hq
  | drop hs _ hfull => exact absurd hfull hroom
  | evict w hs _ hfull => exact absurd hfull hroom
  | @insert lo hi hs _ _ =>
    cases hi with
    | nil => rw [List.append_nil]
    | cons a hi =>
      exact absurd (trans_of (isWorse side) (hs.above a (by simp)) (hall a (by simp)))
        (irrefl_of (isWorse side) _)

/-- A new worst level is dropped by a full side. -/
theorem levels_drop_worst (ha : Applied side px qty arr arr' r) (hq : qty ≠ 0)
    (hfull : arr.length = kMaxLevels) (hall : ∀ a ∈ arr, isWorse side px a.pxTicks) :
    arr' = arr ∧ r = .kDropped := by
  have habsent : ∀ a ∈ arr, a.pxTicks ≠ px := fun a hmem he =>
    irrefl_of (isWorse side) _ (he ▸ hall a hmem)
  cases ha with
  | delete q hs hzero => exact absurd hzero hq
  | update q hs _ => exact absurd rfl (habsent ⟨px, q⟩ (by simp))
  | noop hs hzero => exact absurd hzero hq
  | drop hs _ _ => exact ⟨rfl, rfl⟩
  | evict w hs _ _ =>
    exact absurd (trans_of (isWorse side) (hs.below w (by simp)) (hall w (by simp)))
      (irrefl_of (isWorse side) _)
  | insert hs _ hroom => exact absurd hfull hroom

/-- Deleting the best level takes it off the top. -/
theorem levels_delete_best {q : Int64} (ha : Applied side px 0 (lo ++ [⟨px, q⟩]) arr' r)
    (hs : Sorted side (lo ++ [⟨px, q⟩])) : arr' = lo := by
  have hbest : ∀ a ∈ lo ++ [⟨px, q⟩], ¬ isWorse side px a.pxTicks :=
    ((getLast?_eq_some_iff_best hs ⟨px, q⟩).mp List.getLast?_concat).2
  generalize harr : lo ++ [⟨px, q⟩] = arr at ha hbest
  cases ha with
  | @delete lo' hi q' hs' _ =>
    cases hi with
    | nil => rw [List.append_nil, (List.append_inj' harr rfl).1]
    | cons a hi => exact absurd (hs'.above a (by simp)) (hbest a (by simp))
  | update _ _ hq => exact absurd rfl hq
  | @noop lo' hi hs' _ =>
    have hmem : (⟨px, q⟩ : Level) ∈ lo' ++ hi := harr ▸ by simp
    exact absurd rfl (hs'.ne_of_mem hmem)
  | drop _ hq _ => exact absurd rfl hq
  | evict _ _ hq _ => exact absurd rfl hq
  | insert _ hq _ => exact absurd rfl hq

end Steps

/-- Bids at 2, 3, 4, ... -/
def rung (i : Nat) : Level := ⟨Int64.ofNat (i + 2), 1⟩

/-- Set `n` bids, each better than the one before. -/
def ladder (n : Nat) : List LevelUpdate :=
  (List.range n).map fun i => ⟨.kBid, (rung i).pxTicks, 1⟩

/-- Delete them again, the best one first. -/
def unwind (n : Nat) : List LevelUpdate :=
  (List.range n).reverse.map fun i => ⟨.kBid, (rung i).pxTicks, 0⟩

theorem rung_lt {i j : Nat} (hij : i < j) (hj : j ≤ kMaxLevels) :
    (rung i).pxTicks < (rung j).pxTicks := by
  unfold kMaxLevels at hj
  exact (Int64.ofNat_lt_iff_lt (by omega) (by omega)).mpr (by omega)

theorem one_lt_rung {i : Nat} (hi : i ≤ kMaxLevels) : 1 < (rung i).pxTicks := by
  unfold kMaxLevels at hi
  exact (Int64.ofNat_lt_iff_lt (a := 1) (by omega) (by omega)).mpr (by omega)

theorem levels_ladder {n : Nat} (hn : n ≤ kMaxLevels) :
    (L2Book.empty.applyAll (ladder n)).Valid ∧
    (L2Book.empty.applyAll (ladder n)).levels .kBid = (List.range n).map rung := by
  induction n with
  | zero => exact ⟨valid_empty, rfl⟩
  | succ n ih =>
    obtain ⟨hvalid, hlevels⟩ := ih (Nat.le_of_succ_le hn)
    have hstep : L2Book.empty.applyAll (ladder (n + 1)) =
        ((L2Book.empty.applyAll (ladder n)).apply .kBid (rung n).pxTicks 1).1 := by
      simp [ladder, List.range_succ, applyAll]
    have ha := hvalid.apply_applied .kBid (rung n).pxTicks 1
    rw [hstep]
    refine ⟨hvalid.apply _ _ _, ?_⟩
    rw [hlevels] at ha
    rw [levels_insert_best ha (by decide), List.range_succ, List.map_append]
    · rfl
    · rw [List.length_map, List.length_range]
      omega
    · intro a hmem
      obtain ⟨i, hi, rfl⟩ := List.mem_map.mp hmem
      exact rung_lt (List.mem_range.mp hi) (Nat.le_of_succ_le hn)

/-- The bids are deleted, the best one first. -/
def deletions (bids : List Level) : List LevelUpdate :=
  bids.reverse.map fun l => ⟨.kBid, l.pxTicks, 0⟩

theorem unwind_eq (n : Nat) : unwind n = deletions ((List.range n).map rung) := by
  rw [unwind, deletions, ← List.map_reverse, List.map_map]
  rfl

/-- Deleting the best bids of a side leaves the others.  If the side had lost a level before,
each of these calls counts. -/
theorem calls_deletions {w : Watch} (hvalid : w.book.Valid) {lo tops : List Level}
    (hlevels : w.book.levels .kBid = lo ++ tops) :
    (w.calls (deletions tops)).book.levels .kBid = lo ∧
    (w.lossy .kBid = true → (w.calls (deletions tops)).lossy .kBid = true ∧
      (w.calls (deletions tops)).deleted .kBid = w.deleted .kBid + tops.length) := by
  induction tops using List.reverseRecOn generalizing w with
  | nil => exact ⟨hlevels.trans (List.append_nil lo), fun hlossy => ⟨hlossy, rfl⟩⟩
  | append_singleton tops l ih =>
    have hstep : w.calls (deletions (tops ++ [l])) =
        (w.call ⟨.kBid, l.pxTicks, 0⟩).calls (deletions tops) := by
      simp [deletions, Watch.calls]
    rw [← List.append_assoc] at hlevels
    have ha := hvalid.apply_applied .kBid l.pxTicks 0
    have hs := (hvalid .kBid).sorted
    rw [hlevels] at ha hs
    have hafter : (w.call ⟨.kBid, l.pxTicks, 0⟩).book.levels .kBid = lo ++ tops :=
      levels_delete_best ha hs
    obtain ⟨hlo, hcount⟩ := ih (w := w.call ⟨.kBid, l.pxTicks, 0⟩) (hvalid.apply _ _ _) hafter
    rw [hstep]
    refine ⟨hlo, fun hlossy => ?_⟩
    have hdeletes : deletes w.book ⟨.kBid, l.pxTicks, 0⟩ = true := by simp [deletes, hlevels]
    obtain ⟨hstill, hdeleted⟩ := hcount (by simp [Watch.call, hlossy])
    refine ⟨hstill, hdeleted.trans ?_⟩
    simp [Watch.call, hlossy, hdeletes]
    omega

/-- Only calls with quantity 0 delete. -/
theorem deleted_calls_le (w : Watch) (us : List LevelUpdate) (side : Side) :
    (w.calls us).deleted side ≤
      w.deleted side + us.countP fun u => decide (u.qtyLots = 0) := by
  induction us generalizing w with
  | nil => exact Nat.le_refl _
  | cons u us ih =>
    refine Nat.le_trans (ih (w.call u)) ?_
    rw [List.countP_cons]
    by_cases hzero : u.qtyLots = 0
    · have hstep : (w.call u).deleted side ≤ w.deleted side + 1 := by
        simp only [Watch.call]
        split <;> omega
      simp only [hzero, decide_true, if_true]
      omega
    · have hsame : (w.call u).deleted side = w.deleted side := by
        simp [Watch.call, deletes, hzero]
      rw [hsame]
      omega

/-- Fill `n` bids, offer one more below them all, then delete the `n`. -/
def drift (n : Nat) : List LevelUpdate := ladder n ++ ⟨.kBid, 1, 1⟩ :: unwind n

/-- The book when the bid at 1 has been offered: it was dropped, and none has been deleted. -/
theorem calls_dropped {n : Nat} (hn : n = kMaxLevels) :
    let w := (Watch.start L2Book.empty.clear).calls (ladder n ++ [⟨.kBid, 1, 1⟩])
    w.book.Valid ∧ w.book.levels .kBid = (List.range n).map rung ∧ w.lossy .kBid = true ∧
      w.deleted .kBid = 0 := by
  intro w
  obtain ⟨hvalid, hlevels⟩ := levels_ladder (Nat.le_of_eq hn)
  have hladder : ((Watch.start L2Book.empty.clear).calls (ladder n)).book =
      L2Book.empty.applyAll (ladder n) := Watch.book_calls ..
  have hw : w = ((Watch.start L2Book.empty.clear).calls (ladder n)).call ⟨.kBid, 1, 1⟩ :=
    List.foldl_append ..
  have ha := hvalid.apply_applied .kBid 1 1
  rw [hlevels] at ha
  have hbelow : ∀ a ∈ (List.range n).map rung, isWorse .kBid 1 a.pxTicks := by
    intro a hmem
    obtain ⟨i, hi, rfl⟩ := List.mem_map.mp hmem
    exact one_lt_rung (hn ▸ Nat.le_of_lt (List.mem_range.mp hi))
  obtain ⟨hkept, hdropped⟩ := levels_drop_worst ha (by decide)
    (by rw [List.length_map, List.length_range, hn]) hbelow
  have hbook : w.book = ((L2Book.empty.applyAll (ladder n)).apply .kBid 1 1).1 := by
    rw [hw, ← hladder]
    rfl
  refine ⟨hbook ▸ hvalid.apply _ _ _, hbook ▸ hkept, ?_, ?_⟩
  · rw [hw]
    simp [Watch.call, loses, hladder, hdropped]
  · have hle := deleted_calls_le (.start L2Book.empty.clear) (ladder n ++ [⟨.kBid, 1, 1⟩]) .kBid
    rw [List.countP_eq_zero.mpr ?_] at hle
    · exact Nat.le_zero.mp hle
    · intro u hu
      have hset : u.qtyLots = 1 := by
        rcases List.mem_append.mp hu with hu | hu
        · obtain ⟨i, _, rfl⟩ := List.mem_map.mp hu
          rfl
        · rw [List.mem_singleton.mp hu]
      rw [hset]
      decide

theorem levels_drift {n : Nat} (hn : n = kMaxLevels) :
    (L2Book.empty.clear.applyAll (drift n)).levels .kBid = [] := by
  obtain ⟨hvalid, hlevels, -, -⟩ := calls_dropped hn
  have hdrift : drift n = (ladder n ++ [⟨.kBid, 1, 1⟩]) ++ unwind n := by simp [drift]
  rw [← Watch.book_start_calls, hdrift, unwind_eq, Watch.calls, List.foldl_append]
  exact (calls_deletions hvalid (hlevels.trans (List.nil_append _).symm)).1

theorem reference_drift {n : Nat} (hn : n ≤ kMaxLevels) :
    PriceMap.empty.applyAll (drift n) (.kBid, 1) = some 1 := by
  rw [drift, PriceMap.applyAll, List.map_append, List.map_cons, replay_append, replay_cons,
    replay_of_untouched]
  · exact Function.update_self ..
  · intro u hu
    obtain ⟨v, hv, rfl⟩ := List.mem_map.mp hu
    obtain ⟨i, hi, rfl⟩ := List.mem_map.mp hv
    have hlt : i < n := List.mem_range.mp (List.mem_reverse.mp hi)
    intro he
    have hone : 1 < (rung i).pxTicks := one_lt_rung (by omega)
    exact Int64.lt_irrefl ((Prod.mk.inj he).2 ▸ hone)

theorem drift_not_best {n : Nat} (hn : n = kMaxLevels) :
    (L2Book.empty.clear.applyAll (drift n)).bestBid = none ∧
    PriceMap.empty.applyAll (drift n) (.kBid, 1) = some 1 ∧
    ¬ IsBest .kBid (PriceMap.empty.applyAll (drift n))
      (L2Book.empty.clear.applyAll (drift n)).bestBid := by
  have hbook : (L2Book.empty.clear.applyAll (drift n)).bestBid = none := by
    rw [← best_kBid, best_eq, levels_drift hn]
    rfl
  have hmap := reference_drift (Nat.le_of_eq hn)
  refine ⟨hbook, hmap, ?_⟩
  rw [hbook]
  intro hbest
  exact absurd (hmap.symm.trans (hbest 1)) (Option.some_ne_none 1)

/-- All but the last of the deletions. -/
theorem drift_dropLast (n : Nat) :
    (drift (n + 1)).dropLast = (ladder (n + 1) ++ [⟨.kBid, 1, 1⟩]) ++
      deletions ((List.range n).map fun i => rung (i + 1)) := by
  have hunwind : unwind (n + 1) =
      deletions ((List.range n).map fun i => rung (i + 1)) ++ [⟨.kBid, (rung 0).pxTicks, 0⟩] := by
    rw [unwind_eq, List.range_succ_eq_map]
    simp [deletions, Function.comp_def]
  rw [drift, hunwind, ← List.cons_append, ← List.append_assoc, List.dropLast_concat]
  simp

theorem drift_before_last {n : Nat} (hn : n = kMaxLevels) :
    let w := (Watch.start L2Book.empty.clear).calls (drift n).dropLast
    w.book.levels .kBid = [rung 0] ∧ w.lossy .kBid = true ∧ w.deleted .kBid + 1 = n := by
  obtain ⟨hvalid, hlevels, hlossy, hnone⟩ := calls_dropped hn
  obtain ⟨k, rfl⟩ : ∃ k, n = k + 1 := ⟨1023, hn⟩
  have hsplit : (List.range (k + 1)).map rung =
      [rung 0] ++ (List.range k).map fun i => rung (i + 1) := by
    rw [List.range_succ_eq_map]
    simp [Function.comp_def]
  obtain ⟨hlo, hcount⟩ := calls_deletions hvalid (hlevels.trans hsplit)
  obtain ⟨hstill, hdeleted⟩ := hcount hlossy
  rw [hnone, List.length_map, List.length_range, Nat.zero_add] at hdeleted
  rw [drift_dropLast, Watch.calls, List.foldl_append]
  exact ⟨hlo, hstill, congrArg (· + 1) hdeleted⟩

/-- One deletion before the top is lost: the bid at 1 is missing, 1023 bids have been deleted
since, and the best bid is the reference's. -/
theorem top_of_book_drift :
    let us := (drift kMaxLevels).dropLast
    let w := (Watch.start L2Book.empty.clear).calls us
    w.lossy .kBid = true ∧ w.deleted .kBid = 1023 ∧
    (L2Book.empty.clear.applyAll us).bestBid = some ⟨2, 1⟩ ∧
    IsBest .kBid (PriceMap.empty.applyAll us) (some ⟨2, 1⟩) := by
  have hbefore := drift_before_last (n := kMaxLevels) rfl
  -- from here on it does not matter which calls these are
  generalize (drift kMaxLevels).dropLast = us at hbefore ⊢
  dsimp only at hbefore ⊢
  obtain ⟨hlevels, hlossy, hdeleted⟩ := hbefore
  have hmax : kMaxLevels = 1024 := rfl
  have htop := top_of_book L2Book.empty us .kBid
    (Nat.lt_of_lt_of_eq (Nat.lt_add_one _) hdeleted)
  rw [Watch.book_start_calls] at hlevels
  rw [best_eq, hlevels] at htop
  refine ⟨hlossy, by omega, ?_, htop⟩
  rw [← best_kBid, best_eq, hlevels]
  rfl

/-- **The top of the book can be lost.**  The bid at 1 was dropped when the side was full;
once the `kMaxLevels` better ones are deleted it is the only bid of the reference, and the
book has none. -/
theorem drift_loses_best :
    (L2Book.empty.clear.applyAll (drift kMaxLevels)).bestBid = none ∧
    PriceMap.empty.applyAll (drift kMaxLevels) (.kBid, 1) = some 1 ∧
    ¬ IsBest .kBid (PriceMap.empty.applyAll (drift kMaxLevels))
      (L2Book.empty.clear.applyAll (drift kMaxLevels)).bestBid := drift_not_best rfl

end BookReference
end Asmm
