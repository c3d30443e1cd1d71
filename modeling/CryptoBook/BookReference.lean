import CryptoBook.AbsoluteUpdates
import CryptoBook.Book

/-! # The bounded book against an unbounded reference

The reference is the map from price to quantity that an unlimited book would hold:
a zero quantity erases, any other assigns (`PriceMap`).  The bounded book loses a
level when an update finds the side full: it then drops the new level or evicts the
worst one (`loses`, `loses_iff`), and a lost level is only seen again if it is updated.

How much of the top can still be trusted is a matter of counting.  When a level is
first lost, all `kMaxLevels` levels kept are better than it.  From then on every lost
level has at least `kMaxLevels - D` kept levels above it, where `D` counts the kept
levels deleted since (`Margin`): an insertion can only raise that number, an eviction
replaces a kept level by a better one, and a deletion lowers it by one.  So the best
`kMaxLevels - D` levels of the book are those of the reference. -/
namespace Asmm
open OrderedSearch AbsoluteUpdates L2Book

/-- Quantities by side and price; an absent level maps to `none`. -/
abbrev PriceMap := Side × Int64 → Option Int64

/-- What an update assigns: quantity 0 removes the level. -/
def L2Book.LevelUpdate.assignment (u : LevelUpdate) : (Side × Int64) × Option Int64 :=
  ((u.side, u.pxTicks), if u.qtyLots = 0 then none else some u.qtyLots)

/-- The map after the updates. -/
def PriceMap.applyAll (m : PriceMap) (us : List LevelUpdate) : PriceMap :=
  replay m (us.map LevelUpdate.assignment)

/-- The map with no level. -/
def PriceMap.empty : PriceMap := fun _ => none

namespace BookReference

/-! ## Losing a level -/

/-- The call drops its level or evicts another: `Apply` reports `kDropped`, or a held
level at some other price is gone afterwards. -/
def loses (b : L2Book) (u : LevelUpdate) : Bool :=
  let r := b.apply u.side u.pxTicks u.qtyLots
  decide (r.2 = .kDropped) ||
    (b.levels u.side).any fun l => decide (l.pxTicks ≠ u.pxTicks ∧ l ∉ r.1.levels u.side)

/-- The call has quantity 0 and its level is there. -/
def deletes (b : L2Book) (u : LevelUpdate) : Bool :=
  decide (u.qtyLots = 0) && (b.levels u.side).any fun l => decide (l.pxTicks = u.pxTicks)

/-- A book watched through a sequence of calls: for each side, whether a call has
lost a level, and how many calls have deleted a held level since the first did. -/
structure Watch where
  book : L2Book
  lossy : Side → Bool
  deleted : Side → Nat

namespace Watch

def start (b : L2Book) : Watch := ⟨b, fun _ => false, fun _ => 0⟩

/-- One call of `Apply`. -/
def call (w : Watch) (u : LevelUpdate) : Watch where
  book := (w.book.apply u.side u.pxTicks u.qtyLots).1
  lossy := fun s => w.lossy s || (decide (s = u.side) && loses w.book u)
  deleted := fun s =>
    if w.lossy s && (decide (s = u.side) && deletes w.book u) then w.deleted s + 1
    else w.deleted s

def calls (w : Watch) (us : List LevelUpdate) : Watch := us.foldl call w

theorem book_calls (w : Watch) (us : List LevelUpdate) :
    (w.calls us).book = w.book.applyAll us := by
  induction us generalizing w with
  | nil => rfl
  | cons u us ih => exact ih (w.call u)

theorem book_start_calls (b : L2Book) (us : List LevelUpdate) :
    ((start b).calls us).book = b.applyAll us := book_calls ..

end Watch

/-! ## The margin -/

/-- `p` is a level of the reference that the side does not hold. -/
def Lost (side : Side) (m : PriceMap) (arr : List Level) (p : Int64) : Prop :=
  m (side, p) ≠ none ∧ ∀ l ∈ arr, l.pxTicks ≠ p

/-- How many held levels are better than `p`. -/
def better (side : Side) (arr : List Level) (p : Int64) : Nat :=
  arr.countP fun l => decide (isWorse side p l.pxTicks)

/-- Every held level is the reference's. -/
def Held (side : Side) (m : PriceMap) (arr : List Level) : Prop :=
  ∀ l ∈ arr, m (side, l.pxTicks) = some l.qtyLots

/-- At least `k` levels are held, and every lost level has `k` held levels above it. -/
structure Margin (side : Side) (m : PriceMap) (arr : List Level) (k : Nat) : Prop where
  size : k ≤ arr.length
  above : ∀ p, Lost side m arr p → k ≤ better side arr p

/-- Nothing is lost. -/
def Complete (side : Side) (m : PriceMap) (arr : List Level) : Prop :=
  ∀ p, ¬ Lost side m arr p

theorem better_append (side : Side) (x y : List Level) (p : Int64) :
    better side (x ++ y) p = better side x p + better side y p := List.countP_append ..

theorem better_cons (side : Side) (a : Level) (l : List Level) (p : Int64) :
    better side (a :: l) p = better side l p + if isWorse side p a.pxTicks then 1 else 0 := by
  simp [better, List.countP_cons]

/-- When everything held is better than `p`, all of it counts. -/
theorem better_eq_length {side : Side} {arr : List Level} {p : Int64}
    (h : ∀ l ∈ arr, isWorse side p l.pxTicks) : better side arr p = arr.length :=
  List.countP_eq_length.mpr fun l hl => decide_eq_true (h l hl)

/-! ## One call -/

section Step
variable {side : Side} {px qty : Int64} {arr arr' : List Level} {r : ApplyResult}
  {m : PriceMap}

/-- The reference after the call. -/
def assigned (m : PriceMap) (side : Side) (px qty : Int64) : PriceMap :=
  Function.update m (side, px) (if qty = 0 then none else some qty)

theorem assigned_self (m : PriceMap) (side : Side) (px : Int64) {qty : Int64} (hq : qty ≠ 0) :
    assigned m side px qty (side, px) = some qty := by
  rw [assigned, Function.update_self, if_neg hq]

theorem assigned_of_ne (m : PriceMap) (side : Side) {px p : Int64} (qty : Int64) (h : p ≠ px) :
    assigned m side px qty (side, p) = m (side, p) :=
  Function.update_of_ne (fun he => h (Prod.mk.inj he).2) ..

/-- **Every held level stays a level of the reference.** -/
theorem Held.step (hh : Held side m arr) (ha : Applied side px qty arr arr' r) :
    Held side (assigned m side px qty) arr' := by
  intro l hl
  rcases ha.mem_after hl with ⟨rfl, hq⟩ | ⟨hold, hne⟩
  · exact assigned_self m side px hq
  · rw [assigned_of_ne m side qty hne]
    exact hh l hold

/-- A level lost after the call was lost before, or the call lost it: the side is then
full, and all it holds is better. -/
theorem lost_after (ha : Applied side px qty arr arr' r) (hsorted : Sorted side arr)
    {p : Int64} (hp : Lost side (assigned m side px qty) arr' p) :
    (p ≠ px ∧ Lost side m arr p) ∨
      (qty ≠ 0 ∧ (∀ l ∈ arr, l.pxTicks ≠ px) ∧ arr.length = kMaxLevels ∧
        arr'.length = kMaxLevels ∧ ∀ l ∈ arr', isWorse side p l.pxTicks) := by
  obtain ⟨hm, hnot⟩ := hp
  by_cases hpx : p = px
  · subst hpx
    cases ha with
    | delete q hs hq => simp [assigned, hq] at hm
    | noop hs hq => simp [assigned, hq] at hm
    | update q hs hq => exact absurd rfl (hnot ⟨p, qty⟩ (by simp))
    | evict w hs hq hfull => exact absurd rfl (hnot ⟨p, qty⟩ (by simp))
    | insert hs hq hroom => exact absurd rfl (hnot ⟨p, qty⟩ (by simp))
    | drop hs hq hfull => exact Or.inr ⟨hq, hnot, hfull, hfull, hs.above⟩
  · rw [assigned_of_ne m side qty hpx] at hm
    have old (h : ∀ l ∈ arr, l.pxTicks ≠ px → l ∈ arr') : p ≠ px ∧ Lost side m arr p :=
      ⟨hpx, hm, fun l hl he => hnot l (h l hl (he ▸ hpx)) he⟩
    cases ha with
    | delete q hs hq => exact Or.inl (old fun l hl hne => by grind)
    | noop hs hq => exact Or.inl (old fun l hl _ => hl)
    | update q hs hq => exact Or.inl (old fun l hl hne => by grind)
    | insert hs hq hroom => exact Or.inl (old fun l hl hne => by grind)
    | drop hs hq hfull => exact Or.inl (old fun l hl _ => hl)
    | @evict lo hi w hs hq hfull =>
      by_cases hw : p = w.pxTicks
      · -- the evicted level was the worst, and the new price is better than it
        subst hw
        obtain ⟨hwlo, _, hcross⟩ := ordered_append.mp hsorted
        obtain ⟨hwmin, _⟩ := ordered_cons.mp hwlo
        refine Or.inr ⟨hq, fun l hl => hs.ne_of_mem hl, hfull, ?_, ?_⟩
        · simp only [List.length_append, List.length_cons] at hfull ⊢
          omega
        · intro l hl
          rcases List.mem_append.mp hl with hl | hl
          · exact hwmin l hl
          · rcases List.mem_cons.mp hl with rfl | hl
            · exact hs.below w (List.mem_cons_self ..)
            · exact hcross w (List.mem_cons_self ..) l hl
      · refine Or.inl ⟨hpx, hm, fun l hl he => ?_⟩
        rcases List.mem_append.mp hl with hl | hl
        · rcases List.mem_cons.mp hl with rfl | hl
          · exact hw he.symm
          · exact hnot l (List.mem_append_left _ hl) he
        · exact hnot l (List.mem_append_right _ (List.mem_cons_of_mem _ hl)) he

/-- Only a deletion lowers the number of held levels above a price, and by one. -/
theorem better_after (ha : Applied side px qty arr arr' r) (p : Int64) :
    better side arr p ≤ better side arr' p + 1 ∧
      (¬ (qty = 0 ∧ ∃ l ∈ arr, l.pxTicks = px) → better side arr p ≤ better side arr' p) := by
  cases ha with
  | delete q hs hq =>
    refine ⟨?_, fun h => absurd ⟨hq, ⟨px, q⟩, by simp, rfl⟩ h⟩
    simp only [better_append, better_cons]
    split <;> omega
  | update q hs hq =>
    simp only [better_append, better_cons]
    omega
  | noop hs hq => omega
  | drop hs hq hfull => omega
  | @evict lo hi w hs hq hfull =>
    have hw : isWorse side p w.pxTicks → isWorse side p px := fun h =>
      trans_of (isWorse side) h (hs.below w (List.mem_cons_self ..))
    simp only [better_append, better_cons]
    split <;> split <;> grind
  | insert hs hq hroom =>
    simp only [better_append, better_cons]
    omega

/-- Only a deletion shortens a side, and by one. -/
theorem length_after (ha : Applied side px qty arr arr' r) :
    arr.length ≤ arr'.length + 1 ∧
      (¬ (qty = 0 ∧ ∃ l ∈ arr, l.pxTicks = px) → arr.length ≤ arr'.length) := by
  have longer (h : arr.length ≤ arr'.length) : arr.length ≤ arr'.length + 1 ∧
      (¬ (qty = 0 ∧ ∃ l ∈ arr, l.pxTicks = px) → arr.length ≤ arr'.length) :=
    ⟨Nat.le_succ_of_le h, fun _ => h⟩
  cases ha with
  | delete q hs hq =>
    refine ⟨?_, fun h => absurd ⟨hq, ⟨px, q⟩, by simp, rfl⟩ h⟩
    simp only [List.length_append, List.length_cons]
    omega
  | update q hs hq => exact longer (by simp only [List.length_append, List.length_cons]; omega)
  | noop hs hq => exact longer (Nat.le_refl _)
  | drop hs hq hfull => exact longer (Nat.le_refl _)
  | evict w hs hq hfull =>
    exact longer (by simp only [List.length_append, List.length_cons]; omega)
  | insert hs hq hroom =>
    exact longer (by simp only [List.length_append, List.length_cons]; omega)

/-- Deleting a held level costs one level of margin. -/
theorem Margin.delete {k : Nat} (hm : Margin side m arr (k + 1))
    (ha : Applied side px qty arr arr' r) (hsorted : Sorted side arr) (hq : qty = 0) :
    Margin side (assigned m side px qty) arr' k := by
  refine ⟨?_, fun p hp => ?_⟩
  · have := hm.size
    have := (length_after ha).1
    omega
  · rcases lost_after ha hsorted hp with ⟨_, hold⟩ | ⟨hne, _⟩
    · have := hm.above p hold
      have := (better_after ha p).1
      omega
    · exact absurd hq hne

/-- Any other call keeps the margin. -/
theorem Margin.keep {k : Nat} (hm : Margin side m arr k) (hk : k ≤ kMaxLevels)
    (ha : Applied side px qty arr arr' r) (hsorted : Sorted side arr)
    (hdel : ¬ (qty = 0 ∧ ∃ l ∈ arr, l.pxTicks = px)) :
    Margin side (assigned m side px qty) arr' k := by
  refine ⟨Nat.le_trans hm.size ((length_after ha).2 hdel), fun p hp => ?_⟩
  rcases lost_after ha hsorted hp with ⟨_, hold⟩ | ⟨_, _, _, hlen, hall⟩
  · exact Nat.le_trans (hm.above p hold) ((better_after ha p).2 hdel)
  · rw [better_eq_length hall, hlen]
    exact hk

/-- Nothing is lost by a call that does not lose a level. -/
theorem Complete.keep (hc : Complete side m arr) (ha : Applied side px qty arr arr' r)
    (hsorted : Sorted side arr)
    (hno : ¬ (qty ≠ 0 ∧ (∀ l ∈ arr, l.pxTicks ≠ px) ∧ arr.length = kMaxLevels)) :
    Complete side (assigned m side px qty) arr' := by
  intro p hp
  rcases lost_after ha hsorted hp with ⟨_, hold⟩ | ⟨hq, habs, hlen, _⟩
  · exact hc p hold
  · exact hno ⟨hq, habs, hlen⟩

/-- **The first loss leaves a full margin**: all that is kept is better than it. -/
theorem Complete.lose (hc : Complete side m arr) (ha : Applied side px qty arr arr' r)
    (hsorted : Sorted side arr) (hfull : arr.length = kMaxLevels) (hq : qty ≠ 0) :
    Margin side (assigned m side px qty) arr' kMaxLevels := by
  refine ⟨?_, fun p hp => ?_⟩
  · rw [← hfull]
    exact (length_after ha).2 fun h => hq h.1
  · rcases lost_after ha hsorted hp with ⟨_, hold⟩ | ⟨_, _, _, hlen, hall⟩
    · exact absurd hold (hc p)
    · exact Nat.le_of_eq (hlen.symm.trans (better_eq_length hall).symm)

end Step

/-! ## Whole runs -/

/-- What a watched side guarantees. -/
structure Tracks (side : Side) (w : Watch) (m : PriceMap) : Prop where
  held : Held side m (w.book.levels side)
  complete : w.lossy side = false → Complete side m (w.book.levels side)
  margin : w.lossy side = true →
    Margin side m (w.book.levels side) (kMaxLevels - w.deleted side)

/-- A side that lost nothing is the reference exactly. -/
theorem Tracks.exact {side : Side} {w : Watch} {m : PriceMap} (ht : Tracks side w m)
    (h0 : w.lossy side = false) (px qty : Int64) :
    m (side, px) = some qty ↔ ⟨px, qty⟩ ∈ w.book.levels side := by
  constructor
  · intro hpx
    have hnot := ht.complete h0 px
    obtain ⟨l, hl, rfl⟩ : ∃ l ∈ w.book.levels side, l.pxTicks = px := by
      simpa [Lost, hpx] using hnot
    have hq : l.qtyLots = qty := Option.some.inj ((ht.held l hl).symm.trans hpx)
    exact hq ▸ hl
  · exact fun hl => ht.held _ hl

/-- An outcome that drops or evicts is one that finds the side full and the price absent. -/
theorem applied_loses_iff {side : Side} {px qty : Int64} {arr arr' : List Level} {r : ApplyResult}
    (ha : Applied side px qty arr arr' r) (hsorted : Sorted side arr) :
    (r = .kDropped ∨ ∃ l ∈ arr, l.pxTicks ≠ px ∧ l ∉ arr') ↔
      qty ≠ 0 ∧ (∀ l ∈ arr, l.pxTicks ≠ px) ∧ arr.length = kMaxLevels := by
  have neither (hr : r ≠ .kDropped) (hkeep : ∀ l ∈ arr, l.pxTicks ≠ px → l ∈ arr')
      (hno : ¬ (qty ≠ 0 ∧ (∀ l ∈ arr, l.pxTicks ≠ px) ∧ arr.length = kMaxLevels)) :
      (r = .kDropped ∨ ∃ l ∈ arr, l.pxTicks ≠ px ∧ l ∉ arr') ↔
        qty ≠ 0 ∧ (∀ l ∈ arr, l.pxTicks ≠ px) ∧ arr.length = kMaxLevels := by
    refine ⟨fun h => ?_, fun h => absurd h hno⟩
    rcases h with h | ⟨l, hl, hne, hgone⟩
    · exact absurd h hr
    · exact absurd (hkeep l hl hne) hgone
  cases ha with
  | delete q hs hq =>
    exact neither (by decide) (fun l hl hne => by grind) fun h => h.1 hq
  | noop hs hq => exact neither (by decide) (fun l hl _ => hl) fun h => h.1 hq
  | update q hs hq =>
    exact neither (by decide) (fun l hl hne => by grind)
      fun h => h.2.1 ⟨px, q⟩ (by simp) rfl
  | insert hs hq hroom =>
    exact neither (by decide) (fun l hl hne => by grind) fun h => hroom h.2.2
  | drop hs hq hfull =>
    exact ⟨fun _ => ⟨hq, fun l hl => hs.ne_of_mem hl, hfull⟩, fun _ => Or.inl rfl⟩
  | @evict lo hi w hs hq hfull =>
    refine ⟨fun _ => ⟨hq, fun l hl => hs.ne_of_mem hl, hfull⟩, fun _ => Or.inr ⟨w, by simp,
      hs.ne_of_mem (by simp), fun hw => ?_⟩⟩
    -- `w` is strictly worse than everything that stays
    obtain ⟨hwlo, _, hcross⟩ := ordered_append.mp hsorted
    rcases List.mem_append.mp hw with hl | hl
    · exact irrefl_of (isWorse side) _ ((ordered_cons.mp hwlo).1 w hl)
    · rcases List.mem_cons.mp hl with he | hl
      · exact hs.ne_of_mem (l := w) (by simp) (by rw [he])
      · exact irrefl_of (isWorse side) _ (hcross w (List.mem_cons_self ..) w hl)

theorem loses_iff {b : L2Book} (hb : b.Valid) (u : LevelUpdate) :
    loses b u = true ↔ u.qtyLots ≠ 0 ∧ (∀ l ∈ b.levels u.side, l.pxTicks ≠ u.pxTicks) ∧
      (b.levels u.side).length = kMaxLevels := by
  rw [← applied_loses_iff (hb.apply_applied u.side u.pxTicks u.qtyLots) (hb u.side).sorted]
  simp [loses]

theorem deletes_iff (b : L2Book) (u : LevelUpdate) :
    deletes b u = true ↔ u.qtyLots = 0 ∧ ∃ l ∈ b.levels u.side, l.pxTicks = u.pxTicks := by
  simp [deletes]

/-- A call on the other side changes nothing. -/
theorem Tracks.call_other {side : Side} {w : Watch} {m : PriceMap} (ht : Tracks side w m)
    {u : LevelUpdate} (h : side ≠ u.side) :
    Tracks side (w.call u) (assigned m u.side u.pxTicks u.qtyLots) := by
  have hlv : (w.call u).book.levels side = w.book.levels side :=
    w.book.levels_apply_other h u.pxTicks u.qtyLots
  have hm : ∀ p, assigned m u.side u.pxTicks u.qtyLots (side, p) = m (side, p) := fun p =>
    Function.update_of_ne (fun he => h (Prod.mk.inj he).1) ..
  have hlost : ∀ arr p, Lost side (assigned m u.side u.pxTicks u.qtyLots) arr p ↔
      Lost side m arr p := fun arr p => by rw [Lost, Lost, hm]
  have hl : (w.call u).lossy side = w.lossy side := by simp [Watch.call, h]
  have hd : (w.call u).deleted side = w.deleted side := by simp [Watch.call, h]
  refine ⟨?_, ?_, ?_⟩
  · intro l hl
    rw [hm]
    exact ht.held l (hlv ▸ hl)
  · intro h0 p hp
    rw [hlv, hlost] at hp
    exact ht.complete (hl ▸ h0) p hp
  · intro h1
    have hmg := ht.margin (hl ▸ h1)
    rw [hlv, hd]
    exact ⟨hmg.size, fun p hp => hmg.above p ((hlost _ p).mp hp)⟩

/-- A call on the watched side. -/
theorem Tracks.call_same {w : Watch} {m : PriceMap} {u : LevelUpdate} (hb : w.book.Valid)
    (ht : Tracks u.side w m) :
    Tracks u.side (w.call u) (assigned m u.side u.pxTicks u.qtyLots) := by
  have ha := hb.apply_applied u.side u.pxTicks u.qtyLots
  have hsorted := (hb u.side).sorted
  refine ⟨ht.held.step ha, ?_, ?_⟩
  · intro h0
    simp only [Watch.call, decide_true, Bool.true_and, Bool.or_eq_false_iff] at h0
    refine (ht.complete h0.1).keep ha hsorted fun hlose => ?_
    rw [(loses_iff hb u).mpr hlose] at h0
    exact absurd h0.2 (by simp)
  · intro h1
    by_cases hold : w.lossy u.side = true
    · by_cases hdel : deletes w.book u = true
      · have hmg := ht.margin hold
        have hd : (w.call u).deleted u.side = w.deleted u.side + 1 := by
          simp [Watch.call, hold, hdel]
        rw [hd]
        by_cases hpos : w.deleted u.side < kMaxLevels
        · rw [show kMaxLevels - w.deleted u.side = kMaxLevels - (w.deleted u.side + 1) + 1 from by
            omega] at hmg
          exact hmg.delete ha hsorted ((deletes_iff w.book u).mp hdel).1
        · -- the margin is already used up
          rw [show kMaxLevels - (w.deleted u.side + 1) = 0 from by omega]
          exact ⟨Nat.zero_le _, fun _ _ => Nat.zero_le _⟩
      · have hd : (w.call u).deleted u.side = w.deleted u.side := by
          simp [Watch.call, hdel]
        rw [hd]
        exact (ht.margin hold).keep (Nat.sub_le _ _) ha hsorted
          fun h => hdel ((deletes_iff w.book u).mpr h)
    · have hold : w.lossy u.side = false := by simpa using hold
      simp only [Watch.call, hold, decide_true, Bool.true_and, Bool.false_or] at h1
      obtain ⟨hq, _, hfull⟩ := (loses_iff hb u).mp h1
      have hmg := (ht.complete hold).lose ha hsorted hfull hq
      have hd : (w.call u).deleted u.side = w.deleted u.side := by simp [Watch.call, hold]
      rw [hd]
      exact ⟨Nat.le_trans (Nat.sub_le _ _) hmg.size,
        fun p hp => Nat.le_trans (Nat.sub_le _ _) (hmg.above p hp)⟩

theorem Tracks.call {side : Side} {w : Watch} {m : PriceMap} (hb : w.book.Valid)
    (ht : Tracks side w m) (u : LevelUpdate) :
    Tracks side (w.call u) (m.applyAll [u]) := by
  by_cases h : side = u.side
  · subst h
    exact ht.call_same hb
  · exact ht.call_other h

theorem tracks_calls {side : Side} (us : List LevelUpdate) :
    ∀ {w : Watch} {m : PriceMap}, w.book.Valid → Tracks side w m →
      Tracks side (w.calls us) (m.applyAll us) := by
  induction us with
  | nil => exact fun _ ht => ht
  | cons u us ih => exact fun hb ht => ih (hb.apply u.side u.pxTicks u.qtyLots) (ht.call hb u)

theorem valid_calls (us : List LevelUpdate) :
    ∀ {w : Watch}, w.book.Valid → (w.calls us).book.Valid := by
  induction us with
  | nil => exact fun hb => hb
  | cons u us ih => exact fun hb => ih (hb.apply u.side u.pxTicks u.qtyLots)

/-- A cleared book tracks the empty map, with nothing lost. -/
theorem tracks_start (side : Side) (b : L2Book) :
    Tracks side (Watch.start b.clear) PriceMap.empty := by
  refine ⟨?_, fun _ p hp => hp.1 rfl, fun h => by cases h⟩
  intro l hl
  rw [Watch.start, levels_clear] at hl
  cases hl

/-- `top` lists the best levels of `m` on a side, best first: they are levels of `m`, and
any other level of `m` is worse than all of them. -/
structure IsTop (side : Side) (m : PriceMap) (top : List Level) : Prop where
  ranked : top.Pairwise (fun x y => isWorse side y.pxTicks x.pxTicks)
  levels : ∀ l ∈ top, m (side, l.pxTicks) = some l.qtyLots
  best : ∀ px qty, m (side, px) = some qty →
    ⟨px, qty⟩ ∈ top ∨ ∀ l ∈ top, isWorse side px l.pxTicks

/-- A price with `k` held levels above it is worse than each of the best `k`. -/
theorem isWorse_of_better {side : Side} {arr : List Level} (hs : Sorted side arr) {p : Int64}
    (hp : ∀ l ∈ arr, l.pxTicks ≠ p) {k : Nat} (hk : k ≤ better side arr p) {l : Level}
    (hl : l ∈ arr.reverse.take k) : isWorse side p l.pxTicks := by
  obtain ⟨lo, hi, har, _, ⟨q, rfl⟩ | rfl⟩ := lowerBound_split hs p
  · exact absurd rfl (hp ⟨p, q⟩ (by simp))
  · have hlo : better side lo p = 0 := by
      refine List.countP_eq_zero.mpr fun a ha hw => ?_
      exact irrefl_of (isWorse side) _
        (trans_of (isWorse side) (har.below a ha) (of_decide_eq_true hw))
    rw [better_append, hlo, Nat.zero_add, better_eq_length har.above] at hk
    rw [List.reverse_append, List.take_append_of_le_length (by simpa using hk)] at hl
    exact har.above l (List.mem_reverse.mp (List.mem_of_mem_take hl))

/-- **The margin is trustworthy**: with `k` levels of margin, the best `k` levels of the
side are the best `k` of the reference. -/
theorem Margin.isTop {side : Side} {m : PriceMap} {arr : List Level} {k : Nat}
    (hm : Margin side m arr k) (hh : Held side m arr) (hs : Sorted side arr) :
    IsTop side m (arr.reverse.take k) := by
  refine ⟨(List.pairwise_reverse.mpr hs).sublist (List.take_sublist ..), ?_, ?_⟩
  · exact fun l hl => hh l (List.mem_reverse.mp (List.mem_of_mem_take hl))
  · intro px qty hpx
    by_cases hmem : ∀ l ∈ arr, l.pxTicks ≠ px
    · refine Or.inr fun l hl => isWorse_of_better hs hmem (hm.above px ⟨?_, hmem⟩) hl
      rw [hpx]
      exact Option.some_ne_none qty
    · obtain ⟨l, hl, rfl⟩ : ∃ l ∈ arr, l.pxTicks = px := by simpa using hmem
      have hq : l.qtyLots = qty := Option.some.inj ((hh l hl).symm.trans hpx)
      subst hq
      -- a held level is among the best `k`, or comes after them
      have hrev := List.pairwise_reverse.mpr hs
      rw [← List.take_append_drop k arr.reverse] at hrev
      obtain ⟨_, _, hcross⟩ := List.pairwise_append.mp hrev
      have hl' : l ∈ arr.reverse.take k ++ arr.reverse.drop k := by
        rw [List.take_append_drop]
        exact List.mem_reverse.mpr hl
      rcases List.mem_append.mp hl' with h | h
      · exact Or.inl h
      · exact Or.inr fun a ha => hcross a ha l h

/-- **The bounded book against the unbounded one.**  After any calls on a cleared (or
fresh) book, on each side: every level held is the reference's; if no call has lost a
level the side is the reference exactly; and otherwise, with `D` held levels deleted
since the first loss and `D < kMaxLevels`, at least `kMaxLevels - D` levels are held and
the best `kMaxLevels - D` of them are the best of the reference. -/
theorem bounded_book_tracks_reference (b : L2Book) (us : List LevelUpdate) (side : Side) :
    let w := (Watch.start b.clear).calls us
    let m := PriceMap.empty.applyAll us
    let k := kMaxLevels - w.deleted side
    (∀ l ∈ w.book.levels side, m (side, l.pxTicks) = some l.qtyLots) ∧
    (w.lossy side = false →
      ∀ px qty, m (side, px) = some qty ↔ ⟨px, qty⟩ ∈ w.book.levels side) ∧
    (w.lossy side = true → w.deleted side < kMaxLevels →
      k ≤ (w.book.levels side).length ∧
      ∃ top, top.length = k ∧ IsTop side m top ∧
        ∀ n, n < k → w.book.depthAt side n = top[n]?) := by
  intro w m k
  have ht : Tracks side w m := tracks_calls us b.valid_clear (tracks_start side b)
  have hv : w.book.Valid := valid_calls us b.valid_clear
  refine ⟨ht.held, ht.exact, fun h1 _ => ?_⟩
  have hm := ht.margin h1
  refine ⟨hm.size, (w.book.levels side).reverse.take k, ?_, hm.isTop ht.held (hv side).sorted, ?_⟩
  · rw [List.length_take, List.length_reverse]
    exact Nat.min_eq_left hm.size
  · intro n hn
    rw [depthAt_eq, List.getElem?_take_of_lt hn]

end BookReference
end Asmm
