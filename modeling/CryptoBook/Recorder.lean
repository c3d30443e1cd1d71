import Mathlib.Data.Int.Log
import Mathlib.Data.List.AList
import Mathlib.Data.List.Chain
import Mathlib.Data.Rat.Floor
import CryptoBook.DecimalCodec
import CryptoBook.TopOfBook

/-! # The recorder and the test that replays its fixture

`analysis/record_depth.py` records frames and a snapshot, and writes them once its own replay of
the frames has the snapshot's best levels.  `tests/test_book_replay.cpp` replays the same files
through the book.  The script says that a fixture it has written passes the test.

Both stop at the same frame (`cut`).  The script reads numbers with `Decimal`, in 28 digits, and
keeps them in a dict; the test reads them with `DecimalToScaled` and keeps them in the bounded
book.  As long as the book has not lost its top, the two have the same best levels.  The test asks
for one thing more, that the frames are in sequence, which the script does not look at
(`fixture_passes_iff`); so it can write a fixture that fails.

JSON is left to the parser: a line is read back as the document of its frame. -/
namespace Asmm
open Numerals

namespace Recorder

/-! ## Numbers of the script -/

/-- The nearest integer, and the even one of two. -/
def roundHalfEven (x : ℚ) : Int :=
  if x - ⌊x⌋ < 1 / 2 then ⌊x⌋
  else if 1 / 2 < x - ⌊x⌋ then ⌊x⌋ + 1
  else if ⌊x⌋ % 2 = 0 then ⌊x⌋
  else ⌊x⌋ + 1

/-- What `decimal` makes of an exact result: 28 significant digits. -/
def toContext (x : ℚ) : ℚ :=
  if x = 0 then 0
  else
    let unit := (10 : ℚ) ^ (Int.log 10 |x| - 27)
    roundHalfEven (x / unit) * unit

/-- `to_scaled`; `decimal` is `Decimal(s)`, and `none` if that raises or is not a number. -/
def toScaled (decimal : String → Option ℚ) (s : String) (scale : Nat) : Option Int :=
  (decimal s).map fun d => roundHalfEven (toContext (d * 10 ^ scale))

theorem roundHalfEven_intCast (z : Int) : roundHalfEven z = z := by
  rw [roundHalfEven, Int.floor_intCast, sub_self, if_pos (by norm_num)]

theorem toContext_intCast {z : Int} (hz : z.natAbs < 10 ^ 28) : toContext z = z := by
  by_cases h0 : z = 0
  · rw [h0, Int.cast_zero, toContext, if_pos rfl]
  have hlog : Nat.log 10 z.natAbs < 28 := Nat.log_lt_of_lt_pow (Int.natAbs_ne_zero.mpr h0) hz
  obtain ⟨k, hk⟩ : ∃ k : Nat, Int.log 10 |(z : ℚ)| - 27 = -k := by
    rw [← Int.cast_abs, ← Int.natCast_natAbs, Int.cast_natCast, Int.log_natCast]
    exact ⟨27 - Nat.log 10 z.natAbs, by omega⟩
  have hpow : (10 : ℚ) ^ k ≠ 0 := pow_ne_zero _ (by norm_num)
  have hscaled : (z : ℚ) / 10 ^ (-(k : Int)) = ((z * 10 ^ k : Int) : ℚ) := by
    rw [zpow_neg, zpow_natCast, div_inv_eq_mul]
    push_cast
    rfl
  rw [toContext, if_neg (Int.cast_ne_zero.mpr h0), hk]
  dsimp only
  rw [hscaled, roundHalfEven_intCast, zpow_neg, zpow_natCast]
  push_cast
  rw [mul_inv_cancel_right₀ hpow]

/-- What `DecimalToScaled` accepts `to_scaled` reads in the same way. -/
theorem toScaled_of_decimalToScaled {decimal : String → Option ℚ}
    (hdecimal : ∀ n : Numeral, decimal (String.ofList n.spell) = some n.value) {s : String}
    {scale : Nat} {v : Int64} (hread : decimalToScaled s.toList scale = some v) :
    toScaled decimal s scale = some v.toInt := by
  obtain ⟨n, hspell⟩ := exists_spell_of_decimalToScaled hread
  rw [← hspell] at hread
  obtain ⟨-, hvalue⟩ := decimalToScaled_spell_eq_some.mp hread
  have hs : decimal s = some n.value := by
    rw [← hdecimal n, hspell, String.ofList_toList]
  have hsmall : v.toInt.natAbs < 10 ^ 28 := by
    have hlow := v.le_toInt
    have hhigh := v.toInt_lt
    omega
  rw [toScaled, hs, Option.map_some, ← hvalue, toContext_intCast hsmall, roundHalfEven_intCast]

/-! ## The files -/

/-- A depth frame, as far as it is read. -/
structure RecordedFrame where
  eventMs : Int
  firstId : UInt64
  finalId : UInt64
  bids : List (String × String)
  asks : List (String × String)

/-- The answer of `/api/v3/depth`. -/
structure RecordedSnapshot where
  lastUpdateId : UInt64
  bids : List (String × String)
  asks : List (String × String)

/-- `[["px","qty"], ...]`. -/
def levelsDoc (levels : List (String × String)) : Dom :=
  .array (levels.map fun l => .array [.string l.1, .string l.2])

def RecordedFrame.doc (fr : RecordedFrame) : Dom :=
  .object [("e", .string "depthUpdate"), ("E", .int fr.eventMs), ("s", .string "BTCUSDT"),
    ("U", .int fr.firstId.toNat), ("u", .int fr.finalId.toNat), ("b", levelsDoc fr.bids),
    ("a", levelsDoc fr.asks)]

def RecordedSnapshot.doc (snap : RecordedSnapshot) : Dom :=
  .object [("lastUpdateId", .int snap.lastUpdateId.toNat), ("bids", levelsDoc snap.bids),
    ("asks", levelsDoc snap.asks)]

/-! ## The script -/

/-- `dict[int, int]`. -/
abbrev PyDict := AList fun _ : Int => Int

section Script
variable (decimal : String → Option ℚ) (pxScale qtyScale : Nat)

/-- The levels of one side as integers. -/
def readPairs : List (String × String) → Option (List (Int × Int))
  | [] => some []
  | (pxS, qtyS) :: rest => do
      let px ← toScaled decimal pxS pxScale
      let qty ← toScaled decimal qtyS qtyScale
      let levels ← readPairs rest
      return (px, qty) :: levels

/-- `if qty == 0: d.pop(px, None) else: d[px] = qty`, for each level. -/
def applyLevels (d : PyDict) (levels : List (Int × Int)) : PyDict :=
  levels.foldl (fun d l => if l.2 = 0 then d.erase l.1 else d.insert l.1 l.2) d

/-- The two loops over a frame's levels. -/
def applyFrame (fr : RecordedFrame) (books : PyDict × PyDict) : Option (PyDict × PyDict) := do
  let bids ← readPairs decimal pxScale qtyScale fr.bids
  let asks ← readPairs decimal pxScale qtyScale fr.asks
  return (applyLevels books.1 bids, applyLevels books.2 asks)

/-- The loop over the frames. -/
def replayFrames (snapId : Nat) :
    List RecordedFrame → PyDict × PyDict → Option (PyDict × PyDict)
  | [], books => some books
  | fr :: rest, books =>
      if fr.finalId.toNat ≤ snapId then do
        replayFrames snapId rest (← applyFrame decimal pxScale qtyScale fr books)
      else if fr.firstId.toNat ≤ snapId + 1 ∧ snapId + 1 ≤ fr.finalId.toNat then
        applyFrame decimal pxScale qtyScale fr books
      else some books

/-- `max(bids)` or `min(asks)`. -/
def bestKey (d : PyDict) : Side → Option Int
  | .kBid => d.keys.max?
  | .kAsk => d.keys.min?

/-- `(bb, bids[bb])` or `(ba, asks[ba])`; none if the dict is empty. -/
def topOf (d : PyDict) (side : Side) : Option (Int × Int) :=
  (bestKey d side).bind fun k => (d.lookup k).map (k, ·)

/-- The best levels, if there are both. -/
def topsOf (bids asks : PyDict) : Option ((Int × Int) × (Int × Int)) := do
  let bb ← topOf bids .kBid
  let ba ← topOf asks .kAsk
  return (bb, ba)

/-- `reconstruct_top`: the inner `none` is returned, the outer one is an exception. -/
def reconstructTop (frames : List RecordedFrame) (snapId : Nat) :
    Option (Option ((Int × Int) × (Int × Int))) :=
  (replayFrames decimal pxScale qtyScale snapId frames (∅, ∅)).map fun books =>
    topsOf books.1 books.2

/-- `{to_scaled(p, ...): to_scaled(q, ...) for p, q in ...}`. -/
def dictOf (levels : List (Int × Int)) : PyDict := levels.foldl (fun d l => d.insert l.1 l.2) ∅

/-- `snapshot_top`; `max` and `min` raise on an empty dict. -/
def snapshotTop (snap : RecordedSnapshot) : Option ((Int × Int) × (Int × Int)) := do
  let bids ← readPairs decimal pxScale qtyScale snap.bids
  let asks ← readPairs decimal pxScale qtyScale snap.asks
  topsOf (dictOf bids) (dictOf asks)

/-- The test before the files are written. -/
def accepts (frames : List RecordedFrame) (snap : RecordedSnapshot) : Option Bool := do
  let recon ← reconstructTop decimal pxScale qtyScale frames snap.lastUpdateId.toNat
  let top ← snapshotTop decimal pxScale qtyScale snap
  return recon == some top

end Script

/-! ## The test -/

/-- The variables of the replay loop. -/
structure Replay where
  book : L2Book
  prevFinal : UInt64
  first : Bool
  linesApplied : Nat

def Replay.start : Replay := ⟨L2Book.empty, 0, true, 0⟩

section Test
variable (parser : String → Option Dom) (filters : SymbolFilters)

/-- The replay loop; `none` if a `REQUIRE` fails. -/
def replayLines (snapId : UInt64) : List String → Replay → Option Replay
  | [], r => some r
  | line :: rest, r =>
      if line = "" then replayLines snapId rest r
      else
        match parseDepthDiff parser line filters 0 with
        | none | some [] => none
        | some (ev :: evs) =>
            let U := ev.firstUpdateId
            let u := ev.finalUpdateId
            if u ≤ snapId ∨ U ≤ snapId + 1 ∧ snapId + 1 ≤ u then
              if r.first = false ∧ U ≠ r.prevFinal + 1 then none
              else
                let r : Replay := ⟨(ev :: evs).foldl L2Book.applyEvent r.book, u, false,
                  r.linesApplied + 1⟩
                if u > snapId then some r else replayLines snapId rest r
            else some r

/-- `BestOf`. -/
def bestOf (side : Side) : List DepthLevel → Option DepthLevel
  | [] => none
  | front :: rest => some ((front :: rest).foldl (fun best l =>
      if isWorse side best.pxTicks l.pxTicks then l else best) front)

/-- The best level of the book is there and is this one. -/
def showsBest (book : L2Book) (side : Side) (best : DepthLevel) : Bool :=
  book.best side == some ⟨best.pxTicks, best.qtyLots⟩

/-- The test case, with the files in place. -/
def replayTest (lines : List String) (snapText : String) (snapId : UInt64) : Bool :=
  match parseDepthSnapshot parser snapText filters with
  | none => false
  | some snap =>
      match bestOf .kBid snap.bids, bestOf .kAsk snap.asks,
        replayLines parser filters snapId lines .start with
      | some snapBb, some snapBa, some r =>
          decide (r.linesApplied > 0) && showsBest r.book .kBid snapBb &&
            showsBest r.book .kAsk snapBa
      | _, _, _ => false

end Test

/-! ## Dicts -/

/-- The entries of a dict are these levels. -/
def Holds (d : PyDict) (P : Int64 → Int64 → Prop) : Prop :=
  ∀ k v, d.lookup k = some v ↔ ∃ px qty : Int64, px.toInt = k ∧ qty.toInt = v ∧ P px qty

/-- A level as the script has it. -/
def ints (l : DepthLevel) : Int × Int := (l.pxTicks.toInt, l.qtyLots.toInt)

section Dicts
variable {d : PyDict} {P : Int64 → Int64 → Prop} {side : Side}

theorem Holds.congr {P' : Int64 → Int64 → Prop} (h : Holds d P)
    (hP : ∀ px qty, P px qty ↔ P' px qty) : Holds d P' := by
  intro k v
  rw [h k v]
  simp only [hP]

theorem holds_empty : Holds ∅ fun _ _ => False := by
  intro k v
  simp

/-- One assignment. -/
theorem Holds.insert (h : Holds d P) (px qty : Int64) :
    Holds (d.insert px.toInt qty.toInt) fun px' qty' =>
      if px' = px then qty' = qty else P px' qty' := by
  intro k v
  by_cases hk : k = px.toInt
  · subst hk
    rw [AList.lookup_insert]
    constructor
    · intro hv
      exact ⟨px, qty, rfl, Option.some.inj hv, (if_pos rfl).mpr rfl⟩
    · rintro ⟨px', qty', hpx, rfl, hP⟩
      rw [if_pos (Int64.toInt_inj.mp hpx)] at hP
      rw [hP]
  · rw [AList.lookup_insert_ne hk, h k v]
    constructor
    · rintro ⟨px', qty', rfl, rfl, hP⟩
      have hne : px' ≠ px := fun heq => hk (congrArg Int64.toInt heq)
      exact ⟨px', qty', rfl, rfl, (if_neg hne).mpr hP⟩
    · rintro ⟨px', qty', rfl, rfl, hP⟩
      rw [if_neg fun heq => hk (congrArg Int64.toInt heq)] at hP
      exact ⟨px', qty', rfl, rfl, hP⟩

/-- One removal. -/
theorem Holds.erase (h : Holds d P) (px : Int64) :
    Holds (d.erase px.toInt) fun px' qty' => px' ≠ px ∧ P px' qty' := by
  intro k v
  by_cases hk : k = px.toInt
  · subst hk
    rw [AList.lookup_erase]
    refine iff_of_false nofun ?_
    rintro ⟨px', qty', hpx, -, hne, -⟩
    exact hne (Int64.toInt_inj.mp hpx)
  · rw [AList.lookup_erase_ne hk, h k v]
    constructor
    · rintro ⟨px', qty', rfl, rfl, hP⟩
      exact ⟨px', qty', rfl, rfl, fun heq => hk (congrArg Int64.toInt heq), hP⟩
    · rintro ⟨px', qty', rfl, rfl, -, hP⟩
      exact ⟨px', qty', rfl, rfl, hP⟩

theorem mem_keys_iff {k : Int} : k ∈ d.keys ↔ ∃ v, d.lookup k = some v := by
  rw [← AList.mem_keys, ← AList.lookup_isSome, Option.isSome_iff_exists]

/-- The level that is better than all others is on top. -/
theorem Holds.topOf_eq_some (h : Holds d P) {px qty : Int64} (hmem : P px qty)
    (hbest : ∀ px' qty', P px' qty' → px' = px ∨ isWorse side px' px) :
    topOf d side = some (px.toInt, qty.toInt) := by
  have hlookup : d.lookup px.toInt = some qty.toInt := (h _ _).mpr ⟨px, qty, rfl, rfl, hmem⟩
  have hkey : px.toInt ∈ d.keys := mem_keys_iff.mpr ⟨_, hlookup⟩
  have hall : ∀ k ∈ d.keys, ∃ px' : Int64, px'.toInt = k ∧ (px' = px ∨ isWorse side px' px) := by
    intro k hk
    obtain ⟨v, hv⟩ := mem_keys_iff.mp hk
    obtain ⟨px', qty', hpx, -, hP⟩ := (h k v).mp hv
    exact ⟨px', hpx, hbest px' qty' hP⟩
  have hbestKey : bestKey d side = some px.toInt := by
    cases side with
    | kBid =>
      refine List.max?_eq_some_iff.mpr ⟨hkey, fun k hk => ?_⟩
      obtain ⟨px', rfl, rfl | hworse⟩ := hall k hk
      · exact le_rfl
      · exact (Int64.lt_iff_toInt_lt.mp hworse).le
    | kAsk =>
      refine List.min?_eq_some_iff.mpr ⟨hkey, fun k hk => ?_⟩
      obtain ⟨px', rfl, rfl | hworse⟩ := hall k hk
      · exact le_rfl
      · exact (Int64.lt_iff_toInt_lt.mp hworse).le
  rw [topOf, hbestKey, Option.bind_some, hlookup, Option.map_some]

theorem Holds.topOf_eq_none (h : Holds d P) (hnone : ∀ px qty, ¬ P px qty) :
    topOf d side = none := by
  have hkeys : d.keys = [] := by
    refine List.eq_nil_iff_forall_not_mem.mpr fun k hk => ?_
    obtain ⟨v, hv⟩ := mem_keys_iff.mp hk
    obtain ⟨px, qty, -, -, hP⟩ := (h k v).mp hv
    exact hnone px qty hP
  cases side with
  | kBid => rw [topOf, bestKey, hkeys]; rfl
  | kAsk => rw [topOf, bestKey, hkeys]; rfl

end Dicts

/-- The dict is one side of the map. -/
def Mirrors (side : Side) (m : PriceMap) (d : PyDict) : Prop :=
  Holds d fun px qty => m (side, px) = some qty

section Mirrors
variable {side : Side} {m : PriceMap} {d : PyDict}

theorem Mirrors.apply (h : Mirrors side m d) (l : DepthLevel) :
    Mirrors side (m.applyAll [⟨side, l.pxTicks, l.qtyLots⟩]) (applyLevels d [ints l]) := by
  have hzero : l.qtyLots.toInt = 0 ↔ l.qtyLots = 0 := Int64.toInt_inj (y := 0)
  have hat : ∀ px, (m.applyAll [⟨side, l.pxTicks, l.qtyLots⟩]) (side, px) =
      if px = l.pxTicks then (if l.qtyLots = 0 then none else some l.qtyLots)
      else m (side, px) := by
    intro px
    by_cases hpx : px = l.pxTicks
    · rw [if_pos hpx, hpx]
      exact Function.update_self ..
    · rw [if_neg hpx]
      exact Function.update_of_ne (fun heq => hpx (Prod.mk.inj heq).2) ..
  by_cases hq : l.qtyLots = 0
  · have hpop : applyLevels d [ints l] = d.erase l.pxTicks.toInt := if_pos (hzero.mpr hq)
    rw [hpop]
    refine (h.erase l.pxTicks).congr fun px qty => ?_
    rw [hat px, if_pos hq]
    by_cases hpx : px = l.pxTicks <;> simp [hpx]
  · have hset : applyLevels d [ints l] = d.insert l.pxTicks.toInt l.qtyLots.toInt :=
      if_neg (mt hzero.mp hq)
    rw [hset]
    refine (h.insert l.pxTicks l.qtyLots).congr fun px qty => ?_
    rw [hat px, if_neg hq]
    by_cases hpx : px = l.pxTicks <;> simp [hpx, eq_comm]

/-- The levels of a side, one after the other. -/
theorem Mirrors.applyLevels (h : Mirrors side m d) (levels : List DepthLevel) :
    Mirrors side (m.applyAll (levelUpdates side levels)) (applyLevels d (levels.map ints)) := by
  induction levels generalizing m d with
  | nil => exact h
  | cons l levels ih => exact ih (h.apply l)

/-- The other side's levels do not matter. -/
theorem Mirrors.other {other : Side} (h : Mirrors side m d) (hne : other ≠ side)
    (levels : List DepthLevel) : Mirrors side (m.applyAll (levelUpdates other levels)) d := by
  refine h.congr fun px qty => ?_
  have hsame : m.applyAll (levelUpdates other levels) (side, px) = m (side, px) := by
    refine AbsoluteUpdates.replay_of_untouched m fun u hu => ?_
    obtain ⟨v, hv, rfl⟩ := List.mem_map.mp hu
    obtain ⟨l, -, rfl⟩ := List.mem_map.mp hv
    exact fun heq => hne (Prod.mk.inj heq).1
  rw [hsame]

/-- The best level of the map is on top of the dict. -/
theorem Mirrors.topOf_eq (h : Mirrors side m d) {best : Option Level}
    (hbest : BookReference.IsBest side m best) :
    topOf d side = best.map fun l => (l.pxTicks.toInt, l.qtyLots.toInt) := by
  cases best with
  | none =>
    refine Holds.topOf_eq_none h fun px qty hqty => ?_
    rw [hbest px] at hqty
    cases hqty
  | some l => exact Holds.topOf_eq_some h hbest.1 hbest.2

end Mirrors

/-! ## Snapshots -/

section Snapshot
variable {levels : List DepthLevel}

/-- With one level a price, the dict of a snapshot has its levels. -/
theorem holds_dictOf (hprices : (levels.map (·.pxTicks)).Nodup) :
    Holds (dictOf (levels.map ints)) fun px qty => ⟨px, qty⟩ ∈ levels := by
  induction levels using List.reverseRecOn with
  | nil => exact holds_empty.congr fun px qty => by simp
  | append_singleton levels l ih =>
    rw [List.map_append, List.nodup_append] at hprices
    obtain ⟨hfront, -, hnew⟩ := hprices
    have hstep : dictOf ((levels ++ [l]).map ints) =
        (dictOf (levels.map ints)).insert l.pxTicks.toInt l.qtyLots.toInt := by
      rw [dictOf, List.map_append, List.foldl_append]
      rfl
    rw [hstep]
    refine ((ih hfront).insert l.pxTicks l.qtyLots).congr fun px qty => ?_
    by_cases hpx : px = l.pxTicks
    · have hnone : (⟨px, qty⟩ : DepthLevel) ∉ levels := fun hmem =>
        hnew px (List.mem_map.mpr ⟨_, hmem, rfl⟩) l.pxTicks (by simp) hpx
      rw [if_pos hpx, List.mem_append, List.mem_singleton]
      subst hpx
      constructor
      · rintro rfl
        exact .inr rfl
      · rintro (hmem | heq)
        · exact absurd hmem hnone
        · exact congrArg DepthLevel.qtyLots heq
    · rw [if_neg hpx, List.mem_append, List.mem_singleton]
      constructor
      · exact .inl
      · rintro (hmem | heq)
        · exact hmem
        · exact absurd (congrArg DepthLevel.pxTicks heq) hpx

/-- The loop of `BestOf` keeps the best level so far. -/
theorem foldl_best (side : Side) (best : DepthLevel) (levels : List DepthLevel) :
    let r := levels.foldl (fun best l =>
      if isWorse side best.pxTicks l.pxTicks then l else best) best
    (r = best ∨ r ∈ levels) ∧ ¬ isWorse side r.pxTicks best.pxTicks ∧
      ∀ l ∈ levels, ¬ isWorse side r.pxTicks l.pxTicks := by
  induction levels generalizing best with
  | nil => exact ⟨.inl rfl, irrefl_of (isWorse side) _, by simp⟩
  | cons l levels ih =>
    by_cases hworse : isWorse side best.pxTicks l.pxTicks
    · obtain ⟨hmem, hl, hall⟩ := ih l
      rw [List.foldl_cons, if_pos hworse]
      refine ⟨.inr ?_, fun hr => hl (trans_of (isWorse side) hr hworse), ?_⟩
      · rcases hmem with heq | hmem
        · rw [heq]
          exact List.mem_cons_self
        · exact List.mem_cons_of_mem _ hmem
      · exact List.forall_mem_cons.mpr ⟨hl, hall⟩
    · obtain ⟨hmem, hbest, hall⟩ := ih best
      rw [List.foldl_cons, if_neg hworse]
      refine ⟨hmem.imp_right (List.mem_cons_of_mem _), hbest,
        List.forall_mem_cons.mpr ⟨fun hr => ?_, hall⟩⟩
      rcases trichotomous_of (isWorse side) l.pxTicks best.pxTicks with hlt | heq | hgt
      · exact hbest (trans_of (isWorse side) hr hlt)
      · exact hbest (heq ▸ hr)
      · exact hworse hgt

/-- `BestOf` and the dict of the script have the same best level. -/
theorem topOf_dictOf (side : Side) (hprices : (levels.map (·.pxTicks)).Nodup) :
    topOf (dictOf (levels.map ints)) side = (bestOf side levels).map ints := by
  have hholds := holds_dictOf hprices
  cases levels with
  | nil => exact hholds.topOf_eq_none fun px qty => by simp
  | cons front rest =>
    obtain ⟨hmem, -, hall⟩ := foldl_best side front (front :: rest)
    let best := (front :: rest).foldl (fun best l =>
      if isWorse side best.pxTicks l.pxTicks then l else best) front
    show topOf _ side = some (best.pxTicks.toInt, best.qtyLots.toInt)
    have hbest : best ∈ front :: rest := by
      rcases hmem with heq | hmem
      · exact List.mem_cons.mpr (.inl heq)
      · exact hmem
    refine hholds.topOf_eq_some hbest fun px qty hpx => ?_
    rcases trichotomous_of (isWorse side) px best.pxTicks with hlt | heq | hgt
    · exact .inr hlt
    · exact .inl heq
    · exact absurd hgt (hall _ hpx)

end Snapshot

/-! ## Frames -/

/-- The filters that the test makes of the two scales. -/
def filtersOf (pxScale qtyScale : Nat) : SymbolFilters := ⟨pxScale, qtyScale⟩

/-- The levels as `ReadLevels` has them. -/
def readTexts (f : SymbolFilters) (levels : List (String × String)) : Option (List DepthLevel) :=
  readLevels f (levels.map fun l => .array [.string l.1, .string l.2])

/-- The diff that `ParseDepthDiff` finds in a frame. -/
def RecordedFrame.diff (fr : RecordedFrame) (f : SymbolFilters) : Option DepthDiff := do
  let bids ← readTexts f fr.bids
  let asks ← readTexts f fr.asks
  return ⟨fr.firstId, fr.finalId, ((Dom.int fr.eventMs).getInt64).getD 0, bids, asks⟩

/-- The snapshot that `ParseDepthSnapshot` finds in the answer. -/
def RecordedSnapshot.read (snap : RecordedSnapshot) (f : SymbolFilters) :
    Option DepthSnapshot := do
  let bids ← readTexts f snap.bids
  let asks ← readTexts f snap.asks
  return ⟨snap.lastUpdateId, bids, asks⟩

theorem getUint64_toNat (x : UInt64) : (Dom.int x.toNat).getUint64 = some x := by
  have hlt := x.toNat_lt
  rw [Dom.getUint64, if_pos ⟨by omega, by omega⟩, Int.toNat_natCast, UInt64.ofNat_toNat]

section Files
variable {parser : String → Option Dom} {f : SymbolFilters}

-- The documents are variables here: in a concrete one the kernel would unfold the range test.
theorem readDepthDiff_of_fields {doc docU docU' docB docA : Dom} {line : String} {U u : UInt64}
    {b a : List Dom} (hline : parser line = some doc) (hU : doc.field "U" = some docU)
    (hfirst : docU.getUint64 = some U) (hu : doc.field "u" = some docU')
    (hfinal : docU'.getUint64 = some u) (hb : doc.field "b" = some docB)
    (hbids : docB.getArray = some b) (ha : doc.field "a" = some docA)
    (hasks : docA.getArray = some a) :
    readDepthDiff parser line f = (readLevels f b).bind fun bids =>
      (readLevels f a).bind fun asks =>
        some ⟨U, u, ((doc.field "E").bind Dom.getInt64).getD 0, bids, asks⟩ := by
  simp only [readDepthDiff, hline, hU, hfirst, hu, hfinal, hb, hbids, ha, hasks,
    Option.bind_eq_bind, Option.bind_some]
  rfl

theorem parseDepthSnapshot_of_fields {doc docId docB docA : Dom} {text : String} {lastId : UInt64}
    {b a : List Dom} (htext : parser text = some doc) (hid : doc.field "lastUpdateId" = some docId)
    (hlast : docId.getUint64 = some lastId) (hb : doc.field "bids" = some docB)
    (hbids : docB.getArray = some b) (ha : doc.field "asks" = some docA)
    (hasks : docA.getArray = some a) :
    parseDepthSnapshot parser text f = (readLevels f b).bind fun bids =>
      (readLevels f a).bind fun asks => some ⟨lastId, bids, asks⟩ := by
  simp only [parseDepthSnapshot, htext, hid, hlast, hb, hbids, ha, hasks, Option.bind_eq_bind,
    Option.bind_some]
  rfl

theorem readDepthDiff_doc {fr : RecordedFrame} {line : String}
    (hline : parser line = some fr.doc) : readDepthDiff parser line f = fr.diff f := by
  have hU : fr.doc.field "U" = some (.int fr.firstId.toNat) := by
    simp [RecordedFrame.doc, Dom.field, List.lookup_cons]
  have hu : fr.doc.field "u" = some (.int fr.finalId.toNat) := by
    simp [RecordedFrame.doc, Dom.field, List.lookup_cons]
  have hE : fr.doc.field "E" = some (.int fr.eventMs) := by
    simp [RecordedFrame.doc, Dom.field, List.lookup_cons]
  have hb : fr.doc.field "b" = some (levelsDoc fr.bids) := by
    simp [RecordedFrame.doc, Dom.field, List.lookup_cons]
  have ha : fr.doc.field "a" = some (levelsDoc fr.asks) := by
    simp [RecordedFrame.doc, Dom.field, List.lookup_cons]
  rw [readDepthDiff_of_fields hline hU (getUint64_toNat _) hu (getUint64_toNat _) hb rfl ha rfl,
    hE, Option.bind_some]
  rfl

theorem parseDepthSnapshot_doc {snap : RecordedSnapshot} {text : String}
    (htext : parser text = some snap.doc) : parseDepthSnapshot parser text f = snap.read f := by
  have hid : snap.doc.field "lastUpdateId" = some (.int snap.lastUpdateId.toNat) := by
    simp [RecordedSnapshot.doc, Dom.field]
  have hb : snap.doc.field "bids" = some (levelsDoc snap.bids) := by
    simp [RecordedSnapshot.doc, Dom.field, List.lookup_cons]
  have ha : snap.doc.field "asks" = some (levelsDoc snap.asks) := by
    simp [RecordedSnapshot.doc, Dom.field, List.lookup_cons]
  rw [parseDepthSnapshot_of_fields htext hid (getUint64_toNat _) hb rfl ha rfl]
  rfl

end Files

/-- The script reads the levels that the test reads. -/
theorem readPairs_of_readTexts {decimal : String → Option ℚ}
    (hdecimal : ∀ n : Numeral, decimal (String.ofList n.spell) = some n.value)
    {pxScale qtyScale : Nat} {texts : List (String × String)} {levels : List DepthLevel}
    (hread : readTexts (filtersOf pxScale qtyScale) texts = some levels) :
    readPairs decimal pxScale qtyScale texts = some (levels.map ints) := by
  induction texts generalizing levels with
  | nil =>
    cases hread
    rfl
  | cons l texts ih =>
    obtain ⟨level, hlevel, hread⟩ := Option.bind_eq_some_iff.mp hread
    obtain ⟨rest, hrest, hread⟩ := Option.bind_eq_some_iff.mp hread
    cases hread
    obtain ⟨px, hpx, hlevel⟩ := Option.bind_eq_some_iff.mp hlevel
    obtain ⟨qty, hqty, hlevel⟩ := Option.bind_eq_some_iff.mp hlevel
    cases hlevel
    rw [readPairs, toScaled_of_decimalToScaled hdecimal hpx,
      toScaled_of_decimalToScaled hdecimal hqty, ih hrest]
    rfl

/-! ## The cut -/

/-- The diffs that are replayed: those before the snapshot, and the one that straddles it. -/
def cut (snapId : UInt64) : List DepthDiff → List DepthDiff
  | [] => []
  | d :: ds =>
      if d.finalId ≤ snapId then d :: cut snapId ds
      else if d.firstId.toNat ≤ snapId.toNat + 1 then [d]
      else []

/-- Each diff begins where the one before ends: none is missing and none overlaps. -/
def InSequence (ds : List DepthDiff) : Prop := ds.IsChain fun a b => b.firstId = a.finalId + 1

/-- Past the snapshot both rules ask for the same. -/
theorem straddles_iff {U u snapId : UInt64} (hpast : ¬ u ≤ snapId) :
    U ≤ snapId + 1 ∧ snapId + 1 ≤ u ↔ U.toNat ≤ snapId.toNat + 1 := by
  have hlt := u.toNat_lt
  rw [UInt64.le_iff_toNat_le] at hpast
  have hsucc : (snapId + 1).toNat = snapId.toNat + 1 := by
    rw [UInt64.toNat_add]
    exact Nat.mod_eq_of_lt (show snapId.toNat + 1 < 2 ^ 64 by omega)
  rw [UInt64.le_iff_toNat_le, UInt64.le_iff_toNat_le, hsucc]
  omega

/-- The updates of some diffs. -/
def updatesOf (ds : List DepthDiff) : List L2Book.LevelUpdate := ds.flatMap DepthDiff.updates

/-! ## The two replays -/

theorem applyAll_updatesOf_cons (m : PriceMap) (d : DepthDiff) (ds : List DepthDiff) :
    m.applyAll (updatesOf (d :: ds)) =
      ((m.applyAll (levelUpdates .kBid d.bids)).applyAll (levelUpdates .kAsk d.asks)).applyAll
        (updatesOf ds) := by
  simp only [updatesOf, List.flatMap_cons, DepthDiff.updates, sideUpdates, PriceMap.applyAll,
    List.map_append, AbsoluteUpdates.replay_append]

section Replays
variable {decimal : String → Option ℚ} {pxScale qtyScale : Nat} {snapId : UInt64}
  {frames : List RecordedFrame} {ds : List DepthDiff}

/-- Both dicts are the map. -/
def Both (m : PriceMap) (books : PyDict × PyDict) : Prop :=
  Mirrors .kBid m books.1 ∧ Mirrors .kAsk m books.2

/-- A frame is its diff. -/
def Decoded (f : SymbolFilters) (fr : RecordedFrame) (d : DepthDiff) : Prop := fr.diff f = some d

theorem Decoded.ids {f : SymbolFilters} {fr : RecordedFrame} {d : DepthDiff}
    (h : Decoded f fr d) : d.firstId = fr.firstId ∧ d.finalId = fr.finalId := by
  obtain ⟨bids, -, h⟩ := Option.bind_eq_some_iff.mp h
  obtain ⟨asks, -, h⟩ := Option.bind_eq_some_iff.mp h
  cases h
  exact ⟨rfl, rfl⟩

section Script
variable (hdecimal : ∀ n : Numeral, decimal (String.ofList n.spell) = some n.value)
include hdecimal

/-- The script applies the levels of a frame to the map. -/
theorem Both.applyFrame {m : PriceMap} {books : PyDict × PyDict} (hboth : Both m books)
    {fr : RecordedFrame} {d : DepthDiff} (hd : Decoded (filtersOf pxScale qtyScale) fr d) :
    ∃ books', applyFrame decimal pxScale qtyScale fr books = some books' ∧
      Both ((m.applyAll (levelUpdates .kBid d.bids)).applyAll (levelUpdates .kAsk d.asks))
        books' := by
  obtain ⟨bids, hbids, hd⟩ := Option.bind_eq_some_iff.mp hd
  obtain ⟨asks, hasks, hd⟩ := Option.bind_eq_some_iff.mp hd
  cases hd
  refine ⟨(applyLevels books.1 (bids.map ints), applyLevels books.2 (asks.map ints)), ?_, ?_, ?_⟩
  · rw [Recorder.applyFrame, readPairs_of_readTexts hdecimal hbids,
      readPairs_of_readTexts hdecimal hasks]
    rfl
  · exact (hboth.1.applyLevels bids).other (by decide) asks
  · exact (hboth.2.other (by decide) bids).applyLevels asks

/-- The script replays the cut. -/
theorem Both.replayFrames {m : PriceMap} {books : PyDict × PyDict} (hboth : Both m books)
    (snapId : UInt64)
    (hframes : List.Forall₂ (Decoded (filtersOf pxScale qtyScale)) frames ds) :
    ∃ books', replayFrames decimal pxScale qtyScale snapId.toNat frames books = some books' ∧
      Both (m.applyAll (updatesOf (cut snapId ds))) books' := by
  induction hframes generalizing m books with
  | nil => exact ⟨books, rfl, hboth⟩
  | @cons fr d frames ds hd hrest ih =>
    obtain ⟨hU, hu⟩ := hd.ids
    obtain ⟨books₁, happly, hboth₁⟩ := hboth.applyFrame hdecimal hd
    rw [Recorder.replayFrames, cut, hU, hu]
    by_cases hbefore : fr.finalId.toNat ≤ snapId.toNat
    · rw [if_pos hbefore, if_pos (UInt64.le_iff_toNat_le.mpr hbefore), happly,
        applyAll_updatesOf_cons]
      exact ih hboth₁
    · rw [if_neg hbefore, if_neg (mt UInt64.le_iff_toNat_le.mp hbefore)]
      by_cases hstraddle : fr.firstId.toNat ≤ snapId.toNat + 1
      · rw [if_pos ⟨hstraddle, by omega⟩, if_pos hstraddle, applyAll_updatesOf_cons]
        exact ⟨books₁, happly, hboth₁⟩
      · rw [if_neg fun h => hstraddle h.1, if_neg hstraddle]
        exact ⟨books, rfl, hboth⟩

end Script

/-- What the test does with a diff. -/
def Replay.take (r : Replay) (d : DepthDiff) : Replay :=
  ⟨(fragments (fun _ => d.header 0) d.bids d.asks).foldl L2Book.applyEvent r.book, d.finalId, false,
    r.linesApplied + 1⟩

/-- The diff may stand where it is read. -/
def Replay.Expects (r : Replay) (d : DepthDiff) : Prop :=
  r.first = false → d.firstId = r.prevFinal + 1

/-- The test goes through the cut, as long as nothing is missing. -/
theorem replayLines_eq_some_iff {parser : String → Option Dom} {f : SymbolFilters}
    {lines : List String} {r r' : Replay}
    (hlines : List.Forall₂ (fun line d => line ≠ "" ∧ readDepthDiff parser line f = some d)
      lines ds) :
    replayLines parser f snapId lines r = some r' ↔
      (∀ d ∈ (cut snapId ds).head?, r.Expects d) ∧ InSequence (cut snapId ds) ∧
        r' = (cut snapId ds).foldl Replay.take r := by
  induction hlines generalizing r with
  | nil => simp [replayLines, cut, InSequence, eq_comm]
  | @cons line d lines ds hline hrest ih =>
    obtain ⟨hne, hread⟩ := hline
    obtain ⟨ev, evs, hevs, -, hU, hu⟩ := (d.group 0).chain.front
    have hparse : parseDepthDiff parser line f 0 = some (ev :: evs) := by
      rw [parseDepthDiff, hread, Option.map_some, hevs]
    have htake : (⟨(ev :: evs).foldl L2Book.applyEvent r.book, d.finalId, false,
        r.linesApplied + 1⟩ : Replay) = r.take d := by rw [← hevs]; rfl
    have hexpects : r.first = false ∧ d.firstId ≠ r.prevFinal + 1 ↔ ¬ r.Expects d :=
      Classical.not_imp.symm
    rw [replayLines, if_neg hne, hparse]
    dsimp only
    rw [hU, hu, htake, cut]
    by_cases hbefore : d.finalId ≤ snapId
    · -- before the snapshot the loop goes on
      have hgo : ¬ d.finalId > snapId := UInt64.not_lt.mpr hbefore
      rw [if_pos (.inl hbefore), if_pos hbefore, if_neg hgo]
      by_cases hexp : r.Expects d
      · rw [if_neg fun h => hexpects.mp h hexp, ih]
        simp only [InSequence, List.head?_cons, Option.mem_some_iff, forall_eq', hexp, true_and,
          List.isChain_cons, List.foldl_cons, and_assoc]
        exact and_congr_left' (forall₂_congr fun x _ => ⟨fun h => h rfl, fun h _ => h⟩)
      · rw [if_pos (hexpects.mpr hexp)]
        simp [hexp]
    · rw [if_neg hbefore]
      by_cases hstraddle : d.firstId.toNat ≤ snapId.toNat + 1
      · -- the straddling diff is the last
        rw [if_pos (.inr ((straddles_iff hbefore).mpr hstraddle)), if_pos hstraddle,
          if_pos (UInt64.not_le.mp hbefore)]
        by_cases hexp : r.Expects d
        · rw [if_neg fun h => hexpects.mp h hexp]
          simp [hexp, InSequence, eq_comm]
        · rw [if_pos (hexpects.mpr hexp)]
          simp [hexp]
      · have hpast : ¬ (d.finalId ≤ snapId ∨ d.firstId ≤ snapId + 1 ∧ snapId + 1 ≤ d.finalId) :=
          not_or.mpr ⟨hbefore, mt (straddles_iff hbefore).mp hstraddle⟩
        rw [if_neg hpast, if_neg hstraddle]
        simp [InSequence, eq_comm]

theorem levels_foldl_take (r : Replay) (ds : List DepthDiff) (side : Side) :
    (ds.foldl Replay.take r).book.levels side =
      (r.book.applyAll (updatesOf ds)).levels side := by
  induction ds generalizing r with
  | nil => rfl
  | cons d ds ih =>
    have hstep : ∀ side, (r.take d).book.levels side = (r.book.applyAll d.updates).levels side := by
      intro side
      rw [Replay.take, L2Book.levels_foldl_applyEvent, (d.group 0).flatMap_updates]
    rw [List.foldl_cons, ih, L2Book.levels_applyAll_congr hstep, updatesOf, updatesOf,
      List.flatMap_cons, L2Book.applyAll, L2Book.applyAll, L2Book.applyAll, List.foldl_append]

theorem linesApplied_foldl_take (r : Replay) (ds : List DepthDiff) :
    (ds.foldl Replay.take r).linesApplied = r.linesApplied + ds.length := by
  induction ds generalizing r with
  | nil => rfl
  | cons d ds ih =>
    have hstep : (r.take d).linesApplied = r.linesApplied + 1 := rfl
    rw [List.foldl_cons, ih, hstep, List.length_cons]
    omega

end Replays

/-! ## Fixtures -/

/-- What the script has in hand when it decides, and the files as the test reads them: each line
is the text of its frame, every number has the places of its scale, and the snapshot has one
level a price. -/
structure Fixture (parser : String → Option Dom) (pxScale qtyScale : Nat) where
  frames : List RecordedFrame
  snap : RecordedSnapshot
  lines : List String
  snapText : String
  diffs : List DepthDiff
  depth : DepthSnapshot
  lines_read : List.Forall₂ (fun line fr => line ≠ "" ∧ parser line = some fr.doc) lines frames
  snap_text : parser snapText = some snap.doc
  frames_decoded : List.Forall₂ (Decoded (filtersOf pxScale qtyScale)) frames diffs
  snap_decoded : snap.read (filtersOf pxScale qtyScale) = some depth
  bid_prices : (depth.bids.map (·.pxTicks)).Nodup
  ask_prices : (depth.asks.map (·.pxTicks)).Nodup

/-- A watched book that has not deleted too much has the best level of the map. -/
theorem isBest_of_tracks {side : Side} {w : BookReference.Watch} {m : PriceMap}
    (ht : BookReference.Tracks side w m) (hvalid : w.book.Valid)
    (hdeleted : w.deleted side < L2Book.kMaxLevels) :
    BookReference.IsBest side m (w.book.best side) := by
  have hs := (hvalid side).sorted
  rw [L2Book.best_eq]
  refine BookReference.isBest_getLast? hs ht.held fun p hp => ?_
  cases hlossy : w.lossy side with
  | false => exact absurd hp (ht.complete hlossy p)
  | true =>
    obtain ⟨k, hk⟩ : ∃ k, L2Book.kMaxLevels - w.deleted side = k + 1 :=
      ⟨L2Book.kMaxLevels - w.deleted side - 1, by omega⟩
    have hmargin := ht.margin hlossy
    rw [hk] at hmargin
    exact hmargin.getLast?_better hs hp

namespace Fixture
variable {parser : String → Option Dom} {pxScale qtyScale : Nat}
  (fx : Fixture parser pxScale qtyScale)

/-- The diffs both replay. -/
def replayed : List DepthDiff := cut fx.snap.lastUpdateId fx.diffs

/-- The book that has replayed them. -/
def book : L2Book := L2Book.empty.applyAll (updatesOf fx.replayed)

/-- The book's best levels are those of the snapshot. -/
def Aligned : Prop :=
  ∃ bb ba, bestOf .kBid fx.depth.bids = some bb ∧ bestOf .kAsk fx.depth.asks = some ba ∧
    showsBest fx.book .kBid bb = true ∧ showsBest fx.book .kAsk ba = true

/-- Since a side of the book first lost a level, fewer than all its levels have been deleted. -/
def Kept : Prop :=
  ∀ side, ((BookReference.Watch.start L2Book.empty).calls (updatesOf fx.replayed)).deleted side <
    L2Book.kMaxLevels

theorem isBest (hkept : fx.Kept) (side : Side) :
    BookReference.IsBest side (PriceMap.empty.applyAll (updatesOf fx.replayed))
      (fx.book.best side) := by
  have ht := BookReference.tracks_calls (updatesOf fx.replayed) L2Book.valid_empty
    (BookReference.tracks_start side L2Book.empty)
  have hv := BookReference.valid_calls (updatesOf fx.replayed)
    (w := BookReference.Watch.start L2Book.empty) L2Book.valid_empty
  have hbest := isBest_of_tracks ht hv (hkept side)
  have hbook : ((BookReference.Watch.start L2Book.empty).calls (updatesOf fx.replayed)).book =
      fx.book := BookReference.Watch.book_calls ..
  rw [← hbook]
  exact hbest

/-- Two levels are the same if the script's integers are. -/
theorem showsBest_iff (b : L2Book) (side : Side) (l : DepthLevel) :
    showsBest b side l = true ↔
      (b.best side).map (fun l => (l.pxTicks.toInt, l.qtyLots.toInt)) = some (ints l) := by
  rw [showsBest, beq_iff_eq]
  cases b.best side with
  | none => simp
  | some best =>
    obtain ⟨px, qty⟩ := best
    simp [ints, Int64.toInt_inj]

/-- What the script accepts. -/
theorem accepts_iff {decimal : String → Option ℚ}
    (hdecimal : ∀ n : Numeral, decimal (String.ofList n.spell) = some n.value) (hkept : fx.Kept) :
    accepts decimal pxScale qtyScale fx.frames fx.snap = some true ↔ fx.Aligned := by
  have hstart : Both PriceMap.empty (∅, ∅) :=
    ⟨holds_empty.congr fun _ _ => by simp [PriceMap.empty],
      holds_empty.congr fun _ _ => by simp [PriceMap.empty]⟩
  obtain ⟨books, hreplay, hbids, hasks⟩ :=
    hstart.replayFrames hdecimal fx.snap.lastUpdateId fx.frames_decoded
  have hbb := hbids.topOf_eq (fx.isBest hkept .kBid)
  have hba := hasks.topOf_eq (fx.isBest hkept .kAsk)
  obtain ⟨bids, hreadBids, hread⟩ := Option.bind_eq_some_iff.mp fx.snap_decoded
  obtain ⟨asks, hreadAsks, hread⟩ := Option.bind_eq_some_iff.mp hread
  have hdepth : fx.depth = ⟨fx.snap.lastUpdateId, bids, asks⟩ := (Option.some.inj hread).symm
  have hsnapBb := topOf_dictOf .kBid fx.bid_prices
  have hsnapBa := topOf_dictOf .kAsk fx.ask_prices
  rw [hdepth] at hsnapBb hsnapBa
  rw [accepts, reconstructTop, hreplay, snapshotTop, readPairs_of_readTexts hdecimal hreadBids,
    readPairs_of_readTexts hdecimal hreadAsks, Aligned, hdepth]
  simp only [showsBest_iff, Option.map_some, Option.bind_eq_bind, Option.bind_some, topsOf, hbb,
    hba, hsnapBb, hsnapBa]
  cases fx.book.best .kBid <;> cases fx.book.best .kAsk <;> cases bestOf .kBid bids <;>
    cases bestOf .kAsk asks <;> simp

/-- The test reads the diffs. -/
theorem lines_decoded : List.Forall₂ (fun line d => line ≠ "" ∧
    readDepthDiff parser line (filtersOf pxScale qtyScale) = some d) fx.lines fx.diffs := by
  have hlines := fx.lines_read
  have hframes := fx.frames_decoded
  generalize fx.lines = lines, fx.frames = frames, fx.diffs = ds at hlines hframes
  induction hlines generalizing ds with
  | nil =>
    cases hframes
    exact .nil
  | cons hline hrest ih =>
    cases hframes with
    | cons hd hds => exact .cons ⟨hline.1, (readDepthDiff_doc hline.2).trans hd⟩ (ih _ hds)

/-- An aligned book has replayed something. -/
theorem Aligned.replayed_ne_nil (h : fx.Aligned) : fx.replayed ≠ [] := by
  obtain ⟨bb, -, -, -, hbb, -⟩ := h
  intro hnil
  rw [showsBest, book, hnil] at hbb
  cases hbb

/-- The test gets through the lines if nothing is missing. -/
theorem replayLines_iff (r : Replay) :
    replayLines parser (filtersOf pxScale qtyScale) fx.snap.lastUpdateId fx.lines .start =
      some r ↔ InSequence fx.replayed ∧ r = fx.replayed.foldl Replay.take .start := by
  rw [replayLines_eq_some_iff fx.lines_decoded]
  exact and_iff_right fun _ _ => nofun

/-- What the test passes. -/
theorem replayTest_iff :
    replayTest parser (filtersOf pxScale qtyScale) fx.lines fx.snapText fx.snap.lastUpdateId =
      true ↔ fx.Aligned ∧ InSequence fx.replayed := by
  have hbest : ∀ side l, showsBest (fx.replayed.foldl Replay.take .start).book side l =
      showsBest fx.book side l := by
    intro side l
    rw [showsBest, showsBest, L2Book.best_eq, L2Book.best_eq, levels_foldl_take]
    rfl
  have hcount : (fx.replayed.foldl Replay.take .start).linesApplied = fx.replayed.length :=
    (linesApplied_foldl_take .start _).trans (Nat.zero_add _)
  rw [replayTest, (parseDepthSnapshot_doc fx.snap_text).trans fx.snap_decoded]
  dsimp only
  constructor
  · intro htest
    split at htest
    · next bb ba r hbb hba hr =>
      obtain ⟨hseq, rfl⟩ := (fx.replayLines_iff r).mp hr
      rw [Bool.and_eq_true, Bool.and_eq_true, hbest, hbest] at htest
      exact ⟨⟨bb, ba, hbb, hba, htest.1.2, htest.2⟩, hseq⟩
    · cases htest
  · rintro ⟨haligned, hseq⟩
    have hpos := List.length_pos_iff.mpr (haligned.replayed_ne_nil fx)
    obtain ⟨bb, ba, hbb, hba, hshowBid, hshowAsk⟩ := haligned
    rw [hbb, hba, (fx.replayLines_iff _).mpr ⟨hseq, rfl⟩]
    dsimp only
    rw [hbest, hbest, hcount, hshowBid, hshowAsk, decide_eq_true hpos]
    rfl

end Fixture

/-- **When a fixture passes.**  Take any fixture the script may write, with a book that has not
lost its top.  The test passes exactly if the script has accepted the fixture and the frames that
are replayed are in sequence.  The script does not look at the second. -/
theorem fixture_passes_iff {parser : String → Option Dom} {pxScale qtyScale : Nat}
    (fx : Fixture parser pxScale qtyScale) (decimal : String → Option ℚ)
    (hdecimal : ∀ n : Numeral, decimal (String.ofList n.spell) = some n.value)
    (hkept : fx.Kept) :
    replayTest parser (filtersOf pxScale qtyScale) fx.lines fx.snapText fx.snap.lastUpdateId =
        true ↔
      accepts decimal pxScale qtyScale fx.frames fx.snap = some true ∧ InSequence fx.replayed := by
  rw [fx.replayTest_iff, fx.accepts_iff hdecimal hkept]

/-- A `Decimal` of numerals and nothing else. -/
def numeralValue (s : String) : Option ℚ := (Numeral.read s.toList).map Numeral.value

theorem numeralValue_spell (n : Numeral) :
    numeralValue (String.ofList n.spell) = some n.value := by
  rw [numeralValue, String.toList_ofList, Numeral.read_spell]
  rfl

/-- Updates 1 and 2. -/
def earlyFrame : RecordedFrame := ⟨0, 1, 2, [("1", "5")], [("3", "5")]⟩

/-- Updates 5 and 6. -/
def lateFrame : RecordedFrame := ⟨0, 5, 6, [("1", "7")], []⟩

/-- The book after update 6. -/
def lateSnapshot : RecordedSnapshot := ⟨6, [("1", "7")], [("3", "5")]⟩

def gapParser (s : String) : Option Dom :=
  if s = "early" then some earlyFrame.doc
  else if s = "late" then some lateFrame.doc
  else if s = "snapshot" then some lateSnapshot.doc
  else none

/-- A recording without updates 3 and 4. -/
def gapFixture : Fixture gapParser 0 0 where
  frames := [earlyFrame, lateFrame]
  snap := lateSnapshot
  lines := ["early", "late"]
  snapText := "snapshot"
  diffs := [⟨1, 2, 0, [⟨1, 5⟩], [⟨3, 5⟩]⟩, ⟨5, 6, 0, [⟨1, 7⟩], []⟩]
  depth := ⟨6, [⟨1, 7⟩], [⟨3, 5⟩]⟩
  lines_read := .cons ⟨by decide, by simp [gapParser]⟩ (.cons ⟨by decide, by simp [gapParser]⟩ .nil)
  snap_text := by simp [gapParser]
  frames_decoded := .cons rfl (.cons rfl .nil)
  snap_decoded := rfl
  bid_prices := by decide
  ask_prices := by decide

/-- The script accepts a recording with a gap, and the test fails on it. -/
theorem fixture_passes_iff_gap :
    accepts numeralValue 0 0 gapFixture.frames gapFixture.snap = some true ∧
      replayTest gapParser (filtersOf 0 0) gapFixture.lines gapFixture.snapText
        gapFixture.snap.lastUpdateId = false := by
  have hkept : gapFixture.Kept := fun side => by cases side <;> decide +kernel
  have haligned : gapFixture.Aligned :=
    ⟨⟨1, 7⟩, ⟨3, 5⟩, rfl, rfl, by decide +kernel, by decide +kernel⟩
  have hgap : ¬ InSequence gapFixture.replayed := by
    intro hseq
    cases hseq with
    | cons_cons hnext _ => exact absurd hnext (by decide)
  refine ⟨(gapFixture.accepts_iff numeralValue_spell hkept).mpr haligned, ?_⟩
  rw [← Bool.not_eq_true]
  intro htest
  exact hgap ((fixture_passes_iff gapFixture numeralValue numeralValue_spell hkept).mp htest).2

end Recorder
end Asmm
