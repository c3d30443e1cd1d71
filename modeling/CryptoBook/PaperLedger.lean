import Mathlib.Algebra.Ring.Int.Defs
import Mathlib.Data.List.Induction
import CryptoBook.Replay

/-! # The paper ledger

In paper mode the only thing that moves inventory and cash is `SimulateFills`, and the
only thing it fills is what rests from the tick before: every tick starts by matching the
resting quotes and ends by replacing or pulling them.  So one description of a fill
(`Fill`) and one of a tick (`Ticked`) carry three results about whole runs.

*Bound.*  A resting quote together with the inventory stays within one quote of the soft
limit, since a side is only quoted below the limit; a fill moves lots from the one to the
other.

*Provenance.*  A fill belongs to the quote record of the tick before, and to no other.

*Ledger.*  The fill records are the entries of an account that starts empty.

The two sides of the source are mirror images.  Here they are one side with a sign. -/
namespace Asmm
open Runs

section
variable {F : Type}

/-! ## Sides -/

namespace Side

/-- A buy adds lots, a sell removes them. -/
def sign : Side → Int
  | .kBid => 1
  | .kAsk => -1

def other : Side → Side
  | .kBid => .kAsk
  | .kAsk => .kBid

/-- A level at `px` on the other side reaches a quote at `quote`. -/
def reaches : Side → (px quote : Int) → Prop
  | .kBid, px, quote => px ≤ quote
  | .kAsk, px, quote => quote ≤ px

theorem sign_other (side : Side) : side.other.sign = -side.sign := by
  cases side <;> rfl

theorem sign_mul_sign (side : Side) (n : Int) : side.sign * (side.sign * n) = n := by
  cases side <;> simp [sign]

theorem natAbs_sign_mul (side : Side) (n : Int) : (side.sign * n).natAbs = n.natAbs := by
  cases side <;> simp [sign]

theorem eq_or_eq_other (side side' : Side) : side' = side ∨ side' = side.other := by
  cases side <;> cases side' <;> simp [other]

end Side

/-- The level that a quote on this side trades against. -/
def L2Book.opposite (book : L2Book) : Side → Option Level
  | .kBid => book.bestAsk
  | .kAsk => book.bestBid

namespace QuoteRecord

def px (q : QuoteRecord) : Side → Int
  | .kBid => q.bidPx
  | .kAsk => q.askPx

def qty (q : QuoteRecord) : Side → Int
  | .kBid => q.bidQty
  | .kAsk => q.askQty

end QuoteRecord

/-! ## What one fill does -/

namespace PaperBook

def resting (p : PaperBook F) : Side → PaperQuote
  | .kBid => p.bid
  | .kAsk => p.ask

/-- Pulled quotes do not rest. -/
theorem pullQuotes_inactive (p : PaperBook F) (side : Side) :
    (p.pullQuotes.resting side).active = false := by
  cases side <;> rfl

/-- A fill of `n` lots on one side, from the paper book `p` to `p'`, and its record. -/
structure Fill (side : Side) (book : L2Book) (p p' : PaperBook F) (n : Int) (f : FillRecord) :
    Prop where
  active : (p.resting side).active = true
  positive : 0 < n
  le_quote : n ≤ (p.resting side).qtyLots
  displayed : ∃ l, book.opposite side = some l ∧ n ≤ l.qtyLots.toInt ∧
    side.reaches l.pxTicks.toInt (p.resting side).pxTicks
  record_side : f.side = side
  record_px : f.pxTicks = (p.resting side).pxTicks
  record_qty : f.qtyLots = side.sign * n
  record_after : f.inventoryAfter = p'.qLots ∧ f.cashAfter = p'.cashUnits
  lots : p'.qLots = p.qLots + f.qtyLots
  cash : p'.cashUnits = p.cashUnits - f.pxTicks * f.qtyLots - f.feeUnits
  rest : p'.resting side = (p.resting side).filled n
  other_rest : p'.resting side.other = p.resting side.other

/-- One half of `SimulateFills`: nothing happens, or one fill. -/
inductive FillTurn (side : Side) (book : L2Book) (p : PaperBook F) :
    PaperBook F → List FillRecord → Prop
  | nothing : FillTurn side book p p []
  | fill {p' : PaperBook F} {n : Int} {f : FillRecord} (h : Fill side book p p' n f) :
      FillTurn side book p p' [f]

section Matching
variable [Double F]

theorem fillBid_turn (p : PaperBook F) (book : L2Book) (id : UInt64) :
    FillTurn .kBid book p (p.fillBid book id).1 (p.fillBid book id).2 := by
  unfold fillBid
  split
  · next hrest =>
    cases hbest : book.bestAsk with
    | none => exact .nothing
    | some ba =>
      dsimp only
      split
      · next hreach =>
        split
        · next hpos =>
          refine .fill (n := min p.bid.qtyLots ba.qtyLots.toInt) ?_
          refine ⟨hrest.1, hpos, Int.min_le_left .., ⟨ba, hbest, Int.min_le_right .., hreach⟩,
            rfl, rfl, ?_, ⟨rfl, rfl⟩, rfl, rfl, rfl, rfl⟩
          exact (Int.one_mul _).symm
        · exact .nothing
      · exact .nothing
  · exact .nothing

theorem fillAsk_turn (p : PaperBook F) (book : L2Book) (id : UInt64) :
    FillTurn .kAsk book p (p.fillAsk book id).1 (p.fillAsk book id).2 := by
  unfold fillAsk
  split
  · next hrest =>
    cases hbest : book.bestBid with
    | none => exact .nothing
    | some bb =>
      dsimp only
      split
      · next hreach =>
        split
        · next hpos =>
          refine .fill (n := min p.ask.qtyLots bb.qtyLots.toInt) ?_
          refine ⟨hrest.1, hpos, Int.min_le_left .., ⟨bb, hbest, Int.min_le_right .., hreach⟩,
            rfl, rfl, ?_, ⟨rfl, rfl⟩, rfl, ?_, rfl, rfl⟩
          · exact (Int.neg_one_mul _).symm
          · rw [Int.mul_neg, Int.sub_neg]
        · exact .nothing
      · exact .nothing
  · exact .nothing

/-- `SimulateFills` is a turn of the bid, then one of the ask. -/
theorem simulateFills_turns (p : PaperBook F) (book : L2Book) (id : UInt64) :
    ∃ mid bought sold, FillTurn .kBid book p mid bought ∧
      FillTurn .kAsk book mid (p.simulateFills book id).1 sold ∧
      (p.simulateFills book id).2 = bought ++ sold :=
  ⟨_, _, _, fillBid_turn p book id, fillAsk_turn _ book id, rfl⟩

end Matching

/-- One half does not touch the other side's quote. -/
theorem FillTurn.other_rest {side : Side} {book : L2Book} {p p' : PaperBook F}
    {fills : List FillRecord} (h : FillTurn side book p p' fills) :
    p'.resting side.other = p.resting side.other := by
  cases h with
  | nothing => rfl
  | fill h => exact h.other_rest

end PaperBook

/-! ## What one tick does -/

namespace Strategy
variable [Double F]

/-- A paper tick: without a mid price the quotes are pulled and nothing else happens;
otherwise the resting quotes are matched first, and then pulled or replaced. -/
inductive Ticked (s : Strategy F) (book : L2Book) (ev : MarketEvent) :
    Strategy F → StrategyOutput → Prop
  | noMid : Ticked s book ev s.pull ⟨false, QuoteRecord.zero, []⟩
  | pulled {t : Strategy F} {q : QuoteRecord} (kept : t.p = s.p ∧ t.liveMode = s.liveMode)
      (matched : t.paper = (s.paper.simulateFills book ev.finalUpdateId).1)
      (lots : q.inventoryLots = t.paper.qLots) :
      Ticked s book ev t.pull ⟨true, q, (s.paper.simulateFills book ev.finalUpdateId).2⟩
  | quoted {t : Strategy F} (midX2 : Int64) (mid sigmaP : F)
      (kept : t.p = s.p ∧ t.liveMode = s.liveMode)
      (matched : t.paper = (s.paper.simulateFills book ev.finalUpdateId).1)
      (shown : book.midX2 = some midX2) :
      Ticked s book ev
        (t.requote ev midX2 mid sigmaP (pxOrZero book.bestBid) (pxOrZero book.bestAsk)).1
        ⟨true, (t.requote ev midX2 mid sigmaP (pxOrZero book.bestBid) (pxOrZero book.bestAsk)).2,
          (s.paper.simulateFills book ev.finalUpdateId).2⟩

theorem onEvent_ticked {s : Strategy F} (hpaper : s.liveMode = false) (book : L2Book)
    (ev : MarketEvent) : Ticked s book ev (s.onEvent book ev).1 (s.onEvent book ev).2 := by
  unfold onEvent
  cases hmid : book.midX2 with
  | none => exact .noMid
  | some midX2 =>
    simp only [hpaper, Bool.false_eq_true, if_false]
    split
    · exact .pulled ⟨rfl, hpaper.symm⟩ rfl rfl
    · exact .quoted midX2 _ _ ⟨rfl, hpaper.symm⟩ rfl hmid

/-- A tick keeps the parameters and the mode. -/
theorem Ticked.kept {s s' : Strategy F} {book : L2Book} {ev : MarketEvent} {o : StrategyOutput}
    (h : Ticked s book ev s' o) : s'.p = s.p ∧ s'.liveMode = s.liveMode := by
  cases h with
  | noMid => exact ⟨rfl, rfl⟩
  | pulled kept => exact kept
  | quoted _ _ _ kept => exact kept

section Requote
variable (t : Strategy F) (ev : MarketEvent) (midX2 : Int64) (mid sigmaP : F) (bb ba : Int)

/-- A side is quoted only below the soft limit, and then with the full size. -/
theorem requote_limit (side : Side) :
    let r := t.requote ev midX2 mid sigmaP bb ba
    (r.1.paper.resting side).active = true →
      side.sign * r.1.paper.qLots < t.p.qMaxLots ∧
      (r.1.paper.resting side).qtyLots = t.p.quoteSizeLots := by
  intro r hactive
  have hlots : r.1.paper.qLots = t.paper.qLots := rfl
  cases side with
  | kBid =>
    have hbelow : ¬ t.paper.qLots ≥ t.p.qMaxLots := by
      simpa using (Bool.and_eq_true_iff.mp hactive).1
    refine ⟨?_, rfl⟩
    rw [hlots, Side.sign]
    omega
  | kAsk =>
    have habove : ¬ t.paper.qLots ≤ -t.p.qMaxLots := by
      simpa using (Bool.and_eq_true_iff.mp hactive).1
    refine ⟨?_, rfl⟩
    rw [hlots, Side.sign]
    omega

/-- The record shows the quotes that are left resting. -/
theorem requote_shown (side : Side) :
    let r := t.requote ev midX2 mid sigmaP bb ba
    (r.1.paper.resting side).active = true →
      r.2.px side = (r.1.paper.resting side).pxTicks ∧
      r.2.qty side = (r.1.paper.resting side).qtyLots := by
  intro r hactive
  cases side with
  | kBid => exact ⟨if_pos hactive, if_pos hactive⟩
  | kAsk => exact ⟨if_pos hactive, if_pos hactive⟩

end Requote

end Strategy

/-! ## Inventory stays within one quote of the soft limit -/

namespace PaperBook

/-- The inventory, and the inventory after the resting quote of either side is filled,
lie within the limit. -/
structure Within (limit : Int) (p : PaperBook F) : Prop where
  lots : ∀ side : Side, side.sign * p.qLots ≤ limit
  filled : ∀ side : Side, (p.resting side).active = true →
    side.sign * p.qLots + (p.resting side).qtyLots ≤ limit

theorem Within.natAbs_le {limit : Int} {p : PaperBook F} (h : Within limit p) :
    (p.qLots.natAbs : Int) ≤ limit := by
  have hlong := h.lots .kBid
  have hshort := h.lots .kAsk
  simp only [Side.sign] at hlong hshort
  omega

theorem Within.pullQuotes {limit : Int} {p : PaperBook F} (h : Within limit p) :
    Within limit p.pullQuotes where
  lots := h.lots
  filled side hactive := by
    rw [pullQuotes_inactive] at hactive
    cases hactive

/-- A fill moves lots from the quote to the inventory. -/
theorem Fill.sign_mul_lots {side : Side} {book : L2Book} {p p' : PaperBook F} {n : Int}
    {f : FillRecord} (h : Fill side book p p' n f) :
    side.sign * p'.qLots = side.sign * p.qLots + n := by
  rw [h.lots, h.record_qty, Int.mul_add, Side.sign_mul_sign]

theorem Fill.within {side : Side} {book : L2Book} {p p' : PaperBook F} {n limit : Int}
    {f : FillRecord} (h : Fill side book p p' n f) (hp : Within limit p) : Within limit p' := by
  have hside := h.sign_mul_lots
  have hother : side.other.sign * p'.qLots = side.other.sign * p.qLots - n := by
    rw [Side.sign_other, Int.neg_mul, Int.neg_mul, hside]
    omega
  have hpos := h.positive
  have hquote := h.le_quote
  have hbound := hp.filled side h.active
  constructor
  · intro side'
    rcases side.eq_or_eq_other side' with rfl | rfl
    · omega
    · have := hp.lots side.other
      omega
  · intro side' hactive
    rcases side.eq_or_eq_other side' with rfl | rfl
    · rw [h.rest, PaperQuote.filled]
      dsimp only
      omega
    · rw [h.other_rest] at hactive ⊢
      have := hp.filled side.other hactive
      omega

theorem FillTurn.within {side : Side} {book : L2Book} {p p' : PaperBook F} {limit : Int}
    {fills : List FillRecord} (h : FillTurn side book p p' fills) (hp : Within limit p) :
    Within limit p' ∧ ∀ f ∈ fills, (f.inventoryAfter.natAbs : Int) ≤ limit := by
  cases h with
  | nothing => exact ⟨hp, nofun⟩
  | fill h =>
    have hp' := h.within hp
    refine ⟨hp', fun f hf => ?_⟩
    rw [List.mem_singleton.mp hf, h.record_after.1]
    exact hp'.natAbs_le

theorem Within.simulateFills [Double F] {limit : Int} {p : PaperBook F} (hp : Within limit p)
    (book : L2Book) (id : UInt64) :
    Within limit (p.simulateFills book id).1 ∧
      ∀ f ∈ (p.simulateFills book id).2, (f.inventoryAfter.natAbs : Int) ≤ limit := by
  obtain ⟨mid, bought, sold, hbid, hask, hfills⟩ := simulateFills_turns p book id
  obtain ⟨hmid, hbought⟩ := hbid.within hp
  obtain ⟨hafter, hsold⟩ := hask.within hmid
  refine ⟨hafter, fun f hf => ?_⟩
  rw [hfills] at hf
  exact (List.mem_append.mp hf).elim (hbought f) (hsold f)

end PaperBook

open PaperBook

/-- One lot less than the soft limit and a whole quote. -/
def StrategyParams.maxInventory (p : StrategyParams F) : Int := p.qMaxLots + p.quoteSizeLots - 1

namespace Strategy
variable [Double F]

theorem Ticked.within {s s' : Strategy F} {book : L2Book} {ev : MarketEvent} {o : StrategyOutput}
    (h : Ticked s book ev s' o) (hs : Within s.p.maxInventory s.paper) :
    Within s.p.maxInventory s'.paper ∧
      ∀ f ∈ o.fills, (f.inventoryAfter.natAbs : Int) ≤ s.p.maxInventory := by
  obtain ⟨hmatched, hfills⟩ := hs.simulateFills book ev.finalUpdateId
  cases h with
  | noMid => exact ⟨hs.pullQuotes, nofun⟩
  | @pulled t q kept matched lots =>
    refine ⟨?_, hfills⟩
    rw [← matched] at hmatched
    exact hmatched.pullQuotes
  | @quoted t midX2 mid sigmaP kept matched shown =>
    refine ⟨?_, hfills⟩
    rw [← matched, ← kept.1] at hmatched
    rw [← kept.1]
    refine ⟨hmatched.lots, fun side hactive => ?_⟩
    obtain ⟨hbelow, hsize⟩ := requote_limit t ev midX2 mid sigmaP _ _ side hactive
    rw [hsize]
    show _ ≤ t.p.qMaxLots + t.p.quoteSizeLots - 1
    omega

end Strategy

/-! ## The replay loop -/

namespace StrategyLoop

theorem strat_absorb (s : StrategyLoop F) (ev : MarketEvent) :
    (s.absorb ev).strat = if ev.startsSnapshot then s.strat.onResync else s.strat := by
  unfold absorb
  dsimp only
  split <;> rfl

/-- Absorbing an event counts it, and changes nothing else of the output. -/
theorem out_absorb (s : StrategyLoop F) (ev : MarketEvent) :
    (s.absorb ev).out = { s.out with summary :=
      { s.out.summary with events := s.out.summary.events + 1 } } := by
  unfold absorb
  dsimp only
  split <;> rfl

variable [Double F]

/-- The output of the strategy in a tick of the loop. -/
def tickOutput (s : StrategyLoop F) (ev : MarketEvent) : StrategyOutput :=
  (s.strat.onEvent s.book ev).2

theorem strat_tick (s : StrategyLoop F) (ev : MarketEvent) :
    (s.tick ev).strat = (s.strat.onEvent s.book ev).1 := by
  unfold tick addFills
  dsimp only
  split <;> rfl

theorem quotes_tick (s : StrategyLoop F) (ev : MarketEvent) :
    (s.tick ev).out.quotes = s.out.quotes ++
      if (s.tickOutput ev).hasQuote then [(s.tickOutput ev).quote] else [] := by
  unfold tick addFills tickOutput
  dsimp only
  split
  · rfl
  · exact (List.append_nil _).symm

theorem fills_tick (s : StrategyLoop F) (ev : MarketEvent) :
    (s.tick ev).out.fills = s.out.fills ++ (s.tickOutput ev).fills ∧
    (s.tick ev).out.summary.fills = s.out.summary.fills + (s.tickOutput ev).fills.length := by
  unfold tick addFills tickOutput
  dsimp only
  split <;> exact ⟨rfl, rfl⟩

theorem maxAbsInventory_tick (s : StrategyLoop F) (ev : MarketEvent) :
    (s.tick ev).out.summary.maxAbsInventory =
      if ((s.tick ev).strat.paper.qLots.natAbs : Int) > s.out.summary.maxAbsInventory
      then ((s.tick ev).strat.paper.qLots.natAbs : Int) else s.out.summary.maxAbsInventory := by
  unfold tick addFills
  dsimp only
  split <;> rfl

/-- What absorbing and ticking preserve, the loop body preserves. -/
theorem step_preserves {I : StrategyLoop F → Prop} (habsorb : ∀ s ev, I s → I (s.absorb ev))
    (htick : ∀ s ev, I s → I (s.tick ev)) (s : StrategyLoop F) (ev : MarketEvent) (h : I s) :
    I (s.step ev) := by
  unfold step
  dsimp only
  split
  · exact htick _ ev (habsorb s ev h)
  · exact habsorb s ev h

/-- The state of `ReplayStrategy` after some events. -/
def after (p : StrategyParams F) (events : List MarketEvent) : StrategyLoop F :=
  run step (init p) events

theorem after_concat (p : StrategyParams F) (events : List MarketEvent) (ev : MarketEvent) :
    after p (events ++ [ev]) = (after p events).step ev := run_append ..

/-- The inventory bound along the loop. -/
structure Bounded (p : StrategyParams F) (s : StrategyLoop F) : Prop where
  params : s.strat.p = p
  paper : s.strat.liveMode = false
  within : Within p.maxInventory s.strat.paper
  fills : ∀ f ∈ s.out.fills, (f.inventoryAfter.natAbs : Int) ≤ p.maxInventory
  peak : (s.out.summary.maxAbsInventory.natAbs : Int) ≤ p.maxInventory

theorem bounded_init {p : StrategyParams F} (hmax : 0 ≤ p.maxInventory) : Bounded p (init p) where
  params := rfl
  paper := rfl
  within := ⟨fun side => by simpa [init, Strategy.new, PaperBook.new] using hmax,
    fun side => by cases side <;> nofun⟩
  fills := nofun
  peak := hmax

omit [Double F] in
theorem Bounded.absorb {p : StrategyParams F} {s : StrategyLoop F} (h : Bounded p s)
    (ev : MarketEvent) : Bounded p (s.absorb ev) := by
  have hout := out_absorb s ev
  have hstrat := strat_absorb s ev
  refine ⟨?_, ?_, ?_, by rw [hout]; exact h.fills, by rw [hout]; exact h.peak⟩ <;> rw [hstrat]
  · split <;> exact h.params
  · split <;> exact h.paper
  · split
    · exact h.within.pullQuotes
    · exact h.within

theorem Bounded.tick {p : StrategyParams F} {s : StrategyLoop F} (h : Bounded p s)
    (ev : MarketEvent) : Bounded p (s.tick ev) := by
  have hticked := Strategy.onEvent_ticked h.paper s.book ev
  obtain ⟨hparams, hpaper⟩ := hticked.kept
  obtain ⟨hwithin, hfills⟩ := hticked.within (h.params ▸ h.within)
  rw [← strat_tick] at hparams hpaper hwithin
  rw [h.params] at hwithin
  refine ⟨hparams.trans h.params, hpaper.trans h.paper, hwithin, ?_, ?_⟩
  · intro f hf
    rw [(fills_tick s ev).1] at hf
    exact (List.mem_append.mp hf).elim (h.fills f) fun hf => h.params ▸ hfills f hf
  · rw [maxAbsInventory_tick]
    split
    · exact hwithin.natAbs_le
    · exact h.peak

theorem bounded_after {p : StrategyParams F} (hmax : 0 ≤ p.maxInventory)
    (events : List MarketEvent) : Bounded p (after p events) :=
  run_invariant (step_preserves (fun _ ev h => h.absorb ev) fun _ ev h => h.tick ev)
    (bounded_init hmax) events

end StrategyLoop

/-- **Paper inventory is bounded.**  Whatever the events, the inventory after each of
them, the inventory on every fill record and the peak of the summary stay strictly within
one quote of the soft limit. -/
theorem paper_inventory_bounded [Double F] (p : StrategyParams F) (hmax : 1 ≤ p.qMaxLots)
    (hsize : 1 ≤ p.quoteSizeLots) (events : List MarketEvent) :
    let r := replayStrategy events p
    (∀ n, ((replayStrategy (events.take n) p).summary.finalInventory.natAbs : Int) ≤
      p.qMaxLots + p.quoteSizeLots - 1) ∧
    (∀ f ∈ r.fills, (f.inventoryAfter.natAbs : Int) ≤ p.qMaxLots + p.quoteSizeLots - 1) ∧
    (r.summary.maxAbsInventory.natAbs : Int) ≤ p.qMaxLots + p.quoteSizeLots - 1 := by
  have hlimit : 0 ≤ p.maxInventory := by
    unfold StrategyParams.maxInventory
    omega
  have hall := StrategyLoop.bounded_after hlimit events
  exact ⟨fun n => (StrategyLoop.bounded_after hlimit (events.take n)).within.natAbs_le,
    hall.fills, hall.peak⟩

/-- A diff that sets one bid and one ask. -/
def bothSides (bid ask : DepthLevel) : MarketEvent :=
  { MarketEvent.zero with
    kind := .kDepthDiff, numBids := 1, numAsks := 1
    levels := ((Vector.replicate _ ⟨0, 0⟩).set 0 bid).set 1 ask }

/-- Two diffs: the second one brings four lots down to the bid quoted after the first. -/
def dippingAsk : List MarketEvent := [bothSides ⟨100, 1⟩ ⟨102, 1⟩, bothSides ⟨100, 1⟩ ⟨101, 4⟩]

theorem paper_inventory_bounded_dip :
    ((replayStrategy dippingAsk Strategy.quoteAtOnce).fills.map FillRecord.inventoryAfter) = [4] ∧
    ((replayStrategy dippingAsk Strategy.quoteAtOnce).summary.maxAbsInventory.natAbs : Int) ≤
      109 :=
  ⟨by decide +kernel,
    (paper_inventory_bounded Strategy.quoteAtOnce (by decide) (by decide) dippingAsk).2.2⟩

/-! ## The fill records are a ledger -/

/-- Fill records as the entries of an account: each one continues the balance before it,
from the opening to the closing balance. -/
inductive Ledger : (lots cash : Int) → List FillRecord → (lots' cash' : Int) → Prop
  | nil (lots cash : Int) : Ledger lots cash [] lots cash
  | cons {lots cash lots' cash' : Int} {f : FillRecord} {fills : List FillRecord}
      (inventory : f.inventoryAfter = lots + f.qtyLots)
      (money : f.cashAfter = cash - f.pxTicks * f.qtyLots - f.feeUnits)
      (rest : Ledger f.inventoryAfter f.cashAfter fills lots' cash') :
      Ledger lots cash (f :: fills) lots' cash'

namespace Ledger

theorem append {l₀ c₀ l₁ c₁ l₂ c₂ : Int} {fills fills' : List FillRecord}
    (h : Ledger l₀ c₀ fills l₁ c₁) (h' : Ledger l₁ c₁ fills' l₂ c₂) :
    Ledger l₀ c₀ (fills ++ fills') l₂ c₂ := by
  induction h with
  | nil => exact h'
  | cons inventory money _ ih => exact .cons inventory money (ih h')

/-- The closing inventory stands on the last record. -/
theorem last {l₀ c₀ l₁ c₁ : Int} {fills : List FillRecord} (h : Ledger l₀ c₀ fills l₁ c₁) :
    l₁ = (fills.getLast?.map FillRecord.inventoryAfter).getD l₀ := by
  induction h with
  | nil => rfl
  | @cons lots cash lots' cash' f fills _ _ _ ih =>
    rw [ih, List.getLast?_cons]
    cases fills.getLast? <;> rfl

/-- The closing balances are the sums of the entries. -/
theorem totals {l₀ c₀ l₁ c₁ : Int} {fills : List FillRecord} (h : Ledger l₀ c₀ fills l₁ c₁) :
    l₁ = l₀ + (fills.map FillRecord.qtyLots).sum ∧
    c₁ = c₀ - (fills.map fun f => f.pxTicks * f.qtyLots + f.feeUnits).sum := by
  induction h with
  | nil => simp
  | cons inventory money _ ih =>
    simp only [List.map_cons, List.sum_cons]
    omega

end Ledger

namespace PaperBook

theorem FillTurn.ledger {side : Side} {book : L2Book} {p p' : PaperBook F}
    {fills : List FillRecord} (h : FillTurn side book p p' fills) :
    Ledger p.qLots p.cashUnits fills p'.qLots p'.cashUnits := by
  cases h with
  | nothing => exact .nil ..
  | fill h =>
    obtain ⟨hlots, hcash⟩ := h.record_after
    have hend : Ledger _ _ [] p'.qLots p'.cashUnits := .nil ..
    rw [← hlots, ← hcash] at hend ⊢
    exact .cons (hlots.trans h.lots) (hcash.trans h.cash) hend

theorem simulateFills_ledger [Double F] (p : PaperBook F) (book : L2Book) (id : UInt64) :
    Ledger p.qLots p.cashUnits (p.simulateFills book id).2
      (p.simulateFills book id).1.qLots (p.simulateFills book id).1.cashUnits := by
  obtain ⟨mid, bought, sold, hbid, hask, hfills⟩ := simulateFills_turns p book id
  rw [hfills]
  exact hbid.ledger.append hask.ledger

end PaperBook

theorem Strategy.Ticked.ledger [Double F] {s s' : Strategy F} {book : L2Book} {ev : MarketEvent}
    {o : StrategyOutput} (h : Ticked s book ev s' o) :
    Ledger s.paper.qLots s.paper.cashUnits o.fills s'.paper.qLots s'.paper.cashUnits ∧
    (o.hasQuote = true → o.quote.inventoryLots = s'.paper.qLots) := by
  have hfills := simulateFills_ledger s.paper book ev.finalUpdateId
  cases h with
  | noMid => exact ⟨.nil .., nofun⟩
  | pulled _ matched lots =>
    rw [← matched] at hfills
    exact ⟨hfills, fun _ => lots⟩
  | quoted midX2 mid sigmaP _ matched _ =>
    rw [← matched] at hfills
    exact ⟨hfills, fun _ => rfl⟩

namespace StrategyLoop
variable [Double F]

/-- The ledger along the loop. -/
structure Balanced (s : StrategyLoop F) : Prop where
  paper : s.strat.liveMode = false
  ledger : Ledger 0 0 s.out.fills s.strat.paper.qLots s.strat.paper.cashUnits
  count : s.out.summary.fills = s.out.fills.length

theorem balanced_init (p : StrategyParams F) : Balanced (init p) := ⟨rfl, .nil .., rfl⟩

omit [Double F] in
theorem Balanced.absorb {s : StrategyLoop F} (h : Balanced s) (ev : MarketEvent) :
    Balanced (s.absorb ev) := by
  have hout := out_absorb s ev
  have hstrat := strat_absorb s ev
  refine ⟨?_, ?_, by rw [hout]; exact h.count⟩ <;> rw [hstrat]
  · split <;> exact h.paper
  · rw [hout]
    split <;> exact h.ledger

theorem Balanced.tick {s : StrategyLoop F} (h : Balanced s) (ev : MarketEvent) :
    Balanced (s.tick ev) := by
  have hticked := Strategy.onEvent_ticked h.paper s.book ev
  obtain ⟨hfills, hcount⟩ := fills_tick s ev
  constructor
  · rw [strat_tick, hticked.kept.2, h.paper]
  · rw [hfills, strat_tick]
    exact h.ledger.append hticked.ledger.1
  · rw [hcount, hfills, List.length_append, h.count]

theorem balanced_after (p : StrategyParams F) (events : List MarketEvent) :
    Balanced (after p events) :=
  run_invariant (step_preserves (fun _ ev h => h.absorb ev) fun _ ev h => h.tick ev)
    (balanced_init p) events

/-- An event adds at most one quote, with the inventory that its fills left. -/
theorem quotes_step {s : StrategyLoop F} (h : Balanced s) (ev : MarketEvent) :
    (s.step ev).out.quotes = s.out.quotes ∨
    ∃ q, (s.step ev).out.quotes = s.out.quotes ++ [q] ∧
      q.inventoryLots = (s.step ev).strat.paper.qLots := by
  have habsorb : (s.absorb ev).out.quotes = s.out.quotes := by rw [out_absorb]
  unfold step
  dsimp only
  split
  · have hticked := Strategy.onEvent_ticked (h.absorb ev).paper (s.absorb ev).book ev
    rw [quotes_tick, strat_tick, habsorb]
    split
    · next hquote => exact Or.inr ⟨_, rfl, hticked.ledger.2 hquote⟩
    · exact Or.inl (List.append_nil _)
  · exact Or.inl habsorb

theorem fills_step (s : StrategyLoop F) (ev : MarketEvent) :
    s.out.fills <+: (s.step ev).out.fills := by
  have habsorb : (s.absorb ev).out.fills = s.out.fills := by rw [out_absorb]
  unfold step
  dsimp only
  split
  · rw [(fills_tick _ ev).1, habsorb]
    exact List.prefix_append ..
  · exact habsorb ▸ List.prefix_rfl

/-- The event that emitted the `k`-th quote: the quotes before it are those of the events
before it, and the inventory on it is the one after the fills up to it. -/
structure Emits (p : StrategyParams F) (events : List MarketEvent) (k : Nat) (q : QuoteRecord)
    (before : List MarketEvent) (ev : MarketEvent) : Prop where
  event : before ++ [ev] <+: events
  earlier : (after p before).out.quotes = (after p events).out.quotes.take k
  upTo : (after p (before ++ [ev])).out.quotes = (after p events).out.quotes.take (k + 1)
  fills : (after p (before ++ [ev])).out.fills <+: (after p events).out.fills
  lots : q.inventoryLots = (after p (before ++ [ev])).strat.paper.qLots

theorem exists_emits (p : StrategyParams F) (events : List MarketEvent) (k : Nat) (q : QuoteRecord)
    (hk : (after p events).out.quotes[k]? = some q) :
    ∃ before ev, Emits p events k q before ev := by
  -- on the events, latest last: the quote is an earlier one, or the one the last event added
  induction events using List.reverseRecOn with
  | nil => cases hk
  | append_singleton events ev ih =>
    have hgrow : (after p events).out.quotes[k]? = some q →
        (after p events).out.quotes <+: (after p (events ++ [ev])).out.quotes →
        ∃ before ev', Emits p (events ++ [ev]) k q before ev' := by
      intro hold hmore
      obtain ⟨before, ev', h⟩ := ih hold
      obtain ⟨hlt, -⟩ := List.getElem?_eq_some_iff.mp hold
      obtain ⟨more, hquotes⟩ := hmore
      refine ⟨before, ev', h.event.trans (List.prefix_append ..), ?_, ?_, ?_, h.lots⟩
      · rw [h.earlier, ← hquotes, List.take_append_of_le_length (Nat.le_of_lt hlt)]
      · rw [h.upTo, ← hquotes, List.take_append_of_le_length hlt]
      · refine h.fills.trans ?_
        rw [after_concat]
        exact fills_step _ ev
    rcases quotes_step (balanced_after p events) ev with hsame | ⟨q', hnew, hlots⟩
    · have hkept : (after p (events ++ [ev])).out.quotes = (after p events).out.quotes := by
        rw [after_concat, hsame]
      rw [hkept] at hk
      exact hgrow hk (hkept ▸ List.prefix_rfl)
    · rw [after_concat, hnew] at hk
      by_cases hlt : k < (after p events).out.quotes.length
      · rw [List.getElem?_append_left hlt] at hk
        refine hgrow hk ?_
        rw [after_concat, hnew]
        exact List.prefix_append ..
      · have hat : k = (after p events).out.quotes.length := by
          have hbound := (List.getElem?_eq_some_iff.mp hk).1
          rw [List.length_append, List.length_singleton] at hbound
          omega
        subst hat
        rw [List.getElem?_concat_length] at hk
        obtain rfl := Option.some.inj hk
        refine ⟨events, ev, List.prefix_rfl, ?_, ?_, List.prefix_rfl, ?_⟩
        · rw [after_concat, hnew, List.take_left]
        · rw [after_concat, hnew, List.take_of_length_le (by simp)]
        · rw [after_concat]
          exact hlots

end StrategyLoop

/-- **The fill stream is an exact ledger.**  Whatever the events and the fees, the fill
records continue one another from an empty account to the final inventory and cash, which
are the sums of the entries; the summary counts them; and the `k`-th quote record, emitted
by the last event of `before ++ [ev]`, shows the inventory of the last fill up to that
event. -/
theorem fill_stream_ledger [Double F] (p : StrategyParams F) (events : List MarketEvent) :
    let r := replayStrategy events p
    Ledger 0 0 r.fills r.summary.finalInventory r.summary.finalCashUnits ∧
    r.summary.finalInventory = (r.fills.map FillRecord.qtyLots).sum ∧
    r.summary.finalCashUnits =
      -(r.fills.map fun f => f.pxTicks * f.qtyLots + f.feeUnits).sum ∧
    r.summary.fills = r.fills.length ∧
    ∀ k q, r.quotes[k]? = some q → ∃ before ev,
      before ++ [ev] <+: events ∧
      (replayStrategy before p).quotes = r.quotes.take k ∧
      (replayStrategy (before ++ [ev]) p).quotes = r.quotes.take (k + 1) ∧
      (replayStrategy (before ++ [ev]) p).fills <+: r.fills ∧
      q.inventoryLots = ((replayStrategy (before ++ [ev]) p).fills.getLast?.map
        FillRecord.inventoryAfter).getD 0 := by
  intro r
  have hbalanced := StrategyLoop.balanced_after p events
  obtain ⟨hlots, hcash⟩ := hbalanced.ledger.totals
  refine ⟨hbalanced.ledger, ?_, ?_, hbalanced.count, ?_⟩
  · rw [Int.zero_add] at hlots
    exact hlots
  · rw [Int.zero_sub] at hcash
    exact hcash
  · intro k q hk
    obtain ⟨before, ev, h⟩ := StrategyLoop.exists_emits p events k q hk
    refine ⟨before, ev, h.event, h.earlier, h.upTo, h.fills, ?_⟩
    exact h.lots.trans (StrategyLoop.balanced_after p (before ++ [ev])).ledger.last

/-! ## A fill belongs to the quote of the tick before -/

def QuoteRecord.Active (q : QuoteRecord) : Side → Prop
  | .kBid => Strategy.BidActive q
  | .kAsk => Strategy.AskActive q

theorem QuoteRecord.active_of_qty {q : QuoteRecord} {side : Side} (h : 0 < q.qty side) :
    q.Active side := by
  cases side with
  | kBid => exact Or.inr (Int.ne_of_gt h)
  | kAsk => exact Or.inr (Int.ne_of_gt h)

/-- With a mid price, both sides of the book have a best level. -/
theorem L2Book.opposite_of_midX2 {book : L2Book} {midX2 : Int64} (h : book.midX2 = some midX2)
    (side : Side) : ∃ l, book.opposite side = some l := by
  unfold L2Book.midX2 at h
  cases hbid : book.bestBid with
  | none => simp [hbid] at h
  | some bb =>
    cases hask : book.bestAsk with
    | none => simp [hbid, hask] at h
    | some ba =>
      cases side with
      | kBid => exact ⟨ba, hask⟩
      | kAsk => exact ⟨bb, hbid⟩

/-- The fill `f`, made against `book`, is one of the quote `q` that was placed against
`placed`. -/
structure Provenance (placed : L2Book) (q : QuoteRecord) (book : L2Book) (f : FillRecord) :
    Prop where
  active : q.Active f.side
  px : f.pxTicks = q.px f.side
  direction : 0 < f.side.sign * f.qtyLots
  le_quoted : (f.qtyLots.natAbs : Int) ≤ q.qty f.side
  unreached : ∃ l, placed.opposite f.side = some l ∧
    ¬ f.side.reaches l.pxTicks.toInt (q.px f.side)
  reached : ∃ l, book.opposite f.side = some l ∧ (f.qtyLots.natAbs : Int) ≤ l.qtyLots.toInt ∧
    f.side.reaches l.pxTicks.toInt f.pxTicks

namespace PaperBook

/-- The quotes that rest are those of the record `q`, placed out of reach of the book. -/
def Shows (placed : L2Book) (q : QuoteRecord) (p : PaperBook F) : Prop :=
  ∀ side, (p.resting side).active = true →
    q.px side = (p.resting side).pxTicks ∧ q.qty side = (p.resting side).qtyLots ∧
    ∃ l, placed.opposite side = some l ∧ ¬ side.reaches l.pxTicks.toInt (p.resting side).pxTicks

theorem shows_of_inactive {placed : L2Book} {q : QuoteRecord} {p : PaperBook F}
    (h : ∀ side, (p.resting side).active = false) : Shows placed q p := by
  intro side hactive
  rw [h side] at hactive
  cases hactive

/-- Both halves of `SimulateFills` fill the quotes that rest when it is called. -/
theorem fill_of_mem [Double F] {p : PaperBook F} {book : L2Book} {id : UInt64} {f : FillRecord}
    (h : f ∈ (p.simulateFills book id).2) :
    ∃ (before after : PaperBook F) (n : Int), before.resting f.side = p.resting f.side ∧
      Fill f.side book before after n f := by
  obtain ⟨mid, bought, sold, hbid, hask, hfills⟩ := simulateFills_turns p book id
  rw [hfills] at h
  rcases List.mem_append.mp h with hmem | hmem
  · cases hbid with
    | nothing => cases hmem
    | fill hfill =>
      obtain rfl := List.mem_singleton.mp hmem
      rw [hfill.record_side]
      exact ⟨p, mid, _, rfl, hfill⟩
  · have hother : mid.resting .kAsk = p.resting .kAsk := hbid.other_rest
    generalize (p.simulateFills book id).1 = p' at hask
    cases hask with
    | nothing => cases hmem
    | fill hfill =>
      obtain rfl := List.mem_singleton.mp hmem
      rw [hfill.record_side]
      exact ⟨mid, p', _, hother, hfill⟩

theorem sides_nodup [Double F] (p : PaperBook F) (book : L2Book) (id : UInt64) :
    ((p.simulateFills book id).2.map FillRecord.side).Nodup := by
  obtain ⟨mid, bought, sold, hbid, hask, hfills⟩ := simulateFills_turns p book id
  rw [hfills]
  generalize (p.simulateFills book id).1 = p' at hask
  cases hbid with
  | nothing =>
    cases hask with
    | nothing => exact List.nodup_nil
    | fill hsell => exact List.nodup_cons.mpr ⟨nofun, List.nodup_nil⟩
  | fill hbuy =>
    cases hask with
    | nothing => exact List.nodup_cons.mpr ⟨nofun, List.nodup_nil⟩
    | fill hsell => simp [hbuy.record_side, hsell.record_side]

theorem Shows.provenance [Double F] {placed : L2Book} {q : QuoteRecord} {p : PaperBook F}
    (h : Shows placed q p) {book : L2Book} {id : UInt64} {f : FillRecord}
    (hf : f ∈ (p.simulateFills book id).2) : Provenance placed q book f := by
  obtain ⟨before, after, n, hrest, hfill⟩ := fill_of_mem hf
  have hactive := hfill.active
  rw [hrest] at hactive
  obtain ⟨hpx, hqty, hunreached⟩ := h f.side hactive
  have hn : (f.qtyLots.natAbs : Int) = n := by
    rw [hfill.record_qty, Side.natAbs_sign_mul]
    exact Int.natAbs_of_nonneg (Int.le_of_lt hfill.positive)
  have hle : n ≤ q.qty f.side := by
    rw [hqty, ← hrest]
    exact hfill.le_quote
  have hat : f.pxTicks = (p.resting f.side).pxTicks := hrest ▸ hfill.record_px
  refine ⟨?_, hat.trans hpx.symm, ?_, hn ▸ hle, ?_, ?_⟩
  · exact QuoteRecord.active_of_qty (Int.lt_of_lt_of_le hfill.positive hle)
  · rw [hfill.record_qty, Side.sign_mul_sign]
    exact hfill.positive
  · rw [hpx]
    exact hunreached
  · rw [hn, hfill.record_px]
    exact hfill.displayed

end PaperBook

namespace Strategy
variable [Double F]

/-- The quotes that a tick leaves resting are those of the record it emits. -/
theorem Ticked.shows {s s' : Strategy F} {book : L2Book} {ev : MarketEvent} {o : StrategyOutput}
    (h : Ticked s book ev s' o) (hpos : Positive book) :
    Shows book o.quote s'.paper ∧
      ∀ side, (s'.paper.resting side).active = true → o.hasQuote = true := by
  have hpulled : ∀ (p : PaperBook F) side, (p.pullQuotes.resting side).active = true → False := by
    intro p side hactive
    rw [pullQuotes_inactive] at hactive
    cases hactive
  cases h with
  | noMid =>
    exact ⟨shows_of_inactive (pullQuotes_inactive _), fun side h => (hpulled _ side h).elim⟩
  | pulled => exact ⟨shows_of_inactive (pullQuotes_inactive _), fun _ _ => rfl⟩
  | @quoted t midX2 mid sigmaP kept matched shown =>
    refine ⟨fun side hactive => ?_, fun _ _ => rfl⟩
    obtain ⟨hpx, hqty⟩ := requote_shown t ev midX2 mid sigmaP _ _ side hactive
    obtain ⟨l, hl⟩ := L2Book.opposite_of_midX2 shown side
    have hpost := (requote_postOnly t ev midX2 mid sigmaP hpos).2
    refine ⟨hpx, hqty, l, hl, ?_⟩
    cases side with
    | kBid => exact Int.not_le.mpr (hpost.bid_below hactive l hl)
    | kAsk => exact Int.not_le.mpr (hpost.ask_above hactive l hl)

theorem Ticked.fills {s s' : Strategy F} {book : L2Book} {ev : MarketEvent} {o : StrategyOutput}
    (h : Ticked s book ev s' o) :
    o.fills = [] ∨ o.fills = (s.paper.simulateFills book ev.finalUpdateId).2 := by
  cases h with
  | noMid => exact Or.inl rfl
  | pulled => exact Or.inr rfl
  | quoted => exact Or.inr rfl

/-- A call on a strategy in paper mode, over a book with positive prices. -/
def Op.Paper : Op → Prop
  | .onEvent book _ => Positive book
  | .onExec _ => False
  | .onResync => True

theorem liveMode_run (p : StrategyParams F) (ops : List Op) :
    (run step (new p false) ops).liveMode = false := by
  refine run_invariant (I := fun s : Strategy F => s.liveMode = false) (fun s op h => ?_) rfl ops
  cases op with
  | onEvent book ev => exact (onEvent_ticked h book ev).kept.2.trans h
  | onExec e => exact h
  | onResync => exact h

/-- **Paper fills have provenance.**  In every paper run, a fill of an `OnEvent` call
belongs to the quote record of the call immediately before it, which was an `OnEvent`: at
its price, within its size and the size now displayed, out of reach of the book when the
quote was placed and within reach now.  No event fills a side twice. -/
theorem paper_fills_provenance (p : StrategyParams F) (ops : List Op) (hops : ∀ op ∈ ops, op.Paper)
    (book : L2Book) (ev : MarketEvent) :
    let o := ((run step (new p false) ops).onEvent book ev).2
    (∀ f ∈ o.fills, ∃ earlier placed ev₀, ops = earlier ++ [.onEvent placed ev₀] ∧
      let o₀ := ((run step (new p false) earlier).onEvent placed ev₀).2
      o₀.hasQuote = true ∧ Provenance placed o₀.quote book f) ∧
    (o.fills.map FillRecord.side).Nodup := by
  intro o
  rcases (onEvent_ticked (liveMode_run p ops) book ev).fills with hnone | hfills
  · show (∀ f ∈ o.fills, _) ∧ (o.fills.map _).Nodup
    rw [hnone]
    exact ⟨nofun, List.nodup_nil⟩
  refine ⟨fun f hf => ?_, ?_⟩
  case refine_2 =>
    show (o.fills.map _).Nodup
    rw [hfills]
    exact sides_nodup ..
  change f ∈ o.fills at hf
  rw [hfills] at hf
  -- a fill needs a resting quote, so the last call was a tick
  obtain ⟨before, after, n, hrest, hfill⟩ := fill_of_mem hf
  have hactive := hfill.active
  rw [hrest] at hactive
  rcases List.eq_nil_or_concat ops with rfl | ⟨earlier, op, hlast⟩
  · cases hside : f.side <;> rw [hside] at hactive <;> cases hactive
  rw [List.concat_eq_append] at hlast
  subst hlast
  rw [run_append] at hf hactive
  cases op with
  | onEvent placed ev₀ =>
    have hlast := onEvent_ticked (liveMode_run p earlier) placed ev₀
    have hpos : Positive placed := hops (.onEvent placed ev₀) (by simp)
    obtain ⟨hshows, hquote⟩ := hlast.shows hpos
    exact ⟨earlier, placed, ev₀, by simp, hquote f.side hactive, hshows.provenance hf⟩
  | onExec e => exact (hops (.onExec e) (by simp)).elim
  | onResync =>
    have hpulled : ((run step (run step (new p false) earlier) [.onResync]).paper.resting
        f.side).active = false := pullQuotes_inactive ..
    rw [hpulled] at hactive
    cases hactive

/-- The narrow book after four lots have come down to the bid. -/
def dippedBook : L2Book := (narrowBook.apply .kAsk 101 4).1

/-- The narrow book is quoted at 101 and 102; the four lots then fill the bid. -/
theorem paper_fills_provenance_dip :
    let quoted : List Op := [.onEvent narrowBook MarketEvent.zero]
    let o := ((run step (new quoteAtOnce false) quoted).onEvent dippedBook MarketEvent.zero).2
    o.fills.map FillRecord.qtyLots = [4] ∧
    ∀ f ∈ o.fills, ∃ earlier placed ev₀, quoted = earlier ++ [.onEvent placed ev₀] ∧
      let o₀ := ((run step (new quoteAtOnce false) earlier).onEvent placed ev₀).2
      o₀.hasQuote = true ∧ Provenance placed o₀.quote dippedBook f := by
  refine ⟨by decide +kernel, (paper_fills_provenance quoteAtOnce _ ?_ dippedBook _).1⟩
  intro op hop
  obtain rfl := List.mem_singleton.mp hop
  exact positive_narrowBook

end Strategy
end
end Asmm
