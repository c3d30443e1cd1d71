import Mathlib.Algebra.BigOperators.Group.List.Basic
import Mathlib.Data.List.Nodup
import CryptoBook.OmsDiscipline
import CryptoBook.RealFills

/-! # Trading live

In live mode the inventory that decides which sides are quoted lags behind the exchange: an
order may have been executed while its report is still on the way.  A `Trader` is the strategy
in live mode with the order manager behind it, each quote handed to `Oms::Reconcile` and each
execution report to both of them.

What carries the bound is the exposure of an order: the inventory together with what is left
of the order stays within one quote of the soft limit (`Covered`).  A side is quoted only below
the limit, an order is placed only where none is outstanding, and a fill moves lots from the
order to the inventory.  So the bound of paper trading holds live, and not only for the
inventory the strategy knows of: the reports on the way cannot lead out of it. -/
namespace Asmm
open Runs Entry

/-! ## What is left of an order -/

namespace Entry

/-- The lots a report in the history executes of an order. -/
def lotsOf (id : Nat) : Entry → Int
  | .exec e => if e.clientId = id ∧ 0 < e.lastQtyLots then e.lastQtyLots else 0
  | _ => 0

/-- The lots executed of an order, as far as they are reported. -/
def executed (log : List Entry) (id : Nat) : Int := (log.map (lotsOf id)).sum

/-- What is left of an order. -/
def remaining (log : List Entry) (c : OrderCommand) : Int := c.qtyLots - executed log c.clientId

theorem executed_concat (log : List Entry) (x : Entry) (id : Nat) :
    executed (log ++ [x]) id = executed log id + lotsOf id x := by
  simp [executed]

/-- Outstanding orders have been placed. -/
theorem placed_of_outstanding {log : List Entry} {c : OrderCommand} (hc : c ∈ outstanding log) :
    c ∈ placed log := by
  induction log using List.reverseRecOn with
  | nil => cases hc
  | append_singleton log x ih =>
    rw [outstanding_concat] at hc
    rw [placed_concat, List.mem_append]
    cases x with
    | sent c' o =>
      by_cases hplace : c'.kind = .kPlace
      · rw [track, if_pos hplace] at hc
        rcases List.mem_append.mp hc with hold | hnew
        · exact Or.inl (ih hold)
        · obtain rfl := List.mem_singleton.mp hnew
          exact Or.inr (by simp [placed, commands, hplace])
      · rw [track, if_neg hplace] at hc
        exact Or.inl (ih hc)
    | exec e => exact Or.inl (ih (mem_of_mem_track (by rintro c o ⟨⟩) hc))
    | refused id => exact Or.inl (ih (mem_of_mem_track (by rintro c o ⟨⟩) hc))

end Entry

/-- What a round of `Reconcile` adds to the history: nothing, or a command, and a place is for
the wanted quantity under the next id. -/
theorem Desk.reconcileSide_log (d : Desk) (side : Side) (px qty tsNs : Int) :
    (d.reconcileSide side px qty tsNs).log = d.log ∧
      (d.reconcileSide side px qty tsNs).nextClientId = d.nextClientId ∨
    ∃ c, (d.reconcileSide side px qty tsNs).log = d.log ++ [.sent c d.oms] ∧
      d.nextClientId ≤ (d.reconcileSide side px qty tsNs).nextClientId ∧
      (c.kind = .kPlace →
        c.side = side ∧ c.qtyLots = qty ∧ c.clientId = d.nextClientId ∧ px ≠ 0) := by
  have hcancel : ∀ i, ∃ c, d.log ++ (d.oms.cancelSlot i tsNs d.nextClientId).out.map
      (fun c => Entry.sent c d.oms) = d.log ++ [.sent c d.oms] ∧
      d.nextClientId ≤ (d.oms.cancelSlot i tsNs d.nextClientId).nextClientId ∧
      (c.kind = .kPlace →
        c.side = side ∧ c.qtyLots = qty ∧ c.clientId = d.nextClientId ∧ px ≠ 0) :=
    fun i => ⟨_, rfl, Nat.le_refl _, by rintro ⟨⟩⟩
  have hnothing : d.log ++ ([] : List OrderCommand).map (fun c => Entry.sent c d.oms) = d.log ∧
      d.nextClientId = d.nextClientId := ⟨List.append_nil _, rfl⟩
  unfold reconcileSide Oms.reconcileSide
  dsimp only
  cases d.oms.sideSlot side with
  | none =>
    dsimp only
    by_cases hpx : px = 0
    · rw [if_pos hpx]
      exact Or.inl hnothing
    · rw [if_neg hpx]
      unfold Oms.emitPlace
      cases d.oms.freeSlot with
      | none => exact Or.inl hnothing
      | some i => exact Or.inr ⟨_, rfl, Nat.le_succ _, fun _ => ⟨rfl, rfl, rfl, hpx⟩⟩
  | some i =>
    dsimp only
    by_cases hpx : px = 0
    · rw [if_pos hpx]
      split
      · exact Or.inr (hcancel i)
      · exact Or.inl hnothing
    · rw [if_neg hpx]
      split
      · exact Or.inl hnothing
      · split
        · exact Or.inr (hcancel i)
        · exact Or.inl hnothing

/-! ## The strategy in live mode -/

namespace Strategy
variable {F : Type} [Double F]

/-- A side that a record shows is left resting. -/
theorem requote_active (t : Strategy F) (ev : MarketEvent) (midX2 : Int64) (mid sigmaP : F)
    (bb ba : Int) {side : Side} :
    let r := t.requote ev midX2 mid sigmaP bb ba
    r.2.px side ≠ 0 → (r.1.paper.resting side).active = true := by
  intro r hpx
  by_contra hnot
  refine hpx ?_
  cases side with
  | kBid => exact if_neg hnot
  | kAsk => exact if_neg hnot

/-- **A tick in live mode** keeps the inventory, and quotes a side only below the soft limit
and with the full size. -/
theorem onEvent_live {s : Strategy F} (hlive : s.liveMode = true) (book : L2Book)
    (ev : MarketEvent) :
    let r := s.onEvent book ev
    r.1.p = s.p ∧ r.1.liveMode = true ∧ r.1.paper.qLots = s.paper.qLots ∧
    ∀ side, r.2.quote.px side ≠ 0 →
      side.sign * s.paper.qLots < s.p.qMaxLots ∧ r.2.quote.qty side = s.p.quoteSizeLots := by
  unfold onEvent
  cases book.midX2 with
  | none => exact ⟨rfl, hlive, rfl, by rintro (_ | _) h <;> exact absurd rfl h⟩
  | some midX2 =>
    simp only [hlive, if_true]
    split
    · exact ⟨rfl, rfl, rfl, by rintro (_ | _) h <;> exact absurd rfl h⟩
    · refine ⟨rfl, rfl, rfl, fun side hpx => ?_⟩
      have hactive := requote_active (F := F) _ ev midX2 _ _ _ _ hpx
      obtain ⟨hbelow, hsize⟩ := requote_limit (F := F) _ ev midX2 _ _ _ _ side hactive
      obtain ⟨-, hqty⟩ := requote_shown (F := F) _ ev midX2 _ _ _ _ side hactive
      exact ⟨hbelow, hqty.trans hsize⟩

end Strategy

/-! ## The trader -/

/-- The strategy and the order manager. -/
structure Trader (F : Type) where
  strat : Strategy F
  desk : Desk

namespace Trader
variable {F : Type} [Double F]

/-- A strategy in live mode and a fresh order manager. -/
def start (p : StrategyParams F) (firstClientId : Nat) : Trader F :=
  ⟨Strategy.new p true, Desk.start firstClientId⟩

/-- What happens to the trader. -/
inductive Act where
  /-- An applied event: a quote that it makes the strategy emit goes to the order manager. -/
  | market (book : L2Book) (ev : MarketEvent) (tsNs : Int)
  /-- An empty quote goes to the order manager. -/
  | withdraw (tsNs : Int)
  | resync
  | cancelAll (tsNs : Int)
  | report (e : ExecEvent)

def step (t : Trader F) : Act → Trader F
  | .market book ev tsNs =>
      let r := t.strat.onEvent book ev
      ⟨r.1, if r.2.hasQuote then t.desk.call (.reconcile r.2.quote tsNs) else t.desk⟩
  | .withdraw tsNs => { t with desk := t.desk.call (.reconcile QuoteRecord.zero tsNs) }
  | .resync => { t with strat := t.strat.onResync }
  | .cancelAll tsNs => { t with desk := t.desk.call (.cancelAll tsNs) }
  | .report e => ⟨t.strat.onExec e, t.desk.call (.onExec e)⟩

/-- A fill of an order that is outstanding, for no more than is left of it.  What it books
counts in the order's direction and is at most the fill: a commission in the base asset comes
out of what a buy brings in, and is never more. -/
structure FillsOrder (log : List Entry) (e : ExecEvent) (c : OrderCommand) : Prop where
  placed : c ∈ outstanding log
  id_eq : c.clientId = e.clientId
  side_eq : c.side = e.side
  left : e.lastQtyLots ≤ remaining log c
  booked : 0 ≤ e.side.sign * e.lots ∧ e.side.sign * e.lots ≤ e.lastQtyLots

/-- The reports tell the truth: each one fills nothing, or an order. -/
def Honest (t : Trader F) : Act → Prop
  | .report e => e.lastQtyLots ≤ 0 ∨ ∃ c, FillsOrder t.desk.log e c
  | _ => True

/-! ## Exposure -/

/-- The inventory stays within the limit, also once an outstanding order is filled. -/
structure Covered (limit lots : Int) (log : List Entry) : Prop where
  lots_le : ∀ side : Side, side.sign * lots ≤ limit
  left : ∀ c ∈ outstanding log, 0 ≤ remaining log c
  filled : ∀ c ∈ outstanding log, c.side.sign * lots + remaining log c ≤ limit

/-- An entry that places nothing and executes nothing. -/
theorem Covered.concat {limit lots : Int} {log : List Entry} (h : Covered limit lots log)
    {x : Entry} (hplace : ∀ c o, x = .sent c o → c.kind ≠ .kPlace)
    (hlots : ∀ id, lotsOf id x = 0) : Covered limit lots (log ++ [x]) := by
  have hsame : ∀ c, remaining (log ++ [x]) c = remaining log c := by
    intro c
    rw [remaining, executed_concat, hlots, Int.add_zero]
    rfl
  have hold : ∀ c ∈ outstanding (log ++ [x]), c ∈ outstanding log := by
    intro c hc
    rw [outstanding_concat] at hc
    exact mem_of_mem_track hplace hc
  refine ⟨h.lots_le, fun c hc => ?_, fun c hc => ?_⟩
  · rw [hsame]
    exact h.left c (hold c hc)
  · rw [hsame]
    exact h.filled c (hold c hc)

/-- A place under a new id, of a quantity that the limit has room for. -/
theorem Covered.place {limit lots : Int} {log : List Entry} (h : Covered limit lots log)
    {c : OrderCommand} (o : Oms) (hfresh : executed log c.clientId = 0) (hqty : 0 ≤ c.qtyLots)
    (hroom : c.side.sign * lots + c.qtyLots ≤ limit) :
    Covered limit lots (log ++ [.sent c o]) := by
  have hsame : ∀ c', remaining (log ++ [.sent c o]) c' = remaining log c' := by
    intro c'
    rw [remaining, executed_concat]
    exact congrArg (c'.qtyLots - ·) (Int.add_zero _)
  have hnew : remaining log c = c.qtyLots := by rw [remaining, hfresh, Int.sub_zero]
  have hcases : ∀ c' ∈ outstanding (log ++ [.sent c o]), c' ∈ outstanding log ∨ c' = c := by
    intro c' hc'
    rw [outstanding_concat, track] at hc'
    split at hc'
    · exact (List.mem_append.mp hc').imp id List.mem_singleton.mp
    · exact Or.inl hc'
  refine ⟨h.lots_le, fun c' hc' => ?_, fun c' hc' => ?_⟩
  · rw [hsame]
    rcases hcases c' hc' with hold | rfl
    · exact h.left c' hold
    · rwa [hnew]
  · rw [hsame]
    rcases hcases c' hc' with hold | rfl
    · exact h.filled c' hold
    · rwa [hnew]

/-- Two outstanding orders are on different sides and have different ids. -/
theorem outstanding_apart {d : Desk} (h : d.Accounting) {c c' : OrderCommand}
    (hc : c ∈ outstanding d.log) (hc' : c' ∈ outstanding d.log) (hne : c' ≠ c) :
    c'.side = c.side.other ∧ c'.clientId ≠ c.clientId := by
  have hsymm : Std.Symm fun a b : OrderCommand => a.side ≠ b.side := ⟨fun _ _ h => h.symm⟩
  refine ⟨(c.side.eq_or_eq_other c'.side).resolve_left ?_, fun hid => hne ?_⟩
  · exact (Desk.outstanding_sides h.lawful).forall hc' hc hne
  · exact List.inj_on_of_nodup_map h.ids_nodup (placed_of_outstanding hc')
      (placed_of_outstanding hc) hid

/-- **A fill moves lots from the order to the inventory.**  Any other order is on the other
side, and gains room. -/
theorem Covered.fill {limit lots : Int} {d : Desk} (h : Covered limit lots d.log)
    (hacc : d.Accounting) {e : ExecEvent} {c : OrderCommand} (hfill : FillsOrder d.log e c)
    (hpos : 0 < e.lastQtyLots) : Covered limit (lots + e.lots) (d.log ++ [.exec e]) := by
  obtain ⟨hplaced, hid, hside, hleft, hnonneg, hle⟩ := hfill
  have hroom := h.filled c hplaced
  have hother : e.side.other.sign * (lots + e.lots) ≤ e.side.other.sign * lots := by
    rw [Int.mul_add, Side.sign_other, Int.neg_mul, Int.neg_mul]
    omega
  -- the order is left with less by the fill, and any other with what it had
  have hthis : remaining (d.log ++ [.exec e]) c = remaining d.log c - e.lastQtyLots := by
    rw [remaining, executed_concat, lotsOf, if_pos ⟨hid.symm, hpos⟩, remaining, Int.sub_sub]
  have hthat : ∀ c', c'.clientId ≠ c.clientId →
      remaining (d.log ++ [.exec e]) c' = remaining d.log c' := by
    intro c' hne
    rw [remaining, executed_concat, lotsOf, if_neg fun h => hne (h.1.symm.trans hid.symm),
      Int.add_zero]
    rfl
  have hold : ∀ c' ∈ outstanding (d.log ++ [.exec e]), c' ∈ outstanding d.log := by
    intro c' hc'
    rw [outstanding_concat] at hc'
    exact mem_of_mem_track (by rintro c o ⟨⟩) hc'
  rw [hside] at hroom
  refine ⟨fun side => ?_, fun c' hc' => ?_, fun c' hc' => ?_⟩
  · rcases e.side.eq_or_eq_other side with rfl | rfl
    · rw [Int.mul_add]
      omega
    · exact Int.le_trans hother (h.lots_le _)
  · by_cases hne : c' = c
    · rw [hne, hthis]
      omega
    · rw [hthat c' (outstanding_apart hacc hplaced (hold c' hc') hne).2]
      exact h.left c' (hold c' hc')
  · by_cases hne : c' = c
    · rw [hne, hthis, hside, Int.mul_add]
      omega
    · obtain ⟨hside', hid'⟩ := outstanding_apart hacc hplaced (hold c' hc') hne
      have hroom' := h.filled c' (hold c' hc')
      rw [hthat c' hid', hside', hside]
      rw [hside', hside] at hroom'
      omega

/-! ## Runs -/

/-- What holds after every act. -/
structure Inv (p : StrategyParams F) (t : Trader F) : Prop where
  params : t.strat.p = p
  live : t.strat.liveMode = true
  accounting : t.desk.Accounting
  /-- Only orders that have been placed are filled. -/
  known : ∀ e, .exec e ∈ t.desk.log → 0 < e.lastQtyLots → e.clientId < t.desk.nextClientId
  covered : Covered p.maxInventory t.strat.paper.qLots t.desk.log

omit [Double F] in
/-- No lots of an order have been executed before it is placed. -/
theorem executed_of_unknown {log : List Entry} {id : Nat}
    (h : ∀ e, .exec e ∈ log → 0 < e.lastQtyLots → e.clientId < id) : executed log id = 0 := by
  refine List.sum_eq_zero fun n hn => ?_
  obtain ⟨x, hx, rfl⟩ := List.mem_map.mp hn
  cases x with
  | sent | refused => rfl
  | exec e =>
    refine if_neg fun ⟨hid, hpos⟩ => ?_
    exact Nat.lt_irrefl _ (hid ▸ h e hx hpos)

omit [Double F] in
/-- A round of `Reconcile` for a side that is wanted only below the soft limit. -/
theorem Inv.reconcileSide {p : StrategyParams F} {t : Trader F} (h : Inv p t)
    (hsize : 0 ≤ p.quoteSizeLots) (side : Side) (px qty tsNs : Int)
    (hwant : px ≠ 0 → side.sign * t.strat.paper.qLots < p.qMaxLots ∧ qty = p.quoteSizeLots) :
    Inv p { t with desk := t.desk.reconcileSide side px qty tsNs } := by
  have hacc := (Desk.reconcileSide_turn t.desk side px qty tsNs).accounting h.accounting
  rcases t.desk.reconcileSide_log side px qty tsNs with ⟨hlog, hnext⟩ | ⟨c, hlog, hnext, hplace⟩
  · refine ⟨h.params, h.live, hacc, fun e he hpos => ?_, ?_⟩
    · rw [hlog] at he
      rw [hnext]
      exact h.known e he hpos
    · rw [hlog]
      exact h.covered
  · refine ⟨h.params, h.live, hacc, fun e he hpos => ?_, ?_⟩
    · rw [hlog] at he
      refine Nat.lt_of_lt_of_le (h.known e ?_ hpos) hnext
      simpa using he
    · rw [hlog]
      by_cases hkind : c.kind = .kPlace
      · obtain ⟨hside, hqty, hid, hpx⟩ := hplace hkind
        obtain ⟨hbelow, hfull⟩ := hwant hpx
        refine h.covered.place t.desk.oms ?_ ?_ ?_
        · rw [hid]
          exact executed_of_unknown h.known
        · omega
        · rw [hside, hqty, hfull, StrategyParams.maxInventory]
          omega
      · refine h.covered.concat ?_ fun _ => rfl
        rintro c' o ⟨⟩
        exact hkind

omit [Double F] in
theorem Inv.reconcile {p : StrategyParams F} {t : Trader F} (h : Inv p t)
    (hsize : 0 ≤ p.quoteSizeLots) (desired : QuoteRecord) (tsNs : Int)
    (hwant : ∀ side : Side, desired.px side ≠ 0 →
      side.sign * t.strat.paper.qLots < p.qMaxLots ∧ desired.qty side = p.quoteSizeLots) :
    Inv p { t with desk := t.desk.call (.reconcile desired tsNs) } :=
  (h.reconcileSide hsize .kBid _ _ tsNs (hwant .kBid)).reconcileSide hsize .kAsk _ _ tsNs
    (hwant .kAsk)

omit [Double F] in
/-- A report that tells the truth. -/
theorem Inv.report {p : StrategyParams F} {t : Trader F} (h : Inv p t) {e : ExecEvent}
    (hhonest : e.lastQtyLots ≤ 0 ∨ ∃ c, FillsOrder t.desk.log e c) :
    Inv p ⟨t.strat.onExec e, t.desk.call (.onExec e)⟩ := by
  have hlots : (t.strat.onExec e).paper.qLots = t.strat.paper.qLots + e.lots :=
    (t.strat.paper.applyRealFill_books e).1
  refine ⟨h.params, h.live, h.accounting.onExec e, fun e' he' hpos => ?_, ?_⟩
  · rcases List.mem_append.mp he' with hold | hnew
    · exact h.known e' hold hpos
    · obtain ⟨rfl⟩ : Entry.exec e' = .exec e := List.mem_singleton.mp hnew
      rcases hhonest with hnone | ⟨c, hfill⟩
      · omega
      · rw [← hfill.id_eq]
        exact h.accounting.ids_lt c (placed_of_outstanding hfill.placed)
  · show Covered _ (t.strat.onExec e).paper.qLots (t.desk.log ++ [.exec e])
    rw [hlots]
    by_cases hpos : 0 < e.lastQtyLots
    · obtain ⟨c, hfill⟩ := hhonest.resolve_left (Int.not_le.mpr hpos)
      exact h.covered.fill h.accounting hfill hpos
    · rw [ExecEvent.lots, if_neg hpos, Int.add_zero]
      refine h.covered.concat (by rintro c o ⟨⟩) fun id => ?_
      exact if_neg fun hid => hpos hid.2

theorem Inv.step {p : StrategyParams F} (hsize : 0 ≤ p.quoteSizeLots) {t : Trader F} (h : Inv p t)
    {a : Act} (hhonest : Honest t a) : Inv p (t.step a) := by
  cases a with
  | market book ev tsNs =>
    obtain ⟨hp, hlive, hlots, hquote⟩ := Strategy.onEvent_live h.live book ev
    have hticked : Inv p ⟨(t.strat.onEvent book ev).1, t.desk⟩ :=
      ⟨hp.trans h.params, hlive, h.accounting, h.known, hlots ▸ h.covered⟩
    unfold Trader.step
    dsimp only
    split
    · refine hticked.reconcile hsize _ tsNs fun side hpx => ?_
      rw [← h.params, hlots]
      exact hquote side hpx
    · exact hticked
  | withdraw tsNs =>
    exact h.reconcile hsize _ tsNs (by rintro (_ | _) hpx <;> exact absurd rfl hpx)
  | resync => exact ⟨h.params, h.live, h.accounting, h.known, h.covered⟩
  | cancelAll tsNs =>
    refine ⟨h.params, h.live, h.accounting.cancelAll tsNs, fun e he hpos => ?_, ?_⟩
    · rcases List.mem_append.mp he with hold | hnew
      · exact h.known e hold hpos
      · cases List.mem_singleton.mp hnew
    · exact h.covered.concat (by rintro c o ⟨⟩; exact nofun) fun _ => rfl
  | report e => exact h.report hhonest

theorem inv_start (p : StrategyParams F) (hlimit : 0 ≤ p.maxInventory) (firstClientId : Nat) :
    Inv p (start p firstClientId) where
  params := rfl
  live := rfl
  accounting := Desk.accounting_start firstClientId
  known := fun _ hexec => absurd hexec List.not_mem_nil
  covered := ⟨by rintro (_ | _) <;> simpa [start, Strategy.new, PaperBook.new] using hlimit,
    fun _ hc => absurd hc List.not_mem_nil, fun _ hc => absurd hc List.not_mem_nil⟩

/-- What the executions still unreported would add to the inventory. -/
def unreported (log : List Entry) (executions : OrderCommand → Int) : Int :=
  ((outstanding log).map fun c => c.side.sign * executions c).sum

omit [Double F] in
/-- With one order a side, executions within what is left of the orders stay covered. -/
theorem Covered.natAbs_le {limit lots : Int} {log : List Entry} (h : Covered limit lots log)
    (hsides : (outstanding log).Pairwise fun a b => a.side ≠ b.side)
    {E : OrderCommand → Int}
    (hexec : ∀ c ∈ outstanding log, 0 ≤ E c ∧ E c ≤ remaining log c) :
    ((lots + unreported log E).natAbs : Int) ≤ limit := by
  have hlong := h.lots_le .kBid
  have hshort := h.lots_le .kAsk
  have hfilled := h.filled
  suffices hbounds : -limit ≤ lots + unreported log E ∧ lots + unreported log E ≤ limit by omega
  unfold unreported
  generalize outstanding log = orders at hsides hexec hfilled
  match orders with
  | [] =>
    simp [Side.sign] at *
    omega
  | [c] =>
    obtain ⟨hnonneg, hle⟩ := hexec c List.mem_cons_self
    have hroom := hfilled c List.mem_cons_self
    cases hside : c.side <;> simp [Side.sign, hside] at * <;> omega
  | [c, c'] =>
    obtain ⟨hnonneg, hle⟩ := hexec c List.mem_cons_self
    have hroom := hfilled c List.mem_cons_self
    obtain ⟨hnonneg', hle'⟩ := hexec c' (by simp)
    have hroom' := hfilled c' (by simp)
    have hne : c.side ≠ c'.side := (List.pairwise_cons.mp hsides).1 c' (by simp)
    cases hside : c.side <;> cases hside' : c'.side <;> simp [Side.sign, hside, hside'] at * <;>
      omega
  | a :: b :: c :: rest =>
    obtain ⟨ha, htail⟩ := List.pairwise_cons.mp hsides
    have hab := ha b (by simp)
    have hac := ha c (by simp)
    have hbc := (List.pairwise_cons.mp htail).1 c (by simp)
    cases hsa : a.side <;> cases hsb : b.side <;> cases hsc : c.side <;> simp_all

/-- **Live inventory is bounded.**  Let the strategy in live mode drive the order manager
through any books, resyncs, withdrawals and kill switches, and let every execution report fill
nothing or an outstanding order within its quantity.  Then the inventory stays strictly within
one quote of the soft limit, and so does the position on the exchange, whatever part of the
outstanding orders has been executed without a report having arrived. -/
theorem live_inventory_bounded (p : StrategyParams F) (hmax : 1 ≤ p.qMaxLots)
    (hsize : 0 ≤ p.quoteSizeLots) (firstClientId : Nat) (acts : List Act)
    (hhonest : Guarded step Honest (start p firstClientId) acts) :
    let t := run step (start p firstClientId) acts
    (t.strat.paper.qLots.natAbs : Int) ≤ p.qMaxLots + p.quoteSizeLots - 1 ∧
    ∀ executions : OrderCommand → Int,
      (∀ c ∈ outstanding t.desk.log, 0 ≤ executions c ∧ executions c ≤ remaining t.desk.log c) →
      ((t.strat.paper.qLots + unreported t.desk.log executions).natAbs : Int) ≤
        p.qMaxLots + p.quoteSizeLots - 1 := by
  intro t
  have hlimit : 0 ≤ p.maxInventory := by
    unfold StrategyParams.maxInventory
    omega
  have hinv : Inv p t :=
    hhonest.invariant (fun _ _ h hg => h.step hsize hg) (inv_start p hlimit firstClientId)
  have hall := fun executions : OrderCommand → Int =>
    hinv.covered.natAbs_le (Desk.outstanding_sides hinv.accounting.lawful) (E := executions)
  refine ⟨?_, hall⟩
  have hnone := hall (fun _ => 0) fun c hc => ⟨Int.le_refl 0, hinv.covered.left c hc⟩
  simpa [unreported, StrategyParams.maxInventory] using hnone

/-- The bid placed for the first quote on the narrow book. -/
def firstBid : OrderCommand := ⟨1, 1, 101, 10, 0, .kPlace, .kBid⟩

/-- A report that fills four lots of it. -/
def partialFill : ExecEvent := ⟨1, 1, 7, 101, 4, 4, 0, 0, 0, .kPartial, .kBid, .kQuote, 0⟩

/-- The quote, and the fill. -/
def quoteAndFill : List Act :=
  [.market Strategy.narrowBook MarketEvent.zero 0, .report partialFill]

theorem partialFill_fills : FillsOrder ((start Strategy.quoteAtOnce 1).step
    (.market Strategy.narrowBook MarketEvent.zero 0)).desk.log partialFill firstBid where
  placed := by decide +kernel
  id_eq := rfl
  side_eq := rfl
  left := by decide +kernel
  booked := by decide +kernel

theorem quoteAndFill_honest : Guarded step Honest (start Strategy.quoteAtOnce 1) quoteAndFill :=
  ⟨trivial, Or.inr ⟨firstBid, partialFill_fills⟩, trivial⟩

theorem live_inventory_bounded_fill :
    (run step (start Strategy.quoteAtOnce 1) quoteAndFill).strat.paper.qLots = 4 ∧
    ((run step (start Strategy.quoteAtOnce 1) quoteAndFill).strat.paper.qLots.natAbs : Int) ≤
      109 :=
  ⟨by decide +kernel, (live_inventory_bounded Strategy.quoteAtOnce (by decide) (by decide) 1
    quoteAndFill quoteAndFill_honest).1⟩

end Trader
end Asmm
