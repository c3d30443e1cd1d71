import Mathlib.Algebra.Ring.Int.Defs
import CryptoBook.PaperLedger

/-! # Real fills

In live mode inventory and cash are moved by the execution reports of the user-data stream,
through `Strategy::OnExec` and `PaperBook::ApplyRealFill`.  A reconnect delivers reports
again.  The reports of one order carry the cumulative quantity, which tells a report that is
delivered again from a new one, but nothing reads it: every delivery is booked
(`moved_eq`).  A delivery of an order's reports is its distinct reports and the repetitions
(`Delivered`), and the account is right exactly if the repetitions come to nothing. -/
namespace Asmm
open Runs

/-! ## What a report books -/

namespace ExecEvent

/-- The commission a fill is charged in `asset`. -/
def fee (asset : CommAsset) (e : ExecEvent) : Int :=
  if 0 < e.lastQtyLots ∧ e.commAsset = asset then e.feeUnits else 0

/-- The lots a report books. -/
def lots (e : ExecEvent) : Int :=
  if 0 < e.lastQtyLots then e.side.sign * e.lastQtyLots - e.fee .kBase else 0

/-- The cash a report books. -/
def cash (e : ExecEvent) : Int :=
  if 0 < e.lastQtyLots then -(e.side.sign * (e.lastPxTicks * e.lastQtyLots)) - e.fee .kQuote else 0

end ExecEvent

section
variable {F : Type}

theorem PaperBook.applyRealFill_books (p : PaperBook F) (e : ExecEvent) :
    (p.applyRealFill e).qLots = p.qLots + e.lots ∧
    (p.applyRealFill e).cashUnits = p.cashUnits + e.cash := by
  unfold applyRealFill ExecEvent.lots ExecEvent.cash ExecEvent.fee
  by_cases hfill : 0 < e.lastQtyLots
  · rw [if_neg (Int.not_le.mpr hfill), if_pos hfill, if_pos hfill]
    cases e.side <;> cases e.commAsset <;> simp [hfill, Side.sign] <;> omega
  · rw [if_pos (Int.not_lt.mp hfill), if_neg hfill, if_neg hfill]
    exact ⟨(Int.add_zero _).symm, (Int.add_zero _).symm⟩

namespace Strategy
variable [Double F]

/-- The report of an order that a call delivers. -/
def Op.report (id : Nat) : Op → Option ExecEvent
  | .onExec e => if e.exchangeOrderId = id then some e else none
  | _ => none

/-- The reports of an order, among all calls. -/
def reports (id : Nat) (ops : List Op) : List ExecEvent := ops.filterMap (Op.report id)

/-- The change of inventory and of cash that is made for an order: what its reports change,
call by call. -/
def moved (id : Nat) (s : Strategy F) : List Op → Int × Int
  | [] => (0, 0)
  | op :: ops =>
      let s' := s.step op
      let later := moved id s' ops
      if (op.report id).isSome then
        (s'.paper.qLots - s.paper.qLots + later.1, s'.paper.cashUnits - s.paper.cashUnits + later.2)
      else later

/-- **Every delivery is booked**, whatever happens in between. -/
theorem moved_eq (id : Nat) (s : Strategy F) (ops : List Op) :
    moved id s ops =
      (((reports id ops).map ExecEvent.lots).sum, ((reports id ops).map ExecEvent.cash).sum) := by
  induction ops generalizing s with
  | nil => rfl
  | cons op ops ih =>
    rw [moved, ih]
    cases hreport : op.report id with
    | none =>
      rw [show reports id (op :: ops) = reports id ops from List.filterMap_cons_none hreport]
      rfl
    | some e =>
      obtain rfl : op = .onExec e := by
        cases op with
        | onExec e' =>
          rw [Op.report] at hreport
          split at hreport <;> cases hreport
          rfl
        | onEvent | onResync => cases hreport
      obtain ⟨hlots, hcash⟩ := s.paper.applyRealFill_books e
      have hpaper : (s.step (.onExec e)).paper = s.paper.applyRealFill e := rfl
      rw [show reports id (.onExec e :: ops) = e :: reports id ops from
        List.filterMap_cons_some hreport, hpaper, hlots, hcash]
      simp only [Option.isSome_some, if_true, List.map_cons, List.sum_cons, Prod.mk.injEq]
      omega

end Strategy

/-! ## Deliveries -/

/-- The same report, up to what the receiver puts on it. -/
def ExecEvent.Repeats (e r : ExecEvent) : Prop :=
  { e with seq := r.seq, tsRecvNs := r.tsRecvNs } = r

/-- Total filled by distinct reports. -/
def filled (reports : List ExecEvent) : Int := (reports.map ExecEvent.lastQtyLots).sum

/-- A delivery of the reports of one order: the distinct reports in order, each raising the
cumulative quantity by what it fills, and repetitions of what was delivered before. -/
inductive Delivered (side : Side) : (es distinct again : List ExecEvent) → Prop
  | nil : Delivered side [] [] []
  | new {es distinct again : List ExecEvent} {e : ExecEvent}
      (before : Delivered side es distinct again) (side_eq : e.side = side)
      (nonneg : 0 ≤ e.lastQtyLots) (grows : e.cumQtyLots = filled distinct + e.lastQtyLots) :
      Delivered side (es ++ [e]) (distinct ++ [e]) again
  | repeated {es distinct again : List ExecEvent} {e r : ExecEvent}
      (before : Delivered side es distinct again) (old : r ∈ distinct) (same : e.Repeats r) :
      Delivered side (es ++ [e]) distinct (again ++ [e])

/-- The largest cumulative quantity delivered. -/
def largestCum (es : List ExecEvent) : Int := es.foldl (fun m e => max m e.cumQtyLots) 0

/-- The account is moved by the largest cumulative quantity and by each distinct fill's
notional, apart from the commission of each distinct fill. -/
def CountedOnce (side : Side) (es distinct : List ExecEvent) (moved : Int × Int) : Prop :=
  moved.1 = side.sign * largestCum es - (distinct.map (ExecEvent.fee .kBase)).sum ∧
  moved.2 = -(side.sign * (distinct.map fun e => e.lastPxTicks * e.lastQtyLots).sum) -
    (distinct.map (ExecEvent.fee .kQuote)).sum

namespace Delivered
variable {side : Side} {es distinct again : List ExecEvent}

/-- Every report is one of the two. -/
theorem sum_eq (h : Delivered side es distinct again) (f : ExecEvent → Int) :
    (es.map f).sum = (distinct.map f).sum + (again.map f).sum := by
  induction h with
  | nil => rfl
  | new before side_eq nonneg grows ih => simp only [List.map_append, List.sum_append, ih]; omega
  | repeated before old same ih => simp only [List.map_append, List.sum_append, ih]; omega

/-- What is common to all reports. -/
theorem distinct_spec (h : Delivered side es distinct again) :
    0 ≤ filled distinct ∧ ∀ e ∈ distinct, e.side = side ∧ 0 ≤ e.lastQtyLots ∧
      e.cumQtyLots ≤ filled distinct := by
  induction h with
  | nil => exact ⟨Int.le_refl 0, by simp⟩
  | @new es distinct again e before side_eq nonneg grows ih =>
    have hfilled : filled (distinct ++ [e]) = filled distinct + e.lastQtyLots := by simp [filled]
    obtain ⟨hpos, hall⟩ := ih
    rw [hfilled]
    refine ⟨Int.add_nonneg hpos nonneg, List.forall_mem_append.mpr ⟨fun r hr => ?_, ?_⟩⟩
    · obtain ⟨hside, hqty, hcum⟩ := hall r hr
      exact ⟨hside, hqty, Int.le_trans hcum (Int.le_add_of_nonneg_right nonneg)⟩
    · exact List.forall_mem_singleton.mpr ⟨side_eq, nonneg, Int.le_of_eq grows⟩
  | repeated before old same ih => exact ih

theorem again_spec (h : Delivered side es distinct again) :
    ∀ e ∈ again, e ∈ es ∧ e.side = side ∧ 0 ≤ e.lastQtyLots := by
  induction h with
  | nil => simp
  | new before side_eq nonneg grows ih =>
    exact fun e he => ⟨List.mem_append_left _ (ih e he).1, (ih e he).2⟩
  | @repeated es distinct again e r before old same ih =>
    have hold : ∀ e' ∈ again, e' ∈ es ++ [e] ∧ e'.side = side ∧ 0 ≤ e'.lastQtyLots :=
      fun e' he' => ⟨List.mem_append_left _ (ih e' he').1, (ih e' he').2⟩
    refine List.forall_mem_append.mpr ⟨hold, List.forall_mem_singleton.mpr ⟨by simp, ?_⟩⟩
    obtain ⟨hside, hqty, -⟩ := before.distinct_spec.2 r old
    rw [← same] at hside hqty
    exact ⟨hside, hqty⟩

/-- The largest cumulative quantity is what the distinct reports fill. -/
theorem largestCum_eq (h : Delivered side es distinct again) : largestCum es = filled distinct := by
  induction h with
  | nil => rfl
  | @new es distinct again e before side_eq nonneg grows ih =>
    have hfilled : filled (distinct ++ [e]) = filled distinct + e.lastQtyLots := by simp [filled]
    rw [largestCum, List.foldl_append, hfilled]
    show max (largestCum es) e.cumQtyLots = _
    omega
  | @repeated es distinct again e r before old same ih =>
    have hcum := (before.distinct_spec.2 r old).2.2
    rw [← same] at hcum
    rw [largestCum, List.foldl_append]
    show max (largestCum es) e.cumQtyLots = _
    dsimp only at hcum
    omega

end Delivered

theorem sum_map_linear (c : Int) (f g : ExecEvent → Int) (es : List ExecEvent) :
    (es.map fun e => c * f e - g e).sum = c * (es.map f).sum - (es.map g).sum := by
  induction es with
  | nil => simp
  | cons e es ih =>
    simp only [List.map_cons, List.sum_cons, ih, Int.mul_add]
    omega

/-- Terms of one sign come to nothing only if they are nothing. -/
theorem sum_nonpos_eq_zero_iff {f : ExecEvent → Int} {es : List ExecEvent}
    (hsign : ∀ e ∈ es, f e ≤ 0) :
    (es.map f).sum ≤ 0 ∧ ((es.map f).sum = 0 ↔ ∀ e ∈ es, f e = 0) := by
  induction es with
  | nil => exact ⟨Int.le_refl 0, iff_of_true rfl (by simp)⟩
  | cons e es ih =>
    obtain ⟨hhead, htail⟩ := List.forall_mem_cons.mp hsign
    obtain ⟨hle, hiff⟩ := ih htail
    rw [List.map_cons, List.sum_cons, List.forall_mem_cons, ← hiff]
    omega

namespace Delivered
variable {side : Side} {es distinct again : List ExecEvent}

/-- The distinct reports book the total filled, their notional and their commission. -/
theorem sum_distinct (h : Delivered side es distinct again) :
    (distinct.map ExecEvent.lots).sum =
      side.sign * filled distinct - (distinct.map (ExecEvent.fee .kBase)).sum ∧
    (distinct.map ExecEvent.cash).sum =
      -(side.sign * (distinct.map fun e => e.lastPxTicks * e.lastQtyLots).sum) -
        (distinct.map (ExecEvent.fee .kQuote)).sum := by
  have hbooks : ∀ e ∈ distinct,
      e.lots = side.sign * e.lastQtyLots - e.fee .kBase ∧
      e.cash = -side.sign * (e.lastPxTicks * e.lastQtyLots) - e.fee .kQuote := by
    intro e he
    obtain ⟨rfl, hqty, -⟩ := h.distinct_spec.2 e he
    by_cases hfill : 0 < e.lastQtyLots
    · rw [ExecEvent.lots, ExecEvent.cash, if_pos hfill, if_pos hfill, Int.neg_mul]
      exact ⟨rfl, rfl⟩
    · obtain hzero : e.lastQtyLots = 0 := by omega
      simp [ExecEvent.lots, ExecEvent.cash, ExecEvent.fee, hzero]
  rw [List.map_congr_left fun e he => (hbooks e he).1,
    List.map_congr_left fun e he => (hbooks e he).2, sum_map_linear, sum_map_linear, Int.neg_mul]
  exact ⟨rfl, rfl⟩

/-- Booking every delivery is right exactly if the repetitions come to nothing. -/
theorem countedOnce_iff (h : Delivered side es distinct again) :
    CountedOnce side es distinct ((es.map ExecEvent.lots).sum, (es.map ExecEvent.cash).sum) ↔
      (again.map ExecEvent.lots).sum = 0 ∧ (again.map ExecEvent.cash).sum = 0 := by
  obtain ⟨hlots, hcash⟩ := h.sum_distinct
  unfold CountedOnce
  rw [h.largestCum_eq, ← hlots, ← hcash, h.sum_eq, h.sum_eq]
  constructor <;> rintro ⟨hl, hc⟩ <;> constructor <;> omega

/-- A repeated buy takes cash again, a repeated sell lots. -/
theorem nothing_again_iff (h : Delivered side es distinct again)
    (hpriced : ∀ e ∈ es, 0 < e.lastQtyLots → 0 < e.lastPxTicks ∧ 0 ≤ e.feeUnits) :
    ((again.map ExecEvent.lots).sum = 0 ∧ (again.map ExecEvent.cash).sum = 0) ↔
      ∀ e ∈ again, e.lastQtyLots = 0 := by
  have hfee : ∀ e ∈ again, 0 < e.lastQtyLots → ∀ asset, 0 ≤ e.fee asset := by
    intro e he hfill asset
    unfold ExecEvent.fee
    split
    · exact (hpriced e (h.again_spec e he).1 hfill).2
    · exact Int.le_refl 0
  -- what a repetition books has one sign, in cash or in lots
  have htakes : ∀ e ∈ again, (side = .kBid → e.cash ≤ 0 ∧ (e.cash = 0 → e.lastQtyLots = 0)) ∧
      (side = .kAsk → e.lots ≤ 0 ∧ (e.lots = 0 → e.lastQtyLots = 0)) := by
    intro e he
    obtain ⟨hmem, rfl, hqty⟩ := h.again_spec e he
    unfold ExecEvent.cash ExecEvent.lots
    by_cases hfill : 0 < e.lastQtyLots
    · have hnotional : 0 < e.lastPxTicks * e.lastQtyLots :=
        Int.mul_pos (hpriced e hmem hfill).1 hfill
      have hquote := hfee e he hfill .kQuote
      have hbase := hfee e he hfill .kBase
      rw [if_pos hfill, if_pos hfill]
      refine ⟨fun hside => ?_, fun hside => ?_⟩
      · rw [hside, Side.sign]
        constructor <;> omega
      · rw [hside, Side.sign]
        constructor <;> omega
    · rw [if_neg hfill, if_neg hfill]
      exact ⟨fun _ => ⟨Int.le_refl 0, fun _ => by omega⟩,
        fun _ => ⟨Int.le_refl 0, fun _ => by omega⟩⟩
  constructor
  · rintro ⟨hlots, hcash⟩ e he
    cases side with
    | kBid =>
      have hsign : ∀ e ∈ again, e.cash ≤ 0 := fun e he => ((htakes e he).1 rfl).1
      exact ((htakes e he).1 rfl).2 ((sum_nonpos_eq_zero_iff hsign).2.mp hcash e he)
    | kAsk =>
      have hsign : ∀ e ∈ again, e.lots ≤ 0 := fun e he => ((htakes e he).2 rfl).1
      exact ((htakes e he).2 rfl).2 ((sum_nonpos_eq_zero_iff hsign).2.mp hlots e he)
  · intro hzero
    have hnothing : ∀ e ∈ again, e.lots = 0 ∧ e.cash = 0 := fun e he => by
      simp [ExecEvent.lots, ExecEvent.cash, hzero e he]
    exact ⟨(sum_nonpos_eq_zero_iff fun e he => Int.le_of_eq (hnothing e he).1).2.mpr
        fun e he => (hnothing e he).1,
      (sum_nonpos_eq_zero_iff fun e he => Int.le_of_eq (hnothing e he).2).2.mpr
        fun e he => (hnothing e he).2⟩

end Delivered

/-! ## The account -/

namespace Strategy
variable [Double F]

/-- **When execution reports are counted once.**  In any run, with the reports of other orders
and market data in between, the account is moved once for each distinct report of an order
exactly if its repeated reports come to nothing.  With positive prices and no negative
commission this means that no repeated report carries a fill. -/
theorem real_fills_counted_once_iff {side : Side} {distinct again : List ExecEvent} (id : Nat)
    (s : Strategy F) (ops : List Op) (h : Delivered side (reports id ops) distinct again) :
    (CountedOnce side (reports id ops) distinct (moved id s ops) ↔
      (again.map ExecEvent.lots).sum = 0 ∧ (again.map ExecEvent.cash).sum = 0) ∧
    ((∀ e ∈ reports id ops, 0 < e.lastQtyLots → 0 < e.lastPxTicks ∧ 0 ≤ e.feeUnits) →
      (CountedOnce side (reports id ops) distinct (moved id s ops) ↔
        ∀ e ∈ again, e.lastQtyLots = 0)) := by
  rw [moved_eq]
  exact ⟨h.countedOnce_iff, fun hpriced => h.countedOnce_iff.trans (h.nothing_again_iff hpriced)⟩

/-- A report of order 7 that three lots were bought at 100. -/
def bought : ExecEvent :=
  ⟨1, 1, 7, 100, 3, 3, 0, 0, 0, .kFilled, .kBid, .kQuote, 0⟩

theorem bought_delivered : Delivered .kBid ([] ++ [bought]) ([] ++ [bought]) [] :=
  .new .nil rfl (by decide) rfl

/-- The acknowledgement of order 7, and the report of a lot bought before the other two. -/
def acked : ExecEvent :=
  { bought with lastPxTicks := 0, lastQtyLots := 0, cumQtyLots := 0, kind := .kAck }

def boughtOne : ExecEvent := { bought with lastQtyLots := 1, cumQtyLots := 1, kind := .kPartial }

def boughtRest : ExecEvent := { bought with lastPxTicks := 101, lastQtyLots := 2 }

/-- Two fills, the acknowledgement twice. -/
theorem ack_twice_delivered :
    Delivered .kBid [acked, boughtOne, acked, boughtRest] [acked, boughtOne, boughtRest]
      [acked] := by
  have hack : Delivered .kBid ([] ++ [acked]) ([] ++ [acked]) [] := .new .nil rfl (by decide) rfl
  have hone : Delivered .kBid ([acked] ++ [boughtOne]) ([acked] ++ [boughtOne]) [] :=
    .new hack rfl (by decide) rfl
  have hagain : Delivered .kBid ([acked, boughtOne] ++ [acked]) [acked, boughtOne]
      ([] ++ [acked]) := .repeated hone List.mem_cons_self rfl
  exact .new hagain rfl (by decide) rfl

/-- A repeated acknowledgement does no harm, and the reports of another order neither. -/
theorem real_fills_counted_once_ack :
    let ops : List Op := [.onExec acked, .onExec { bought with exchangeOrderId := 8 },
      .onExec boughtOne, .onExec acked, .onResync, .onExec boughtRest]
    CountedOnce .kBid (reports 7 ops) [acked, boughtOne, boughtRest]
        (moved 7 (new quoteAtOnce true) ops) ∧
      moved 7 (new quoteAtOnce true) ops = (3, -302) := by
  intro ops
  refine ⟨?_, by decide⟩
  exact ((real_fills_counted_once_iff 7 (new quoteAtOnce true) ops ack_twice_delivered).2
    (by decide)).mpr (by decide)

/-- **A report delivered twice is booked twice.**  The cumulative quantity stays at three, the
inventory goes to six. -/
theorem real_fills_counted_twice :
    let ops : List Op := [.onExec bought, .onExec { bought with seq := 2 }]
    Delivered .kBid (reports 7 ops) [bought] [{ bought with seq := 2 }] ∧
    (reports 7 ops).map ExecEvent.cumQtyLots = [3, 3] ∧
    (run step (new quoteAtOnce true) ops).paper.qLots = 6 ∧
    ¬ CountedOnce .kBid (reports 7 ops) [bought] (moved 7 (new quoteAtOnce true) ops) := by
  refine ⟨.repeated bought_delivered List.mem_cons_self rfl, rfl, rfl, ?_⟩
  rintro ⟨hlots, -⟩
  cases hlots

end Strategy
end
end Asmm
