import CryptoBook.OrderedSearch
import CryptoBook.Records

/-! # The order state machine

`Oms` of `engine/oms.cpp`.  The slot table is a list of `kSlots` working orders, and a
slot pointer is an index into it.  `SideSlot`, `FindByClient`, `FreeSlot` and `FindSide`
are one loop with different tests (`firstSlot`).  A function that appends to `out`
returns the commands it appends.

What one call does to the table is said once, for all later results: the loop body of
`Reconcile` is a `SideStep` (`reconcileSide_step`), and a report leaves the table alone or
changes the one order it names (`onExec_answered`).

Sequence numbers and client ids are read as unbounded counters: the source only
increments them. -/
namespace Asmm
open OrderedSearch

inductive OrderState where
  | kPendingNew
  | kWorking
  | kPartiallyFilled
  | kPendingCancel
  deriving DecidableEq, Repr

structure WorkingOrder where
  active : Bool
  clientId : Nat
  exchangeOrderId : Nat
  pxTicks : Int
  qtyLots : Int
  cumQtyLots : Int
  side : Side
  state : OrderState
  deriving DecidableEq, Repr

/-- `WorkingOrder{}`. -/
def WorkingOrder.zero : WorkingOrder := ⟨false, 0, 0, 0, 0, 0, .kBid, .kPendingNew⟩

structure Oms where
  nextSeq : Nat
  slots : List WorkingOrder
  deriving DecidableEq

namespace Oms

def kSlots : Nat := 8

/-- `Oms oms;`. -/
def fresh : Oms := ⟨1, List.replicate kSlots WorkingOrder.zero⟩

/-- The first slot that passes a test. -/
def firstSlot (o : Oms) (test : WorkingOrder → Bool) : Option Nat := o.slots.findIdx? test

/-- `Oms::SideSlot`, and the const `Oms::FindSide`. -/
def sideSlot (o : Oms) (side : Side) : Option Nat :=
  o.firstSlot fun s => s.active && decide (s.side = side)

/-- `Oms::FindByClient`. -/
def findByClient (o : Oms) (clientId : Nat) : Option Nat :=
  o.firstSlot fun s => s.active && decide (s.clientId = clientId)

/-- `Oms::FreeSlot`. -/
def freeSlot (o : Oms) : Option Nat := o.firstSlot fun s => !s.active

/-- `*slot`. -/
def slotAt (o : Oms) (i : Nat) : WorkingOrder := o.slots.getD i WorkingOrder.zero

/-- The state of the machine and of the caller's id counter, and the commands appended. -/
structure Emitted where
  oms : Oms
  nextClientId : Nat
  out : List OrderCommand

/-- `Oms::EmitPlace`. -/
def emitPlace (o : Oms) (side : Side) (px qty tsNs : Int) (nextClientId : Nat) : Emitted :=
  match o.freeSlot with
  | none => ⟨o, nextClientId, []⟩
  | some i =>
      let c : OrderCommand := { OrderCommand.zero with
        seq := o.nextSeq, clientId := nextClientId, pxTicks := px, qtyLots := qty, tsNs := tsNs,
        kind := .kPlace, side := side }
      let slot : WorkingOrder := { WorkingOrder.zero with
        active := true, clientId := nextClientId, pxTicks := px, qtyLots := qty, side := side,
        state := .kPendingNew }
      ⟨⟨o.nextSeq + 1, o.slots.modify i fun _ => slot⟩, nextClientId + 1, [c]⟩

/-- `Oms::EmitCancel`. -/
def emitCancel (o : Oms) (order : WorkingOrder) (tsNs : Int) : Oms × OrderCommand :=
  ({ o with nextSeq := o.nextSeq + 1 },
    { OrderCommand.zero with
      seq := o.nextSeq, clientId := order.clientId, tsNs := tsNs, kind := .kCancel,
      side := order.side })

/-- `cur->state = OrderState::kPendingCancel`. -/
def markPendingCancel (o : Oms) (i : Nat) : Oms :=
  { o with slots := o.slots.modify i fun s => { s with state := .kPendingCancel } }

/-- The two statements that always come together: emit a cancel for slot `i`, then mark
it. -/
def cancelSlot (o : Oms) (i : Nat) (tsNs : Int) (nextClientId : Nat) : Emitted :=
  let r := o.emitCancel (o.slotAt i) tsNs
  ⟨r.1.markPendingCancel i, nextClientId, [r.2]⟩

/-- The loop body of `Oms::Reconcile`, for one wanted side. -/
def reconcileSide (o : Oms) (side : Side) (px qty tsNs : Int) (nextClientId : Nat) : Emitted :=
  match o.sideSlot side with
  | none =>
      if px = 0 then ⟨o, nextClientId, []⟩
      else o.emitPlace side px qty tsNs nextClientId
  | some i =>
      let cur := o.slotAt i
      if px = 0 then
        if cur.state ≠ .kPendingCancel then o.cancelSlot i tsNs nextClientId
        else ⟨o, nextClientId, []⟩
      else if cur.state = .kPendingCancel then ⟨o, nextClientId, []⟩
      else if cur.pxTicks ≠ px ∨ cur.qtyLots ≠ qty then o.cancelSlot i tsNs nextClientId
      else ⟨o, nextClientId, []⟩

/-- `Oms::Reconcile`: the bid, then the ask. -/
def reconcile (o : Oms) (desired : QuoteRecord) (tsNs : Int) (nextClientId : Nat) : Emitted :=
  let bid := o.reconcileSide .kBid desired.bidPx desired.bidQty tsNs nextClientId
  let ask := bid.oms.reconcileSide .kAsk desired.askPx desired.askQty tsNs bid.nextClientId
  ⟨ask.oms, ask.nextClientId, bid.out ++ ask.out⟩

/-- `Oms::OnExec`. -/
def onExec (o : Oms) (e : ExecEvent) : Oms :=
  match o.findByClient e.clientId with
  | none => o
  | some i =>
      match e.kind with
      | .kAck =>
          { o with slots := o.slots.modify i fun s =>
              { s with state := .kWorking, exchangeOrderId := e.exchangeOrderId } }
      | .kPartial =>
          { o with slots := o.slots.modify i fun s =>
              { s with
                state := .kPartiallyFilled
                exchangeOrderId := e.exchangeOrderId
                cumQtyLots := e.cumQtyLots } }
      | .kFilled | .kCanceled | .kRejected | .kExpired =>
          { o with slots := o.slots.modify i fun s => { s with active := false } }

/-- The working order rebuilt from one row of a reconcile report. -/
def adopt (row : OpenOrderRow) : WorkingOrder where
  active := true
  clientId := row.clientId
  exchangeOrderId := row.exchangeOrderId
  pxTicks := row.pxTicks
  qtyLots := row.origQtyLots
  cumQtyLots := row.cumQtyLots
  side := row.side
  state := if row.cumQtyLots > 0 then .kPartiallyFilled else .kWorking

/-- The loop of `Oms::OnReconcile` over the rows: it ends at the first row that finds no
free slot. -/
def adoptRows (o : Oms) : List OpenOrderRow → Oms
  | [] => o
  | row :: rows =>
      match o.freeSlot with
      | none => o
      | some i => adoptRows { o with slots := o.slots.modify i fun _ => adopt row } rows

/-- The rows `[0, min(num_open, kMaxReconcileRows))` of a report. -/
def openRows (r : ReconcileReport) : List OpenOrderRow :=
  r.rows.toList.take (min r.numOpen kMaxReconcileRows)

/-- `Oms::OnReconcile`. -/
def onReconcile (o : Oms) (r : ReconcileReport) : Oms :=
  adoptRows { o with slots := o.slots.map fun s => { s with active := false } } (openRows r)

/-- `Oms::CancelAll`. -/
def cancelAll (o : Oms) (tsNs : Int) : Oms × OrderCommand :=
  ({ nextSeq := o.nextSeq + 1
     slots := o.slots.map fun s => if s.active then { s with state := .kPendingCancel } else s },
    { OrderCommand.zero with
      seq := o.nextSeq, clientId := 0, tsNs := tsNs, kind := .kCancelAll })

/-- `Oms::working_count`. -/
def workingCount (o : Oms) : Nat := o.slots.countP fun s => s.active

/-! ## The search through the slot table -/

/-- A search that succeeds points at the first slot that passes the test. -/
theorem firstSlot_some {o : Oms} {test : WorkingOrder → Bool} {i : Nat}
    (h : o.firstSlot test = some i) :
    ∃ lo s hi, o.slots = lo ++ s :: hi ∧ i = lo.length ∧ test s = true ∧
      ∀ a ∈ lo, test a = false := by
  obtain ⟨hlt, hs, hbefore⟩ := List.findIdx?_eq_some_iff_getElem.mp h
  obtain ⟨lo, hi, hslots, hi'⟩ := exists_split_of_getElem? (List.getElem?_eq_getElem hlt)
  refine ⟨lo, o.slots[i], hi, hslots, hi', hs, fun a ha => ?_⟩
  obtain ⟨j, hj, rfl⟩ := List.mem_iff_getElem.mp ha
  have hjlt : j < o.slots.length := Nat.lt_trans (hi' ▸ hj) hlt
  have hat : o.slots[j]? = some lo[j] := by
    rw [hslots, List.getElem?_append_left hj, List.getElem?_eq_getElem hj]
  rw [List.getElem?_eq_getElem hjlt] at hat
  rw [← Option.some.inj hat]
  simpa using hbefore j (hi' ▸ hj)

/-- A search fails only when no slot passes the test. -/
theorem firstSlot_none {o : Oms} {test : WorkingOrder → Bool} :
    o.firstSlot test = none ↔ ∀ s ∈ o.slots, test s = false := List.findIdx?_eq_none_iff

theorem sideSlot_none {o : Oms} {side : Side} :
    o.sideSlot side = none ↔ ∀ s ∈ o.slots, s.active = true → s.side ≠ side := by
  simp [sideSlot, firstSlot_none]

theorem findByClient_none {o : Oms} {clientId : Nat} :
    o.findByClient clientId = none ↔
      ∀ s ∈ o.slots, s.active = true → s.clientId ≠ clientId := by
  simp [findByClient, firstSlot_none]

theorem freeSlot_none {o : Oms} : o.freeSlot = none ↔ ∀ s ∈ o.slots, s.active = true := by
  simp [freeSlot, firstSlot_none]

/-- Dereferencing the pointer that a search returned. -/
theorem slotAt_split (n : Nat) (lo hi : List WorkingOrder) (s : WorkingOrder) :
    slotAt ⟨n, lo ++ s :: hi⟩ lo.length = s := by
  simp [slotAt]

/-! ## What one call does to the slot table -/

/-- The active orders of a side, in slot order. -/
def onSide (slots : List WorkingOrder) (side : Side) : List WorkingOrder :=
  slots.filter fun s => s.active && decide (s.side = side)

theorem onSide_eq_nil {slots : List WorkingOrder} {side : Side} :
    onSide slots side = [] ↔ ∀ s ∈ slots, s.active = true → s.side ≠ side := by
  simp [onSide, List.filter_eq_nil_iff]

/-- A desired price of 0 means no quote on that side. -/
def want (px qty : Int) : Option (Int × Int) := if px = 0 then none else some (px, qty)

/-- What the loop body of `Reconcile` may do: nothing, put an order on a side that has no
active slot, or cancel the first active order of the side. -/
inductive SideStep (n : Nat) (slots : List WorkingOrder) (id : Nat) (side : Side) (px qty : Int) :
    Emitted → Prop
  | idle (none : onSide slots side = []) (unwanted : px = 0) :
      SideStep n slots id side px qty ⟨⟨n, slots⟩, id, []⟩
  | full (none : onSide slots side = []) (wanted : px ≠ 0) (full : ∀ s ∈ slots, s.active = true) :
      SideStep n slots id side px qty ⟨⟨n, slots⟩, id, []⟩
  | place {lo hi : List WorkingOrder} {s order : WorkingOrder} {c : OrderCommand}
      (split : slots = lo ++ s :: hi) (free : s.active = false) (none : onSide slots side = [])
      (wanted : px ≠ 0)
      (command : c.kind = .kPlace ∧ c.seq = n ∧ c.clientId = id ∧ c.side = side)
      (entered : order.active = true ∧ order.clientId = id ∧ order.side = side ∧
        order.pxTicks = px ∧ order.qtyLots = qty ∧ order.state = .kPendingNew) :
      SideStep n slots id side px qty ⟨⟨n + 1, lo ++ order :: hi⟩, id + 1, [c]⟩
  | keep {lo hi : List WorkingOrder} {s : WorkingOrder} (split : slots = lo ++ s :: hi)
      (first : onSide lo side = []) (here : s.active = true ∧ s.side = side)
      (stays : s.state = .kPendingCancel ∨ want px qty = some (s.pxTicks, s.qtyLots)) :
      SideStep n slots id side px qty ⟨⟨n, slots⟩, id, []⟩
  | cancel {lo hi : List WorkingOrder} {s : WorkingOrder} {c : OrderCommand}
      (split : slots = lo ++ s :: hi) (first : onSide lo side = [])
      (here : s.active = true ∧ s.side = side) (live : s.state ≠ .kPendingCancel)
      (unfit : want px qty ≠ some (s.pxTicks, s.qtyLots))
      (command : c.kind = .kCancel ∧ c.seq = n ∧ c.clientId = s.clientId) :
      SideStep n slots id side px qty
        ⟨⟨n + 1, lo ++ { s with state := .kPendingCancel } :: hi⟩, id, [c]⟩

theorem emitPlace_step {n : Nat} {slots : List WorkingOrder} {side : Side} {px : Int}
    (none : onSide slots side = []) (wanted : px ≠ 0) (qty tsNs : Int) (id : Nat) :
    SideStep n slots id side px qty (emitPlace ⟨n, slots⟩ side px qty tsNs id) := by
  unfold emitPlace
  cases hfree : freeSlot ⟨n, slots⟩ with
  | none => exact .full none wanted (freeSlot_none.mp hfree)
  | some i =>
    obtain ⟨lo, s, hi, hslots, rfl, hs, -⟩ := firstSlot_some hfree
    obtain rfl : slots = lo ++ s :: hi := hslots
    simp only [modify_split]
    exact .place rfl (by simpa using hs) none wanted ⟨rfl, rfl, rfl, rfl⟩
      ⟨rfl, rfl, rfl, rfl, rfl, rfl⟩

/-- **The loop body of `Reconcile` is one of these steps.** -/
theorem reconcileSide_step (n : Nat) (slots : List WorkingOrder) (side : Side) (px qty tsNs : Int)
    (id : Nat) :
    SideStep n slots id side px qty (reconcileSide ⟨n, slots⟩ side px qty tsNs id) := by
  unfold reconcileSide
  cases hside : sideSlot ⟨n, slots⟩ side with
  | none =>
    have hnone : onSide slots side = [] := onSide_eq_nil.mpr (sideSlot_none.mp hside)
    by_cases hpx : px = 0
    · subst hpx
      exact .idle hnone rfl
    · simpa only [hpx, if_false] using emitPlace_step hnone hpx qty tsNs id
  | some i =>
    obtain ⟨lo, s, hi, hslots, rfl, hs, hfirst⟩ := firstSlot_some hside
    obtain rfl : slots = lo ++ s :: hi := hslots
    have hlo : onSide lo side = [] := onSide_eq_nil.mpr (by simpa using hfirst)
    have hhere : s.active = true ∧ s.side = side := by simpa using hs
    have hcancel : s.state ≠ .kPendingCancel → want px qty ≠ some (s.pxTicks, s.qtyLots) →
        SideStep n (lo ++ s :: hi) id side px qty
          (cancelSlot ⟨n, lo ++ s :: hi⟩ lo.length tsNs id) := by
      intro hlive hunfit
      simp only [cancelSlot, markPendingCancel, emitCancel, slotAt_split, modify_split]
      exact .cancel rfl hlo hhere hlive hunfit ⟨rfl, rfl, rfl⟩
    simp only [slotAt_split]
    by_cases hstate : s.state = .kPendingCancel
    · simpa [hstate] using .keep rfl hlo hhere (Or.inl hstate)
    · by_cases hpx : px = 0
      · simp only [hpx, if_true, ne_eq, hstate, not_false_eq_true]
        exact hpx ▸ hcancel hstate (by simp [want, hpx])
      · simp only [hpx, if_false, hstate]
        split
        · next hdiff =>
          refine hcancel hstate ?_
          simp only [want, hpx, if_false, ne_eq, Option.some.injEq, Prod.mk.injEq]
          omega
        · next hsame =>
          refine .keep rfl hlo hhere (Or.inr ?_)
          simp only [want, hpx, if_false, Option.some.injEq, Prod.mk.injEq]
          omega

/-- What a report does to the order it names. -/
def answered (e : ExecEvent) (s : WorkingOrder) : WorkingOrder :=
  match e.kind with
  | .kAck => { s with state := .kWorking, exchangeOrderId := e.exchangeOrderId }
  | .kPartial =>
      { s with
        state := .kPartiallyFilled
        exchangeOrderId := e.exchangeOrderId
        cumQtyLots := e.cumQtyLots }
  | .kFilled | .kCanceled | .kRejected | .kExpired => { s with active := false }

/-- The order that `FindByClient` finds for a report. -/
def reached (o : Oms) (e : ExecEvent) : Option WorkingOrder :=
  (o.findByClient e.clientId).map o.slotAt

/-- A report changes the order it reaches. -/
theorem onExec_reached {o : Oms} {e : ExecEvent} {s : WorkingOrder} (h : o.reached e = some s) :
    ∃ lo hi, o.slots = lo ++ s :: hi ∧ s.active = true ∧ s.clientId = e.clientId ∧
      o.onExec e = ⟨o.nextSeq, lo ++ answered e s :: hi⟩ := by
  obtain ⟨n, slots⟩ := o
  obtain ⟨i, hfind, rfl⟩ := Option.map_eq_some_iff.mp h
  obtain ⟨lo, s, hi, hslots, rfl, hs, -⟩ := firstSlot_some hfind
  obtain rfl : slots = lo ++ s :: hi := hslots
  obtain ⟨hactive, hid⟩ : s.active = true ∧ s.clientId = e.clientId := by simpa using hs
  rw [slotAt_split]
  refine ⟨lo, hi, rfl, hactive, hid, ?_⟩
  unfold onExec
  rw [hfind]
  cases hkind : e.kind <;> simp [modify_split, answered, hkind]

/-- A report names no active order and changes nothing, or it changes the order it
names. -/
theorem onExec_answered (o : Oms) (e : ExecEvent) :
    ((∀ s ∈ o.slots, s.active = true → s.clientId ≠ e.clientId) ∧ o.onExec e = o) ∨
    ∃ lo s hi, o.slots = lo ++ s :: hi ∧ s.active = true ∧ s.clientId = e.clientId ∧
      o.onExec e = ⟨o.nextSeq, lo ++ answered e s :: hi⟩ := by
  cases hreached : o.reached e with
  | none =>
    have hfind : o.findByClient e.clientId = none := Option.map_eq_none_iff.mp hreached
    exact Or.inl ⟨findByClient_none.mp hfind, by rw [onExec, hfind]⟩
  | some s =>
    obtain ⟨lo, hi, hsplit⟩ := onExec_reached hreached
    exact Or.inr ⟨lo, s, hi, hsplit⟩

end Oms
end Asmm
