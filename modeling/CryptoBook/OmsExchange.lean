import Mathlib.Data.List.Pairwise
import CryptoBook.OmsDiscipline

/-! # Reconciling against the exchange

`OnReconcile` throws the slot table away and rebuilds it from a report of the orders the
exchange has acknowledged and not terminated.  The report is a snapshot taken elsewhere:
a place command may still be on its way when it is taken.  Such an order is in no row, so
the rebuilt table has no slot for it, and the next tick places a second order on its side
(`reconcile_drops_in_flight_order`).  The table also has fewer slots than a report may have
rows: the active orders are the rows of the report exactly if they fit
(`reconcile_exact_iff`).

`World` is the machine together with the orders on their way, the orders open at the
exchange and the reports on their way back.  Its moves are everything the exchange and
the transport may do, in any interleaving with the calls on the machine.  When every
delivered report lists every outstanding order, no order is placed next to an outstanding
one, and the exchange never holds two unreported orders on one side. -/
namespace Asmm
open OrderedSearch Runs Entry

/-! ## Rebuilding the slot table -/

namespace Oms

/-- The number of free slots. -/
def freeCount (slots : List WorkingOrder) : Nat := slots.countP fun s => !s.active

theorem length_adoptRows (o : Oms) (rows : List OpenOrderRow) :
    (adoptRows o rows).slots.length = o.slots.length := by
  induction rows generalizing o with
  | nil => rfl
  | cons row rows ih =>
    unfold adoptRows
    split
    · rfl
    · exact (ih _).trans (List.length_modify ..)

/-- The active orders, in slot order. -/
def activeOrders (o : Oms) : List WorkingOrder := o.slots.filter fun s => s.active

/-- **Rows are adopted into free slots**: the active orders stay, and as many rows as there
are free slots find one. -/
theorem adoptRows_perm (rows : List OpenOrderRow) : ∀ o : Oms,
    (adoptRows o rows).activeOrders.Perm
      (o.activeOrders ++ (rows.take (freeCount o.slots)).map adopt) := by
  induction rows with
  | nil => exact fun o => by simp [adoptRows]
  | cons row rows ih =>
    rintro ⟨n, slots⟩
    unfold adoptRows
    cases hfree : freeSlot ⟨n, slots⟩ with
    | none =>
      have hfull : freeCount slots = 0 := by
        refine List.countP_eq_zero.mpr fun s hs => ?_
        simp [freeSlot_none.mp hfree s hs]
      simp [hfull]
    | some i =>
      obtain ⟨lo, s, hi, hslots, rfl, hs, -⟩ := firstSlot_some hfree
      obtain rfl : slots = lo ++ s :: hi := hslots
      have hinactive : s.active = false := by simpa using hs
      -- the adopted row took one free slot, the rest go to the remaining rows
      have hcount : freeCount (lo ++ s :: hi) = freeCount (lo ++ adopt row :: hi) + 1 := by
        simp [freeCount, hinactive, adopt]
        omega
      have hactive : (activeOrders ⟨n, lo ++ adopt row :: hi⟩).Perm
          (adopt row :: activeOrders ⟨n, lo ++ s :: hi⟩) := by
        simp only [activeOrders, List.filter_append, List.filter_cons, hinactive]
        exact List.perm_middle
      simp only [modify_split]
      rw [hcount, List.take_succ_cons, List.map_cons]
      exact (ih ⟨n, lo ++ adopt row :: hi⟩).trans
        ((hactive.append_right _).trans List.perm_middle.symm)

theorem length_onReconcile (o : Oms) (r : ReconcileReport) :
    (o.onReconcile r).slots.length = o.slots.length :=
  (length_adoptRows _ _).trans (List.length_map _)

/-- **`OnReconcile` adopts the first `kSlots` rows of the report**, and nothing else is
active. -/
theorem onReconcile_perm {o : Oms} (hfull : o.slots.length = kSlots) (r : ReconcileReport) :
    (o.onReconcile r).activeOrders.Perm (((openRows r).take kSlots).map adopt) := by
  have hfree : freeCount (o.slots.map fun s => { s with active := false }) = kSlots := by
    rw [freeCount, List.countP_map, ← hfull]
    exact List.countP_eq_length.mpr fun s _ => rfl
  have hnone : activeOrders { o with slots := o.slots.map fun s => { s with active := false } } =
      [] := by
    simp [activeOrders, List.filter_eq_nil_iff]
  have hrows := adoptRows_perm (openRows r)
    { o with slots := o.slots.map fun s => { s with active := false } }
  rwa [hnone, List.nil_append, hfree] at hrows

theorem adopt_mem_onReconcile {o : Oms} (hfull : o.slots.length = kSlots) {r : ReconcileReport}
    {row : OpenOrderRow} (hrow : row ∈ (openRows r).take kSlots) :
    adopt row ∈ (o.onReconcile r).slots :=
  (List.mem_filter.mp ((onReconcile_perm hfull r).mem_iff.mpr (List.mem_map_of_mem hrow))).1

/-- A working order as a row of a report. -/
def rowOf (s : WorkingOrder) : OpenOrderRow :=
  ⟨s.clientId, s.exchangeOrderId, s.pxTicks, s.qtyLots, s.cumQtyLots, s.side⟩

/-- **When `OnReconcile` adopts the open orders exactly.**  The report says how many orders are
open and has room for sixteen.  The active orders are its rows, one each, exactly if there are
no more of them than slots. -/
theorem reconcile_exact_iff (o : Oms) (r : ReconcileReport) (hfull : o.slots.length = kSlots)
    (hrows : r.numOpen ≤ kMaxReconcileRows) :
    ((o.onReconcile r).activeOrders.map rowOf).Perm (r.rows.toList.take r.numOpen) ↔
      r.numOpen ≤ kSlots := by
  have hopen : openRows r = r.rows.toList.take r.numOpen := by
    rw [openRows, Nat.min_eq_left hrows]
  have hactive := (onReconcile_perm hfull r).map rowOf
  have hadopt : rowOf ∘ adopt = id := rfl
  rw [List.map_map, hadopt, List.map_id, hopen] at hactive
  have hlen : (r.rows.toList.take r.numOpen).length = r.numOpen := by
    rw [List.length_take, Vector.length_toList, Nat.min_eq_left hrows]
  rw [hactive.congr_left]
  constructor
  · intro hperm
    have := hperm.length_eq
    rw [List.length_take, hlen] at this
    omega
  · intro hle
    rw [List.take_of_length_le (by rw [hlen]; exact hle)]

/-- Bids under the ids from 1 on. -/
def openBids (n : Nat) : ReconcileReport where
  baseFreeLots := 0
  baseLockedLots := 0
  quoteFreeUnits := 0
  quoteLockedUnits := 0
  tsExchangeMs := 0
  numOpen := n
  rows := Vector.ofFn fun i => ⟨i + 1, i + 1, 100, 1, 0, .kBid⟩

/-- Eight open orders fit. -/
theorem reconcile_exact_eight :
    ((fresh.onReconcile (openBids 8)).activeOrders.map rowOf).Perm
      ((openBids 8).rows.toList.take 8) :=
  (reconcile_exact_iff fresh (openBids 8) (by decide) (by decide)).mpr (by decide)

/-- **The ninth open order is left out.**  The report lists nine, within its sixteen rows, and
the machine knows eight. -/
theorem reconcile_leaves_ninth_out :
    fresh.slots.length = kSlots ∧ (openBids 9).numOpen ≤ kMaxReconcileRows ∧
    ((openBids 9).rows.toList.take 9).map OpenOrderRow.clientId = [1, 2, 3, 4, 5, 6, 7, 8, 9] ∧
    (fresh.onReconcile (openBids 9)).activeOrders.map WorkingOrder.clientId =
      [1, 2, 3, 4, 5, 6, 7, 8] := by
  decide +kernel

end Oms

/-! ## The machine and the exchange -/

structure World where
  desk : Desk
  /-- Place commands the exchange has not answered yet. -/
  inFlight : List OrderCommand
  /-- Orders the exchange has acknowledged and not terminated. -/
  opened : List OpenOrderRow
  /-- Reports taken and not delivered yet. -/
  reports : List ReconcileReport

inductive Move where
  | call (m : Call)
  /-- A place command is acknowledged. -/
  | land (i exchangeOrderId : Nat)
  /-- A place command is refused. -/
  | refuse (i : Nat)
  /-- An open order trades up to a cumulative quantity. -/
  | trade (i : Nat) (cumQtyLots : Int)
  /-- An open order is filled, cancelled or expires. -/
  | close (i : Nat)
  | take (r : ReconcileReport)
  | deliver (i : Nat)

namespace World

def start (firstClientId : Nat) : World := ⟨Desk.start firstClientId, [], [], []⟩

/-- The row of a newly acknowledged order. -/
def openRow (c : OrderCommand) (exchangeOrderId : Nat) : OpenOrderRow :=
  ⟨c.clientId, exchangeOrderId, c.pxTicks, c.qtyLots, 0, c.side⟩

def call (w : World) (m : Call) : World :=
  let desk := w.desk.call m
  { w with desk := desk, inFlight := w.inFlight ++ placed (desk.log.drop w.desk.log.length) }

def land (w : World) (i exchangeOrderId : Nat) : World :=
  match w.inFlight[i]? with
  | none => w
  | some c =>
      { w with
        inFlight := w.inFlight.eraseIdx i
        opened := w.opened ++ [openRow c exchangeOrderId] }

def refuse (w : World) (i : Nat) : World :=
  match w.inFlight[i]? with
  | none => w
  | some c =>
      { w with
        inFlight := w.inFlight.eraseIdx i
        desk := { w.desk with log := w.desk.log ++ [.refused c.clientId] } }

def deliver (w : World) (i : Nat) : World :=
  match w.reports[i]? with
  | none => w
  | some r =>
      { w with
        desk := { w.desk with oms := w.desk.oms.onReconcile r }
        reports := w.reports.eraseIdx i }

def step (w : World) : Move → World
  | .call m => w.call m
  | .land i exchangeOrderId => w.land i exchangeOrderId
  | .refuse i => w.refuse i
  | .trade i cum =>
      { w with opened := w.opened.modify i fun row => { row with cumQtyLots := cum } }
  | .close i => { w with opened := w.opened.eraseIdx i }
  | .take r => { w with reports := w.reports ++ [r] }
  | .deliver i => w.deliver i

/-- A report lists exactly what is open at the exchange when it is taken. -/
def Truthful (w : World) : Move → Prop
  | .take r => r.numOpen = w.opened.length ∧ Oms.openRows r = w.opened.take kMaxReconcileRows
  | _ => True

instance (w : World) : ∀ m, Decidable (w.Truthful m)
  | .take r => inferInstanceAs
      (Decidable (r.numOpen = w.opened.length ∧ Oms.openRows r = w.opened.take kMaxReconcileRows))
  | .call _ | .land .. | .refuse _ | .trade .. | .close _ | .deliver _ => isTrue trivial

/-- A report that is delivered lists, among the rows `OnReconcile` has slots for, every
order outstanding at that moment. -/
def ListsOutstanding (w : World) : Move → Prop
  | .deliver i => ∀ r ∈ w.reports[i]?, ∀ c ∈ outstanding w.desk.log,
      ∃ row ∈ (Oms.openRows r).take Oms.kSlots, row.clientId = c.clientId ∧ row.side = c.side
  | _ => True

instance (w : World) : ∀ m, Decidable (w.ListsOutstanding m)
  | .deliver i => inferInstanceAs (Decidable (∀ r ∈ w.reports[i]?, ∀ c ∈ outstanding w.desk.log,
      ∃ row ∈ (Oms.openRows r).take Oms.kSlots, row.clientId = c.clientId ∧ row.side = c.side))
  | .call _ | .land .. | .refuse _ | .trade .. | .close _ | .take _ => isTrue trivial

/-! ## What the exchange may hold -/

/-- The orders on their way or open, by id and side. -/
def live (w : World) : List (Nat × Side) :=
  w.inFlight.map (fun c => (c.clientId, c.side)) ++ w.opened.map (fun r => (r.clientId, r.side))

/-- What may reach the exchange was placed once and has not been refused. -/
structure Ledger (live : List (Nat × Side)) (log : List Entry) : Prop where
  live_placed : ∀ p ∈ live, ∃ c ∈ placed log, (c.clientId, c.side) = p
  live_nodup : (live.map Prod.fst).Nodup
  live_accepted : ∀ p ∈ live, .refused p.1 ∉ log
  refused_placed : ∀ id, .refused id ∈ log → ∃ c ∈ placed log, c.clientId = id

theorem Ledger.perm {live live' : List (Nat × Side)} {log : List Entry} (h : Ledger live log)
    (hp : live'.Perm live) : Ledger live' log where
  live_placed := fun p hmem => h.live_placed p (hp.mem_iff.mp hmem)
  live_nodup := (hp.map Prod.fst).nodup_iff.mpr h.live_nodup
  live_accepted := fun p hmem => h.live_accepted p (hp.mem_iff.mp hmem)
  refused_placed := h.refused_placed

theorem Ledger.sublist {live live' : List (Nat × Side)} {log : List Entry} (h : Ledger live log)
    (hs : live'.Sublist live) : Ledger live' log where
  live_placed := fun p hmem => h.live_placed p (hs.subset hmem)
  live_nodup := h.live_nodup.sublist (hs.map _)
  live_accepted := fun p hmem => h.live_accepted p (hs.subset hmem)
  refused_placed := h.refused_placed

/-- An order that is refused leaves. -/
theorem Ledger.refuse {live : List (Nat × Side)} {log : List Entry} {p : Nat × Side}
    (h : Ledger (p :: live) log) : Ledger live (log ++ [.refused p.1]) := by
  have hplaced : placed (log ++ [.refused p.1]) = placed log := by
    simp [placed, commands]
  have hnodup : p.1 ∉ live.map Prod.fst ∧ (live.map Prod.fst).Nodup :=
    List.nodup_cons.mp h.live_nodup
  constructor
  · rw [hplaced]
    exact fun q hq => h.live_placed q (List.mem_cons_of_mem _ hq)
  · exact hnodup.2
  · intro q hq hrefused
    rcases List.mem_append.mp hrefused with hold | hnew
    · exact h.live_accepted q (List.mem_cons_of_mem _ hq) hold
    · obtain hid : q.1 = p.1 := by simpa using hnew
      exact hnodup.1 (hid ▸ List.mem_map_of_mem hq)
  · rw [hplaced]
    intro id hmem
    rcases List.mem_append.mp hmem with hold | hnew
    · exact h.refused_placed id hold
    · obtain rfl : id = p.1 := by simpa using hnew
      obtain ⟨c, hc, hcp⟩ := h.live_placed p List.mem_cons_self
      exact ⟨c, hc, congrArg Prod.fst hcp⟩

/-- The orders a call places are new. -/
theorem Ledger.place {live : List (Nat × Side)} {log new : List Entry} (h : Ledger live log)
    (hids : ((placed (log ++ new)).map OrderCommand.clientId).Nodup)
    (hnew : ∀ id, .refused id ∉ new) :
    Ledger (live ++ (placed new).map fun c => (c.clientId, c.side)) (log ++ new) := by
  have hplaced : placed (log ++ new) = placed log ++ placed new := by
    simp [placed, commands, List.filterMap_append]
  rw [hplaced, List.map_append] at hids
  obtain ⟨_, hnodup, hdisj⟩ := List.nodup_append.mp hids
  -- a new id was placed by no earlier command
  have hfresh : ∀ c ∈ placed new, ∀ c' ∈ placed log, c'.clientId ≠ c.clientId := fun c hc c' hc' =>
    hdisj _ (List.mem_map_of_mem hc') _ (List.mem_map_of_mem hc)
  constructor
  · intro p hp
    rw [hplaced]
    rcases List.mem_append.mp hp with hold | hmem
    · obtain ⟨c, hc, hcp⟩ := h.live_placed p hold
      exact ⟨c, List.mem_append_left _ hc, hcp⟩
    · obtain ⟨c, hc, hcp⟩ := List.mem_map.mp hmem
      exact ⟨c, List.mem_append_right _ hc, hcp⟩
  · rw [List.map_append, List.map_map]
    refine List.nodup_append.mpr ⟨h.live_nodup, hnodup, ?_⟩
    intro i hi j hj he
    obtain ⟨p, hp, rfl⟩ := List.mem_map.mp hi
    obtain ⟨c, hc, rfl⟩ := List.mem_map.mp hj
    obtain ⟨c', hc', hcp⟩ := h.live_placed p hp
    exact hfresh c hc c' hc' ((congrArg Prod.fst hcp).trans he)
  · intro p hp hrefused
    have hold : .refused p.1 ∈ log := (List.mem_append.mp hrefused).resolve_right (hnew p.1)
    rcases List.mem_append.mp hp with hlive | hmem
    · exact h.live_accepted p hlive hold
    · obtain ⟨c, hc, rfl⟩ := List.mem_map.mp hmem
      obtain ⟨c', hc', hid⟩ := h.refused_placed _ hold
      exact hfresh c hc c' hc' hid
  · intro id hmem
    have hold : .refused id ∈ log := (List.mem_append.mp hmem).resolve_right (hnew id)
    obtain ⟨c, hc, hid⟩ := h.refused_placed id hold
    exact ⟨c, hplaced ▸ List.mem_append_left _ hc, hid⟩

structure Inv (w : World) : Prop where
  full : w.desk.oms.slots.length = Oms.kSlots
  accounting : w.desk.Accounting
  ledger : Ledger w.live w.desk.log

theorem inv_start (firstClientId : Nat) : Inv (start firstClientId) where
  full := rfl
  accounting := Desk.accounting_start firstClientId
  ledger := by constructor <;> simp [start, live, Desk.start]

theorem Inv.call {w : World} (h : Inv w) (m : Call) : Inv (w.call m) := by
  obtain ⟨new, hlog, hnew⟩ := Desk.log_call w.desk m
  have hacc := h.accounting.call m
  refine ⟨(Desk.length_slots_call w.desk m).trans h.full, hacc, ?_⟩
  have hlive : (w.call m).live.Perm
      (w.live ++ (placed new).map fun c => (c.clientId, c.side)) := by
    simp only [live, World.call, hlog, List.drop_left, List.map_append, List.append_assoc]
    exact List.perm_append_comm.append_left _
  have hledger := h.ledger.place (hlog ▸ hacc.ids_nodup) hnew
  rw [← hlog] at hledger
  exact hledger.perm hlive

theorem Inv.land {w : World} (h : Inv w) (i exchangeOrderId : Nat) :
    Inv (w.land i exchangeOrderId) := by
  unfold World.land
  cases hc : w.inFlight[i]? with
  | none => exact h
  | some c =>
    obtain ⟨lo, hi, hsplit, rfl⟩ := exists_split_of_getElem? hc
    refine ⟨h.full, h.accounting, h.ledger.perm ?_⟩
    simp only [live, hsplit, eraseIdx_split, List.map_append, List.map_cons, List.map_nil,
      openRow]
    -- the order moves from the middle of the one list to the end of the other
    rw [← List.append_assoc]
    exact (List.perm_append_singleton ..).trans
      (by simpa using List.perm_middle.symm)

theorem Inv.refuse {w : World} (h : Inv w) (i : Nat) : Inv (w.refuse i) := by
  unfold World.refuse
  cases hc : w.inFlight[i]? with
  | none => exact h
  | some c =>
    obtain ⟨lo, hi, hsplit, rfl⟩ := exists_split_of_getElem? hc
    refine ⟨h.full, ?_, ?_⟩
    · refine h.accounting.concat (by rintro _ _ ⟨⟩) trivial fun c' hc' => ?_
      exact h.accounting.held c' (mem_of_mem_track (by rintro _ _ ⟨⟩) hc')
    · refine Ledger.refuse (p := (c.clientId, c.side)) (h.ledger.perm ?_)
      simpa only [live, hsplit, eraseIdx_split, List.map_append, List.map_cons,
        List.append_assoc, List.cons_append] using List.perm_middle.symm

/-- Delivering a report that lists every outstanding order keeps them all. -/
theorem Inv.deliver {w : World} (h : Inv w) {i : Nat} (hlists : w.ListsOutstanding (.deliver i)) :
    Inv (w.deliver i) := by
  unfold World.deliver
  cases hr : w.reports[i]? with
  | none => exact h
  | some r =>
    refine ⟨(Oms.length_onReconcile ..).trans h.full, ?_, h.ledger⟩
    refine ⟨?_, h.accounting.lawful, h.accounting.ids_lt, h.accounting.ids_nodup⟩
    intro c hc
    obtain ⟨row, hrow, hid, hside⟩ := hlists r hr c hc
    exact ⟨Oms.adopt row, Oms.adopt_mem_onReconcile h.full hrow, rfl, hid, hside⟩

theorem Inv.step {w : World} (h : Inv w) (m : Move) (hlists : w.ListsOutstanding m) :
    Inv (w.step m) := by
  cases m with
  | call m => exact h.call m
  | land i exchangeOrderId => exact h.land i exchangeOrderId
  | refuse i => exact h.refuse i
  | trade i cum =>
    refine ⟨h.full, h.accounting, ?_⟩
    have hsame : (w.step (.trade i cum)).live = w.live := by
      unfold live
      congr 1
      refine List.ext_getElem? fun j => ?_
      simp only [World.step, List.getElem?_map, List.getElem?_modify]
      cases w.opened[j]? with
      | none => rfl
      | some row =>
        show some _ = some _
        split <;> rfl
    exact hsame ▸ h.ledger
  | close i =>
    refine ⟨h.full, h.accounting, h.ledger.sublist ?_⟩
    exact ((List.eraseIdx_sublist ..).map _).append_left _
  | take r => exact ⟨h.full, h.accounting, h.ledger⟩
  | deliver i => exact h.deliver hlists

/-! ## One order per side at the exchange -/

/-- No terminal report of the order has been delivered. -/
def Unreported (log : List Entry) (clientId : Nat) : Prop :=
  ∀ e, .exec e ∈ log → e.clientId = clientId → e.kind.terminal = false

/-- An open order without a terminal report is outstanding. -/
theorem Inv.outstanding_of_opened {w : World} (h : Inv w) {row : OpenOrderRow}
    (hrow : row ∈ w.opened) (hun : Unreported w.desk.log row.clientId) :
    ∃ c ∈ outstanding w.desk.log, c.clientId = row.clientId ∧ c.side = row.side := by
  have hmem : (row.clientId, row.side) ∈ w.live :=
    List.mem_append_right _ (List.mem_map.mpr ⟨row, hrow, rfl⟩)
  obtain ⟨c, hc, hcp⟩ := h.ledger.live_placed _ hmem
  obtain ⟨hid, hside⟩ := Prod.mk.inj hcp
  refine ⟨c, mem_outstanding_of_placed hc (hid ▸ hun) ?_, hid, hside⟩
  rw [hid]
  exact h.ledger.live_accepted _ hmem

/-- **No double order when reports are complete.**  In every interleaving of the machine,
the exchange and the transport in which each delivered report lists every outstanding
order: an order is placed only when no order placed earlier on its side is still
outstanding, and two orders open at the exchange on one side, neither of them terminally
reported, are one and the same. -/
theorem no_double_order (firstClientId : Nat) (moves : List Move)
    (hlists : Guarded step ListsOutstanding (start firstClientId) moves) :
    let w := run step (start firstClientId) moves
    (∀ pre c o post, w.desk.log = pre ++ .sent c o :: post → c.kind = .kPlace →
      ∀ c' ∈ outstanding pre, c'.side ≠ c.side) ∧
    (∀ a ∈ w.opened, ∀ b ∈ w.opened, a.side = b.side → Unreported w.desk.log a.clientId →
      Unreported w.desk.log b.clientId → a.clientId = b.clientId) := by
  intro w
  have hinv : Inv w := hlists.invariant (fun _ m h hm => h.step m hm) (inv_start firstClientId)
  constructor
  · intro pre c o post hlog hplace
    exact (hinv.accounting.lawful pre _ post hlog).1 hplace
  · intro a ha b hb hside hua hub
    obtain ⟨ca, hca, hida, hsidea⟩ := hinv.outstanding_of_opened ha hua
    obtain ⟨cb, hcb, hidb, hsideb⟩ := hinv.outstanding_of_opened hb hub
    have hsides := Desk.outstanding_sides hinv.accounting.lawful
    have hsymm : Std.Symm fun x y : OrderCommand => x.side ≠ y.side := ⟨fun _ _ => Ne.symm⟩
    have hsame : ca = cb := by
      by_contra hne
      exact hsides.forall hca hcb hne (hsidea.trans (hside.trans hsideb.symm))
    rw [← hida, ← hidb, hsame]

/-- A tick that wants a bid of one lot at 100 and no ask. -/
def bidTick (tsNs : Int) : Move :=
  .call (.reconcile { QuoteRecord.zero with bidPx := 100, bidQty := 1 } tsNs)

/-- A report of the given rows. -/
def reportOf (rows : List OpenOrderRow) : ReconcileReport where
  baseFreeLots := 0
  baseLockedLots := 0
  quoteFreeUnits := 0
  quoteLockedUnits := 0
  tsExchangeMs := 0
  numOpen := rows.length
  rows := Vector.ofFn fun i => rows.getD i ⟨0, 0, 0, 0, 0, .kBid⟩

/-- The order has landed when the report is taken, so the report lists it and the next
tick places nothing. -/
theorem no_double_order_after_landing :
    let moves := [bidTick 0, .land 0 7, .take (reportOf [⟨1, 7, 100, 1, 0, .kBid⟩]), .deliver 0,
      bidTick 1]
    let w := run step (start 1) moves
    (∀ pre c o post, w.desk.log = pre ++ .sent c o :: post → c.kind = .kPlace →
      ∀ c' ∈ outstanding pre, c'.side ≠ c.side) ∧
    w.opened = [⟨1, 7, 100, 1, 0, .kBid⟩] :=
  ⟨(no_double_order 1 _ (by decide)).1, by decide⟩

/-- **A reconcile drops an order in flight.**  The report is taken before the place
command lands, so it truthfully lists nothing.  Delivering it frees the order's slot, the
next tick places a second bid while the first is outstanding, and the exchange ends up
with two. -/
theorem reconcile_drops_in_flight_order :
    let moves := [bidTick 0, .take (reportOf []), .land 0 7, .deliver 0, bidTick 1, .land 0 8]
    Guarded step Truthful (start 1) moves ∧
    (outstanding (run step (start 1) (moves.take 4)).desk.log).map
      (fun c => (c.clientId, c.side)) = [(1, .kBid)] ∧
    (commands (run step (start 1) (moves.take 5)).desk.log).map
      (fun c => (c.kind, c.clientId, c.side)) = [(.kPlace, 1, .kBid), (.kPlace, 2, .kBid)] ∧
    (run step (start 1) moves).opened.map (fun row => (row.clientId, row.side)) =
      [(1, .kBid), (2, .kBid)] := by
  decide

end World
end Asmm
