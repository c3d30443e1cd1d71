import CryptoBook.Lanes
import CryptoBook.OmsExchange
import CryptoBook.OmsPendingCancel

/-! # Convergence of the order state machine

`Reconcile` is a controller in the sense of `Lanes`: on each side it looks at the first
active slot only.  A `Station` is the machine with the id counter of its caller.  A round
is one `Reconcile` call with everything it calls for answered: an ack for every place
command, a cancel confirmation for every order in `kPendingCancel`, in any order, each of
which reaches an order that waits for it.  Then a round on the slot table is a round on the
two lanes of active orders (`Round.lanes_eq`), so the number of rounds and the obstacle are
those of the lanes.  Reports go by client ids; if the active orders have ids of their own,
all answers reach them (`reach_of_told`).

The obstacle is real: `OnReconcile` may adopt two orders on one side, and if the first one
has the wanted price and quantity the second is never cancelled (`second_bid_stays`).

Without answers a second call does nothing: the first has left each lane as its turn leaves
it, and a lane stays there (`reconcile_idempotent`). -/
namespace Asmm
open OrderedSearch Runs

namespace Oms

/-! ## The lanes of a slot table -/

/-- What `Reconcile` sees of an order. -/
def entry (s : WorkingOrder) : Lanes.Entry (Int × Int) :=
  ⟨(s.pxTicks, s.qtyLots), decide (s.state = .kPendingCancel)⟩

def lane (slots : List WorkingOrder) (side : Side) : List (Lanes.Entry (Int × Int)) :=
  (onSide slots side).map entry

theorem onSide_middle (lo hi : List WorkingOrder) (s : WorkingOrder) (side : Side) :
    onSide (lo ++ s :: hi) side = onSide lo side ++
      (if s.active = true ∧ s.side = side then [s] else []) ++ onSide hi side := by
  unfold onSide
  rw [List.filter_append, List.filter_cons]
  by_cases hs : s.active = true ∧ s.side = side
  · simp [hs]
  · simp [hs]

theorem lane_middle (lo hi : List WorkingOrder) (s : WorkingOrder) (side : Side) :
    lane (lo ++ s :: hi) side = lane lo side ++
      (if s.active = true ∧ s.side = side then [entry s] else []) ++ lane hi side := by
  unfold lane
  rw [onSide_middle, List.map_append, List.map_append]
  split <;> rfl

theorem lane_eq_nil {slots : List WorkingOrder} {side : Side} (h : onSide slots side = []) :
    lane slots side = [] := by
  rw [lane, h, List.map_nil]

theorem length_lanes (slots : List WorkingOrder) :
    (lane slots .kBid).length + (lane slots .kAsk).length = slots.countP fun s => s.active := by
  induction slots with
  | nil => rfl
  | cons s slots ih =>
    have hbid := lane_middle [] slots s .kBid
    have hask := lane_middle [] slots s .kAsk
    simp only [List.nil_append] at hbid hask
    rw [hbid, hask, List.countP_cons, ← ih]
    cases s.active <;> cases s.side <;> simp [lane, onSide] <;> omega

/-! ## One side of `Reconcile` -/

section SideStep
variable {n id : Nat} {slots : List WorkingOrder} {side : Side} {px qty : Int} {r : Emitted}

/-- On its own side, the loop body is the controller of the lane. -/
theorem SideStep.lane_eq (h : SideStep n slots id side px qty r) :
    lane r.oms.slots side =
      Lanes.turn (want px qty) (decide (slots.countP (fun s => s.active) < slots.length))
        (lane slots side) := by
  cases h with
  | idle none unwanted =>
    have hlane : lane slots side = [] := lane_eq_nil none
    simp [hlane, want, unwanted, Lanes.turn]
  | full none wanted full =>
    have hlane : lane slots side = [] := lane_eq_nil none
    have hcount : slots.countP (fun s => s.active) = slots.length :=
      List.countP_eq_length.mpr full
    simp [hlane, want, wanted, hcount, Lanes.turn]
  | @place lo hi s order c split free none wanted command entered =>
    obtain ⟨hactive, _, hside, rfl, rfl, hstate⟩ := entered
    have hlane : lane slots side = [] := lane_eq_nil none
    have hroom : slots.countP (fun s => s.active) < slots.length := by
      refine Nat.lt_of_le_of_ne List.countP_le_length fun hfull => ?_
      have hs := List.countP_eq_length.mp hfull s (by simp [split])
      simp [free] at hs
    have hrest : lane lo side = [] ∧ lane hi side = [] := by
      simpa [split, lane_middle, free] using hlane
    simp [lane_middle, hactive, hside, hrest, hlane, want, wanted, hroom, Lanes.turn, entry, hstate]
  | keep split first here stays =>
    rw [split, lane_middle, lane_eq_nil first, if_pos here]
    refine (if_pos ?_).symm
    simpa [entry] using stays
  | @cancel lo hi s c split first here live unfit command =>
    rw [split, lane_middle, lane_middle, lane_eq_nil first, if_pos here, if_pos here]
    have hturn : ¬ ((entry s).pending = true ∨ want px qty = some (entry s).key) := by
      simpa [entry] using not_or.mpr ⟨live, unfit⟩
    exact (if_neg hturn).symm

theorem SideStep.lane_other (h : SideStep n slots id side px qty r) {other : Side}
    (hne : other ≠ side) : lane r.oms.slots other = lane slots other := by
  cases h with
  | idle none unwanted => rfl
  | full none wanted full => rfl
  | place split free none wanted command entered =>
    obtain ⟨_, _, hside, _⟩ := entered
    simp [split, lane_middle, free, hside, hne.symm]
  | keep split first here stays => rfl
  | cancel split first here live unfit command =>
    simp [split, lane_middle, here, hne.symm]

theorem SideStep.length_slots (h : SideStep n slots id side px qty r) :
    r.oms.slots.length = slots.length := by
  cases h with
  | idle none unwanted => rfl
  | full none wanted full => rfl
  | place split free none wanted command entered => simp [split]
  | keep split first here stays => rfl
  | cancel split first here live unfit command => simp [split]

/-- A turn never frees a slot. -/
theorem SideStep.countP_active_le (h : SideStep n slots id side px qty r) :
    slots.countP (fun s => s.active) ≤ r.oms.slots.countP fun s => s.active := by
  cases h with
  | idle none unwanted => exact Nat.le_refl _
  | full none wanted full => exact Nat.le_refl _
  | place split free none wanted command entered => simp [split, free, entered.1]
  | keep split first here stays => exact Nat.le_refl _
  | cancel split first here live unfit command => simp [split, here.1]

/-- A turn that leaves its lane as it was does nothing. -/
theorem SideStep.eq_of_lane_eq (h : SideStep n slots id side px qty r)
    (hlane : lane r.oms.slots side = lane slots side) : r = ⟨⟨n, slots⟩, id, []⟩ := by
  cases h with
  | idle none unwanted => rfl
  | full none wanted full => rfl
  | place split free none wanted command entered =>
    rw [lane_eq_nil none, lane_middle, if_pos ⟨entered.1, entered.2.2.1⟩] at hlane
    simp at hlane
  | keep split first here stays => rfl
  | @cancel lo hi s c split first here live unfit command =>
    rw [split, lane_middle, lane_middle, if_pos here, if_pos here] at hlane
    simp [entry, live] at hlane

/-- A lane at rest is left alone. -/
theorem SideStep.quiet (h : SideStep n slots id side px qty r)
    (hrest : Lanes.Settled (want px qty) (lane slots side)) : r.out = [] := by
  cases h with
  | idle none unwanted => rfl
  | full none wanted full => rfl
  | place split free none wanted command entered =>
    rw [lane_eq_nil none, Lanes.Settled, want, if_neg wanted] at hrest
    cases hrest
  | keep split first here stays => rfl
  | @cancel lo hi s c split first here live unfit command =>
    rw [split, lane_middle, lane_eq_nil first, if_pos here, Lanes.Settled] at hrest
    cases hwant : want px qty with
    | none => simp [hwant] at hrest
    | some k =>
      have hentry : entry s = ⟨k, false⟩ := by
        rw [hwant] at hrest
        exact List.head_eq_of_cons_eq hrest
      exact absurd (hwant.trans (congrArg (some ·.key) hentry.symm)) unfit

/-- A second turn does nothing, if its lane is as the first left it and no slot has become
free. -/
theorem SideStep.again (h : SideStep n slots id side px qty r) {n' id' : Nat}
    {slots' : List WorkingOrder} {r' : Emitted} (h' : SideStep n' slots' id' side px qty r')
    (hlane : lane slots' side = lane r.oms.slots side) (hlen : slots'.length = slots.length)
    (hcount : slots.countP (fun s => s.active) ≤ slots'.countP fun s => s.active) :
    r' = ⟨⟨n', slots'⟩, id', []⟩ := by
  refine h'.eq_of_lane_eq ?_
  rw [h'.lane_eq, hlane, h.lane_eq]
  refine Lanes.turn_turn fun hroom => ?_
  rw [decide_eq_true_iff] at hroom ⊢
  omega

end SideStep

/-- **`Reconcile` is idempotent.**  Whatever the slots hold, a second call with the same prices
and quantities and no report in between does nothing: no command, no change of a slot or of
the sequence number, and no client id used up. -/
theorem reconcile_idempotent (o : Oms) (desired other : QuoteRecord) (tsNs tsNs' : Int)
    (next : Nat) :
    let r := o.reconcile desired tsNs next
    let again := { other with
      bidPx := desired.bidPx, bidQty := desired.bidQty,
      askPx := desired.askPx, askQty := desired.askQty }
    r.oms.reconcile again tsNs' r.nextClientId = ⟨r.oms, r.nextClientId, []⟩ := by
  intro r again
  have hbid := reconcileSide_step o.nextSeq o.slots .kBid desired.bidPx desired.bidQty tsNs next
  let bid := o.reconcileSide .kBid desired.bidPx desired.bidQty tsNs next
  have hask := reconcileSide_step bid.oms.nextSeq bid.oms.slots .kAsk desired.askPx
    desired.askQty tsNs bid.nextClientId
  have hbid' := reconcileSide_step r.oms.nextSeq r.oms.slots .kBid desired.bidPx desired.bidQty
    tsNs' r.nextClientId
  have hask' := reconcileSide_step r.oms.nextSeq r.oms.slots .kAsk desired.askPx desired.askQty
    tsNs' r.nextClientId
  -- the ask's turn leaves the bid's lane alone
  have hquietBid : r.oms.reconcileSide .kBid again.bidPx again.bidQty tsNs' r.nextClientId =
      ⟨r.oms, r.nextClientId, []⟩ :=
    hbid.again hbid' (hask.lane_other (by decide)) (hask.length_slots.trans hbid.length_slots)
      (Nat.le_trans hbid.countP_active_le hask.countP_active_le)
  have hquietAsk : r.oms.reconcileSide .kAsk again.askPx again.askQty tsNs' r.nextClientId =
      ⟨r.oms, r.nextClientId, []⟩ :=
    hask.again hask' rfl hask.length_slots hask.countP_active_le
  rw [reconcile, hquietBid]
  dsimp only
  rw [hquietAsk]
  rfl

/-! ## The answers -/

/-- The ids under which orders were placed. -/
def placedIds (out : List OrderCommand) : List Nat :=
  (out.filter fun c => decide (c.kind = .kPlace)).map OrderCommand.clientId

/-- The ids of the orders that are being cancelled. -/
def pendingIds (slots : List WorkingOrder) : List Nat :=
  (slots.filter fun s => s.active && decide (s.state = .kPendingCancel)).map WorkingOrder.clientId

/-- The answers a `Reconcile` call waits for: an acknowledgement of every order it placed,
a confirmation for every order that is being cancelled. -/
def due (r : Emitted) : List (Nat × ExecKind) :=
  (placedIds r.out).map (fun id => (id, .kAck)) ++
    (pendingIds r.oms.slots).map fun id => (id, .kCanceled)

/-- Reports of exactly that, in any order. -/
def Answers (r : Emitted) (es : List ExecEvent) : Prop :=
  (es.map fun e => (e.clientId, e.kind)).Perm (due r)

/-- The reports come one after the other, and each reaches an order that waits for it: a
cancel confirmation one that is being cancelled, any other report one that is not. -/
def Reach : Oms → List ExecEvent → Prop
  | _, [] => True
  | o, e :: es =>
      (∃ s, o.reached e = some s ∧ (e.kind = .kCanceled ↔ s.state = .kPendingCancel)) ∧
        Reach (o.onExec e) es

theorem pendingIds_middle (lo hi : List WorkingOrder) (s : WorkingOrder) :
    pendingIds (lo ++ s :: hi) = pendingIds lo ++
      (if s.active = true ∧ s.state = .kPendingCancel then [s.clientId] else []) ++
        pendingIds hi := by
  unfold pendingIds
  rw [List.filter_append, List.filter_cons]
  by_cases hs : s.active = true ∧ s.state = .kPendingCancel
  · simp [hs]
  · simp [hs]

theorem mem_pendingIds {slots : List WorkingOrder} {id : Nat} :
    id ∈ pendingIds slots ↔
      ∃ s ∈ slots, s.active = true ∧ s.state = .kPendingCancel ∧ s.clientId = id := by
  simp [pendingIds, and_assoc]

/-- Where nothing is being cancelled there is nothing to confirm. -/
theorem confirm_lane {slots : List WorkingOrder} (hnone : pendingIds slots = []) (side : Side) :
    Lanes.confirm (lane slots side) = lane slots side := by
  refine List.filter_eq_self.mpr fun a ha => ?_
  obtain ⟨s, hs, rfl⟩ := List.mem_map.mp ha
  obtain ⟨hmem, hhere⟩ := List.mem_filter.mp hs
  have hactive : s.active = true := (Bool.and_eq_true_iff.mp hhere).1
  have hlive : s.state ≠ .kPendingCancel := fun hstate =>
    List.not_mem_nil (hnone ▸ mem_pendingIds.mpr ⟨s, hmem, hactive, hstate, rfl⟩)
  simpa [entry] using hlive

section
variable {o : Oms} {e : ExecEvent} {s : WorkingOrder} (hreached : o.reached e = some s)
include hreached

/-- An acknowledgement that reaches an order which is not being cancelled changes no lane. -/
theorem acked_lane (hack : e.kind = .kAck) (hlive : s.state ≠ .kPendingCancel) :
    pendingIds (o.onExec e).slots = pendingIds o.slots ∧
      ∀ side, lane (o.onExec e).slots side = lane o.slots side := by
  obtain ⟨lo, hi, hslots, -, -, hafter⟩ := onExec_reached hreached
  have hsame : answered e s =
      { s with state := .kWorking, exchangeOrderId := e.exchangeOrderId } := by
    simp [answered, hack]
  constructor
  · rw [hafter, hslots, pendingIds_middle, pendingIds_middle, hsame]
    simp [hlive]
  · intro side
    rw [hafter, hslots, lane_middle, lane_middle, hsame]
    simp [entry, hlive]

/-- A confirmation that reaches an order which is being cancelled removes it. -/
theorem canceled_lane (hcanceled : e.kind = .kCanceled) (hstate : s.state = .kPendingCancel) :
    (pendingIds o.slots).Perm (e.clientId :: pendingIds (o.onExec e).slots) ∧
      ∀ side, Lanes.confirm (lane (o.onExec e).slots side) = Lanes.confirm (lane o.slots side) := by
  obtain ⟨lo, hi, hslots, hactive, hid, hafter⟩ := onExec_reached hreached
  have hfreed : (answered e s).active = false := by simp [answered, hcanceled]
  constructor
  · rw [hafter, hslots, pendingIds_middle, pendingIds_middle, if_pos ⟨hactive, hstate⟩, hid]
    simp [hfreed]
  · intro side
    rw [hafter, hslots, lane_middle, lane_middle]
    by_cases hside : s.side = side
    · simp [hfreed, hactive, hside, Lanes.confirm, entry, hstate]
    · simp [hfreed, hside]

end

/-- **What a round of answers does to the lanes**, whatever the ids are and in whatever order
the reports come: the orders that were being cancelled are gone, and the others are as they
were. -/
theorem Reach.lane_eq {o : Oms} {es : List ExecEvent} (h : Reach o es)
    (hkinds : ∀ e ∈ es, e.kind = .kAck ∨ e.kind = .kCanceled)
    (hall : ((es.filter fun e => decide (e.kind = .kCanceled)).map ExecEvent.clientId).Perm
      (pendingIds o.slots)) (side : Side) :
    lane (es.foldl onExec o).slots side = Lanes.confirm (lane o.slots side) := by
  induction es generalizing o with
  | nil => exact (confirm_lane (List.nil_perm.mp hall) side).symm
  | cons e es ih =>
    obtain ⟨⟨s, hreached, hfits⟩, hrest⟩ := h
    have hkinds' : ∀ e' ∈ es, e'.kind = .kAck ∨ e'.kind = .kCanceled := fun e' he' =>
      hkinds e' (List.mem_cons_of_mem _ he')
    rcases hkinds e List.mem_cons_self with hack | hcanceled
    · have hlive : s.state ≠ .kPendingCancel := fun hstate => by
        rw [hack] at hfits
        cases hfits.mpr hstate
      obtain ⟨hpending, hlane⟩ := acked_lane hreached hack hlive
      rw [List.foldl_cons, ih hrest hkinds' ?_, hlane]
      rw [hpending]
      simpa [hack] using hall
    · obtain ⟨hpending, hlane⟩ := canceled_lane hreached hcanceled (hfits.mp hcanceled)
      rw [List.foldl_cons, ih hrest hkinds' ?_, hlane]
      have hcons := hall.trans hpending
      rw [List.filter_cons_of_pos (by simp [hcanceled]), List.map_cons] at hcons
      exact hcons.cons_inv

theorem mem_due {r : Emitted} {id : Nat} {kind : ExecKind} :
    (id, kind) ∈ due r ↔
      (id ∈ placedIds r.out ∧ kind = .kAck) ∨
      (id ∈ pendingIds r.oms.slots ∧ kind = .kCanceled) := by
  simp [due, eq_comm]

theorem Answers.mem {r : Emitted} {es : List ExecEvent} (h : Answers r es) {e : ExecEvent}
    (he : e ∈ es) :
    (e.clientId ∈ placedIds r.out ∧ e.kind = .kAck) ∨
    (e.clientId ∈ pendingIds r.oms.slots ∧ e.kind = .kCanceled) :=
  mem_due.mp (h.mem_iff.mp (List.mem_map_of_mem he))

/-- The cancels confirmed are those that are waited for. -/
theorem Answers.canceled {r : Emitted} {es : List ExecEvent} (h : Answers r es) :
    ((es.filter fun e => decide (e.kind = .kCanceled)).map ExecEvent.clientId).Perm
      (pendingIds r.oms.slots) := by
  have hsub := (h.filter fun d => decide (d.2 = .kCanceled)).map Prod.fst
  have hdue : (due r).filter (fun d => decide (d.2 = .kCanceled)) =
      (pendingIds r.oms.slots).map fun id => (id, .kCanceled) := by
    rw [due, List.filter_append, List.filter_eq_nil_iff.mpr (by simp),
      List.filter_eq_self.mpr (by simp), List.nil_append]
  rw [hdue, List.filter_map, List.map_map, List.map_map] at hsub
  exact hsub.trans (List.Perm.of_eq (List.map_id _))

/-- Reports that answer a call can always be written down. -/
theorem exists_answers (r : Emitted) : ∃ es, Answers r es := by
  refine ⟨(due r).map fun d => Desk.report d.1 d.2, ?_⟩
  rw [Answers, List.map_map]
  exact List.Perm.of_eq (List.map_id _)

/-! ## Telling orders apart -/

/-- The active orders have ids of their own, all handed out before `next`. -/
structure Told (slots : List WorkingOrder) (next : Nat) : Prop where
  apart : slots.Pairwise (Desk.Apart WorkingOrder.clientId)
  ids_lt : ∀ s ∈ slots, s.active = true → s.clientId < next

/-- An active order of the side has the id, and is not being cancelled. -/
def Rests (slots : List WorkingOrder) (side : Side) (id : Nat) : Prop :=
  ∃ s ∈ slots, s.active = true ∧ s.clientId = id ∧ s.side = side ∧ s.state ≠ .kPendingCancel

section Told
variable {n id : Nat} {slots : List WorkingOrder} {side : Side} {px qty : Int} {r : Emitted}

theorem SideStep.told (h : SideStep n slots id side px qty r) (htold : Told slots id) :
    Told r.oms.slots r.nextClientId := by
  cases h with
  | idle none unwanted => exact htold
  | full none wanted full => exact htold
  | @place lo hi s order c split free none wanted command entered =>
    subst split
    obtain ⟨hactive, hid, _⟩ := entered
    have hothers : ∀ a ∈ lo ++ hi, a.active = true → a.clientId < id := fun a ha =>
      htold.ids_lt a (mem_middle.mpr (Or.inr ha))
    constructor
    · refine Desk.pairwise_apart_replace htold.apart fun a ha _ _ haactive he => ?_
      exact absurd (he.symm.trans hid) (Nat.ne_of_lt (hothers a ha haactive))
    · intro a ha haactive
      rcases mem_middle.mp ha with rfl | hother
      · exact hid ▸ Nat.lt_succ_self _
      · exact Nat.lt_succ_of_lt (hothers a hother haactive)
  | keep split first here stays => exact htold
  | @cancel lo hi s c split first here live unfit command =>
    subst split
    constructor
    · exact Desk.pairwise_apart_replace htold.apart fun a _ hapart => hapart
    · intro a ha haactive
      rcases mem_middle.mp ha with rfl | hother
      · exact htold.ids_lt s (by simp) haactive
      · exact htold.ids_lt a (mem_middle.mpr (Or.inr hother)) haactive

theorem Told.reported {slots slots' : List WorkingOrder} {next : Nat} (h : Told slots next)
    {e : ExecEvent} (hr : Desk.Reported e slots slots') : Told slots' next := by
  refine ⟨hr.pairwise_apart (fun _ _ hid _ => hid) h.apart, ?_⟩
  cases hr with
  | unknown => exact h.ids_lt
  | @rests lo hi s s' active _ _ same =>
    intro a ha haactive
    rcases mem_middle.mp ha with rfl | hother
    · exact same.2.1 ▸ h.ids_lt s (by simp) active
    · exact h.ids_lt a (mem_middle.mpr (Or.inr hother)) haactive
  | ends _ _ _ freed =>
    intro a ha haactive
    rcases mem_middle.mp ha with rfl | hother
    · simp [freed] at haactive
    · exact h.ids_lt a (mem_middle.mpr (Or.inr hother)) haactive

/-- A turn places nothing, or one order under the next id. -/
theorem SideStep.placed (h : SideStep n slots id side px qty r) :
    (placedIds r.out = [] ∧ r.nextClientId = id) ∨
      (placedIds r.out = [id] ∧ r.nextClientId = id + 1 ∧ Rests r.oms.slots side id) := by
  cases h with
  | idle none unwanted => exact Or.inl ⟨rfl, rfl⟩
  | full none wanted full => exact Or.inl ⟨rfl, rfl⟩
  | @place lo hi s order c split free none wanted command entered =>
    obtain ⟨hkind, _, hid, _⟩ := command
    obtain ⟨hactive, horder, hside, _, _, hstate⟩ := entered
    refine Or.inr ⟨by simp [placedIds, hkind, hid], rfl, order, by simp, hactive, horder, hside, ?_⟩
    simp [hstate]
  | keep split first here stays => exact Or.inl ⟨rfl, rfl⟩
  | @cancel lo hi s c split first here live unfit command =>
    exact Or.inl ⟨by simp [placedIds, command.1], rfl⟩

/-- The turn of the other side does not touch an order. -/
theorem SideStep.rests_other (h : SideStep n slots id side px qty r) {other : Side}
    (hne : other ≠ side) {placedId : Nat} (hrests : Rests slots other placedId) :
    Rests r.oms.slots other placedId := by
  obtain ⟨a, ha, hactive, hid, hside, hlive⟩ := hrests
  have hkept : ∀ {lo hi : List WorkingOrder} {s s' : WorkingOrder}, slots = lo ++ s :: hi →
      a ≠ s → Rests (lo ++ s' :: hi) other placedId := by
    rintro lo hi s s' rfl hdiff
    have hothers : a ∈ lo ++ hi := (mem_middle.mp ha).resolve_left hdiff
    exact ⟨a, mem_middle.mpr (Or.inr hothers), hactive, hid, hside, hlive⟩
  cases h with
  | idle none unwanted => exact ⟨a, ha, hactive, hid, hside, hlive⟩
  | full none wanted full => exact ⟨a, ha, hactive, hid, hside, hlive⟩
  | place split free none wanted command entered =>
    refine hkept split ?_
    rintro rfl
    rw [free] at hactive
    cases hactive
  | keep split first here stays => exact ⟨a, ha, hactive, hid, hside, hlive⟩
  | cancel split first here live unfit command =>
    refine hkept split ?_
    rintro rfl
    exact hne (hside.symm.trans here.2)

/-- An order with an id of its own is the one that is reached. -/
theorem reached_of_apart {o : Oms} {e : ExecEvent} {s : WorkingOrder}
    (hapart : o.slots.Pairwise (Desk.Apart WorkingOrder.clientId)) (hs : s ∈ o.slots)
    (hactive : s.active = true) (hid : s.clientId = e.clientId) : o.reached e = some s := by
  cases hfind : o.findByClient e.clientId with
  | none => exact absurd hid (findByClient_none.mp hfind s hs hactive)
  | some i =>
    have hreached : o.reached e = some (o.slotAt i) := by rw [reached, hfind, Option.map_some]
    obtain ⟨lo, hi, hslots, hactive', hid', -⟩ := onExec_reached hreached
    have hmem : o.slotAt i ∈ o.slots := by simp [hslots]
    rw [hreached, Desk.eq_of_apart hapart hmem hs hactive' hactive (hid'.trans hid.symm)]

/-- Reports with ids of their own, each for an order that waits for it, reach these orders in
whatever order they come. -/
theorem reach_of_apart {o : Oms} {es : List ExecEvent}
    (hapart : o.slots.Pairwise (Desk.Apart WorkingOrder.clientId))
    (hids : (es.map ExecEvent.clientId).Nodup)
    (hfor : ∀ e ∈ es, ∃ s ∈ o.slots, s.active = true ∧ s.clientId = e.clientId ∧
      (e.kind = .kCanceled ↔ s.state = .kPendingCancel)) : Reach o es := by
  induction es generalizing o with
  | nil => trivial
  | cons e es ih =>
    obtain ⟨s, hs, hactive, hid, hfits⟩ := hfor e List.mem_cons_self
    obtain ⟨hfresh, hids'⟩ := List.nodup_cons.mp hids
    have hreached := reached_of_apart hapart hs hactive hid
    obtain ⟨lo, hi, hslots, -, -, hafter⟩ := onExec_reached hreached
    refine ⟨⟨s, hreached, hfits⟩, ih ?_ hids' fun e' he' => ?_⟩
    · exact (Desk.onExec_reported o e).2.pairwise_apart (fun _ _ hid _ => hid) hapart
    · -- the order of a later report has another id, so it is where it was
      obtain ⟨s', hs', hactive', hid', hfits'⟩ := hfor e' (List.mem_cons_of_mem _ he')
      have hne : s' ≠ s := by
        rintro rfl
        exact hfresh (hid.symm.trans hid' ▸ List.mem_map_of_mem he')
      rw [hslots] at hs'
      have hother : s' ∈ lo ++ hi := (mem_middle.mp hs').resolve_left hne
      rw [hafter]
      exact ⟨s', mem_middle.mpr (Or.inr hother), hactive', hid', hfits'⟩

/-- **With ids of their own, orders are reached**, whatever the order of the answers. -/
theorem Answers.reach {r : Emitted} {es : List ExecEvent} (h : Answers r es)
    (hapart : r.oms.slots.Pairwise (Desk.Apart WorkingOrder.clientId))
    (hplaced : (placedIds r.out).Nodup)
    (hrests : ∀ id ∈ placedIds r.out, ∃ side, Rests r.oms.slots side id) : Reach r.oms es := by
  have hpending : (pendingIds r.oms.slots).Nodup := by
    refine List.pairwise_map.mpr ((hapart.filter _).imp_of_mem ?_)
    intro a b ha hb hne
    obtain ⟨-, ha⟩ := List.mem_filter.mp ha
    obtain ⟨-, hb⟩ := List.mem_filter.mp hb
    exact hne (Bool.and_eq_true_iff.mp ha).1 (Bool.and_eq_true_iff.mp hb).1
  have hids : (es.map ExecEvent.clientId).Nodup := by
    have hperm : (es.map ExecEvent.clientId).Perm
        (placedIds r.out ++ pendingIds r.oms.slots) := by
      have hfst := h.map Prod.fst
      rw [due, List.map_append, List.map_map, List.map_map, List.map_map] at hfst
      simpa [Function.comp_def] using hfst
    refine hperm.nodup_iff.mpr (List.nodup_append.mpr ⟨hplaced, hpending, ?_⟩)
    -- what was placed is not being cancelled
    rintro id hid _ hid' rfl
    obtain ⟨side, a, ha, hactive, haid, -, hlive⟩ := hrests id hid
    obtain ⟨b, hb, hbactive, hstate, hbid⟩ := mem_pendingIds.mp hid'
    exact hlive (Desk.eq_of_apart hapart hb ha hbactive hactive (hbid.trans haid.symm) ▸ hstate)
  refine reach_of_apart hapart hids fun e he => ?_
  rcases h.mem he with ⟨hid, hkind⟩ | ⟨hid, hkind⟩
  · obtain ⟨side, a, ha, hactive, haid, -, hlive⟩ := hrests _ hid
    exact ⟨a, ha, hactive, haid, iff_of_false (by rw [hkind]; decide) hlive⟩
  · obtain ⟨a, ha, hactive, hstate, haid⟩ := mem_pendingIds.mp hid
    exact ⟨a, ha, hactive, haid, iff_of_true hkind hstate⟩

end Told

end Oms

/-! ## Rounds -/

/-- The machine with the id counter its caller owns. -/
structure Station where
  oms : Oms
  nextClientId : Nat

namespace Station
open Oms

/-- The calls that change the machine. -/
inductive Op where
  | reconcile (desired : QuoteRecord) (tsNs : Int)
  | onExec (e : ExecEvent)
  | cancelAll (tsNs : Int)
  | onReconcile (r : ReconcileReport)

def start (firstClientId : Nat) : Station := ⟨Oms.fresh, firstClientId⟩

def step (s : Station) : Op → Station
  | .reconcile desired tsNs =>
      let r := s.oms.reconcile desired tsNs s.nextClientId
      ⟨r.oms, r.nextClientId⟩
  | .onExec e => { s with oms := s.oms.onExec e }
  | .cancelAll tsNs => { s with oms := (s.oms.cancelAll tsNs).1 }
  | .onReconcile r => { s with oms := s.oms.onReconcile r }

/-- The price and quantity a quote wants on a side. -/
def wanted (desired : QuoteRecord) : Side → Option (Int × Int)
  | .kBid => want desired.bidPx desired.bidQty
  | .kAsk => want desired.askPx desired.askQty

/-- One `Reconcile` call, and the answers to everything it waits for, each of which reaches
an order that waits for it. -/
inductive Round (desired : QuoteRecord) : Station → Station → Prop
  | answered {s : Station} {r : Emitted} {es : List ExecEvent} (tsNs : Int)
      (call : s.oms.reconcile desired tsNs s.nextClientId = r) (answers : Answers r es)
      (reach : Reach r.oms es) :
      Round desired s ⟨es.foldl Oms.onExec r.oms, r.nextClientId⟩

inductive Rounds (desired : QuoteRecord) : Nat → Station → Station → Prop
  | zero (s : Station) : Rounds desired 0 s s
  | succ {k : Nat} {s s' s'' : Station} (first : Round desired s s')
      (rest : Rounds desired k s' s'') : Rounds desired (k + 1) s s''

/-- The active orders are exactly those wanted, and no further call emits anything. -/
structure AtRest (desired : QuoteRecord) (s : Station) : Prop where
  orders : ∀ side, (onSide s.oms.slots side).map (fun a => (a.pxTicks, a.qtyLots)) =
    (wanted desired side).toList
  quiet : ∀ k s', Rounds desired k s s' →
    ∀ tsNs, (s'.oms.reconcile desired tsNs s'.nextClientId).out = []

/-- On no side does a live order at the wanted price and quantity come before another live
order. -/
def Unhidden (desired : QuoteRecord) (s : Station) : Prop :=
  ∀ side, (onSide s.oms.slots side).Pairwise fun a b => a.state ≠ .kPendingCancel →
    b.state ≠ .kPendingCancel → wanted desired side ≠ some (a.pxTicks, a.qtyLots)

instance (desired : QuoteRecord) (s : Station) : Decidable (Unhidden desired s) :=
  Side.decidableForall

/-! ## Rounds of the machine are rounds of its lanes -/

def lanes (s : Station) : Lanes.Pair (Int × Int) :=
  ⟨lane s.oms.slots .kBid, lane s.oms.slots .kAsk⟩

theorem total_lanes (s : Station) : s.lanes.total = s.oms.workingCount := length_lanes s.oms.slots

/-- The two turns of a `Reconcile` call. -/
theorem reconcile_steps (s : Station) (desired : QuoteRecord) (tsNs : Int) :
    ∃ bid ask : Emitted,
      SideStep s.oms.nextSeq s.oms.slots s.nextClientId .kBid desired.bidPx desired.bidQty bid ∧
      SideStep bid.oms.nextSeq bid.oms.slots bid.nextClientId .kAsk desired.askPx desired.askQty
        ask ∧
      s.oms.reconcile desired tsNs s.nextClientId =
        ⟨ask.oms, ask.nextClientId, bid.out ++ ask.out⟩ :=
  ⟨_, _, reconcileSide_step _ _ .kBid _ _ tsNs _, reconcileSide_step _ _ .kAsk _ _ tsNs _, rfl⟩

/-- The number of slots after reports. -/
theorem length_answers (o : Oms) (es : List ExecEvent) :
    (es.foldl Oms.onExec o).slots.length = o.slots.length := by
  induction es generalizing o with
  | nil => rfl
  | cons e es ih => exact (ih (o.onExec e)).trans (Desk.onExec_reported o e).2.length_eq

/-- **A round of the machine is a round of its lanes.** -/
theorem Round.lanes_eq {desired : QuoteRecord} {s s' : Station} (h : Round desired s s')
    (hfull : s.oms.slots.length = kSlots) :
    s'.lanes = s.lanes.round kSlots (wanted desired .kBid) (wanted desired .kAsk) ∧
      s'.oms.slots.length = kSlots := by
  cases h with | @answered r es tsNs call answers reach => ?_
  obtain ⟨bid, ask, hbid, hask, hcall⟩ := reconcile_steps s desired tsNs
  obtain rfl : r = ⟨ask.oms, ask.nextClientId, bid.out ++ ask.out⟩ := call.symm.trans hcall
  have hconfirm := reach.lane_eq (fun e he => (answers.mem he).imp And.right And.right)
    answers.canceled
  refine ⟨?_, ?_⟩
  · -- the bid's turn changes the bid lane only, then the ask's turn the ask lane only
    have hkept : lane bid.oms.slots .kAsk = lane s.oms.slots .kAsk := hbid.lane_other (by decide)
    have hkept' : lane ask.oms.slots .kBid = lane bid.oms.slots .kBid :=
      hask.lane_other (by decide)
    have hbids := hbid.lane_eq
    have hasks := hask.lane_eq
    rw [← length_lanes, hfull] at hbids
    rw [← length_lanes, hbid.length_slots, hfull, hkept, hbids] at hasks
    rw [lanes, hconfirm, hconfirm, hkept', hasks, hbids]
    rfl
  · exact (length_answers ask.oms es).trans
      (hask.length_slots.trans (hbid.length_slots.trans hfull))

theorem Rounds.lanes_eq {desired : QuoteRecord} {k : Nat} {s s' : Station}
    (h : Rounds desired k s s') (hfull : s.oms.slots.length = kSlots) :
    s'.lanes = s.lanes.rounds kSlots (wanted desired .kBid) (wanted desired .kAsk) k ∧
      s'.oms.slots.length = kSlots := by
  induction h with
  | zero s => exact ⟨rfl, hfull⟩
  | succ first rest ih =>
    obtain ⟨hlanes, hfull'⟩ := first.lanes_eq hfull
    obtain ⟨hrest, hfull''⟩ := ih hfull'
    rw [hlanes] at hrest
    exact ⟨hrest, hfull''⟩

/-! ## Rounds can be answered -/

/-- If the active orders have ids of their own, the answers to a call reach them. -/
theorem reach_of_told {s : Station} (htold : Told s.oms.slots s.nextClientId)
    (desired : QuoteRecord) (tsNs : Int) {es : List ExecEvent}
    (hes : Answers (s.oms.reconcile desired tsNs s.nextClientId) es) :
    Reach (s.oms.reconcile desired tsNs s.nextClientId).oms es := by
  obtain ⟨bid, ask, hbid, hask, hcall⟩ := reconcile_steps s desired tsNs
  rw [hcall] at hes ⊢
  have happend : placedIds (bid.out ++ ask.out) = placedIds bid.out ++ placedIds ask.out := by
    rw [placedIds, List.filter_append, List.map_append]
    rfl
  refine hes.reach (hask.told (hbid.told htold)).apart ?_ fun id hid => ?_
  · rw [happend]
    rcases hbid.placed with ⟨hbids, -⟩ | ⟨hbids, hnext, -⟩ <;>
      rcases hask.placed with ⟨hasks, -⟩ | ⟨hasks, -, -⟩ <;>
        simp [*]
  · rw [happend, List.mem_append] at hid
    rcases hid with hid | hid
    · rcases hbid.placed with ⟨hnone, -⟩ | ⟨hone, -, hrests⟩
      · rw [hnone] at hid
        cases hid
      · rw [hone, List.mem_singleton] at hid
        exact ⟨.kBid, hask.rests_other (by decide) (hid ▸ hrests)⟩
    · rcases hask.placed with ⟨hnone, -⟩ | ⟨hone, -, hrests⟩
      · rw [hnone] at hid
        cases hid
      · rw [hone, List.mem_singleton] at hid
        exact ⟨.kAsk, hid ▸ hrests⟩

/-- A round keeps the ids apart. -/
theorem Round.told {desired : QuoteRecord} {s s' : Station} (h : Round desired s s')
    (htold : Told s.oms.slots s.nextClientId) : Told s'.oms.slots s'.nextClientId := by
  cases h with | @answered r es tsNs call answers reach => ?_
  obtain ⟨bid, ask, hbid, hask, hcall⟩ := reconcile_steps s desired tsNs
  obtain rfl : r = ⟨ask.oms, ask.nextClientId, bid.out ++ ask.out⟩ := call.symm.trans hcall
  have hafter : ∀ (es : List ExecEvent) (o : Oms) (next : Nat), Told o.slots next →
      Told (es.foldl Oms.onExec o).slots next := by
    intro es
    induction es with
    | nil => exact fun _ _ h => h
    | cons e es ih =>
      exact fun o next h => ih (o.onExec e) next (h.reported (Desk.onExec_reported o e).2)
  exact hafter es ask.oms ask.nextClientId (hask.told (hbid.told htold))

theorem Rounds.told {desired : QuoteRecord} {k : Nat} {s s' : Station}
    (h : Rounds desired k s s') (htold : Told s.oms.slots s.nextClientId) :
    Told s'.oms.slots s'.nextClientId := by
  induction h with
  | zero s => exact htold
  | succ first rest ih => exact ih (first.told htold)

theorem exists_rounds (desired : QuoteRecord) (k : Nat) {s : Station}
    (htold : Told s.oms.slots s.nextClientId) : ∃ s', Rounds desired k s s' := by
  induction k generalizing s with
  | zero => exact ⟨s, .zero s⟩
  | succ k ih =>
    obtain ⟨es, hes⟩ := exists_answers (s.oms.reconcile desired 0 s.nextClientId)
    have hround := Round.answered 0 rfl hes (reach_of_told htold desired 0 hes)
    obtain ⟨s', hs'⟩ := ih (hround.told htold)
    exact ⟨s', .succ hround hs'⟩

/-! ## Convergence -/

/-- Lanes at rest are left alone. -/
theorem quiet_of_settled {desired : QuoteRecord} {s : Station}
    (h : s.lanes.Settled (wanted desired .kBid) (wanted desired .kAsk)) (tsNs : Int) :
    (s.oms.reconcile desired tsNs s.nextClientId).out = [] := by
  obtain ⟨bid, ask, hbid, hask, hcall⟩ := reconcile_steps s desired tsNs
  have hlane : lane bid.oms.slots .kAsk = lane s.oms.slots .kAsk := hbid.lane_other (by decide)
  rw [hcall, hbid.quiet h.1, hask.quiet (hlane ▸ h.2)]
  rfl

theorem clear_lane_iff {want : Option (Int × Int)} {slots : List WorkingOrder} {side : Side} :
    Lanes.Clear want (lane slots side) ↔
      (onSide slots side).Pairwise fun a b => a.state ≠ .kPendingCancel →
        b.state ≠ .kPendingCancel → want ≠ some (a.pxTicks, a.qtyLots) := by
  simp [Lanes.Clear, Lanes.confirm, lane, List.pairwise_filter, List.pairwise_map, entry]

theorem clear_lanes_iff {desired : QuoteRecord} {s : Station} :
    s.lanes.Clear (wanted desired .kBid) (wanted desired .kAsk) ↔ Unhidden desired s := by
  refine (and_congr clear_lane_iff clear_lane_iff).trans ⟨?_, fun h => ⟨h .kBid, h .kAsk⟩⟩
  rintro ⟨hbid, hask⟩ side
  cases side with
  | kBid => exact hbid
  | kAsk => exact hask

/-- Lanes at rest are a machine at rest. -/
theorem atRest_of_settled {desired : QuoteRecord} {s : Station}
    (hfull : s.oms.slots.length = kSlots)
    (h : s.lanes.Settled (wanted desired .kBid) (wanted desired .kAsk)) : AtRest desired s := by
  constructor
  · have hkeys : ∀ side, Lanes.Settled (wanted desired side) (lane s.oms.slots side) →
        (onSide s.oms.slots side).map (fun a => (a.pxTicks, a.qtyLots)) =
          (wanted desired side).toList := by
      intro side hside
      have hmap := congrArg (List.map Lanes.Entry.key) hside
      simpa [lane, entry, Function.comp_def] using hmap
    intro side
    cases side with
    | kBid => exact hkeys .kBid h.1
    | kAsk => exact hkeys .kAsk h.2
  · intro k s' hrounds tsNs
    obtain ⟨hlanes, _⟩ := hrounds.lanes_eq hfull
    exact quiet_of_settled (hlanes ▸ h.rounds k) tsNs

/-- A machine at rest hides no order: it has at most one on each side. -/
theorem AtRest.unhidden {desired : QuoteRecord} {s : Station} (h : AtRest desired s) :
    Unhidden desired s := by
  intro side
  have hlen : (onSide s.oms.slots side).length ≤ 1 := by
    have horders := congrArg List.length (h.orders side)
    rw [List.length_map] at horders
    rw [horders]
    cases wanted desired side <;> simp
  change List.Pairwise _ (onSide s.oms.slots side)
  generalize onSide s.oms.slots side = orders at hlen
  cases orders with
  | nil => exact List.Pairwise.nil
  | cons o rest =>
    obtain rfl : rest = [] := List.eq_nil_of_length_eq_zero (by simpa using hlen)
    exact List.pairwise_singleton _ _

theorem step_full {s : Station} (h : s.oms.slots.length = kSlots) (op : Op) :
    (s.step op).oms.slots.length = kSlots := by
  refine Eq.trans ?_ h
  cases op with
  | reconcile desired tsNs =>
    obtain ⟨bid, ask, hbid, hask, hcall⟩ := reconcile_steps s desired tsNs
    rw [step, hcall]
    exact hask.length_slots.trans hbid.length_slots
  | onExec e => exact (Desk.onExec_reported s.oms e).2.length_eq
  | cancelAll tsNs => exact List.length_map _
  | onReconcile r => exact length_onReconcile s.oms r

/-- **Convergence of the machine.**  Take any state reached by calls of `Reconcile`,
`OnExec`, `CancelAll` and `OnReconcile`, any desired quote, and any rounds from there in which
every place command and every order in `kPendingCancel` is answered.  The active orders are
exactly the desired ones and no further call emits anything, after as many rounds as there
were active slots and two more, if and only if no side of the first state hides a live order
behind one that is wanted as it is; and if one does, it is so after no number of rounds.

Answered means that the report reaches an order that waits for it.  It always does if the
active orders have ids of their own that the counter has passed. -/
theorem converges_iff (firstClientId : Nat) (ops : List Op) (desired : QuoteRecord) :
    let s := run step (start firstClientId) ops
    (∀ k s', Rounds desired k s s' →
      (AtRest desired s' → Unhidden desired s) ∧
      (s.oms.workingCount + 2 ≤ k → (AtRest desired s' ↔ Unhidden desired s))) ∧
    (Told s.oms.slots s.nextClientId → ∀ k s', Rounds desired k s s' → ∀ tsNs es,
      Answers (s'.oms.reconcile desired tsNs s'.nextClientId) es →
        Reach (s'.oms.reconcile desired tsNs s'.nextClientId).oms es) := by
  intro s
  have hfull : s.oms.slots.length = kSlots :=
    run_invariant (I := fun s : Station => s.oms.slots.length = kSlots)
      (fun _ op h => step_full h op) rfl ops
  have htotal : s.lanes.total ≤ kSlots := by
    rw [total_lanes, ← hfull]
    exact List.countP_le_length
  refine ⟨fun k s' hrounds => ?_, fun htold k s' hrounds tsNs es hes =>
    reach_of_told (hrounds.told htold) desired tsNs hes⟩
  obtain ⟨hlanes, hfull'⟩ := hrounds.lanes_eq hfull
  have hnecessary : AtRest desired s' → Unhidden desired s := by
    intro hrest
    have hclear := clear_lanes_iff.mpr hrest.unhidden
    rw [hlanes, Lanes.Pair.clear_rounds] at hclear
    exact clear_lanes_iff.mp hclear
  refine ⟨hnecessary, fun hk => ⟨hnecessary, fun hunhidden => ?_⟩⟩
  obtain ⟨more, rfl⟩ := Nat.exists_eq_add_of_le hk
  have hsettled := (Lanes.Pair.settled_rounds_iff (by decide) htotal).mpr
    (clear_lanes_iff.mpr hunhidden)
  have hstays : Lanes.Pair.Settled _ _ (Lanes.Pair.rounds kSlots _ _ more _) :=
    hsettled.rounds more
  rw [← Lanes.Pair.rounds_add, total_lanes, ← hlanes] at hstays
  exact atRest_of_settled hfull' hstays

/-- The rounds of a machine that says nothing and waits for nothing. -/
theorem rounds_idle (desired : QuoteRecord) {s : Station}
    (hcall : ∀ tsNs, s.oms.reconcile desired tsNs s.nextClientId = ⟨s.oms, s.nextClientId, []⟩)
    (hlive : due ⟨s.oms, s.nextClientId, []⟩ = []) (k : Nat) (s' : Station) :
    Rounds desired k s s' ↔ s' = s := by
  have hnone : Answers ⟨s.oms, s.nextClientId, []⟩ [] := by
    rw [Answers, hlive]
    exact List.Perm.refl _
  have hround : Round desired s s := .answered 0 (hcall 0) hnone trivial
  constructor
  · intro h
    induction h with
    | zero s => rfl
    | @succ k s t s'' first rest ih =>
      obtain rfl : t = s := by
        cases first with | @answered r es tsNs call answers reach => ?_
        obtain rfl : r = ⟨s.oms, s.nextClientId, []⟩ := call.symm.trans (hcall tsNs)
        rw [Answers, hlive] at answers
        obtain rfl : es = [] := List.map_eq_nil_iff.mp answers.eq_nil
        rfl
      exact ih hcall hlive hnone hround
  · rintro rfl
    induction k with
    | zero => exact .zero _
    | succ k ih => exact .succ hround ih

/-- A machine that has adopted bids of one lot at the given prices, under the ids 1, 2 and
so on. -/
def adopted (prices : List Int) : List Op :=
  [.onReconcile (World.reportOf (prices.zipIdx.map fun p => ⟨p.2 + 1, p.2 + 1, p.1, 1, 0, .kBid⟩))]

/-- Two adopted bids, the wanted one second: the first is cancelled and the second stays.  And
one adopted bid that is wanted, under an id which the counter has not passed. -/
theorem converges_wanted_last :
    (∃ s', Rounds (Desk.wantBid 100) 4 (run step (start 10) (adopted [90, 100])) s' ∧
      AtRest (Desk.wantBid 100) s') ∧
    (∃ s', Rounds (Desk.wantBid 100) 3 (run step (start 1) (adopted [100])) s' ∧
      AtRest (Desk.wantBid 100) s') := by
  constructor
  · obtain ⟨s', hrounds⟩ := exists_rounds (Desk.wantBid 100) 4
      (s := run step (start 10) (adopted [90, 100])) ⟨by decide, by decide⟩
    have hiff := ((converges_iff 10 (adopted [90, 100]) (Desk.wantBid 100)).1 4 s' hrounds).2
      (by decide)
    exact ⟨s', hrounds, hiff.mpr (by decide)⟩
  · have hrounds := (rounds_idle (Desk.wantBid 100)
      (s := run step (start 1) (adopted [100])) (fun tsNs => rfl) (by decide) 3 _).mpr rfl
    have hiff := ((converges_iff 1 (adopted [100]) (Desk.wantBid 100)).1 3 _ hrounds).2 (by decide)
    exact ⟨_, hrounds, hiff.mpr (by decide)⟩

/-- **A second bid stays for good.**  Two adopted bids, the wanted one first: however many
rounds follow, both are still there and `Reconcile` has nothing to say. -/
theorem second_bid_stays :
    let s := run step (start 10) (adopted [100, 90])
    Told s.oms.slots s.nextClientId ∧
    ∀ k, (∃ s', Rounds (Desk.wantBid 100) k s s') ∧ ∀ s', Rounds (Desk.wantBid 100) k s s' →
      (onSide s'.oms.slots .kBid).map (fun a => (a.pxTicks, a.qtyLots)) = [(100, 1), (90, 1)] ∧
      ¬ AtRest (Desk.wantBid 100) s' := by
  intro s
  have hidle : ∀ k s', Rounds (Desk.wantBid 100) k s s' ↔ s' = s := fun k s' =>
    rounds_idle _ (fun tsNs => rfl) (by decide) k s'
  refine ⟨⟨by decide, by decide⟩, fun k => ⟨⟨s, (hidle k s).mpr rfl⟩, fun s' h => ?_⟩⟩
  obtain rfl : s' = s := (hidle k s').mp h
  refine ⟨by decide, fun hrest => ?_⟩
  exact absurd hrest.unhidden (by decide)

end Station
end Asmm
