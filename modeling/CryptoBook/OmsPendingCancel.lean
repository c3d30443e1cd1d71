import CryptoBook.OmsDiscipline

/-! # One cancel per order

`kPendingCancel` means that a cancel was sent and its confirmation is awaited, and
`Reconcile` sends no second cancel for an order in that state.  `OnExec` however moves an
order to a resting state on every `kAck` and `kPartial`, also when its cancel is already
on the way: an acknowledgement that crosses the cancel makes the machine forget it
(`late_ack_repeats_cancel`).

As long as no such report meets an order whose cancel is pending, the state is sticky: an
order keeps it until its terminal report, no client id is cancelled twice, and none is
cancelled after a `CancelAll` that covered it. -/
namespace Asmm
open OrderedSearch Runs Entry

namespace Desk

/-- The call is no report that would take an order out of `kPendingCancel` without ending
it. -/
def KeepsPending (d : Desk) : Call → Prop
  | .onExec e => e.kind.terminal = false →
      ∀ s ∈ d.oms.slots, s.active = true → s.clientId = e.clientId → s.state ≠ .kPendingCancel
  | _ => True

instance (d : Desk) : ∀ m, Decidable (d.KeepsPending m)
  | .reconcile .. => isTrue trivial
  | .cancelAll .. => isTrue trivial
  | .onExec e => inferInstanceAs (Decidable (e.kind.terminal = false → _))

/-- The slot table holds an order `id` whose cancel is pending. -/
def PendingCancel (slots : List WorkingOrder) (id : Nat) : Prop :=
  ∃ s ∈ slots, s.active = true ∧ s.clientId = id ∧ s.state = .kPendingCancel

/-- `CancelAll` was sent while the order `id` was active. -/
def Covers (id : Nat) (c : OrderCommand) (o : Oms) : Prop :=
  c.kind = .kCancelAll ∧ ∃ s ∈ o.slots, s.active = true ∧ s.clientId = id

/-- A cancel of the order `id` was sent, for it alone or for all. -/
def CancelSent (log : List Entry) (id : Nat) : Prop :=
  ∃ c o, .sent c o ∈ log ∧ (c.kind = .kCancel ∧ c.clientId = id ∨ Covers id c o)

/-- An order is cancelled only if no cancel of it was sent before. -/
def FirstCancel (pre : List Entry) (x : Entry) : Prop :=
  ∀ c o, x = .sent c o → c.kind = .kCancel → ¬ CancelSent pre c.clientId

structure Cancelling (d : Desk) : Prop where
  ids_lt : ∀ s ∈ d.oms.slots, s.active = true → s.clientId < d.nextClientId
  ids_apart : d.oms.slots.Pairwise (Apart WorkingOrder.clientId)
  sent_lt : ∀ id, CancelSent d.log id → id < d.nextClientId
  pending : ∀ s ∈ d.oms.slots, s.active = true → CancelSent d.log s.clientId →
    s.state = .kPendingCancel
  first : Always FirstCancel d.log

theorem cancelSent_concat {log : List Entry} {x : Entry} {id : Nat} :
    CancelSent (log ++ [x]) id ↔ CancelSent log id ∨
      ∃ c o, x = .sent c o ∧ (c.kind = .kCancel ∧ c.clientId = id ∨ Covers id c o) := by
  constructor
  · rintro ⟨c, o, hmem, hc⟩
    rcases List.mem_append.mp hmem with hold | hnew
    · exact Or.inl ⟨c, o, hold, hc⟩
    · exact Or.inr ⟨c, o, (List.mem_singleton.mp hnew).symm, hc⟩
  · rintro (⟨c, o, hmem, hc⟩ | ⟨c, o, rfl, hc⟩)
    · exact ⟨c, o, List.mem_append_left _ hmem, hc⟩
    · exact ⟨c, o, by simp, hc⟩

/-- An entry that cancels nothing adds nothing. -/
theorem cancelSent_concat_other {log : List Entry} {x : Entry} {id : Nat}
    (hx : ∀ c o, x = .sent c o → c.kind = .kPlace) :
    CancelSent (log ++ [x]) id ↔ CancelSent log id := by
  rw [cancelSent_concat]
  refine ⟨?_, Or.inl⟩
  rintro (hold | ⟨c, o, hsent, hc⟩)
  · exact hold
  · have hkind := hx c o hsent
    rcases hc with ⟨hcancel, _⟩ | ⟨hall, _⟩
    · rw [hkind] at hcancel
      cases hcancel
    · rw [hkind] at hall
      cases hall

theorem cancelling_start (firstClientId : Nat) : Cancelling (start firstClientId) := by
  have hnone : ∀ id, ¬ CancelSent [] id := by
    rintro id ⟨c, o, hmem, _⟩
    cases hmem
  constructor
  · intro s hs hactive
    rw [List.eq_of_mem_replicate hs] at hactive
    cases hactive
  · exact List.pairwise_replicate.mpr (Or.inr fun h => absurd h (by decide))
  · intro id hsent
    exact absurd hsent (hnone id)
  · intro s _ _ hsent
    exact absurd hsent (hnone _)
  · exact always_nil

theorem SideTurn.cancelling {side : Side} {d d' : Desk} (ht : SideTurn side d d')
    (h : Cancelling d) : Cancelling d' := by
  cases ht with
  | keep => exact h
  | @place n id log lo hi s order c free alone command entered =>
    obtain ⟨hkind, _, _, _⟩ := command
    obtain ⟨_, hoid, _, _⟩ := entered
    have hother : ∀ c' o, Entry.sent c ⟨n, lo ++ s :: hi⟩ = .sent c' o → c'.kind = .kPlace := by
      rintro _ _ ⟨⟩
      exact hkind
    constructor
    · intro a ha hactive
      rcases mem_replace s ha with rfl | hold
      · exact hoid ▸ Nat.lt_succ_self id
      · exact Nat.lt_succ_of_lt (h.ids_lt a hold hactive)
    · refine pairwise_apart_replace h.ids_apart fun a ha _ _ hactive he => ?_
      have hlt : a.clientId < id := h.ids_lt a (mem_middle.mpr (Or.inr ha)) hactive
      omega
    · intro i hsent
      exact Nat.lt_succ_of_lt (h.sent_lt i ((cancelSent_concat_other hother).mp hsent))
    · intro a ha hactive hsent
      have hsent' := (cancelSent_concat_other hother).mp hsent
      rcases mem_replace s ha with rfl | hold
      · -- the new order's id is fresh: no cancel can have named it
        have hlt : a.clientId < id := h.sent_lt _ hsent'
        omega
      · exact h.pending a hold hactive hsent'
    · refine always_concat.mpr ⟨h.first, ?_⟩
      rintro _ _ ⟨⟩ hcancel
      rw [hkind] at hcancel
      cases hcancel
  | @cancel n id log lo hi s c active fresh command =>
    obtain ⟨hkind, _, hid⟩ := command
    have hs : s ∈ lo ++ s :: hi := by simp
    have hsent_iff : ∀ i, CancelSent (log ++ [.sent c ⟨n, lo ++ s :: hi⟩]) i ↔
        CancelSent log i ∨ s.clientId = i := by
      intro i
      rw [cancelSent_concat]
      refine or_congr_right ⟨?_, fun hi => ⟨c, _, rfl, Or.inl ⟨hkind, hid.trans hi⟩⟩⟩
      rintro ⟨_, _, ⟨⟩, ⟨_, hi⟩ | ⟨hall, _⟩⟩
      · exact hid.symm.trans hi
      · rw [hkind] at hall
        cases hall
    constructor
    · intro a ha hactive
      rcases mem_replace s ha with rfl | hold
      · exact h.ids_lt s hs active
      · exact h.ids_lt a hold hactive
    · exact pairwise_apart_replace h.ids_apart fun _ _ hapart => hapart
    · intro i hsent
      rcases (hsent_iff i).mp hsent with hold | rfl
      · exact h.sent_lt i hold
      · exact h.ids_lt s hs active
    · intro a ha hactive hsent
      rcases mem_middle.mp ha with rfl | hother
      · rfl
      · rcases (hsent_iff _).mp hsent with hbefore | hsame
        · exact h.pending a (mem_middle.mpr (Or.inr hother)) hactive hbefore
        · -- ids are apart, so the order just cancelled is no other than `s`
          exact absurd hsame ((pairwise_apart_middle.mp h.ids_apart).1 a hother active hactive)
    · refine always_concat.mpr ⟨h.first, ?_⟩
      rintro _ _ ⟨⟩ _ hsent
      exact fresh (h.pending s hs active (hid ▸ hsent))

theorem Cancelling.cancelAll {d : Desk} (h : Cancelling d) (tsNs : Int) :
    Cancelling (d.cancelAll tsNs) := by
  have hsent_iff : ∀ i, CancelSent (d.cancelAll tsNs).log i ↔
      CancelSent d.log i ∨ ∃ s ∈ d.oms.slots, s.active = true ∧ s.clientId = i := by
    intro i
    refine cancelSent_concat.trans (or_congr_right ⟨?_, fun hi => ⟨_, _, rfl, Or.inr ⟨rfl, hi⟩⟩⟩)
    rintro ⟨_, _, ⟨⟩, ⟨hkind, _⟩ | ⟨_, hi⟩⟩
    · cases hkind
    · exact hi
  have hslots : ∀ s ∈ (d.cancelAll tsNs).oms.slots, s.active = true →
      s.state = .kPendingCancel ∧ ∃ a ∈ d.oms.slots, a.active = true ∧ a.clientId = s.clientId := by
    intro s hs hactive
    obtain ⟨a, ha, rfl⟩ := List.mem_map.mp hs
    split at hactive
    · next hact => simpa [hact] using ⟨a, ha, hact, rfl⟩
    · next hact => exact absurd hactive hact
  constructor
  · intro s hs hactive
    obtain ⟨_, a, ha, hact, hid⟩ := hslots s hs hactive
    exact hid ▸ h.ids_lt a ha hact
  · exact pairwise_apart_cancelAll (fun _ => rfl) h.ids_apart tsNs
  · intro i hsent
    rcases (hsent_iff i).mp hsent with hold | ⟨s, hs, hactive, rfl⟩
    · exact h.sent_lt i hold
    · exact h.ids_lt s hs hactive
  · intro s hs hactive _
    exact (hslots s hs hactive).1
  · refine always_concat.mpr ⟨h.first, ?_⟩
    rintro _ _ ⟨⟩ hkind
    cases hkind

theorem Cancelling.onExec {d : Desk} (h : Cancelling d) {e : ExecEvent}
    (hkeep : d.KeepsPending (.onExec e)) : Cancelling (d.onExec e) := by
  obtain ⟨⟨n, slots⟩, id, log⟩ := d
  obtain ⟨-, hrep⟩ := onExec_reported ⟨n, slots⟩ e
  have hother : ∀ c o, Entry.exec e = .sent c o → c.kind = .kPlace := by rintro _ _ ⟨⟩
  have hapart := hrep.pairwise_apart (fun _ _ hid _ => hid) h.ids_apart
  have hslots : ∀ s ∈ ((⟨n, slots⟩ : Oms).onExec e).slots, s.active = true →
      s.clientId < id ∧ (CancelSent log s.clientId → s.state = .kPendingCancel) := by
    have hold : ∀ s ∈ slots, s.active = true →
        s.clientId < id ∧ (CancelSent log s.clientId → s.state = .kPendingCancel) :=
      fun s hs hactive => ⟨h.ids_lt s hs hactive, h.pending s hs hactive⟩
    intro s hs hactive
    replace hkeep : e.kind.terminal = false → ∀ s ∈ slots, s.active = true →
      s.clientId = e.clientId → s.state ≠ .kPendingCancel := hkeep
    generalize ((⟨n, slots⟩ : Oms).onExec e).slots = slots' at hrep hs
    change Reported e slots slots' at hrep
    cases hrep with
    | unknown => exact hold s hs hactive
    | @rests lo hi a a' active found kind same =>
      obtain ⟨_, hid, _⟩ := same
      rcases mem_replace a hs with rfl | hs'
      · -- the report found an order whose cancel is not pending, so none was sent
        obtain ⟨hlt, hpend⟩ := hold a (by simp) active
        exact ⟨hid ▸ hlt, fun hsent =>
          absurd (hpend (hid ▸ hsent)) (hkeep kind a (by simp) active found)⟩
      · exact hold s hs' hactive
    | @ends lo hi a a' active found kind freed =>
      rcases mem_replace a hs with rfl | hs'
      · rw [freed] at hactive
        cases hactive
      · exact hold s hs' hactive
  constructor
  · exact fun s hs hactive => (hslots s hs hactive).1
  · exact hapart
  · exact fun i hsent => h.sent_lt i ((cancelSent_concat_other hother).mp hsent)
  · exact fun s hs hactive hsent =>
      (hslots s hs hactive).2 ((cancelSent_concat_other hother).mp hsent)
  · refine always_concat.mpr ⟨h.first, ?_⟩
    rintro _ _ ⟨⟩

theorem Cancelling.call {d : Desk} (h : Cancelling d) (m : Call) (hkeep : d.KeepsPending m) :
    Cancelling (d.call m) := by
  cases m with
  | reconcile desired tsNs =>
    exact (reconcileSide_turn _ ..).cancelling ((reconcileSide_turn d ..).cancelling h)
  | cancelAll tsNs => exact h.cancelAll tsNs
  | onExec e => exact h.onExec hkeep

/-! ## The state is sticky -/

/-- Replacing a slot keeps a pending cancel if the slot had none, or has it still. -/
theorem PendingCancel.replace {lo hi : List WorkingOrder} {s s' : WorkingOrder} {id : Nat}
    (h : PendingCancel (lo ++ s :: hi) id)
    (hs : s.active = true → s.clientId = id → s.state = .kPendingCancel →
      s'.active = true ∧ s'.clientId = id ∧ s'.state = .kPendingCancel) :
    PendingCancel (lo ++ s' :: hi) id := by
  obtain ⟨a, ha, hactive, hid, hstate⟩ := h
  rcases mem_replace s' ha with rfl | hother
  · exact ⟨s', by simp, hs hactive hid hstate⟩
  · exact ⟨a, hother, hactive, hid, hstate⟩

theorem SideTurn.pendingCancel {side : Side} {d d' : Desk} (ht : SideTurn side d d') {id : Nat}
    (h : PendingCancel d.oms.slots id) : PendingCancel d'.oms.slots id := by
  cases ht with
  | keep => exact h
  | place free _ _ _ =>
    refine h.replace fun hactive _ _ => ?_
    rw [free] at hactive
    cases hactive
  | cancel active fresh _ => exact h.replace fun _ _ hstate => absurd hstate fresh

/-- A call takes an order out of `kPendingCancel` only by its terminal report. -/
theorem pendingCancel_call {d : Desk} {m : Call} {id : Nat} (hkeep : d.KeepsPending m)
    (hlive : ∀ e, m = .onExec e → e.clientId = id → e.kind.terminal = false)
    (h : PendingCancel d.oms.slots id) : PendingCancel (d.call m).oms.slots id := by
  cases m with
  | reconcile desired tsNs =>
    exact (reconcileSide_turn _ ..).pendingCancel ((reconcileSide_turn d ..).pendingCancel h)
  | cancelAll tsNs =>
    obtain ⟨s, hs, hactive, hid, hstate⟩ := h
    refine ⟨{ s with state := .kPendingCancel }, ?_, hactive, hid, rfl⟩
    exact List.mem_map.mpr ⟨s, hs, by rw [if_pos hactive]⟩
  | onExec e =>
    obtain ⟨-, hrep⟩ := onExec_reported d.oms e
    show PendingCancel (d.oms.onExec e).slots id
    replace hkeep : e.kind.terminal = false → ∀ s ∈ d.oms.slots, s.active = true →
      s.clientId = e.clientId → s.state ≠ .kPendingCancel := hkeep
    generalize d.oms.slots = slots at hrep hkeep h
    generalize (d.oms.onExec e).slots = slots' at hrep ⊢
    cases hrep with
    | unknown => exact h
    | @rests lo hi s s' active found kind same =>
      exact h.replace fun _ _ hstate => absurd hstate (hkeep kind s (by simp) active found)
    | @ends lo hi s s' active found kind freed =>
      refine h.replace fun _ hid _ => ?_
      rw [hlive e rfl (found.symm.trans hid)] at kind
      cases kind

/-- A run of such calls keeps the order pending too. -/
theorem pendingCancel_run {d : Desk} {calls : List Call} {id : Nat}
    (hkeep : Guarded call KeepsPending d calls)
    (hlive : ∀ e, .onExec e ∈ calls → e.clientId = id → e.kind.terminal = false)
    (h : PendingCancel d.oms.slots id) : PendingCancel (run call d calls).oms.slots id := by
  induction calls generalizing d with
  | nil => exact h
  | cons m calls ih =>
    obtain ⟨hm, hrest⟩ := hkeep
    refine ih hrest (fun e he => hlive e (List.mem_cons_of_mem _ he)) ?_
    exact pendingCancel_call hm (fun e he => hlive e (he ▸ List.mem_cons_self)) h

/-- The cancels of one client id sent in a history. -/
def cancelCount (log : List Entry) (id : Nat) : Nat :=
  (commands log).countP fun c => decide (c.kind = .kCancel ∧ c.clientId = id)

theorem cancelCount_eq_zero {log : List Entry} {id : Nat} (h : ¬ CancelSent log id) :
    cancelCount log id = 0 := by
  refine List.countP_eq_zero.mpr ?_
  intro c hc hcancel
  obtain ⟨x, hx, hxc⟩ := List.mem_filterMap.mp hc
  cases x with
  | sent c' o =>
    obtain rfl : c' = c := Option.some.inj hxc
    exact h ⟨c', o, hx, Or.inl (of_decide_eq_true hcancel)⟩
  | exec e => cases hxc
  | refused i => cases hxc

theorem cancelCount_le_one {log : List Entry} (h : Always FirstCancel log) (id : Nat) :
    cancelCount log id ≤ 1 := by
  -- latest entry last: if it is the cancel of `id`, there was none before
  induction log using List.reverseRecOn with
  | nil => exact Nat.zero_le _
  | append_singleton log x ih =>
    obtain ⟨hlog, hx⟩ := always_concat.mp h
    rw [cancelCount, commands_concat, List.countP_append]
    cases x with
    | sent c o =>
      by_cases hc : c.kind = .kCancel ∧ c.clientId = id
      · have hzero := cancelCount_eq_zero (hc.2 ▸ hx c o rfl hc.1)
        rw [cancelCount] at hzero
        rw [hzero, Nat.zero_add]
        exact List.countP_le_length
      · have hsame : (commands [.sent c o]).countP
            (fun c => decide (c.kind = .kCancel ∧ c.clientId = id)) = 0 := by
          simp [commands, hc]
        rw [hsame]
        exact ih hlog
    | exec e => exact ih hlog
    | refused i => exact ih hlog

/-- **Pending-cancel is sticky when no late report undoes it.**  In every run in which no
`kAck` or `kPartial` reaches an order in `kPendingCancel`: an order in that state keeps it
until its terminal report, no client id is cancelled twice, and none is cancelled after a
`CancelAll` that covered it. -/
theorem pending_cancel_sticky (firstClientId : Nat) (calls more : List Call)
    (hkeep : Guarded call KeepsPending (start firstClientId) (calls ++ more)) :
    let d := run call (start firstClientId) (calls ++ more)
    (∀ s ∈ (run call (start firstClientId) calls).oms.slots, s.active = true →
      s.state = .kPendingCancel →
      (∀ e, .onExec e ∈ more → e.clientId = s.clientId → e.kind.terminal = false) →
        ∃ s' ∈ d.oms.slots, s'.active = true ∧ s'.clientId = s.clientId ∧
          s'.state = .kPendingCancel) ∧
    (∀ id, (commands d.log).countP
      (fun c => decide (c.kind = .kCancel ∧ c.clientId = id)) ≤ 1) ∧
    (∀ pre c o mid c' o' post, d.log = pre ++ .sent c o :: (mid ++ .sent c' o' :: post) →
      c.kind = .kCancelAll → c'.kind = .kCancel →
        ¬ ∃ s ∈ o.slots, s.active = true ∧ s.clientId = c'.clientId) := by
  intro d
  obtain ⟨_, hmore⟩ := (guarded_append _).mp hkeep
  have hcan : Cancelling d :=
    hkeep.invariant (fun _ m h hm => h.call m hm) (cancelling_start firstClientId)
  refine ⟨?_, cancelCount_le_one hcan.first, ?_⟩
  · intro s hs hactive hstate hlive
    have hrun := pendingCancel_run hmore hlive ⟨s, hs, hactive, rfl, hstate⟩
    rwa [← run_append] at hrun
  · intro pre c o mid c' o' post hlog hall hcancel hcovered
    have hlog' : d.log = (pre ++ .sent c o :: mid) ++ .sent c' o' :: post := by simpa using hlog
    refine hcan.first _ _ _ hlog' c' o' rfl hcancel ⟨c, o, by simp, Or.inr ⟨hall, hcovered⟩⟩

/-- A wanted bid at a price, and no ask. -/
def wantBid (px : Int) : QuoteRecord := { QuoteRecord.zero with bidPx := px, bidQty := 1 }

/-- An execution report on one order. -/
def report (clientId : Nat) (kind : ExecKind) : ExecEvent :=
  ⟨0, clientId, 7, 0, 0, 0, 0, 0, 0, kind, .kBid, .kBase, 0⟩

/-- An order is placed, acknowledged and cancelled; pulling its side again and a
`CancelAll` keep it pending, and no second cancel is sent. -/
theorem pending_cancel_sticky_cycle :
    let calls := [.reconcile (wantBid 100) 0, .onExec (report 1 .kAck),
      .reconcile (wantBid 0) 1]
    let more := [.reconcile (wantBid 0) 2, .cancelAll 3]
    (∃ s' ∈ (run call (start 1) (calls ++ more)).oms.slots, s'.active = true ∧
      s'.clientId = 1 ∧ s'.state = .kPendingCancel) ∧
    (commands (run call (start 1) (calls ++ more)).log).countP
      (fun c => decide (c.kind = .kCancel ∧ c.clientId = 1)) ≤ 1 := by
  intro calls more
  obtain ⟨hsticky, honce, _⟩ := pending_cancel_sticky 1 calls more (by decide)
  refine ⟨hsticky ⟨true, 1, 7, 100, 1, 0, .kBid, .kPendingCancel⟩ (by decide) rfl rfl ?_, honce 1⟩
  intro e he
  simp [more] at he

/-- **A late acknowledgement repeats the cancel.**  The order is placed, then its side is
pulled before the exchange has answered: the cancel is sent.  The acknowledgement of the
place arrives, the order counts as working again, and the next tick sends a second cancel
for the same id. -/
theorem late_ack_repeats_cancel :
    let placed := run call (start 1) [.reconcile (wantBid 100) 0]
    let pulled := placed.call (.reconcile (wantBid 0) 1)
    let acked := pulled.call (.onExec (report 1 .kAck))
    let again := acked.call (.reconcile (wantBid 0) 2)
    PendingCancel pulled.oms.slots 1 ∧ ¬ PendingCancel acked.oms.slots 1 ∧
    (∃ s ∈ acked.oms.slots, s.active = true ∧ s.clientId = 1 ∧ s.state = .kWorking) ∧
    (commands again.log).countP (fun c => decide (c.kind = .kCancel ∧ c.clientId = 1)) = 2 := by
  unfold PendingCancel
  decide

end Desk
end Asmm
