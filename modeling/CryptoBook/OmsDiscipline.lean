import Mathlib.Data.List.Induction
import Mathlib.Data.List.Pairwise
import CryptoBook.Oms
import CryptoBook.Runs

/-! # One order per side

The order state machine is driven by three independent sources: the strategy
(`Reconcile`), the kill switch (`CancelAll`) and the execution reports (`OnExec`).  A
`Desk` is the machine with the id counter its caller owns and a history of what was sent
and received.  An entry for a sent command also holds the machine at the moment of
sending, so that statements about that moment can be made.

The link between the slot table and the history is that every *outstanding* order, one
placed and neither terminally reported nor refused since, sits in an active slot under
its id and side.  A side without an active slot then has no outstanding order, and that
is the only situation in which `Reconcile` places one. -/
namespace Asmm
open OrderedSearch Runs

/-! ## The machine with its history -/

inductive Entry where
  | sent (c : OrderCommand) (machine : Oms)
  | exec (e : ExecEvent)
  | refused (clientId : Nat)
  deriving DecidableEq

namespace Entry

/-- The commands sent in a history, in order. -/
def commands (log : List Entry) : List OrderCommand :=
  log.filterMap fun
    | .sent c _ => some c
    | _ => none

/-- The place commands sent in a history, in order. -/
def placed (log : List Entry) : List OrderCommand :=
  (commands log).filter fun c => decide (c.kind = .kPlace)

/-- How an entry changes the outstanding orders. -/
def track (live : List OrderCommand) : Entry → List OrderCommand
  | .sent c _ => if c.kind = .kPlace then live ++ [c] else live
  | .exec e => if e.kind.terminal then live.filter (fun c => c.clientId ≠ e.clientId) else live
  | .refused id => live.filter fun c => c.clientId ≠ id

/-- The orders placed and neither terminally reported nor refused since. -/
def outstanding (log : List Entry) : List OrderCommand := log.foldl track []

theorem commands_append (log log' : List Entry) :
    commands (log ++ log') = commands log ++ commands log' := List.filterMap_append ..

theorem commands_concat (log : List Entry) (x : Entry) :
    commands (log ++ [x]) = commands log ++ commands [x] := commands_append ..

theorem commands_sent (out : List OrderCommand) (o : Oms) :
    commands (out.map fun c => .sent c o) = out :=
  List.filterMap_map.trans List.filterMap_some

theorem placed_concat (log : List Entry) (x : Entry) :
    placed (log ++ [x]) = placed log ++ placed [x] := by
  rw [placed, commands_concat, List.filter_append]
  rfl

theorem outstanding_concat (log : List Entry) (x : Entry) :
    outstanding (log ++ [x]) = track (outstanding log) x := by
  rw [outstanding, List.foldl_append]
  rfl

/-- An entry that is no place adds no outstanding order. -/
theorem mem_of_mem_track {live : List OrderCommand} {x : Entry} {c : OrderCommand}
    (hx : ∀ c o, x = .sent c o → c.kind ≠ .kPlace) (hc : c ∈ track live x) : c ∈ live := by
  cases x with
  | sent c' o => rwa [track, if_neg (hx c' o rfl)] at hc
  | exec e =>
    rw [track] at hc
    split at hc
    · exact (List.mem_filter.mp hc).1
    · exact hc
  | refused id => exact (List.mem_filter.mp hc).1

/-- An order is outstanding as long as it was placed and nothing ended it since. -/
theorem mem_outstanding_of_split {log before after : List Entry} {c : OrderCommand} {o : Oms}
    (hlog : log = before ++ .sent c o :: after) (hplace : c.kind = .kPlace)
    (hexec : ∀ e, .exec e ∈ after → e.clientId = c.clientId → e.kind.terminal = false)
    (hrefused : .refused c.clientId ∉ after) : c ∈ outstanding log := by
  subst hlog
  -- on the entries after the place, latest last: each one keeps the order
  induction after using List.reverseRecOn with
  | nil => simp [outstanding_concat, track, hplace]
  | append_singleton after x ih =>
    have hlive := ih (fun e he => hexec e (List.mem_append_left _ he))
      (fun h => hrefused (List.mem_append_left _ h))
    rw [← List.cons_append, ← List.append_assoc, outstanding_concat]
    cases x with
    | sent c' o' =>
      rw [track]
      split
      · exact List.mem_append_left _ hlive
      · exact hlive
    | exec e =>
      rw [track]
      split
      · next hterm =>
        refine List.mem_filter.mpr ⟨hlive, ?_⟩
        have hne : c.clientId ≠ e.clientId := by
          intro he
          rw [hexec e (by simp) he.symm] at hterm
          cases hterm
        simpa using hne
      · exact hlive
    | refused id =>
      refine List.mem_filter.mpr ⟨hlive, ?_⟩
      have hne : c.clientId ≠ id := by
        rintro rfl
        exact hrefused (by simp)
      simpa using hne

theorem mem_outstanding_of_placed {log : List Entry} {c : OrderCommand} (hc : c ∈ placed log)
    (hexec : ∀ e, .exec e ∈ log → e.clientId = c.clientId → e.kind.terminal = false)
    (hrefused : .refused c.clientId ∉ log) : c ∈ outstanding log := by
  obtain ⟨hsent, hplace⟩ := List.mem_filter.mp hc
  obtain ⟨x, hx, hxc⟩ := List.mem_filterMap.mp hsent
  cases x with
  | sent c' o =>
    obtain rfl : c' = c := Option.some.inj hxc
    obtain ⟨before, after, rfl⟩ := List.append_of_mem hx
    refine mem_outstanding_of_split rfl (of_decide_eq_true hplace) ?_ ?_
    · exact fun e he => hexec e (by simp [he])
    · exact fun h => hrefused (by simp [h])
  | exec e => cases hxc
  | refused id => cases hxc

end Entry

open Entry

structure Desk where
  oms : Oms
  nextClientId : Nat
  log : List Entry

/-- A call on the machine, by any of its three sources. -/
inductive Call where
  | reconcile (desired : QuoteRecord) (tsNs : Int)
  | cancelAll (tsNs : Int)
  | onExec (e : ExecEvent)

namespace Desk

/-- A fresh machine and the caller's first client id. -/
def start (firstClientId : Nat) : Desk := ⟨Oms.fresh, firstClientId, []⟩

/-- One round of the loop of `Reconcile`. -/
def reconcileSide (d : Desk) (side : Side) (px qty tsNs : Int) : Desk :=
  let r := d.oms.reconcileSide side px qty tsNs d.nextClientId
  ⟨r.oms, r.nextClientId, d.log ++ r.out.map fun c => .sent c d.oms⟩

def cancelAll (d : Desk) (tsNs : Int) : Desk :=
  let r := d.oms.cancelAll tsNs
  ⟨r.1, d.nextClientId, d.log ++ [.sent r.2 d.oms]⟩

def onExec (d : Desk) (e : ExecEvent) : Desk :=
  { d with oms := d.oms.onExec e, log := d.log ++ [.exec e] }

def call (d : Desk) : Call → Desk
  | .reconcile desired tsNs =>
      (d.reconcileSide .kBid desired.bidPx desired.bidQty tsNs).reconcileSide
        .kAsk desired.askPx desired.askQty tsNs
  | .cancelAll tsNs => d.cancelAll tsNs
  | .onExec e => d.onExec e

/-- The two rounds are the source's `Reconcile`: same machine, same counter, and the log
gains the commands it appends to `out`. -/
theorem call_reconcile (d : Desk) (desired : QuoteRecord) (tsNs : Int) :
    (d.call (.reconcile desired tsNs)).oms
        = (d.oms.reconcile desired tsNs d.nextClientId).oms ∧
      (d.call (.reconcile desired tsNs)).nextClientId
        = (d.oms.reconcile desired tsNs d.nextClientId).nextClientId ∧
      commands (d.call (.reconcile desired tsNs)).log
        = commands d.log ++ (d.oms.reconcile desired tsNs d.nextClientId).out := by
  refine ⟨rfl, rfl, ?_⟩
  simp only [call, reconcileSide, commands_append, commands_sent, List.append_assoc]
  rfl

/-! ## What one step does to the slot table -/

/-- What one round of `Reconcile` may do: nothing, put an order on a side that has no
active slot, or cancel an active order that is not being cancelled yet. -/
inductive SideTurn (side : Side) : Desk → Desk → Prop
  | keep (d : Desk) : SideTurn side d d
  | place {n id : Nat} {log : List Entry} {lo hi : List WorkingOrder} {s order : WorkingOrder}
      {c : OrderCommand} (free : s.active = false)
      (alone : ∀ a ∈ lo ++ s :: hi, a.active = true → a.side ≠ side)
      (command : c.kind = .kPlace ∧ c.seq = n ∧ c.clientId = id ∧ c.side = side)
      (entered : order.active = true ∧ order.clientId = id ∧ order.side = side ∧
        order.state = .kPendingNew) :
      SideTurn side ⟨⟨n, lo ++ s :: hi⟩, id, log⟩
        ⟨⟨n + 1, lo ++ order :: hi⟩, id + 1, log ++ [.sent c ⟨n, lo ++ s :: hi⟩]⟩
  | cancel {n id : Nat} {log : List Entry} {lo hi : List WorkingOrder} {s : WorkingOrder}
      {c : OrderCommand} (active : s.active = true) (fresh : s.state ≠ .kPendingCancel)
      (command : c.kind = .kCancel ∧ c.seq = n ∧ c.clientId = s.clientId) :
      SideTurn side ⟨⟨n, lo ++ s :: hi⟩, id, log⟩
        ⟨⟨n + 1, lo ++ { s with state := .kPendingCancel } :: hi⟩, id,
          log ++ [.sent c ⟨n, lo ++ s :: hi⟩]⟩

/-- What an execution report may do to the slot table: nothing if no active slot has its
id, else move that slot's order to a resting state, or free the slot. -/
inductive Reported (e : ExecEvent) : List WorkingOrder → List WorkingOrder → Prop
  | unknown {slots : List WorkingOrder}
      (absent : ∀ s ∈ slots, s.active = true → s.clientId ≠ e.clientId) : Reported e slots slots
  | rests {lo hi : List WorkingOrder} {s s' : WorkingOrder} (active : s.active = true)
      (found : s.clientId = e.clientId) (kind : e.kind.terminal = false)
      (same : s'.active = true ∧ s'.clientId = s.clientId ∧ s'.side = s.side) :
      Reported e (lo ++ s :: hi) (lo ++ s' :: hi)
  | ends {lo hi : List WorkingOrder} {s s' : WorkingOrder} (active : s.active = true)
      (found : s.clientId = e.clientId) (kind : e.kind.terminal = true)
      (freed : s'.active = false) : Reported e (lo ++ s :: hi) (lo ++ s' :: hi)

theorem reconcileSide_turn (d : Desk) (side : Side) (px qty tsNs : Int) :
    SideTurn side d (d.reconcileSide side px qty tsNs) := by
  obtain ⟨⟨n, slots⟩, id, log⟩ := d
  have hstep := Oms.reconcileSide_step n slots side px qty tsNs id
  have hkeep : SideTurn side ⟨⟨n, slots⟩, id, log⟩
      ⟨⟨n, slots⟩, id, log ++ ([] : List OrderCommand).map fun c => .sent c ⟨n, slots⟩⟩ := by
    simpa using SideTurn.keep _
  unfold reconcileSide
  dsimp only
  generalize Oms.reconcileSide ⟨n, slots⟩ side px qty tsNs id = r at hstep
  cases hstep with
  | idle => exact hkeep
  | full => exact hkeep
  | place split free none wanted command entered =>
    subst split
    obtain ⟨hactive, hid, hside, _, _, hstate⟩ := entered
    exact .place free (Oms.onSide_eq_nil.mp none) command ⟨hactive, hid, hside, hstate⟩
  | keep => exact hkeep
  | cancel split first here live unfit command =>
    subst split
    exact .cancel here.1 live command

theorem onExec_reported (o : Oms) (e : ExecEvent) :
    (o.onExec e).nextSeq = o.nextSeq ∧ Reported e o.slots (o.onExec e).slots := by
  rcases o.onExec_answered e with ⟨habsent, hsame⟩ | ⟨lo, s, hi, hslots, hactive, hid, hafter⟩
  · rw [hsame]
    exact ⟨rfl, .unknown habsent⟩
  · rw [hafter, hslots]
    refine ⟨rfl, ?_⟩
    cases hkind : e.kind
    case kAck =>
      exact .rests hactive hid (by rw [hkind]; rfl) (by simp [Oms.answered, hkind, hactive])
    case kPartial =>
      exact .rests hactive hid (by rw [hkind]; rfl) (by simp [Oms.answered, hkind, hactive])
    all_goals exact .ends hactive hid (by rw [hkind]; rfl) (by simp [Oms.answered, hkind])

theorem SideTurn.length_slots {side : Side} {d d' : Desk} (ht : SideTurn side d d') :
    d'.oms.slots.length = d.oms.slots.length := by
  cases ht with
  | keep => rfl
  | place => simp
  | cancel => simp

theorem Reported.length_eq {e : ExecEvent} {slots slots' : List WorkingOrder}
    (hr : Reported e slots slots') : slots'.length = slots.length := by
  cases hr with
  | unknown => rfl
  | rests => simp
  | ends => simp

/-- No call changes the number of slots. -/
theorem length_slots_call (d : Desk) (m : Call) :
    (d.call m).oms.slots.length = d.oms.slots.length := by
  cases m with
  | reconcile desired tsNs =>
    exact (reconcileSide_turn _ ..).length_slots.trans (reconcileSide_turn d ..).length_slots
  | cancelAll tsNs => exact List.length_map _
  | onExec e => exact (onExec_reported d.oms e).2.length_eq

/-- A call only appends to the history, and nothing but an exchange refuses orders. -/
theorem log_call (d : Desk) (m : Call) :
    ∃ new, (d.call m).log = d.log ++ new ∧ ∀ id, .refused id ∉ new := by
  cases m with
  | reconcile desired tsNs => exact ⟨_, List.append_assoc .., by simp⟩
  | cancelAll tsNs => exact ⟨_, rfl, by simp⟩
  | onExec e => exact ⟨_, rfl, by simp⟩

/-! ## Accounting: the slot table against the history -/

/-- An active slot holds the order `c`. -/
def Holds (slots : List WorkingOrder) (c : OrderCommand) : Prop :=
  ∃ s ∈ slots, s.active = true ∧ s.clientId = c.clientId ∧ s.side = c.side

/-- What must be true of the entries before `x` when `x` is appended: a place finds no
outstanding order on its side, a cancel names an active order. -/
def Lawful (pre : List Entry) : Entry → Prop
  | .sent c o =>
      (c.kind = .kPlace → ∀ c' ∈ outstanding pre, c'.side ≠ c.side) ∧
      (c.kind = .kCancel → ∃ s ∈ o.slots, s.active = true ∧ s.clientId = c.clientId)
  | _ => True

structure Accounting (d : Desk) : Prop where
  held : ∀ c ∈ outstanding d.log, Holds d.oms.slots c
  lawful : Always Lawful d.log
  ids_lt : ∀ c ∈ placed d.log, c.clientId < d.nextClientId
  ids_nodup : ((placed d.log).map OrderCommand.clientId).Nodup

/-- Replacing a slot by one with the same order, or an inactive one by any, loses no
order. -/
theorem Holds.replace {lo hi : List WorkingOrder} {s s' : WorkingOrder} {c : OrderCommand}
    (h : Holds (lo ++ s :: hi) c)
    (hs : s.active = true → s.clientId = c.clientId →
      s'.active = true ∧ s'.clientId = s.clientId ∧ s'.side = s.side) :
    Holds (lo ++ s' :: hi) c := by
  obtain ⟨a, ha, hactive, hid, hside⟩ := h
  rcases mem_replace s' ha with rfl | hother
  · obtain ⟨hactive', hid', hside'⟩ := hs hactive hid
    exact ⟨s', by simp, hactive', hid'.trans hid, hside'.trans hside⟩
  · exact ⟨a, hother, hactive, hid, hside⟩

/-- Orders are only placed next to none, so at most one per side is outstanding. -/
theorem outstanding_sides {log : List Entry} (h : Always Lawful log) :
    (outstanding log).Pairwise fun a b => a.side ≠ b.side := by
  induction log using List.reverseRecOn with
  | nil => exact List.Pairwise.nil
  | append_singleton log x ih =>
    obtain ⟨hlog, hx⟩ := always_concat.mp h
    have hpair := ih hlog
    rw [outstanding_concat]
    cases x with
    | sent c o =>
      rw [track]
      split
      · next hplace =>
        refine List.pairwise_append.mpr ⟨hpair, List.pairwise_singleton _ _, ?_⟩
        intro a ha b hb
        rw [List.mem_singleton.mp hb]
        exact hx.1 hplace a ha
      · exact hpair
    | exec e =>
      rw [track]
      split
      · exact hpair.filter _
      · exact hpair
    | refused id => exact hpair.filter _

theorem accounting_start (firstClientId : Nat) : Accounting (start firstClientId) where
  held := by simp [start, outstanding]
  lawful := always_nil
  ids_lt := by simp [start, placed, commands]
  ids_nodup := by simp [start, placed, commands]

/-- Appending an entry that places nothing keeps the accounts, as long as every order
still outstanding is held. -/
theorem Accounting.concat {d : Desk} (h : Accounting d) {o : Oms} {x : Entry}
    (hx : ∀ c o, x = .sent c o → c.kind ≠ .kPlace) (hlaw : Lawful d.log x)
    (hheld : ∀ c ∈ track (outstanding d.log) x, Holds o.slots c) :
    Accounting ⟨o, d.nextClientId, d.log ++ [x]⟩ := by
  have hplaced : placed (d.log ++ [x]) = placed d.log := by
    rw [placed_concat]
    cases x with
    | sent c o => simp [placed, commands, hx c o rfl]
    | exec e => simp [placed, commands]
    | refused id => simp [placed, commands]
  constructor
  · rw [outstanding_concat]
    exact hheld
  · exact always_concat.mpr ⟨h.lawful, hlaw⟩
  · rw [hplaced]
    exact h.ids_lt
  · rw [hplaced]
    exact h.ids_nodup

theorem SideTurn.accounting {side : Side} {d d' : Desk} (ht : SideTurn side d d')
    (h : Accounting d) : Accounting d' := by
  cases ht with
  | keep => exact h
  | @place n id log lo hi s order c free alone command entered =>
    obtain ⟨hkind, hseq, hid, hside⟩ := command
    obtain ⟨hactive, hoid, hoside, hstate⟩ := entered
    have hplaced : placed (log ++ [.sent c ⟨n, lo ++ s :: hi⟩]) = placed log ++ [c] := by
      simp [placed, commands, hkind]
    constructor
    · intro c' hc'
      rw [outstanding_concat, track, if_pos hkind] at hc'
      rcases List.mem_append.mp hc' with hold | hnew
      · refine (h.held c' hold).replace ?_
        intro hs
        rw [free] at hs
        cases hs
      · obtain rfl := List.mem_singleton.mp hnew
        exact ⟨order, by simp, hactive, hoid.trans hid.symm, hoside.trans hside.symm⟩
    · refine always_concat.mpr ⟨h.lawful, ?_, by simp [hkind]⟩
      -- an outstanding order on this side would be in an active slot
      intro _ c' hc' hsame
      obtain ⟨a, ha, haactive, _, haside⟩ := h.held c' hc'
      exact alone a ha haactive (haside.trans (hsame.trans hside))
    · intro c' hc'
      rw [hplaced] at hc'
      rcases List.mem_append.mp hc' with hold | hnew
      · exact Nat.lt_succ_of_lt (h.ids_lt c' hold)
      · rw [List.mem_singleton.mp hnew, hid]
        exact Nat.lt_succ_self id
    · rw [hplaced, List.map_append]
      refine List.nodup_append.mpr ⟨h.ids_nodup, by simp, ?_⟩
      intro i hi j hj he
      obtain ⟨c', hc', rfl⟩ := List.mem_map.mp hi
      have hlt : c'.clientId < id := h.ids_lt c' hc'
      rw [he, List.mem_singleton.mp hj, hid] at hlt
      exact Nat.lt_irrefl id hlt
  | @cancel n id log lo hi s c active fresh command =>
    obtain ⟨hkind, hseq, hid⟩ := command
    have hne : c.kind ≠ .kPlace := by rw [hkind]; decide
    refine Accounting.concat (d := ⟨⟨n, lo ++ s :: hi⟩, id, log⟩) h ?_ ?_ ?_
    · rintro c' o' ⟨⟩
      exact hne
    · exact ⟨fun hp => absurd hp hne, fun _ => ⟨s, by simp, active, hid.symm⟩⟩
    · intro c' hc'
      rw [track, if_neg hne] at hc'
      exact (h.held c' hc').replace fun hactive _ => ⟨hactive, rfl, rfl⟩

theorem Accounting.cancelAll {d : Desk} (h : Accounting d) (tsNs : Int) :
    Accounting (d.cancelAll tsNs) := by
  refine h.concat ?_ ⟨nofun, nofun⟩ ?_
  · rintro c o ⟨⟩
    exact nofun
  · intro c hc
    obtain ⟨a, ha, hactive, hid, hside⟩ := h.held c hc
    refine ⟨{ a with state := .kPendingCancel }, ?_, hactive, hid, hside⟩
    exact List.mem_map.mpr ⟨a, ha, by rw [if_pos hactive]⟩

theorem Accounting.onExec {d : Desk} (h : Accounting d) (e : ExecEvent) :
    Accounting (d.onExec e) := by
  refine h.concat (by rintro c o ⟨⟩) trivial ?_
  intro c hc
  obtain ⟨-, hrep⟩ := onExec_reported d.oms e
  have hold := h.held c (mem_of_mem_track (by rintro c o ⟨⟩) hc)
  generalize d.oms.slots = slots at hrep hold
  generalize (d.oms.onExec e).slots = slots' at hrep ⊢
  cases hrep with
  | unknown => exact hold
  | rests _ _ _ same => exact hold.replace fun _ _ => same
  | @ends lo hi s s' active found kind freed =>
    -- the freed slot's order is the one this report ends
    have hne : c.clientId ≠ e.clientId := by
      rw [track, if_pos kind] at hc
      simpa using (List.mem_filter.mp hc).2
    exact hold.replace fun _ hid => absurd (hid.symm.trans found) hne

theorem Accounting.call {d : Desk} (h : Accounting d) (m : Call) : Accounting (d.call m) := by
  cases m with
  | reconcile desired tsNs =>
    exact (reconcileSide_turn _ ..).accounting ((reconcileSide_turn d ..).accounting h)
  | cancelAll tsNs => exact h.cancelAll tsNs
  | onExec e => exact h.onExec e

/-! ## The slot table -/

section Apart
variable {κ : Type} (key : WorkingOrder → κ)

/-- Not both active under one key. -/
def Apart (a b : WorkingOrder) : Prop := a.active = true → b.active = true → key a ≠ key b

instance [DecidableEq κ] (a b : WorkingOrder) : Decidable (Apart key a b) :=
  inferInstanceAs (Decidable (a.active = true → b.active = true → key a ≠ key b))

variable {key}

theorem Apart.symm {a b : WorkingOrder} (h : Apart key a b) : Apart key b a :=
  fun hb ha he => h ha hb he.symm

/-- One slot against all others. -/
theorem pairwise_apart_middle {lo hi : List WorkingOrder} {s : WorkingOrder} :
    (lo ++ s :: hi).Pairwise (Apart key) ↔
      (∀ a ∈ lo ++ hi, Apart key s a) ∧ (lo ++ hi).Pairwise (Apart key) :=
  (List.pairwise_middle (fun {_ _} => Apart.symm)).trans List.pairwise_cons

/-- Replace a slot by one that stays apart from all others. -/
theorem pairwise_apart_replace {lo hi : List WorkingOrder} {s s' : WorkingOrder}
    (h : (lo ++ s :: hi).Pairwise (Apart key))
    (hs : ∀ a ∈ lo ++ hi, Apart key s a → Apart key s' a) :
    (lo ++ s' :: hi).Pairwise (Apart key) := by
  obtain ⟨hapart, hrest⟩ := pairwise_apart_middle.mp h
  exact pairwise_apart_middle.mpr ⟨fun a ha => hs a ha (hapart a ha), hrest⟩

/-- An active order is known by its key. -/
theorem eq_of_apart {slots : List WorkingOrder} (h : slots.Pairwise (Apart key))
    {a b : WorkingOrder} (ha : a ∈ slots) (hb : b ∈ slots) (haactive : a.active = true)
    (hbactive : b.active = true) (he : key a = key b) : a = b := by
  have hsymm : Std.Symm (Apart key) := ⟨fun _ _ => Apart.symm⟩
  by_contra hne
  exact h.forall ha hb hne haactive hbactive he

end Apart

/-- Marking every active slot pending-cancel keeps the slots apart. -/
theorem pairwise_apart_cancelAll {κ : Type} {key : WorkingOrder → κ} {o : Oms}
    (hkey : ∀ s : WorkingOrder, key { s with state := .kPendingCancel } = key s)
    (h : o.slots.Pairwise (Apart key)) (tsNs : Int) :
    (o.cancelAll tsNs).1.slots.Pairwise (Apart key) := by
  refine List.pairwise_map.mpr (h.imp ?_)
  intro a b hapart
  unfold Apart
  split <;> split <;> simpa [hkey, Apart] using hapart

/-- A report keeps the slots apart, for every key made of an order's id and side. -/
theorem Reported.pairwise_apart {κ : Type} {key : WorkingOrder → κ} {e : ExecEvent}
    {slots slots' : List WorkingOrder} (hr : Reported e slots slots')
    (hkey : ∀ s s' : WorkingOrder, s'.clientId = s.clientId → s'.side = s.side → key s' = key s)
    (h : slots.Pairwise (Apart key)) : slots'.Pairwise (Apart key) := by
  cases hr with
  | unknown => exact h
  | rests active _ _ same =>
    obtain ⟨_, hid, hside⟩ := same
    refine pairwise_apart_replace h fun a _ hapart _ ha he => ?_
    exact hapart active ha ((hkey _ _ hid hside).symm.trans he)
  | ends _ _ _ freed =>
    refine pairwise_apart_replace h fun a _ _ hactive _ => ?_
    rw [freed] at hactive
    cases hactive

theorem SideTurn.sides_apart {side : Side} {d d' : Desk} (ht : SideTurn side d d')
    (h : d.oms.slots.Pairwise (Apart WorkingOrder.side)) :
    d'.oms.slots.Pairwise (Apart WorkingOrder.side) := by
  cases ht with
  | keep => exact h
  | place free alone command entered =>
    refine pairwise_apart_replace h fun a ha _ _ hactive he => ?_
    exact alone a (mem_middle.mpr (Or.inr ha)) hactive (he.symm.trans entered.2.2.1)
  | cancel active fresh command => exact pairwise_apart_replace h fun a _ hapart => hapart

/-- The table has its `kSlots` slots, at most one of them active per side. -/
structure Table (slots : List WorkingOrder) : Prop where
  full : slots.length = Oms.kSlots
  apart : slots.Pairwise (Apart WorkingOrder.side)

theorem table_fresh : Table Oms.fresh.slots where
  full := rfl
  apart := List.pairwise_replicate.mpr (Or.inr fun h => absurd h (by decide))

theorem Table.call {d : Desk} (h : Table d.oms.slots) (m : Call) :
    Table (d.call m).oms.slots := by
  refine ⟨(length_slots_call d m).trans h.full, ?_⟩
  cases m with
  | reconcile desired tsNs =>
    exact (reconcileSide_turn _ ..).sides_apart ((reconcileSide_turn d ..).sides_apart h.apart)
  | cancelAll tsNs => exact pairwise_apart_cancelAll (fun _ => rfl) h.apart tsNs
  | onExec e =>
    exact (onExec_reported d.oms e).2.pairwise_apart (fun _ _ _ hside => hside) h.apart

/-- At most one slot is active on a side. -/
theorem Table.countP_le_one {slots : List WorkingOrder} (h : Table slots) (side : Side) :
    slots.countP (fun s => s.active && decide (s.side = side)) ≤ 1 := by
  rw [List.countP_eq_length_filter]
  have hpair := h.apart.filter fun s => s.active && decide (s.side = side)
  have hall : ∀ s ∈ slots.filter (fun s => s.active && decide (s.side = side)),
      s.active = true ∧ s.side = side := by
    intro s hs
    simpa using (List.mem_filter.mp hs).2
  revert hpair hall
  generalize slots.filter (fun s => s.active && decide (s.side = side)) = l
  intro hpair hall
  match l, hpair, hall with
  | [], _, _ => exact Nat.zero_le _
  | [_], _, _ => exact Nat.le_refl _
  | a :: b :: _, hpair, hall =>
    obtain ⟨ha, haside⟩ := hall a (by simp)
    obtain ⟨hb, hbside⟩ := hall b (by simp)
    have hapart := (List.pairwise_cons.mp hpair).1 b (by simp)
    exact absurd (haside.trans hbside.symm) (hapart ha hb)

/-- There are more slots than sides, so one is always free. -/
theorem Table.freeSlot_ne_none {o : Oms} (h : Table o.slots) : o.freeSlot ≠ none := by
  intro hnone
  have hall := Oms.freeSlot_none.mp hnone
  obtain ⟨hfull, hpair⟩ := h
  match hslots : o.slots with
  | [] | [_] | [_, _] => rw [hslots] at hfull; cases hfull
  | a :: b :: c :: rest =>
    rw [hslots] at hall hpair
    obtain ⟨ha, htail⟩ := List.pairwise_cons.mp hpair
    have hab := ha b (by simp) (hall a (by simp)) (hall b (by simp))
    have hac := ha c (by simp) (hall a (by simp)) (hall c (by simp))
    have hbc := (List.pairwise_cons.mp htail).1 c (by simp) (hall b (by simp)) (hall c (by simp))
    cases hsa : a.side <;> cases hsb : b.side <;> cases hsc : c.side <;> simp_all

/-! ## Sequence numbers -/

/-- The commands sent so far are numbered from 1, and the counter stands at the next
number. -/
structure Numbered (d : Desk) : Prop where
  next : d.oms.nextSeq = (commands d.log).length + 1
  seqs : (commands d.log).map OrderCommand.seq = List.range' 1 (commands d.log).length

theorem numbered_start (firstClientId : Nat) : Numbered (start firstClientId) := ⟨rfl, rfl⟩

theorem Numbered.send {d : Desk} (h : Numbered d) {c : OrderCommand} (hc : c.seq = d.oms.nextSeq)
    (slots : List WorkingOrder) (id : Nat) :
    Numbered ⟨⟨d.oms.nextSeq + 1, slots⟩, id, d.log ++ [.sent c d.oms]⟩ := by
  have hsent : commands (d.log ++ [.sent c d.oms]) = commands d.log ++ [c] := by
    rw [commands_concat]
    rfl
  constructor
  · rw [hsent, List.length_append, h.next]
    rfl
  · rw [hsent, List.map_append, h.seqs, List.length_append, List.length_singleton,
      List.range'_concat, List.map_singleton, hc, h.next, Nat.one_mul, Nat.add_comm]

theorem SideTurn.numbered {side : Side} {d d' : Desk} (ht : SideTurn side d d')
    (h : Numbered d) : Numbered d' := by
  cases ht with
  | keep => exact h
  | place _ _ command _ => exact h.send command.2.1 _ _
  | cancel _ _ command => exact h.send command.2.1 _ _

theorem Numbered.call {d : Desk} (h : Numbered d) (m : Call) : Numbered (d.call m) := by
  cases m with
  | reconcile desired tsNs =>
    exact (reconcileSide_turn _ ..).numbered ((reconcileSide_turn d ..).numbered h)
  | cancelAll tsNs => exact h.send rfl _ _
  | onExec e =>
    have hsame : commands (d.log ++ [.exec e]) = commands d.log := by
      rw [commands_concat]
      exact List.append_nil _
    constructor
    · show (d.oms.onExec e).nextSeq = (commands (d.log ++ [.exec e])).length + 1
      rw [(onExec_reported d.oms e).1, hsame, h.next]
    · show (commands (d.log ++ [.exec e])).map OrderCommand.seq = _
      rw [show (d.call (.onExec e)).log = d.log ++ [.exec e] from rfl, hsame, h.seqs]

/-! ## The discipline -/

/-- **Single-order discipline.**  From a fresh machine, whatever the strategy wants, the
kill switch does and the reports say: at most one slot is active per side, and a slot is
free whenever `EmitPlace` looks for one; a place is sent only when every order placed
earlier on its side has been terminally reported since; no client id is placed twice; a
cancel names an order active at that moment; and the commands are numbered 1, 2, 3, ... -/
theorem single_order_discipline (firstClientId : Nat) (calls : List Call) :
    let d := run call (start firstClientId) calls
    (∀ side, d.oms.slots.countP (fun s => s.active && decide (s.side = side)) ≤ 1) ∧
    d.oms.freeSlot ≠ none ∧
    (∀ px qty tsNs, (d.reconcileSide .kBid px qty tsNs).oms.freeSlot ≠ none) ∧
    (∀ pre c o post, d.log = pre ++ .sent c o :: post → c.kind = .kPlace →
      ∀ before c' o' after, pre = before ++ .sent c' o' :: after → c'.kind = .kPlace →
        c'.side = c.side →
          ∃ e, .exec e ∈ after ∧ e.clientId = c'.clientId ∧ e.kind.terminal = true) ∧
    ((placed d.log).map OrderCommand.clientId).Nodup ∧
    (∀ c o, .sent c o ∈ d.log → c.kind = .kCancel →
      ∃ s ∈ o.slots, s.active = true ∧ s.clientId = c.clientId) ∧
    (commands d.log).map OrderCommand.seq = List.range' 1 (commands d.log).length := by
  intro d
  have htable : Table d.oms.slots :=
    run_invariant (I := fun d : Desk => Table d.oms.slots) (fun _ m h => Table.call h m)
      table_fresh calls
  have hacc : Accounting d :=
    run_invariant (I := Accounting) (fun _ m h => h.call m) (accounting_start firstClientId) calls
  have hnum : Numbered d :=
    run_invariant (I := Numbered) (fun _ m h => h.call m) (numbered_start firstClientId) calls
  have hrefused : ∀ id, .refused id ∉ d.log := fun id =>
    run_invariant (I := fun d : Desk => .refused id ∉ d.log) (fun d m h => by
      obtain ⟨new, hlog, hnew⟩ := log_call d m
      rw [hlog]
      exact fun hmem => (List.mem_append.mp hmem).elim h (hnew id)) (by simp [start]) calls
  refine ⟨htable.countP_le_one, htable.freeSlot_ne_none, ?_, ?_, hacc.ids_nodup, ?_, hnum.seqs⟩
  · intro px qty tsNs
    have hturn := reconcileSide_turn d .kBid px qty tsNs
    exact Table.freeSlot_ne_none
      ⟨hturn.length_slots.trans htable.full, hturn.sides_apart htable.apart⟩
  · intro pre c o post hlog hplace before c' o' after hpre hplace' hside
    by_contra hnone
    -- otherwise the earlier order is still outstanding
    have hlive : c' ∈ outstanding pre := by
      refine mem_outstanding_of_split hpre hplace' ?_ ?_
      · intro e he hid
        by_contra hterm
        exact hnone ⟨e, he, hid, by simpa using hterm⟩
      · intro hmem
        refine hrefused c'.clientId ?_
        rw [hlog, hpre]
        simp [hmem]
    exact (hacc.lawful pre _ post hlog).1 hplace c' hlive hside
  · intro c o hmem hcancel
    obtain ⟨pre, post, hlog⟩ := List.append_of_mem hmem
    exact (hacc.lawful pre _ post hlog).2 hcancel

end Desk
end Asmm
