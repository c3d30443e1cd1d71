import Mathlib.Algebra.Order.Floor.Ring
import Mathlib.Data.Rat.Floor
import CryptoBook.CrossCheckAlignment
import CryptoBook.MarketDataThread
import CryptoBook.Residual

/-! # How the market-data thread waits

`MarketDataThread` leaves out how long the thread sleeps.  Here is the same thread with
`engine/backoff.cpp` and `SleepMs`: a delay is drawn for every reconnection, and slept in steps of
at most 50 ms, with a look at the stop flag before each.  The arithmetic of the delay is read as
exact, and the random factor is an answer of the environment.

Leaving the delays out again gives a history of the thread without them
(`paced_thread_refines`), so everything that is proved of that thread holds of this one.

What is new is the time between two connections.  Each one but the first is made after a delay
that was drawn and slept in full since the one before; the delay grows by the multiplier with
every delay drawn since a diff was last pushed, up to the maximum (`reconnects_are_paced`). -/
namespace Asmm
open Interaction

/-! ## The delays -/

/-- `Backoff`. -/
structure Backoff where
  initialMs : Int
  maxMs : Int
  multiplier : ℚ
  attempt : UInt32

namespace Backoff

/-- The constructor. -/
def new (initialMs maxMs : Int) (multiplier : ℚ) : Backoff := ⟨initialMs, maxMs, multiplier, 0⟩

/-- `static_cast<i64>`. -/
def truncate (x : ℚ) : Int := if 0 ≤ x then ⌊x⌋ else ⌈x⌉

/-- The delay of the `n`-th attempt before jitter. -/
def base (b : Backoff) (n : Nat) : ℚ := min (b.initialMs * b.multiplier ^ n) b.maxMs

/-- `NextDelayMs`, with what `jitter(rng_)` returns. -/
def nextDelayMs (b : Backoff) (jitter : ℚ) : Int × Backoff :=
  (truncate (b.base b.attempt.toNat * jitter), { b with attempt := b.attempt + 1 })

/-- `Reset`. -/
def reset (b : Backoff) : Backoff := { b with attempt := 0 }

/-- The shortest delay, if the delays do not shrink. -/
def shortest (b : Backoff) : Int := ⌊4 / 5 * min (b.initialMs : ℚ) b.maxMs⌋

theorem shortest_le {b : Backoff} (hinitial : 0 ≤ b.initialMs) (hmax : 0 ≤ b.maxMs)
    (hmul : 1 ≤ b.multiplier) {jitter : ℚ} (hjitter : 4 / 5 ≤ jitter) (n : Nat) :
    b.shortest ≤ truncate (b.base n * jitter) := by
  have hinitial' : (0 : ℚ) ≤ b.initialMs := Int.cast_nonneg hinitial
  have hmax' : (0 : ℚ) ≤ b.maxMs := Int.cast_nonneg hmax
  have hfirst : min (b.initialMs : ℚ) b.maxMs ≤ b.base n :=
    min_le_min_right _ (le_mul_of_one_le_right hinitial' (one_le_pow₀ hmul))
  have hbase : 0 ≤ b.base n := (le_min hinitial' hmax').trans hfirst
  have hdelay : 4 / 5 * min (b.initialMs : ℚ) b.maxMs ≤ b.base n * jitter := calc
    4 / 5 * min (b.initialMs : ℚ) b.maxMs ≤ 4 / 5 * b.base n := by gcongr
    _ = b.base n * (4 / 5) := mul_comm _ _
    _ ≤ b.base n * jitter := by gcongr
  have hnonneg : 0 ≤ b.base n * jitter := mul_nonneg hbase (by linarith)
  rw [truncate, if_pos hnonneg]
  exact Int.floor_le_floor hdelay

end Backoff

/-! ## The thread -/

/-- What the thread calls: what it calls without delays, the stop flag in `SleepMs`, the random
numbers and the clock. -/
inductive PacedCall where
  | md (c : MdCall)
  | poll
  | random
  | sleepFor (ms : Int)

/-- What it is answered. -/
abbrev PacedCall.Answer : PacedCall → Type
  | .md c => c.Answer
  | .poll => Bool
  | .random => ℚ
  | .sleepFor _ => Unit

abbrev PacedProg := Prog PacedCall PacedCall.Answer

namespace PacedThread
open Prog MarketDataThread

def poll : PacedProg Bool := perform PacedCall.poll

def random : PacedProg ℚ := perform PacedCall.random

def sleepFor (ms : Int) : PacedProg Unit := perform (PacedCall.sleepFor ms)

/-- The parts of the thread that do not wait. -/
def lift {α : Type} (p : MdProg α) : PacedProg α := p.embed PacedCall.md fun _ x => x

/-- `SleepMs`. -/
def sleepMs (rounds : Nat) (ms : Int) : PacedProg Unit :=
  loop (fun slept =>
    if slept < ms then do
      if ← poll then pure (.inr ())
      else
        sleepFor (min 50 (ms - slept))
        pure (.inl (slept + 50))
    else pure (.inr ())) rounds 0

/-- `SleepMs(backoff.NextDelayMs(), stop)`. -/
def pause (rounds : Nat) (b : Backoff) : PacedProg Backoff := do
  let jitter ← random
  sleepMs rounds (b.nextDelayMs jitter).1
  pure (b.nextDelayMs jitter).2

section
variable (parser : String → Option Dom) (params : MarketDataParams) (rounds : Nat)

/-- `ws_.Close(); ++ws_reconnects; SleepMs(...)`. -/
def reconnect (b : Backoff) (t : MarketDataThread) : PacedProg (Backoff × MarketDataThread) := do
  lift Md.close
  let b ← pause rounds b
  pure (b, { t with counters := { t.counters with wsReconnects := t.counters.wsReconnects + 1 } })

/-- What `Run` keeps from round to round. -/
structure Loop where
  connected : Bool
  backoff : Backoff
  thread : MarketDataThread

/-- The body of `Run` once connected. -/
def connectedRound (b : Backoff) (t : MarketDataThread) : PacedProg (Loop ⊕ MarketDataThread) := do
  match ← lift (bootstrap parser params rounds t) with
  | (.kStopped, t) => pure (.inr t)
  | (.kSnapshotTooOld, t) | (.kError, t) => do
      let r ← reconnect rounds b t
      pure (.inl ⟨false, r.1, r.2⟩)
  | (.kLive, t) => do
      let (gap, t) ← lift (runLive parser params rounds t)
      if ← lift Md.stopLoad then pure (.inr t)
      else if gap then
        pure (.inl ⟨true, b.reset, { recon := t.recon.reset, counters := { t.counters with
          resyncs := t.counters.resyncs + 1 } }⟩)
      else do
        let r ← reconnect rounds b.reset { t with recon := t.recon.reset }
        pure (.inl ⟨false, r.1, r.2⟩)

/-- One round of `Run`. -/
def round (s : Loop) : PacedProg (Loop ⊕ MarketDataThread) := do
  if ← lift Md.stopLoad then pure (.inr s.thread)
  else if s.connected then connectedRound parser params rounds s.backoff s.thread
  else if ← lift (Md.connect params.wsHost params.wsTarget) then
    connectedRound parser params rounds s.backoff s.thread
  else do
    let b ← pause rounds s.backoff
    pure (.inl ⟨false, b, s.thread⟩)

/-- `Run`. -/
def run (b : Backoff) (t : MarketDataThread) : PacedProg MarketDataThread := do
  let t ← loop (round parser params rounds) rounds ⟨false, b, t⟩
  lift Md.close
  pure t

end

/-! ## Without the delays -/

/-- A delay is one call of the thread that leaves them out. -/
def erase : (c : PacedCall) → c.Answer → List ((c : MdCall) × c.Answer)
  | .md c, x => [⟨c, x⟩]
  | .random, _ => [⟨.sleepMs, ()⟩]
  | .poll, _ => []
  | .sleepFor _, _ => []

section Refinement
variable {α : Type} {q : MdProg α} {h : List ((c : MdCall) × c.Answer)} {rounds : Nat}

theorem wp_lift {β : Type} {p : MdProg β} {g : β → MdProg α} (hq : q.After h (p >>= g)) :
    (Monitor.follows erase q).wp (fun a h' => q.After h' (g a)) (lift p) h :=
  Monitor.wp_embed_follows (fun _ _ => rfl) hq

/-- Sleeping does not show. -/
theorem wp_sleepMs (hq : ∃ r, q.After h r) (ms : Int) :
    (Monitor.follows erase q).wp (fun _ h' => h' = h) (sleepMs rounds ms) h := by
  refine Monitor.wp_loop (fun _ h' => h' = h) ?_ rounds rfl
  rintro slept _ rfl
  split
  · refine Monitor.wp_ite (Monitor.wp_perform_silent (fun _ => rfl) hq fun _ _ => rfl)
      (Monitor.wp_pure hq rfl) ?_
    exact Monitor.wp_bind (Monitor.wp_perform_silent (fun _ => rfl) hq fun _ _ =>
      Monitor.wp_pure hq rfl)
  · exact Monitor.wp_pure hq rfl

theorem wp_pause {g : Unit → MdProg α} (hq : q.After h (Md.sleepMs >>= g)) (b : Backoff) :
    (Monitor.follows erase q).wp (fun _ h' => q.After h' (g ())) (pause rounds b) h := by
  have hslept : q.After (h ++ [⟨.sleepMs, ()⟩]) (g ()) := hq.answer ()
  refine Monitor.wp_bind (Monitor.wp_perform ⟨_, hq⟩ fun jitter _ => ⟨⟨_, hslept⟩, ?_⟩)
  refine Monitor.wp_bind ((wp_sleepMs ⟨_, hslept⟩ _).mono ?_)
  rintro _ _ - rfl
  exact Monitor.wp_pure ⟨_, hslept⟩ hslept

theorem wp_reconnect {t : MarketDataThread} {g : MarketDataThread → MdProg α}
    (hq : q.After h (MarketDataThread.reconnect t >>= g)) (b : Backoff) :
    (Monitor.follows erase q).wp (fun r h' => q.After h' (g r.2)) (reconnect rounds b t) h := by
  rw [MarketDataThread.reconnect, Prog.bind_assoc] at hq
  refine Monitor.wp_bind ((wp_lift hq).mono fun _ h' _ hq => ?_)
  rw [Prog.bind_assoc] at hq
  exact Monitor.wp_bind ((wp_pause hq b).mono fun b' h' _ hq => Monitor.wp_pure ⟨_, hq⟩ hq)

/-- The loop state without the delays. -/
def plain : Loop ⊕ MarketDataThread → (Bool × MarketDataThread) ⊕ MarketDataThread
  | .inl s => .inl (s.connected, s.thread)
  | .inr t => .inr t

variable {parser : String → Option Dom} {params : MarketDataParams}
  {g : (Bool × MarketDataThread) ⊕ MarketDataThread → MdProg α}

theorem wp_connectedRound {t : MarketDataThread}
    (hq : q.After h (MarketDataThread.connectedRound parser params rounds t >>= g)) (b : Backoff) :
    (Monitor.follows erase q).wp (fun r h' => q.After h' (g (plain r)))
      (connectedRound parser params rounds b t) h := by
  rw [MarketDataThread.connectedRound, Prog.bind_assoc] at hq
  refine Monitor.wp_bind ((wp_lift hq).mono ?_)
  rintro ⟨boot, t⟩ h - hq
  cases boot with
  | kStopped => exact Monitor.wp_pure ⟨_, hq⟩ hq
  | kSnapshotTooOld | kError =>
    rw [Prog.bind_assoc] at hq
    exact Monitor.wp_bind ((wp_reconnect hq b).mono fun r h _ hq => Monitor.wp_pure ⟨_, hq⟩ hq)
  | kLive =>
    rw [Prog.bind_assoc] at hq
    refine Monitor.wp_bind ((wp_lift hq).mono ?_)
    rintro ⟨gap, t⟩ h - hq
    rw [Prog.bind_assoc] at hq
    refine Monitor.wp_bind ((wp_lift hq).mono ?_)
    rintro stop h - hq
    cases stop with
    | true => exact Monitor.wp_pure ⟨_, hq⟩ hq
    | false =>
      cases gap with
      | true => exact Monitor.wp_pure ⟨_, hq⟩ hq
      | false =>
        rw [if_neg (by decide), if_neg (by decide), Prog.bind_assoc] at hq
        exact Monitor.wp_bind ((wp_reconnect hq b.reset).mono fun r h _ hq =>
          Monitor.wp_pure ⟨_, hq⟩ hq)

theorem wp_round {s : Loop}
    (hq : q.After h
      (MarketDataThread.round parser params rounds (s.connected, s.thread) >>= g)) :
    (Monitor.follows erase q).wp (fun r h' => q.After h' (g (plain r)))
      (round parser params rounds s) h := by
  rw [MarketDataThread.round, Prog.bind_assoc] at hq
  refine Monitor.wp_bind ((wp_lift hq).mono ?_)
  rintro stop h - hq
  cases stop with
  | true => exact Monitor.wp_pure ⟨_, hq⟩ hq
  | false =>
    rw [if_neg (by decide)] at hq ⊢
    cases hconnected : s.connected with
    | true =>
      rw [hconnected] at hq
      exact wp_connectedRound hq s.backoff
    | false =>
      rw [hconnected, if_neg (by decide), Prog.bind_assoc] at hq
      refine Monitor.wp_bind ((wp_lift hq).mono ?_)
      rintro ok h - hq
      cases ok with
      | true => exact wp_connectedRound hq s.backoff
      | false =>
        rw [if_neg (by decide), Prog.bind_assoc] at hq
        exact Monitor.wp_bind ((wp_pause hq s.backoff).mono fun b h _ hq =>
          Monitor.wp_pure ⟨_, hq⟩ hq)

theorem wp_rounds {g : MarketDataThread → MdProg α} {n : Nat} {s : Loop}
    (hq : q.After h
      (loop (MarketDataThread.round parser params rounds) n (s.connected, s.thread) >>= g)) :
    (Monitor.follows erase q).wp (fun t h' => q.After h' (g t))
      (loop (round parser params rounds) n s) h := by
  induction n generalizing s h with
  | zero => exact ⟨_, hq⟩
  | succ n ih =>
    rw [loop, Prog.bind_assoc] at hq
    refine Monitor.wp_bind ((wp_round hq).mono ?_)
    rintro (s | t) h - hq
    · exact ih hq
    · exact Monitor.wp_pure ⟨_, hq⟩ hq

end Refinement

/-- **The thread with delays refines the thread without.**  Take any execution with delays,
whatever the environment answers.  Its calls, with one call for each delay, are those of an
execution of the thread that leaves the delays out. -/
theorem paced_thread_refines (parser : String → Option Dom) (params : MarketDataParams)
    (rounds : Nat) (b : Backoff) (t : MarketDataThread)
    (answers : Nat → (c : PacedCall) → c.Answer) (calls : Nat) :
    let made := ((run parser params rounds b t).exec answers calls).flatMap
      fun x => erase x.1 x.2
    ∃ answers', (MarketDataThread.run parser params rounds t).exec answers' made.length = made := by
  intro made
  let q := MarketDataThread.run parser params rounds t
  have hwp : (Monitor.follows erase q).wp (fun _ _ => True) (run parser params rounds b t) [] := by
    have hstart : q.After []
        (loop (MarketDataThread.round parser params rounds) rounds (false, t) >>=
          fun t => Md.close >>= fun _ => pure t) := .start q
    refine Monitor.wp_bind ((wp_rounds (s := ⟨false, b, t⟩) hstart).mono fun t h _ hq => ?_)
    exact Monitor.wp_bind ((wp_lift hq).mono fun _ h _ hq => Monitor.wp_pure ⟨_, hq⟩ trivial)
  obtain ⟨r, hafter⟩ := Monitor.wp_exec hwp answers (fun _ _ => trivial) calls
  have hanswer : ∀ c : MdCall, Nonempty c.Answer
    | .stopLoad | .connect _ _ | .tryPush _ => ⟨false⟩
    | .read => ⟨⟨.kOk, ""⟩⟩
    | .get _ _ => ⟨none⟩
    | .nowNs => ⟨0⟩
    | .close | .sleepMs => ⟨()⟩
  exact hafter.exists_exec

/-! ## The delays between connections -/

/-- What shows of the waiting: connections, delays drawn and slept, diffs pushed, and the stop
flag. -/
inductive Pace where
  | connect
  | drew
  | slept (ms : Int)
  | diff
  | running
  | stopped
  deriving DecidableEq

/-- A look at the stop flag. -/
def Pace.ofStop (stop : Bool) : Pace := if stop then .stopped else .running

/-- What an answered call shows. -/
def pace : (c : PacedCall) → c.Answer → List Pace
  | .md .stopLoad, stop => [.ofStop stop]
  | .md (.connect _ _), _ => [.connect]
  | .md (.tryPush ev), ok => if ok = true ∧ ev.kind = .kDepthDiff then [.diff] else []
  | .md .read, _ | .md .close, _ | .md (.get _ _), _ | .md .nowNs, _ | .md .sleepMs, _ => []
  | .poll, stop => [.ofStop stop]
  | .random, _ => [.drew]
  | .sleepFor ms, _ => [.slept ms]

/-- The number of delays drawn since a diff was last pushed. -/
def quiet (h : List Pace) : Nat :=
  h.foldl (fun n x => match x with
    | .diff => 0
    | .drew => n + 1
    | _ => n) 0

/-- The time slept. -/
def sleptIn (h : List Pace) : Int :=
  (h.map fun
    | .slept ms => ms
    | _ => 0).sum

/-- A delay has been drawn and slept in full since the last connection. -/
def Rested (b : Backoff) (h : List Pace) : Prop :=
  ∃ front back jitter, h = front ++ .drew :: back ∧ .drew ∉ back ∧ .connect ∉ back ∧
    4 / 5 ≤ jitter ∧ jitter ≤ 6 / 5 ∧
    sleptIn back = max (Backoff.truncate (b.base (quiet front % UInt32.size) * jitter)) 0

/-- What is asked of each moment: a connection but the first is made after a rest, and a step of
sleep is short and follows a look at the stop flag. -/
def Proper (b : Backoff) (pre : List Pace) : Pace → Prop
  | .connect => .connect ∈ pre → Rested b pre
  | .slept ms => 0 < ms ∧ ms ≤ 50 ∧ pre.getLast? = some .running
  | _ => True

/-- Looks at the stop flag and diffs. -/
def Calm (e : List Pace) : Prop := ∀ x ∈ e, x = .running ∨ x = .diff

/-- From `h` to `h'` the thread did not wait; `d` says whether it pushed a diff. -/
def Goes (d : Bool) (h h' : List Pace) : Prop := ∃ e, h' = h ++ e ∧ Calm e ∧ (.diff ∈ e ↔ d = true)

section Pace
variable {h h' h'' e : List Pace} {b : Backoff}

theorem quiet_append (h e : List Pace) : quiet (h ++ e) = e.foldl (fun n x => match x with
    | .diff => 0
    | .drew => n + 1
    | _ => n) (quiet h) := List.foldl_append ..

theorem quiet_append_of_not_mem (hdiff : .diff ∉ e) (hdrew : .drew ∉ e) :
    quiet (h ++ e) = quiet h := by
  induction e using List.reverseRecOn with
  | nil => rw [List.append_nil]
  | append_singleton e x ih =>
    simp only [List.mem_append, List.mem_singleton, not_or] at hdiff hdrew
    rw [← List.append_assoc, quiet_append, ih hdiff.1 hdrew.1]
    cases x <;> simp_all

theorem quiet_append_of_diff (hcalm : Calm e) (hdiff : .diff ∈ e) : quiet (h ++ e) = 0 := by
  induction e using List.reverseRecOn with
  | nil => cases hdiff
  | append_singleton e x ih =>
    obtain ⟨hfront, hx⟩ := List.forall_mem_append.mp hcalm
    rw [← List.append_assoc, quiet_append]
    rcases hx x (List.mem_singleton_self x) with rfl | rfl
    · refine ih hfront ?_
      simpa using hdiff
    · rfl

theorem sleptIn_append (h e : List Pace) : sleptIn (h ++ e) = sleptIn h + sleptIn e := by
  simp [sleptIn]

theorem Goes.refl (h : List Pace) : Goes false h h :=
  ⟨[], (List.append_nil h).symm, by rintro _ ⟨⟩, by simp⟩

theorem Goes.running (h : List Pace) : Goes false h (h ++ [.running]) :=
  ⟨[.running], rfl, by simp [Calm], by simp⟩

theorem Goes.trans {d d' : Bool} (h₁ : Goes d h h') (h₂ : Goes d' h' h'') :
    Goes (d || d') h h'' := by
  obtain ⟨e, rfl, hcalm, hdiff⟩ := h₁
  obtain ⟨e', rfl, hcalm', hdiff'⟩ := h₂
  refine ⟨e ++ e', List.append_assoc .., List.forall_mem_append.mpr ⟨hcalm, hcalm'⟩, ?_⟩
  rw [List.mem_append, hdiff, hdiff', Bool.or_eq_true]

theorem always_append (hproper : Runs.Always (Proper b) h) (hcalm : Calm e) :
    Runs.Always (Proper b) (h ++ e) := by
  induction e using List.reverseRecOn with
  | nil => rwa [List.append_nil]
  | append_singleton e x ih =>
    obtain ⟨hfront, hx⟩ := List.forall_mem_append.mp hcalm
    rw [← List.append_assoc]
    refine Runs.always_concat.mpr ⟨ih hfront, ?_⟩
    rcases hx x (List.mem_singleton_self x) with rfl | rfl <;> trivial

theorem Goes.always {d : Bool} (hgoes : Goes d h h') (hproper : Runs.Always (Proper b) h) :
    Runs.Always (Proper b) h' := by
  obtain ⟨e, rfl, hcalm, -⟩ := hgoes
  exact always_append hproper hcalm

theorem Goes.quiet_eq {d : Bool} (hgoes : Goes d h h') : quiet h' = if d then 0 else quiet h := by
  obtain ⟨e, rfl, hcalm, hdiff⟩ := hgoes
  have hdrew : .drew ∉ e := fun hmem => by rcases hcalm _ hmem with h | h <;> cases h
  cases d with
  | true => exact quiet_append_of_diff hcalm (hdiff.mpr rfl)
  | false => exact quiet_append_of_not_mem (fun hmem => by cases hdiff.mp hmem) hdrew

/-- A rest is not undone by going on. -/
theorem Rested.goes {d : Bool} (hrested : Rested b h) (hgoes : Goes d h h') : Rested b h' := by
  obtain ⟨front, back, jitter, rfl, hdrew, hconnect, hlow, hhigh, hslept⟩ := hrested
  obtain ⟨e, rfl, hcalm, -⟩ := hgoes
  have hmem : ∀ x : Pace, x ∈ e → x ≠ .drew ∧ x ≠ .connect := by
    intro x hx
    rcases hcalm x hx with rfl | rfl <;> exact ⟨by decide, by decide⟩
  have he : sleptIn e = 0 := by
    refine List.sum_eq_zero fun n hn => ?_
    obtain ⟨x, hx, rfl⟩ := List.mem_map.mp hn
    rcases hcalm x hx with rfl | rfl <;> rfl
  refine ⟨front, back ++ e, jitter, by simp, ?_, ?_, hlow, hhigh, ?_⟩
  · exact fun hx => (List.mem_append.mp hx).elim hdrew fun hx => (hmem _ hx).1 rfl
  · exact fun hx => (List.mem_append.mp hx).elim hconnect fun hx => (hmem _ hx).2 rfl
  · rw [sleptIn_append, he, Int.add_zero, hslept]

end Pace

/-! ### Parts that do not wait -/

/-- The thread without delays, watched in the same way. -/
def mdPaceMonitor (b : Backoff) : Monitor MdCall MdCall.Answer Pace where
  emit := fun c x => pace (.md c) x
  admits := fun _ _ => True
  inv := fun h => .stopped ∈ h ∨ Runs.Always (Proper b) h

/-- What holds unless the stop flag has been found set. -/
def orStopped {α : Type} (Q : α → List Pace → Prop) (a : α) (h : List Pace) : Prop :=
  .stopped ∈ h ∨ Q a h

section Parts
variable {b : Backoff} {h : List Pace} {rounds : Nat} {α : Type} {Q : α → List Pace → Prop}
  {parser : String → Option Dom} {params : MarketDataParams}

theorem mdwp_stopped (hQ : ∀ a h', .stopped ∈ h' → Q a h') (hstop : .stopped ∈ h)
    (p : MdProg α) : (mdPaceMonitor b).wp Q p h :=
  Monitor.wp_of_ended (fun _ => Or.inl) hQ hstop p

theorem mdwp_silent {c : MdCall} {Q : c.Answer → List Pace → Prop}
    (hsilent : ∀ x, pace (.md c) x = []) (hproper : Runs.Always (Proper b) h)
    (hQ : ∀ x, Q x h) : (mdPaceMonitor b).wp Q (perform c) h :=
  Monitor.wp_perform_silent hsilent (.inr hproper) fun x _ => hQ x

theorem mdwp_stopLoad {p q : MdProg α} (hQ : ∀ a h', .stopped ∈ h' → Q a h')
    (hproper : Runs.Always (Proper b) h) (hq : (mdPaceMonitor b).wp Q q (h ++ [.running])) :
    (mdPaceMonitor b).wp Q (Md.stopLoad >>= fun stop => if stop = true then p else q) h := by
  refine Monitor.wp_bind (Monitor.wp_perform (.inr hproper) fun stop _ => ?_)
  cases stop with
  | true =>
    have hstop : Pace.stopped ∈ h ++ [.stopped] := List.mem_append_right _ List.mem_cons_self
    exact ⟨.inl hstop, mdwp_stopped hQ hstop p⟩
  | false => exact ⟨.inr ((Goes.running h).always hproper), hq⟩

theorem turn_stopped {σ : Type} {J : σ → List Pace → Prop} (r : σ ⊕ α) (h' : List Pace)
    (hstop : .stopped ∈ h') : Monitor.turn (orStopped J) (orStopped Q) r h' := by
  cases r with
  | inl s => exact .inl hstop
  | inr a => exact .inl hstop

theorem Goes.inv {d : Bool} {h' : List Pace} (hgoes : Goes d h h')
    (hproper : Runs.Always (Proper b) h) : (mdPaceMonitor b).inv h' := .inr (hgoes.always hproper)

theorem Goes.pushed (h : List Pace) (ev : MarketEvent) :
    Goes (ev.kind = .kDepthDiff) h (h ++ pace (.md (.tryPush ev)) true) := by
  refine ⟨_, rfl, ?_, ?_⟩ <;> by_cases hkind : ev.kind = .kDepthDiff <;> simp [pace, hkind, Calm]

theorem mdwp_pushEvent (hproper : Runs.Always (Proper b) h) (ev : MarketEvent)
    (t : MarketDataThread) :
    (mdPaceMonitor b).wp
      (orStopped fun r h' => r.1 = true ∧ Goes (ev.kind = .kDepthDiff) h h')
      (pushEvent rounds ev t) h := by
  refine Monitor.wp_loop (orStopped fun _ h' => Goes false h h') ?_ rounds (.inr (.refl h))
  rintro t' h' (hstop | hgoes)
  · exact mdwp_stopped turn_stopped hstop _
  have hproper' := hgoes.always hproper
  refine Monitor.wp_bind (Monitor.wp_perform (.inr hproper') fun ok _ => ?_)
  cases ok with
  | true =>
    have hpushed := Goes.pushed h' ev
    have hinv := hpushed.inv hproper'
    exact ⟨hinv, Monitor.wp_pure hinv (.inr ⟨rfl, hgoes.trans hpushed⟩)⟩
  | false =>
    have hemit : (mdPaceMonitor b).emit (.tryPush ev) false = [] := by simp [mdPaceMonitor, pace]
    rw [hemit, List.append_nil]
    refine ⟨.inr hproper', mdwp_stopLoad turn_stopped hproper' ?_⟩
    have hrunning := Goes.running h'
    exact Monitor.wp_pure (.inr (hrunning.always hproper')) (.inr (hgoes.trans hrunning))

theorem mdwp_pushEvents (hproper : Runs.Always (Proper b) h) (evs : List MarketEvent)
    (t : MarketDataThread) :
    (mdPaceMonitor b).wp
      (orStopped fun r h' => r.1 = true ∧ Goes (evs.any (·.kind = .kDepthDiff)) h h')
      (pushEvents rounds evs t) h := by
  induction evs generalizing t h with
  | nil => exact Monitor.wp_pure (.inr hproper) (.inr ⟨rfl, .refl h⟩)
  | cons ev evs ih =>
    refine Monitor.wp_bind ((mdwp_pushEvent hproper ev t).mono ?_)
    rintro ⟨ok, t'⟩ h' - (hstop | ⟨hok, hgoes⟩)
    · exact mdwp_stopped (fun _ _ => .inl) hstop _
    obtain rfl : ok = true := hok
    refine (ih (hgoes.always hproper) t').mono ?_
    rintro r h'' - (hstop | ⟨hok, hrest⟩)
    · exact .inl hstop
    · exact .inr ⟨hok, hgoes.trans hrest⟩

/-- A group that is pushed whole shows a diff if it is one. -/
theorem mdwp_pushGroup {kind : EventKind} {U u : UInt64} {evs : List MarketEvent}
    (hproper : Runs.Always (Proper b) h) (hchain : FragmentChain kind U u true evs)
    (t : MarketDataThread) :
    (mdPaceMonitor b).wp (orStopped fun r h' => r.1 = true ∧ Goes (kind = .kDepthDiff) h h')
      (pushGroup rounds evs t) h := by
  have hany : evs.any (·.kind = .kDepthDiff) = decide (kind = .kDepthDiff) := by
    obtain ⟨front, rest, rfl, -⟩ := hchain.front
    have hkind := hchain.kind_eq
    rw [Bool.eq_iff_iff, List.any_eq_true, decide_eq_true_iff]
    constructor
    · rintro ⟨ev, hev, hdiff⟩
      exact hkind ev hev ▸ of_decide_eq_true hdiff
    · intro hdiff
      have hfront : front ∈ front :: rest := List.mem_cons_self
      exact ⟨front, hfront, decide_eq_true ((hkind front hfront).trans hdiff)⟩
  refine Monitor.wp_bind ((mdwp_pushEvents hproper evs t).mono ?_)
  rintro ⟨ok, t'⟩ h' - (hstop | ⟨hok, hgoes⟩)
  · exact mdwp_stopped (fun _ _ => .inl) hstop _
  obtain rfl : ok = true := hok
  rw [hany] at hgoes
  exact Monitor.wp_pure (.inr (hgoes.always hproper)) (.inr ⟨rfl, hgoes⟩)

/-- A round of a read loop. -/
theorem mdwp_readRound {stopped : MdProg α} {go : Reading → MdProg α}
    (hproper : Runs.Always (Proper b) h) (hQ : ∀ a h', .stopped ∈ h' → Q a h')
    (hended : (mdPaceMonitor b).wp Q (go .ended) (h ++ [.running]))
    (hignored : (mdPaceMonitor b).wp Q (go .ignored) (h ++ [.running]))
    (hgroup : ∀ scratch U u, FragmentChain .kDepthDiff U u true scratch →
      (mdPaceMonitor b).wp Q (go (.group scratch)) (h ++ [.running])) :
    (mdPaceMonitor b).wp Q (Md.stopLoad >>= fun stop =>
      if stop = true then stopped else readFrame parser params >>= go) h := by
  have hproper' := (Goes.running h).always hproper
  refine mdwp_stopLoad hQ hproper (Monitor.wp_bind ?_)
  refine Monitor.wp_bind (mdwp_silent (fun _ => rfl) hproper' fun frame => ?_)
  split
  · exact Monitor.wp_pure (.inr hproper') hended
  refine Monitor.wp_bind (mdwp_silent (fun _ => rfl) hproper' fun now => ?_)
  cases hparse : parseDepthDiff parser frame.payload params.filters now with
  | none => exact Monitor.wp_pure (.inr hproper') hignored
  | some scratch =>
    obtain ⟨d, -, hg⟩ := parseDepthDiff_group hparse
    dsimp only
    split
    · exact Monitor.wp_pure (.inr hproper') hignored
    · exact Monitor.wp_pure (.inr hproper') (hgroup scratch _ _ hg.chain)

theorem mdwp_readBracket (hproper : Runs.Always (Proper b) h) (t : MarketDataThread) :
    (mdPaceMonitor b).wp
      (orStopped fun r h' => r.1 ≠ some .kStopped ∧ Goes (r.1 = some .kLive) h h')
      (readBracket parser params rounds t) h := by
  refine Monitor.wp_loop (orStopped fun _ h' => Goes false h h') ?_ rounds (.inr (.refl h))
  rintro t' h' (hstop | hgoes)
  · exact mdwp_stopped turn_stopped hstop _
  have hproper' := hgoes.always hproper
  have hrunning := hgoes.trans (.running h')
  have hinv := hrunning.inv hproper
  refine mdwp_readRound hproper' turn_stopped ?_ ?_ ?_
  · exact Monitor.wp_pure hinv (.inr ⟨by rintro ⟨⟩, hrunning⟩)
  · exact Monitor.wp_pure hinv (.inr hrunning)
  · intro scratch U u hchain
    dsimp only
    generalize t'.recon.onDiffGroup scratch = r
    obtain ⟨action, recon⟩ := r
    cases action with
    | kDrop => exact Monitor.wp_pure hinv (.inr hrunning)
    | kEmitAndGoLive =>
      refine Monitor.wp_bind ((mdwp_pushGroup (hrunning.always hproper) hchain _).mono ?_)
      rintro ⟨ok, t''⟩ h'' hinv' (hstop | ⟨hok, hpushed⟩)
      · exact mdwp_stopped turn_stopped hstop _
      obtain rfl : ok = true := hok
      exact Monitor.wp_pure hinv' (.inr ⟨by rintro ⟨⟩, hrunning.trans hpushed⟩)
    | kSnapshotTooOld => exact Monitor.wp_pure hinv (.inr ⟨by rintro ⟨⟩, hrunning⟩)
    | kEmit | kGap | kNeedSnapshot =>
      exact Monitor.wp_pure hinv (.inr ⟨by rintro ⟨⟩, hrunning⟩)

theorem mdwp_attempts (hproper : Runs.Always (Proper b) h) (left : Nat) (t : MarketDataThread) :
    (mdPaceMonitor b).wp (orStopped fun r h' => r.1 ≠ .kStopped ∧ Goes (r.1 = .kLive) h h')
      (attempts parser params rounds left t) h := by
  induction left generalizing t h with
  | zero => exact Monitor.wp_pure (.inr hproper) (.inr ⟨by rintro ⟨⟩, .refl h⟩)
  | succ left ih =>
    have hrunning := Goes.running h
    have hproper' := hrunning.always hproper
    have hfailed (t : MarketDataThread) : (mdPaceMonitor b).wp
        (orStopped fun (r : BootResult × MarketDataThread) h' =>
          r.1 ≠ .kStopped ∧ Goes (r.1 = .kLive) h h') (pure (.kError, t)) (h ++ [.running]) :=
      Monitor.wp_pure (.inr hproper') (.inr ⟨by rintro ⟨⟩, hrunning⟩)
    refine mdwp_stopLoad (fun _ _ => .inl) hproper ?_
    refine Monitor.wp_bind (mdwp_silent (fun _ => rfl) hproper' fun body => ?_)
    cases body with
    | none => exact hfailed t
    | some body =>
      dsimp only
      cases parseDepthSnapshot parser body params.filters with
      | none => exact hfailed t
      | some snap =>
        refine Monitor.wp_bind (mdwp_silent (fun _ => rfl) hproper' fun now => ?_)
        refine Monitor.wp_bind ((mdwp_pushGroup hproper'
          (t.recon.onSnapshot_group snap now).chain _).mono ?_)
        rintro ⟨ok, t'⟩ h' - (hstop | ⟨hok, hpushed⟩)
        · exact mdwp_stopped (fun _ _ => .inl) hstop _
        obtain rfl : ok = true := hok
        have hgoes := hrunning.trans hpushed
        refine Monitor.wp_bind ((mdwp_readBracket (hgoes.always hproper) t').mono ?_)
        rintro ⟨result, t''⟩ h'' hinv (hstop | ⟨hresult, hread⟩)
        · exact mdwp_stopped (fun _ _ => .inl) hstop _
        have hgoes' := hgoes.trans hread
        cases result with
        | some result =>
          refine Monitor.wp_pure hinv (.inr ⟨fun heq => hresult (congrArg some heq), ?_⟩)
          simpa using hgoes'
        | none =>
          refine mdwp_stopLoad (fun _ _ => .inl) (hgoes'.always hproper) ?_
          have hagain := hgoes'.trans (.running h'')
          refine (ih (hagain.always hproper) t'').mono ?_
          rintro r h' - (hstop | ⟨hne, hrest⟩)
          · exact .inl hstop
          · exact .inr ⟨hne, by simpa using hagain.trans hrest⟩

theorem mdwp_runLive (hproper : Runs.Always (Proper b) h) (t : MarketDataThread) :
    (mdPaceMonitor b).wp (orStopped fun _ h' => ∃ d, Goes d h h')
      (runLive parser params rounds t) h := by
  refine Monitor.wp_loop (orStopped fun _ h' => ∃ d, Goes d h h') ?_ rounds (.inr ⟨_, .refl h⟩)
  rintro t' h' (hstop | ⟨d, hgoes⟩)
  · exact mdwp_stopped turn_stopped hstop _
  have hproper' := hgoes.always hproper
  have hrunning := hgoes.trans (.running h')
  have hinv := hrunning.inv hproper
  refine mdwp_readRound hproper' turn_stopped ?_ ?_ ?_
  · exact Monitor.wp_pure hinv (.inr ⟨_, hrunning⟩)
  · exact Monitor.wp_pure hinv (.inr ⟨_, hrunning⟩)
  · intro scratch U u hchain
    dsimp only
    generalize t'.recon.onDiffGroup scratch = r
    obtain ⟨action, recon⟩ := r
    cases action with
    | kEmit | kEmitAndGoLive =>
      refine Monitor.wp_bind ((mdwp_pushGroup (hrunning.always hproper) hchain _).mono ?_)
      rintro ⟨ok, t''⟩ h'' hinv' (hstop | ⟨hok, hpushed⟩)
      · exact mdwp_stopped turn_stopped hstop _
      obtain rfl : ok = true := hok
      exact Monitor.wp_pure hinv' (.inr ⟨_, hrunning.trans hpushed⟩)
    | kGap => exact Monitor.wp_pure hinv (.inr ⟨_, hrunning⟩)
    | kDrop | kNeedSnapshot | kSnapshotTooOld => exact Monitor.wp_pure hinv (.inr ⟨_, hrunning⟩)

end Parts

/-! ### The thread -/

/-- What is asked of the thread: the random factor is one that `jitter` can return. -/
def paceMonitor (b : Backoff) : Monitor PacedCall PacedCall.Answer Pace where
  emit := pace
  admits := fun c x => match c with
    | .random => (4 / 5 : ℚ) ≤ x ∧ (x : ℚ) ≤ 6 / 5
    | _ => True
  inv := fun h => .stopped ∈ h ∨ Runs.Always (Proper b) h

/-- Looks at the stop flag and steps of sleep. -/
def Sleepy (e : List Pace) : Prop := ∀ x ∈ e, x = .running ∨ ∃ ms, x = .slept ms

/-- The backoff counts the delays drawn since the last diff. -/
def Keeps (b : Backoff) (h : List Pace) (now : Backoff) : Prop :=
  now = { b with attempt := UInt32.ofNat (quiet h) }

/-- What holds at the head of the loop of `Run`. -/
structure Ready (b : Backoff) (s : Loop) (h : List Pace) : Prop where
  proper : Runs.Always (Proper b) h
  keeps : Keeps b h s.backoff
  rested : s.connected = false → .connect ∈ h → Rested b h

section Thread
variable {b now : Backoff} {h : List Pace} {rounds : Nat} {α : Type} {Q : α → List Pace → Prop}
  {parser : String → Option Dom} {params : MarketDataParams}

theorem Keeps.goes {d : Bool} {h' : List Pace} (hkeeps : Keeps b h now) (hgoes : Goes d h h') :
    Keeps b h' (if d then now.reset else now) := by
  subst hkeeps
  rw [Keeps, hgoes.quiet_eq]
  cases d <;> rfl

theorem pwp_lift {p : MdProg α} (hp : (mdPaceMonitor b).wp Q p h) :
    (paceMonitor b).wp Q (lift p) h :=
  Monitor.wp_embed (M := mdPaceMonitor b) (f := PacedCall.md) (fun _ _ => rfl)
    (fun _ _ _ => trivial) (fun _ hinv => hinv) hp

theorem pwp_stopped (hQ : ∀ a h', .stopped ∈ h' → Q a h') (hstop : .stopped ∈ h)
    (p : PacedProg α) : (paceMonitor b).wp Q p h :=
  Monitor.wp_of_ended (fun _ => Or.inl) hQ hstop p

theorem pwp_silent {c : MdCall} {Q : c.Answer → List Pace → Prop}
    (hsilent : ∀ x, pace (.md c) x = []) (hproper : Runs.Always (Proper b) h)
    (hQ : ∀ x, Q x h) : (paceMonitor b).wp Q (lift (perform c)) h :=
  pwp_lift (mdwp_silent hsilent hproper hQ)

/-- A look at the stop flag, in `Run` or in `SleepMs`. -/
theorem pwp_unless {look : PacedProg Bool} {p q : PacedProg α}
    (hlook : ∀ Q : Bool → List Pace → Prop,
      Q true (h ++ [.stopped]) → Q false (h ++ [.running]) → (paceMonitor b).wp Q look h)
    (hQ : ∀ a h', .stopped ∈ h' → Q a h')
    (hq : (paceMonitor b).wp Q q (h ++ [.running])) :
    (paceMonitor b).wp Q (look >>= fun stop => if stop = true then p else q) h :=
  Monitor.wp_bind (hlook _ (pwp_stopped hQ (List.mem_append_right _ List.mem_cons_self) p) hq)

theorem pwp_poll (hproper : Runs.Always (Proper b) h) (Q : Bool → List Pace → Prop)
    (hstop : Q true (h ++ [.stopped])) (hgo : Q false (h ++ [.running])) :
    (paceMonitor b).wp Q poll h := by
  refine Monitor.wp_perform (.inr hproper) fun stop _ => ?_
  cases stop with
  | true => exact ⟨.inl (List.mem_append_right _ List.mem_cons_self), hstop⟩
  | false => exact ⟨(Goes.running h).inv hproper, hgo⟩

theorem pwp_stopLoad (hproper : Runs.Always (Proper b) h) (Q : Bool → List Pace → Prop)
    (hstop : Q true (h ++ [.stopped])) (hgo : Q false (h ++ [.running])) :
    (paceMonitor b).wp Q (lift Md.stopLoad) h := by
  refine pwp_lift (Monitor.wp_perform (.inr hproper) fun stop _ => ?_)
  cases stop with
  | true => exact ⟨.inl (List.mem_append_right _ List.mem_cons_self), hstop⟩
  | false => exact ⟨(Goes.running h).inv hproper, hgo⟩

/-- `SleepMs` sleeps as long as it was told, in short steps. -/
theorem pwp_sleepMs (hproper : Runs.Always (Proper b) h) (ms : Int) :
    (paceMonitor b).wp (orStopped fun _ h' => Runs.Always (Proper b) h' ∧
        ∃ e, h' = h ++ e ∧ Sleepy e ∧ sleptIn e = max ms 0) (sleepMs rounds ms) h := by
  refine Monitor.wp_loop (orStopped fun slept h' => Runs.Always (Proper b) h' ∧
    ∃ e, h' = h ++ e ∧ Sleepy e ∧ 0 ≤ slept ∧ sleptIn e = min slept (max ms 0)) ?_ rounds ?_
  · rintro slept h' (hstop | ⟨hproper', e, rfl, hsleepy, hnonneg, hslept⟩)
    · exact pwp_stopped turn_stopped hstop _
    split
    · rename_i hless
      refine pwp_unless (pwp_poll hproper') turn_stopped ?_
      have hlooked := (Goes.running (h ++ e)).always hproper'
      have hstep : Runs.Always (Proper b)
          (h ++ e ++ [.running] ++ [.slept (min 50 (ms - slept))]) := by
        refine Runs.always_concat.mpr ⟨hlooked, ?_, ?_, ?_⟩
        · omega
        · omega
        · rw [List.getLast?_append]
          rfl
      refine Monitor.wp_bind (Monitor.wp_perform (.inr hlooked) fun _ _ => ⟨.inr hstep, ?_⟩)
      refine Monitor.wp_pure (.inr hstep) (.inr ⟨hstep,
        e ++ [.running, .slept (min 50 (ms - slept))], by simp [paceMonitor, pace], ?_, ?_, ?_⟩)
      · refine List.forall_mem_append.mpr ⟨hsleepy, ?_⟩
        simp
      · omega
      · have htwo : sleptIn [.running, .slept (min 50 (ms - slept))] = min 50 (ms - slept) := by
          simp [sleptIn]
        rw [sleptIn_append, hslept, htwo]
        omega
    · refine Monitor.wp_pure (.inr hproper') (.inr ⟨hproper', e, rfl, hsleepy, ?_⟩)
      omega
  · exact .inr ⟨hproper, [], (List.append_nil h).symm, by rintro _ ⟨⟩, le_rfl,
      by simp [sleptIn]⟩

/-- The thread has rested after a pause. -/
theorem pwp_pause (hproper : Runs.Always (Proper b) h) (hkeeps : Keeps b h now) :
    (paceMonitor b).wp
      (orStopped fun now h' => Runs.Always (Proper b) h' ∧ Keeps b h' now ∧ Rested b h')
      (pause rounds now) h := by
  have hdrew : Runs.Always (Proper b) (h ++ [.drew]) := Runs.always_concat.mpr ⟨hproper, trivial⟩
  refine Monitor.wp_bind (Monitor.wp_perform (.inr hproper) fun jitter hjitter => ⟨.inr hdrew, ?_⟩)
  refine Monitor.wp_bind ((pwp_sleepMs hdrew _).mono ?_)
  rintro _ h' hinv (hstop | ⟨hproper', e, rfl, hsleepy, hslept⟩)
  · exact pwp_stopped (fun _ _ => .inl) hstop _
  have hnot : ∀ x : Pace, x ∈ e → x ≠ .drew ∧ x ≠ .connect ∧ x ≠ .diff := by
    intro x hx
    rcases hsleepy x hx with rfl | ⟨ms, rfl⟩ <;> simp
  have hquiet : quiet (h ++ [.drew] ++ e) = quiet h + 1 := by
    rw [quiet_append_of_not_mem (fun hx => (hnot _ hx).2.2 rfl) fun hx => (hnot _ hx).1 rfl,
      quiet_append]
    rfl
  subst hkeeps
  refine Monitor.wp_pure hinv (.inr ⟨hproper', ?_, ?_⟩)
  · rw [Keeps, hquiet, UInt32.ofNat_add]
    rfl
  · refine ⟨h, e, jitter, by simp, fun hx => (hnot _ hx).1 rfl, fun hx => (hnot _ hx).2.1 rfl,
      hjitter.1, hjitter.2, ?_⟩
    rw [hslept]
    rfl

theorem pwp_reconnect (hproper : Runs.Always (Proper b) h) (hkeeps : Keeps b h now)
    (t : MarketDataThread) :
    (paceMonitor b).wp
      (orStopped fun r h' => Runs.Always (Proper b) h' ∧ Keeps b h' r.1 ∧ Rested b h')
      (reconnect rounds now t) h := by
  refine Monitor.wp_bind (pwp_silent (fun _ => rfl) hproper fun _ => ?_)
  refine Monitor.wp_bind ((pwp_pause hproper hkeeps).mono ?_)
  rintro now h' hinv (hstop | hrest)
  · exact pwp_stopped (fun _ _ => .inl) hstop _
  · exact Monitor.wp_pure hinv (.inr hrest)

/-- A connection is lost, and the next one is to be made after a rest. -/
theorem pwp_lost (hproper : Runs.Always (Proper b) h) (hkeeps : Keeps b h now)
    (t : MarketDataThread) :
    (paceMonitor b).wp
      (Monitor.turn (orStopped (Ready b)) (orStopped fun (_ : MarketDataThread) _ => False))
      (reconnect rounds now t >>= fun r => pure (.inl ⟨false, r.1, r.2⟩)) h := by
  refine Monitor.wp_bind ((pwp_reconnect hproper hkeeps t).mono ?_)
  rintro r h' hinv (hstop | ⟨hproper', hkeeps', hrested⟩)
  · exact pwp_stopped turn_stopped hstop _
  · exact Monitor.wp_pure hinv (.inr ⟨hproper', hkeeps', fun _ _ => hrested⟩)

theorem pwp_connectedRound (hproper : Runs.Always (Proper b) h) (hkeeps : Keeps b h now)
    (t : MarketDataThread) :
    (paceMonitor b).wp
      (Monitor.turn (orStopped (Ready b)) (orStopped fun (_ : MarketDataThread) _ => False))
      (connectedRound parser params rounds now t) h := by
  refine Monitor.wp_bind ((pwp_lift (mdwp_attempts hproper _ t)).mono ?_)
  rintro ⟨boot, t⟩ h' - (hstop | ⟨hboot, hgoes⟩)
  · exact pwp_stopped turn_stopped hstop _
  have hproper' := hgoes.always hproper
  have hkeeps' := hkeeps.goes hgoes
  cases boot with
  | kStopped => exact absurd rfl hboot
  | kSnapshotTooOld => exact pwp_lost hproper' hkeeps' t
  | kError => exact pwp_lost hproper' hkeeps' t
  | kLive =>
    refine Monitor.wp_bind ((pwp_lift (mdwp_runLive hproper' t)).mono ?_)
    rintro ⟨gap, t⟩ h'' - (hstop | ⟨d, hlive⟩)
    · exact pwp_stopped turn_stopped hstop _
    have hgoes' := hlive.trans (.running h'')
    have hproper'' := hgoes'.always hproper'
    have hreset : Keeps b (h'' ++ [.running]) now.reset := by
      have hkept := hkeeps'.goes hgoes'
      cases d with
      | true => exact hkept
      | false => exact hkept
    refine pwp_unless (pwp_stopLoad (hlive.always hproper')) turn_stopped ?_
    cases gap with
    | true => exact Monitor.wp_pure (.inr hproper'') (.inr ⟨hproper'', hreset, by rintro ⟨⟩⟩)
    | false => exact pwp_lost hproper'' hreset _

theorem pwp_round {s : Loop} (hready : Ready b s h) :
    (paceMonitor b).wp
      (Monitor.turn (orStopped (Ready b)) (orStopped fun (_ : MarketDataThread) _ => False))
      (round parser params rounds s) h := by
  obtain ⟨hproper, hkeeps, hrested⟩ := hready
  have hrunning := Goes.running h
  have hproper' := hrunning.always hproper
  have hkeeps' := hkeeps.goes hrunning
  refine pwp_unless (pwp_stopLoad hproper) turn_stopped ?_
  cases hconnected : s.connected with
  | true => exact pwp_connectedRound hproper' hkeeps' s.thread
  | false =>
    have hconnect : Runs.Always (Proper b) (h ++ [.running] ++ [.connect]) := by
      refine Runs.always_concat.mpr ⟨hproper', fun hbefore => ?_⟩
      exact (hrested hconnected (by simpa using hbefore)).goes hrunning
    have hkeeps'' : Keeps b (h ++ [.running] ++ [.connect]) s.backoff := by
      have hquiet : quiet (h ++ [.running] ++ [.connect]) = quiet (h ++ [.running]) :=
        quiet_append_of_not_mem (by simp) (by simp)
      rw [Keeps, hquiet]
      exact hkeeps'
    refine Monitor.wp_bind (pwp_lift (Monitor.wp_perform (.inr hproper') fun ok _ =>
      ⟨.inr hconnect, ?_⟩))
    cases ok with
    | true => exact pwp_connectedRound hconnect hkeeps'' s.thread
    | false =>
      refine Monitor.wp_bind ((pwp_pause hconnect hkeeps'').mono ?_)
      rintro now h' hinv (hstop | ⟨hproper'', hkept, hrest⟩)
      · exact pwp_stopped turn_stopped hstop _
      · exact Monitor.wp_pure hinv (.inr ⟨hproper'', hkept, fun _ _ => hrest⟩)

theorem pwp_run (t : MarketDataThread) (initialMs maxMs : Int) (multiplier : ℚ) :
    (paceMonitor (.new initialMs maxMs multiplier)).wp (fun _ _ => True)
      (run parser params rounds (.new initialMs maxMs multiplier) t) [] := by
  have hstart : Ready (.new initialMs maxMs multiplier)
      ⟨false, .new initialMs maxMs multiplier, t⟩ [] := ⟨Runs.always_nil, rfl, by rintro - ⟨⟩⟩
  refine Monitor.wp_bind ((Monitor.wp_loop (Q := orStopped fun _ _ => False)
    (orStopped (Ready _)) ?_ rounds (.inr hstart)).mono ?_)
  · rintro s h (hstop | hready)
    · exact pwp_stopped turn_stopped hstop _
    · exact pwp_round hready
  · rintro t h - (hstop | hfalse)
    · exact pwp_stopped (fun _ _ _ => trivial) hstop _
    · exact hfalse.elim

end Thread

/-! ### How often it connects -/

section Rate
variable {b : Backoff} {h : List Pace}

/-- Each connection but the first costs a delay. -/
theorem connects_cost (hinitial : 0 ≤ b.initialMs) (hmax : 0 ≤ b.maxMs) (hmul : 1 ≤ b.multiplier)
    (h : List Pace) (hproper : Runs.Always (Proper b) h) :
    ((h.count .connect - 1 : Nat) : Int) * b.shortest ≤ sleptIn h := by
  -- A connection leads back to the history before its delay, which need not be the one just before.
  induction hlen : h.length using Nat.strong_induction_on generalizing h with
  | _ n ih =>
  cases h using List.reverseRecOn with
  | nil => exact (Int.zero_mul _).le
  | append_singleton h x =>
    obtain ⟨hfront, hx⟩ := Runs.always_concat.mp hproper
    have hless : h.length < n := by
      rw [← hlen, List.length_append]
      exact Nat.lt_succ_self _
    have hprev := ih _ hless h hfront rfl
    rw [List.count_append, sleptIn_append]
    cases x with
    | slept ms =>
      have hslept : sleptIn [.slept ms] = ms := by simp [sleptIn]
      have hcount : [Pace.slept ms].count .connect = 0 := rfl
      rw [hslept, hcount]
      exact hprev.trans (Int.le_add_of_nonneg_right hx.1.le)
    | connect =>
      have hslept : sleptIn [.connect] = 0 := rfl
      rw [hslept, Int.add_zero, List.count_singleton_self, Nat.add_sub_cancel]
      by_cases hbefore : .connect ∈ h
      · obtain ⟨front, back, jitter, rfl, -, hnone, hlow, -, hrest⟩ := hx hbefore
        have hback : back.count .connect = 0 := List.count_eq_zero.mpr hnone
        have hcount : (front ++ .drew :: back).count .connect = front.count .connect := by
          simp [hback]
        have hpos : 0 < front.count .connect := hcount ▸ List.count_pos_iff.mpr hbefore
        have hcost := ih front.length (by simp at hless; omega) front hfront.of_append rfl
        have hdelay := Backoff.shortest_le hinitial hmax hmul hlow (quiet front % UInt32.size)
        have hsum : sleptIn (front ++ .drew :: back) = sleptIn front + sleptIn back := by
          simp [sleptIn]
        have hsplit : ((front.count .connect : Nat) : Int) =
            ((front.count .connect - 1 : Nat) : Int) + 1 := by omega
        rw [hcount, hsum, hsplit, Int.add_mul, Int.one_mul, hrest]
        omega
      · rw [List.count_eq_zero.mpr hbefore] at hprev ⊢
        exact hprev
    | drew | diff | running | stopped => simpa [sleptIn] using hprev

end Rate

/-- **Reconnections are paced.**  As long as the stop flag has not been found set, whatever the
environment answers: every connection but the first is made after a delay that was drawn and slept
in full since the one before, and no step of sleep is longer than 50 ms or made without a look at
the stop flag.  So unless the backoff is set up to shrink, `n` connections take at least `n - 1`
times the shortest delay. -/
theorem reconnects_are_paced (parser : String → Option Dom) (params : MarketDataParams)
    (rounds : Nat) (initialMs maxMs : Int) (multiplier : ℚ) (t : MarketDataThread)
    (answers : Nat → (c : PacedCall) → c.Answer)
    (hjitter : ∀ i, (4 / 5 : ℚ) ≤ answers i .random ∧ (answers i .random : ℚ) ≤ 6 / 5)
    (calls : Nat) :
    let b := Backoff.new initialMs maxMs multiplier
    let h := ((run parser params rounds b t).exec answers calls).flatMap fun x => pace x.1 x.2
    .stopped ∉ h → Runs.Always (Proper b) h ∧
      (0 ≤ initialMs → 0 ≤ maxMs → 1 ≤ multiplier →
        ((h.count .connect - 1 : Nat) : Int) * b.shortest ≤ sleptIn h) := by
  intro b h hstop
  have hadmits : ∀ i c, (paceMonitor b).admits c (answers i c)
    | i, .random => hjitter i
    | _, .md _ | _, .poll | _, .sleepFor _ => trivial
  have hproper := (Monitor.wp_exec (pwp_run t initialMs maxMs multiplier) answers hadmits
    calls).resolve_left hstop
  exact ⟨hproper, fun hinitial hmax hmul => connects_cost hinitial hmax hmul h hproper⟩

/-- The exchange refuses every connection. -/
def refused : Nat → (c : PacedCall) → c.Answer
  | _, .md .stopLoad | _, .md (.connect _ _) | _, .md (.tryPush _) | _, .poll => false
  | _, .md .read => ⟨.kError, ""⟩
  | _, .md (.get _ _) => none
  | _, .md .nowNs => 0
  | _, .md .close | _, .md .sleepMs | _, .sleepFor _ => ()
  | _, .random => 1

/-- The calls of a run that is refused twice. -/
def refusedCalls : List ((c : PacedCall) × c.Answer) :=
  (run (fun _ => none) ⟨"", "", "", "", ⟨0, 0⟩, 1⟩ 10 (.new 100 1000 2) .new).exec refused 9

theorem reconnects_are_paced_refused :
    let h := refusedCalls.flatMap fun x => pace x.1 x.2
    h.count .connect = 2 ∧ (Backoff.new 100 1000 2).shortest = 80 ∧
      ((h.count .connect - 1 : Nat) : Int) * (Backoff.new 100 1000 2).shortest ≤ sleptIn h := by
  have hjitter : (4 / 5 : ℚ) ≤ 1 ∧ (1 : ℚ) ≤ 6 / 5 := by norm_num
  have hpaced := reconnects_are_paced (fun _ => none) ⟨"", "", "", "", ⟨0, 0⟩, 1⟩ 10 100 1000 2
    .new refused (fun _ => hjitter) 9 (by decide +kernel)
  exact ⟨by decide +kernel, by decide +kernel, hpaced.2 (by decide) (by decide) (by norm_num)⟩

end PacedThread
end Asmm
