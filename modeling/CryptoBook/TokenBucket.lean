import CryptoBook.Amortised
import Mathlib.Algebra.Order.Field.Rat
import Mathlib.Tactic.Linarith
import Mathlib.Tactic.NormNum
import Mathlib.Tactic.Ring

/-! # The token bucket

`engine/token_bucket.cpp`, the limiter in front of outgoing requests, with exact rational
numbers in place of `double`.

A bucket does not tick.  It remembers how many tokens it had when it was last touched, and
works out what has been refilled since.  So a call that takes nothing still writes both
fields.  That is harmless, because settling the refill early or late makes no difference to
what is available later (`available_settle`).  It rests on two properties of every bucket in
use: the level is never above the capacity, and the time 0 marks a bucket that has never been
touched and is full (`Sound`).

How much can be taken in a window of time is bounded by a potential: the level, and what is
going to be refilled up to the end of the window (`level`).  A successful call takes from it
what it grants, a refill that is cut off at the capacity only loses some of it
(`granted_add_level_le`). -/
namespace Asmm
open Runs

structure TokenBucket where
  capacity : ℚ
  refillPerS : ℚ
  tokens : ℚ
  lastNs : Int

namespace TokenBucket

/-- The constructor. -/
def new (capacity refillPerS : ℚ) : TokenBucket := ⟨capacity, refillPerS, capacity, 0⟩

/-- `TokenBucket::available`. -/
def available (b : TokenBucket) (nowNs : Int) : ℚ :=
  let elapsedS : ℚ := if b.lastNs = 0 then 0 else (nowNs - b.lastNs : Int) / 10 ^ 9
  let refilled := b.tokens + max 0 elapsedS * b.refillPerS
  min b.capacity refilled

/-- The literal `1e-9`. -/
def kTolerance : ℚ := 1 / 10 ^ 9

/-- `TokenBucket::TryTake`. -/
def tryTake (b : TokenBucket) (n : ℚ) (nowNs : Int) : Bool × TokenBucket :=
  let b := { b with tokens := b.available nowNs, lastNs := nowNs }
  if b.tokens + kTolerance < n then (false, b)
  else (true, { b with tokens := b.tokens - n })

/-- `std::clamp`. -/
def stdClamp (v lo hi : ℚ) : ℚ := if v < lo then lo else if hi < v then hi else v

/-- `TokenBucket::SetUsed`. -/
def setUsed (b : TokenBucket) (used : ℚ) (nowNs : Int) : TokenBucket :=
  { b with tokens := stdClamp (b.capacity - used) 0 b.capacity, lastNs := nowNs }

/-! ## Calls -/

/-- A call that changes the bucket. -/
inductive Call where
  | tryTake (n : ℚ) (nowNs : Int)
  | setUsed (used : ℚ) (nowNs : Int)

namespace Call

def nowNs : Call → Int
  | tryTake _ nowNs => nowNs
  | setUsed _ nowNs => nowNs

/-- What a call asks for. -/
def asked : Call → ℚ
  | tryTake n _ => n
  | setUsed _ _ => 0

/-- The call is a `TryTake`. -/
def Takes : Call → Prop
  | tryTake _ _ => True
  | setUsed _ _ => False

end Call

/-- The bucket after a call. -/
def step (b : TokenBucket) : Call → TokenBucket
  | .tryTake n nowNs => (b.tryTake n nowNs).2
  | .setUsed used nowNs => b.setUsed used nowNs

/-- What a call returns: nothing if it is `SetUsed`. -/
def answer (b : TokenBucket) : Call → Option Bool
  | .tryTake n nowNs => some (b.tryTake n nowNs).1
  | .setUsed _ _ => none

/-- The tokens a call takes: those it asks for, if it succeeds. -/
def granted (b : TokenBucket) (c : Call) : ℚ := if b.answer c = some true then c.asked else 0

/-- Calls as the gateway makes them: no negative amounts, and the times of a steady clock. -/
structure Steady (calls : List Call) : Prop where
  amounts : ∀ c ∈ calls, 0 ≤ c.asked
  started : ∀ c ∈ calls, 0 < c.nowNs
  ordered : calls.Pairwise fun c c' => c.nowNs ≤ c'.nowNs

/-! ## What every bucket in use satisfies -/

/-- A bucket of the given size, full if it has never been touched. -/
structure Sound (capacity refillPerS : ℚ) (b : TokenBucket) : Prop where
  capacity_eq : b.capacity = capacity
  refill_eq : b.refillPerS = refillPerS
  lower : -kTolerance ≤ b.tokens
  upper : b.tokens ≤ capacity
  /-- The sentinel. -/
  untouched : b.lastNs = 0 → b.tokens = capacity

/-- The call comes after the last one. -/
def Follows (b : TokenBucket) (c : Call) : Prop :=
  0 ≤ c.asked ∧ 0 < c.nowNs ∧ b.lastNs ≤ c.nowNs

theorem kTolerance_pos : 0 < kTolerance := by norm_num [kTolerance]

/-- What a bucket holds when the refill up to `nowNs` has been added. -/
def settle (b : TokenBucket) (nowNs : Int) : TokenBucket :=
  { b with tokens := b.available nowNs, lastNs := nowNs }

theorem tryTake_eq (b : TokenBucket) (n : ℚ) (nowNs : Int) :
    b.tryTake n nowNs =
      if b.available nowNs + kTolerance < n then (false, b.settle nowNs)
      else (true, { b.settle nowNs with tokens := b.available nowNs - n }) := rfl

theorem stdClamp_mem {v lo hi : ℚ} (h : lo ≤ hi) :
    lo ≤ stdClamp v lo hi ∧ stdClamp v lo hi ≤ hi := by
  unfold stdClamp
  split
  · exact ⟨le_rfl, h⟩
  · next hlo =>
    split
    · exact ⟨h, le_rfl⟩
    · next hhi => exact ⟨not_lt.mp hlo, not_lt.mp hhi⟩

section Sound
variable {capacity refillPerS : ℚ} {b : TokenBucket} {c : Call} {nowNs t t' : Int}

theorem sound_new (hcap : 0 ≤ capacity) : Sound capacity refillPerS (new capacity refillPerS) where
  capacity_eq := rfl
  refill_eq := rfl
  lower := (neg_nonpos.mpr kTolerance_pos.le).trans hcap
  upper := le_rfl
  untouched := fun _ => rfl

/-- The tokens refilled between two times. -/
def refill (refillPerS : ℚ) (t t' : Int) : ℚ := (t' - t : Int) / 10 ^ 9 * refillPerS

theorem elapsed_nonneg (h : t ≤ t') : (0 : ℚ) ≤ (t' - t : Int) / 10 ^ 9 := by
  have hle : (0 : ℚ) ≤ (t' - t : Int) := by exact_mod_cast Int.sub_nonneg.mpr h
  exact div_nonneg hle (by norm_num)

theorem refill_nonneg (hrefill : 0 ≤ refillPerS) (h : t ≤ t') : 0 ≤ refill refillPerS t t' :=
  mul_nonneg (elapsed_nonneg h) hrefill

theorem refill_add (refillPerS : ℚ) (t₀ t₁ t₂ : Int) :
    refill refillPerS t₀ t₁ + refill refillPerS t₁ t₂ = refill refillPerS t₀ t₂ := by
  unfold refill
  push_cast
  ring

/-- An untouched bucket is full. -/
theorem Sound.available_untouched (hb : Sound capacity refillPerS b) (h : b.lastNs = 0)
    (nowNs : Int) : b.available nowNs = capacity := by
  simp [available, h, hb.untouched h, hb.capacity_eq]

/-- Any other bucket has been refilled since it was touched. -/
theorem Sound.available_touched (hb : Sound capacity refillPerS b) (h : b.lastNs ≠ 0)
    (hle : b.lastNs ≤ nowNs) :
    b.available nowNs = min capacity (b.tokens + refill refillPerS b.lastNs nowNs) := by
  rw [available, if_neg h, max_eq_right (elapsed_nonneg hle), hb.capacity_eq, hb.refill_eq, refill]

theorem Sound.available_le (hb : Sound capacity refillPerS b) (nowNs : Int) :
    b.available nowNs ≤ capacity := (min_le_left ..).trans hb.capacity_eq.le

theorem Sound.le_available (hb : Sound capacity refillPerS b) (hrefill : 0 ≤ refillPerS)
    (nowNs : Int) : b.tokens ≤ b.available nowNs := by
  refine le_min (hb.upper.trans hb.capacity_eq.ge) ?_
  rw [hb.refill_eq]
  exact le_add_of_nonneg_right (mul_nonneg (le_max_left ..) hrefill)

theorem Sound.settle (hb : Sound capacity refillPerS b) (hrefill : 0 ≤ refillPerS)
    (hstarted : 0 < t) : Sound capacity refillPerS (b.settle t) where
  capacity_eq := hb.capacity_eq
  refill_eq := hb.refill_eq
  lower := hb.lower.trans (hb.le_available hrefill t)
  upper := hb.available_le t
  untouched := fun h => absurd h hstarted.ne'

/-- **Settling is invisible.**  What is available later does not depend on whether the
refill has been added in between. -/
theorem Sound.available_settle (hb : Sound capacity refillPerS b) (hrefill : 0 ≤ refillPerS)
    (hstarted : 0 < t) (hle : b.lastNs ≤ t) (hle' : t ≤ t') :
    (b.settle t).available t' = b.available t' := by
  have hnonneg := refill_nonneg hrefill hle'
  rw [(hb.settle hrefill hstarted).available_touched hstarted.ne' hle']
  by_cases huntouched : b.lastNs = 0
  · rw [show (b.settle t).tokens = capacity from hb.available_untouched huntouched t,
      hb.available_untouched huntouched t']
    exact min_eq_left (le_add_of_nonneg_right hnonneg)
  · rw [show (b.settle t).tokens = _ from hb.available_touched huntouched hle,
      hb.available_touched huntouched (hle.trans hle')]
    -- cutting off at the capacity earlier only matters if it is reached anyway
    calc min capacity
          (min capacity (b.tokens + refill refillPerS b.lastNs t) + refill refillPerS t t')
        = min capacity (min (capacity + refill refillPerS t t')
            (b.tokens + refill refillPerS b.lastNs t + refill refillPerS t t')) := by
          rw [min_add_add_right]
      _ = min capacity (b.tokens + refill refillPerS b.lastNs t + refill refillPerS t t') := by
          rw [← min_assoc, min_eq_left (le_add_of_nonneg_right hnonneg)]
      _ = min capacity (b.tokens + refill refillPerS b.lastNs t') := by
          rw [add_assoc, refill_add]

/-- Only what is available decides about a call and about the bucket after it. -/
theorem step_congr {b b' : TokenBucket} (hcap : b.capacity = b'.capacity)
    (hrefill : b.refillPerS = b'.refillPerS) (h : b.available c.nowNs = b'.available c.nowNs) :
    b.step c = b'.step c ∧ b.answer c = b'.answer c := by
  cases c with
  | tryTake n nowNs =>
    have hsettle : b.settle nowNs = b'.settle nowNs := by
      rw [settle, settle, hcap, hrefill, show b.available nowNs = b'.available nowNs from h]
    have htake : b.tryTake n nowNs = b'.tryTake n nowNs := by
      rw [tryTake_eq, tryTake_eq, hsettle, show b.available nowNs = b'.available nowNs from h]
    refine ⟨congrArg Prod.snd htake, ?_⟩
    rw [answer, answer, htake]
  | setUsed used nowNs =>
    refine ⟨?_, rfl⟩
    rw [step, step, setUsed, setUsed, hcap, hrefill]

/-! ## One call -/

/-- A call leaves the time at which it was made. -/
@[simp] theorem lastNs_step (b : TokenBucket) (c : Call) : (b.step c).lastNs = c.nowNs := by
  cases c with
  | tryTake n nowNs =>
    rw [step, tryTake_eq]
    split <;> rfl
  | setUsed used nowNs => rfl

/-- What a successful call leaves. -/
theorem granted_add_tokens (b : TokenBucket) (n : ℚ) (nowNs : Int) :
    b.granted (.tryTake n nowNs) + (b.step (.tryTake n nowNs)).tokens = b.available nowNs := by
  rw [granted, answer, step, tryTake_eq]
  split
  · rw [if_neg (by simp), zero_add]
    rfl
  · rw [if_pos rfl]
    exact add_sub_cancel n (b.available nowNs)

theorem Sound.step (hcap : 0 ≤ capacity) (hrefill : 0 ≤ refillPerS)
    (hb : Sound capacity refillPerS b) (hc : b.Follows c) :
    Sound capacity refillPerS (b.step c) := by
  obtain ⟨hasked, hstarted, -⟩ := hc
  cases c with
  | tryTake n nowNs =>
    have hsettled := hb.settle hrefill hstarted
    rw [TokenBucket.step, tryTake_eq]
    split
    · exact hsettled
    · next htaken =>
      -- the tolerance is what a call may take beyond the level
      refine ⟨hsettled.capacity_eq, hsettled.refill_eq, ?_, ?_, fun h => absurd h hstarted.ne'⟩
      · show -kTolerance ≤ b.available nowNs - n
        linarith
      · show b.available nowNs - n ≤ capacity
        exact (sub_le_self _ hasked).trans (hb.available_le nowNs)
  | setUsed used nowNs =>
    obtain ⟨hlower, hupper⟩ := stdClamp_mem (v := b.capacity - used) (hcap.trans hb.capacity_eq.ge)
    exact ⟨hb.capacity_eq, hb.refill_eq, (neg_nonpos.mpr kTolerance_pos.le).trans hlower,
      hupper.trans hb.capacity_eq.le, fun h => absurd h hstarted.ne'⟩

/-! ## Runs of calls -/

/-- Steady calls follow each other, and the last call of the bucket. -/
theorem Steady.guarded {calls : List Call} (h : Steady calls)
    (hlast : ∀ c ∈ calls, b.lastNs ≤ c.nowNs) :
    Guarded TokenBucket.step Follows b calls := by
  induction calls generalizing b with
  | nil => trivial
  | cons c calls ih =>
    obtain ⟨hasked, hamounts⟩ := List.forall_mem_cons.mp h.amounts
    obtain ⟨hnow, hstarted⟩ := List.forall_mem_cons.mp h.started
    obtain ⟨hfirst, hordered⟩ := List.pairwise_cons.mp h.ordered
    refine ⟨⟨hasked, hnow, hlast c List.mem_cons_self⟩, ih ⟨hamounts, hstarted, hordered⟩ ?_⟩
    intro c' hc'
    rw [lastNs_step]
    exact hfirst c' hc'

/-- What the bucket holds, with the refill up to `t₁` that is still to come. -/
def level (t₁ : Int) (b : TokenBucket) : ℚ := b.tokens + refill b.refillPerS b.lastNs t₁

/-- A bucket during the calls of a window that ends at `t₁`. -/
structure InWindow (capacity refillPerS : ℚ) (t₁ : Int) (b : TokenBucket) : Prop where
  sound : Sound capacity refillPerS b
  touched : b.lastNs ≠ 0
  before : b.lastNs ≤ t₁

/-- A call of the window. -/
def Inside (t₁ : Int) (b : TokenBucket) (c : Call) : Prop :=
  b.Follows c ∧ c.Takes ∧ c.nowNs ≤ t₁

theorem InWindow.step (hcap : 0 ≤ capacity) (hrefill : 0 ≤ refillPerS) {t₁ : Int}
    (hb : Sound capacity refillPerS b) (hc : b.Inside t₁ c) :
    InWindow capacity refillPerS t₁ (b.step c) := by
  obtain ⟨hfollows, -, hle⟩ := hc
  refine ⟨hb.step hcap hrefill hfollows, ?_, ?_⟩
  · rw [lastNs_step]
    exact hfollows.2.1.ne'
  · rwa [lastNs_step]

/-- A call is paid for by the level. -/
theorem InWindow.granted_add_level_le {t₁ : Int} (hb : InWindow capacity refillPerS t₁ b)
    (hc : b.Inside t₁ c) (hb' : Sound capacity refillPerS (b.step c)) :
    b.granted c + (b.step c).level t₁ ≤ b.level t₁ := by
  obtain ⟨hfollows, htakes, -⟩ := hc
  cases c with
  | setUsed used nowNs => exact htakes.elim
  | tryTake n nowNs =>
    have hsplit := granted_add_tokens b n nowNs
    have havailable : b.available nowNs ≤ b.tokens + refill refillPerS b.lastNs nowNs :=
      (hb.sound.available_touched hb.touched hfollows.2.2).le.trans (min_le_right ..)
    have hadd := refill_add refillPerS b.lastNs nowNs t₁
    rw [level, level, hb.sound.refill_eq, hb'.refill_eq, lastNs_step]
    show _ + (_ + refill refillPerS nowNs t₁) ≤ _
    linarith

theorem InWindow.neg_tolerance_le_level (hrefill : 0 ≤ refillPerS) {t₁ : Int}
    (hb : InWindow capacity refillPerS t₁ b) : -kTolerance ≤ b.level t₁ := by
  rw [level, hb.sound.refill_eq]
  exact hb.sound.lower.trans (le_add_of_nonneg_right (refill_nonneg hrefill hb.before))

/-- Once the bucket has been touched, the calls of the window are paid for by its level. -/
theorem InWindow.total_granted_le (hcap : 0 ≤ capacity) (hrefill : 0 ≤ refillPerS) {t₁ : Int}
    (hb : InWindow capacity refillPerS t₁ b) {calls : List Call}
    (hcalls : Guarded TokenBucket.step (Inside t₁) b calls) :
    total TokenBucket.step granted b calls ≤ b.level t₁ + kTolerance := by
  have hstep : ∀ b c, InWindow capacity refillPerS t₁ b → b.Inside t₁ c →
      InWindow capacity refillPerS t₁ (b.step c) :=
    fun b c hb hc => InWindow.step hcap hrefill hb.sound hc
  have hpaid := hcalls.total_add_le (level t₁) hstep
    (fun b c hb hc => hb.granted_add_level_le hc (hstep b c hb hc).sound) hb
  have hend := (hcalls.invariant hstep hb).neg_tolerance_le_level hrefill
  linarith

/-- **The bound over a window.**  Calls between `t₀` and `t₁` take no more than a full
bucket, the refill of that time and the tolerance. -/
theorem Sound.total_granted_le (hcap : 0 ≤ capacity) (hrefill : 0 ≤ refillPerS)
    (hb : Sound capacity refillPerS b) {window : List Call} {t₀ t₁ : Int}
    (hfollow : Guarded TokenBucket.step Follows b window)
    (hwindow : ∀ c ∈ window, c.Takes ∧ t₀ ≤ c.nowNs ∧ c.nowNs ≤ t₁) (hle : t₀ ≤ t₁) :
    total TokenBucket.step granted b window ≤
      capacity + refill refillPerS t₀ t₁ + kTolerance := by
  have hnonneg := refill_nonneg hrefill hle
  have htolerance := kTolerance_pos
  have hinside : Guarded TokenBucket.step (Inside t₁) b window :=
    hfollow.and_forall fun c hc => ⟨(hwindow c hc).1, (hwindow c hc).2.2⟩
  cases window with
  | nil =>
    rw [total]
    linarith
  | cons c rest =>
    obtain ⟨hc, hrest⟩ := hinside
    obtain ⟨htakes, hafter, -⟩ := hwindow c List.mem_cons_self
    have hb₁ := InWindow.step hcap hrefill hb hc
    have htotal := hb₁.total_granted_le hcap hrefill hrest
    cases c with
    | setUsed used nowNs => exact htakes.elim
    | tryTake n nowNs =>
      -- however long the bucket was left alone before, the first call finds it at most full
      have hfirst := granted_add_tokens b n nowNs
      have hfull := hb.available_le nowNs
      have hadd := refill_add refillPerS t₀ nowNs t₁
      have hskipped : 0 ≤ refill refillPerS t₀ nowNs := refill_nonneg hrefill hafter
      rw [level, hb₁.sound.refill_eq, lastNs_step] at htotal
      change _ ≤ _ + refill refillPerS nowNs t₁ + _ at htotal
      rw [total]
      linarith

/-- **A failed call is invisible.**  It takes nothing, and every later call finds the bucket
as if it had not been made. -/
theorem Sound.failed_invisible (hrefill : 0 ≤ refillPerS) (hb : Sound capacity refillPerS b)
    {n : ℚ} (hfollows : b.Follows (.tryTake n nowNs)) {b' : TokenBucket}
    (hfails : b.tryTake n nowNs = (false, b')) :
    (∀ t, nowNs ≤ t → b'.available t = b.available t) ∧
    ∀ c, nowNs ≤ c.nowNs → b'.step c = b.step c ∧ b'.answer c = b.answer c := by
  obtain ⟨-, hstarted, hlast⟩ := hfollows
  obtain rfl : b.settle nowNs = b' := by
    rw [tryTake_eq] at hfails
    split at hfails
    · exact (Prod.mk.inj hfails).2
    · cases hfails
  have hsame : ∀ t, nowNs ≤ t → (b.settle nowNs).available t = b.available t :=
    fun t hle => hb.available_settle hrefill hstarted hlast hle
  exact ⟨hsame, fun c hle => step_congr rfl rfl (hsame c.nowNs hle)⟩

end Sound

/-- **The token bucket enforces its rate**, on every run of steady calls, in which `SetUsed`
may come in between.

The level stays between the tolerance below zero and the capacity.  Consecutive `TryTake`
calls between two times take at most the capacity, the refill of the time in between and the
tolerance.  A `TryTake` that fails takes nothing, and from then on every call is answered as
if it had not been made. -/
theorem token_bucket_enforces_rate {capacity refillPerS : ℚ} (hcap : 0 ≤ capacity)
    (hrefill : 0 ≤ refillPerS) {calls : List Call} (hsteady : Steady calls) :
    (∀ before after, calls = before ++ after →
      (run step (new capacity refillPerS) before).tokens ∈ Set.Icc (-kTolerance) capacity) ∧
    (∀ before window after (t₀ t₁ : Int), calls = before ++ (window ++ after) →
      (∀ c ∈ window, c.Takes ∧ t₀ ≤ c.nowNs ∧ c.nowNs ≤ t₁) → t₀ ≤ t₁ →
      total step granted (run step (new capacity refillPerS) before) window ≤
        capacity + refillPerS * ((t₁ - t₀ : Int) / 10 ^ 9) + kTolerance) ∧
    ∀ before n nowNs after, calls = before ++ .tryTake n nowNs :: after →
      let b := run step (new capacity refillPerS) before
      ∀ b', b.tryTake n nowNs = (false, b') →
        b.granted (.tryTake n nowNs) = 0 ∧
        (∀ t, nowNs ≤ t → b'.available t = b.available t) ∧
        answers step answer b' after = answers step answer b after ∧
        (after ≠ [] → run step b' after = run step b after) := by
  have hguarded : Guarded step Follows (new capacity refillPerS) calls :=
    hsteady.guarded fun c hc => (hsteady.started c hc).le
  have hsound : ∀ before, Guarded step Follows (new capacity refillPerS) before →
      Sound capacity refillPerS (run step (new capacity refillPerS) before) :=
    fun before hbefore =>
      hbefore.invariant (fun _ _ hb hc => hb.step hcap hrefill hc) (sound_new hcap)
  refine ⟨?_, ?_, ?_⟩
  · rintro before after rfl
    have hb := hsound before ((guarded_append step).mp hguarded).1
    exact ⟨hb.lower, hb.upper⟩
  · rintro before window after t₀ t₁ rfl hwindow hle
    obtain ⟨hbefore, hrest⟩ := (guarded_append step).mp hguarded
    obtain ⟨hfollow, -⟩ := (guarded_append step).mp hrest
    have hbound := (hsound before hbefore).total_granted_le hcap hrefill hfollow hwindow hle
    rwa [refill, mul_comm] at hbound
  · rintro before n nowNs after rfl
    intro b b' hfails
    have htaken : (b.tryTake n nowNs).1 = false := congrArg Prod.fst hfails
    obtain ⟨hbefore, hfollows, -⟩ := (guarded_append step).mp hguarded
    obtain ⟨hsame, hlater⟩ := (hsound before hbefore).failed_invisible hrefill hfollows hfails
    refine ⟨?_, hsame, ?_⟩
    · rw [granted, answer, htaken, if_neg (by simp)]
    cases after with
    | nil => exact ⟨rfl, fun h => absurd rfl h⟩
    | cons c later =>
      have hordered := (List.pairwise_append.mp hsteady.ordered).2.1
      have hle : nowNs ≤ c.nowNs := (List.pairwise_cons.mp hordered).1 c List.mem_cons_self
      obtain ⟨hstep, hanswer⟩ := hlater c hle
      exact ⟨answers_cons_congr hanswer hstep later, fun _ => congrArg (run step · later) hstep⟩

/-- The bound is met: a full bucket of one token is emptied, and a second later it grants
what has been refilled and the tolerance.  A third call fails. -/
theorem token_bucket_tight :
    let calls : List Call :=
      [.tryTake 1 1, .tryTake (1 + kTolerance) 1000000001, .tryTake 1 1000000001]
    Steady calls ∧
    total step granted (new 1 1) calls = 1 + 1 * ((1000000001 - 1 : Int) / 10 ^ 9) + kTolerance ∧
    total step granted (new 1 1) calls ≤
      1 + 1 * ((1000000001 - 1 : Int) / 10 ^ 9) + kTolerance := by
  intro calls
  have hsteady : Steady calls := by
    refine ⟨?_, ?_, ?_⟩
    · simp [calls, Call.asked, kTolerance]
      norm_num
    · simp [calls, Call.nowNs]
    · simp [calls, Call.nowNs]
  refine ⟨hsteady, ?_, ?_⟩
  · norm_num [calls, total, granted, answer, step, tryTake, available, new, kTolerance, Call.asked]
  · have hone : (0 : ℚ) ≤ 1 := zero_le_one
    have hwindow : ∀ c ∈ calls, c.Takes ∧ 1 ≤ c.nowNs ∧ c.nowNs ≤ 1000000001 := by
      simp [calls, Call.Takes, Call.nowNs]
    exact (token_bucket_enforces_rate hone hone hsteady).2.1 [] calls [] 1 1000000001 (by simp)
      hwindow (by decide)

end TokenBucket
end Asmm
