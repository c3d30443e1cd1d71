import CryptoBook.ExactQuotes
import CryptoBook.Smoothing

/-! # When quotes are pulled

`SigmaEwma` keeps four numbers.  They stand for the mids it has kept since the last resync, at
most one a second of event time, and for the returns between consecutive ones, each divided by
the root of the seconds between (`Samples`).  In exact arithmetic its variance is the smoothed
average of the squared returns, with a weight that halves in `sigma_halflife_s` samples
(`Tracks`).

So the guard of `Strategy::OnEvent` can be read off the mids the strategy was given: it pulls
the quotes exactly if there are too few returns or their average is above the threshold.  In
particular a market whose returns all stay within the threshold is never pulled after warm-up,
and a return beyond the threshold over `√(1 - λ)` is pulled at once (`quotes_pulled_iff`). -/
namespace Asmm
open Smoothing

/-! ## What the estimate stands for -/

/-- The mids kept since the last resync, each with its second, and all returns so far. -/
structure Samples where
  kept : List (Int × ℝ)
  returns : List ℝ

namespace Samples

def empty : Samples := ⟨[], []⟩

def lastSecond (x : Samples) : Int := (x.kept.getLast?.map Prod.fst).getD (-1)

/-- The return from one kept mid to the next, per root of a second. -/
noncomputable def returnTo (second : Int) (mid : ℝ) (last : Int × ℝ) : ℝ :=
  Real.log (mid / last.2) / Real.sqrt ((second - last.1 : Int) : ℝ)

/-- A mid that is positive and in a later second is kept, and gives a return if there is one
to compare it with. -/
noncomputable def observe (x : Samples) (tsExchangeMs : Int64) (mid : ℝ) : Samples :=
  let second := tsExchangeMs.toInt.tdiv 1000
  if mid ≤ 0 ∨ second ≤ x.lastSecond then x
  else ⟨x.kept ++ [(second, mid)], x.returns ++ x.kept.getLast?.toList.map (returnTo second mid)⟩

theorem observe_later {x : Samples} {tsExchangeMs : Int64} {mid : ℝ} (hmid : 0 < mid)
    (hlater : x.lastSecond < tsExchangeMs.toInt.tdiv 1000) :
    x.observe tsExchangeMs mid =
      ⟨x.kept ++ [(tsExchangeMs.toInt.tdiv 1000, mid)],
        x.returns ++ x.kept.getLast?.toList.map (returnTo (tsExchangeMs.toInt.tdiv 1000) mid)⟩ :=
  if_neg (not_or.mpr ⟨not_le.mpr hmid, Int.not_le.mpr hlater⟩)

/-- A resync forgets the mids, not the returns. -/
def resync (x : Samples) : Samples := { x with kept := [] }

end Samples

namespace SigmaEwma

/-- The numbers are those of the samples. -/
structure Tracks (halflifeS : ℝ) (minSamples : Int) (x : Samples) (s : SigmaEwma ℝ) : Prop where
  lambda : s.lambda = Real.exp (-Real.log 2 / halflifeS)
  minSamples : s.minSamples = minSamples
  haveLast : s.haveLast = !x.kept.isEmpty
  lastBucket : s.lastBucket = x.lastSecond
  lastMid : ∀ last, x.kept.getLast? = some last → s.lastMid = last.2
  samples : s.samples = x.returns.length
  var : s.var = average s.lambda (x.returns.map (· ^ 2))

variable {halflifeS : ℝ} {minSamples : Int} {x : Samples} {s : SigmaEwma ℝ}

theorem tracks_new (halflifeS : ℝ) (minSamples : Int) :
    Tracks halflifeS minSamples .empty (new halflifeS minSamples) where
  lambda := by simp [new]
  minSamples := rfl
  haveLast := rfl
  lastBucket := rfl
  lastMid := by rintro _ ⟨⟩
  samples := rfl
  var := Int.cast_zero

theorem Tracks.resync (h : Tracks halflifeS minSamples x s) :
    Tracks halflifeS minSamples x.resync s.resetContinuity :=
  ⟨h.lambda, h.minSamples, rfl, rfl, by rintro _ ⟨⟩, h.samples, h.var⟩

theorem Tracks.observe (h : Tracks halflifeS minSamples x s) (tsExchangeMs : Int64) (mid : ℝ) :
    Tracks halflifeS minSamples (x.observe tsExchangeMs mid) (s.observe tsExchangeMs mid).1 := by
  unfold Samples.observe SigmaEwma.observe
  simp only [Double.le_real, Double.ofInt_real, Int.cast_zero, decide_eq_true_eq, h.lastBucket]
  by_cases hmid : mid ≤ 0
  · rw [if_pos hmid, if_pos (Or.inl hmid)]
    exact h
  by_cases hsecond : tsExchangeMs.toInt.tdiv 1000 ≤ x.lastSecond
  · rw [if_neg hmid, if_pos hsecond, if_pos (Or.inr hsecond)]
    exact h
  rw [if_neg hmid, if_neg hsecond, if_neg (not_or.mpr ⟨hmid, hsecond⟩), h.haveLast]
  have hlastSecond : ∀ returns, Samples.lastSecond
      ⟨x.kept ++ [(tsExchangeMs.toInt.tdiv 1000, mid)], returns⟩ =
        tsExchangeMs.toInt.tdiv 1000 := by
    intro returns
    rw [Samples.lastSecond, List.getLast?_concat]
    rfl
  have hkept : (x.kept ++ [(tsExchangeMs.toInt.tdiv 1000, mid)]).isEmpty = false := by
    simp
  have hmids : ∀ last, (x.kept ++ [(tsExchangeMs.toInt.tdiv 1000, mid)]).getLast? = some last →
      mid = last.2 := by
    intro last hlast
    rw [List.getLast?_concat] at hlast
    rw [← Option.some.inj hlast]
  cases hlast : x.kept.getLast? with
  | none =>
    -- the first mid since the resync
    have hnil := List.getLast?_eq_none_iff.mp hlast
    rw [hnil] at hlastSecond hkept hmids ⊢
    refine ⟨h.lambda, h.minSamples, rfl, (hlastSecond _).symm, hmids, ?_, ?_⟩
    · rw [Option.toList_none, List.map_nil, List.append_nil]
      exact h.samples
    · rw [Option.toList_none, List.map_nil, List.append_nil]
      exact h.var
  | some last =>
    have hsome : x.kept.isEmpty = false := by
      cases hx : x.kept with
      | nil => rw [hx] at hlast; cases hlast
      | cons => rfl
    have hbucket : x.lastSecond = last.1 := by rw [Samples.lastSecond, hlast]; rfl
    rw [hsome, if_neg (by decide), Option.toList_some, List.map_singleton]
    refine ⟨h.lambda, h.minSamples, ?_, (hlastSecond _).symm, hmids, ?_, ?_⟩
    · rw [hkept]
    · rw [List.length_append, Nat.cast_add, ← h.samples]
      rfl
    · rw [List.map_append, List.map_singleton, average_concat, smooth, ← h.var, Samples.returnTo,
        ← h.lastMid last hlast, hbucket, pow_two, ← mul_assoc]
      simp

end SigmaEwma

namespace Strategy

/-- What a call does to the samples. -/
noncomputable def sample (x : Samples) : Op → Samples
  | .onEvent book ev => book.midX2.elim x fun midX2 => x.observe ev.tsExchangeMs (midOf midX2)
  | .onExec _ => x
  | .onResync => x.resync

/-- The samples after some calls. -/
noncomputable def samplesOf (ops : List Op) : Samples := ops.foldl sample .empty

variable {halflifeS : ℝ} {minSamples : Int}

theorem tracks_step {x : Samples} {s : Strategy ℝ} (h : s.sigma.Tracks halflifeS minSamples x)
    (op : Op) : (s.step op).sigma.Tracks halflifeS minSamples (sample x op) := by
  cases op with
  | onExec e => exact h
  | onResync => exact h.resync
  | onEvent book ev =>
    show (s.onEvent book ev).1.sigma.Tracks halflifeS minSamples (sample x (.onEvent book ev))
    cases hmid : book.midX2 with
    | none =>
      rw [onEvent, sample, hmid]
      exact h
    | some midX2 =>
      rw [s.onEvent_sigma ev hmid, sample, hmid]
      exact h.observe ev.tsExchangeMs (midOf midX2)

theorem tracks_run (p : StrategyParams ℝ) (liveMode : Bool) (ops : List Op) :
    (Runs.run step (new p liveMode) ops).sigma.Tracks p.sigmaHalflifeS p.sigmaMinSamples
      (samplesOf ops) := by
  induction ops using List.reverseRecOn with
  | nil => exact SigmaEwma.tracks_new ..
  | append_singleton ops op ih =>
    rw [Runs.run_append, samplesOf, List.foldl_append]
    exact tracks_step ih op

/-- The record says whether the guard fired. -/
theorem onEvent_pulled {F : Type} [Double F] (s : Strategy F) {book : L2Book} (ev : MarketEvent)
    {midX2 : Int64} (hmid : book.midX2 = some midX2) :
    (s.onEvent book ev).2.quote.pulled = (s.beforeQuote book ev (midOf midX2)).mustPull := by
  rw [s.onEvent_quote ev hmid]
  split
  · next hpull => exact hpull.symm
  · next hquote => exact (Bool.eq_false_of_not_eq_true hquote).symm

/-- **When quotes are pulled.**  Take any calls on a strategy with a positive half-life, in exact
arithmetic, and an event over a book with a mid.  The record is marked as pulled exactly if
there are fewer returns than asked for, or the root of the average of their squares, where a
return that is `k` samples old counts `(1 - w) w ^ k`, is above the threshold; and `w` halves in
`sigma_halflife_s` samples.  So returns within the threshold never pull the quotes once there
are enough of them, and a return beyond the threshold over `√(1 - w)` pulls them at once. -/
theorem quotes_pulled_iff (p : StrategyParams ℝ) (hhalf : 0 < p.sigmaHalflifeS) (liveMode : Bool)
    (ops : List Op) (book : L2Book) (ev : MarketEvent) (hmid : book.midX2.isSome) :
    let pulled := ((Runs.run step (new p liveMode) ops).onEvent book ev).2.quote.pulled
    let returns := (samplesOf (ops ++ [.onEvent book ev])).returns
    let w := Real.exp (-Real.log 2 / p.sigmaHalflifeS)
    w ^ p.sigmaHalflifeS = 1 / 2 ∧
    (pulled = true ↔ (returns.length : Int) < p.sigmaMinSamples ∨
      p.sigmaSpikeThreshold < Real.sqrt ((1 - w) * (discounted w (returns.map (· ^ 2))).sum)) ∧
    (0 ≤ p.sigmaSpikeThreshold → (∀ r ∈ returns, |r| ≤ p.sigmaSpikeThreshold) →
      p.sigmaMinSamples ≤ returns.length → pulled = false) ∧
    ∀ earlier r, returns = earlier ++ [r] →
      p.sigmaSpikeThreshold < Real.sqrt (1 - w) * |r| → pulled = true := by
  intro pulled returns w
  obtain ⟨midX2, hmid⟩ := Option.isSome_iff_exists.mp hmid
  let s := Runs.run step (new p liveMode) ops
  let s₁ := s.beforeQuote book ev (midOf midX2)
  have htracks : s₁.sigma.Tracks p.sigmaHalflifeS p.sigmaMinSamples
      (samplesOf (ops ++ [.onEvent book ev])) := by
    rw [samplesOf, List.foldl_append]
    show s₁.sigma.Tracks _ _ (sample (samplesOf ops) (.onEvent book ev))
    rw [sample, hmid]
    exact (tracks_run p liveMode ops).observe ev.tsExchangeMs (midOf midX2)
  have hw : 0 < w := Real.exp_pos _
  have hw' : w < 1 := by
    have hlog : 0 < Real.log 2 / p.sigmaHalflifeS := div_pos (Real.log_pos one_lt_two) hhalf
    exact Real.exp_lt_one_iff.mpr (by rw [neg_div]; linarith)
  have hsq : ∀ x ∈ returns.map (· ^ 2), 0 ≤ x := by
    intro x hx
    obtain ⟨r, -, rfl⟩ := List.mem_map.mp hx
    exact sq_nonneg r
  have hpulled : pulled = true ↔ (returns.length : Int) < p.sigmaMinSamples ∨
      p.sigmaSpikeThreshold < Real.sqrt (average w (returns.map (· ^ 2))) := by
    have hp : s₁.p = p := run_p p liveMode ops
    have hguard : pulled = s₁.mustPull := s.onEvent_pulled ev hmid
    rw [hguard, mustPull, SigmaEwma.ready, SigmaEwma.sigmaR, hp, htracks.var, htracks.samples,
      htracks.minSamples, htracks.lambda, Double.sqrt_real, Double.lt_real, Bool.or_eq_true,
      Bool.not_eq_true', decide_eq_false_iff_not, decide_eq_true_iff, Int.not_le]
  refine ⟨?_, ?_, fun hθ hcalm henough => ?_, fun earlier r hreturns hjump => ?_⟩
  · rw [← Real.exp_mul, div_mul_cancel₀ _ hhalf.ne', Real.exp_neg, Real.exp_log two_pos, one_div]
  · rw [hpulled, average_eq_sum]
  · have hbelow : average w (returns.map (· ^ 2)) ≤ p.sigmaSpikeThreshold ^ 2 := by
      refine average_le hw.le hw'.le (sq_nonneg _) fun x hx => ?_
      obtain ⟨r, hr, rfl⟩ := List.mem_map.mp hx
      exact sq_le_sq' (abs_le.mp (hcalm r hr)).1 (abs_le.mp (hcalm r hr)).2
    rw [← Bool.not_eq_true, hpulled, not_or]
    exact ⟨Int.not_lt.mpr henough, not_lt.mpr (Real.sqrt_le_iff.mpr ⟨hθ, hbelow⟩)⟩
  · refine hpulled.mpr (Or.inr (hjump.trans_le ?_))
    rw [← Real.sqrt_sq_eq_abs, ← Real.sqrt_mul (sub_nonneg.mpr hw'.le)]
    refine Real.sqrt_le_sqrt ?_
    rw [hreturns, List.map_append, List.map_singleton] at hsq ⊢
    exact le_average_concat hw.le hw'.le (fun x hx => hsq x (List.mem_append_left _ hx)) _

/-- Parameters that no return passes. -/
noncomputable def jumpyParams : StrategyParams ℝ := { plainParams with sigmaSpikeThreshold := 0 }

/-- The mid doubles from one second to the next. -/
theorem quotes_pulled_iff_doubled :
    ((Runs.run step (new jumpyParams false) [.onEvent narrowBook .zero]).onEvent doubledBook
      secondEvent).2.quote.pulled = true := by
  obtain ⟨-, -, -, hjump⟩ := quotes_pulled_iff jumpyParams one_pos false
    [.onEvent narrowBook .zero] doubledBook secondEvent (by decide)
  have hfirst : sample .empty (.onEvent narrowBook .zero) = ⟨[(0, midOf 202)], []⟩ := by
    rw [sample, show narrowBook.midX2 = some 202 by decide]
    exact Samples.observe_later (by rw [midOf_narrow]; norm_num) (by decide)
  have hsecond : sample ⟨[(0, midOf 202)], []⟩ (.onEvent doubledBook secondEvent) =
      ⟨[(0, midOf 202), (1, midOf 404)], [Samples.returnTo 1 (midOf 404) (0, midOf 202)]⟩ := by
    rw [sample, show doubledBook.midX2 = some 404 by decide]
    exact Samples.observe_later (by rw [midOf_doubled]; norm_num)
      (show (0 : Int) < secondEvent.tsExchangeMs.toInt.tdiv 1000 by decide)
  refine hjump [] (Samples.returnTo 1 (midOf 404) (0, midOf 202)) ?_ ?_
  · rw [samplesOf, List.foldl_append, List.foldl_cons, List.foldl_nil, List.foldl_cons,
      List.foldl_nil, hfirst, hsecond]
    rfl
  · have hreturn : Samples.returnTo 1 (midOf 404) (0, midOf 202) = Real.log 2 := by
      rw [Samples.returnTo, midOf_narrow, midOf_doubled]
      norm_num
    have hw : 0 < Real.sqrt (1 - Real.exp (-Real.log 2 / 1)) := by
      have hlog : 0 < Real.log 2 := Real.log_pos one_lt_two
      exact Real.sqrt_pos.mpr (sub_pos.mpr (Real.exp_lt_one_iff.mpr (by linarith)))
    rw [hreturn]
    exact mul_pos hw (abs_pos.mpr (Real.log_pos one_lt_two).ne')

end Strategy

end Asmm
