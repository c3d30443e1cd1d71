import Mathlib.Analysis.Calculus.Deriv.MeanValue
import Mathlib.Analysis.Convex.SpecificFunctions.Basic
import Mathlib.Analysis.SpecialFunctions.Log.Deriv
import Mathlib.Analysis.SpecialFunctions.Pow.Real
import Mathlib.Analysis.SpecialFunctions.Trigonometric.DerivHyp
import CryptoBook.Strategy

/-! # Quotes in exact arithmetic

What `docs/MODEL.md` says of the quotes is about real numbers.  Here the strategy runs on them:
`ℝ` in place of `double`, and nothing else changed, so the rounding to ticks, the clamps and the
hysteresis are those of the source.

*Skew.*  Clamping is monotone, and a quote without inventory is centred on the mid.  So the
quotes of a long strategy are centred at the mid or below it and those of a short one at the mid
or above it, up to the ticks by which hysteresis holds a price (`quotes_lean_against_inventory`).

*Spread.*  More volatility widens the spread.  More risk aversion widens it if the volatility is
at least `1 / κ` over the horizon, and narrows it if there is none (`spread_response`): the
second term of the formula falls with `γ`. -/
namespace Asmm

/-! ## The logarithm near one -/

theorem log_one_add_le {x : ℝ} (hx : 0 ≤ x) : Real.log (1 + x) ≤ x / (1 + x) + x ^ 2 / 2 := by
  have hpos : 0 < 1 + x := by linarith
  have hsinh : Real.log (1 + x) ≤ (1 + x - (1 + x)⁻¹) / 2 := by
    rw [← Real.sinh_log hpos]
    exact Real.self_le_sinh_iff.mpr (Real.log_nonneg (by linarith))
  have hgap : x / (1 + x) + x ^ 2 / 2 - (1 + x - (1 + x)⁻¹) / 2 = x ^ 3 / (2 * (1 + x)) := by
    field_simp
    ring
  have hnonneg : 0 ≤ x ^ 3 / (2 * (1 + x)) := by positivity
  linarith

theorem strictAntiOn_log_one_add_div :
    StrictAntiOn (fun x => Real.log (1 + x) / x) (Set.Ioi (0 : ℝ)) := by
  intro x hx y hy hxy
  have hx0 : 0 < x := hx
  have hy0 : 0 < y := hy
  have hsecant := strictConcaveOn_log_Ioi.secant_strict_mono (a := 1) (x := 1 + x) (y := 1 + y)
    (Set.mem_Ioi.mpr one_pos) (Set.mem_Ioi.mpr (by positivity)) (Set.mem_Ioi.mpr (by positivity))
    (by linarith) (by linarith) (by linarith)
  simpa only [Real.log_one, sub_zero, add_sub_cancel_left] using hsecant

/-- The slope falls by less than one half. -/
theorem monotoneOn_two_log_div_add :
    MonotoneOn (fun x => 2 * (Real.log (1 + x) / x) + x) (Set.Ioi (0 : ℝ)) := by
  have hderiv : ∀ x ∈ Set.Ioi (0 : ℝ), HasDerivAt (fun x => 2 * (Real.log (1 + x) / x) + x)
      (2 * (x / (1 + x) + x ^ 2 / 2 - Real.log (1 + x)) / x ^ 2) x := by
    intro x hx
    have hx0 : 0 < x := hx
    have hlog : HasDerivAt (fun x => Real.log (1 + x)) (1 / (1 + x)) x :=
      ((hasDerivAt_id x).const_add 1).log (by positivity)
    have hall := ((hlog.div (hasDerivAt_id x) hx0.ne').const_mul 2).add (hasDerivAt_id x)
    have hvalue : 2 * (x / (1 + x) + x ^ 2 / 2 - Real.log (1 + x)) / x ^ 2 =
        2 * ((1 / (1 + x) * x - Real.log (1 + x) * 1) / x ^ 2) + 1 := by
      field_simp
      ring
    rw [hvalue]
    exact hall
  refine monotoneOn_of_deriv_nonneg (convex_Ioi 0)
    (fun x hx => (hderiv x hx).continuousAt.continuousWithinAt) ?_ ?_
  · rw [interior_Ioi]
    exact fun x hx => (hderiv x hx).differentiableAt.differentiableWithinAt
  · rw [interior_Ioi]
    intro x hx
    rw [(hderiv x hx).deriv]
    have hbound := sub_nonneg.mpr (log_one_add_le (le_of_lt hx))
    positivity

/-! ## The formula -/

/-- Real numbers in place of `double`. -/
noncomputable instance : Double ℝ where
  ofInt := fun n => n
  toInt := fun x => if 0 ≤ x then ⌊x⌋ else ⌈x⌉
  floor := fun x => ⌊x⌋
  ceil := fun x => ⌈x⌉
  sqrt := Real.sqrt
  log := Real.log
  exp := Real.exp
  pow := fun x y => x ^ y
  lt := fun x y => decide (x < y)
  le := fun x y => decide (x ≤ y)

section
variable (x y : ℝ)

@[simp] theorem Double.ofInt_real (n : Int) : (Double.ofInt n : ℝ) = n := rfl

@[simp] theorem Double.floor_real : Double.floor x = (⌊x⌋ : ℝ) := rfl

@[simp] theorem Double.ceil_real : Double.ceil x = (⌈x⌉ : ℝ) := rfl

@[simp] theorem Double.sqrt_real : Double.sqrt x = Real.sqrt x := rfl

@[simp] theorem Double.log_real : Double.log x = Real.log x := rfl

@[simp] theorem Double.exp_real : Double.exp x = Real.exp x := rfl

@[simp] theorem Double.pow_real : Double.pow x y = x ^ y := rfl

@[simp] theorem Double.lt_real : Double.lt x y = decide (x < y) := rfl

@[simp] theorem Double.le_real : Double.le x y = decide (x ≤ y) := rfl

end

theorem toInt_intCast (n : Int) : Double.toInt (n : ℝ) = n := by
  show (if 0 ≤ (n : ℝ) then ⌊(n : ℝ)⌋ else ⌈(n : ℝ)⌉) = n
  rw [Int.floor_intCast, Int.ceil_intCast, ite_self]

/-- Rounding away from the middle keeps the sides apart. -/
theorem floor_lt_ceil (r : ℝ) {half : ℝ} (hhalf : 0 < half) : ⌊r - half⌋ < ⌈r + half⌉ := by
  have hfloor := Int.floor_le (r - half)
  have hceil := Int.le_ceil (r + half)
  have hcast : ((⌊r - half⌋ : Int) : ℝ) < (⌈r + half⌉ : Int) := by linarith
  exact Int.cast_lt.mp hcast

/-- Rounding away from a middle that is a whole number of half ticks. -/
theorem floor_add_ceil (m : Int) (x : ℝ) : ⌊(m : ℝ) / 2 - x⌋ + ⌈(m : ℝ) / 2 + x⌉ = m := by
  have hmirror : (m : ℝ) / 2 - x = m - ((m : ℝ) / 2 + x) := by ring
  rw [hmirror, sub_eq_add_neg, Int.floor_intCast_add, Int.floor_neg, Int.neg_add_cancel_right]

/-- `r` of the model: the reservation price. -/
noncomputable def reservation (s q σ γ τ : ℝ) : ℝ := s - q * γ * (σ * σ * τ)

/-- `δ_total` of the model: the optimal spread. -/
noncomputable def totalSpread (σ γ κ τ : ℝ) : ℝ :=
  γ * (σ * σ * τ) + 2 / γ * Real.log (1 + γ / κ)

section
variable {σ γ κ τ : ℝ}

/-- What is left of the spread without volatility. -/
theorem log_term_pos (hγ : 0 < γ) (hκ : 0 < κ) : 0 < 2 / γ * Real.log (1 + γ / κ) := by
  have hratio : 0 < γ / κ := div_pos hγ hκ
  exact mul_pos (by positivity) (Real.log_pos (by linarith))

theorem log_term_le_totalSpread (hγ : 0 < γ) (hτ : 0 ≤ τ) :
    2 / γ * Real.log (1 + γ / κ) ≤ totalSpread σ γ κ τ :=
  le_add_of_nonneg_left (mul_nonneg hγ.le (mul_nonneg (mul_self_nonneg σ) hτ))

/-- `ComputeQuote` is the formula, rounded away from the reservation price and clamped. -/
theorem computeQuote_exact (s q : ℝ) (bb ba : Int) (hspread : 0 < totalSpread σ γ κ τ) :
    let qt := computeQuote s q σ γ κ τ bb ba
    let r := reservation s q σ γ τ
    let half := totalSpread σ γ κ τ / 2
    qt.reservation = r ∧ qt.deltaTotal = totalSpread σ γ κ τ ∧
      (qt.bidPx, qt.askPx) = clamp ⌊r - half⌋ ⌈r + half⌉ bb ba := by
  intro qt r half
  have hdelta : qt.deltaTotal = totalSpread σ γ κ τ := by
    show γ * (σ * σ * τ) + ((2 : Int) : ℝ) / γ * Real.log (((1 : Int) : ℝ) + γ / κ) = _
    rw [Int.cast_ofNat, Int.cast_one]
    rfl
  refine ⟨rfl, hdelta, ?_⟩
  have hbid : Double.toInt (Double.floor (r - qt.deltaTotal / Double.ofInt 2)) = ⌊r - half⌋ := by
    rw [hdelta, Double.floor_real, toInt_intCast, Double.ofInt_real, Int.cast_ofNat]
  have hask : Double.toInt (Double.ceil (r + qt.deltaTotal / Double.ofInt 2)) = ⌈r + half⌉ := by
    rw [hdelta, Double.ceil_real, toInt_intCast, Double.ofInt_real, Int.cast_ofNat]
  have huncrossed : ¬ ⌊r - half⌋ ≥ ⌈r + half⌉ :=
    Int.not_le.mpr (floor_lt_ceil r (half_pos hspread))
  show clamp (Double.toInt (Double.floor (r - qt.deltaTotal / Double.ofInt 2)))
    (if Double.toInt (Double.floor (r - qt.deltaTotal / Double.ofInt 2)) ≥
        Double.toInt (Double.ceil (r + qt.deltaTotal / Double.ofInt 2)) then
      Double.toInt (Double.floor (r - qt.deltaTotal / Double.ofInt 2)) + 1
    else Double.toInt (Double.ceil (r + qt.deltaTotal / Double.ofInt 2))) bb ba = _
  rw [hbid, hask, if_neg huncrossed]

end

/-! ## Clamping -/

theorem clamp_mono {bid ask bid' ask' : Int} (hbid : bid ≤ bid') (hask : ask ≤ ask')
    (bb ba : Int) :
    (clamp bid ask bb ba).1 ≤ (clamp bid' ask' bb ba).1 ∧
      (clamp bid ask bb ba).2 ≤ (clamp bid' ask' bb ba).2 := by
  have hask₁ : ∀ a, a = (if bb > 0 ∧ ask ≤ bb then bb + 1 else ask) →
      a ≤ (if bb > 0 ∧ ask' ≤ bb then bb + 1 else ask') := by
    rintro _ rfl
    split <;> split <;> omega
  have hbid₁ : ∀ b, b = (if ba > 0 ∧ bid ≥ ba then ba - 1 else bid) →
      b ≤ (if ba > 0 ∧ bid' ≥ ba then ba - 1 else bid') := by
    rintro _ rfl
    split <;> split <;> omega
  simp only [clamp]
  have ha := hask₁ _ rfl
  have hb := hbid₁ _ rfl
  refine ⟨?_, ha⟩
  split <;> split <;> omega

/-- Clamping never narrows a quote. -/
theorem clamp_widens (bid ask bb ba : Int) :
    (clamp bid ask bb ba).1 ≤ bid ∧ ask ≤ (clamp bid ask bb ba).2 := by
  simp only [clamp]
  refine ⟨?_, by split <;> omega⟩
  have hfirst : (if ba > 0 ∧ bid ≥ ba then ba - 1 else bid) ≤ bid := by split <;> omega
  split <;> omega

/-- A quote centred on the mid stays so: either both sides are inside the book or neither is. -/
theorem clamp_centred {bid ask bb ba : Int} (huncrossed : bid < ask) (hbb : 0 < bb) (hba : 0 < ba)
    (hcentre : bid + ask = bb + ba) :
    (clamp bid ask bb ba).1 + (clamp bid ask bb ba).2 = bb + ba := by
  simp only [clamp]
  by_cases hreach : bid ≥ ba
  · have hbid : (if ba > 0 ∧ bid ≥ ba then ba - 1 else bid) = ba - 1 := if_pos ⟨hba, hreach⟩
    have hask : (if bb > 0 ∧ ask ≤ bb then bb + 1 else ask) = bb + 1 := if_pos (by omega)
    rw [hbid, hask]
    split <;> omega
  · have hbid : (if ba > 0 ∧ bid ≥ ba then ba - 1 else bid) = bid := if_neg (by omega)
    have hask : (if bb > 0 ∧ ask ≤ bb then bb + 1 else ask) = ask := if_neg (by omega)
    rw [hbid, hask]
    split <;> omega

/-! ## Skew -/

section
variable {σ γ κ τ : ℝ}

/-- **More inventory lowers both sides**, through rounding and clamping. -/
theorem computeQuote_antitone (hspread : 0 < totalSpread σ γ κ τ) (hγ : 0 ≤ γ) (hτ : 0 ≤ τ)
    (s : ℝ) {q q' : ℝ} (hq : q ≤ q') (bb ba : Int) :
    (computeQuote s q' σ γ κ τ bb ba).bidPx ≤ (computeQuote s q σ γ κ τ bb ba).bidPx ∧
      (computeQuote s q' σ γ κ τ bb ba).askPx ≤ (computeQuote s q σ γ κ τ bb ba).askPx := by
  obtain ⟨-, -, hlow⟩ := computeQuote_exact s q' bb ba hspread
  obtain ⟨-, -, hhigh⟩ := computeQuote_exact s q bb ba hspread
  have hr : reservation s q' σ γ τ ≤ reservation s q σ γ τ := by
    have hrisk : 0 ≤ γ * (σ * σ * τ) := mul_nonneg hγ (mul_nonneg (mul_self_nonneg σ) hτ)
    unfold reservation
    nlinarith
  have hmono := clamp_mono (Int.floor_mono (sub_le_sub_right hr (totalSpread σ γ κ τ / 2)))
    (Int.ceil_mono (add_le_add_left hr (totalSpread σ γ κ τ / 2))) bb ba
  rwa [← hlow, ← hhigh] at hmono

/-- Without inventory the quote is centred on the mid. -/
theorem computeQuote_centred (hspread : 0 < totalSpread σ γ κ τ) {bb ba : Int} (hbb : 0 < bb)
    (hba : 0 < ba) :
    let qt := computeQuote (((bb + ba : Int) : ℝ) / 2) 0 σ γ κ τ bb ba
    qt.bidPx + qt.askPx = bb + ba := by
  intro qt
  obtain ⟨-, -, hclamp⟩ := computeQuote_exact (((bb + ba : Int) : ℝ) / 2) 0 bb ba hspread
  have hr : reservation (((bb + ba : Int) : ℝ) / 2) 0 σ γ τ = ((bb + ba : Int) : ℝ) / 2 := by
    rw [reservation, zero_mul, zero_mul, sub_zero]
  rw [hr] at hclamp
  have hcentre := floor_add_ceil (bb + ba) (totalSpread σ γ κ τ / 2)
  have hsum := clamp_centred (floor_lt_ceil _ (half_pos hspread)) hbb hba hcentre
  rwa [← hclamp] at hsum

/-- The quote is at least as wide as the formula asks. -/
theorem computeQuote_width (hspread : 0 < totalSpread σ γ κ τ) (s q : ℝ) (bb ba : Int) :
    let qt := computeQuote s q σ γ κ τ bb ba
    totalSpread σ γ κ τ ≤ ((qt.askPx - qt.bidPx : Int) : ℝ) := by
  intro qt
  obtain ⟨-, -, hclamp⟩ := computeQuote_exact s q bb ba hspread
  let r := reservation s q σ γ τ
  let half := totalSpread σ γ κ τ / 2
  obtain ⟨hbid, hask⟩ := clamp_widens ⌊r - half⌋ ⌈r + half⌉ bb ba
  rw [← hclamp] at hbid hask
  have hfloor := Int.floor_le (r - half)
  have hceil := Int.le_ceil (r + half)
  have hbid' : (qt.bidPx : ℝ) ≤ ⌊r - half⌋ := Int.cast_le.mpr hbid
  have hask' : (⌈r + half⌉ : ℝ) ≤ qt.askPx := Int.cast_le.mpr hask
  have hhalf : half + half = totalSpread σ γ κ τ := add_halves _
  rw [Int.cast_sub]
  linarith

end

namespace SigmaEwma
variable {s : SigmaEwma ℝ} {tsExchangeMs : Int64} {midTicks : ℝ}

/-- The first mid gives no return. -/
theorem observe_first (hmid : 0 < midTicks) (hlater : s.lastBucket < tsExchangeMs.toInt.tdiv 1000)
    (hfirst : s.haveLast = false) :
    (s.observe tsExchangeMs midTicks).1 =
      { s with
        haveLast := true, lastBucket := tsExchangeMs.toInt.tdiv 1000, lastMid := midTicks } := by
  rw [observe, Double.le_real, Double.ofInt_real, Int.cast_zero,
    if_neg (by simpa using hmid), if_neg (Int.not_le.mpr hlater), hfirst]
  rfl

/-- A later one does. -/
theorem observe_next (hmid : 0 < midTicks) (hlater : s.lastBucket < tsExchangeMs.toInt.tdiv 1000)
    (hlast : s.haveLast = true) :
    let s' := (s.observe tsExchangeMs midTicks).1
    let ret1s := Real.log (midTicks / s.lastMid) /
      Real.sqrt ((tsExchangeMs.toInt.tdiv 1000 - s.lastBucket : Int) : ℝ)
    s'.var = s.lambda * s.var + (1 - s.lambda) * ret1s * ret1s ∧
      s'.samples = s.samples + 1 ∧ s'.minSamples = s.minSamples := by
  rw [observe, Double.le_real, Double.ofInt_real, Int.cast_zero,
    if_neg (by simpa using hmid), if_neg (Int.not_le.mpr hlater), hlast]
  refine ⟨?_, rfl, rfl⟩
  show _ + (((1 : Int) : ℝ) - _) * _ * _ = _
  rw [Int.cast_one]
  rfl

end SigmaEwma

namespace Strategy

section
variable {F : Type} [Double F]

theorem step_p (s : Strategy F) (op : Op) : (s.step op).p = s.p := by
  cases op with
  | onEvent book ev =>
    show (s.onEvent book ev).1.p = s.p
    cases hmid : book.midX2 with
    | none => rw [onEvent, hmid]; rfl
    | some midX2 =>
      rw [s.onEvent_of_mid ev hmid]
      split <;> rfl
  | onExec | onResync => rfl

theorem run_p (p : StrategyParams F) (liveMode : Bool) (ops : List Op) :
    (Runs.run step (new p liveMode) ops).p = p :=
  Runs.run_invariant (I := fun s => s.p = p) (fun s op h => (step_p s op).trans h) rfl ops

/-- `OnEvent` shows the mid to the estimate, whatever it does then. -/
theorem onEvent_sigma (s : Strategy F) {book : L2Book} (ev : MarketEvent) {midX2 : Int64}
    (hmid : book.midX2 = some midX2) :
    (s.onEvent book ev).1.sigma = (s.sigma.observe ev.tsExchangeMs (midOf midX2)).1 := by
  rw [s.onEvent_of_mid ev hmid]
  split <;> rfl

/-- The record that `OnEvent` makes on a book with a mid. -/
theorem onEvent_quote (s : Strategy F) {book : L2Book} (ev : MarketEvent) {midX2 : Int64}
    (hmid : book.midX2 = some midX2) :
    let s₁ := s.beforeQuote book ev (midOf midX2)
    (s.onEvent book ev).2.quote =
      if s₁.mustPull then makeQuote ev.finalUpdateId midX2 s₁.paper.qLots
        (s₁.sigmaPOf (midOf midX2)) 0 0 0 0 false false true
      else (s₁.requote ev midX2 (midOf midX2) (s₁.sigmaPOf (midOf midX2))
        (pxOrZero book.bestBid) (pxOrZero book.bestAsk)).2 := by
  intro s₁
  rw [onEvent, hmid]
  exact apply_ite (fun r : Strategy F × StrategyOutput => r.2.quote) _ _ _

/-- A side is quoted below its limit if the order is large enough. -/
theorem requote_qty (s : Strategy F) (ev : MarketEvent) (midX2 : Int64) (mid sigmaP : F)
    (bb ba : Int) :
    let r := s.requote ev midX2 mid sigmaP bb ba
    r.2.bidQty = (if !decide (s.paper.qLots ≥ s.p.qMaxLots) &&
      s.minNotionalOk r.1.workingBid s.p.quoteSizeLots then s.p.quoteSizeLots else 0) ∧
    r.2.askQty = (if !decide (s.paper.qLots ≤ -s.p.qMaxLots) &&
      s.minNotionalOk r.1.workingAsk s.p.quoteSizeLots then s.p.quoteSizeLots else 0) :=
  ⟨rfl, rfl⟩

/-- A side that is quoted shows the price it works. -/
theorem requote_working (s : Strategy F) (ev : MarketEvent) (midX2 : Int64) (mid sigmaP : F)
    (bb ba : Int) :
    let r := s.requote ev midX2 mid sigmaP bb ba
    (r.2.bidQty ≠ 0 → r.2.bidPx = r.1.workingBid) ∧
      (r.2.askQty ≠ 0 → r.2.askPx = r.1.workingAsk) := by
  intro r
  constructor
  · intro hqty
    by_cases hactive : r.1.paper.bid.active = true
    · exact if_pos hactive
    · exact absurd (if_neg hactive) hqty
  · intro hqty
    by_cases hactive : r.1.paper.ask.active = true
    · exact if_pos hactive
    · exact absurd (if_neg hactive) hqty

end

/-- The prices of a computed quote in exact arithmetic. -/
theorem computedQuote_skew {s : Strategy ℝ} (hγ : 0 < s.p.gamma) (hκ : 0 < s.p.kappa)
    (hτ : 0 ≤ s.p.tauDays) {bb ba : Int} (hbb : 0 < bb) (hba : 0 < ba) (sigmaP : ℝ) :
    let qt := s.computedQuote (((bb + ba : Int) : ℝ) / 2) sigmaP bb ba
    (0 ≤ s.paper.qLots → qt.bidPx + qt.askPx ≤ bb + ba) ∧
    (s.paper.qLots ≤ 0 → bb + ba ≤ qt.bidPx + qt.askPx) ∧
    2 / s.p.gamma * Real.log (1 + s.p.gamma / s.p.kappa) ≤ ((qt.askPx - qt.bidPx : Int) : ℝ) := by
  intro qt
  have hterm := log_term_le_totalSpread (σ := sigmaP) (κ := s.p.kappa) hγ hτ
  have hspread := (log_term_pos hγ hκ).trans_le hterm
  have hunit : 0 < (10 : ℝ) ^ (s.p.qtyScale : ℝ) := Real.rpow_pos_of_pos (by norm_num) _
  let qBase : ℝ := s.paper.qLots / (10 : ℝ) ^ (s.p.qtyScale : ℝ)
  have hqt : qt = computeQuote (((bb + ba : Int) : ℝ) / 2) qBase sigmaP s.p.gamma s.p.kappa
      s.p.tauDays bb ba := by
    show computeQuote _ (s.paper.qLots / ((10 : Int) : ℝ) ^ (s.p.qtyScale : ℝ)) _ _ _ _ _ _ = _
    rw [Int.cast_ofNat]
  have hcentred := computeQuote_centred hspread hbb hba
  refine ⟨fun hlong => ?_, fun hshort => ?_, ?_⟩
  · have hq : 0 ≤ qBase := div_nonneg (Int.cast_nonneg hlong) hunit.le
    have hanti := computeQuote_antitone hspread hγ.le hτ (((bb + ba : Int) : ℝ) / 2) hq bb ba
    rw [hqt]
    omega
  · have hq : qBase ≤ 0 := div_nonpos_of_nonpos_of_nonneg (Int.cast_nonpos.mpr hshort) hunit.le
    have hanti := computeQuote_antitone hspread hγ.le hτ (((bb + ba : Int) : ℝ) / 2) hq bb ba
    rw [hqt]
    omega
  · rw [hqt]
    exact hterm.trans (computeQuote_width hspread _ _ bb ba)

/-- Both best prices are positive, and their sum does not overflow. -/
def Priced (book : L2Book) : Prop :=
  ∀ bid ask, book.bestBid = some bid → book.bestAsk = some ask →
    0 < bid.pxTicks.toInt ∧ 0 < ask.pxTicks.toInt ∧
      bid.pxTicks.toInt + ask.pxTicks.toInt ≤ Int64.maxValue.toInt

theorem Priced.midX2 {book : L2Book} (h : Priced book) {midX2 : Int64}
    (hmid : book.midX2 = some midX2) :
    0 < pxOrZero book.bestBid ∧ 0 < pxOrZero book.bestAsk ∧
      midX2.toInt = pxOrZero book.bestBid + pxOrZero book.bestAsk := by
  rw [L2Book.midX2] at hmid
  cases hbid : book.bestBid with
  | none => rw [hbid] at hmid; cases hmid
  | some bid =>
    cases hask : book.bestAsk with
    | none => rw [hbid, hask] at hmid; cases hmid
    | some ask =>
      obtain ⟨hbb, hba, hsum⟩ := h bid ask hbid hask
      rw [hbid, hask] at hmid
      obtain rfl := Option.some.inj hmid
      refine ⟨hbb, hba, ?_⟩
      rw [Int64.toInt_add]
      have hmax : Int64.maxValue.toInt = 9223372036854775807 := by decide
      exact Int.bmod_eq_of_le (by omega) (by omega)

/-- **Quotes lean against the inventory.**  Take any calls on a strategy with `γ, κ > 0` and
`τ ≥ 0`, in exact arithmetic, and a record that shows both sides of a book whose best prices are
positive, with a sum that does not overflow.  With inventory that is not negative its centre is
not above the mid, with inventory that is not positive it is not below, and it is at least as
wide as the formula asks without volatility; each up to the ticks that hysteresis may hold
either side. -/
theorem quotes_lean_against_inventory (p : StrategyParams ℝ) (hγ : 0 < p.gamma)
    (hκ : 0 < p.kappa) (hτ : 0 ≤ p.tauDays) (liveMode : Bool) (ops : List Op) (book : L2Book)
    (ev : MarketEvent) (hbook : Priced book) :
    let q := ((Runs.run step (new p liveMode) ops).onEvent book ev).2.quote
    let slack := 2 * (max p.hysteresisTicks 1 - 1)
    q.bidQty ≠ 0 → q.askQty ≠ 0 →
      (0 ≤ q.inventoryLots → q.bidPx + q.askPx ≤ q.midX2 + slack) ∧
      (q.inventoryLots ≤ 0 → q.midX2 ≤ q.bidPx + q.askPx + slack) ∧
      2 / p.gamma * Real.log (1 + p.gamma / p.kappa) ≤ ((q.askPx - q.bidPx + slack : Int) : ℝ) := by
  intro q slack hbidQty haskQty
  let s := Runs.run step (new p liveMode) ops
  cases hmid : book.midX2 with
  | none =>
    have hzero : q = QuoteRecord.zero := by
      show (s.onEvent book ev).2.quote = _
      rw [onEvent, hmid]
    exact absurd (congrArg QuoteRecord.bidQty hzero) hbidQty
  | some midX2 =>
    obtain ⟨hbb, hba, hsum⟩ := hbook.midX2 hmid
    let s₁ := s.beforeQuote book ev (midOf midX2)
    have hp : s₁.p = p := run_p p liveMode ops
    have hq : q = _ := s.onEvent_quote ev hmid
    by_cases hpull : s₁.mustPull = true
    · rw [if_pos hpull] at hq
      exact absurd (congrArg QuoteRecord.bidQty hq) hbidQty
    · rw [if_neg hpull] at hq
      have hmidOf : (midOf midX2 : ℝ) =
          ((pxOrZero book.bestBid + pxOrZero book.bestAsk : Int) : ℝ) / 2 := by
        rw [← hsum]
        show (midX2.toInt : ℝ) / ((2 : Int) : ℝ) = _
        rw [Int.cast_ofNat]
      obtain ⟨hnearBid, hnearAsk⟩ := s₁.requote_near ev midX2 (midOf midX2)
        (s₁.sigmaPOf (midOf midX2)) (pxOrZero book.bestBid) (pxOrZero book.bestAsk)
      obtain ⟨hbidPx, haskPx⟩ := s₁.requote_working ev midX2 (midOf midX2)
        (s₁.sigmaPOf (midOf midX2)) (pxOrZero book.bestBid) (pxOrZero book.bestAsk)
      rw [← hq] at hbidPx haskPx
      have hinv : q.inventoryLots = s₁.paper.qLots := congrArg QuoteRecord.inventoryLots hq
      have hmidX2 : q.midX2 = midX2.toInt := congrArg QuoteRecord.midX2 hq
      obtain ⟨hlong, hshort, hwide⟩ := computedQuote_skew (s := s₁) (hp ▸ hγ) (hp ▸ hκ) (hp ▸ hτ)
        hbb hba (s₁.sigmaPOf (midOf midX2))
      rw [← hmidOf] at hlong hshort hwide
      rw [← hbidPx hbidQty, near_iff, hp] at hnearBid
      rw [← haskPx haskQty, near_iff, hp] at hnearAsk
      rw [hp] at hwide
      rw [hinv, hmidX2, hsum]
      refine ⟨fun h => ?_, fun h => ?_, hwide.trans (Int.cast_le.mpr ?_)⟩
      · have := hlong h
        omega
      · have := hshort h
        omega
      · omega

/-- Parameters with no hysteresis and no warm-up, and nothing to pay. -/
noncomputable def plainParams : StrategyParams ℝ := ⟨1, 1, 1, 1, 0, 1, 0, 100, 10, 0, 0, 2, 5⟩

/-- The same in whole units, over a horizon that makes the variance one when the mid doubles
from 101 in a second. -/
noncomputable def leanParams : StrategyParams ℝ :=
  { plainParams with tauDays := 2 / (86400 * (202 * Real.log 2) ^ 2), qtyScale := 0 }

/-- A book with one level a side, 200 and 204. -/
def doubledBook : L2Book := ((L2Book.empty.apply .kBid 200 1).1.apply .kAsk 204 1).1

/-- One second later. -/
def secondEvent : MarketEvent := { MarketEvent.zero with tsExchangeMs := 1000 }

/-- A report that two lots were bought. -/
def boughtTwo : ExecEvent := ⟨1, 1, 7, 100, 2, 2, 0, 0, 0, .kPartial, .kBid, .kQuote, 0⟩

/-- The narrow book, then the report. -/
def boughtBefore : List Op := [.onEvent narrowBook .zero, .onExec boughtTwo]

theorem midOf_narrow : (midOf 202 : ℝ) = 101 := by
  show ((202 : Int) : ℝ) / ((2 : Int) : ℝ) = 101
  norm_num

theorem midOf_doubled : (midOf 404 : ℝ) = 202 := by
  show ((404 : Int) : ℝ) / ((2 : Int) : ℝ) = 202
  norm_num

theorem half_lt_log_two : 1 / 2 < Real.log 2 := by
  have hinv := Real.log_lt_sub_one_of_pos (x := 2⁻¹) (by norm_num) (by norm_num)
  rw [Real.log_inv] at hinv
  linarith

theorem log_two_lt_one : Real.log 2 < 1 := by
  have hlog := Real.log_lt_sub_one_of_pos two_pos (by norm_num)
  linarith

/-- The strategy that has seen the narrow book and bought two lots. -/
noncomputable def longStrategy : Strategy ℝ := Runs.run step (new leanParams true) boughtBefore

/-- The same at the time it quotes the doubled book. -/
noncomputable def longBefore : Strategy ℝ :=
  longStrategy.beforeQuote doubledBook secondEvent (midOf 404)

theorem longBefore_p : longBefore.p = leanParams := run_p leanParams true boughtBefore

theorem longBefore_qLots : longBefore.paper.qLots = 2 := by
  have hmid : narrowBook.midX2 = some 202 := by decide
  have hflat : ((new leanParams true).onEvent narrowBook .zero).1.paper.qLots = 0 := by
    rw [onEvent_of_mid _ _ hmid]
    split <;> rfl
  have hlive : longStrategy.liveMode = true := by
    show ((new leanParams true).onEvent narrowBook .zero).1.liveMode = true
    rw [onEvent_of_mid _ _ hmid]
    split <;> rfl
  show (if longStrategy.liveMode then (longStrategy.paper, [])
    else longStrategy.paper.simulateFills doubledBook 0).1.qLots = 2
  rw [hlive]
  show ((new leanParams true).onEvent narrowBook .zero).1.paper.qLots + 2 = 2
  rw [hflat]
  rfl

theorem longStrategy_sigma :
    longStrategy.sigma =
      { SigmaEwma.new 1 0 with haveLast := true, lastBucket := 0, lastMid := 101 } := by
  have hmid : narrowBook.midX2 = some 202 := by decide
  show ((new leanParams true).onEvent narrowBook .zero).1.sigma = _
  rw [onEvent_sigma _ _ hmid, midOf_narrow]
  exact SigmaEwma.observe_first (by norm_num) (by decide) rfl

/-- One return, of `log 2`, with weight one half. -/
theorem longBefore_sigma :
    longBefore.sigma.var = Real.log 2 ^ 2 / 2 ∧ longBefore.sigma.ready = true := by
  have hsigma : longBefore.sigma =
      (longStrategy.sigma.observe secondEvent.tsExchangeMs (midOf 404)).1 := rfl
  have hmid : (0 : ℝ) < midOf 404 := by rw [midOf_doubled]; norm_num
  have hlater : longStrategy.sigma.lastBucket < secondEvent.tsExchangeMs.toInt.tdiv 1000 := by
    rw [longStrategy_sigma]
    decide
  obtain ⟨hvar, hsamples, hmin⟩ :=
    SigmaEwma.observe_next hmid hlater (by rw [longStrategy_sigma])
  rw [← hsigma] at hvar hsamples hmin
  rw [longStrategy_sigma] at hvar hsamples hmin
  have hlambda : (SigmaEwma.new (1 : ℝ) 0).lambda = 1 / 2 := by
    rw [SigmaEwma.new, Double.exp_real, Double.log_real, Double.ofInt_real, Int.cast_ofNat, div_one,
      Real.exp_neg, Real.exp_log two_pos, one_div]
  have hzero : (SigmaEwma.new (1 : ℝ) 0).var = 0 := Int.cast_zero
  have hsecond : secondEvent.tsExchangeMs.toInt.tdiv 1000 = 1 := by decide
  constructor
  · dsimp only at hvar
    rw [hlambda, hzero, hsecond, midOf_doubled] at hvar
    rw [hvar]
    norm_num
    ring
  · rw [SigmaEwma.ready, hsamples, hmin]
    rfl

theorem longBefore_mustPull : longBefore.mustPull = false := by
  obtain ⟨hvar, hready⟩ := longBefore_sigma
  have hsmall : Real.sqrt longBefore.sigma.var ≤ 1 := by
    rw [Real.sqrt_le_one, hvar]
    nlinarith [half_lt_log_two, log_two_lt_one]
  have hcalm : Double.lt longBefore.p.sigmaSpikeThreshold longBefore.sigma.sigmaR = false := by
    rw [longBefore_p]
    exact decide_eq_false (not_lt.mpr hsmall)
  rw [mustPull, hready, hcalm]
  rfl

/-- The horizon was chosen so. -/
theorem longBefore_variance :
    let σ := longBefore.sigmaPOf (midOf 404)
    σ * σ * leanParams.tauDays = 1 := by
  intro σ
  have hlog : Real.log 2 ≠ 0 := (Real.log_pos one_lt_two).ne'
  have hσ : σ = 202 * Real.sqrt (Real.log 2 ^ 2 / 2) * Real.sqrt 86400 := by
    show midOf 404 * Real.sqrt longBefore.sigma.var * Real.sqrt ((86400 : Int) : ℝ) = _
    rw [longBefore_sigma.1, midOf_doubled, Int.cast_ofNat]
  have hsq : σ * σ = 202 ^ 2 * (Real.log 2 ^ 2 / 2) * 86400 := by
    rw [hσ, ← pow_two, mul_pow, mul_pow, Real.sq_sqrt (by positivity), Real.sq_sqrt (by norm_num)]
  rw [hsq]
  show 202 ^ 2 * (Real.log 2 ^ 2 / 2) * 86400 * (2 / (86400 * (202 * Real.log 2) ^ 2)) = 1
  field_simp

/-- Two lots move the middle from 202 to 200, and each side is between one and two ticks
away from it. -/
theorem longBefore_quote :
    let qt := longBefore.computedQuote (midOf 404) (longBefore.sigmaPOf (midOf 404)) 200 204
    qt.bidPx = 198 ∧ qt.askPx = 202 := by
  intro qt
  let σ := longBefore.sigmaPOf (midOf 404)
  have hvariance : σ * σ * leanParams.tauDays = 1 := longBefore_variance
  have hqt : qt = computeQuote 202 2 σ 1 1 leanParams.tauDays 200 204 := by
    show longBefore.computedQuote (midOf 404) σ 200 204 = _
    rw [computedQuote, longBefore_p, longBefore_qLots, midOf_doubled, Double.pow_real,
      show (Double.ofInt leanParams.qtyScale : ℝ) = 0 from Int.cast_zero, Real.rpow_zero, div_one,
      Double.ofInt_real, Int.cast_ofNat]
    rfl
  have hspread : totalSpread σ 1 1 leanParams.tauDays = 1 + 2 * Real.log 2 := by
    rw [totalSpread, hvariance]
    norm_num
  have hmiddle : reservation 202 2 σ 1 leanParams.tauDays = 200 := by
    rw [reservation, hvariance]
    norm_num
  have hlow := half_lt_log_two
  have hhigh := log_two_lt_one
  obtain ⟨-, -, hclamp⟩ := computeQuote_exact (σ := σ) (γ := 1) (κ := 1)
    (τ := leanParams.tauDays) 202 2 200 204 (by rw [hspread]; linarith)
  have hbid : ⌊(200 : ℝ) - (1 + 2 * Real.log 2) / 2⌋ = 198 := by
    rw [Int.floor_eq_iff]
    constructor <;> push_cast <;> linarith
  have hask : ⌈(200 : ℝ) + (1 + 2 * Real.log 2) / 2⌉ = 202 := by
    rw [Int.ceil_eq_iff]
    constructor <;> push_cast <;> linarith
  rw [hspread, hmiddle, hbid, hask, ← hqt] at hclamp
  exact Prod.mk.inj hclamp

/-- Without hysteresis no price is held. -/
theorem hold_eq {F : Type} {s : Strategy F} (hs : s.p.hysteresisTicks ≤ 0) (px working : Int) :
    s.hold px working = px :=
  if_neg (by omega)

/-- With nothing to pay every order that costs something is large enough. -/
theorem longBefore_minNotionalOk {px : Int} (hpx : 0 ≤ px) :
    longBefore.minNotionalOk px 10 = true := by
  have hcost : (0 : ℝ) ≤ px := Int.cast_nonneg hpx
  rw [minNotionalOk, longBefore_p, Double.le_real, Double.ofInt_real, Double.ofInt_real,
    Double.pow_real]
  exact decide_eq_true (show (0 : ℝ) ≤ _ by positivity)

/-- Both sides are shown, as computed. -/
theorem longBefore_requote :
    let q := (longBefore.requote secondEvent 404 (midOf 404) (longBefore.sigmaPOf (midOf 404))
      200 204).2
    q.bidQty = 10 ∧ q.askQty = 10 ∧ q.bidPx = 198 ∧ q.askPx = 202 := by
  let σ := longBefore.sigmaPOf (midOf 404)
  let r := longBefore.requote secondEvent 404 (midOf 404) σ 200 204
  obtain ⟨hbid, hask⟩ := longBefore_quote
  have hheld : longBefore.p.hysteresisTicks ≤ 0 := by rw [longBefore_p]; exact Int.le_refl 0
  have hworking : (r.1.workingBid, r.1.workingAsk) = (198, 202) := by
    show clamp (longBefore.hold (longBefore.computedQuote (midOf 404) σ 200 204).bidPx _)
      (longBefore.hold (longBefore.computedQuote (midOf 404) σ 200 204).askPx _) 200 204 = _
    rw [hold_eq hheld, hold_eq hheld, hbid, hask]
    rfl
  obtain ⟨hbidWorks, haskWorks⟩ := Prod.mk.inj hworking
  obtain ⟨hbidQty, haskQty⟩ := longBefore.requote_qty secondEvent 404 (midOf 404) σ 200 204
  obtain ⟨hbidPx, haskPx⟩ := longBefore.requote_working secondEvent 404 (midOf 404) σ 200 204
  rw [longBefore_qLots, longBefore_p] at hbidQty haskQty
  have hbidTen : r.2.bidQty = 10 := by
    rw [hbidQty, show (longBefore.requote _ _ _ _ _ _).1.workingBid = 198 from hbidWorks]
    exact if_pos (longBefore_minNotionalOk (by decide))
  have haskTen : r.2.askQty = 10 := by
    rw [haskQty, show (longBefore.requote _ _ _ _ _ _).1.workingAsk = 202 from haskWorks]
    exact if_pos (longBefore_minNotionalOk (by decide))
  exact ⟨hbidTen, haskTen, (hbidPx (ne_of_eq_of_ne hbidTen (by decide))).trans hbidWorks,
    (haskPx (ne_of_eq_of_ne haskTen (by decide))).trans haskWorks⟩

/-- Long two lots, the strategy quotes 198 and 202 where the mid is 202. -/
theorem quotes_lean_against_inventory_long :
    let q := ((Runs.run step (new leanParams true) boughtBefore).onEvent doubledBook
      secondEvent).2.quote
    q.inventoryLots = 2 ∧ q.midX2 = 404 ∧ q.bidPx = 198 ∧ q.askPx = 202 ∧
      q.bidPx + q.askPx ≤ q.midX2 := by
  intro q
  have hmid : doubledBook.midX2 = some 404 := by decide
  have hpriced : Priced doubledBook := by
    intro bid ask hbid hask
    obtain rfl : (⟨200, 1⟩ : Level) = bid := Option.some.inj hbid
    obtain rfl : (⟨204, 1⟩ : Level) = ask := Option.some.inj hask
    decide
  have hq : q = (longBefore.requote secondEvent 404 (midOf 404)
      (longBefore.sigmaPOf (midOf 404)) 200 204).2 := by
    have hquote := longStrategy.onEvent_quote secondEvent hmid
    dsimp only at hquote
    rw [← longBefore, longBefore_mustPull, if_neg (by decide)] at hquote
    exact hquote
  obtain ⟨hbidQty, haskQty, hbidPx, haskPx⟩ := longBefore_requote
  rw [← hq] at hbidQty haskQty hbidPx haskPx
  have hinv : q.inventoryLots = 2 :=
    (congrArg QuoteRecord.inventoryLots hq).trans longBefore_qLots
  have hτ : 0 ≤ leanParams.tauDays := by
    show (0 : ℝ) ≤ 2 / (86400 * (202 * Real.log 2) ^ 2)
    positivity
  obtain ⟨hlow, -, -⟩ := quotes_lean_against_inventory leanParams one_pos one_pos hτ true
    boughtBefore doubledBook secondEvent hpriced (ne_of_eq_of_ne hbidQty (by decide))
    (ne_of_eq_of_ne haskQty (by decide))
  have hbelow : q.bidPx + q.askPx ≤ q.midX2 + 0 := hlow (by rw [hinv]; decide)
  exact ⟨hinv, congrArg QuoteRecord.midX2 hq, hbidPx, haskPx, by omega⟩

end Strategy

/-! ## Spread -/

section
variable {σ γ κ τ : ℝ}

/-- The second term of the formula depends on `γ / κ` only, up to a factor. -/
theorem totalSpread_eq (hγ : 0 < γ) (hκ : 0 < κ) :
    totalSpread σ γ κ τ =
      γ * (σ * σ * τ) + 2 / κ * (Real.log (1 + γ / κ) / (γ / κ)) := by
  rw [totalSpread]
  field_simp

/-- **How the spread responds.**  In exact arithmetic, for `γ, κ > 0` and any mid, inventory and
book: more volatility over a horizon widens the spread that `ComputeQuote` returns; more risk
aversion does so if `κ² σ² τ ≥ 1`; but without volatility it narrows it. -/
theorem spread_response (s q κ τ : ℝ) (bb ba : Int) (hκ : 0 < κ) (hτ : 0 ≤ τ) :
    (∀ γ σ σ', 0 < γ → 0 ≤ σ → σ ≤ σ' →
      (computeQuote s q σ γ κ τ bb ba).deltaTotal ≤
        (computeQuote s q σ' γ κ τ bb ba).deltaTotal) ∧
    (∀ σ γ γ', 0 < γ → γ ≤ γ' → 1 ≤ κ ^ 2 * (σ ^ 2 * τ) →
      (computeQuote s q σ γ κ τ bb ba).deltaTotal ≤
        (computeQuote s q σ γ' κ τ bb ba).deltaTotal) ∧
    (∀ γ γ', 0 < γ → γ < γ' →
      (computeQuote s q 0 γ' κ τ bb ba).deltaTotal <
        (computeQuote s q 0 γ κ τ bb ba).deltaTotal) := by
  let delta := fun σ γ => (computeQuote s q σ γ κ τ bb ba).deltaTotal
  have hdelta : ∀ σ γ, 0 < γ → delta σ γ = totalSpread σ γ κ τ := fun σ γ hγ =>
    (computeQuote_exact s q bb ba ((log_term_pos hγ hκ).trans_le
      (log_term_le_totalSpread hγ hτ))).2.1
  refine ⟨fun γ σ σ' hγ hσ hle => ?_, fun σ γ γ' hγ hle hvol => ?_, fun γ γ' hγ hlt => ?_⟩
  · show delta σ γ ≤ delta σ' γ
    have hσ' : 0 ≤ σ' := hσ.trans hle
    rw [hdelta σ γ hγ, hdelta σ' γ hγ, totalSpread, totalSpread]
    gcongr
  · show delta σ γ ≤ delta σ γ'
    have hγ' : 0 < γ' := hγ.trans_le hle
    rw [hdelta σ γ hγ, hdelta σ γ' hγ', totalSpread_eq hγ hκ, totalSpread_eq hγ' hκ]
    have hmono := monotoneOn_two_log_div_add (Set.mem_Ioi.mpr (div_pos hγ hκ))
      (Set.mem_Ioi.mpr (div_pos hγ' hκ)) (div_le_div_of_nonneg_right hle hκ.le)
    dsimp only at hmono
    generalize Real.log (1 + γ / κ) / (γ / κ) = slope at hmono ⊢
    generalize Real.log (1 + γ' / κ) / (γ' / κ) = slope' at hmono ⊢
    -- the loss in the second term is at most `(γ' - γ) / κ²`
    have hloss : 2 / κ * slope - 2 / κ * slope' ≤ (γ' - γ) / κ ^ 2 := by
      have hscaled : (2 * slope - 2 * slope') / κ ≤ (γ' / κ - γ / κ) / κ :=
        div_le_div_of_nonneg_right (by linarith) hκ.le
      calc 2 / κ * slope - 2 / κ * slope' = (2 * slope - 2 * slope') / κ := by ring
        _ ≤ (γ' / κ - γ / κ) / κ := hscaled
        _ = (γ' - γ) / κ ^ 2 := by
          field_simp
    have hgain : (γ' - γ) / κ ^ 2 ≤ (γ' - γ) * (σ * σ * τ) := by
      rw [div_le_iff₀ (by positivity), mul_assoc]
      refine le_mul_of_one_le_right (sub_nonneg.mpr hle) ?_
      rw [← pow_two, mul_comm]
      exact hvol
    rw [sub_mul] at hgain
    linarith
  · show delta 0 γ' < delta 0 γ
    have hγ' : 0 < γ' := hγ.trans hlt
    rw [hdelta 0 γ hγ, hdelta 0 γ' hγ', totalSpread_eq hγ hκ, totalSpread_eq hγ' hκ]
    have hanti := strictAntiOn_log_one_add_div (Set.mem_Ioi.mpr (div_pos hγ hκ))
      (Set.mem_Ioi.mpr (div_pos hγ' hκ)) (div_lt_div_of_pos_right hlt hκ)
    simp only [zero_mul, mul_zero, zero_add]
    exact mul_lt_mul_of_pos_left hanti (by positivity)

theorem spread_response_unit :
    (computeQuote (100 : ℝ) 0 1 1 1 1 0 0).deltaTotal ≤
        (computeQuote (100 : ℝ) 0 1 2 1 1 0 0).deltaTotal ∧
      (computeQuote (100 : ℝ) 0 0 2 1 1 0 0).deltaTotal <
        (computeQuote (100 : ℝ) 0 0 1 1 1 0 0).deltaTotal := by
  obtain ⟨-, hwider, hnarrower⟩ := spread_response 100 0 1 1 0 0 one_pos zero_le_one
  exact ⟨hwider 1 1 2 one_pos one_le_two (by norm_num), hnarrower 1 2 one_pos one_lt_two⟩

end

end Asmm
