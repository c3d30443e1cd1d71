import CryptoBook.DecimalCodec
import CryptoBook.Config

/-! # Scales of prices and quantities

The number of places of a price and of a quantity comes from the configuration, and
`LoadConfig` only asks that it is not negative (`admittedScale_iff`).  `ScaledToDecimal`
divides by a power of ten that it computes in a `u64`.

With more than 19 places that power has wrapped.  It is zero from 64 places on, since then 64
factors 2 are in it, and the division is undefined (`scaledToDecimal_eq_none_iff`).  Below, it
is some other number: a magnitude that is smaller is all remainder and still comes out right,
because the remainder is filled up to the full number of places, and any other magnitude comes
out wrong (`writesExactly_iff_of_lt`). -/
namespace Asmm
open Numerals Numeral

/-- The largest `int`. -/
def kIntMax : Int := 2147483647

/-- An `int` that is the scale of prices or of quantities in a configuration that `LoadConfig`
returns. -/
def AdmittedScale (F : Type) [Double F] (scale : Int) : Prop :=
  scale ≤ kIntMax ∧ ∃ tomlPath doc envPath dotenv env, ∃ cfg : AppConfig F,
    loadConfig tomlPath doc envPath dotenv env = .ok cfg ∧
      (cfg.marketData.pxScale = scale ∨ cfg.marketData.qtyScale = scale)

/-- A document with the required entries and the two scales. -/
def scalesTable (F : Type) (pxScale qtyScale : Int) : TomlTable F where
  str := fun table key =>
    if table = "exchange" ∧ key = "symbol" then some "BTCUSDT"
    else if table = "exchange" ∧ key = "rest_url" then some "https://testnet.binance.vision"
    else none
  int := fun table key =>
    if table = "market_data" ∧ key = "px_scale" then some pxScale
    else if table = "market_data" ∧ key = "qty_scale" then some qtyScale
    else none
  i64 := fun _ _ => none
  double := fun _ _ => none
  bool := fun _ _ => none

section
variable {F : Type} [Double F]

/-- Scales that are not negative pass all checks. -/
theorem loadConfig_scalesTable {pxScale qtyScale : Int} (hpx : 0 ≤ pxScale) (hqty : 0 ≤ qtyScale)
    (env : Env) :
    loadConfig "app.toml" (.ok (scalesTable F pxScale qtyScale)) ".env" none env =
      .ok ((scalesTable F pxScale qtyScale).appConfig env) := by
  have hsymbol : "BTCUSDT" ≠ "" := by decide
  have hhost : isTestnetOrderHost (hostOf "https://testnet.binance.vision".toList) = true := by
    decide +kernel
  exact loadConfig_of_scales (scalesTable F pxScale qtyScale) hsymbol hhost rfl hpx hqty rfl

/-- **Every scale that is not negative is admitted**, and no other. -/
theorem admittedScale_iff {scale : Int} :
    AdmittedScale F scale ↔ 0 ≤ scale ∧ scale ≤ kIntMax := by
  constructor
  · rintro ⟨hmax, _, _, _, _, _, cfg, hload, hscale⟩
    obtain ⟨_, _, _, _, _, hvalid⟩ := loadConfig_eq_ok_iff.mp hload
    refine ⟨?_, hmax⟩
    rcases hscale with rfl | rfl
    · exact hvalid.px_scale
    · exact hvalid.qty_scale
  · rintro ⟨hscale, hmax⟩
    exact ⟨hmax, _, _, _, _, fun _ => none, _, loadConfig_scalesTable hscale hscale _, .inl rfl⟩

end

/-- From 64 places on the power of ten wraps to zero. -/
theorem pow_ten_mod_eq_zero_iff {k : Nat} : 10 ^ k % 2 ^ 64 = 0 ↔ 64 ≤ k := by
  have hcoprime : Nat.Coprime (2 ^ 64) (5 ^ k) := Nat.Coprime.pow 64 k (by decide)
  rw [← Nat.dvd_iff_mod_eq_zero, show 10 ^ k = 2 ^ k * 5 ^ k from Nat.mul_pow 2 5 k,
    ← Nat.pow_dvd_pow_iff_le_right (by decide : 1 < 2)]
  exact ⟨hcoprime.dvd_of_dvd_mul_right, fun h => Nat.dvd_mul_right_of_dvd h _⟩

/-- **`ScaledToDecimal` divides by zero** from 64 places on, and only there. -/
theorem scaledToDecimal_eq_none_iff {value : Int64} {scale : Nat} :
    scaledToDecimal value scale = none ↔ 64 ≤ scale := by
  rcases Nat.eq_zero_or_pos scale with rfl | hpos
  · rw [scaledToDecimal_spell value (by decide)]
    simp
  · rw [scaledToDecimal_parts value hpos, ← pow_ten_mod_eq_zero_iff]
    simp

/-- `ScaledToDecimal` returns a text that denotes `value` units of the last place. -/
def WritesExactly (value : Int64) (scale : Nat) : Prop :=
  ∃ text, scaledToDecimal value scale = some text ∧ Denotes text (value.toInt / 10 ^ scale)

variable {value : Int64} {scale : Nat}

theorem writesExactly_of_le (hscale : scale ≤ 19) : WritesExactly value scale := by
  refine ⟨_, scaledToDecimal_spell value hscale, denotes_spell.mpr ?_⟩
  rw [eq_div_iff (pow_ne_zero _ (by norm_num))]
  exact value_fixedPoint value

/-- The two parts make up the magnitude only if the first is zero: the divisor is not the
power of ten that the point stands for. -/
theorem parts_eq_iff {mag divisor power : Nat} (hpos : 0 < divisor) (hlt : divisor < power) :
    mag / divisor * power + mag % divisor = mag ↔ mag < divisor := by
  have hparts := Nat.div_add_mod mag divisor
  constructor
  · intro h
    have hmul : mag / divisor * power = mag / divisor * divisor := by
      rw [Nat.mul_comm divisor] at hparts
      omega
    rcases Nat.eq_zero_or_pos (mag / divisor) with hzero | hquotient
    · exact (Nat.div_eq_zero_iff_lt hpos).mp hzero
    · exact absurd (Nat.eq_of_mul_eq_mul_left hquotient hmul) hlt.ne'
  · intro h
    rw [Nat.div_eq_of_lt h, Nat.mod_eq_of_lt h, Nat.zero_mul, Nat.zero_add]

/-- What two written parts denote. -/
theorem denotes_ofParts_iff {whole frac : Nat} (hscale : 0 < scale) (hfrac : frac < 10 ^ scale) :
    Denotes (ofParts (decide (value < 0)) whole frac scale).spell (value.toInt / 10 ^ scale) ↔
      whole * 10 ^ scale + frac = value.toInt.natAbs := by
  have hpow : (10 : ℚ) ^ scale ≠ 0 := pow_ne_zero _ (by norm_num)
  rw [denotes_spell, value_ofParts _ _ hscale hfrac, div_left_inj' hpow]
  generalize whole * 10 ^ scale + frac = written
  by_cases hneg : value < 0
  · have hlt : value.toInt < 0 := Int64.lt_iff_toInt_lt.mp hneg
    simp only [hneg, decide_true, if_true]
    norm_cast
    omega
  · have hle : 0 ≤ value.toInt := Int.not_lt.mp fun h => hneg (Int64.lt_iff_toInt_lt.mpr h)
    simp only [hneg, decide_false, Bool.false_eq_true, if_false]
    norm_cast
    omega

/-- **More than 19 places.** -/
theorem writesExactly_iff_of_lt (hscale : 19 < scale) :
    WritesExactly value scale ↔ value.toInt.natAbs < 10 ^ scale % 2 ^ 64 := by
  have hpow : 2 ^ 64 < 10 ^ scale :=
    Nat.lt_of_lt_of_le (by decide : 2 ^ 64 < 10 ^ 20) (Nat.pow_le_pow_right (by decide) hscale)
  have hwrap : 10 ^ scale % 2 ^ 64 < 2 ^ 64 := Nat.mod_lt _ (by decide)
  have htext := scaledToDecimal_parts value (show 0 < scale by omega)
  generalize 10 ^ scale % 2 ^ 64 = divisor at *
  rcases Nat.eq_zero_or_pos divisor with rfl | hpos
  · rw [if_pos rfl] at htext
    refine iff_of_false ?_ (Nat.not_lt_zero _)
    rintro ⟨text, hsome, -⟩
    rw [htext] at hsome
    cases hsome
  · rw [if_neg hpos.ne'] at htext
    have hfrac : value.toInt.natAbs % divisor < 10 ^ scale :=
      (Nat.mod_lt _ hpos).trans (hwrap.trans hpow)
    rw [← parts_eq_iff hpos (hwrap.trans hpow), ← denotes_ofParts_iff (by omega) hfrac]
    constructor
    · rintro ⟨text, hsome, hdenotes⟩
      obtain rfl := Option.some.inj (htext.symm.trans hsome)
      exact hdenotes
    · intro hdenotes
      exact ⟨_, htext, hdenotes⟩

/-- **When `ScaledToDecimal` is right on the scales that are admitted**, which are all that
are not negative: up to 19 places always, and with more places for magnitudes below the
wrapped power of ten. -/
theorem scaledToDecimal_exact_iff (F : Type) [Double F] :
    (∀ scale : Int, AdmittedScale F scale ↔ 0 ≤ scale ∧ scale ≤ kIntMax) ∧
    ∀ (value : Int64) (scale : Nat),
      WritesExactly value scale ↔ scale ≤ 19 ∨ value.toInt.natAbs < 10 ^ scale % 2 ^ 64 := by
  refine ⟨fun scale => admittedScale_iff, fun value scale => ?_⟩
  by_cases hscale : scale ≤ 19
  · exact iff_of_true (writesExactly_of_le hscale) (.inl hscale)
  · rw [writesExactly_iff_of_lt (Nat.not_le.mp hscale), or_iff_right hscale]

/-- **Admitted scales that go wrong.**  With 64 places the divisor is zero.  With 20 places
the largest price, less than 0.1, is written as more than 1. -/
theorem scaledToDecimal_wraps :
    AdmittedScale Strategy.Whole 64 ∧ scaledToDecimal 1 64 = none ∧
    AdmittedScale Strategy.Whole 20 ∧
    scaledToDecimal 9223372036854775807 20 = some "1.01457092405402533887".toList ∧
    ¬ WritesExactly 1 64 ∧ ¬ WritesExactly 9223372036854775807 20 := by
  refine ⟨admittedScale_iff.mpr (by decide), by decide +kernel,
    admittedScale_iff.mpr (by decide), by decide +kernel, ?_, ?_⟩
  · rw [writesExactly_iff_of_lt (by decide)]
    decide
  · rw [writesExactly_iff_of_lt (by decide)]
    decide

end Asmm
