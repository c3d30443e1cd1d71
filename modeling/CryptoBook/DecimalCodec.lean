import CryptoBook.BinanceDepth
import CryptoBook.Signing

/-! # The decimal codec

`DecimalToScaled` reads a numeral into an `i64` in units of the last of `scale` places, and
`ScaledToDecimal` writes it.  The reader has two overflow guards, one in the digit loop and
one in the loop that appends the missing zeros.  The first stops below
9223372036854775800, the second lets that one value through, so the largest value accepted
depends on how many places are written (`Fits`).

The `i64` arithmetic of the source is checked: `decimalToScaledI64` reports an overflow as
such, and never does (`decimalToScaledI64_eq`).  A writer that writes all places is held to
the first guard, so a value that was read can be written as a text that is not read back;
both denote the same number (`decimal_codec_round_trip`). -/
namespace Asmm
open Numerals Numeral

/-! ## The digit loop -/

/-- The largest value the digit loop reaches. -/
def kDigitLimit : Nat := 9223372036854775799

theorem kInt64Max_eq : kInt64Max = 9223372036854775807 := by decide

theorem digitGuard_eq : (kInt64Max - 9) / 10 = 922337203685477579 := by decide

theorem scaleGuard_eq : kInt64Max / 10 = 922337203685477580 := by decide

/-- A character passes the test of the loop. -/
theorem isDigit_iff {c : Char} : c.isDigit = true ↔ ¬ (c < '0' ∨ c > '9') := by
  rw [Char.isDigit, Bool.and_eq_true, decide_eq_true_iff, decide_eq_true_iff, not_or, gt_iff_lt,
    Char.not_lt, Char.not_lt]
  rfl

theorem ne_dot_of_isDigit {c : Char} (h : c.isDigit = true) : c ≠ '.' := by
  rintro rfl
  cases h

theorem digit_le {c : Char} (h : c.isDigit = true) : c.toNat - '0'.toNat ≤ 9 := by
  rw [Char.isDigit, Bool.and_eq_true, decide_eq_true_iff, decide_eq_true_iff] at h
  have hle : c.toNat ≤ '9'.toNat := UInt32.le_iff_toNat_le.mp h.2
  have h9 : '9'.toNat = 57 := rfl
  have h0 : '0'.toNat = 48 := rfl
  omega

/-- Digits do not make a number smaller. -/
theorem le_ofDigitChars (ds : List Char) (v : Nat) : v ≤ Nat.ofDigitChars 10 ds v := by
  rw [Nat.ofDigitChars_eq_ofDigitChars_zero]
  have := Nat.le_mul_of_pos_left v (Nat.pow_pos (n := ds.length) (by decide : 0 < 10))
  omega

/-- One more digit stays below the limit exactly if the guard lets it. -/
theorem guard_iff {c : Char} (hc : c.isDigit = true) (v : Nat) :
    v ≤ (kInt64Max - 9) / 10 ↔ 10 * v + (c.toNat - '0'.toNat) ≤ kDigitLimit := by
  have hle := digit_le hc
  rw [digitGuard_eq, kDigitLimit]
  omega

section Loop
variable {scale : Int} {any : Bool} {v : Nat}

/-- Before the point: all digits are read, as far as the guard lets them. -/
theorem decimalLoop_whole {ds : List Char} (hdigits : ∀ c ∈ ds, c.isDigit = true)
    (rest : List Char) (hv : v ≤ kDigitLimit) :
    decimalLoop scale (ds ++ rest) v 0 false any =
      if Nat.ofDigitChars 10 ds v ≤ kDigitLimit then
        decimalLoop scale rest (Nat.ofDigitChars 10 ds v) 0 false (any || !ds.isEmpty)
      else none := by
  induction ds generalizing v any with
  | nil =>
    rw [Nat.ofDigitChars_nil, if_pos hv]
    simp
  | cons c ds ih =>
    obtain ⟨hc, hds⟩ := List.forall_mem_cons.mp hdigits
    rw [List.cons_append, decimalLoop, if_neg (ne_dot_of_isDigit hc), if_neg (isDigit_iff.mp hc),
      if_neg (by simp), Nat.ofDigitChars_cons]
    by_cases hguard : v ≤ (kInt64Max - 9) / 10
    · rw [if_neg (Nat.not_lt.mpr hguard), Nat.mul_comm v 10, if_neg Bool.false_ne_true,
        ih hds ((guard_iff hc v).mp hguard)]
      simp
    · have hbig := mt (guard_iff hc v).mpr hguard
      rw [if_pos (Nat.not_le.mp hguard), if_neg]
      have := le_ofDigitChars ds (10 * v + (c.toNat - '0'.toNat))
      omega

/-- Behind the point: so many digits are read as there are places, and the rest must be
zeros. -/
theorem decimalLoop_fraction {ds : List Char} (hdigits : ∀ c ∈ ds, c.isDigit = true) (room : Nat)
    (hv : v ≤ kDigitLimit) :
    decimalLoop scale ds v (scale - room) true any =
      if Zeros (ds.drop room) ∧ Nat.ofDigitChars 10 (ds.take room) v ≤ kDigitLimit then
        some (Nat.ofDigitChars 10 (ds.take room) v, scale - (room - ds.length : Nat),
          any || !ds.isEmpty)
      else none := by
  induction ds generalizing v any room with
  | nil =>
    rw [List.drop_nil, List.take_nil, Nat.ofDigitChars_nil, if_pos ⟨by simp, hv⟩]
    simp [decimalLoop]
  | cons c ds ih =>
    obtain ⟨hc, hds⟩ := List.forall_mem_cons.mp hdigits
    rw [decimalLoop, if_neg (ne_dot_of_isDigit hc), if_neg (isDigit_iff.mp hc)]
    cases room with
    | zero =>
      -- no place left: the value stays, and the guard is not asked again
      rw [if_pos ⟨rfl, by omega⟩]
      by_cases hzero : c = '0'
      · rw [if_neg (not_not.mpr hzero), ih hds 0 hv]
        simp [hzero]
      · rw [if_pos hzero, if_neg fun h => hzero (h.1 c List.mem_cons_self)]
    | succ room =>
      rw [if_neg (by omega), List.drop_succ_cons, List.take_succ_cons, Nat.ofDigitChars_cons]
      by_cases hguard : v ≤ (kInt64Max - 9) / 10
      · have hplaces : scale - (room + 1 : Nat) + 1 = scale - room := by omega
        rw [if_neg (Nat.not_lt.mpr hguard), Nat.mul_comm v 10, if_pos rfl, hplaces,
          ih hds room ((guard_iff hc v).mp hguard)]
        simp
      · have hbig := mt (guard_iff hc v).mpr hguard
        rw [if_pos (Nat.not_le.mp hguard), if_neg]
        have := le_ofDigitChars (ds.take room) (10 * v + (c.toNat - '0'.toNat))
        omega

/-- Behind the point nothing but digits is let through. -/
theorem decimalLoop_digits {cs : List Char} {fracDigits : Int} {r : Nat × Int × Bool}
    (h : decimalLoop scale cs v fracDigits true any = some r) :
    (∀ c ∈ cs, c.isDigit = true) ∧ r.2.2 = (any || !cs.isEmpty) := by
  induction cs generalizing v fracDigits any with
  | nil =>
    cases h
    simp
  | cons c cs ih =>
    rw [decimalLoop] at h
    by_cases hdot : c = '.'
    · rw [if_pos hdot] at h
      cases h
    by_cases hdigit : c < '0' ∨ c > '9'
    · rw [if_neg hdot, if_pos hdigit] at h
      cases h
    have hrest : (∀ c ∈ cs, c.isDigit = true) ∧ r.2.2 = (true || !cs.isEmpty) := by
      rw [if_neg hdot, if_neg hdigit] at h
      split_ifs at h <;> exact ih h
    refine ⟨List.forall_mem_cons.mpr ⟨isDigit_iff.mpr hdigit, hrest.1⟩, ?_⟩
    rw [hrest.2]
    simp

/-- What the loop lets through is spelled like a numeral, up to the sign and the digit that
has to be there. -/
theorem decimalLoop_spelled {cs : List Char} {fracDigits : Int} {r : Nat × Int × Bool}
    (h : decimalLoop scale cs v fracDigits false any = some r) :
    ∃ whole frac, cs = whole ++ tail frac ∧ (∀ c ∈ whole, c.isDigit = true) ∧
      (∀ c ∈ frac.getD [], c.isDigit = true) ∧
      r.2.2 = (any || !whole.isEmpty || !(frac.getD []).isEmpty) := by
  induction cs generalizing v fracDigits any with
  | nil =>
    cases h
    exact ⟨[], none, by simp [tail]⟩
  | cons c cs ih =>
    rw [decimalLoop] at h
    by_cases hdot : c = '.'
    · rw [if_pos hdot, if_neg Bool.false_ne_true] at h
      obtain ⟨hdigits, hany⟩ := decimalLoop_digits h
      exact ⟨[], some cs, by rw [hdot]; rfl, by simp, hdigits, by simpa using hany⟩
    by_cases hdigit : c < '0' ∨ c > '9'
    · rw [if_neg hdot, if_pos hdigit] at h
      cases h
    rw [if_neg hdot, if_neg hdigit, if_neg (by simp)] at h
    split at h
    · cases h
    obtain ⟨whole, frac, rfl, hwhole, hfrac, hany⟩ := ih h
    refine ⟨c :: whole, frac, rfl, List.forall_mem_cons.mpr ⟨isDigit_iff.mpr hdigit, hwhole⟩,
      hfrac, ?_⟩
    rw [hany]
    simp

end Loop

/-! ## The scaling loop -/

/-- The scaling loop goes one value further than the digit loop, if it runs at all. -/
theorem scaleUp_eq (k v : Nat) :
    scaleUp k v = if k = 0 ∨ v * 10 ^ k ≤ kDigitLimit + 1 then some (v * 10 ^ k) else none := by
  induction k generalizing v with
  | zero => simp [scaleUp]
  | succ k ih =>
    have hpow : v * 10 ^ (k + 1) = v * 10 * 10 ^ k := by rw [Nat.pow_succ', Nat.mul_assoc]
    rw [scaleUp, scaleGuard_eq, ih, hpow]
    have hle : v * 10 ≤ v * 10 * 10 ^ k :=
      Nat.le_mul_of_pos_right _ (Nat.pow_pos (by decide))
    by_cases hguard : v > 922337203685477580
    · rw [if_pos hguard, if_neg]
      rw [kDigitLimit]
      omega
    · -- past this guard the loop may end, and then nothing else bounds the value
      rw [if_neg hguard]
      congr 1
      rw [kDigitLimit]
      rcases k with - | k
      · simp only [Nat.pow_zero, Nat.mul_one, eq_iff_iff]
        omega
      · simp

/-! ## What is accepted -/

/-- The numerals `DecimalToScaled` accepts: nothing behind the places, and within the guard
of the loop that produced the last digit. -/
def Fits (n : Numeral) (scale : Nat) : Prop :=
  n.Within scale ∧ (n.scaled scale ≤ kDigitLimit ∨
    n.scaled scale = kDigitLimit + 1 ∧ n.fraction.length < scale)

instance (n : Numeral) (scale : Nat) : Decidable (Fits n scale) :=
  inferInstanceAs (Decidable (_ ∧ _))

section Numeral
variable (n : Numeral) (scale : Nat)

/-- The digits read before the missing zeros are appended. -/
def readDigits : Nat := Nat.ofDigitChars 10 (n.whole ++ n.fraction.take scale) 0

theorem scaled_eq :
    n.scaled scale = readDigits n scale * 10 ^ (scale - n.fraction.length) := rfl

theorem decimalLoop_spell :
    decimalLoop scale n.unsigned 0 0 false false =
      if n.Within scale ∧ readDigits n scale ≤ kDigitLimit then
        some (readDigits n scale, (scale : Int) - (scale - n.fraction.length : Nat), true)
      else none := by
  have hle : Nat.ofDigitChars 10 n.whole 0 ≤ readDigits n scale := by
    rw [readDigits, Nat.ofDigitChars_append]
    exact le_ofDigitChars _ _
  rw [unsigned, decimalLoop_whole n.whole_digits _ (Nat.zero_le _)]
  by_cases hwhole : Nat.ofDigitChars 10 n.whole 0 ≤ kDigitLimit
  · rw [if_pos hwhole]
    rcases hfrac : n.frac with - | ds
    · have hfraction : n.fraction = [] := by rw [fraction, hfrac]; rfl
      have hany : n.whole ≠ [] := by simpa [hfrac] using n.any_digit
      simp [readDigits, Within, hfraction, tail, decimalLoop, hwhole, hany]
    · have hfraction : n.fraction = ds := by rw [fraction, hfrac]; rfl
      have hdigits : ∀ c ∈ ds, c.isDigit = true := by simpa [hfrac] using n.frac_digits
      have hany : (false || !n.whole.isEmpty || !ds.isEmpty) = true := by
        simpa [hfrac] using n.any_digit
      have hread : readDigits n scale =
          Nat.ofDigitChars 10 (ds.take scale) (Nat.ofDigitChars 10 n.whole 0) := by
        rw [readDigits, hfraction, Nat.ofDigitChars_append]
      have hstart : (0 : Int) = scale - (scale : Nat) := by omega
      rw [tail, decimalLoop, if_pos rfl, if_neg Bool.false_ne_true, hstart,
        decimalLoop_fraction hdigits scale hwhole, hany, hread]
      simp only [Within, hfraction]
  · rw [if_neg hwhole, if_neg fun h => hwhole (hle.trans h.2)]

/-- The two guards together. -/
theorem fits_iff :
    Fits n scale ↔ (n.Within scale ∧ readDigits n scale ≤ kDigitLimit) ∧
      (scale - n.fraction.length = 0 ∨ n.scaled scale ≤ kDigitLimit + 1) := by
  have hscaled := scaled_eq n scale
  rcases hmissing : scale - n.fraction.length with - | k
  · rw [hmissing, Nat.pow_zero, Nat.mul_one] at hscaled
    rw [Fits, hscaled, and_assoc]
    exact and_congr_right fun _ => by omega
  · have hle : readDigits n scale * 10 ≤ n.scaled scale := by
      rw [hscaled, hmissing]
      exact Nat.mul_le_mul_left _ (Nat.le_self_pow (Nat.succ_ne_zero k) 10)
    have hlimit : 0 < kDigitLimit := by decide
    rw [Fits, and_assoc]
    exact and_congr_right fun _ => by omega

/-- **What `DecimalToScaled` returns on a numeral.** -/
theorem decimalToScaled_spell :
    decimalToScaled n.spell scale =
      if Fits n scale then some (Int64.ofInt (n.sign * n.scaled scale)) else none := by
  have hmissing : ((scale : Int) - (scale - (scale - n.fraction.length : Nat))).toNat =
      scale - n.fraction.length := by omega
  rw [decimalToScaled, if_neg (by simpa using n.spell_ne_nil), n.head?_spell]
  dsimp only
  rw [n.spell_drop_sign, decimalLoop_spell]
  by_cases hread : n.Within scale ∧ readDigits n scale ≤ kDigitLimit
  · rw [if_pos hread]
    dsimp only
    rw [if_neg (by simp), hmissing, scaleUp_eq, ← scaled_eq]
    by_cases hscale : scale - n.fraction.length = 0 ∨ n.scaled scale ≤ kDigitLimit + 1
    · rw [if_pos hscale, if_pos ((fits_iff n scale).mpr ⟨hread, hscale⟩), sign]
      cases n.neg <;> simp
    · rw [if_neg hscale, if_neg fun h => hscale ((fits_iff n scale).mp h).2]
      rfl
  · rw [if_neg hread, if_neg fun h => hread ((fits_iff n scale).mp h).1]

/-- Nothing but numerals is accepted. -/
theorem exists_spell_of_decimalToScaled {s : List Char} {scale : Int} {v : Int64}
    (h : decimalToScaled s scale = some v) : ∃ n : Numeral, n.spell = s := by
  rw [decimalToScaled] at h
  split at h
  · cases h
  dsimp only at h
  split at h
  · cases h
  rename_i hs _ value fracDigits anyDigit hloop
  obtain ⟨whole, frac, hdigits, hwhole, hfrac, hany⟩ := decimalLoop_spelled hloop
  have hdigit : whole ≠ [] ∨ frac.getD [] ≠ [] := by
    cases anyDigit
    · cases h
    · simpa using hany.symm
  refine ⟨⟨s.head? == some '-', whole, frac, hwhole, hfrac, hdigit⟩, ?_⟩
  rw [spell, ← hdigits]
  split
  · rename_i hneg
    rcases s with - | ⟨c, cs⟩
    · cases hneg
    · obtain rfl : c = '-' := by simpa using hneg
      rfl
  · rfl

variable {n} {scale : Nat} {v : Int64}

/-- `Fits` in terms of the value. -/
theorem fits_iff_value :
    Fits n scale ↔ n.Within scale ∧ (|n.value| * 10 ^ scale ≤ 9223372036854775799 ∨
      |n.value| * 10 ^ scale = 9223372036854775800 ∧ n.fraction.length < scale) := by
  refine and_congr_right fun hwithin => ?_
  rw [abs_value_mul_pow hwithin, kDigitLimit]
  norm_cast

theorem Fits.toInt_eq (h : Fits n scale) :
    (Int64.ofInt (n.sign * n.scaled scale)).toInt = n.sign * n.scaled scale := by
  have hle : n.scaled scale ≤ 9223372036854775800 := by
    have := h.2
    rw [kDigitLimit] at this
    omega
  rw [sign]
  cases n.neg
  · rw [if_neg Bool.false_ne_true, Int.one_mul]
    exact Int64.toInt_ofInt_of_le (by omega) (by omega)
  · rw [if_pos rfl, Int.neg_one_mul]
    exact Int64.toInt_ofInt_of_le (by omega) (by omega)

/-- **What is accepted, and with which result.** -/
theorem decimalToScaled_spell_eq_some :
    decimalToScaled n.spell scale = some v ↔
      Fits n scale ∧ (v.toInt : ℚ) = n.value * 10 ^ scale := by
  rw [decimalToScaled_spell]
  by_cases hfits : Fits n scale
  · rw [if_pos hfits, value_mul_pow hfits.1, Int.cast_inj, Option.some_inj, ← Int64.toInt_inj,
      hfits.toInt_eq, eq_comm]
    exact (and_iff_right hfits).symm
  · rw [if_neg hfits]
    exact iff_of_false nofun fun h => hfits h.1

end Numeral

/-! ## The arithmetic of the source -/

/-- How a run ends before its last line: with `return false`, or in an `i64` operation whose
result is out of range. -/
inductive Stop where
  | returnFalse
  | overflow
  deriving DecidableEq, Repr

/-- The result of an `i64` operation. -/
def i64 (n : Int) : Except Stop Int64 :=
  if Int64.minValue.toInt ≤ n ∧ n ≤ Int64.maxValue.toInt then .ok (Int64.ofInt n)
  else .error .overflow

/-- `decimalLoop` with the `i64` arithmetic of the source. -/
def decimalLoopI64 (scale : Int) :
    List Char → Int64 → Int → Bool → Bool → Except Stop (Int64 × Int × Bool)
  | [], value, fracDigits, _, anyDigit => .ok (value, fracDigits, anyDigit)
  | c :: cs, value, fracDigits, seenDot, anyDigit =>
      if c = '.' then
        if seenDot then .error .returnFalse
        else decimalLoopI64 scale cs value fracDigits true anyDigit
      else if c < '0' ∨ c > '9' then .error .returnFalse
      else if seenDot ∧ fracDigits ≥ scale then
        if c ≠ '0' then .error .returnFalse
        else decimalLoopI64 scale cs value fracDigits seenDot true
      else if value > (Int64.maxValue - 9) / 10 then .error .returnFalse
      else do
        let shifted ← i64 (value.toInt * 10)
        let value ← i64 (shifted.toInt + (c.toNat - '0'.toNat : Nat))
        decimalLoopI64 scale cs value (if seenDot then fracDigits + 1 else fracDigits) seenDot true

/-- `scaleUp` with the `i64` arithmetic of the source. -/
def scaleUpI64 : Nat → Int64 → Except Stop Int64
  | 0, value => .ok value
  | k + 1, value =>
      if value > Int64.maxValue / 10 then .error .returnFalse
      else do
        let value ← i64 (value.toInt * 10)
        scaleUpI64 k value

/-- The body of `DecimalToScaled` up to the assignment to `out`. -/
def scaledI64 (s : List Char) (scale : Int) : Except Stop Int64 :=
  if s.isEmpty then .error .returnFalse
  else do
    let neg := s.head? == some '-'
    let digits := if neg then s.tail else s
    let (value, fracDigits, anyDigit) ← decimalLoopI64 scale digits 0 0 false false
    if !anyDigit then .error .returnFalse
    else do
      let value ← scaleUpI64 (scale - fracDigits).toNat value
      if neg then i64 (-value.toInt) else .ok value

/-- `DecimalToScaled(s, scale, out)`: what it returns and `out` behind the call.  An error is
an overflow. -/
def decimalToScaledI64 (s : List Char) (scale : Int) (out : Int64) : Except Stop (Bool × Int64) :=
  match scaledI64 s scale with
  | .ok v => .ok (true, v)
  | .error .returnFalse => .ok (false, out)
  | .error .overflow => .error .overflow

section Arithmetic

/-- A result of the unbounded model as one of the source. -/
def orReturnFalse {α β : Type} (f : α → β) : Option α → Except Stop β
  | none => .error .returnFalse
  | some a => .ok (f a)

variable {v : Nat}

theorem toInt_ofNat_of_le (hv : v ≤ kInt64Max) : (Int64.ofNat v).toInt = v := by
  rw [kInt64Max_eq] at hv
  rw [Int64.toInt_ofNat_of_lt]
  omega

/-- A magnitude that is in range makes either sign of it a result. -/
theorem i64_eq_ok {n : Int} (hn : n.natAbs ≤ kInt64Max) : i64 n = .ok (Int64.ofInt n) := by
  have hmin : Int64.minValue.toInt = -9223372036854775808 := by decide
  have hmax : Int64.maxValue.toInt = 9223372036854775807 := by decide
  rw [kInt64Max_eq] at hn
  rw [i64, if_pos (by omega)]

theorem i64_of_le (hv : v ≤ kInt64Max) : i64 v = .ok (Int64.ofNat v) :=
  i64_eq_ok (Int.natAbs_natCast v ▸ hv)

section Bind
variable {α : Type}

/-- A multiplication by ten that does not overflow. -/
theorem i64_shift (h : v * 10 ≤ kInt64Max) (k : Int64 → Except Stop α) :
    (do let shifted ← i64 ((Int64.ofNat v).toInt * 10); k shifted) = k (Int64.ofNat (v * 10)) := by
  have hshift : (Int64.ofNat v).toInt * 10 = (v * 10 : Nat) := by
    rw [toInt_ofNat_of_le (by omega)]
    rfl
  rw [hshift, i64_of_le h]
  rfl

/-- A digit appended without an overflow. -/
theorem i64_shift_add {d : Nat} (h : v * 10 + d ≤ kInt64Max) (k : Int64 → Except Stop α) :
    (do let shifted ← i64 ((Int64.ofNat v).toInt * 10)
        let value ← i64 (shifted.toInt + d)
        k value) = k (Int64.ofNat (v * 10 + d)) := by
  have hshift : v * 10 ≤ kInt64Max := by omega
  rw [i64_shift hshift, toInt_ofNat_of_le hshift, ← Int.natCast_add, i64_of_le h]
  rfl

end Bind

/-- A comparison with a constant is one of natural numbers. -/
theorem ofNat_gt_iff {k : Nat} (hv : v ≤ kInt64Max) (hk : k ≤ kInt64Max) :
    Int64.ofNat v > Int64.ofNat k ↔ v > k := by
  rw [gt_iff_lt, Int64.lt_iff_toInt_lt, toInt_ofNat_of_le hv, toInt_ofNat_of_le hk, Int.ofNat_lt]

theorem digitGuard_iff (hv : v ≤ kInt64Max) :
    Int64.ofNat v > (Int64.maxValue - 9) / 10 ↔ v > (kInt64Max - 9) / 10 := by
  have hconst : (Int64.maxValue - 9) / 10 = Int64.ofNat ((kInt64Max - 9) / 10) := by decide
  rw [hconst]
  exact ofNat_gt_iff hv (by decide)

theorem scaleGuard_iff (hv : v ≤ kInt64Max) :
    Int64.ofNat v > Int64.maxValue / 10 ↔ v > kInt64Max / 10 := by
  have hconst : Int64.maxValue / 10 = Int64.ofNat (kInt64Max / 10) := by decide
  rw [hconst]
  exact ofNat_gt_iff hv (by decide)

/-- A digit past the guard. -/
theorem digit_step_le {c : Char} (hc : ¬ (c < '0' ∨ c > '9'))
    (hguard : ¬ v > (kInt64Max - 9) / 10) : v * 10 + (c.toNat - '0'.toNat) ≤ kInt64Max := by
  have hlimit := (guard_iff (isDigit_iff.mpr hc) v).mp (Nat.not_lt.mp hguard)
  rw [kDigitLimit] at hlimit
  rw [kInt64Max_eq]
  omega

variable {scale fracDigits : Int} {seenDot anyDigit : Bool}

theorem decimalLoop_le {cs : List Char} {r : Nat × Int × Bool} (hv : v ≤ kInt64Max)
    (h : decimalLoop scale cs v fracDigits seenDot anyDigit = some r) : r.1 ≤ kInt64Max := by
  induction cs generalizing v fracDigits seenDot anyDigit with
  | nil =>
    cases h
    exact hv
  | cons c cs ih =>
    rw [decimalLoop] at h
    split_ifs at h with hdot hseen hdigit hplaces hzero hguard
    · exact ih hv h
    · exact ih hv h
    · exact ih (digit_step_le hdigit hguard) h
    · exact ih (digit_step_le hdigit hguard) h

/-- **No operation of the digit loop overflows**: it runs like the one on natural numbers. -/
theorem decimalLoopI64_eq {cs : List Char} (hv : v ≤ kInt64Max) :
    decimalLoopI64 scale cs (Int64.ofNat v) fracDigits seenDot anyDigit =
      orReturnFalse (fun r => (Int64.ofNat r.1, r.2))
        (decimalLoop scale cs v fracDigits seenDot anyDigit) := by
  induction cs generalizing v fracDigits seenDot anyDigit with
  | nil => rfl
  | cons c cs ih =>
    rw [decimalLoopI64, decimalLoop]
    simp only [digitGuard_iff hv]
    split_ifs with hdot hseen hdigit hplaces hzero hguard
    · rfl
    · exact ih hv
    · rfl
    · rfl
    · exact ih hv
    · rfl
    · exact (i64_shift_add (digit_step_le hdigit hguard) _).trans
        (ih (digit_step_le hdigit hguard))
    · exact (i64_shift_add (digit_step_le hdigit hguard) _).trans
        (ih (digit_step_le hdigit hguard))

theorem scaleUp_le {k w : Nat} (hv : v ≤ kInt64Max) (h : scaleUp k v = some w) :
    w ≤ kInt64Max := by
  induction k generalizing v with
  | zero =>
    cases h
    exact hv
  | succ k ih =>
    rw [scaleUp] at h
    split_ifs at h with hguard
    exact ih (by omega) h

/-- **No operation of the scaling loop overflows.** -/
theorem scaleUpI64_eq {k : Nat} (hv : v ≤ kInt64Max) :
    scaleUpI64 k (Int64.ofNat v) = orReturnFalse Int64.ofNat (scaleUp k v) := by
  induction k generalizing v with
  | zero => rfl
  | succ k ih =>
    rw [scaleUpI64, scaleUp]
    simp only [scaleGuard_iff hv]
    split_ifs with hguard
    · rfl
    · have hstep : v * 10 ≤ kInt64Max := by omega
      exact (i64_shift hstep _).trans (ih hstep)

theorem scaledI64_eq (s : List Char) (scale : Int) :
    scaledI64 s scale = orReturnFalse id (decimalToScaled s scale) := by
  rw [scaledI64, decimalToScaled]
  split_ifs with hempty
  · rfl
  dsimp only
  generalize (s.head? == some '-') = neg
  generalize (if neg = true then s.tail else s) = digits
  rw [show (0 : Int64) = Int64.ofNat 0 from rfl, decimalLoopI64_eq (Nat.zero_le _)]
  rcases hloop : decimalLoop scale digits 0 0 false false with - | ⟨value, fracDigits, anyDigit⟩
  · rfl
  have hvalue : value ≤ kInt64Max := decimalLoop_le (Nat.zero_le _) hloop
  cases anyDigit
  · rfl
  change (do let value ← scaleUpI64 (scale - fracDigits).toNat (Int64.ofNat value)
             if neg then i64 (-value.toInt) else .ok value) = _
  rw [scaleUpI64_eq hvalue]
  dsimp only
  rcases hscale : scaleUp (scale - fracDigits).toNat value with - | w
  · rfl
  have hw : w ≤ kInt64Max := scaleUp_le hvalue hscale
  cases neg
  · rfl
  · change i64 (-(Int64.ofNat w).toInt) = _
    rw [toInt_ofNat_of_le hw, i64_eq_ok (by rwa [Int.natAbs_neg, Int.natAbs_natCast])]
    rfl

/-- **The arithmetic of `DecimalToScaled` never overflows**: the call returns what the model
on natural numbers says, and leaves `out` alone if that is nothing. -/
theorem decimalToScaledI64_eq (s : List Char) (scale : Int) (out : Int64) :
    decimalToScaledI64 s scale out =
      .ok (match decimalToScaled s scale with
        | none => (false, out)
        | some v => (true, v)) := by
  rw [decimalToScaledI64, scaledI64_eq]
  rcases decimalToScaled s scale with - | v <;> rfl

end Arithmetic

/-- **`DecimalToScaled` accepts exactly its grammar and is exact.**  For every text and every
number of places the call returns without an overflow.  It succeeds if and only if the text
is a numeral with nothing but zeros behind the places and a scaled value of at most
9223372036854775799, or of 9223372036854775800 with a place left open; `out` is then the
scaled value, and otherwise what it was. -/
theorem decimalToScaled_exact (s : List Char) (scale : Nat) (out : Int64) :
    ∃ ok out', decimalToScaledI64 s scale out = .ok (ok, out') ∧
      (ok = true ↔ ∃ n : Numeral, n.spell = s ∧ n.Within scale ∧
        (|n.value| * 10 ^ scale ≤ 9223372036854775799 ∨
          |n.value| * 10 ^ scale = 9223372036854775800 ∧ n.fraction.length < scale)) ∧
      (ok = true → ∀ n : Numeral, n.spell = s → (out'.toInt : ℚ) = n.value * 10 ^ scale) ∧
      (ok = false → out' = out) := by
  rw [decimalToScaledI64_eq]
  simp only [← fits_iff_value]
  rcases hs : decimalToScaled s scale with - | v
  · refine ⟨false, out, rfl, iff_of_false Bool.false_ne_true ?_, nofun, fun _ => rfl⟩
    rintro ⟨n, rfl, hfits⟩
    rw [decimalToScaled_spell, if_pos hfits] at hs
    cases hs
  · refine ⟨true, v, rfl, iff_of_true rfl ?_, ?_, nofun⟩
    · obtain ⟨n, rfl⟩ := exists_spell_of_decimalToScaled hs
      exact ⟨n, rfl, (decimalToScaled_spell_eq_some.mp hs).1⟩
    · rintro - n rfl
      exact (decimalToScaled_spell_eq_some.mp hs).2

-- the same number, without and with the places written out
example : decimalToScaled "92233720368547758".toList 2 = some 9223372036854775800 := by decide

example : decimalToScaled "92233720368547758.00".toList 2 = none := by decide

/-! ## Writing and reading -/

section RoundTrip
variable {scale : Nat}

/-- All places are written, so the digit loop alone decides. -/
theorem fits_fixedPoint (neg : Bool) (m : Nat) :
    Fits (fixedPoint neg m scale) scale ↔ m ≤ kDigitLimit := by
  rw [Fits, scaled_fixedPoint, length_fraction_fixedPoint]
  exact ⟨fun h => by omega, fun h => ⟨within_fixedPoint neg m scale, .inl h⟩⟩

/-- The sign and the magnitude of an `i64`. -/
theorem sign_mul_natAbs (v : Int64) :
    (fixedPoint (decide (v < 0)) v.toInt.natAbs scale).sign * v.toInt.natAbs = v.toInt := by
  rw [sign, fixedPoint]
  by_cases hneg : v < 0
  · have : v.toInt < 0 := Int64.lt_iff_toInt_lt.mp hneg
    simp only [hneg, decide_true, if_true]
    omega
  · have : 0 ≤ v.toInt := Int.not_lt.mp fun h => hneg (Int64.lt_iff_toInt_lt.mpr h)
    simp only [hneg, decide_false, Bool.false_eq_true, if_false]
    omega

/-- What is written for `v` denotes `v` units of the last place. -/
theorem value_fixedPoint (v : Int64) :
    (fixedPoint (decide (v < 0)) v.toInt.natAbs scale).value * 10 ^ scale = (v.toInt : ℚ) := by
  rw [value_mul_pow (within_fixedPoint _ _ scale), scaled_fixedPoint, sign_mul_natAbs]

end RoundTrip

/-- **The decimal codec is a round trip.**  With up to 19 places, what `ScaledToDecimal`
writes is read back as the same value, or rejected if the magnitude is above
9223372036854775799.  What `DecimalToScaled` accepts and what `ScaledToDecimal` writes for
the result are numerals of the same value, the second with all places written out. -/
theorem decimal_codec_round_trip (scale : Nat) (hscale : scale ≤ 19) :
    (∀ v : Int64, ∃ s, scaledToDecimal v scale = some s ∧
      decimalToScaled s scale = if v.toInt.natAbs ≤ 9223372036854775799 then some v else none) ∧
    ∀ (s : List Char) (v : Int64), decimalToScaled s scale = some v →
      ∃ m : Numeral, scaledToDecimal v scale = some m.spell ∧ m.fraction.length = scale ∧
        (∃ n : Numeral, n.spell = s) ∧ ∀ n : Numeral, n.spell = s → m.value = n.value := by
  constructor
  · intro v
    refine ⟨_, scaledToDecimal_spell v hscale, ?_⟩
    rw [decimalToScaled_spell, scaled_fixedPoint, sign_mul_natAbs, Int64.ofInt_toInt]
    simp only [fits_fixedPoint, kDigitLimit]
  · intro s v hs
    refine ⟨_, scaledToDecimal_spell v hscale, length_fraction_fixedPoint _ _ scale,
      exists_spell_of_decimalToScaled hs, ?_⟩
    rintro n rfl
    have hpow : (10 : ℚ) ^ scale ≠ 0 := pow_ne_zero _ (by norm_num)
    have hread := (decimalToScaled_spell_eq_some.mp hs).2
    exact mul_right_cancel₀ hpow ((value_fixedPoint v).trans hread)

/-- Two places: the least `i64` is written and not read back, and a text with a zero too
many is written as its value with two places. -/
theorem decimal_codec_two_places :
    2 ≤ 19 ∧ decimalToScaled "65123.450".toList 2 = some 6512345 ∧
      (∃ s, scaledToDecimal Int64.minValue 2 = some s ∧ decimalToScaled s 2 = none) ∧
      ∃ m : Numeral, scaledToDecimal 6512345 2 = some m.spell ∧ m.fraction.length = 2 := by
  have hread : decimalToScaled "65123.450".toList (2 : Nat) = some 6512345 := by decide
  obtain ⟨s, hs, hrejected⟩ := (decimal_codec_round_trip 2 (by decide)).1 Int64.minValue
  obtain ⟨m, hm, hlength, -⟩ := (decimal_codec_round_trip 2 (by decide)).2 _ _ hread
  exact ⟨by decide, hread, ⟨s, hs, hrejected⟩, m, hm, hlength⟩

end Asmm
