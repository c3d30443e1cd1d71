import Mathlib.Algebra.Order.Field.Rat
import Mathlib.Algebra.Order.Ring.Abs
import Mathlib.Tactic.Ring

/-! # Decimal numerals

A numeral is an optional minus sign, digits, and possibly a point with more digits, with at
least one digit in all.  Its value is a rational number.  Scaling by a power of ten turns the
value into an integer as long as only zeros stand behind so many places
(`value_mul_pow`).  A text spells one numeral at most (`spell_injective`), so it denotes one
value at most, and `read` finds the numeral (`read_spell`). -/
namespace Numerals

/-- All digits are zero. -/
def Zeros (ds : List Char) : Prop := ∀ c ∈ ds, c = '0'

instance (ds : List Char) : Decidable (Zeros ds) := List.decidableBAll (fun c => c = '0') ds

@[simp] theorem zeros_nil : Zeros [] := by simp [Zeros]

@[simp] theorem zeros_cons {c : Char} {ds : List Char} : Zeros (c :: ds) ↔ c = '0' ∧ Zeros ds :=
  List.forall_mem_cons

structure Numeral where
  neg : Bool
  whole : List Char
  frac : Option (List Char)
  whole_digits : ∀ c ∈ whole, c.isDigit = true
  frac_digits : ∀ c ∈ frac.getD [], c.isDigit = true
  any_digit : whole ≠ [] ∨ frac.getD [] ≠ []

namespace Numeral
variable (n : Numeral)

/-- The digits behind the point. -/
def fraction : List Char := n.frac.getD []

/-- What stands behind the whole part. -/
def tail : Option (List Char) → List Char
  | none => []
  | some ds => '.' :: ds

/-- The text of a numeral. -/
def spell : List Char := (if n.neg then ['-'] else []) ++ (n.whole ++ tail n.frac)

def sign : Int := if n.neg then -1 else 1

def value : ℚ :=
  n.sign * Nat.ofDigitChars 10 (n.whole ++ n.fraction) 0 / 10 ^ n.fraction.length

/-- Only zeros stand behind the first `scale` places. -/
def Within (scale : Nat) : Prop := Zeros (n.fraction.drop scale)

instance (scale : Nat) : Decidable (n.Within scale) :=
  inferInstanceAs (Decidable (Zeros (n.fraction.drop scale)))

/-- The magnitude in units of the last of `scale` places, if nothing stands behind them. -/
def scaled (scale : Nat) : Nat :=
  Nat.ofDigitChars 10 (n.whole ++ n.fraction.take scale) 0 * 10 ^ (scale - n.fraction.length)

/-- The text without its sign. -/
def unsigned : List Char := n.whole ++ tail n.frac

/-- Without its sign a numeral starts with a digit or with the point. -/
theorem exists_head_unsigned :
    ∃ c cs, n.unsigned = c :: cs ∧ (c.isDigit = true ∨ c = '.') := by
  rcases hwhole : n.whole with - | ⟨c, cs⟩
  · rcases hfrac : n.frac with - | ds
    · exact absurd n.any_digit (by simp [hwhole, hfrac])
    · exact ⟨'.', ds, by simp [unsigned, hwhole, hfrac, tail], .inr rfl⟩
  · refine ⟨c, cs ++ tail n.frac, by simp [unsigned, hwhole], .inl (n.whole_digits c ?_)⟩
    simp [hwhole]

theorem spell_ne_nil : n.spell ≠ [] := by
  obtain ⟨c, cs, hcs, -⟩ := n.exists_head_unsigned
  rw [spell, ← unsigned, hcs]
  simp

/-- The sign is read off the first character. -/
theorem head?_spell : (n.spell.head? == some '-') = n.neg := by
  obtain ⟨c, cs, hcs, hc⟩ := n.exists_head_unsigned
  rw [spell, ← unsigned, hcs]
  cases n.neg
  · have hne : c ≠ '-' := by
      rcases hc with hc | rfl
      · rintro rfl
        cases hc
      · decide
    simpa using hne
  · simp

theorem spell_drop_sign : (if n.neg then n.spell.tail else n.spell) = n.unsigned := by
  rw [spell, ← unsigned]
  cases n.neg <;> simp

variable {n} {m : Numeral} {scale : Nat}

/-- The whole part ends where the digits end. -/
theorem takeWhile_unsigned : n.unsigned.takeWhile Char.isDigit = n.whole := by
  rw [unsigned, List.takeWhile_append_of_pos n.whole_digits]
  cases n.frac with
  | none => exact List.append_nil _
  | some ds => exact List.append_nil _

/-- The digits behind the point, where there is one. -/
def fracOf : List Char → Option (List Char)
  | '.' :: ds => some ds
  | _ => none

theorem fracOf_tail (frac : Option (List Char)) : fracOf (tail frac) = frac := by
  cases frac <;> rfl

theorem any_digit_of_append {ds es : List Char} (h : (ds ++ es).isEmpty = false) :
    ds ≠ [] ∨ es ≠ [] := by
  cases ds with
  | nil => exact Or.inr (List.isEmpty_eq_false_iff.mp h)
  | cons => exact Or.inl (List.cons_ne_nil _ _)

/-- The numeral that a text spells. -/
def read (text : List Char) : Option Numeral :=
  let neg := text.head? == some '-'
  let unsigned := if neg then text.tail else text
  let whole := unsigned.takeWhile Char.isDigit
  let frac := fracOf (unsigned.dropWhile Char.isDigit)
  if h : (frac.getD []).all Char.isDigit = true ∧ (whole ++ frac.getD []).isEmpty = false ∧
      (tail frac == unsigned.dropWhile Char.isDigit) = true then
    some ⟨neg, whole, frac, List.all_eq_true.mp List.all_takeWhile, List.all_eq_true.mp h.1,
      any_digit_of_append h.2.1⟩
  else none

theorem dropWhile_unsigned : n.unsigned.dropWhile Char.isDigit = tail n.frac := by
  have hsplit := List.takeWhile_append_dropWhile (p := Char.isDigit) (l := n.unsigned)
  rw [takeWhile_unsigned, unsigned] at hsplit
  exact List.append_cancel_left hsplit

theorem read_spell (n : Numeral) : read n.spell = some n := by
  simp only [read, head?_spell, spell_drop_sign, takeWhile_unsigned, dropWhile_unsigned,
    fracOf_tail]
  have hany : (n.whole ++ n.frac.getD []).isEmpty = false := by
    rw [List.isEmpty_eq_false_iff, Ne, List.append_eq_nil_iff, not_and_or]
    exact n.any_digit
  exact dif_pos ⟨List.all_eq_true.mpr n.frac_digits, hany, beq_self_eq_true _⟩

/-- **A text is the spelling of one numeral at most.** -/
theorem spell_injective (h : n.spell = m.spell) : n = m :=
  Option.some.inj (by rw [← read_spell n, h, read_spell])

/-- The text is a numeral of value `x`. -/
def Denotes (text : List Char) (x : ℚ) : Prop := ∃ n : Numeral, n.spell = text ∧ n.value = x

theorem denotes_spell {x : ℚ} : Denotes n.spell x ↔ n.value = x := by
  constructor
  · rintro ⟨m, hspell, hvalue⟩
    rwa [← spell_injective hspell]
  · intro hvalue
    exact ⟨n, rfl, hvalue⟩

/-- The digits behind the first `scale` places only shift the others. -/
theorem Within.ofDigitChars_eq (h : n.Within scale) :
    Nat.ofDigitChars 10 (n.whole ++ n.fraction) 0 * 10 ^ scale =
      n.scaled scale * 10 ^ n.fraction.length := by
  have hzeros : n.fraction.drop scale = List.replicate (n.fraction.length - scale) '0' :=
    List.eq_replicate_iff.mpr ⟨List.length_drop, h⟩
  have hsplit : Nat.ofDigitChars 10 (n.whole ++ n.fraction) 0 =
      10 ^ (n.fraction.length - scale) *
        Nat.ofDigitChars 10 (n.whole ++ n.fraction.take scale) 0 := by
    conv_lhs => rw [← List.take_append_drop scale n.fraction, hzeros, ← List.append_assoc,
      Nat.ofDigitChars_append, Nat.ofDigitChars_replicate_zero]
  have hpow : 10 ^ (n.fraction.length - scale) * 10 ^ scale =
      10 ^ (scale - n.fraction.length) * 10 ^ n.fraction.length := by
    rw [← Nat.pow_add, ← Nat.pow_add]
    congr 1
    omega
  rw [hsplit, scaled]
  calc _ = Nat.ofDigitChars 10 (n.whole ++ n.fraction.take scale) 0 *
        (10 ^ (n.fraction.length - scale) * 10 ^ scale) := by ring
    _ = _ := by rw [hpow]; ring

/-- **The scaled value is an integer** if nothing stands behind the places. -/
theorem value_mul_pow (h : n.Within scale) :
    n.value * 10 ^ scale = ((n.sign * n.scaled scale : Int) : ℚ) := by
  have hdigits : (Nat.ofDigitChars 10 (n.whole ++ n.fraction) 0 : ℚ) * 10 ^ scale =
      n.scaled scale * 10 ^ n.fraction.length := by exact_mod_cast h.ofDigitChars_eq
  have hne : (10 : ℚ) ^ n.fraction.length ≠ 0 := pow_ne_zero _ (by norm_num)
  rw [value, div_mul_eq_mul_div, div_eq_iff hne, mul_assoc, hdigits]
  push_cast
  ring

theorem abs_value_mul_pow (h : n.Within scale) : |n.value| * 10 ^ scale = n.scaled scale := by
  have hpos : (0 : ℚ) ≤ 10 ^ scale := pow_nonneg (by norm_num) _
  rw [← abs_of_nonneg hpos, ← abs_mul, value_mul_pow h, sign]
  cases n.neg <;> simp

end Numeral

/-! ## Fixed point -/

/-- The digits of a number, filled up with zeros on the left. -/
def padded (width m : Nat) : List Char :=
  List.replicate (width - (Nat.toDigits 10 m).length) '0' ++ Nat.toDigits 10 m

theorem padded_digits (width m : Nat) : ∀ c ∈ padded width m, c.isDigit = true := by
  intro c hc
  rcases List.mem_append.mp hc with hc | hc
  · rw [List.eq_of_mem_replicate hc]
    rfl
  · exact Nat.isDigit_of_mem_toDigits (by decide) (by decide) hc

theorem ofDigitChars_padded (width m : Nat) : Nat.ofDigitChars 10 (padded width m) 0 = m := by
  rw [padded, Nat.ofDigitChars_append, Nat.ofDigitChars_replicate_zero, Nat.mul_zero,
    Nat.ofDigitChars_ten_toDigits]

theorem length_padded {width m : Nat} (hwidth : 0 < width) (h : m < 10 ^ width) :
    (padded width m).length = width := by
  have hle := (Nat.length_toDigits_le_iff (by decide) hwidth).mpr h
  rw [padded, List.length_append, List.length_replicate]
  omega

/-- The digits of two numbers with the point between them, the second filled up to `scale`
places. -/
def ofParts (neg : Bool) (whole frac scale : Nat) : Numeral where
  neg := neg
  whole := Nat.toDigits 10 whole
  frac := some (padded scale frac)
  whole_digits := fun _ hc => Nat.isDigit_of_mem_toDigits (by decide) (by decide) hc
  frac_digits := padded_digits scale frac
  any_digit := .inl Nat.toDigits_ne_nil

theorem value_ofParts (neg : Bool) (whole : Nat) {frac scale : Nat} (hscale : 0 < scale)
    (hfrac : frac < 10 ^ scale) :
    (ofParts neg whole frac scale).value =
      (if neg then -1 else 1 : Int) * ((whole * 10 ^ scale + frac : Nat) : ℚ) / 10 ^ scale := by
  have hlength : (ofParts neg whole frac scale).fraction.length = scale :=
    length_padded hscale hfrac
  have hdigits : Nat.ofDigitChars 10
      ((ofParts neg whole frac scale).whole ++ (ofParts neg whole frac scale).fraction) 0 =
        whole * 10 ^ scale + frac := by
    rw [Nat.ofDigitChars_append, Nat.ofDigitChars_eq_ofDigitChars_zero, hlength]
    change 10 ^ scale * Nat.ofDigitChars 10 (Nat.toDigits 10 whole) 0 +
      Nat.ofDigitChars 10 (padded scale frac) 0 = _
    rw [Nat.ofDigitChars_ten_toDigits, ofDigitChars_padded, Nat.mul_comm]
  rw [Numeral.value, hlength, hdigits, Numeral.sign]
  rfl

/-- The numeral of `m` units of the last of `scale` places, with all places written out. -/
def fixedPoint (neg : Bool) (m scale : Nat) : Numeral where
  neg := neg
  whole := Nat.toDigits 10 (m / 10 ^ scale)
  frac := if scale = 0 then none else some (padded scale (m % 10 ^ scale))
  whole_digits := fun _ hc => Nat.isDigit_of_mem_toDigits (by decide) (by decide) hc
  frac_digits := by
    split
    · nofun
    · exact padded_digits scale _
  any_digit := .inl Nat.toDigits_ne_nil

section FixedPoint
variable (neg : Bool) (m scale : Nat)

theorem fixedPoint_eq_ofParts {scale : Nat} (hscale : 0 < scale) :
    fixedPoint neg m scale = ofParts neg (m / 10 ^ scale) (m % 10 ^ scale) scale := by
  simp [fixedPoint, ofParts, hscale.ne']

@[simp] theorem length_fraction_fixedPoint : (fixedPoint neg m scale).fraction.length = scale := by
  rw [Numeral.fraction, fixedPoint]
  by_cases hscale : scale = 0
  · simp [hscale]
  · have hlt := Nat.mod_lt m (Nat.pow_pos (n := scale) (by decide : 0 < 10))
    simpa [hscale] using length_padded (Nat.pos_of_ne_zero hscale) hlt

theorem ofDigitChars_fraction_fixedPoint :
    Nat.ofDigitChars 10 (fixedPoint neg m scale).fraction 0 = m % 10 ^ scale := by
  rw [Numeral.fraction, fixedPoint]
  by_cases hscale : scale = 0
  · simp [hscale, Nat.mod_one]
  · simpa [hscale] using ofDigitChars_padded scale (m % 10 ^ scale)

theorem within_fixedPoint : (fixedPoint neg m scale).Within scale := by
  intro c hc
  rw [List.drop_of_length_le (length_fraction_fixedPoint neg m scale).le] at hc
  cases hc

@[simp] theorem scaled_fixedPoint : (fixedPoint neg m scale).scaled scale = m := by
  have hall : (fixedPoint neg m scale).fraction.take scale = (fixedPoint neg m scale).fraction :=
    List.take_of_length_le (length_fraction_fixedPoint neg m scale).le
  rw [Numeral.scaled, hall, length_fraction_fixedPoint, Nat.sub_self, Nat.pow_zero, Nat.mul_one,
    Nat.ofDigitChars_append, Nat.ofDigitChars_eq_ofDigitChars_zero, length_fraction_fixedPoint,
    ofDigitChars_fraction_fixedPoint]
  change 10 ^ scale * Nat.ofDigitChars 10 (Nat.toDigits 10 (m / 10 ^ scale)) 0 + _ = m
  rw [Nat.ofDigitChars_ten_toDigits, Nat.div_add_mod]

end FixedPoint
end Numerals
