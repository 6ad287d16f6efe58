import Formulary.Proofs.Number.Digits
import Formulary.Proofs.Number.Rounding
import Mathlib.Algebra.Order.Field.Power
/-!
The shortest decimal of a number is read as the number (`nearestMagnitude_shortestDecimal`). If a
neighbour with few digits is written, that was checked before; otherwise it is the exact value, which
is nearest to the number itself (`nearestMagnitude_fraction`). Main definition: `Decimal.value`, on
which alone the nearest number depends (`Decimal.nearestMagnitude_congr`).
-/

set_option autoImplicit false
set_option relaxedAutoImplicit false

namespace Formulary

/-! ### The value of a decimal -/

namespace Decimal

/-- The value of a decimal as a rational number. -/
def value (decimal : Decimal) : ℚ :=
  decimal.coefficient * (10 : ℚ) ^ decimal.exponent

theorem value_eq_div (decimal : Decimal) :
    decimal.value = (decimal.numerator : ℚ) / decimal.denominator := by
  have hpower := @zpow_eq_div 10 (by decide) decimal.exponent
  simp only [value, numerator, denominator, Nat.pow_eq]
  push_cast at hpower ⊢
  rw [hpower, mul_div_assoc]

theorem denominator_pos (decimal : Decimal) : 0 < decimal.denominator :=
  Nat.pow_pos (by decide)

theorem value_pos {decimal : Decimal} (h : decimal.coefficient ≠ 0) : 0 < decimal.value := by
  have hpositive : (0 : ℚ) < decimal.coefficient := by exact_mod_cast Nat.pos_of_ne_zero h
  unfold value
  positivity

/-- The order of a decimal is one above the logarithm of its value. -/
theorem order_eq_log {decimal : Decimal} (h : decimal.coefficient ≠ 0) :
    decimal.order = Int.log 10 decimal.value + 1 := by
  obtain ⟨coefficient, exponent⟩ := decimal
  have hpower : (0 : ℚ) < 10 ^ exponent := by positivity
  have hsome : 0 < (digitsOf coefficient).length := List.length_pos_iff.mpr (digitsOf_ne_nil _)
  obtain ⟨width, hwidth⟩ := Nat.exists_eq_add_one_of_ne_zero hsome.ne'
  have hhigh : (coefficient : ℚ) < 10 ^ (width + 1) := by
    rw [← hwidth]
    exact_mod_cast (length_digitsOf_le_iff hsome).mp le_rfl
  have hlow : (10 : ℚ) ^ width ≤ coefficient := by
    rcases Nat.eq_zero_or_pos width with rfl | hpositive
    · exact_mod_cast Nat.pos_of_ne_zero h
    · refine le_of_not_gt fun hless ↦ ?_
      have hfits := (length_digitsOf_le_iff hpositive).mpr (by exact_mod_cast hless)
      omega
  have hless : Int.log 10 (value ⟨coefficient, exponent⟩) < width + 1 + exponent := by
    refine (Int.lt_zpow_iff_log_lt (by decide) (value_pos h)).mp ?_
    push_cast
    rw [zpow_add₀ (by norm_num)]
    exact mul_lt_mul_of_pos_right (by exact_mod_cast hhigh) hpower
  have hmore : (width : Int) + exponent ≤ Int.log 10 (value ⟨coefficient, exponent⟩) := by
    refine (Int.zpow_le_iff_le_log (by decide) (value_pos h)).mp ?_
    push_cast
    rw [zpow_add₀ (by norm_num)]
    exact mul_le_mul_of_nonneg_right (by exact_mod_cast hlow) hpower.le
  simp only [order, hwidth]
  push_cast
  omega

/-- The nearest magnitude depends on the value alone. -/
theorem nearestMagnitude_congr {first second : Decimal} (h : first.value = second.value) :
    first.nearestMagnitude = second.nearestMagnitude := by
  have hzero (decimal : Decimal) : decimal.coefficient = 0 ↔ decimal.value = 0 := by
    refine ⟨fun hnone ↦ by simp [value, hnone], fun hvalue ↦ ?_⟩
    by_contra hsome
    exact (value_pos hsome).ne' hvalue
  by_cases hnone : first.coefficient = 0
  · have hnone' : second.coefficient = 0 := by rw [hzero, ← h, ← hzero, hnone]
    simp [nearestMagnitude, hnone, hnone']
  · have hsome' : second.coefficient ≠ 0 := by rwa [Ne, hzero, ← h, ← hzero]
    have horder : first.order = second.order := by
      rw [order_eq_log hnone, order_eq_log hsome', h]
    have hcross : first.numerator * second.denominator =
        second.numerator * first.denominator := by
      have hpositive : (first.denominator : ℚ) ≠ 0 := by exact_mod_cast first.denominator_pos.ne'
      have hpositive' : (second.denominator : ℚ) ≠ 0 := by exact_mod_cast second.denominator_pos.ne'
      rw [value_eq_div, value_eq_div, div_eq_div_iff hpositive hpositive'] at h
      exact_mod_cast h
    simp only [nearestMagnitude, horder, hnone, hsome',
      Formulary.nearestMagnitude_congr first.denominator_pos second.denominator_pos hcross]

/-- A natural number of 64 bits is nearest to a finite number. -/
theorem nearestMagnitude_natural_lt {value : Nat} (h : value < 2 ^ 64) :
    nearestMagnitude ⟨value, 0⟩ < infiniteMagnitude := by
  have hlength : (digitsOf value).length ≤ 20 :=
    (length_digitsOf_le_iff (by decide)).mpr (h.trans (by decide))
  have horder : ¬ 310 < order ⟨value, 0⟩ := by
    simp only [order]
    omega
  have hnumerator : numerator ⟨value, 0⟩ = value := Nat.mul_one value
  unfold nearestMagnitude
  split
  · decide
  · rw [hnumerator]
    exact nearestMagnitude_one_lt h

end Decimal

/-! ### The exact value of a number -/

namespace Number

theorem significand_lt (magnitude : Nat) : significand magnitude < 2 ^ 53 := by
  have hrest := Nat.mod_lt magnitude (by decide : 0 < leadingBit)
  unfold significand leadingBit at *
  split <;> omega

theorem significand_pos {magnitude : Nat} (h : 0 < magnitude) : 0 < significand magnitude := by
  unfold significand leadingBit
  split <;> omega

theorem scale_bounds {magnitude : Nat} (h : magnitude < infiniteMagnitude) :
    -1074 ≤ scale magnitude ∧ scale magnitude ≤ 971 := by
  unfold scale leadingBit
  unfold infiniteMagnitude at h
  omega

/-- Rounding keeps as many bits of the value of a number as the number has. -/
theorem max_log_eq_scale {magnitude : Nat} (h : 0 < magnitude) :
    max (Int.log 2 ((significand magnitude : ℚ) * 2 ^ scale magnitude) - 52) (-1074) =
      scale magnitude := by
  have hpower : (0 : ℚ) < 2 ^ scale magnitude := by positivity
  have hsome : (0 : ℚ) < significand magnitude := by exact_mod_cast significand_pos h
  have hpositive : (0 : ℚ) < (significand magnitude : ℚ) * 2 ^ scale magnitude := by positivity
  have hless (width : Nat) (hwidth : significand magnitude < 2 ^ width) :
      Int.log 2 ((significand magnitude : ℚ) * 2 ^ scale magnitude) < width + scale magnitude := by
    refine (Int.lt_zpow_iff_log_lt (by decide) hpositive).mp ?_
    push_cast
    rw [zpow_add₀ two_ne_zero]
    exact mul_lt_mul_of_pos_right (by exact_mod_cast hwidth) hpower
  have hmore (width : Nat) (hwidth : 2 ^ width ≤ significand magnitude) :
      width + scale magnitude ≤ Int.log 2 ((significand magnitude : ℚ) * 2 ^ scale magnitude) := by
    refine (Int.zpow_le_iff_le_log (by decide) hpositive).mp ?_
    push_cast
    rw [zpow_add₀ two_ne_zero]
    exact mul_le_mul_of_nonneg_right (by exact_mod_cast hwidth) hpower.le
  by_cases hsmall : magnitude < leadingBit
  · have hscale : scale magnitude = -1074 := by
      unfold scale leadingBit at *
      omega
    have hbits : significand magnitude < 2 ^ 52 := by
      unfold significand
      rwa [if_pos hsmall]
    have hlog := hless 52 hbits
    push_cast at hlog
    omega
  · have hscale : -1074 ≤ scale magnitude := by
      unfold scale leadingBit at *
      omega
    have hbits : 2 ^ 52 ≤ significand magnitude := by
      unfold significand
      rw [if_neg hsmall]
      exact Nat.le_add_right _ _
    have hlow := hmore 52 hbits
    have hhigh := hless 53 (significand_lt magnitude)
    push_cast at hlow hhigh
    omega

theorem fraction_eq (magnitude : Nat) :
    ((fraction magnitude).1 : ℚ) / (fraction magnitude).2 =
      (significand magnitude : ℚ) * 2 ^ scale magnitude := by
  have hpower := @zpow_eq_div 2 (by decide) (scale magnitude)
  simp only [fraction, Nat.pow_eq]
  push_cast at hpower ⊢
  rw [hpower, mul_div_assoc]

/-- The value of a number is nearest to the number itself. -/
theorem nearestMagnitude_fraction {magnitude : Nat} (hpositive : 0 < magnitude)
    (hfinite : magnitude < infiniteMagnitude) :
    nearestMagnitude (fraction magnitude).1 (fraction magnitude).2 = magnitude := by
  have hdenominator : 0 < (fraction magnitude).2 := Nat.pow_pos (by decide)
  have hnumerator : 0 < (fraction magnitude).1 :=
    Nat.mul_pos (significand_pos hpositive) (Nat.pow_pos (by decide))
  have hround : roundToEven ((fraction magnitude).1 * Nat.pow 2 (-scale magnitude).toNat)
      ((fraction magnitude).2 * Nat.pow 2 (scale magnitude).toNat) = significand magnitude := by
    have hfactor : 0 < Nat.pow 2 (scale magnitude).toNat * Nat.pow 2 (-scale magnitude).toNat :=
      Nat.mul_pos (Nat.pow_pos (by decide)) (Nat.pow_pos (by decide))
    have hnumerator : (fraction magnitude).1 * Nat.pow 2 (-scale magnitude).toNat =
        significand magnitude *
          (Nat.pow 2 (scale magnitude).toNat * Nat.pow 2 (-scale magnitude).toNat) :=
      Nat.mul_assoc _ _ _
    have hdenominator : (fraction magnitude).2 * Nat.pow 2 (scale magnitude).toNat =
        1 * (Nat.pow 2 (scale magnitude).toNat * Nat.pow 2 (-scale magnitude).toNat) := by
      rw [Nat.one_mul, Nat.mul_comm]
      rfl
    rw [hnumerator, hdenominator, roundToEven_mul hfactor]
    simp [roundToEven, Nat.mod_one]
  have hresult : (scale magnitude + 1074).toNat * leadingBit + significand magnitude =
      magnitude := by
    unfold scale significand leadingBit
    split <;> omega
  simp only [nearestMagnitude, if_neg hnumerator.ne', floorLog2_eq_log hnumerator hdenominator,
    fraction_eq, max_log_eq_scale hpositive, hround, hresult]
  exact Nat.min_eq_left hfinite.le

/-- The exact decimal has the value of the number. -/
theorem value_exactDecimal (magnitude : Nat) :
    (exactDecimal magnitude).value = (significand magnitude : ℚ) * 2 ^ scale magnitude := by
  have htwo := @zpow_eq_div 2 (by decide) (scale magnitude)
  have hten := @zpow_eq_div 10 (by decide) (scale magnitude)
  push_cast at htwo hten
  by_cases hscale : 0 ≤ scale magnitude
  · have hnone : (-scale magnitude).toNat = 0 := by omega
    rw [htwo, hnone]
    simp [exactDecimal, Decimal.value, hscale]
  · have hnone : (scale magnitude).toNat = 0 := by omega
    rw [exactDecimal, if_neg hscale, Decimal.value, htwo, hten, hnone]
    push_cast
    have hsplit : (10 : ℚ) ^ (-scale magnitude).toNat =
        2 ^ (-scale magnitude).toNat * 5 ^ (-scale magnitude).toNat := by
      rw [← mul_pow]
      norm_num
    rw [hsplit, Nat.pow_eq]
    push_cast
    field_simp

theorem coefficient_exactDecimal_ne_zero {magnitude : Nat} (h : 0 < magnitude) :
    (exactDecimal magnitude).coefficient ≠ 0 := by
  have hsome := significand_pos h
  unfold exactDecimal
  split
  · exact (Nat.mul_pos hsome (Nat.pow_pos (by decide))).ne'
  · exact (Nat.mul_pos hsome (Nat.pow_pos (by decide))).ne'

/-- The order of a finite number is well inside the range in which decimals are rounded. -/
theorem order_exactDecimal_bounds {magnitude : Nat} (hpositive : 0 < magnitude)
    (hfinite : magnitude < infiniteMagnitude) :
    -330 ≤ (exactDecimal magnitude).order ∧ (exactDecimal magnitude).order ≤ 310 := by
  have hcoefficient := coefficient_exactDecimal_ne_zero hpositive
  obtain ⟨hlow, hhigh⟩ := scale_bounds hfinite
  have hvalue := value_exactDecimal magnitude
  have hmore : (10 : ℚ) ^ (-331 : Int) ≤ (exactDecimal magnitude).value := by
    have hsome : (1 : ℚ) ≤ significand magnitude := by exact_mod_cast significand_pos hpositive
    have hpowers : (2 : ℚ) ^ 1074 ≤ 10 ^ 331 := by
      exact_mod_cast (by decide +kernel : 2 ^ 1074 ≤ 10 ^ 331)
    calc (10 : ℚ) ^ (-331 : Int)
        ≤ 2 ^ (-1074 : Int) := by
          rw [zpow_neg, zpow_neg, inv_le_inv₀ (by positivity) (by positivity)]
          exact hpowers
      _ ≤ 2 ^ scale magnitude := zpow_le_zpow_right₀ one_le_two hlow
      _ ≤ (exactDecimal magnitude).value := by
          rw [hvalue]
          exact le_mul_of_one_le_left (by positivity) hsome
  have hless : (exactDecimal magnitude).value < (10 : ℚ) ^ (310 : Int) := by
    have hbits : (significand magnitude : ℚ) < 2 ^ 53 := by exact_mod_cast significand_lt magnitude
    have hpowers : (2 : ℚ) ^ 53 * 2 ^ 971 ≤ 10 ^ 310 := by
      exact_mod_cast (by decide +kernel : 2 ^ 53 * 2 ^ 971 ≤ 10 ^ 310)
    calc (exactDecimal magnitude).value
        = significand magnitude * 2 ^ scale magnitude := hvalue
      _ < 2 ^ 53 * 2 ^ scale magnitude := mul_lt_mul_of_pos_right hbits (by positivity)
      _ ≤ 2 ^ 53 * 2 ^ (971 : Int) := by
          gcongr
          exact one_le_two
      _ ≤ 10 ^ (310 : Int) := hpowers
  have hpositive' := Decimal.value_pos hcoefficient
  have hlogLow : -331 ≤ Int.log 10 (exactDecimal magnitude).value :=
    (Int.zpow_le_iff_le_log (by decide) hpositive').mp hmore
  have hlogHigh : Int.log 10 (exactDecimal magnitude).value < 310 :=
    (Int.lt_zpow_iff_log_lt (by decide) hpositive').mp hless
  rw [Decimal.order_eq_log hcoefficient]
  omega

theorem nearestMagnitude_exactDecimal {magnitude : Nat} (hpositive : 0 < magnitude)
    (hfinite : magnitude < infiniteMagnitude) :
    (exactDecimal magnitude).nearestMagnitude = magnitude := by
  obtain ⟨hlow, hhigh⟩ := order_exactDecimal_bounds hpositive hfinite
  have hcoefficient := coefficient_exactDecimal_ne_zero hpositive
  have hsame : (exactDecimal magnitude).numerator * (fraction magnitude).2 =
      (fraction magnitude).1 * (exactDecimal magnitude).denominator := by
    have hvalue := value_exactDecimal magnitude
    have hdenominator : ((exactDecimal magnitude).denominator : ℚ) ≠ 0 := by
      exact_mod_cast (exactDecimal magnitude).denominator_pos.ne'
    have hdenominator' : ((fraction magnitude).2 : ℚ) ≠ 0 := by
      exact_mod_cast (Nat.pow_pos (by decide) : 0 < (fraction magnitude).2).ne'
    rw [Decimal.value_eq_div, ← fraction_eq, div_eq_div_iff hdenominator hdenominator'] at hvalue
    exact_mod_cast hvalue
  rw [Decimal.nearestMagnitude, if_neg (by omega), if_neg (by omega),
    Formulary.nearestMagnitude_congr (Decimal.denominator_pos _) (Nat.pow_pos (by decide)) hsame]
  exact nearestMagnitude_fraction hpositive hfinite

/-- The shortest decimal of a number is read as the number. -/
theorem nearestMagnitude_shortestDecimal (tie : Tie) {magnitude : Nat}
    (hfinite : magnitude < infiniteMagnitude) :
    (shortestDecimal tie magnitude).nearestMagnitude = magnitude := by
  unfold shortestDecimal
  by_cases hzero : magnitude = 0
  · rw [if_pos hzero, hzero]
    rfl
  rw [if_neg hzero]
  cases hfound : (List.range' 1 17).findSome? (neighbour? tie magnitude) with
  | none => exact nearestMagnitude_exactDecimal (Nat.pos_of_ne_zero hzero) hfinite
  | some decimal =>
    obtain ⟨digitCount, -, hneighbour⟩ := List.exists_of_findSome?_eq_some hfound
    have hchecked := @List.find?_some _
      (fun decimal : Decimal ↦ decimal.nearestMagnitude == magnitude) _ _ hneighbour
    exact beq_iff_eq.mp hchecked

end Number

end Formulary
