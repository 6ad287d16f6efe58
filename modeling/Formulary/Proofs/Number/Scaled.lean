import Formulary.Number.Scaled
import Formulary.Proofs.Number.Shortest
/-!
Numbers scaled by powers of ten. Dividing by a power of ten does not make a number greater, so whatever a
number is scaled to is in range (`scaledMagnitude?_lt`). If a significand and a power of ten are numbers
themselves, only the last step rounds, and the result is the number nearest to the decimal
(`scaledMagnitude?_eq_nearest`).
-/

set_option autoImplicit false
set_option relaxedAutoImplicit false

namespace Formulary.Number

/-! ### Scaled numbers are finite -/

theorem denominator_fraction_pos (magnitude : Nat) : 0 < (fraction magnitude).2 :=
  Nat.pow_pos (by decide)

theorem numerator_fraction_zero : (fraction 0).1 = 0 :=
  Nat.zero_mul _

/-- A magnitude from that of one upwards has at least the value one. -/
theorem denominator_le_numerator {magnitude : Nat} (h : 1023 * leadingBit ≤ magnitude) :
    (fraction magnitude).2 ≤ (fraction magnitude).1 := by
  have hbit : leadingBit ≤ significand magnitude := by
    unfold significand leadingBit at *
    split <;> omega
  have hscale : (-scale magnitude).toNat ≤ 52 := by
    unfold scale leadingBit at *
    omega
  calc (fraction magnitude).2
      = 2 ^ (-scale magnitude).toNat := rfl
    _ ≤ 2 ^ 52 := Nat.pow_le_pow_right (by decide) hscale
    _ ≤ significand magnitude := hbit
    _ ≤ significand magnitude * 2 ^ (scale magnitude).toNat :=
        Nat.le_mul_of_pos_right _ (Nat.two_pow_pos _)

theorem one_le_powerOfTen (exponent : Nat) : 1023 * leadingBit ≤ powerOfTen exponent := by
  calc 1023 * leadingBit
      = nearestMagnitude 1 1 := by decide
    _ ≤ powerOfTen exponent :=
        nearestMagnitude_mono Nat.one_pos Nat.one_pos
          (Nat.mul_le_mul_right 1 (Nat.pow_pos (by decide)))

/-- Dividing by a power of ten does not make a number greater. -/
theorem quotientMagnitude_powerOfTen_le {magnitude : Nat} (hfinite : magnitude < infiniteMagnitude)
    (exponent : Nat) : quotientMagnitude magnitude (powerOfTen exponent) ≤ magnitude := by
  have hpower := denominator_le_numerator (one_le_powerOfTen exponent)
  rcases Nat.eq_zero_or_pos magnitude with rfl | hpositive
  · simp [quotientMagnitude, numerator_fraction_zero, nearestMagnitude]
  · have hdivisor : 0 < (fraction magnitude).2 * (fraction (powerOfTen exponent)).1 :=
      Nat.mul_pos (denominator_fraction_pos _) ((denominator_fraction_pos _).trans_le hpower)
    calc quotientMagnitude magnitude (powerOfTen exponent)
        ≤ nearestMagnitude (fraction magnitude).1 (fraction magnitude).2 := by
          refine nearestMagnitude_mono hdivisor (denominator_fraction_pos _) ?_
          calc (fraction magnitude).1 * (fraction (powerOfTen exponent)).2 * (fraction magnitude).2
              = (fraction magnitude).1 *
                  ((fraction magnitude).2 * (fraction (powerOfTen exponent)).2) := by
                rw [Nat.mul_assoc, Nat.mul_comm (fraction (powerOfTen exponent)).2]
            _ ≤ (fraction magnitude).1 *
                  ((fraction magnitude).2 * (fraction (powerOfTen exponent)).1) :=
                Nat.mul_le_mul_left _ (Nat.mul_le_mul_left _ hpower)
      _ = magnitude := nearestMagnitude_fraction hpositive hfinite

theorem lowered_le {magnitude : Nat} (hfinite : magnitude < infiniteMagnitude) (count : Nat) :
    lowered magnitude count ≤ magnitude := by
  induction count generalizing magnitude with
  | zero => exact Nat.le_refl _
  | succ count ih =>
    rw [lowered]
    split
    · exact Nat.zero_le _
    · have hless := quotientMagnitude_powerOfTen_le hfinite greatestPower
      exact (ih (hless.trans_lt hfinite)).trans hless

/-- Whatever a finite magnitude is scaled to is finite. -/
theorem scaledMagnitude?_lt {magnitude scaled : Nat} {exponent : Int}
    (hfinite : magnitude < infiniteMagnitude)
    (h : scaledMagnitude? magnitude exponent = some scaled) : scaled < infiniteMagnitude := by
  unfold scaledMagnitude? at h
  split at h
  · obtain rfl := Option.some.inj h
    have hlowered := (lowered_le hfinite ((exponent.natAbs - 1) / greatestPower)).trans_lt hfinite
    exact (quotientMagnitude_powerOfTen_le hlowered _).trans_lt hlowered
  · split at h
    · obtain ⟨hless, hproduct⟩ := Option.ite_none_right_eq_some.mp h
      obtain rfl := Option.some.inj hproduct
      exact hless
    · obtain ⟨-, hzero⟩ := Option.ite_none_right_eq_some.mp h
      obtain rfl := Option.some.inj hzero
      decide

/-! ### Exact scaling -/

/-- A magnitude beyond the smallest ones, made of a place and a significand with its leading bit. -/
theorem significand_and_scale_eq (count : Nat) {shifted : Nat} (hlow : 2 ^ 52 ≤ shifted)
    (hhigh : shifted < 2 ^ 53) :
    significand (count * leadingBit + shifted) = shifted ∧
      scale (count * leadingBit + shifted) = count - 1074 := by
  constructor
  · unfold significand leadingBit
    split <;> omega
  · unfold scale leadingBit
    omega

/-- A natural number of 53 bits is a number of double precision. -/
theorem fraction_nearestMagnitude_natural {value : Nat} (h : value < 2 ^ 53) :
    (fraction (nearestMagnitude value 1)).1 = value * (fraction (nearestMagnitude value 1)).2 := by
  by_cases hzero : value = 0
  · have hnearest : nearestMagnitude value 1 = 0 := if_pos hzero
    rw [hnearest, numerator_fraction_zero, hzero, Nat.zero_mul]
  have hlog : Nat.log2 value < 53 := (Nat.log2_lt hzero).mpr h
  have hlow := Nat.log2_self_le hzero
  have hhigh := @Nat.lt_log2_self value
  generalize hbits : Nat.log2 value = bits at hlog hlow hhigh
  have hscale : max ((bits : Int) - 52) (-1074) = bits - 52 := by omega
  have hdown : (-((bits : Int) - 52)).toNat = 52 - bits := by omega
  have hup : ((bits : Int) - 52).toNat = 0 := by omega
  have hcount : ((bits : Int) - 52 + 1074).toNat = bits + 1022 := by omega
  have hshifted : 2 ^ 52 ≤ value * 2 ^ (52 - bits) ∧ value * 2 ^ (52 - bits) < 2 ^ 53 := by
    have hplaces : bits + (52 - bits) = 52 := by omega
    constructor
    · calc 2 ^ 52 = 2 ^ bits * 2 ^ (52 - bits) := by rw [← Nat.pow_add, hplaces]
        _ ≤ value * 2 ^ (52 - bits) := Nat.mul_le_mul_right _ hlow
    · calc value * 2 ^ (52 - bits)
          < 2 ^ (bits + 1) * 2 ^ (52 - bits) := Nat.mul_lt_mul_of_pos_right hhigh (Nat.two_pow_pos _)
        _ = 2 ^ 53 := by rw [← Nat.pow_add, Nat.add_right_comm, hplaces]
  have hnearest : nearestMagnitude value 1 =
      (bits + 1022) * leadingBit + value * 2 ^ (52 - bits) := by
    have hround := roundToEven_mul_self (value * 2 ^ (52 - bits)) Nat.one_pos
    rw [Nat.mul_one] at hround
    simp only [nearestMagnitude, if_neg hzero, floorLog2_one hzero, hbits, hscale, hdown, hup, hcount,
      Nat.pow_eq, Nat.pow_zero, Nat.mul_one, hround]
    refine Nat.min_eq_left ?_
    calc (bits + 1022) * leadingBit + value * 2 ^ (52 - bits)
        ≤ 1074 * leadingBit + 2 ^ 53 :=
          Nat.add_le_add (Nat.mul_le_mul_right _ (by omega)) hshifted.2.le
      _ ≤ infiniteMagnitude := by decide
  generalize hvalue : value * 2 ^ (52 - bits) = shifted at hshifted hnearest
  obtain ⟨hsignificand, hplace⟩ := significand_and_scale_eq (bits + 1022) hshifted.1 hshifted.2
  have hsame : ((bits + 1022 : Nat) : Int) - 1074 = bits - 52 := by omega
  simp only [hnearest, fraction, hsignificand, hplace, hsame, hdown, hup, Nat.pow_eq, hvalue,
    Nat.pow_zero, Nat.mul_one]

/-- The powers of ten up to the twenty-second are numbers of double precision. -/
theorem fraction_powerOfTen {exponent : Nat} (h : exponent ≤ 22) :
    (fraction (powerOfTen exponent)).1 = 10 ^ exponent * (fraction (powerOfTen exponent)).2 := by
  have hall : ∀ exponent ≤ 22, (fraction (powerOfTen exponent)).1 =
      10 ^ exponent * (fraction (powerOfTen exponent)).2 := by
    decide +kernel
  exact hall exponent h

section Values

variable {first second value value' : Nat} (hfirst : (fraction first).1 = value * (fraction first).2)
  (hsecond : (fraction second).1 = value' * (fraction second).2)

include hfirst hsecond

/-- Where the factors are natural numbers, only the product is rounded. -/
theorem productMagnitude_eq_nearest :
    productMagnitude first second = nearestMagnitude (value * value') 1 := by
  refine nearestMagnitude_congr
    (Nat.mul_pos (denominator_fraction_pos _) (denominator_fraction_pos _)) Nat.one_pos ?_
  rw [hfirst, hsecond, Nat.mul_one, Nat.mul_mul_mul_comm]

/-- Where dividend and divisor are natural numbers, only the quotient is rounded. -/
theorem quotientMagnitude_eq_nearest (hpositive : 0 < value') :
    quotientMagnitude first second = nearestMagnitude value value' := by
  refine nearestMagnitude_congr (Nat.mul_pos (denominator_fraction_pos _) ?_) hpositive ?_
  · rw [hsecond]
    exact Nat.mul_pos hpositive (denominator_fraction_pos _)
  · rw [hfirst, hsecond, Nat.mul_right_comm, Nat.mul_assoc, Nat.mul_assoc]

end Values

/-- A decimal of few digits that is neither very great nor very small is nearest to what its fraction is
nearest to. -/
theorem nearestMagnitude_decimal_eq {decimal : Decimal}
    (hcoefficient : decimal.coefficient < 2 ^ 53) (hexponent : decimal.exponent.natAbs ≤ 22) :
    decimal.nearestMagnitude = Formulary.nearestMagnitude decimal.numerator decimal.denominator := by
  have hlength : (digitsOf decimal.coefficient).length ≤ 16 :=
    (length_digitsOf_le_iff (by decide)).mpr (hcoefficient.trans (by decide))
  have horder : -330 ≤ decimal.order ∧ decimal.order ≤ 310 := by
    unfold Decimal.order
    omega
  by_cases hzero : decimal.coefficient = 0
  · simp [Decimal.nearestMagnitude, nearestMagnitude, Decimal.numerator, hzero]
  · rw [Decimal.nearestMagnitude, if_neg (by omega), if_neg (by omega)]

/-- If the significand has at most 53 bits and the power of ten is a number, what is scaled is the number
nearest to the decimal. -/
theorem scaledMagnitude?_eq_nearest {decimal : Decimal}
    (hcoefficient : decimal.coefficient < 2 ^ 53) (hexponent : decimal.exponent.natAbs ≤ 22) :
    scaledMagnitude? (nearestMagnitude decimal.coefficient 1) decimal.exponent =
      some decimal.nearestMagnitude := by
  have hvalue := fraction_nearestMagnitude_natural hcoefficient
  have hpower := fraction_powerOfTen hexponent
  rw [nearestMagnitude_decimal_eq hcoefficient hexponent, Decimal.numerator,
    Decimal.denominator]
  unfold scaledMagnitude?
  split
  · rename_i hnegative
    have hcount : (decimal.exponent.natAbs - 1) / greatestPower = 0 := by
      unfold greatestPower
      omega
    have hup : decimal.exponent.toNat = 0 := by omega
    have hdown : (-decimal.exponent).toNat = decimal.exponent.natAbs := by omega
    simp only [hcount, hup, hdown, lowered, Nat.zero_mul, Nat.sub_zero, Nat.pow_eq, Nat.pow_zero,
      Nat.mul_one, quotientMagnitude_eq_nearest hvalue hpower (Nat.pow_pos (by decide))]
  · rename_i hpositive
    have hup : decimal.exponent.toNat = decimal.exponent.natAbs := by omega
    have hdown : (-decimal.exponent).toNat = 0 := by omega
    have hrange : decimal.exponent ≤ greatestPower := by
      unfold greatestPower
      omega
    have hfinite : nearestMagnitude (decimal.coefficient * 10 ^ decimal.exponent.natAbs) 1 <
        infiniteMagnitude := by
      refine (nearestMagnitude_mono Nat.one_pos Nat.one_pos (Nat.mul_le_mul_right 1
        (Nat.mul_le_mul hcoefficient.le (Nat.pow_le_pow_right (by decide) hexponent)))).trans_lt ?_
      decide +kernel
    simp only [hup, hdown, if_pos hrange, Nat.pow_eq, Nat.pow_zero,
      productMagnitude_eq_nearest hvalue hpower, if_pos hfinite]

end Formulary.Number
