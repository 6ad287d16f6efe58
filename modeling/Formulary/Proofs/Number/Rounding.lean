import Formulary.Number.Nearest
import Mathlib.Algebra.Order.Field.Power
import Mathlib.Data.Int.Log
import Mathlib.Data.Rat.Floor
import Mathlib.Tactic.FieldSimp
import Mathlib.Tactic.Positivity
/-!
Rounding to the nearest number. Which number is nearest depends on the value of a fraction alone
(`nearestMagnitude_congr`), and rounding is monotone (`nearestMagnitude_mono`), so what does not exceed a
fraction in range is in range too.
-/

set_option autoImplicit false
set_option relaxedAutoImplicit false

namespace Formulary

/-! ### Powers as fractions -/

/-- A power of either sign is a quotient of two natural powers. -/
theorem zpow_eq_div {base : Nat} (hbase : 0 < base) (exponent : Int) :
    (base : ℚ) ^ exponent = (base : ℚ) ^ exponent.toNat / (base : ℚ) ^ (-exponent).toNat := by
  have hpositive : (base : ℚ) ≠ 0 := by exact_mod_cast hbase.ne'
  rw [← zpow_natCast, ← zpow_natCast, ← zpow_sub₀ hpositive]
  congr 1
  omega

/-- A power is at most a fraction if that is so after clearing denominators. -/
theorem zpow_le_div_iff {base numerator denominator : Nat} (hbase : 0 < base)
    (hdenominator : 0 < denominator) (exponent : Int) :
    (base : ℚ) ^ exponent ≤ numerator / denominator ↔
      denominator * base ^ exponent.toNat ≤ numerator * base ^ (-exponent).toNat := by
  have hpositive : (0 : ℚ) < denominator := by exact_mod_cast hdenominator
  have hpower : (0 : ℚ) < (base : ℚ) ^ (-exponent).toNat := by positivity
  rw [zpow_eq_div hbase, div_le_div_iff₀ hpower hpositive, mul_comm]
  exact_mod_cast Iff.rfl

/-! ### The order of a fraction -/

/-- The logarithm of a fraction is the difference of those of its parts, or one less. -/
theorem log_div_mem {numerator denominator : Nat} (hnumerator : 0 < numerator)
    (hdenominator : 0 < denominator) :
    (Nat.log2 numerator : Int) - Nat.log2 denominator - 1 ≤
        Int.log 2 ((numerator : ℚ) / denominator) ∧
      Int.log 2 ((numerator : ℚ) / denominator) ≤
        (Nat.log2 numerator : Int) - Nat.log2 denominator := by
  have hpositive : (0 : ℚ) < denominator := by exact_mod_cast hdenominator
  have hfraction : (0 : ℚ) < (numerator : ℚ) / denominator := by positivity
  have hlow : (2 : ℚ) ^ Nat.log2 numerator ≤ numerator := by
    exact_mod_cast Nat.log2_self_le hnumerator.ne'
  have hhigh : (numerator : ℚ) < 2 ^ (Nat.log2 numerator + 1) := by
    exact_mod_cast @Nat.lt_log2_self numerator
  have hlow' : (2 : ℚ) ^ Nat.log2 denominator ≤ denominator := by
    exact_mod_cast Nat.log2_self_le hdenominator.ne'
  have hhigh' : (denominator : ℚ) ≤ 2 ^ (Nat.log2 denominator + 1) := by
    exact_mod_cast (@Nat.lt_log2_self denominator).le
  have hsplit (first second : Nat) : (2 : ℚ) ^ ((first : Int) - second) = 2 ^ first / 2 ^ second := by
    rw [zpow_sub₀ two_ne_zero, zpow_natCast, zpow_natCast]
  constructor
  · refine (Int.zpow_le_iff_le_log (by decide) hfraction).mp ?_
    rw [sub_sub]
    calc (2 : ℚ) ^ ((Nat.log2 numerator : Int) - (Nat.log2 denominator + 1))
        = 2 ^ Nat.log2 numerator / 2 ^ (Nat.log2 denominator + 1) := hsplit _ _
      _ ≤ numerator / denominator := by gcongr
  · refine Int.lt_add_one_iff.mp ((Int.lt_zpow_iff_log_lt (by decide) hfraction).mp ?_)
    rw [sub_add_eq_add_sub]
    calc (numerator : ℚ) / denominator
        < 2 ^ (Nat.log2 numerator + 1) / 2 ^ Nat.log2 denominator := by gcongr
      _ = 2 ^ ((Nat.log2 numerator : Int) + 1 - Nat.log2 denominator) := (hsplit _ _).symm

/-- The exponent of the leading bit is the logarithm of the fraction. -/
theorem floorLog2_eq_log {numerator denominator : Nat} (hnumerator : 0 < numerator)
    (hdenominator : 0 < denominator) :
    floorLog2 numerator denominator = Int.log 2 ((numerator : ℚ) / denominator) := by
  have hpositive : (0 : ℚ) < (numerator : ℚ) / denominator := by positivity
  obtain ⟨hlow, hhigh⟩ := log_div_mem hnumerator hdenominator
  have hcheck (exponent : Int) : exponent ≤ Int.log 2 ((numerator : ℚ) / denominator) ↔
      denominator * Nat.pow 2 exponent.toNat ≤ numerator * Nat.pow 2 (-exponent).toNat :=
    (Int.zpow_le_iff_le_log (by decide) hpositive).symm.trans
      (zpow_le_div_iff (by decide) hdenominator exponent)
  simp only [floorLog2, ← hcheck]
  split <;> omega

/-- Multiplying both parts of a fraction by a number does not change its order. -/
theorem floorLog2_mul {numerator denominator factor : Nat} (hnumerator : 0 < numerator)
    (hdenominator : 0 < denominator) (hfactor : 0 < factor) :
    floorLog2 (numerator * factor) (denominator * factor) = floorLog2 numerator denominator := by
  have hpositive : (factor : ℚ) ≠ 0 := by exact_mod_cast hfactor.ne'
  rw [floorLog2_eq_log (Nat.mul_pos hnumerator hfactor) (Nat.mul_pos hdenominator hfactor),
    floorLog2_eq_log hnumerator hdenominator]
  push_cast
  rw [mul_div_mul_right _ _ hpositive]

/-! ### The nearest magnitude -/

theorem roundToEven_mul {numerator denominator factor : Nat} (hfactor : 0 < factor) :
    roundToEven (numerator * factor) (denominator * factor) =
      roundToEven numerator denominator := by
  have hless (first second : Nat) : first * factor < second * factor ↔ first < second :=
    Nat.mul_lt_mul_right hfactor
  simp only [roundToEven, Nat.mul_div_mul_right _ _ hfactor, Nat.mul_mod_mul_right, ← Nat.mul_assoc,
    hless]

theorem nearestMagnitude_mul {numerator denominator factor : Nat} (hdenominator : 0 < denominator)
    (hfactor : 0 < factor) :
    nearestMagnitude (numerator * factor) (denominator * factor) =
      nearestMagnitude numerator denominator := by
  by_cases hzero : numerator = 0
  · simp [nearestMagnitude, hzero]
  · have hnumerator : 0 < numerator := Nat.pos_of_ne_zero hzero
    have hproduct : numerator * factor ≠ 0 := (Nat.mul_pos hnumerator hfactor).ne'
    simp only [nearestMagnitude, if_neg hzero, if_neg hproduct,
      floorLog2_mul hnumerator hdenominator hfactor, Nat.mul_right_comm _ factor,
      roundToEven_mul hfactor]

/-- Equal fractions have the same nearest magnitude. -/
theorem nearestMagnitude_congr {numerator denominator numerator' denominator' : Nat}
    (hdenominator : 0 < denominator) (hdenominator' : 0 < denominator')
    (h : numerator * denominator' = numerator' * denominator) :
    nearestMagnitude numerator denominator = nearestMagnitude numerator' denominator' := by
  calc nearestMagnitude numerator denominator
      = nearestMagnitude (numerator * denominator') (denominator * denominator') :=
        (nearestMagnitude_mul hdenominator hdenominator').symm
    _ = nearestMagnitude (numerator' * denominator) (denominator' * denominator) := by
        rw [h, Nat.mul_comm denominator]
    _ = nearestMagnitude numerator' denominator' := nearestMagnitude_mul hdenominator' hdenominator

/-! ### Rounding is monotone -/

theorem roundToEven_le (numerator denominator : Nat) :
    roundToEven numerator denominator ≤ numerator / denominator + 1 := by
  simp only [roundToEven]
  split
  · omega
  · split <;> omega

theorem le_roundToEven (numerator denominator : Nat) :
    numerator / denominator ≤ roundToEven numerator denominator := by
  simp only [roundToEven]
  split
  · exact Nat.le_refl _
  · split <;> exact Nat.le_add_right _ _

theorem roundToEven_mono_left {first second : Nat} (denominator : Nat) (h : first ≤ second) :
    roundToEven first denominator ≤ roundToEven second denominator := by
  rcases (Nat.div_le_div_right (c := denominator) h).lt_or_eq with hless | hsame
  · calc roundToEven first denominator
        ≤ first / denominator + 1 := roundToEven_le _ _
      _ ≤ second / denominator := hless
      _ ≤ roundToEven second denominator := le_roundToEven _ _
  · have hfirst := Nat.div_add_mod first denominator
    have hsecond := Nat.div_add_mod second denominator
    rw [hsame] at hfirst
    have hremainder : first % denominator ≤ second % denominator := by omega
    simp only [roundToEven, hsame]
    split_ifs <;> omega

theorem roundToEven_mul_self (value : Nat) {denominator : Nat} (hdenominator : 0 < denominator) :
    roundToEven (value * denominator) denominator = value := by
  simp [roundToEven, Nat.mul_div_cancel _ hdenominator, hdenominator]

/-- A greater fraction is rounded to no less. -/
theorem roundToEven_mono {numerator denominator numerator' denominator' : Nat}
    (hdenominator : 0 < denominator) (hdenominator' : 0 < denominator')
    (h : numerator * denominator' ≤ numerator' * denominator) :
    roundToEven numerator denominator ≤ roundToEven numerator' denominator' := by
  calc roundToEven numerator denominator
      = roundToEven (numerator * denominator') (denominator * denominator') :=
        (roundToEven_mul hdenominator').symm
    _ ≤ roundToEven (numerator' * denominator) (denominator * denominator') :=
        roundToEven_mono_left _ h
    _ = roundToEven (numerator' * denominator) (denominator' * denominator) := by
        rw [Nat.mul_comm denominator]
    _ = roundToEven numerator' denominator' := roundToEven_mul hdenominator

/-- A fraction is rounded to no more than a natural number that it does not exceed. -/
theorem roundToEven_le_of_div_le {numerator denominator bound : Nat} (hdenominator : 0 < denominator)
    (h : (numerator : ℚ) / denominator ≤ bound) : roundToEven numerator denominator ≤ bound := by
  rw [div_le_iff₀ (by exact_mod_cast hdenominator)] at h
  calc roundToEven numerator denominator
      ≤ roundToEven (bound * denominator) denominator := roundToEven_mono_left _ (by exact_mod_cast h)
    _ = bound := roundToEven_mul_self bound hdenominator

theorem le_roundToEven_of_le_div {numerator denominator bound : Nat} (hdenominator : 0 < denominator)
    (h : (bound : ℚ) ≤ numerator / denominator) : bound ≤ roundToEven numerator denominator := by
  rw [le_div_iff₀ (by exact_mod_cast hdenominator)] at h
  calc bound
      = roundToEven (bound * denominator) denominator := (roundToEven_mul_self bound hdenominator).symm
    _ ≤ roundToEven numerator denominator := roundToEven_mono_left _ (by exact_mod_cast h)

/-- How many units of a place a fraction has. -/
theorem shifted_div_eq (numerator denominator : Nat) (scale : Int) :
    ((numerator * 2 ^ (-scale).toNat : Nat) : ℚ) / (denominator * 2 ^ scale.toNat : Nat) =
      numerator / denominator / 2 ^ scale := by
  have hpower := @zpow_eq_div 2 (by decide) scale
  push_cast at hpower ⊢
  rw [hpower]
  field_simp

/-- The place at which a fraction is rounded, and the significand that it is rounded to there. The
significand has its leading bit unless the place is the last of all. -/
theorem exists_significand_of_nearestMagnitude {numerator denominator : Nat} (hnumerator : 0 < numerator)
    (hdenominator : 0 < denominator) :
    ∃ (scale : Int) (significand : Nat),
      scale = max (Int.log 2 ((numerator : ℚ) / denominator) - 52) (-1074) ∧
        significand = roundToEven (numerator * 2 ^ (-scale).toNat) (denominator * 2 ^ scale.toNat) ∧
        significand ≤ 2 ^ 53 ∧ (-1074 < scale → 2 ^ 52 ≤ significand) ∧
        nearestMagnitude numerator denominator =
          min ((scale + 1074).toNat * leadingBit + significand) infiniteMagnitude := by
  have hpositive : (0 : ℚ) < (numerator : ℚ) / denominator := by positivity
  generalize hscale : max (Int.log 2 ((numerator : ℚ) / denominator) - 52) (-1074) = scale
  have hpower : (0 : ℚ) < 2 ^ scale := by positivity
  have hunit : 0 < denominator * 2 ^ scale.toNat := Nat.mul_pos hdenominator (Nat.two_pow_pos _)
  refine ⟨scale, _, rfl, rfl, roundToEven_le_of_div_le hunit ?_,
    fun hnormal ↦ le_roundToEven_of_le_div hunit ?_, ?_⟩
  · rw [shifted_div_eq, div_le_iff₀ hpower]
    calc (numerator : ℚ) / denominator
        ≤ 2 ^ (Int.log 2 ((numerator : ℚ) / denominator) + 1) :=
          (Int.lt_zpow_succ_log_self (by decide) _).le
      _ ≤ 2 ^ (53 + scale) := zpow_le_zpow_right₀ one_le_two (by omega)
      _ = (2 ^ 53 : Nat) * 2 ^ scale := by
          rw [zpow_add₀ two_ne_zero]
          norm_num
  · rw [shifted_div_eq, le_div_iff₀ hpower]
    calc ((2 ^ 52 : Nat) : ℚ) * 2 ^ scale
        = 2 ^ (52 + scale) := by
          rw [zpow_add₀ two_ne_zero]
          norm_num
      _ = 2 ^ Int.log 2 ((numerator : ℚ) / denominator) := by
          congr 1
          omega
      _ ≤ numerator / denominator := Int.zpow_log_le_self (by decide) hpositive
  · simp only [nearestMagnitude, if_neg hnumerator.ne', floorLog2_eq_log hnumerator hdenominator, hscale]
    rfl

/-- A greater fraction is nearest to no smaller number. -/
theorem nearestMagnitude_mono {numerator denominator numerator' denominator' : Nat}
    (hdenominator : 0 < denominator) (hdenominator' : 0 < denominator')
    (h : numerator * denominator' ≤ numerator' * denominator) :
    nearestMagnitude numerator denominator ≤ nearestMagnitude numerator' denominator' := by
  rcases Nat.eq_zero_or_pos numerator with rfl | hnumerator
  · exact Nat.zero_le _
  have hnumerator' : 0 < numerator' :=
    Nat.pos_of_mul_pos_right ((Nat.mul_pos hnumerator hdenominator').trans_le h)
  have hvalues : (numerator : ℚ) / denominator ≤ numerator' / denominator' := by
    rw [div_le_div_iff₀ (by exact_mod_cast hdenominator) (by exact_mod_cast hdenominator')]
    exact_mod_cast h
  have hlog : Int.log 2 ((numerator : ℚ) / denominator) ≤ Int.log 2 ((numerator' : ℚ) / denominator') :=
    Int.log_mono_right (by positivity) hvalues
  obtain ⟨scale, significand, hscale, hround, hwide, -, hnearest⟩ :=
    exists_significand_of_nearestMagnitude hnumerator hdenominator
  obtain ⟨scale', significand', hscale', hround', -, hnarrow, hnearest'⟩ :=
    exists_significand_of_nearestMagnitude hnumerator' hdenominator'
  rw [hnearest, hnearest']
  refine Nat.le_min.mpr ⟨(Nat.min_le_left _ _).trans ?_, Nat.min_le_right _ _⟩
  rcases (show scale ≤ scale' by omega).lt_or_eq with hless | hsame
  · -- A coarser grid begins where the finer one ends.
    have hcount : (scale + 1074).toNat + 1 ≤ (scale' + 1074).toNat := by omega
    calc (scale + 1074).toNat * leadingBit + significand
        ≤ (scale + 1074).toNat * leadingBit + 2 ^ 53 := Nat.add_le_add_left hwide _
      _ = ((scale + 1074).toNat + 1) * leadingBit + 2 ^ 52 := by
          rw [Nat.succ_mul, Nat.add_assoc]
          rfl
      _ ≤ (scale' + 1074).toNat * leadingBit + significand' :=
          Nat.add_le_add (Nat.mul_le_mul_right _ hcount) (hnarrow (by omega))
  · subst hsame
    refine Nat.add_le_add_left ?_ _
    rw [hround, hround']
    refine roundToEven_mono (Nat.mul_pos hdenominator (Nat.two_pow_pos _))
      (Nat.mul_pos hdenominator' (Nat.two_pow_pos _)) ?_
    calc numerator * 2 ^ (-scale).toNat * (denominator' * 2 ^ scale.toNat)
        = numerator * denominator' * (2 ^ (-scale).toNat * 2 ^ scale.toNat) := Nat.mul_mul_mul_comm _ _ _ _
      _ ≤ numerator' * denominator * (2 ^ (-scale).toNat * 2 ^ scale.toNat) := Nat.mul_le_mul_right _ h
      _ = numerator' * 2 ^ (-scale).toNat * (denominator * 2 ^ scale.toNat) := Nat.mul_mul_mul_comm _ _ _ _

/-! ### Natural numbers -/

theorem floorLog2_one {value : Nat} (h : value ≠ 0) : floorLog2 value 1 = Nat.log2 value := by
  have hle := Nat.log2_self_le h
  have hone : Nat.log2 1 = 0 := rfl
  simp [floorLog2, hone, hle]

/-- A natural number of 64 bits is nearest to a finite number. -/
theorem nearestMagnitude_one_lt {value : Nat} (h : value < 2 ^ 64) :
    nearestMagnitude value 1 < infiniteMagnitude := by
  calc nearestMagnitude value 1
      ≤ nearestMagnitude (2 ^ 64) 1 :=
        nearestMagnitude_mono Nat.one_pos Nat.one_pos (Nat.mul_le_mul_right 1 h.le)
    _ < infiniteMagnitude := by decide +kernel

end Formulary
