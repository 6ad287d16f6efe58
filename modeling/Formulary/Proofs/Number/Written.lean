import Formulary.Proofs.Number.Shortest
import Formulary.Proofs.Token.Numeral
/-!
Written numbers. Integers and finite numbers are written as words that denote numerals, and these have
the value that was written (`exists_numeral_of_signedDigitsOf`, `exists_numeral_of_write`). Main
definitions: `Numeral.ofInt`, the numeral of an integer, and `IsSplit`, digits with a point among them.
-/

set_option autoImplicit false
set_option relaxedAutoImplicit false

namespace Formulary

open Text Place

/-! ### Integers -/

theorem signedDigitsOf_eq (value : Int) :
    signedDigitsOf value = writtenNumeral (decide (value < 0)) (digitsOf value.natAbs) none := by
  by_cases hnegative : value < 0 <;> simp [signedDigitsOf, writtenNumeral, hnegative]

/-- The numeral of an integer: its sign and its digits. -/
def Numeral.ofInt (value : Int) : Numeral :=
  ⟨decide (value < 0), digitsOf value.natAbs, none, none⟩

theorem isDigits_digitsOf (value : Nat) : IsDigits (digitsOf value) :=
  ⟨digitsOf_ne_nil value, isDigit_of_mem_digitsOf⟩

theorem hasSpelling_signedDigitsOf (value : Int) :
    (Numeral.ofInt value).HasSpelling (signedDigitsOf value) := by
  rw [signedDigitsOf_eq]
  exact hasSpelling_writtenNumeral (isDigits_digitsOf _) (by simp)

theorem Numeral.toInt_ofInt (value : Int) : (ofInt value).toInt = value := by
  simp only [toInt, ofInt, valueOfDigits_digitsOf, decide_eq_true_eq]
  split <;> omega

theorem Numeral.toNumber_ofInt (value : Int) :
    (ofInt value).toNumber = .ofDecimal (decide (value < 0)) ⟨value.natAbs, 0⟩ := by
  simp [toNumber, ofInt, power, valueOfDigits_digitsOf]

/-- A written integer denotes a numeral with its value. -/
theorem exists_numeral_of_signedDigitsOf (value : Int) :
    ∃ numeral, numeral? (signedDigitsOf value) = some numeral ∧ numeral.isInteger = true ∧
      numeral.toInt = value :=
  ⟨.ofInt value, numeral?_eq_some_iff_hasSpelling.mpr (hasSpelling_signedDigitsOf value), rfl,
    Numeral.toInt_ofInt value⟩

/-! ### Numbers -/

/-- Digits before and after the point denote some digits times a power of ten. There are digits on
either side of the point, and they begin as the digits do or with the zero before the point. Behind the
point are the digits that belong there, or else a lone zero. -/
structure IsSplit (digits : List Char) (point : Int) (whole places : List Char) : Prop where
  whole_ne_nil : whole ≠ []
  places_ne_nil : places ≠ []
  leading : whole = ['0'] ∨ whole.head? = digits.head?
  isDigit_whole : ∀ digit ∈ whole, digit.isDigit = true
  isDigit_places : ∀ digit ∈ places, digit.isDigit = true
  value_eq : Decimal.value ⟨valueOfDigits (whole ++ places), -(places.length : Int)⟩ =
    valueOfDigits digits * (10 : ℚ) ^ (point - digits.length)
  length_places : (places.length : Int) = digits.length - point ∨
    places.length = 1 ∧ digits.length ≤ point

theorem isDigit_of_mem_replicate_zero (count : Nat) :
    ∀ digit ∈ List.replicate count '0', digit.isDigit = true := by
  intro digit hdigit
  rw [List.eq_of_mem_replicate hdigit]
  rfl

section Split

variable {digits : List Char} (hsome : digits ≠ [])
  (hdigits : ∀ digit ∈ digits, digit.isDigit = true) {point : Int}

include hsome hdigits

/-- The point stands before the digits, with zeros between. -/
theorem isSplit_before (hpoint : point ≤ 0) :
    IsSplit digits point ['0'] (List.replicate (-point).toNat '0' ++ digits) := by
  refine ⟨List.cons_ne_nil _ _, List.append_ne_nil_of_right_ne_nil _ hsome, .inl rfl,
    isDigit_of_mem_replicate_zero 1, fun digit hdigit ↦ ?_, ?_, .inl ?_⟩
  · exact (List.mem_append.mp hdigit).elim (isDigit_of_mem_replicate_zero _ digit) (hdigits digit)
  · have hvalue : valueOfDigits (['0'] ++ (List.replicate (-point).toNat '0' ++ digits)) =
        valueOfDigits digits := by
      rw [valueOfDigits_append, valueOfDigits_append, valueOfDigits_replicate_zero,
        Nat.zero_mul, Nat.zero_add]
      exact (congrArg (· + valueOfDigits digits) (Nat.zero_mul _)).trans (Nat.zero_add _)
    rw [Decimal.value, hvalue]
    congr 2
    show -((List.replicate (-point).toNat '0' ++ digits).length : Int) = point - digits.length
    rw [List.length_append, List.length_replicate]
    omega
  · rw [List.length_append, List.length_replicate]
    omega

/-- The point stands behind the digits, with zeros between and behind it. -/
theorem isSplit_behind (hpoint : digits.length ≤ point.toNat) :
    IsSplit digits point (digits ++ List.replicate (point.toNat - digits.length) '0') ['0'] := by
  refine ⟨List.append_ne_nil_of_left_ne_nil hsome _, List.cons_ne_nil _ _, .inr ?_,
    fun digit hdigit ↦ ?_, isDigit_of_mem_replicate_zero 1, ?_, .inr ⟨rfl, ?_⟩⟩
  · obtain ⟨digit, others, rfl⟩ := List.exists_cons_of_ne_nil hsome
    rfl
  · exact (List.mem_append.mp hdigit).elim (hdigits digit) (isDigit_of_mem_replicate_zero _ digit)
  · have hlength := List.length_pos_iff.mpr hsome
    obtain ⟨count, hcount⟩ : ∃ count : Nat, point - digits.length = count :=
      ⟨point.toNat - digits.length, by omega⟩
    have hzeros : point.toNat - digits.length = count := by omega
    have hvalue : valueOfDigits (digits ++ List.replicate count '0' ++ ['0']) =
        valueOfDigits digits * 10 ^ count * 10 := by
      rw [valueOfDigits_append, valueOfDigits_append, valueOfDigits_replicate_zero,
        List.length_replicate]
      rfl
    rw [Decimal.value, hzeros, hvalue, hcount, zpow_natCast]
    push_cast
    rw [zpow_neg, List.length_singleton, Nat.cast_one, zpow_one]
    field_simp
  · have hlength := List.length_pos_iff.mpr hsome
    omega

/-- The point stands among the digits. -/
theorem isSplit_inside (hpoint : 0 < point) (hinside : point.toNat < digits.length) :
    IsSplit digits point (digits.take point.toNat) (digits.drop point.toNat) := by
  have hsize : point.toNat ≠ 0 := by omega
  refine ⟨?_, ?_, .inr (List.head?_take.trans (if_neg hsize)),
    fun digit hdigit ↦ hdigits digit (List.mem_of_mem_take hdigit),
    fun digit hdigit ↦ hdigits digit (List.mem_of_mem_drop hdigit), ?_, .inl ?_⟩
  · exact fun hnone ↦ (List.take_eq_nil_iff.mp hnone).elim hsize hsome
  · exact fun hnone ↦ Nat.not_le_of_lt hinside (List.drop_eq_nil_iff.mp hnone)
  · rw [Decimal.value, List.take_append_drop, List.length_drop]
    congr 2
    show -((digits.length - point.toNat : Nat) : Int) = point - digits.length
    omega
  · rw [List.length_drop]
    omega

theorem exists_isSplit (point : Int) :
    ∃ whole places, positional digits point = whole ++ '.' :: places ∧
      IsSplit digits point whole places := by
  unfold positional
  by_cases hbefore : point ≤ 0
  · exact ⟨_, _, by simp [hbefore], isSplit_before hsome hdigits hbefore⟩
  by_cases hbehind : digits.length ≤ point.toNat
  · exact ⟨_, _, by simp [hbefore, hbehind], isSplit_behind hsome hdigits hbehind⟩
  · exact ⟨_, _, by simp [hbefore, hbehind],
      isSplit_inside hsome hdigits (by omega) (Nat.lt_of_not_le hbehind)⟩

end Split

/-- The significant digits of a decimal stand for its value once its order is known. -/
theorem value_significantDigits (decimal : Decimal) :
    (valueOfDigits (significantDigits decimal.coefficient) : ℚ) *
      10 ^ (decimal.order - (significantDigits decimal.coefficient).length) = decimal.value := by
  obtain ⟨count, hcoefficient, hlength⟩ := valueOfDigits_significantDigits decimal.coefficient
  have hplace : decimal.order - (significantDigits decimal.coefficient).length =
      count + decimal.exponent := by
    unfold Decimal.order
    omega
  rw [hplace, Decimal.value, zpow_add₀ (by norm_num), zpow_natCast, ← mul_assoc]
  congr 1
  exact_mod_cast hcoefficient.symm

/-- A written finite number denotes a numeral with its value, which is not an integer. -/
theorem exists_numeral_of_write {number : Number} (h : number.isFinite = true) :
    ∃ whole places, formulaStyle.write number = writtenNumeral number.negative whole (some places) ∧
      whole ≠ [] ∧ (∀ digit ∈ whole, digit.isDigit = true) ∧
      (∀ digit ∈ places, digit.isDigit = true) ∧
      (Numeral.mk number.negative whole (some places) none).toNumber = number := by
  have hfinite : number.magnitude < infiniteMagnitude := of_decide_eq_true h
  have hdecimal := Number.nearestMagnitude_shortestDecimal .upper hfinite
  generalize hshortest : Number.shortestDecimal .upper number.magnitude = decimal at hdecimal
  obtain ⟨whole, places, hpositional, hsplit⟩ :=
    exists_isSplit (significantDigits_ne_nil decimal.coefficient)
      isDigit_of_mem_significantDigits decimal.order
  refine ⟨whole, places, ?_, hsplit.whole_ne_nil, hsplit.isDigit_whole, hsplit.isDigit_places, ?_⟩
  · have hbody : formulaStyle.writeMagnitude number.magnitude = whole ++ '.' :: places := by
      rw [← hpositional, ← hshortest]
      rfl
    rw [NumberStyle.write, if_pos h, hbody, writtenNumeral]
    cases number.negative <;> rfl
  · have hnearest := Decimal.nearestMagnitude_congr
      (hsplit.value_eq.trans (value_significantDigits decimal))
    simp only [Numeral.toNumber, Numeral.power, Option.getD_some, Int.zero_sub, Number.ofDecimal,
      hnearest, hdecimal, Number.ofMagnitude, Nat.min_eq_left number.le_infinite]

end Formulary
