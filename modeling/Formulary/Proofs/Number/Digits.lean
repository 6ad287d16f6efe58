import Formulary.Number.Style
import Mathlib.Algebra.Order.Field.Power
/-!
Decimal digits. What is written as digits is read back from them (`valueOfDigits_digitsOf`), leading
zeros do not count, and trailing ones are powers of ten (`valueOfDigits_append`).
-/

set_option autoImplicit false
set_option relaxedAutoImplicit false

namespace Formulary

/-! ### Values of digits -/

theorem valueOfDigits_eq (digits : List Char) : valueOfDigits digits = Nat.ofDigitChars 10 digits 0 :=
  Nat.ofDigitChars_eq_foldl.symm

theorem valueOfDigits_append (first second : List Char) :
    valueOfDigits (first ++ second) =
      valueOfDigits first * 10 ^ second.length + valueOfDigits second := by
  rw [valueOfDigits_eq, Nat.ofDigitChars_append, Nat.ofDigitChars_eq_ofDigitChars_zero,
    Nat.mul_comm, ← valueOfDigits_eq, ← valueOfDigits_eq]

theorem valueOfDigits_replicate_zero (count : Nat) :
    valueOfDigits (List.replicate count '0') = 0 := by
  rw [valueOfDigits_eq, Nat.ofDigitChars_replicate_zero, Nat.mul_zero]

/-- The digits of a number denote the number. -/
theorem valueOfDigits_digitsOf (value : Nat) : valueOfDigits (digitsOf value) = value :=
  (valueOfDigits_eq _).trans Nat.ofDigitChars_ten_toDigits

/-! ### Written digits -/

theorem isDigit_of_mem_digitsOf {value : Nat} :
    ∀ digit ∈ digitsOf value, digit.isDigit = true :=
  fun _ hdigit ↦ Nat.isDigit_of_mem_toDigits (by decide) (by decide) hdigit

theorem digitsOf_ne_nil (value : Nat) : digitsOf value ≠ [] :=
  Nat.toDigits_ne_nil

theorem length_digitsOf_le_iff {value width : Nat} (hwidth : 0 < width) :
    (digitsOf value).length ≤ width ↔ value < 10 ^ width :=
  Nat.length_toDigits_le_iff (by decide) hwidth

/-! ### Padded digits -/

theorem isDigit_of_mem_paddedDigitsOf {width value : Nat} :
    ∀ digit ∈ paddedDigitsOf width value, digit.isDigit = true := by
  intro digit hdigit
  rcases List.mem_append.mp hdigit with hzero | hdigit
  · rw [List.eq_of_mem_replicate hzero]
    rfl
  · exact isDigit_of_mem_digitsOf digit hdigit

theorem valueOfDigits_paddedDigitsOf (width value : Nat) :
    valueOfDigits (paddedDigitsOf width value) = value := by
  unfold paddedDigitsOf
  rw [valueOfDigits_append, valueOfDigits_replicate_zero, Nat.zero_mul, Nat.zero_add,
    valueOfDigits_digitsOf]

theorem paddedDigitsOf_ne_nil (width value : Nat) : paddedDigitsOf width value ≠ [] := by
  unfold paddedDigitsOf
  exact List.append_ne_nil_of_right_ne_nil _ (digitsOf_ne_nil value)

theorem length_paddedDigitsOf {width value : Nat} (hwidth : 0 < width) (h : value < 10 ^ width) :
    (paddedDigitsOf width value).length = width := by
  have hfits := (length_digitsOf_le_iff hwidth).mpr h
  unfold paddedDigitsOf
  rw [List.length_append, List.length_replicate]
  omega

/-! ### Significant digits -/

/-- Apart from some zeros at their end, the digits of a number are significant. -/
theorem digitsOf_eq_append {coefficient : Nat} (h : coefficient ≠ 0) :
    ∃ count, digitsOf coefficient =
      significantDigits coefficient ++ List.replicate count '0' := by
  generalize hdigits : digitsOf coefficient = digits
  have hzeros : digits.reverse.takeWhile (· == '0') =
      List.replicate (digits.reverse.takeWhile (· == '0')).length '0' := by
    refine List.eq_replicate_iff.mpr ⟨rfl, fun digit hdigit ↦ ?_⟩
    have hall : (digits.reverse.takeWhile (· == '0')).all (· == '0') = true :=
      List.all_takeWhile
    exact beq_iff_eq.mp (List.all_eq_true.mp hall digit hdigit)
  refine ⟨(digits.reverse.takeWhile (· == '0')).length, ?_⟩
  rw [significantDigits, if_neg h, hdigits, ← List.reverse_replicate, ← hzeros,
    ← List.reverse_append, List.takeWhile_append_dropWhile, List.reverse_reverse]

/-- The significant digits denote the number up to a power of ten, which makes up for how many they
are. -/
theorem valueOfDigits_significantDigits (coefficient : Nat) :
    ∃ count, coefficient = valueOfDigits (significantDigits coefficient) * 10 ^ count ∧
      (digitsOf coefficient).length = (significantDigits coefficient).length + count := by
  by_cases hzero : coefficient = 0
  · subst hzero
    exact ⟨0, rfl, rfl⟩
  · obtain ⟨count, hdigits⟩ := digitsOf_eq_append hzero
    refine ⟨count, ?_, by rw [hdigits, List.length_append, List.length_replicate]⟩
    have hvalue := valueOfDigits_digitsOf coefficient
    rw [hdigits, valueOfDigits_append, valueOfDigits_replicate_zero, List.length_replicate,
      Nat.add_zero] at hvalue
    exact hvalue.symm

theorem significantDigits_ne_nil (coefficient : Nat) : significantDigits coefficient ≠ [] := by
  by_cases hzero : coefficient = 0
  · simp [significantDigits, hzero]
  · obtain ⟨count, hvalue, -⟩ := valueOfDigits_significantDigits coefficient
    intro hnone
    rw [hnone] at hvalue
    exact hzero (hvalue.trans (Nat.zero_mul _))

theorem isDigit_of_mem_significantDigits {coefficient : Nat} :
    ∀ digit ∈ significantDigits coefficient, digit.isDigit = true := by
  intro digit hdigit
  by_cases hzero : coefficient = 0
  · rw [significantDigits, if_pos hzero, List.mem_singleton] at hdigit
    rw [hdigit]
    rfl
  · obtain ⟨count, hdigits⟩ := digitsOf_eq_append hzero
    refine @isDigit_of_mem_digitsOf coefficient digit ?_
    rw [hdigits]
    exact List.mem_append_left _ hdigit

/-! ### Leading digits -/

theorem valueOfDigits_cons (digit : Char) (digits : List Char) :
    valueOfDigits (digit :: digits) =
      digitValue digit * 10 ^ digits.length + valueOfDigits digits := by
  rw [← List.singleton_append, valueOfDigits_append]
  exact congrArg (· * 10 ^ digits.length + valueOfDigits digits) (Nat.zero_add _)

theorem digitValue_lt {digit : Char} (h : digit.isDigit = true) : digitValue digit < 10 := by
  obtain ⟨hlow, hhigh⟩ := Char.isDigit_iff_toNat.mp h
  exact Nat.sub_lt_left_of_lt_add hlow (Nat.lt_succ_of_le hhigh)

/-- A run of digits denotes less than the power of ten with as many zeros. -/
theorem valueOfDigits_lt {digits : List Char} (h : ∀ digit ∈ digits, digit.isDigit = true) :
    valueOfDigits digits < 10 ^ digits.length := by
  induction digits with
  | nil => decide
  | cons digit digits ih =>
    have hdigit := digitValue_lt (h digit List.mem_cons_self)
    have hrest := ih fun other hother ↦ h other (List.mem_cons_of_mem _ hother)
    calc valueOfDigits (digit :: digits)
        = digitValue digit * 10 ^ digits.length + valueOfDigits digits := valueOfDigits_cons _ _
      _ < digitValue digit * 10 ^ digits.length + 10 ^ digits.length := Nat.add_lt_add_left hrest _
      _ = (digitValue digit + 1) * 10 ^ digits.length := (Nat.succ_mul _ _).symm
      _ ≤ 10 * 10 ^ digits.length := Nat.mul_le_mul_right _ hdigit
      _ = 10 ^ (digit :: digits).length := Nat.pow_succ'.symm

/-- The digits of a positive number do not begin with a zero: without it, they would denote the same
number and be too few for it. -/
theorem head?_digitsOf_ne_zero {value : Nat} (h : value ≠ 0) : (digitsOf value).head? ≠ some '0' := by
  intro hzero
  obtain ⟨digits, hdigits⟩ := List.head?_eq_some_iff.mp hzero
  have hvalue : valueOfDigits digits = value := by
    have hwritten := valueOfDigits_digitsOf value
    rw [hdigits, valueOfDigits_cons] at hwritten
    exact (Nat.zero_add _).symm.trans ((congrArg (· + _) (Nat.zero_mul _).symm).trans hwritten)
  have hfits := valueOfDigits_lt fun digit hdigit ↦
    @isDigit_of_mem_digitsOf value digit (hdigits ▸ List.mem_cons_of_mem _ hdigit)
  rw [hvalue] at hfits
  cases digits with
  | nil => exact h (Nat.lt_one_iff.mp hfits)
  | cons digit digits =>
    have hlength := (length_digitsOf_le_iff (Nat.succ_pos _)).mpr hfits
    rw [hdigits] at hlength
    exact Nat.not_succ_le_self _ hlength

theorem head?_significantDigits_ne_zero {coefficient : Nat} (h : coefficient ≠ 0) :
    (significantDigits coefficient).head? ≠ some '0' := by
  obtain ⟨count, hdigits⟩ := digitsOf_eq_append h
  have hhead := head?_digitsOf_ne_zero h
  obtain ⟨digit, digits, hsome⟩ := List.exists_cons_of_ne_nil (significantDigits_ne_nil coefficient)
  rw [hdigits, hsome] at hhead
  rwa [hsome]

end Formulary
