import Formulary.Json.Reader
import Formulary.Proofs.Number.Scaled
import Formulary.Proofs.Number.Written
import Formulary.Proofs.Text.Scan
/-!
Numbers in JSON. An integer of 64 bits is written so that it is read back (`ofNumeral_digitsOf`). A finite
number is written as the digits that denote it, with a point or an exponent by which it is told from an
integer (`exists_numeralText_of_writeMagnitude`), and that is read as the nearest number if the digits are
few and the power of ten is small (`ofNumeral_of_fewDigits`). Main definitions: `IsWhole`, the digits that
may stand before the point, and `numeralText`, the text of the parts of a number.
-/

set_option autoImplicit false
set_option relaxedAutoImplicit false

namespace Formulary.Json

open Text Scan Reader

/-! ### The parts of a number -/

/-- The digits before the point: at least one, and no zero in front of others. -/
structure IsWhole (digits : List Char) : Prop where
  ne_nil : digits ≠ []
  isDigit : ∀ digit ∈ digits, digit.isDigit = true
  leading : digits = ['0'] ∨ digits.head? ≠ some '0'

/-- The text of a power of ten, which always has a sign. -/
def powerText : Option Int → List Char
  | none => []
  | some power => 'e' :: (if power < 0 then '-' else '+') :: digitsOf power.natAbs

/-- The digits before the point, those after it if there is a point, and the power of ten if it is
given. -/
def numeralText (digits : List Char) (fraction : Option (List Char)) (power : Option Int) :
    List Char :=
  digits ++ (fraction.elim [] ('.' :: ·) ++ powerText power)

section Scanners

variable {text : List Char} (htext : ∀ character ∈ text.head?, isNumeralCharacter character = false)

theorem digitRun_append {digits rest : List Char} (hsome : digits ≠ [])
    (hdigits : ∀ digit ∈ digits, digit.isDigit = true)
    (hrest : ∀ character ∈ rest.head?, character.isDigit = false) :
    digitRun (digits ++ rest) = some (digits, rest) := by
  rw [digitRun, bind_of_some (Scan.run_append hdigits hrest), if_neg (by simpa using hsome)]
  rfl

theorem wholeDigits_append {digits rest : List Char} (hdigits : IsWhole digits)
    (hrest : ∀ character ∈ rest.head?, character.isDigit = false) :
    wholeDigits (digits ++ rest) = some (digits, rest) := by
  rcases hdigits.leading with rfl | hleading
  · rfl
  · obtain ⟨digit, others, rfl⟩ := List.exists_cons_of_ne_nil hdigits.ne_nil
    have hdigit : digit ≠ '0' := fun hzero ↦ hleading (congrArg some hzero)
    unfold wholeDigits
    split
    · rename_i tail hsame
      exact absurd (List.cons.inj hsame).1 hdigit
    · exact digitRun_append hdigits.ne_nil hdigits.isDigit hrest

include htext

theorem not_isDigit_head : ∀ character ∈ text.head?, character.isDigit = false := by
  intro character hcharacter
  have hnone := htext character hcharacter
  simp only [isNumeralCharacter, Bool.or_eq_false_iff] at hnone
  exact hnone.1

theorem exponent_powerText (power : Option Int) :
    exponent (powerText power ++ text) = some (power, text) := by
  cases power with
  | none =>
    unfold exponent
    split
    · rename_i rest hsame
      obtain rfl : text = 'e' :: rest := hsame
      exact nomatch htext 'e' rfl
    · rename_i rest hsame
      obtain rfl : text = 'E' :: rest := hsame
      exact nomatch htext 'E' rfl
    · rfl
  | some power =>
    have hdigits := digitRun_append (digitsOf_ne_nil power.natAbs) isDigit_of_mem_digitsOf
      (not_isDigit_head htext)
    by_cases hnegative : power < 0
    · have hpower : -(power.natAbs : Int) = power := by omega
      simp [powerText, exponent, exponentSign, hnegative, hdigits, valueOfDigits_digitsOf,
        hpower, -Nat.cast_natAbs]
    · have hpower : (power.natAbs : Int) = power := by omega
      simp [powerText, exponent, exponentSign, hnegative, hdigits, valueOfDigits_digitsOf,
        hpower, -Nat.cast_natAbs]

/-- The text of some parts is read as the number with these parts. -/
theorem numeral_numeralText (negative : Bool) {digits : List Char} {fraction : Option (List Char)}
    (power : Option Int) (hdigits : IsWhole digits)
    (hfraction : ∀ places ∈ fraction, places ≠ [] ∧ ∀ digit ∈ places, digit.isDigit = true) :
    numeral negative (numeralText digits fraction power ++ text) =
      some (ofNumeral negative digits fraction power, text) := by
  have hpower : ∀ character ∈ (powerText power ++ text).head?,
      character.isDigit = false ∧ character ≠ '.' := by
    cases power with
    | none =>
      refine fun character hcharacter ↦ ⟨not_isDigit_head htext character hcharacter, ?_⟩
      rintro rfl
      exact nomatch htext '.' hcharacter
    | some power =>
      rintro character ⟨⟩
      exact ⟨rfl, by decide⟩
  have hplaces : fractionDigits (fraction.elim [] ('.' :: ·) ++ (powerText power ++ text)) =
      some (fraction, powerText power ++ text) := by
    cases fraction with
    | none =>
      show fractionDigits (powerText power ++ text) = _
      unfold fractionDigits
      split
      · rename_i rest hsame
        exact absurd rfl (hpower '.' (by rw [hsame]; rfl)).2
      · rfl
    | some places =>
      obtain ⟨hsome, hplaces⟩ := hfraction places rfl
      exact congrArg (Option.map _)
        (digitRun_append hsome hplaces fun character hcharacter ↦ (hpower character hcharacter).1)
  have hpoint : ∀ character ∈
      (fraction.elim [] ('.' :: ·) ++ (powerText power ++ text)).head?, character.isDigit = false := by
    cases fraction with
    | none => exact fun character hcharacter ↦ (hpower character hcharacter).1
    | some places =>
      rintro character ⟨⟩
      rfl
  rw [numeral, numeralText, List.append_assoc, List.append_assoc,
    bind_of_some (wholeDigits_append hdigits hpoint), bind_of_some hplaces,
    bind_of_some (exponent_powerText htext power)]
  rfl

end Scanners

/-! ### Integers -/

theorem isWhole_digitsOf (value : Nat) : IsWhole (digitsOf value) := by
  refine ⟨digitsOf_ne_nil value, isDigit_of_mem_digitsOf, ?_⟩
  by_cases hzero : value = 0
  · exact .inl (hzero ▸ rfl)
  · exact .inr (head?_digitsOf_ne_zero hzero)

/-- The digits of an integer that is kept denote the integer. -/
theorem ofNumeral_digitsOf {value : Int} (h : isKeptInteger value = true) :
    ofNumeral (decide (value < 0)) (digitsOf value.natAbs) none none = .integer value := by
  by_cases hnegative : value < 0
  · have hvalue : -(value.natAbs : Int) = value := by omega
    have hsome : value ≠ 0 := hnegative.ne
    simp [ofNumeral, valueOfDigits_digitsOf, hnegative, hvalue, h, hsome, -Nat.cast_natAbs]
  · have hvalue : (value.natAbs : Int) = value := by omega
    simp [ofNumeral, valueOfDigits_digitsOf, hnegative, hvalue, h, -Nat.cast_natAbs]

/-! ### Finite numbers -/

/-- The parts of a number that cannot be taken for an integer. -/
structure IsShown (digits : List Char) (fraction : Option (List Char)) (power : Option Int) :
    Prop where
  isWhole : IsWhole digits
  places : ∀ places ∈ fraction, places ≠ [] ∧ ∀ digit ∈ places, digit.isDigit = true
  shown : fraction.isSome = true ∨ power.isSome = true

/-- The value of the parts of a number. -/
def decimalOfParts (digits : List Char) (fraction : Option (List Char)) (power : Option Int) :
    Decimal :=
  ⟨valueOfDigits (digits ++ fraction.getD []), power.getD 0 - (fraction.getD []).length⟩

theorem appendDigits_of_lt {significand : Nat} {digits : List Char}
    (h : significand * 10 ^ digits.length + valueOfDigits digits < 2 ^ 64) :
    appendDigits significand digits =
      (significand * 10 ^ digits.length + valueOfDigits digits, []) := by
  induction digits generalizing significand with
  | nil => simp [appendDigits, valueOfDigits]
  | cons digit digits ih =>
    have hsame : significand * 10 ^ (digit :: digits).length + valueOfDigits (digit :: digits) =
        (10 * significand + digitValue digit) * 10 ^ digits.length + valueOfDigits digits := by
      rw [valueOfDigits_cons, List.length_cons]
      ring
    rw [hsame] at h ⊢
    have hlonger : 10 * significand + digitValue digit < 0x10000000000000000 := by
      have hpower := Nat.le_mul_of_pos_right (10 * significand + digitValue digit)
        (Nat.pow_pos (by decide) : 0 < 10 ^ digits.length)
      omega
    rw [appendDigits, if_pos hlonger, ih h]

/-- Parts whose digits have 64 bits at most are kept as they are. -/
theorem keptDecimal_of_lt {digits : List Char} {fraction : Option (List Char)} {power : Option Int}
    (h : (decimalOfParts digits fraction power).coefficient < 2 ^ 64) :
    keptDecimal digits (fraction.getD []) (power.getD 0) = decimalOfParts digits fraction power := by
  unfold decimalOfParts at h ⊢
  simp only [valueOfDigits_append] at h ⊢
  have hwhole : 0 * 10 ^ digits.length + valueOfDigits digits < 2 ^ 64 := by
    have hpower := Nat.le_mul_of_pos_right (valueOfDigits digits)
      (Nat.pow_pos (by decide) : 0 < 10 ^ (fraction.getD []).length)
    omega
  simp [keptDecimal, appendDigits_of_lt hwhole, appendDigits_of_lt h]

/-- A number that cannot be taken for an integer is scaled, or refused. -/
theorem ofNumeral_of_isShown {digits : List Char} {fraction : Option (List Char)} {power : Option Int}
    (hshown : fraction.isSome = true ∨ power.isSome = true) (negative : Bool) :
    ofNumeral negative digits fraction power =
      (Number.scaledMagnitude?
        (nearestMagnitude (keptDecimal digits (fraction.getD []) (power.getD 0)).coefficient 1)
        (keptDecimal digits (fraction.getD []) (power.getD 0)).exponent).elim .unreadable
          fun magnitude ↦ .real (.ofMagnitude negative magnitude) := by
  have hinteger : (fraction.isNone && power.isNone) = false := by
    rcases hshown with hpoint | hpower
    · simp [Option.isNone_eq_false_iff.mpr hpoint]
    · simp [Option.isNone_eq_false_iff.mpr hpower]
  simp only [ofNumeral, hinteger, Bool.false_and, Bool.false_eq_true, if_false]
  split <;> rename_i hscaled <;> rw [hscaled] <;> rfl

/-- Parts with few digits and a small power of ten denote the number that is nearest to them. -/
theorem ofNumeral_of_fewDigits {digits : List Char} {fraction : Option (List Char)}
    {power : Option Int} (hshown : fraction.isSome = true ∨ power.isSome = true)
    (hcoefficient : (decimalOfParts digits fraction power).coefficient < 2 ^ 53)
    (hexponent : (decimalOfParts digits fraction power).exponent.natAbs ≤ 22) (negative : Bool) :
    ofNumeral negative digits fraction power =
      .real (.ofDecimal negative (decimalOfParts digits fraction power)) := by
  rw [ofNumeral_of_isShown hshown, keptDecimal_of_lt (hcoefficient.trans (by decide)),
    Number.scaledMagnitude?_eq_nearest hcoefficient hexponent]
  rfl

/-- Parts of a number that stand for some digits and the place of the point in them. There are no more
digits in the parts, except for zeros that fill them up to the point and one behind it. -/
structure IsLayout (digits : List Char) (point : Int) (whole : List Char)
    (fraction : Option (List Char)) (power : Option Int) : Prop extends IsShown whole fraction power where
  value_eq : (decimalOfParts whole fraction power).value =
    valueOfDigits digits * (10 : ℚ) ^ (point - digits.length)
  exponent_eq : (decimalOfParts whole fraction power).exponent = point - digits.length ∨
    (decimalOfParts whole fraction power).exponent = -1 ∧ digits.length ≤ point

/-- Digits around a point are the parts of a number. -/
theorem exists_numeralText_of_positional {digits : List Char} (hsome : digits ≠ [])
    (hleading : digits.head? ≠ some '0') (hdigits : ∀ digit ∈ digits, digit.isDigit = true)
    (point : Int) :
    ∃ whole fraction power, positional digits point = numeralText whole fraction power ∧
      IsLayout digits point whole fraction power := by
  obtain ⟨whole, places, htext, hsplit⟩ := exists_isSplit hsome hdigits point
  have hexponent : (decimalOfParts whole (some places) none).exponent = -(places.length : Int) := by
    simp [decimalOfParts]
  refine ⟨whole, some places, none, ?_,
    ⟨⟨⟨hsplit.whole_ne_nil, hsplit.isDigit_whole, ?_⟩, ?_, .inl rfl⟩, ?_, ?_⟩⟩
  · rw [htext, numeralText, powerText, List.append_nil]
    rfl
  · exact hsplit.leading.imp_right fun hhead ↦ hhead.trans_ne hleading
  · rintro _ ⟨⟩
    exact ⟨hsplit.places_ne_nil, hsplit.isDigit_places⟩
  · rw [← hsplit.value_eq, decimalOfParts, Option.getD_none, Int.zero_sub]
    rfl
  · rw [hexponent]
    have hlength := hsplit.length_places
    omega

/-- Digits with the point after the first one and an exponent are the parts of a number. -/
theorem exists_numeralText_of_scientific {digits : List Char} (hsome : digits ≠ [])
    (hleading : digits.head? ≠ some '0') (hdigits : ∀ digit ∈ digits, digit.isDigit = true)
    (point : Int) :
    ∃ whole fraction power, scientific digits point = numeralText whole fraction power ∧
      IsLayout digits point whole fraction power := by
  obtain ⟨digit, others, rfl⟩ := List.exists_cons_of_ne_nil hsome
  have hwhole : IsWhole [digit] :=
    ⟨List.cons_ne_nil _ _, fun other hother ↦ hdigits other (List.mem_append_left others hother),
      .inr hleading⟩
  have hlayout {fraction : Option (List Char)} (hfraction : fraction.getD [] = others)
      (hplaces : ∀ places ∈ fraction, places ≠ [] ∧ ∀ digit ∈ places, digit.isDigit = true) :
      IsLayout (digit :: others) point [digit] fraction (some (point - 1)) := by
    have hplace : point - 1 - (others.length : Int) = point - (digit :: others).length := by
      rw [List.length_cons]
      omega
    have hdecimal : decimalOfParts [digit] fraction (some (point - 1)) =
        ⟨valueOfDigits (digit :: others), point - (digit :: others).length⟩ := by
      rw [decimalOfParts, hfraction, Option.getD_some, hplace]
      rfl
    exact ⟨⟨hwhole, hplaces, .inr rfl⟩, by rw [hdecimal]; rfl, .inl (by rw [hdecimal])⟩
  cases others with
  | nil =>
    refine ⟨[digit], none, some (point - 1), by simp [scientific, numeralText, powerText],
      hlayout rfl ?_⟩
    rintro places ⟨⟩
  | cons second others =>
    refine ⟨[digit], some (second :: others), some (point - 1),
      by simp [scientific, numeralText, powerText], hlayout rfl ?_⟩
    rintro places ⟨⟩
    exact ⟨List.cons_ne_nil _ _, fun other hother ↦ hdigits other (List.mem_cons_of_mem _ hother)⟩

/-- What the exchange format writes for a finite number are parts that stand for the digits of its
shortest decimal. -/
theorem exists_numeralText_of_writeMagnitude {magnitude : Nat}
    (hfinite : magnitude < infiniteMagnitude) :
    ∃ whole fraction power,
      exchangeStyle.writeMagnitude magnitude = numeralText whole fraction power ∧
        IsLayout (significantDigits (Number.shortestDecimal .even magnitude).coefficient)
          (Number.shortestDecimal .even magnitude).order whole fraction power := by
  by_cases hzero : magnitude = 0
  · subst hzero
    have hdigits : ∀ digit ∈ ['0'], digit.isDigit = true := List.forall_mem_singleton.mpr rfl
    refine ⟨['0'], some ['0'], none, rfl,
      ⟨⟨⟨List.cons_ne_nil _ _, hdigits, .inl rfl⟩, ?_, .inl rfl⟩, ?_, .inr ⟨rfl, le_refl 1⟩⟩⟩
    · rintro places ⟨⟩
      exact ⟨List.cons_ne_nil _ _, hdigits⟩
    · exact (zero_mul _).trans (zero_mul _).symm
  have hdecimal := Number.nearestMagnitude_shortestDecimal .even hfinite
  have hcoefficient : (Number.shortestDecimal .even magnitude).coefficient ≠ 0 := fun hnone ↦
    hzero (hdecimal.symm.trans (if_pos (.inl hnone)))
  have hsome := significantDigits_ne_nil (Number.shortestDecimal .even magnitude).coefficient
  have hleading := head?_significantDigits_ne_zero hcoefficient
  by_cases hpositional :
      exchangeStyle.isPositional (Number.shortestDecimal .even magnitude).order = true
  · obtain ⟨whole, fraction, power, htext, hlayout⟩ := exists_numeralText_of_positional hsome
      hleading isDigit_of_mem_significantDigits (Number.shortestDecimal .even magnitude).order
    exact ⟨whole, fraction, power, (if_pos hpositional).trans htext, hlayout⟩
  · obtain ⟨whole, fraction, power, htext, hlayout⟩ := exists_numeralText_of_scientific hsome
      hleading isDigit_of_mem_significantDigits (Number.shortestDecimal .even magnitude).order
    exact ⟨whole, fraction, power, (if_neg hpositional).trans htext, hlayout⟩

section Layout

variable {whole : List Char} {fraction : Option (List Char)} {power : Option Int}

/-- Parts that stand for the shortest decimal of a number are nearest to the number. -/
theorem IsLayout.nearestMagnitude_eq {magnitude : Nat}
    (h : IsLayout (significantDigits (Number.shortestDecimal .even magnitude).coefficient)
      (Number.shortestDecimal .even magnitude).order whole fraction power)
    (hfinite : magnitude < infiniteMagnitude) :
    (decimalOfParts whole fraction power).nearestMagnitude = magnitude := by
  rw [Decimal.nearestMagnitude_congr (h.value_eq.trans (value_significantDigits _))]
  exact Number.nearestMagnitude_shortestDecimal .even hfinite

/-- Fifteen digits with the point near them make parts that are read exactly. -/
theorem IsLayout.fewDigits {digits : List Char} {point : Int}
    (h : IsLayout digits point whole fraction power)
    (hdigits : ∀ digit ∈ digits, digit.isDigit = true) (hsome : digits ≠ [])
    (hlength : digits.length ≤ 15) (hlow : -7 ≤ point) (hhigh : point ≤ 14) :
    (decimalOfParts whole fraction power).coefficient < 2 ^ 53 ∧
      (decimalOfParts whole fraction power).exponent.natAbs ≤ 22 := by
  have hcount := List.length_pos_iff.mpr hsome
  have hvalue := valueOfDigits_lt hdigits
  have hpower : (0 : ℚ) < 10 ^ (decimalOfParts whole fraction power).exponent := by positivity
  obtain ⟨zeros, hzeros, hexponent⟩ : ∃ zeros : Nat, digits.length + zeros ≤ 15 ∧
      point - digits.length = zeros + (decimalOfParts whole fraction power).exponent := by
    rcases h.exponent_eq with hexponent | ⟨hexponent, hbehind⟩
    · exact ⟨0, by omega, by omega⟩
    · exact ⟨(point - digits.length + 1).toNat, by omega, by omega⟩
  have hcoefficient : (decimalOfParts whole fraction power).coefficient =
      valueOfDigits digits * 10 ^ zeros := by
    have hsame := h.value_eq
    rw [Decimal.value, hexponent, zpow_add₀ (by norm_num), zpow_natCast, ← mul_assoc] at hsame
    exact_mod_cast mul_right_cancel₀ hpower.ne' hsame
  constructor
  · calc (decimalOfParts whole fraction power).coefficient
        = valueOfDigits digits * 10 ^ zeros := hcoefficient
      _ < 10 ^ digits.length * 10 ^ zeros := Nat.mul_lt_mul_of_pos_right hvalue (Nat.pow_pos (by decide))
      _ = 10 ^ (digits.length + zeros) := (Nat.pow_add _ _ _).symm
      _ ≤ 10 ^ 15 := Nat.pow_le_pow_right (by decide) hzeros
      _ < 2 ^ 53 := by decide
  · have hexponent := h.exponent_eq
    omega

end Layout

end Formulary.Json
