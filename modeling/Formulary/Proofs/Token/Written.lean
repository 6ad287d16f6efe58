import Formulary.Proofs.Number.Written
import Formulary.Proofs.Timestamp.Written
import Formulary.Proofs.Token.Language
import Formulary.Proofs.Token.Refusal
/-!
Written literals as tokens. Every literal that formulas can hold is written as one of its spellings
(`Literal.hasSpelling_characters`), so it reads back wherever a delimiter comes after it. An integer is
written like a number as well, while a number always shows its point and is never read as an integer
(`readInt_of_point`). Main definition: `Literal.IsExpressible`. Main statement:
`readLiteral_characters`.
-/

set_option autoImplicit false
set_option relaxedAutoImplicit false

namespace Formulary

open Text Place

/-! ### Spellings -/

/-- A literal that can be written in a formula: of the numbers the finite ones, and of the timestamps
those that some text denotes. -/
def Literal.IsExpressible : Literal → Prop
  | .int _ | .string _ | .bool _ => True
  | .number value => value.isFinite = true
  | .nan => False
  | .timestamp value => ∃ text, Timestamp.ofFormulaText? text = some value

/-- Timestamps are written without quotes and backslashes. -/
theorem quotedBody_formulaText (timestamp : Timestamp) (rest : List Char) :
    QuotedBody (timestamp.formulaText ++ '"' :: rest) timestamp.formulaText rest := by
  refine quotedBody_plain (fun character hcharacter ↦ ?_) rest
  have hclass := isTimestampCharacter_of_mem_formulaText character hcharacter
  constructor
  · rintro rfl
    exact absurd hclass (by decide)
  · rintro rfl
    exact absurd hclass (by decide)

/-- A literal is written as one of its spellings. -/
theorem Literal.hasSpelling_characters {value : Literal} (h : value.IsExpressible) :
    value.HasSpelling value.characters := by
  cases value with
  | int value =>
    rw [characters, signedDigitsOf_eq]
    exact .int (isDigits_digitsOf _) (Numeral.toInt_ofInt value.toInt).symm
  | number value =>
    obtain ⟨whole, places, hwritten, hsome, hwhole, hplaces, hvalue⟩ := exists_numeral_of_write h
    have hspelling := @hasSpelling_writtenNumeral value.negative whole (some places)
      ⟨hsome, hwhole⟩ (by simpa using hplaces)
    rw [← hwritten] at hspelling
    have hnumber := HasSpelling.number hspelling
    rw [hvalue] at hnumber
    exact hnumber
  | nan => exact h.elim
  | string value =>
    have hstring := HasSpelling.string (quotedBody_escaped value.toList [])
    rw [String.ofList_toList] at hstring
    exact hstring
  | bool value => cases value <;> exact .bool _
  | timestamp value =>
    obtain ⟨text, htext⟩ := h
    exact .timestamp (quotedBody_formulaText value [])
      (Timestamp.ofFormulaText?_formulaText (Timestamp.nanosecond_of_ofFormulaText? htext))

/-! ### Reading back -/

/-- A numeral with a point behind its whole part has a fraction, whatever comes after the point. -/
theorem isInteger_of_point {negative : Bool} {whole text : List Char} {place after : Place}
    {numeral : Numeral} (hwhole : IsDigits whole)
    (hplace : place.rest = (if negative then ['-'] else []) ++ (whole ++ '.' :: text))
    (hread : readNumeral place = .ok (numeral, after)) : numeral.isInteger = false := by
  have hhead : ∀ character ∈ (whole ++ '.' :: text).head?, character ≠ '-' := by
    rintro character hcharacter rfl
    cases hwhole.isDigit_head _ _ hcharacter
  have hpoint : ∀ character ∈ ('.' :: text).head?, character.isDigit = false := by
    rintro _ ⟨⟩
    rfl
  obtain ⟨-, hunsigned⟩ := readSign_written hplace hhead
  obtain ⟨hrun, hskip⟩ := run_append hunsigned hwhole.2 hpoint
  obtain ⟨pointed, heaten, -⟩ := @exists_eat?_of_rest _ ['.'] text hskip
  simp only [readNumeral, hrun, readFraction, heaten, List.isEmpty_iff, hwhole.1, if_false] at hread
  split at hread
  · cases hread
  · rw [← (Prod.mk.inj (Except.ok.inj hread)).1]
    rfl

/-- No integer is read where a point comes behind the digits. -/
theorem readInt_of_point {negative : Bool} {whole text : List Char} {place : Place}
    (hwhole : IsDigits whole)
    (hplace : place.rest = (if negative then ['-'] else []) ++ (whole ++ '.' :: text)) :
    readInt place = .error ⟨place.offset, .expectingInt⟩ := by
  cases hread : readInt place with
  | error failure => rw [readInt_eq_error hread]
  | ok found =>
    obtain ⟨numeral, hnumeral, -, hinteger, -⟩ := readInt_eq_ok_iff.mp hread
    rw [isInteger_of_point hwhole hplace hnumeral] at hinteger
    cases hinteger

/-- Written literals read back wherever a delimiter comes after them. A written integer is read as a
number as well, from the same characters; and whatever comes after a finite number, no integer is read. -/
theorem readLiteral_characters (offset : Nat) {rest : List Char} (hends : isDelimited rest = true) :
    (∀ value : Literal, value.IsExpressible →
      readLiteral value.scalar ⟨offset, value.characters ++ rest⟩ =
        .ok (value, ⟨offset + byteLength value.characters, rest⟩)) ∧
    (∀ value : Int64,
      readLiteral .number ⟨offset, (Literal.int value).characters ++ rest⟩ =
        .ok (.number (.ofDecimal (decide (value.toInt < 0)) ⟨value.toInt.natAbs, 0⟩),
          ⟨offset + byteLength (Literal.int value).characters, rest⟩)) ∧
    (∀ value : Number, value.isFinite = true → ∀ text : List Char,
      readLiteral .int ⟨offset, (Literal.number value).characters ++ text⟩ =
        .error ⟨offset, .expectingInt⟩) := by
  refine ⟨fun value hvalue ↦ ?_, fun value ↦ ?_, fun value hvalue text ↦ ?_⟩
  · exact readLiteral_of_hasSpelling (Literal.hasSpelling_characters hvalue) hends offset
  · have hspelling := Literal.HasSpelling.number (hasSpelling_signedDigitsOf value.toInt)
    rw [Numeral.toNumber_ofInt] at hspelling
    exact readLiteral_of_hasSpelling hspelling hends offset
  · obtain ⟨whole, places, hwritten, hsome, hwhole, -⟩ := exists_numeral_of_write hvalue
    refine map_eq_error_iff.mpr (@readInt_of_point value.negative whole (places ++ text) _
      ⟨hsome, hwhole⟩ ?_)
    simp [Literal.characters, hwritten, writtenNumeral]

theorem readLiteral_characters_closing :
    isDelimited [')'] = true ∧
    readLiteral .int ⟨5, "-9223372036854775808)".toList⟩ = .ok (.int Int64.minValue, ⟨25, [')']⟩) ∧
    readLiteral .string ⟨5, "\"a\\\"\\\\\\n\")".toList⟩ = .ok (.string "a\"\\\n", ⟨14, [')']⟩) ∧
    readLiteral .timestamp ⟨5, "\"-0044-03-15T12:00:00\")".toList⟩ =
      .ok (.timestamp ⟨⟨-44, 3, 15, rfl⟩, ⟨12, 0, 0, 0, rfl⟩⟩, ⟨27, [')']⟩) ∧
    readLiteral .int ⟨5, (Literal.number (.ofMagnitude false 0x3FF0000000000000)).characters ++ [')']⟩ =
      .error ⟨5, .expectingInt⟩ := by
  have hread := readLiteral_characters 5 (show isDelimited [')'] = true by decide)
  have htimestamp : (Literal.timestamp ⟨⟨-44, 3, 15, rfl⟩, ⟨12, 0, 0, 0, rfl⟩⟩).IsExpressible :=
    ⟨"-0044-03-15T12:00:00".toList, by decide⟩
  exact ⟨by decide, hread.1 (.int Int64.minValue) trivial, hread.1 (.string "a\"\\\n") trivial,
    hread.1 _ htimestamp, hread.2.2 _ (by decide) [')']⟩

end Formulary
