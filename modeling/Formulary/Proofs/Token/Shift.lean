import Formulary.Token
/-!
Tokens further on in a longer text. How a token is read depends on the text ahead alone: if more bytes are
behind a place, then just as many more are behind the place after the token, or behind the place of the
complaint (`readLiteral_shifted`). Main definitions: `Place.shifted`, `Failure.shifted` and
`Token.shifted`.
-/

set_option autoImplicit false
set_option relaxedAutoImplicit false

namespace Formulary

open Text Place

/-- The same text ahead, with more bytes behind. -/
def Text.Place.shifted (amount : Nat) (place : Place) : Place :=
  ⟨amount + place.offset, place.rest⟩

/-- The same complaint, with more bytes before it. -/
def Failure.shifted (amount : Nat) (failure : Failure) : Failure :=
  ⟨amount + failure.offset, failure.complaint⟩

/-- The same token or complaint, with more bytes before it. -/
def Token.shifted {α : Type} (amount : Nat) : Token α → Token α
  | .ok (value, after) => .ok (value, after.shifted amount)
  | .error failure => .error (failure.shifted amount)

variable {amount : Nat}

/-! ### Moves -/

namespace Text.Place

@[simp] theorem offset_shifted (place : Place) : (place.shifted amount).offset = amount + place.offset :=
  rfl

@[simp] theorem rest_shifted (place : Place) : (place.shifted amount).rest = place.rest := rfl

theorem past_shifted (place : Place) (count : Nat) :
    (place.shifted amount).past count = (place.past count).shifted amount := by
  rw [past, past, shifted, shifted, Nat.add_assoc]

theorem skip_shifted (place : Place) (inClass : Char → Bool) :
    (place.shifted amount).skip inClass = (place.skip inClass).shifted amount :=
  past_shifted place _

theorem run_shifted (place : Place) (inClass : Char → Bool) :
    (place.shifted amount).run inClass = place.run inClass :=
  rfl

theorem skipSeparators_shifted (place : Place) :
    (place.shifted amount).skipSeparators = place.skipSeparators.shifted amount :=
  past_shifted place _

theorem eat?_shifted (place : Place) (symbol : List Char) :
    (place.shifted amount).eat? symbol = (place.eat? symbol).map (shifted amount) := by
  rw [eat?, eat?, past_shifted, rest_shifted]
  split <;> rfl

theorem word?_shifted (place : Place) (word : List Char) :
    (place.shifted amount).word? word = (place.word? word).map (shifted amount) := by
  rw [word?, word?, eat?_shifted, Option.filter_map]
  rfl

end Text.Place

/-! ### Numbers -/

theorem readFraction_shifted (place : Place) :
    readFraction (place.shifted amount) =
      ((readFraction place).1, (readFraction place).2.shifted amount) := by
  rw [readFraction, readFraction, eat?_shifted]
  cases place.eat? ['.'] with
  | none => rfl
  | some after =>
    simp only [Option.map_some, run_shifted, skip_shifted]

theorem readExponentSign_shifted (place : Place) :
    readExponentSign (place.shifted amount) =
      ((readExponentSign place).1, (readExponentSign place).2.shifted amount) := by
  rw [readExponentSign, readExponentSign, eat?_shifted, eat?_shifted]
  cases place.eat? ['-'] with
  | none => cases place.eat? ['+'] <;> rfl
  | some after => rfl

theorem readExponent_shifted (place : Place) :
    readExponent (place.shifted amount) =
      (readExponent place).map fun (exponent, after) ↦ (exponent, after.shifted amount) := by
  have hmark : ((place.shifted amount).eat? ['e'] <|> (place.shifted amount).eat? ['E']) =
      (place.eat? ['e'] <|> place.eat? ['E']).map (shifted amount) := by
    rw [eat?_shifted, eat?_shifted]
    cases place.eat? ['e'] <;> rfl
  rw [readExponent, readExponent, hmark]
  cases (place.eat? ['e'] <|> place.eat? ['E']) with
  | none => rfl
  | some marked =>
    simp only [Option.map_some, readExponentSign_shifted, run_shifted, skip_shifted]
    split <;> rfl

theorem readNumeral_shifted (place : Place) :
    readNumeral (place.shifted amount) =
      (readNumeral place).map fun (numeral, after) ↦ (numeral, after.shifted amount) := by
  have hsign : ((place.shifted amount).eat? ['-']).getD (place.shifted amount) =
      ((place.eat? ['-']).getD place).shifted amount := by
    rw [eat?_shifted, Option.getD_map]
  have hnegative : ((place.shifted amount).eat? ['-']).isSome = (place.eat? ['-']).isSome := by
    rw [eat?_shifted, Option.isSome_map]
  simp only [readNumeral, hsign, hnegative, run_shifted, skip_shifted, readFraction_shifted,
    readExponent_shifted]
  split
  · rfl
  · cases readExponent (readFraction (((place.eat? ['-']).getD place).skip Char.isDigit)).2 <;> rfl

theorem readInt_shifted (place : Place) :
    readInt (place.shifted amount) = Token.shifted amount (readInt place) := by
  rw [readInt, readInt, readNumeral_shifted]
  cases readNumeral place with
  | error complaint => rfl
  | ok found =>
    cases hvalue : int64? found.1.toInt with
    | none => simp [Except.map, hvalue, Token.shifted, Failure.shifted]
    | some value =>
      cases hends : found.1.isInteger && isDelimited found.2.rest <;>
        simp [Except.map, hvalue, hends, Token.shifted, Failure.shifted]

theorem readNumber_shifted (place : Place) :
    readNumber (place.shifted amount) = Token.shifted amount (readNumber place) := by
  rw [readNumber, readNumber, readNumeral_shifted]
  cases readNumeral place with
  | error complaint => rfl
  | ok found =>
    cases hends : isDelimited found.2.rest <;>
      simp [Except.map, hends, Token.shifted, Failure.shifted]

/-! ### Strings, truth values and timestamps -/

theorem readStringBody_shifted (offset : Nat) (text : List Char) :
    readStringBody (amount + offset) text = Token.shifted amount (readStringBody offset text) := by
  fun_induction readStringBody offset text with
  | case1 | case2 => rfl
  | case3 offset letter rest hletter =>
    rw [readStringBody, hletter]
    rfl
  | case4 offset letter rest character hletter failure hread ih =>
    rw [hread, ← Nat.add_assoc] at ih
    simp only [readStringBody, hletter, ih]
    rfl
  | case5 offset letter rest character hletter body after hread ih =>
    rw [hread, ← Nat.add_assoc] at ih
    simp only [readStringBody, hletter, ih]
    rfl
  | case6 offset rest => simp [readStringBody, Token.shifted, shifted, Nat.add_assoc]
  | case7 offset character rest hend hescaped hquote failure hread ih =>
    rw [hread, ← Nat.add_assoc] at ih
    rw [readStringBody, if_neg hquote, ih]
    · rfl
    · exact hend
    · exact hescaped
  | case8 offset character rest hend hescaped hquote body after hread ih =>
    rw [hread, ← Nat.add_assoc] at ih
    rw [readStringBody, if_neg hquote, ih]
    · rfl
    · exact hend
    · exact hescaped

theorem readQuoted_shifted (what : String) (place : Place) :
    readQuoted what (place.shifted amount) = Token.shifted amount (readQuoted what place) := by
  rw [readQuoted, readQuoted, eat?_shifted]
  cases place.eat? ['"'] with
  | none => rfl
  | some opened =>
    simp only [Option.map_some, offset_shifted, rest_shifted, readStringBody_shifted]
    cases readStringBody opened.offset opened.rest with
    | error failure => rfl
    | ok found =>
      cases hends : isDelimited found.2.rest <;> simp [hends, Token.shifted, Failure.shifted]

theorem readBool_shifted (place : Place) :
    readBool (place.shifted amount) = Token.shifted amount (readBool place) := by
  rw [readBool, readBool, word?_shifted, word?_shifted]
  cases place.word? ['#', 't'] with
  | some after => rfl
  | none => cases place.word? ['#', 'f'] <;> rfl

theorem readTimestamp_shifted (place : Place) :
    readTimestamp (place.shifted amount) = Token.shifted amount (readTimestamp place) := by
  rw [readTimestamp, readTimestamp, readQuoted_shifted]
  cases readQuoted "timestamp" place with
  | error failure => rfl
  | ok found =>
    simp only [Token.shifted]
    cases Timestamp.ofFormulaText? found.1 <;> rfl

/-- What is made of a token does not matter. -/
theorem map_shifted {α β : Type} (build : α → β) (token : Token α) :
    (Token.shifted amount token).map (fun (value, after) ↦ (build value, after)) =
      Token.shifted amount (token.map fun (value, after) ↦ (build value, after)) := by
  cases token <;> rfl

/-- A literal is read in the same way wherever it stands. -/
theorem readLiteral_shifted (kind : Scalar) (place : Place) :
    readLiteral kind (place.shifted amount) = Token.shifted amount (readLiteral kind place) := by
  cases kind with
  | int => rw [readLiteral, readLiteral, readInt_shifted, map_shifted]
  | number => rw [readLiteral, readLiteral, readNumber_shifted, map_shifted]
  | string =>
    rw [readLiteral, readLiteral, readQuoted_shifted]
    exact map_shifted (fun body ↦ Literal.string (String.ofList body)) _
  | bool => rw [readLiteral, readLiteral, readBool_shifted, map_shifted]
  | timestamp => rw [readLiteral, readLiteral, readTimestamp_shifted, map_shifted]

end Formulary
