import Formulary.Diagnostic
import Formulary.Literal
import Formulary.Number.Nearest
import Formulary.Text.Blank
import Formulary.Text.Place
import Formulary.Timestamp.Reader
/-!
The tokens of formulas: blanks and comments, words, and literals. Words and literals end where a
delimiter or the end of the text follows. A token that cannot be read gives the complaint and its
place, which for strings is where they go wrong and otherwise where the token begins. Main
definitions: `Place.skipSeparators`, `Place.word?` and `readLiteral`, the reader of each kind of
literal.
-/

set_option autoImplicit false
set_option relaxedAutoImplicit false

namespace Formulary

open Text

/-! ### Blanks and words -/

/-- The number of characters at the front of a text that only set its tokens apart: blanks, and
comments from a semicolon to the end of the line. -/
def separatorLength (inComment : Bool) : List Char → Nat
  | [] => 0
  | character :: text =>
    if inComment then
      separatorLength (character != '\n') text + 1
    else if isBlank character then
      separatorLength false text + 1
    else if character = ';' then
      separatorLength true text + 1
    else
      0

/-- Whether a text is at its end or goes on with a character that ends a word. -/
def isDelimited : List Char → Bool
  | [] => true
  | character :: _ =>
    isBlank character || character == '(' || character == ')' || character == ';'

namespace Text.Place

/-- The place moved past blanks and comments. -/
def skipSeparators (place : Place) : Place :=
  place.past (separatorLength false place.rest)

/-- The place moved past a word, if the word comes next and ends there. -/
def word? (place : Place) (word : List Char) : Option Place :=
  (place.eat? word).filter fun after ↦ isDelimited after.rest

end Text.Place

/-- A token with the place after it, or why and where it cannot be read. -/
abbrev Token (α : Type) := Except Failure (α × Place)

/-! ### Numbers -/

/-- The parts of a written number. -/
structure Numeral where
  negative : Bool
  whole : List Char
  fraction : Option (List Char)
  exponent : Option (Bool × List Char)
deriving DecidableEq, Repr

namespace Numeral

/-- Whether the number has neither a fraction nor an exponent. -/
def isInteger (numeral : Numeral) : Bool :=
  numeral.fraction.isNone && numeral.exponent.isNone

/-- The integer before the fraction. -/
def toInt (numeral : Numeral) : Int :=
  let size := valueOfDigits numeral.whole
  if numeral.negative then -(size : Int) else size

/-- The power of ten that is written out. -/
def power (numeral : Numeral) : Int :=
  match numeral.exponent with
  | none => 0
  | some (negative, digits) =>
    if negative then -(valueOfDigits digits : Int) else valueOfDigits digits

/-- The nearest number of double precision. -/
def toNumber (numeral : Numeral) : Number :=
  let places := numeral.fraction.getD []
  .ofDecimal numeral.negative
    ⟨valueOfDigits (numeral.whole ++ places), numeral.power - places.length⟩

end Numeral

/-- A fraction after a whole part: a point and any number of digits. -/
def readFraction (place : Place) : Option (List Char) × Place :=
  match place.eat? ['.'] with
  | some after => (some (after.run Char.isDigit), after.skip Char.isDigit)
  | none => (none, place)

/-- The sign of an exponent, which may be left out. -/
def readExponentSign (place : Place) : Bool × Place :=
  match place.eat? ['-'] with
  | some after => (true, after)
  | none => (false, (place.eat? ['+']).getD place)

/-- An exponent: its mark, a sign or none, and at least one digit. -/
def readExponent (place : Place) : Except Complaint (Option (Bool × List Char) × Place) :=
  match place.eat? ['e'] <|> place.eat? ['E'] with
  | none => .ok (none, place)
  | some marked =>
    let (negative, after) := readExponentSign marked
    let digits := after.run Char.isDigit
    if digits.isEmpty then
      .error .expectingFloat
    else
      .ok (some (negative, digits), after.skip Char.isDigit)

/-- A written number, without regard to what follows it. -/
def readNumeral (place : Place) : Except Complaint (Numeral × Place) :=
  let sign := place.eat? ['-']
  let unsigned := sign.getD place
  let whole := unsigned.run Char.isDigit
  if whole.isEmpty then
    .error .expectingNumber
  else
    let (fraction, afterFraction) := readFraction (unsigned.skip Char.isDigit)
    match readExponent afterFraction with
    | .error complaint => .error complaint
    | .ok (exponent, after) => .ok (⟨sign.isSome, whole, fraction, exponent⟩, after)

/-- An integer of 64 bits. -/
def readInt (place : Place) : Token Int64 :=
  match readNumeral place with
  | .error _ => .error ⟨place.offset, .expectingInt⟩
  | .ok (numeral, after) =>
    match int64? numeral.toInt with
    | none => .error ⟨place.offset, .expectingInt⟩
    | some value =>
      if numeral.isInteger && isDelimited after.rest then
        .ok (value, after)
      else
        .error ⟨place.offset, .expectingInt⟩

/-- A number of double precision. -/
def readNumber (place : Place) : Token Number :=
  match readNumeral place with
  | .error complaint => .error ⟨place.offset, complaint⟩
  | .ok (numeral, after) =>
    if isDelimited after.rest then
      .ok (numeral.toNumber, after)
    else
      .error ⟨place.offset, .expectingNumber⟩

/-! ### Strings, truth values and timestamps -/

/-- The character that a letter after a backslash stands for. -/
def unescaped? (letter : Char) : Option Char :=
  match letter with
  | '"' => some '"'
  | '\\' => some '\\'
  | 'n' => some '\n'
  | 't' => some '\t'
  | 'r' => some '\r'
  | _ => none

/-- The characters of a string up to its closing quote, and the place after that. -/
def readStringBody (offset : Nat) : List Char → Token (List Char)
  | [] => .error ⟨offset, .expectingSymbol "\""⟩
  | ['\\'] => .error ⟨offset + 1, .unexpectedCharacter⟩
  | '\\' :: letter :: rest =>
    match unescaped? letter with
    | none => .error ⟨offset + 1, .unexpectedCharacter⟩
    | some character =>
      match readStringBody (offset + 2) rest with
      | .error failure => .error failure
      | .ok (body, after) => .ok (character :: body, after)
  | character :: rest =>
    if character = '"' then
      .ok ([], ⟨offset + 1, rest⟩)
    else
      match readStringBody (offset + character.utf8Size) rest with
      | .error failure => .error failure
      | .ok (body, after) => .ok (character :: body, after)

/-- A string between quotes, which stands for something that has a name. -/
def readQuoted (what : String) (place : Place) : Token (List Char) :=
  match place.eat? ['"'] with
  | none => .error ⟨place.offset, .expecting what⟩
  | some opened =>
    match readStringBody opened.offset opened.rest with
    | .error failure => .error failure
    | .ok (body, after) =>
      if isDelimited after.rest then .ok (body, after)
      else .error ⟨after.offset, .unexpectedCharacter⟩

/-- A truth value. -/
def readBool (place : Place) : Token Bool :=
  match place.word? ['#', 't'] with
  | some after => .ok (true, after)
  | none =>
    match place.word? ['#', 'f'] with
    | some after => .ok (false, after)
    | none => .error ⟨place.offset, .expecting "boolean"⟩

/-- A timestamp between quotes. -/
def readTimestamp (place : Place) : Token Timestamp :=
  match readQuoted "timestamp" place with
  | .error failure => .error failure
  | .ok (body, after) =>
    match Timestamp.ofFormulaText? body with
    | some timestamp => .ok (timestamp, after)
    | none => .error ⟨place.offset, .invalidTimestamp (String.ofList body)⟩

/-- A literal of a kind. -/
def readLiteral : Scalar → Place → Token Literal
  | .int, place => (readInt place).map fun (value, after) ↦ (.int value, after)
  | .number, place => (readNumber place).map fun (value, after) ↦ (.number value, after)
  | .string, place =>
    (readQuoted "string" place).map fun (body, after) ↦ (.string (String.ofList body), after)
  | .bool, place => (readBool place).map fun (value, after) ↦ (.bool value, after)
  | .timestamp, place => (readTimestamp place).map fun (value, after) ↦ (.timestamp value, after)

end Formulary
