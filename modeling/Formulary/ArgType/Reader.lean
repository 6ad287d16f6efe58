import Formulary.ArgType
import Formulary.Text.Alphanumeric
import Formulary.Text.Blank
import Formulary.Text.Place
/-!
Reading type expressions such as `Union[Int, List[Series]]`. Names are words of letters, digits and
underscores, and blanks may stand around every part. Main definitions: `TypeFault`, what can be
wrong with an expression, and `ArgType.ofText`, the reader.
-/

set_option autoImplicit false
set_option relaxedAutoImplicit false

namespace Formulary

open Text

/-- What is wrong with a type expression. Offsets are in bytes. -/
inductive TypeFault
  /-- There is no name where a type begins. -/
  | nameExpected (offset : Nat)
  /-- The parameters of a union or a list do not begin. -/
  | bracketExpected (offset : Nat)
  /-- The parameters go on without a comma and do not end. -/
  | separatorExpected (offset : Nat)
  /-- A list has another number of parameters than one. -/
  | listParameters (count : Nat)
  /-- Something follows the type. -/
  | trailingText (offset : Nat)
  /-- No type has this name. -/
  | unknownName (name : String)
  /-- A union has no alternatives. -/
  | emptyUnion
deriving DecidableEq, Repr

namespace ArgType

/-- The characters of type names. -/
def isNameCharacter (character : Char) : Bool :=
  isAlphanumeric character || character == '_'

/-- The parameters between brackets, given how to read those after the opening bracket. -/
def readParameters (readOthers : Place → Except TypeFault (List ArgType × Place))
    (place : Place) : Except TypeFault (List ArgType × Place) :=
  let bracket := place.skip isBlank
  match bracket.eat? ['['] with
  | none => .error (.bracketExpected bracket.offset)
  | some inside =>
    let first := inside.skip isBlank
    match first.eat? [']'] with
    | some after => .ok ([], after)
    | none => readOthers first

mutual

/-- Reads a type. The bound is on the number of nested calls. -/
def readType : Nat → Place → Except TypeFault (ArgType × Place)
  | 0, place => .error (.nameExpected place.offset)
  | bound + 1, place =>
    let start := place.skip isBlank
    let name := String.ofList (start.run isNameCharacter)
    let after := start.skip isNameCharacter
    if name = "" then
      .error (.nameExpected start.offset)
    else if name = "Union" then
      match readParameters (readAlternatives bound) after with
      | .error fault => .error fault
      | .ok ([], _) => .error .emptyUnion
      | .ok (alternatives, after) => .ok (.union alternatives, after)
    else if name = "List" then
      match readParameters (readAlternatives bound) after with
      | .error fault => .error fault
      | .ok ([element], after) => .ok (.list element, after)
      | .ok (parameters, _) => .error (.listParameters parameters.length)
    else if name = "Series" then
      .ok (.series, after)
    else
      match Scalar.ofTypeName? name with
      | some kind => .ok (.scalar kind, after)
      | none => .error (.unknownName name)

/-- Reads types with commas between them up to the closing bracket. -/
def readAlternatives : Nat → Place → Except TypeFault (List ArgType × Place)
  | 0, place => .error (.nameExpected place.offset)
  | bound + 1, place =>
    match readType bound place with
    | .error fault => .error fault
    | .ok (type, after) =>
      let separator := after.skip isBlank
      match separator.eat? [','] with
      | some next =>
        match readAlternatives bound next with
        | .error fault => .error fault
        | .ok (types, after) => .ok (type :: types, after)
      | none =>
        match separator.eat? [']'] with
        | some after => .ok ([type], after)
        | none => .error (.separatorExpected separator.offset)

end

/-- The type that an expression denotes. A type takes a character at least and another one before
its parameters, so twice the length of the expression bounds the nested calls. -/
def ofText (expression : String) : Except TypeFault ArgType :=
  let text := expression.toList
  match readType (2 * text.length + 1) (.start text) with
  | .error fault => .error fault
  | .ok (type, after) =>
    let last := after.skip isBlank
    if last.isAtEnd then .ok type else .error (.trailingText last.offset)

end ArgType

end Formulary
