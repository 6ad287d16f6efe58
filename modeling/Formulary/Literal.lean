import Formulary.ArgType
import Formulary.Number.Style
import Formulary.Timestamp.Printer
/-!
Literals, the values that are written out in a formula. Main definitions: `Literal`,
`Literal.scalar`, its kind, and `Literal.characters`, its written form.
-/

set_option autoImplicit false
set_option relaxedAutoImplicit false

namespace Formulary

/-- A value of one of the kinds of scalars. The NaN counts among the numbers; no text denotes it. -/
inductive Literal
  | int (value : Int64)
  | number (value : Number)
  | nan
  | string (value : String)
  | bool (value : Bool)
  | timestamp (value : Timestamp)
deriving DecidableEq, Repr

/-- The word of 64 bits that has a value, if there is one. -/
def int64? (value : Int) : Option Int64 :=
  let word := Int64.ofInt value
  if word.toInt = value then some word else none

namespace Literal

/-- The kind of a literal. -/
def scalar : Literal → Scalar
  | .int _ => .int
  | .number _ | .nan => .number
  | .string _ => .string
  | .bool _ => .bool
  | .timestamp _ => .timestamp

/-- How one character is written inside a string. -/
def escaped (character : Char) : List Char :=
  match character with
  | '"' => ['\\', '"']
  | '\\' => ['\\', '\\']
  | '\n' => ['\\', 'n']
  | '\t' => ['\\', 't']
  | '\r' => ['\\', 'r']
  | _ => [character]

/-- The written form of a literal. A number always shows a point, so that it never reads back as an
integer. -/
def characters : Literal → List Char
  | .int value => signedDigitsOf value.toInt
  | .number value => formulaStyle.write value
  | .nan => ['N', 'a', 'N']
  | .string value => '"' :: value.toList.flatMap escaped ++ ['"']
  | .bool true => ['#', 't']
  | .bool false => ['#', 'f']
  | .timestamp value => '"' :: value.formulaText ++ ['"']

/-- The written form of a literal as a text. -/
def text (literal : Literal) : String :=
  String.ofList literal.characters

/-- The same literal with a zero made positive. -/
def withoutZeroSign : Literal → Literal
  | .number value => .number value.withoutZeroSign
  | literal => literal

end Literal

namespace ArgType

/-- Whether a literal may stand where an argument of the type does. -/
def accepts (type : ArgType) (literal : Literal) : Bool :=
  type.admits literal.scalar

end ArgType

end Formulary
