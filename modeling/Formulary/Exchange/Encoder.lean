import Formulary.Json
import Formulary.Outline
import Formulary.Timestamp.Printer
/-!
The exchange format: outlines, and everything in them, as JSON documents. A choice between named
forms is written as the bare name, as an object with the name and what belongs to it, or with the
name and that under two fixed members. Main definitions: `encode` for each type.
-/

set_option autoImplicit false
set_option relaxedAutoImplicit false

namespace Formulary

/-- A scalar is its name. -/
def Scalar.encode (kind : Scalar) : Json :=
  .string kind.name

/-- A base is `Series`, or a scalar as `Input`. -/
def Base.encode : Base → Json
  | .series => .string "Series"
  | .scalar kind => .record [("Input", kind.encode)]

namespace ArgType

mutual

/-- A type is `Series`, or its parts as `Input`, `Union` or `List`. -/
def encode : ArgType → Json
  | .scalar kind => .record [("Input", kind.encode)]
  | .series => .string "Series"
  | .union alternatives => .record [("Union", .array (encodeAll alternatives))]
  | .list element => .record [("List", element.encode)]

/-- The documents of some types. -/
def encodeAll : List ArgType → List Json
  | [] => []
  | type :: types => type.encode :: encodeAll types

end

end ArgType

/-- A number; infinity is not a JSON number and becomes null. -/
def Number.encode (number : Number) : Json :=
  if number.isFinite then .real number else .null

/-- A literal is its kind and its value; the NaN is not a JSON number either. -/
def Literal.encode (literal : Literal) : Json :=
  let value : Json :=
    match literal with
    | .int value => .integer value.toInt
    | .number value => value.encode
    | .nan => .null
    | .string value => .string value
    | .bool value => .bool value
    | .timestamp value => .string (String.ofList value.exchangeText)
  .record [("type", literal.scalar.encode), ("value", value)]

/-- A keyword argument is its name, its type and its default or null. -/
def Keyword.encode (keyword : Keyword) : Json :=
  .record
    [("name", .string keyword.name), ("exp_type", keyword.type.encode),
      ("default", keyword.default.elim .null Literal.encode)]

/-- An operator is its name, its result, its parameters and its keyword arguments. -/
def Operator.encode (operator : Operator) : Json :=
  .record
    [("name", .string operator.name), ("return_type", operator.result.encode),
      ("args", .array (operator.parameters.map ArgType.encode)),
      ("opt_args", .array (operator.keywords.map Keyword.encode))]

/-- A slot is its sort and what it is a slot of. -/
def Slot.encode (slot : Slot) : Json :=
  let (sort, of) : String × Json :=
    match slot with
    | .root base => ("ReturnType", base.encode)
    | .call base => ("BaseType", base.encode)
    | .choice kind => ("InputSelector", kind.encode)
    | .typed type => ("ExpType", type.encode)
    | .keywords group => ("OptArgs", .array (group.map Keyword.encode))
    | .operator chosen => ("Operator", chosen.encode)
    | .keyword own => ("OptArg", own.encode)
  .record [("kind", .string sort), ("of", of)]

/-- The content of a node is `Placeholder`, or a literal as `Literal`. -/
def encodeContent : Option Literal → Json
  | none => .string "Placeholder"
  | some literal => .record [("Literal", literal.encode)]

/-- A node is its slot and its content. -/
def encodeNode (slot : Slot) (content : Option Literal) : Json :=
  .record [("edition_type", slot.encode), ("content", encodeContent content)]

namespace Outline

mutual

/-- An outline is its root and the outlines below. -/
def encode : Outline → Json
  | .node slot content parts =>
    .record [("node", encodeNode slot content), ("children", .array (encodeAll parts))]

/-- The documents of some outlines. -/
def encodeAll : List Outline → List Json
  | [] => []
  | outline :: outlines => outline.encode :: encodeAll outlines

end

end Outline

end Formulary
