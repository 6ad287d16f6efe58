import Formulary.Operator
/-!
Slots: the places of a formula that a node of an outline stands for. Main definitions: `Slot`,
`Slot.ofArgument`, the place of an argument of some type, and `Slot.description`.
-/

set_option autoImplicit false
set_option relaxedAutoImplicit false

namespace Formulary

/-- What a node of an outline stands for. -/
inductive Slot
  /-- A whole formula that produces a base. -/
  | root (base : Base)
  /-- One use of an operator that produces a base. -/
  | call (base : Base)
  /-- A literal of a kind, or a use of an operator that produces one. -/
  | choice (kind : Scalar)
  /-- A literal, a union or a list. -/
  | typed (type : ArgType)
  /-- The keyword arguments of an operator together. -/
  | keywords (group : List Keyword)
  /-- An operator with its arguments. -/
  | operator (chosen : Operator)
  /-- One keyword argument. -/
  | keyword (own : Keyword)
deriving DecidableEq

namespace Slot

/-- The place of an argument: a series is always a use of an operator, and a scalar may be one. -/
def ofArgument : ArgType → Slot
  | .series => .call .series
  | .scalar kind => .choice kind
  | type => .typed type

/-- What a slot is called in a trace of the reading. -/
def description : Slot → String
  | .root base => "return " ++ base.name
  | .call base => "base " ++ base.name
  | .choice kind => "input " ++ kind.name
  | .typed type => "type " ++ type.text
  | .keywords group => toString group.length ++ " optional args"
  | .operator chosen => "operator " ++ chosen.name
  | .keyword own => "optional arg " ++ own.marker

/-- The defaults that a slot declares. -/
def defaults : Slot → List Literal
  | .keywords group => group.filterMap Keyword.default
  | .operator chosen => chosen.keywords.filterMap Keyword.default
  | .keyword own => own.default.toList
  | _ => []

/-- The same slot with zero defaults made positive. -/
def withoutZeroSign : Slot → Slot
  | .keywords group => .keywords (group.map Keyword.withoutZeroSign)
  | .operator chosen => .operator chosen.withoutZeroSign
  | .keyword own => .keyword own.withoutZeroSign
  | slot => slot

end Slot

end Formulary
