import Formulary.Literal
/-!
Operators: the words that open a parenthesis in a formula. An operator takes its parameters in
order and then its keyword arguments, which may be left out. Main definitions: `Keyword` and
`Operator`.
-/

set_option autoImplicit false
set_option relaxedAutoImplicit false

namespace Formulary

/-- A keyword argument: it may be left out, and then the default stands for it if there is one. -/
structure Keyword where
  name : String
  type : ArgType
  default : Option Literal
deriving DecidableEq

/-- An operator with its result, its parameters in order, and its keyword arguments. -/
structure Operator where
  name : String
  result : Base
  parameters : List ArgType
  keywords : List Keyword
deriving DecidableEq

namespace Keyword

/-- The word that announces a keyword argument in a formula. -/
def marker (keyword : Keyword) : String :=
  "#:" ++ keyword.name

/-- The same keyword argument with a zero default made positive. -/
def withoutZeroSign (keyword : Keyword) : Keyword :=
  { keyword with default := keyword.default.map Literal.withoutZeroSign }

end Keyword

namespace Operator

/-- The types of everything that an operator takes. -/
def types (operator : Operator) : List ArgType :=
  operator.parameters ++ operator.keywords.map Keyword.type

/-- The same operator with zero defaults made positive. -/
def withoutZeroSign (operator : Operator) : Operator :=
  { operator with keywords := operator.keywords.map Keyword.withoutZeroSign }

end Operator

end Formulary
