import Formulary.Catalog
/-!
Validation: a catalog is sound if it has an operator that produces a series, no type has a choice
without alternatives, and every default fits its type. Main definitions: `CatalogFault`, a reason
why a catalog is not sound, and `Catalog.fault?`, the first one.
-/

set_option autoImplicit false
set_option relaxedAutoImplicit false

namespace Formulary

/-- Why a catalog is not sound. -/
inductive CatalogFault
  /-- No operator produces a series, so there are no formulas. -/
  | noSeriesOperator
  /-- A parameter, counted from one, has a choice without alternatives. -/
  | emptyUnionInParameter (operator : String) (place : Nat)
  /-- A keyword argument has a choice without alternatives. -/
  | emptyUnionInKeyword (operator keyword : String)
  /-- A default does not fit its type. -/
  | unfitDefault (operator keyword : String) (default : Literal) (type : ArgType)
deriving DecidableEq

/-- The first fault of some parameters, the first of which has a given place. -/
def parameterFault? (operator : String) (place : Nat) : List ArgType → Option CatalogFault
  | [] => none
  | type :: types =>
    if type.hasEmptyUnion then
      some (.emptyUnionInParameter operator place)
    else
      parameterFault? operator (place + 1) types

/-- What is wrong with a keyword argument: first its type, then its default. -/
def Keyword.fault? (operator : String) (keyword : Keyword) : Option CatalogFault :=
  if keyword.type.hasEmptyUnion then
    some (.emptyUnionInKeyword operator keyword.name)
  else
    match keyword.default with
    | none => none
    | some default =>
      if keyword.type.accepts default then none
      else some (.unfitDefault operator keyword.name default keyword.type)

/-- The first fault of an operator: its parameters come before its keyword arguments. -/
def Operator.fault? (operator : Operator) : Option CatalogFault :=
  match parameterFault? operator.name 1 operator.parameters with
  | some fault => some fault
  | none => operator.keywords.findSome? (Keyword.fault? operator.name)

/-- The first fault of a catalog, if it is not sound. -/
def Catalog.fault? (catalog : Catalog) : Option CatalogFault :=
  if (catalog.operators .series).isEmpty then
    some .noSeriesOperator
  else
    catalog.declared.findSome? Operator.fault?

end Formulary
