import Formulary.Operator
/-!
Catalogs: the operators that formulas may use. A catalog lists them in the order of declaration and
also keeps those of each base together, since a formula is read base by base. Main definitions:
`Catalog`, `Catalog.add`, `Catalog.operators`, the operators of a base, and `Catalog.depth`, the
deepest type.
-/

set_option autoImplicit false
set_option relaxedAutoImplicit false

namespace Formulary

/-- Operators in the order of declaration, and again by the base that they produce. -/
structure Catalog where
  declared : List Operator
  groups : List (Base × List Operator)

namespace Catalog

/-- The catalog without operators. -/
def empty : Catalog :=
  ⟨[], []⟩

/-- One more operator at the end of the group of its base, which is opened if there is none. -/
def addToGroup (operator : Operator) :
    List (Base × List Operator) → List (Base × List Operator)
  | [] => [(operator.result, [operator])]
  | (base, members) :: groups =>
    if base = operator.result then
      (base, members ++ [operator]) :: groups
    else
      (base, members) :: addToGroup operator groups

/-- One more operator, declared after the others. -/
def add (catalog : Catalog) (operator : Operator) : Catalog :=
  ⟨catalog.declared ++ [operator], addToGroup operator catalog.groups⟩

/-- The catalog of some operators, declared in their order. -/
def ofList (operators : List Operator) : Catalog :=
  operators.foldl add empty

/-- The operators that produce a base, in the order of declaration. -/
def operators (catalog : Catalog) (base : Base) : List Operator :=
  (catalog.groups.lookup base).getD []

/-- The number of declared operators. -/
def size (catalog : Catalog) : Nat :=
  catalog.declared.length

/-- The depth of the deepest type in the catalog. -/
def depth (catalog : Catalog) : Nat :=
  ArgType.depthOfAll (catalog.declared.flatMap Operator.types)

end Catalog

end Formulary
