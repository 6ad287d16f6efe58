import Formulary.ArgType.Reader
import Formulary.Catalog.Validation
import Formulary.Diagnostic
import Formulary.Json.Printer
/-!
Everything that can go wrong with catalogs and formulas. Main definitions: `Fault` and
`Fault.message`, the text of an error.
-/

set_option autoImplicit false
set_option relaxedAutoImplicit false

namespace Formulary

/-- What went wrong. -/
inductive Fault
  /-- A formula cannot be read. -/
  | unreadableFormula (diagnostics : List Diagnostic)
  /-- A type expression cannot be read. -/
  | typeExpression (expression : String) (fault : TypeFault)
  /-- An operator is declared with a result that no operator can produce. -/
  | resultType (operator expression : String) (type : ArgType)
  /-- A default is given as an array or an object. -/
  | compoundDefault (operator keyword : String) (value : Json)
  /-- A catalog is not sound. -/
  | unsoundCatalog (fault : CatalogFault)
  /-- A document is not a catalog. -/
  | unreadableDocument
  /-- There is no file, or it does not hold a text. -/
  | unreadableFile

/-- The text of a fault of a type expression. -/
def TypeFault.message (expression : String) : TypeFault → String
  | .nameExpected offset => invalid s!"expected a type name at offset {offset}"
  | .bracketExpected offset => invalid s!"expected '[' at offset {offset}"
  | .separatorExpected offset => invalid s!"expected ',' or ']' at offset {offset}"
  | .listParameters count => invalid s!"List takes one parameter, got {count}"
  | .trailingText offset => invalid s!"unexpected trailing text at offset {offset}"
  | .unknownName name => s!"Unknown type '{name}' in type expression '{expression}'"
  | .emptyUnion => s!"Empty union in type expression '{expression}'"
where
  /-- The text of an expression that is not formed properly. -/
  invalid (reason : String) : String :=
    s!"Invalid type expression '{expression}': {reason}"

/-- The text of an error about the default of a keyword argument. -/
def invalidDefaultMessage (operator keyword reason : String) : String :=
  s!"Invalid default for optional argument '{keyword}' of operator '{operator}': {reason}"

/-- The text of a fault of a catalog. -/
def CatalogFault.message : CatalogFault → String
  | .noSeriesOperator => "Spec declares no operator returning Series"
  | .emptyUnionInParameter operator place =>
    s!"Empty union in argument {place} of operator '{operator}'"
  | .emptyUnionInKeyword operator keyword =>
    s!"Empty union in optional argument '{keyword}' of operator '{operator}'"
  | .unfitDefault operator keyword default type =>
    invalidDefaultMessage operator keyword s!"{default.text} is not a {type.text}"

namespace Fault

/-- The text of an error. -/
def message : Fault → String
  | .unreadableFormula diagnostics => diagnosticText diagnostics
  | .typeExpression expression fault => fault.message expression
  | .resultType operator expression type =>
    s!"Invalid type expression '{expression}': operator '{operator}' must return a base type, not "
      ++ type.text
  | .compoundDefault operator keyword value =>
    invalidDefaultMessage operator keyword s!"{value.normal.text} is not a scalar"
  | .unsoundCatalog fault => fault.message
  | .unreadableDocument => "Invalid spec catalog"
  | .unreadableFile => "Failed to read spec catalog"

end Fault

end Formulary
