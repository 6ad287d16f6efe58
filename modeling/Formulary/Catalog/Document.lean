import Formulary.Fault
import Formulary.Json.Fields
import Formulary.Json.Reader
import Formulary.Timestamp.Reader
/-!
Catalogs as JSON documents. A document lists operators with type expressions in place of types and
JSON values in place of defaults. It is read in three stages, each of which has to succeed for the
whole document before the next one begins: the form of the document, the types and defaults in
their order, and the soundness of the catalog. Main definitions: `OperatorEntry.listOfDocument?`,
`OperatorEntry.operator`, `defaultOf` and `Catalog.ofText`.
-/

set_option autoImplicit false
set_option relaxedAutoImplicit false

namespace Formulary

/-- A keyword argument in a document. -/
structure KeywordEntry where
  name : String
  type : String
  default : Json

/-- An operator in a document. -/
structure OperatorEntry where
  name : String
  result : String
  parameters : List String
  keywords : List KeywordEntry

/-! ### The form of a document -/

/-- A keyword argument with a name, a type and perhaps a default. -/
def KeywordEntry.ofJson? (document : Json) : Option KeywordEntry :=
  match document.fields? ["name", "type", "default"] 2 with
  | some [name, type, default] => do
    let name ← name.bind Json.text?
    let type ← type.bind Json.text?
    let default := default.getD .null
    if default.isReadable then some ⟨name, type, default⟩ else none
  | _ => none

/-- An operator with a name, a result and perhaps parameters and keyword arguments. -/
def OperatorEntry.ofJson? (document : Json) : Option OperatorEntry :=
  match document.fields? ["name", "return", "args", "optional"] 2 with
  | some [name, result, parameters, keywords] => do
    let name ← name.bind Json.text?
    let result ← result.bind Json.text?
    let parameters ← (parameters.getD (.array [])).listOf? Json.text?
    let keywords ← (keywords.getD (.array [])).listOf? KeywordEntry.ofJson?
    some ⟨name, result, parameters, keywords⟩
  | _ => none

/-- The operators that a document lists. -/
def OperatorEntry.listOfDocument? (document : Json) : Option (List OperatorEntry) :=
  match document.fields? ["operators"] 1 with
  | some [some operators] => operators.listOf? OperatorEntry.ofJson?
  | _ => none

/-! ### Types and defaults -/

/-- The type that an expression in a document denotes. -/
def typeOf (expression : String) : Except Fault ArgType :=
  match ArgType.ofText expression with
  | .ok type => .ok type
  | .error fault => .error (.typeExpression expression fault)

/-- The literal that a JSON value stands for as a default of a type; null stands for none. A number
is an integer and a text is a timestamp where the type admits them. Arrays and objects, which are
the values without a literal, give nothing. -/
def defaultOf (type : ArgType) : Json → Option (Option Literal)
  | .null => some none
  | .bool value => some (some (.bool value))
  | .integer value =>
    match (int64? value).filter fun _ ↦ type.admits .int with
    | some value => some (some (.int value))
    | none => some (some (.number (.ofDecimal (value < 0) ⟨value.natAbs, 0⟩)))
  | .real value => some (some (.number value))
  | .string text =>
    match (Timestamp.ofFormulaText? text.toList).filter fun _ ↦ type.admits .timestamp with
    | some value => some (some (.timestamp value))
    | none => some (some (.string text))
  | .unreadable | .array _ | .object _ => none

/-- The keyword argument that an entry of an operator declares. -/
def KeywordEntry.keyword (operator : String) (entry : KeywordEntry) :
    Except Fault Keyword := do
  let type ← typeOf entry.type
  match defaultOf type entry.default with
  | some default => .ok ⟨entry.name, type, default⟩
  | none => .error (.compoundDefault operator entry.name entry.default)

/-- The base that an operator with a result of some type produces. -/
def baseOf (operator expression : String) : ArgType → Except Fault Base
  | .series => .ok .series
  | .scalar kind => .ok (.scalar kind)
  | type => .error (.resultType operator expression type)

/-- The operator that an entry declares. -/
def OperatorEntry.operator (entry : OperatorEntry) : Except Fault Operator := do
  let resultType ← typeOf entry.result
  let result ← baseOf entry.name entry.result resultType
  let parameters ← entry.parameters.mapM typeOf
  let keywords ← entry.keywords.mapM (KeywordEntry.keyword entry.name)
  .ok ⟨entry.name, result, parameters, keywords⟩

/-! ### Catalogs -/

namespace Catalog

/-- The catalog that a JSON text describes, if it is sound. -/
def ofText (source : String) : Except Fault Catalog :=
  match (Json.ofExchangeText? source).bind OperatorEntry.listOfDocument? with
  | none => .error .unreadableDocument
  | some entries => do
    let operators ← entries.mapM OperatorEntry.operator
    let catalog := ofList operators
    match catalog.fault? with
    | none => .ok catalog
    | some fault => .error (.unsoundCatalog fault)

/-- The catalog that the content of a file describes; there may be no such file. -/
def ofFileContent (content : Option ByteArray) : Except Fault Catalog :=
  match content.bind String.fromUTF8? with
  | none => .error .unreadableFile
  | some source => ofText source

end Catalog

end Formulary
