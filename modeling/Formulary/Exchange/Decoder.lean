import Formulary.Catalog.Document
import Formulary.Exchange.Encoder
/-!
Reading the exchange format. The reader takes more than what is written: records may be arrays of
their fields, a bare name may be an object with null, and the two members of a named form may come
in either order. Where what belongs to a name comes before it, it is kept aside until the name is
known; then all of it has to be readable, an empty object may stand for null, and a number for a
name. Main definitions: `Keeping`, and `decode?` for each type.
-/

set_option autoImplicit false
set_option relaxedAutoImplicit false

namespace Formulary

/-- Whether a document is read directly or was kept aside first. -/
inductive Keeping
  | direct
  | aside
deriving DecidableEq, Repr

namespace Json

/-- A named form: its name, and what is given along with it. -/
def form? : Json → Option (String × Option Json)
  | .string name => some (name, none)
  | .object [(some name, value)] => some (name, some value)
  | _ => none

/-- A bare name, which may be given along with null. -/
def bareName? (keeping : Keeping) (document : Json) : Option String :=
  match document.form? with
  | some (name, none) => some name
  | some (name, some .null) => some name
  | some (name, some (.object [])) => if keeping = .aside then some name else none
  | _ => none

/-- The place of the first member with a name, and its value. -/
def findMember? (name : String) (members : List (Option String × Json)) : Option (Nat × Json) := do
  let place ← members.findIdx? fun member ↦ member.1 == some name
  let member ← members[place]?
  some (place, member.2)

/-- The first of the two elements of an array that stands for a named form: the name, or, in what
was kept aside, its number among all the names. -/
def leadingName? (keeping : Keeping) (names : List String) : Json → Option String
  | .string name => some name
  | .integer index => if keeping = .aside ∧ 0 ≤ index then names[index.toNat]? else none
  | _ => none

/-- A name under one fixed member and what belongs to it under another, or an array of the two. The
member with the name is read as a bare name, and each of the two may be there only once. -/
def labelled? (keeping : Keeping) (names : List String) (nameMember valueMember : String)
    (document : Json) : Option (String × Keeping × Json) :=
  match document with
  | .array [name, value] =>
    (name.leadingName? keeping names).map fun name ↦ (name, keeping, value)
  | .object members => do
    let once (name : String) : Bool := members.countP (fun member ↦ member.1 == some name) == 1
    if members.all (fun member ↦ member.1.isSome) && once nameMember && once valueMember then
      let (namePlace, name) ← findMember? nameMember members
      let (valuePlace, value) ← findMember? valueMember members
      let name ← name.bareName? keeping
      if namePlace < valuePlace then
        some (name, keeping, value)
      else if value.isReadable then
        some (name, .aside, value)
      else
        none
    else
      none
  | _ => none

end Json

/-- The scalar with a name. -/
def Scalar.ofName? (name : String) : Option Scalar :=
  Scalar.all.find? fun kind ↦ kind.name == name

/-- Reads a scalar. -/
def Scalar.decode? (keeping : Keeping) (document : Json) : Option Scalar :=
  (document.bareName? keeping).bind Scalar.ofName?

/-- Reads a base. -/
def Base.decode? (keeping : Keeping) (document : Json) : Option Base :=
  match document.form? with
  | some ("Input", some kind) => (Scalar.decode? keeping kind).map .scalar
  | _ => if document.bareName? keeping = some "Series" then some .series else none

namespace ArgType

/-- Reads a type whose document has at most a nesting. -/
def decodeWithin? (keeping : Keeping) : Nat → Json → Option ArgType
  | 0, _ => none
  | nesting + 1, document =>
    match document.form? with
    | some ("Input", some kind) => (Scalar.decode? keeping kind).map .scalar
    | some ("Union", some alternatives) =>
      (alternatives.listOf? (decodeWithin? keeping nesting)).map .union
    | some ("List", some element) => (decodeWithin? keeping nesting element).map .list
    | _ => if document.bareName? keeping = some "Series" then some .series else none

/-- Reads a type. -/
def decode? (keeping : Keeping) (document : Json) : Option ArgType :=
  decodeWithin? keeping (document.nesting + 1) document

end ArgType

/-- Reads a number of double precision, which may be written as an integer. -/
def Number.decode? : Json → Option Number
  | .integer value => some (.ofDecimal (value < 0) ⟨value.natAbs, 0⟩)
  | .real value => some value
  | _ => none

/-- Reads an integer of 64 bits. -/
def decodeInt? : Json → Option Int64
  | .integer value => int64? value
  | _ => none

/-- Reads a truth value. -/
def decodeBool? : Json → Option Bool
  | .bool value => some value
  | _ => none

/-- Reads the value of a literal of a kind. -/
def Literal.decodeValue? (document : Json) : Scalar → Option Literal
  | .int => (decodeInt? document).map .int
  | .number => (Number.decode? document).map .number
  | .string => document.text?.map .string
  | .bool => (decodeBool? document).map .bool
  | .timestamp =>
    (document.text?.bind fun text ↦ Timestamp.ofExchangeText? text.toList).map .timestamp

/-- Reads a literal. -/
def Literal.decode? (keeping : Keeping) (document : Json) : Option Literal := do
  let (name, _, value) ← document.labelled? keeping (Scalar.all.map Scalar.name) "type" "value"
  let kind ← Scalar.ofName? name
  decodeValue? value kind

/-- Reads a default, which is null or left out where there is none. -/
def decodeDefault? (keeping : Keeping) : Option Json → Option (Option Literal)
  | none | some .null => some none
  | some document => (Literal.decode? keeping document).map some

/-- Reads a keyword argument. -/
def Keyword.decode? (keeping : Keeping) (document : Json) : Option Keyword :=
  match document.fields? ["name", "exp_type", "default"] 3 with
  | some [name, type, default] => do
    let name ← name.bind Json.text?
    let type ← type.bind (ArgType.decode? keeping)
    let default ← decodeDefault? keeping default
    some ⟨name, type, default⟩
  | _ => none

/-- Reads an operator. -/
def Operator.decode? (keeping : Keeping) (document : Json) : Option Operator :=
  match document.fields? ["name", "return_type", "args", "opt_args"] 4 with
  | some [some name, some result, some parameters, some keywords] => do
    let name ← name.text?
    let result ← Base.decode? keeping result
    let parameters ← parameters.listOf? (ArgType.decode? keeping)
    let keywords ← keywords.listOf? (Keyword.decode? keeping)
    some ⟨name, result, parameters, keywords⟩
  | _ => none

/-- The names of the sorts of slots. -/
def Slot.sorts : List String :=
  ["ReturnType", "BaseType", "InputSelector", "ExpType", "OptArgs", "Operator", "OptArg"]

/-- Reads a slot. -/
def Slot.decode? (keeping : Keeping) (document : Json) : Option Slot := do
  let (sort, keeping, of) ← document.labelled? keeping sorts "kind" "of"
  match sort with
  | "ReturnType" => (Base.decode? keeping of).map .root
  | "BaseType" => (Base.decode? keeping of).map .call
  | "InputSelector" => (Scalar.decode? keeping of).map .choice
  | "ExpType" => (ArgType.decode? keeping of).map .typed
  | "OptArgs" => (of.listOf? (Keyword.decode? keeping)).map .keywords
  | "Operator" => (Operator.decode? keeping of).map .operator
  | "OptArg" => (Keyword.decode? keeping of).map .keyword
  | _ => none

/-- Reads the content of a node. -/
def decodeContent? (document : Json) : Option (Option Literal) :=
  match document.form? with
  | some ("Literal", some literal) => (Literal.decode? .direct literal).map some
  | _ => if document.bareName? .direct = some "Placeholder" then some none else none

/-- Reads a node. -/
def decodeNode? (document : Json) : Option (Slot × Option Literal) :=
  match document.fields? ["edition_type", "content"] 2 with
  | some [some slot, some content] => do
    let slot ← Slot.decode? .direct slot
    let content ← decodeContent? content
    some (slot, content)
  | _ => none

namespace Outline

/-- Reads an outline whose document has at most a nesting. -/
def decodeWithin? : Nat → Json → Option Outline
  | 0, _ => none
  | nesting + 1, document =>
    match document.fields? ["node", "children"] 2 with
    | some [some root, some parts] => do
      let (slot, content) ← decodeNode? root
      let parts ← parts.listOf? (decodeWithin? nesting)
      some (.node slot content parts)
    | _ => none

/-- Reads an outline. -/
def decode? (document : Json) : Option Outline :=
  decodeWithin? (document.nesting + 1) document

/-- The text of an outline in the exchange format. -/
def exchangeText (outline : Outline) : String :=
  outline.encode.text

/-- The outline that a text in the exchange format denotes. -/
def ofExchangeText? (text : String) : Option Outline :=
  (Json.ofExchangeText? text).bind decode?

end Outline

end Formulary
