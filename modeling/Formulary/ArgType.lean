/-!
The types of a formula's parts. A scalar is a kind of literal; a base is what an operator can
produce, a series or a scalar; an argument type is a scalar, a series, an ordered choice or a list.
Main definitions: `Scalar`, `Base`, `ArgType`, and on the last one `admits`, which literals may
stand there, and `hasEmptyUnion`.
-/

set_option autoImplicit false
set_option relaxedAutoImplicit false

namespace Formulary

/-- The kinds of literals. -/
inductive Scalar
  | int
  | number
  | string
  | bool
  | timestamp
deriving DecidableEq, Repr

/-- What an operator produces. -/
inductive Base
  | series
  | scalar (kind : Scalar)
deriving DecidableEq, Repr

/-- The type of an argument of an operator. -/
inductive ArgType
  /-- A literal, or an operator that produces one. -/
  | scalar (kind : Scalar)
  /-- An operator that produces a series. -/
  | series
  /-- The first of some alternatives that fits. -/
  | union (alternatives : List ArgType)
  /-- Any number of elements between parentheses. -/
  | list (element : ArgType)
deriving Repr

namespace Scalar

/-- Every scalar. -/
def all : List Scalar :=
  [.int, .number, .string, .bool, .timestamp]

/-- The name of a scalar. -/
def name : Scalar → String
  | .int => "Int"
  | .number => "Number"
  | .string => "String"
  | .bool => "Bool"
  | .timestamp => "Timestamp"

/-- The scalar that a name in a type expression stands for; three have a second name. -/
def ofTypeName? (name : String) : Option Scalar :=
  match name with
  | "Int" | "int" => some .int
  | "Number" => some .number
  | "String" | "str" => some .string
  | "Bool" | "bool" => some .bool
  | "Timestamp" => some .timestamp
  | _ => none

end Scalar

namespace Base

/-- Every base, the series first. -/
def all : List Base :=
  .series :: Scalar.all.map .scalar

/-- The name of a base. -/
def name : Base → String
  | .series => "Series"
  | .scalar kind => kind.name

/-- A base as the type of an argument. -/
def toArgType : Base → ArgType
  | .series => .series
  | .scalar kind => .scalar kind

end Base

namespace ArgType

mutual

/-- Whether two types are the same. -/
def decEq : (first second : ArgType) → Decidable (first = second)
  | .scalar first, .scalar second =>
    if h : first = second then
      isTrue (h ▸ rfl)
    else
      isFalse fun equal ↦ h (ArgType.scalar.inj equal)
  | .series, .series => isTrue rfl
  | .union first, .union second =>
    match decEqAll first second with
    | isTrue h => isTrue (h ▸ rfl)
    | isFalse h => isFalse fun equal ↦ h (ArgType.union.inj equal)
  | .list first, .list second =>
    match decEq first second with
    | isTrue h => isTrue (h ▸ rfl)
    | isFalse h => isFalse fun equal ↦ h (ArgType.list.inj equal)
  | .scalar _, .series | .scalar _, .union _ | .scalar _, .list _
  | .series, .scalar _ | .series, .union _ | .series, .list _
  | .union _, .scalar _ | .union _, .series | .union _, .list _
  | .list _, .scalar _ | .list _, .series | .list _, .union _ => isFalse nofun

/-- Whether two lists of types are the same. -/
def decEqAll : (first second : List ArgType) → Decidable (first = second)
  | [], [] => isTrue rfl
  | first :: firsts, second :: seconds =>
    match decEq first second, decEqAll firsts seconds with
    | isTrue h, isTrue hs => isTrue (h ▸ hs ▸ rfl)
    | isFalse h, _ => isFalse fun equal ↦ h (List.cons.inj equal).1
    | _, isFalse hs => isFalse fun equal ↦ hs (List.cons.inj equal).2
  | [], _ :: _ | _ :: _, [] => isFalse nofun

end

instance : DecidableEq ArgType := decEq

mutual

/-- The written form of a type, which is read back as the type. -/
def characters : ArgType → List Char
  | .scalar kind => kind.name.toList
  | .series => "Series".toList
  | .union alternatives => "Union[".toList ++ charactersOfAll alternatives ++ [']']
  | .list element => "List[".toList ++ element.characters ++ [']']

/-- The written forms of types, with a comma and a space between them. -/
def charactersOfAll : List ArgType → List Char
  | [] => []
  | [type] => type.characters
  | type :: types => type.characters ++ ',' :: ' ' :: charactersOfAll types

end

/-- The written form of a type as a text. -/
def text (type : ArgType) : String :=
  String.ofList type.characters

mutual

/-- Whether a literal of a kind may stand where an argument of the type does. -/
def admits (kind : Scalar) : ArgType → Bool
  | .scalar own => own = kind
  | .union alternatives => anyAdmits kind alternatives
  | .series | .list _ => false

/-- Whether one of some alternatives admits a kind. -/
def anyAdmits (kind : Scalar) : List ArgType → Bool
  | [] => false
  | type :: types => type.admits kind || anyAdmits kind types

end

mutual

/-- Whether there is a choice without alternatives anywhere in a type. -/
def hasEmptyUnion : ArgType → Bool
  | .scalar _ | .series => false
  | .union alternatives => alternatives.isEmpty || anyHasEmptyUnion alternatives
  | .list element => element.hasEmptyUnion

/-- Whether there is a choice without alternatives anywhere in some types. -/
def anyHasEmptyUnion : List ArgType → Bool
  | [] => false
  | type :: types => type.hasEmptyUnion || anyHasEmptyUnion types

end

mutual

/-- How deeply the parts of a type are nested, the type itself counted. -/
def depth : ArgType → Nat
  | .scalar _ | .series => 1
  | .union alternatives => depthOfAll alternatives + 1
  | .list element => element.depth + 1

/-- The greatest depth of some types. -/
def depthOfAll : List ArgType → Nat
  | [] => 0
  | type :: types => max type.depth (depthOfAll types)

end

end ArgType

end Formulary
