import Formulary.Number
/-!
JSON documents as they are written: members keep their order and their repetitions, and a number
keeps whether it was written as an integer. A number beyond the range and a text with half of a
surrogate pair are correct JSON but denote nothing; they are kept as such, since a reader may pass
over them. Main definitions: `Json`, `Json.isReadable`, `Json.limited`, where what nests too deeply
denotes nothing either, and `Json.normal`, the form with sorted members.
-/

set_option autoImplicit false
set_option relaxedAutoImplicit false

namespace Formulary

/-- A JSON document. The name of a member is absent where it denotes no text. -/
inductive Json
  | null
  | bool (value : Bool)
  | integer (value : Int)
  | real (value : Number)
  | string (text : String)
  /-- A number outside the range, a text with half of a surrogate pair, or what nests beyond a
  limit. -/
  | unreadable
  | array (elements : List Json)
  | object (members : List (Option String × Json))

namespace Json

/-- An object with named members. -/
def record (members : List (String × Json)) : Json :=
  .object (members.map fun (name, value) ↦ (some name, value))

/-- A natural number. -/
def natural (value : Nat) : Json :=
  .integer value

mutual

/-- Whether everything inside a document denotes something. -/
def isReadable : Json → Bool
  | .unreadable => false
  | .array elements => areReadable elements
  | .object members => membersReadable members
  | _ => true

/-- Whether every document of a list is readable. -/
def areReadable : List Json → Bool
  | [] => true
  | element :: elements => element.isReadable && areReadable elements

/-- Whether the name and the value of every member are readable. -/
def membersReadable : List (Option String × Json) → Bool
  | [] => true
  | (name, value) :: members => name.isSome && value.isReadable && membersReadable members

end

mutual

/-- How many arrays and objects are nested in a document, itself counted. -/
def nesting : Json → Nat
  | .array elements => nestingAll elements + 1
  | .object members => nestingMembers members + 1
  | _ => 0

/-- The deepest nesting among documents. -/
def nestingAll : List Json → Nat
  | [] => 0
  | element :: elements => max element.nesting (nestingAll elements)

/-- The deepest nesting among the values of members. -/
def nestingMembers : List (Option String × Json) → Nat
  | [] => 0
  | (_, value) :: members => max value.nesting (nestingMembers members)

end

mutual

/-- The document with every array and object that is nested deeper than a limit made unreadable. -/
def limited : Nat → Json → Json
  | 0, .array _ | 0, .object _ => .unreadable
  | limit + 1, .array elements => .array (limitedAll limit elements)
  | limit + 1, .object members => .object (limitedMembers limit members)
  | _, document => document

/-- Documents with a limit on their nesting. -/
def limitedAll (limit : Nat) : List Json → List Json
  | [] => []
  | element :: elements => element.limited limit :: limitedAll limit elements

/-- Members with a limit on the nesting of their values. -/
def limitedMembers (limit : Nat) : List (Option String × Json) → List (Option String × Json)
  | [] => []
  | (name, value) :: members => (name, value.limited limit) :: limitedMembers limit members

end

/-- A member put among members sorted by name, in place of one with its name. -/
def insertMember (name : String) (value : Json) :
    List (Option String × Json) → List (Option String × Json)
  | [] => [(some name, value)]
  | (other, held) :: members =>
    match other with
    | none => (other, held) :: insertMember name value members
    | some present =>
      if name < present then (some name, value) :: (other, held) :: members
      else if name = present then (some name, value) :: members
      else (other, held) :: insertMember name value members

mutual

/-- The document with the members of each object sorted by name, of equal names the last. -/
def normal : Json → Json
  | .array elements => .array (normalAll elements)
  | .object members => .object (normalMembers [] members)
  | document => document

/-- The normal forms of documents. -/
def normalAll : List Json → List Json
  | [] => []
  | element :: elements => element.normal :: normalAll elements

/-- Members put one after the other among those already sorted. -/
def normalMembers (sorted : List (Option String × Json)) :
    List (Option String × Json) → List (Option String × Json)
  | [] => sorted
  | (name, value) :: members =>
    normalMembers (name.elim sorted fun name ↦ insertMember name value.normal sorted) members

end

end Json

end Formulary
