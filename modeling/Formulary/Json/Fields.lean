import Formulary.Json
/-!
Records in JSON. A record is an object with its fields as members, in any order and among members
that do not matter, or an array of its fields in their order. Main definitions: `Json.fields?`, the
fields of a record, and `text?` and `listOf?` for their values.
-/

set_option autoImplicit false
set_option relaxedAutoImplicit false

namespace Formulary.Json

/-- The fields of a record by their names. In an object no field may be given twice, and every
member needs a readable name; in an array the fields after the least number of them may be left
out. -/
def fields? (names : List String) (least : Nat) : Json → Option (List (Option Json))
  | .array elements =>
    if least ≤ elements.length ∧ elements.length ≤ names.length then
      some (elements.map some ++ List.replicate (names.length - elements.length) none)
    else
      none
  | .object members =>
    if members.all (fun member ↦ member.1.isSome) &&
        names.all (fun name ↦ members.countP (fun member ↦ member.1 == some name) ≤ 1) then
      some (names.map fun name ↦ members.lookup (some name))
    else
      none
  | _ => none

/-- A text. -/
def text? : Json → Option String
  | .string text => some text
  | _ => none

/-- An array whose elements can all be read. -/
def listOf? {α : Type} (read : Json → Option α) : Json → Option (List α)
  | .array elements => elements.mapM read
  | _ => none

end Formulary.Json
