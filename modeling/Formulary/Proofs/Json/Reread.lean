import Formulary.Exchange.Decoder
import Formulary.Proofs.Json.Parts
/-!
What is read from written numbers. The exchange format writes digits to which a number is nearest, but
scales them in double precision when it reads them, so a number may come back as another one. Main
definitions: `Number.reread?`, what is read from the text of a number, and `Json.reread`, the document with
all of its numbers read from their texts.
-/

set_option autoImplicit false
set_option relaxedAutoImplicit false

namespace Formulary

/-- The number that is read from the text of a number in the exchange format, if a number is. -/
def Number.reread? (number : Number) : Option Number :=
  (Json.ofText? number.encode.text).bind Number.decode?

namespace Json

mutual

/-- The document with each number read from its text. -/
def reread : Json → Json
  | .real number => number.reread?.elim .unreadable .real
  | .array elements => .array (rereadAll elements)
  | .object members => .object (rereadMembers members)
  | document => document

/-- Documents with their numbers read from their texts. -/
def rereadAll : List Json → List Json
  | [] => []
  | element :: elements => element.reread :: rereadAll elements

/-- Members with the numbers in their values read from their texts. -/
def rereadMembers : List (Option String × Json) → List (Option String × Json)
  | [] => []
  | (name, value) :: members => (name, value.reread) :: rereadMembers members

end

theorem rereadAll_eq_map (elements : List Json) : rereadAll elements = elements.map reread := by
  induction elements with
  | nil => rfl
  | cons element elements ih => rw [rereadAll, ih, List.map_cons]

theorem rereadMembers_eq_map (members : List (Option String × Json)) :
    rereadMembers members = members.map fun member ↦ (member.1, member.2.reread) := by
  induction members with
  | nil => rfl
  | cons member members ih => rw [rereadMembers, ih, List.map_cons]

theorem reread_array (elements : List Json) :
    (Json.array elements).reread = .array (elements.map reread) := by
  rw [reread, rereadAll_eq_map]

theorem reread_record (members : List (String × Json)) :
    (record members).reread = record (members.map fun member ↦ (member.1, member.2.reread)) := by
  rw [record, reread, rereadMembers_eq_map, record, List.map_map, List.map_map]
  rfl

/-- A document without arrays and objects is read from its text as such a document. -/
theorem limited_reread_of_flat {document : Json} (h : document.nesting = 0) (limit : Nat) :
    document.reread.limited limit = document.reread := by
  cases document with
  | array elements => exact absurd h (Nat.succ_ne_zero _)
  | object members => exact absurd h (Nat.succ_ne_zero _)
  | real number =>
    rw [reread]
    cases number.reread? <;> cases limit <;> rfl
  | _ => cases limit <;> rfl

end Json

end Formulary
