import Formulary.Json.Fields
/-!
The parts of a document: the elements of an array and the values of an object. What holds of a document
all through is said of its parts one by one, and the fields of a record are among them
(`mem_parts_of_fields?`). Main definition: `Json.parts`.
-/

set_option autoImplicit false
set_option relaxedAutoImplicit false

namespace Formulary.Json

/-- The elements of an array, or the values of the members of an object. -/
def parts : Json → List Json
  | .array elements => elements
  | .object members => members.map Prod.snd
  | _ => []

/-! ### Part by part -/

theorem nestingAll_le_iff {elements : List Json} {bound : Nat} :
    nestingAll elements ≤ bound ↔ ∀ element ∈ elements, element.nesting ≤ bound := by
  induction elements with
  | nil => simp [nestingAll]
  | cons element elements ih => rw [nestingAll, Nat.max_le, ih, List.forall_mem_cons]

theorem nestingMembers_le_iff {members : List (Option String × Json)} {bound : Nat} :
    nestingMembers members ≤ bound ↔ ∀ member ∈ members, member.2.nesting ≤ bound := by
  induction members with
  | nil => simp [nestingMembers]
  | cons member members ih => rw [nestingMembers, Nat.max_le, ih, List.forall_mem_cons]

theorem areReadable_iff {elements : List Json} :
    areReadable elements = true ↔ ∀ element ∈ elements, element.isReadable = true := by
  induction elements with
  | nil => simp [areReadable]
  | cons element elements ih => simp [areReadable, ih]

theorem membersReadable_iff {members : List (Option String × Json)} :
    membersReadable members = true ↔
      ∀ member ∈ members, member.1.isSome = true ∧ member.2.isReadable = true := by
  induction members with
  | nil => simp [membersReadable]
  | cons member members ih => simp [membersReadable, ih]

theorem limitedAll_eq_map (limit : Nat) (elements : List Json) :
    limitedAll limit elements = elements.map (limited limit) := by
  induction elements with
  | nil => rfl
  | cons element elements ih => rw [limitedAll, ih, List.map_cons]

theorem limitedMembers_eq_map (limit : Nat) (members : List (Option String × Json)) :
    limitedMembers limit members =
      members.map fun member ↦ (member.1, member.2.limited limit) := by
  induction members with
  | nil => rfl
  | cons member members ih => rw [limitedMembers, ih, List.map_cons]

/-! ### Parts -/

theorem nesting_lt_of_mem_parts {document part : Json} (h : part ∈ document.parts) :
    part.nesting < document.nesting := by
  cases document with
  | array elements => exact Nat.lt_succ_of_le (nestingAll_le_iff.mp (Nat.le_refl _) part h)
  | object members =>
    obtain ⟨member, hmember, rfl⟩ := List.mem_map.mp h
    exact Nat.lt_succ_of_le (nestingMembers_le_iff.mp (Nat.le_refl _) member hmember)
  | _ => exact absurd h List.not_mem_nil

/-- The fields of a record that are given are parts of its document. -/
theorem mem_parts_of_fields? {document value : Json} {names : List String} {least : Nat}
    {fields : List (Option Json)} (h : document.fields? names least = some fields)
    (hvalue : some value ∈ fields) : value ∈ document.parts := by
  unfold fields? at h
  split at h
  · rename_i elements
    obtain ⟨-, hfields⟩ := Option.ite_none_right_eq_some.mp h
    obtain rfl := Option.some.inj hfields
    simpa [parts] using hvalue
  · obtain ⟨-, hfields⟩ := Option.ite_none_right_eq_some.mp h
    obtain rfl := Option.some.inj hfields
    obtain ⟨name, -, hlookup⟩ := List.mem_map.mp hvalue
    obtain ⟨before, after, rfl, -⟩ := List.lookup_eq_some_iff.mp hlookup
    exact List.mem_map.mpr ⟨(some name, value), by simp, rfl⟩
  · cases h

end Formulary.Json
