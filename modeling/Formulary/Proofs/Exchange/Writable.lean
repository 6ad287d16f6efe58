import Formulary.Exchange.Encoder
import Formulary.Proofs.Json.Written
/-!
The documents of the exchange format are read back from their texts. Everything that is written in them
denotes something and is in range (`Outline.isWritable_encode`): an integer has 64 bits, and an
infinite number is written as null.
-/

set_option autoImplicit false
set_option relaxedAutoImplicit false

namespace Formulary

open Json

/-! ### Types -/

theorem isWritable_scalar (kind : Scalar) : IsWritable kind.encode :=
  isWritable_string _

theorem isWritable_base (base : Base) : IsWritable base.encode := by
  cases base with
  | series => exact isWritable_string _
  | scalar kind => exact isWritable_record (List.forall_mem_singleton.mpr (isWritable_scalar kind))

mutual

theorem isWritable_type : (type : ArgType) → IsWritable type.encode
  | .series => isWritable_string _
  | .scalar kind => isWritable_record (List.forall_mem_singleton.mpr (isWritable_scalar kind))
  | .union alternatives =>
    isWritable_record (List.forall_mem_singleton.mpr (isWritable_array (isWritable_types alternatives)))
  | .list element => isWritable_record (List.forall_mem_singleton.mpr (isWritable_type element))

theorem isWritable_types :
    (types : List ArgType) → ∀ document ∈ ArgType.encodeAll types, IsWritable document
  | [] => nofun
  | type :: types => List.forall_mem_cons.mpr ⟨isWritable_type type, isWritable_types types⟩

end

/-! ### Literals and operators -/

theorem isWritable_number (number : Number) : IsWritable number.encode := by
  unfold Number.encode
  split
  · rename_i hfinite
    exact ⟨.real hfinite, rfl⟩
  · exact ⟨.null, rfl⟩

theorem isWritable_int (value : Int64) : IsWritable (.integer value.toInt) := by
  refine ⟨.integer ?_, rfl⟩
  have hlow := Int64.le_toInt value
  have hhigh := Int64.toInt_lt value
  simp only [Reader.isKeptInteger, Bool.and_eq_true, decide_eq_true_eq]
  omega

theorem isWritable_literal (literal : Literal) : IsWritable literal.encode := by
  refine isWritable_record (List.forall_mem_cons.mpr ⟨isWritable_scalar _, ?_⟩)
  refine List.forall_mem_singleton.mpr ?_
  cases literal with
  | int value => exact isWritable_int value
  | number value => exact isWritable_number value
  | nan => exact ⟨.null, rfl⟩
  | string value => exact isWritable_string value
  | bool value => exact ⟨.bool value, rfl⟩
  | timestamp value => exact isWritable_string _

theorem isWritable_keyword (keyword : Keyword) : IsWritable keyword.encode := by
  refine isWritable_record (List.forall_mem_cons.mpr ⟨isWritable_string _, ?_⟩)
  refine List.forall_mem_cons.mpr ⟨isWritable_type _, List.forall_mem_singleton.mpr ?_⟩
  cases keyword.default with
  | none => exact ⟨.null, rfl⟩
  | some literal => exact isWritable_literal literal

theorem isWritable_operator (operator : Operator) : IsWritable operator.encode := by
  refine isWritable_record (List.forall_mem_cons.mpr ⟨isWritable_string _, ?_⟩)
  refine List.forall_mem_cons.mpr ⟨isWritable_base _, List.forall_mem_cons.mpr ⟨?_, ?_⟩⟩
  · exact isWritable_array (List.forall_mem_map.mpr fun type _ ↦ isWritable_type type)
  · exact List.forall_mem_singleton.mpr
      (isWritable_array (List.forall_mem_map.mpr fun keyword _ ↦ isWritable_keyword keyword))

/-! ### Outlines -/

theorem isWritable_slot (slot : Slot) : IsWritable slot.encode := by
  refine isWritable_record (List.forall_mem_cons.mpr ⟨isWritable_string _, ?_⟩)
  refine List.forall_mem_singleton.mpr ?_
  cases slot with
  | root base => exact isWritable_base base
  | call base => exact isWritable_base base
  | choice kind => exact isWritable_scalar kind
  | typed type => exact isWritable_type type
  | keywords group =>
    exact isWritable_array (List.forall_mem_map.mpr fun keyword _ ↦ isWritable_keyword keyword)
  | operator chosen => exact isWritable_operator chosen
  | keyword own => exact isWritable_keyword own

theorem isWritable_node (slot : Slot) (content : Option Literal) :
    IsWritable (encodeNode slot content) := by
  refine isWritable_record (List.forall_mem_cons.mpr ⟨isWritable_slot slot, ?_⟩)
  refine List.forall_mem_singleton.mpr ?_
  cases content with
  | none => exact isWritable_string _
  | some literal =>
    exact isWritable_record (List.forall_mem_singleton.mpr (isWritable_literal literal))

namespace Outline

mutual

theorem isWritable_encode : (outline : Outline) → IsWritable outline.encode
  | .node slot content parts =>
    isWritable_record (List.forall_mem_cons.mpr ⟨isWritable_node slot content,
      List.forall_mem_singleton.mpr (isWritable_array (isWritable_encodeAll parts))⟩)

theorem isWritable_encodeAll :
    (outlines : List Outline) → ∀ document ∈ encodeAll outlines, IsWritable document
  | [] => nofun
  | outline :: outlines =>
    List.forall_mem_cons.mpr ⟨isWritable_encode outline, isWritable_encodeAll outlines⟩

end

end Outline

end Formulary
