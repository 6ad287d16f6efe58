import Formulary.Proofs.Form.Restoring
import Formulary.Proofs.Formula.Conformity
import Formulary.Proofs.Outline.Preorder
/-!
Outlines without infinite numbers. A number may stand in an outline because it was read, or because a
slot declares it as a default. Where no default of a catalog is infinite, an outline that was read is
without infinite numbers if none was read (`isFinite_of_conforms`). Main definition:
`Outline.isFinite`, which asks for each literal of an outline (`Outline.isFinite_iff`).
-/

set_option autoImplicit false
set_option relaxedAutoImplicit false

namespace Formulary

/-- Whether the default, if there is one, is finite if it is a number. -/
def Keyword.isFinite (keyword : Keyword) : Bool :=
  keyword.default.all Literal.isFinite

/-- Whether every default that is a number is finite. -/
def Operator.isFinite (operator : Operator) : Bool :=
  operator.keywords.all Keyword.isFinite

/-- Whether every default of a slot that is a number is finite. -/
def Slot.isFinite : Slot → Bool
  | .keywords group => group.all Keyword.isFinite
  | .operator chosen => chosen.isFinite
  | .keyword own => own.isFinite
  | _ => true

namespace Outline

mutual

/-- Whether every number in an outline is finite, be it read or declared. -/
def isFinite : Outline → Bool
  | .node slot content parts => slot.isFinite && content.all Literal.isFinite && areFinite parts

/-- Whether every number in some outlines is finite. -/
def areFinite : List Outline → Bool
  | [] => true
  | outline :: outlines => outline.isFinite && areFinite outlines

end

theorem areFinite_iff {outlines : List Outline} :
    areFinite outlines = true ↔ ∀ outline ∈ outlines, outline.isFinite = true := by
  induction outlines with
  | nil => simp [areFinite]
  | cons outline outlines ih => simp [areFinite, ih]

theorem isFinite_node_iff {slot : Slot} {content : Option Literal} {parts : List Outline} :
    (node slot content parts).isFinite = true ↔
      slot.isFinite = true ∧ content.all Literal.isFinite = true ∧
        ∀ part ∈ parts, part.isFinite = true := by
  rw [isFinite, Bool.and_eq_true, Bool.and_eq_true, areFinite_iff, and_assoc]

end Outline

/-! ### Literals -/

theorem keywords_areFinite_iff {group : List Keyword} :
    group.all Keyword.isFinite = true ↔
      ∀ literal ∈ group.filterMap Keyword.default, literal.isFinite = true := by
  simp only [List.all_eq_true, List.mem_filterMap, Keyword.isFinite, Option.all_eq_true]
  exact ⟨fun h literal ⟨keyword, hkeyword, hdefault⟩ ↦ h keyword hkeyword literal hdefault,
    fun h keyword hkeyword literal hdefault ↦ h literal ⟨keyword, hkeyword, hdefault⟩⟩

theorem Slot.isFinite_iff {slot : Slot} :
    slot.isFinite = true ↔ ∀ literal ∈ slot.defaults, literal.isFinite = true := by
  cases slot with
  | keywords group => exact keywords_areFinite_iff
  | operator chosen => exact keywords_areFinite_iff
  | root | call | choice | typed => simp [isFinite, defaults]
  | keyword own => simp [isFinite, defaults, Keyword.isFinite, Option.all_eq_true]

namespace Outline

mutual

/-- The numbers in an outline are those among its literals. -/
theorem isFinite_iff : (outline : Outline) →
    (outline.isFinite = true ↔ ∀ literal ∈ outline.literals, literal.isFinite = true)
  | .node slot content parts => by
    rw [isFinite, Bool.and_eq_true, Bool.and_eq_true, areFinite_iff_literals parts, literals_node,
      List.forall_mem_append, List.forall_mem_append, Slot.isFinite_iff, Option.all_eq_true]
    simp only [Option.mem_toList]

theorem areFinite_iff_literals : (outlines : List Outline) →
    (areFinite outlines = true ↔ ∀ literal ∈ outlines.flatMap literals, literal.isFinite = true)
  | [] => by simp [areFinite]
  | outline :: outlines => by
    rw [areFinite, Bool.and_eq_true, isFinite_iff outline, areFinite_iff_literals outlines,
      List.flatMap_cons, List.forall_mem_append]

end

end Outline

/-! ### Parts -/

theorem Slot.isFinite_ofArgument (type : ArgType) : (Slot.ofArgument type).isFinite = true := by
  cases type <;> rfl

theorem Operator.isFinite_of_mem_slots {operator : Operator} (h : operator.isFinite = true)
    {slot : Slot} (hslot : slot ∈ operator.slots) : slot.isFinite = true := by
  rcases List.mem_append.mp hslot with hparameter | hkeywords
  · obtain ⟨type, -, rfl⟩ := List.mem_map.mp hparameter
    exact Slot.isFinite_ofArgument type
  · split at hkeywords
    · exact absurd hkeywords List.not_mem_nil
    · obtain rfl := List.mem_singleton.mp hkeywords
      exact h

theorem Keyword.isFinite_absent {keyword : Keyword} (h : keyword.isFinite = true) :
    keyword.absent.isFinite = true := by
  refine Outline.isFinite_node_iff.mpr ⟨h, rfl, List.forall_mem_singleton.mpr ?_⟩
  exact Outline.isFinite_node_iff.mpr ⟨Slot.isFinite_ofArgument _, h, nofun⟩

namespace Outline

/-- The parts of an outline whose numbers are finite have finite numbers. -/
theorem isFinite_of_subtree? {outline part : Outline} {path : Path}
    (h : outline.isFinite = true) (hpart : outline.subtree? path = some part) :
    part.isFinite = true := by
  induction path generalizing outline with
  | nil =>
    obtain rfl := Option.some.inj hpart
    exact h
  | cons index path ih =>
    obtain ⟨slot, content, parts⟩ := outline
    obtain ⟨inner, hinner, hpart⟩ := Option.bind_eq_some_iff.mp hpart
    rw [isFinite, Bool.and_eq_true] at h
    exact ih (areFinite_iff.mp h.2 inner (List.mem_of_getElem? hinner)) hpart

theorem not_holdsInfinity_of_isFinite {outline : Outline} (h : outline.isFinite = true) :
    ¬ outline.HoldsInfinity := by
  rintro ⟨path, number, hnode, hinfinite⟩
  have hnumber := isFinite_of_subtree? h hnode
  simp [isFinite, Literal.isFinite, hinfinite] at hnumber

end Outline

/-- Where no default is infinite, an outline that was read has no infinite number but those that were
read. -/
theorem isFinite_of_conforms {catalog : Catalog} {outline : Outline}
    (hcatalog : ∀ base, ∀ operator ∈ catalog.operators base, operator.isFinite = true)
    (h : Conforms catalog outline) (hslot : outline.slot.isFinite = true)
    (hfinite : ¬ outline.HoldsInfinity) : outline.isFinite = true := by
  have hinside {slot : Slot} {content : Option Literal} {parts : List Outline}
      (hnode : ¬ (Outline.node slot content parts).HoldsInfinity) (part : Outline)
      (hpart : part ∈ parts) : ¬ part.HoldsInfinity :=
    Outline.not_holdsInfinity_of_mem hnode hpart
  induction h with
  | root hpartSlot _ ih =>
    refine Outline.isFinite_node_iff.mpr ⟨rfl, rfl, List.forall_mem_singleton.mpr ?_⟩
    exact ih (hpartSlot ▸ rfl) (hinside hfinite _ (List.mem_singleton_self _))
  | call hoperator hpartSlot _ ih =>
    refine Outline.isFinite_node_iff.mpr ⟨rfl, rfl, List.forall_mem_singleton.mpr ?_⟩
    refine ih ?_ (hinside hfinite _ (List.mem_singleton_self _))
    rw [hpartSlot]
    exact hcatalog _ _ (List.mem_of_find?_eq_some hoperator)
  | choice hpartSlot _ ih =>
    refine Outline.isFinite_node_iff.mpr ⟨rfl, rfl, List.forall_mem_singleton.mpr ?_⟩
    refine ih ?_ (hinside hfinite _ (List.mem_singleton_self _))
    rcases hpartSlot with hpartSlot | hpartSlot <;> rw [hpartSlot] <;> rfl
  | scalar hvalue hwritten =>
    refine Outline.isFinite_node_iff.mpr ⟨rfl, ?_, nofun⟩
    exact Outline.isFinite_of_not_holdsInfinity hvalue hwritten hfinite
  | union _ hpartSlot _ ih =>
    refine Outline.isFinite_node_iff.mpr ⟨rfl, rfl, List.forall_mem_singleton.mpr ?_⟩
    exact ih (hpartSlot ▸ Slot.isFinite_ofArgument _)
      (hinside hfinite _ (List.mem_singleton_self _))
  | list hslots _ ih =>
    refine Outline.isFinite_node_iff.mpr ⟨rfl, rfl, fun part hpart ↦ ?_⟩
    exact ih part hpart (hslots part hpart ▸ Slot.isFinite_ofArgument _) (hinside hfinite part hpart)
  | operator hslots _ ih =>
    refine Outline.isFinite_node_iff.mpr ⟨hslot, rfl, fun part hpart ↦ ?_⟩
    refine ih part hpart ?_ (hinside hfinite part hpart)
    exact Operator.isFinite_of_mem_slots hslot (hslots ▸ List.mem_map_of_mem hpart)
  | keywords hparts _ ih =>
    refine Outline.isFinite_node_iff.mpr ⟨hslot, rfl, fun part hpart ↦ ?_⟩
    have hall := List.all_eq_true.mp hslot
    obtain ⟨keyword, hkeyword, rfl | ⟨hsupplied, own, hown, -, hpartSlot⟩⟩ :=
      exists_mem_of_forall₂ hparts.flip hpart
    · exact Keyword.isFinite_absent (hall keyword hkeyword)
    · exact ih part hsupplied (hpartSlot ▸ hall own hown) (hinside hfinite part hpart)
  | keyword hvalueSlot _ _ ih =>
    refine Outline.isFinite_node_iff.mpr ⟨hslot, rfl, List.forall_mem_singleton.mpr ?_⟩
    exact ih (hvalueSlot ▸ Slot.isFinite_ofArgument _)
      (hinside hfinite _ (List.mem_singleton_self _))

end Formulary
