import Formulary.Proofs.Lists
import Formulary.Proofs.Outline.Preorder
/-!
Outlines with their literals converted. Each literal of an outline, be it held by a node or declared as a
default, is put through a conversion, and the outline is converted if all of them are. The literals of
what comes out are the converted ones (`Outline.forall₂_literals`), so the outline stays as it is exactly
if each of its literals does (`Outline.mapLiterals?_eq_self_iff`). Main definition:
`Outline.mapLiterals?`.
-/

set_option autoImplicit false
set_option relaxedAutoImplicit false

namespace Formulary

/-- The keyword argument with its default converted. -/
def Keyword.mapLiterals? (convert : Literal → Option Literal) (keyword : Keyword) : Option Keyword :=
  (keyword.default.mapM convert).map fun default ↦ ⟨keyword.name, keyword.type, default⟩

/-- The operator with the defaults of its keyword arguments converted. -/
def Operator.mapLiterals? (convert : Literal → Option Literal) (operator : Operator) :
    Option Operator :=
  (operator.keywords.mapM (Keyword.mapLiterals? convert)).map fun keywords ↦
    ⟨operator.name, operator.result, operator.parameters, keywords⟩

/-- The slot with the defaults that it declares converted. -/
def Slot.mapLiterals? (convert : Literal → Option Literal) : Slot → Option Slot
  | .keywords group => (group.mapM (Keyword.mapLiterals? convert)).map .keywords
  | .operator chosen => (chosen.mapLiterals? convert).map .operator
  | .keyword own => (own.mapLiterals? convert).map .keyword
  | slot => some slot

namespace Outline

mutual

/-- The outline with all of its literals converted. -/
def mapLiterals? (convert : Literal → Option Literal) : Outline → Option Outline
  | .node slot content parts =>
    (slot.mapLiterals? convert).bind fun slot ↦
      (content.mapM convert).bind fun content ↦
        (mapAllLiterals? convert parts).map (.node slot content)

/-- The outlines with all of their literals converted. -/
def mapAllLiterals? (convert : Literal → Option Literal) : List Outline → Option (List Outline)
  | [] => some []
  | outline :: outlines =>
    (outline.mapLiterals? convert).bind fun outline ↦
      (mapAllLiterals? convert outlines).map (outline :: ·)

end

theorem mapAllLiterals?_eq_mapM (convert : Literal → Option Literal) (outlines : List Outline) :
    mapAllLiterals? convert outlines = outlines.mapM (mapLiterals? convert) := by
  induction outlines with
  | nil => rfl
  | cons outline outlines ih =>
    rw [mapAllLiterals?, ih, List.mapM_cons]
    cases outline.mapLiterals? convert <;> cases outlines.mapM (mapLiterals? convert) <;> rfl

end Outline

section Conversion

variable {convert : Literal → Option Literal}

/-! ### Literals that come out -/

theorem forall₂_toList {literal found : Option Literal} (h : literal.mapM convert = some found) :
    List.Forall₂ (fun literal found ↦ convert literal = some found) literal.toList found.toList := by
  cases literal with
  | none =>
    obtain rfl := Option.some.inj h
    exact .nil
  | some literal =>
    obtain ⟨converted, hconverted, rfl⟩ := Option.map_eq_some_iff.mp h
    exact .cons hconverted .nil

theorem forall₂_defaults {group found : List Keyword}
    (h : group.mapM (Keyword.mapLiterals? convert) = some found) :
    List.Forall₂ (fun literal found ↦ convert literal = some found)
      (group.filterMap Keyword.default) (found.filterMap Keyword.default) := by
  rw [List.filterMap_eq_flatMap_toList, List.filterMap_eq_flatMap_toList]
  refine List.rel_flatMap (mapM_eq_some_iff.mp h) fun keyword converted hkeyword ↦ ?_
  obtain ⟨default, hdefault, rfl⟩ := Option.map_eq_some_iff.mp hkeyword
  exact forall₂_toList hdefault

theorem Slot.forall₂_defaults {slot found : Slot} (h : slot.mapLiterals? convert = some found) :
    List.Forall₂ (fun literal found ↦ convert literal = some found) slot.defaults found.defaults := by
  cases slot with
  | keywords group =>
    obtain ⟨converted, hgroup, rfl⟩ := Option.map_eq_some_iff.mp h
    exact Formulary.forall₂_defaults hgroup
  | operator chosen =>
    obtain ⟨converted, hchosen, rfl⟩ := Option.map_eq_some_iff.mp h
    obtain ⟨group, hgroup, rfl⟩ := Option.map_eq_some_iff.mp hchosen
    exact Formulary.forall₂_defaults hgroup
  | keyword own =>
    obtain ⟨converted, hown, rfl⟩ := Option.map_eq_some_iff.mp h
    obtain ⟨default, hdefault, rfl⟩ := Option.map_eq_some_iff.mp hown
    exact forall₂_toList hdefault
  | _ =>
    obtain rfl := Option.some.inj h
    exact .nil

namespace Outline

mutual

/-- The literals of an outline that was converted are those of the outline, converted one by one. -/
theorem forall₂_literals : (outline : Outline) → {found : Outline} →
    outline.mapLiterals? convert = some found →
      List.Forall₂ (fun literal found ↦ convert literal = some found) outline.literals found.literals
  | .node slot content parts, found, h => by
    obtain ⟨slot', hslot, h⟩ := Option.bind_eq_some_iff.mp h
    obtain ⟨content', hcontent, h⟩ := Option.bind_eq_some_iff.mp h
    obtain ⟨parts', hparts, rfl⟩ := Option.map_eq_some_iff.mp h
    rw [literals_node, literals_node]
    exact List.rel_append (List.rel_append (Slot.forall₂_defaults hslot) (forall₂_toList hcontent))
      (forall₂_literalsOfAll parts hparts)

theorem forall₂_literalsOfAll : (outlines : List Outline) → {found : List Outline} →
    mapAllLiterals? convert outlines = some found →
      List.Forall₂ (fun literal found ↦ convert literal = some found) (outlines.flatMap literals)
        (found.flatMap literals)
  | [], _, h => by
    obtain rfl := Option.some.inj h
    exact .nil
  | outline :: outlines, _, h => by
    obtain ⟨outline', houtline, h⟩ := Option.bind_eq_some_iff.mp h
    obtain ⟨outlines', houtlines, rfl⟩ := Option.map_eq_some_iff.mp h
    rw [List.flatMap_cons, List.flatMap_cons]
    exact List.rel_append (forall₂_literals outline houtline) (forall₂_literalsOfAll outlines houtlines)

end

/-- A literal that is not converted keeps the outline from being converted. -/
theorem mapLiterals?_eq_none {outline : Outline} {literal : Literal} (hliteral : literal ∈ outline.literals)
    (hnone : convert literal = none) : outline.mapLiterals? convert = none := by
  refine Option.eq_none_iff_forall_ne_some.mpr fun found hfound ↦ ?_
  obtain ⟨converted, -, hconverted⟩ := exists_mem_of_forall₂ (forall₂_literals outline hfound) hliteral
  exact nomatch hnone.symm.trans hconverted

end Outline

/-! ### Literals that stay -/

theorem mapM_eq_self {literal : Option Literal} (h : ∀ held ∈ literal.toList, convert held = some held) :
    literal.mapM convert = some literal := by
  cases literal with
  | none => rfl
  | some literal => exact congrArg (Option.map some) (h literal (List.mem_singleton_self _))

theorem mapM_keywords_eq_self {group : List Keyword}
    (h : ∀ held ∈ group.filterMap Keyword.default, convert held = some held) :
    group.mapM (Keyword.mapLiterals? convert) = some group := by
  refine mapM_eq_some_iff.mpr (List.forall₂_same.mpr fun keyword hkeyword ↦ ?_)
  have hdefault : keyword.default.mapM convert = some keyword.default := mapM_eq_self fun held hheld ↦
    h held (List.mem_filterMap.mpr ⟨keyword, hkeyword, Option.mem_toList.mp hheld⟩)
  rw [Keyword.mapLiterals?, hdefault]
  rfl

theorem Slot.mapLiterals?_eq_self {slot : Slot} (h : ∀ held ∈ slot.defaults, convert held = some held) :
    slot.mapLiterals? convert = some slot := by
  cases slot with
  | keywords group => exact congrArg (Option.map Slot.keywords) (mapM_keywords_eq_self h)
  | operator chosen =>
    rw [Slot.mapLiterals?, Operator.mapLiterals?, mapM_keywords_eq_self h]
    rfl
  | keyword own =>
    rw [Slot.mapLiterals?, Keyword.mapLiterals?, mapM_eq_self h]
    rfl
  | _ => rfl

namespace Outline

mutual

theorem mapLiterals?_eq_self : (outline : Outline) →
    (∀ held ∈ outline.literals, convert held = some held) →
      outline.mapLiterals? convert = some outline
  | .node slot content parts, h => by
    rw [literals_node, List.forall_mem_append, List.forall_mem_append] at h
    obtain ⟨⟨hslot, hcontent⟩, hparts⟩ := h
    rw [mapLiterals?, Slot.mapLiterals?_eq_self hslot, mapM_eq_self hcontent,
      mapAllLiterals?_eq_self parts hparts]
    rfl

theorem mapAllLiterals?_eq_self : (outlines : List Outline) →
    (∀ held ∈ outlines.flatMap literals, convert held = some held) →
      mapAllLiterals? convert outlines = some outlines
  | [], _ => rfl
  | outline :: outlines, h => by
    rw [List.flatMap_cons, List.forall_mem_append] at h
    rw [mapAllLiterals?, mapLiterals?_eq_self outline h.1, mapAllLiterals?_eq_self outlines h.2]
    rfl

end

/-- An outline stays as it is exactly if each of its literals does. -/
theorem mapLiterals?_eq_self_iff {outline : Outline} :
    outline.mapLiterals? convert = some outline ↔
      ∀ held ∈ outline.literals, convert held = some held :=
  ⟨fun h ↦ List.forall₂_same.mp (forall₂_literals outline h), mapLiterals?_eq_self outline⟩

end Outline

end Conversion

end Formulary
