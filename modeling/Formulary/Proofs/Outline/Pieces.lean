import Formulary.Outline.Printer
import Formulary.Proofs.Formula.Conformity
import Formulary.Proofs.Lists
import Formulary.Proofs.Record.Selection
/-!
What a written formula is made of. Besides marks and names a formula has pieces that show what a node of
the outline holds, a literal or else the placeholder (`Outline.characters_eq`). In an outline that
conforms to a catalog the nodes that are shown are just those for the slots of literals, so neither the
placeholder nor a default is written (`Conforms.held_eq_select`), and every argument that an operator takes
leads to an operator, a literal or a list (`Conforms.isComplete_innermost`). Main definitions:
`Outline.pieces`, `Outline.held` and `Outline.IsComplete`.
-/

set_option autoImplicit false
set_option relaxedAutoImplicit false

namespace Formulary

/-- Whether a slot is the place of a literal. -/
def Slot.isLiteral : Slot → Bool
  | .typed (.scalar _) => true
  | _ => false

theorem Slot.exists_of_isLiteral {slot : Slot} (h : slot.isLiteral = true) :
    ∃ kind, slot = .typed (.scalar kind) := by
  unfold Slot.isLiteral at h
  split at h
  · exact ⟨_, rfl⟩
  · cases h

theorem Slot.isGroup_ofArgument (type : ArgType) : (ofArgument type).isGroup = false := by
  cases type <;> rfl

namespace Outline

/-! ### Pieces -/

/-- A piece of a written formula. -/
inductive Piece
  /-- A parenthesis, a space, a name or a marker. -/
  | mark (text : List Char)
  /-- What a node holds, or the placeholder if it holds nothing. -/
  | content (holder : Outline)

namespace Piece

/-- What a piece is written as. -/
def characters : Piece → List Char
  | .mark text => text
  | .content holder => contentCharacters holder.content

/-- The node that a piece shows. -/
def holder? : Piece → Option Outline
  | .mark _ => none
  | .content holder => some holder

end Piece

mutual

/-- The pieces of the formula of an outline. -/
def pieces : Outline → List Piece
  | .node (.operator operator) _ parts =>
    .mark ('(' :: operator.name.toList) :: (operandPieces parts ++ [.mark [')']])
  | .node (.keywords _) _ parts => keywordPieces parts
  | .node (.keyword keyword) content parts =>
    .mark (keyword.marker.toList ++ [' ']) :: valuePieces (.node (.keyword keyword) content parts) parts
  | .node (.typed (.list _)) _ parts => .mark ['('] :: (elementPieces parts ++ [.mark [')']])
  | .node (.typed (.scalar kind)) content parts =>
    [.content (.node (.typed (.scalar kind)) content parts)]
  | .node (.typed .series) content parts => [.content (.node (.typed .series) content parts)]
  | .node slot content parts => valuePieces (.node slot content parts) parts

/-- The pieces of what follows an operator. -/
def operandPieces : List Outline → List Piece
  | [] => []
  | outline :: outlines =>
    match outline.slot with
    | .keywords _ => outline.pieces ++ operandPieces outlines
    | _ => .mark [' '] :: (outline.pieces ++ operandPieces outlines)

/-- The pieces of the keyword arguments that are supplied. -/
def keywordPieces : List Outline → List Piece
  | [] => []
  | outline :: outlines =>
    if outline.isSupplied then
      .mark [' '] :: (outline.pieces ++ keywordPieces outlines)
    else
      keywordPieces outlines

/-- The pieces of the elements of a list. -/
def elementPieces : List Outline → List Piece
  | [] => []
  | [outline] => outline.pieces
  | outline :: outlines => outline.pieces ++ .mark [' '] :: elementPieces outlines

/-- The pieces of the first part of a node, or what the node itself holds if it has none. -/
def valuePieces (outline : Outline) : List Outline → List Piece
  | [] => [.content outline]
  | part :: _ => part.pieces

end

mutual

/-- A formula is written piece by piece. -/
theorem characters_eq : (outline : Outline) →
    outline.characters = outline.pieces.flatMap Piece.characters
  | .node (.operator operator) _ parts => by
    simp [characters, pieces, Piece.characters, operandCharacters_eq parts]
  | .node (.keywords _) _ parts => keywordCharacters_eq_flatMap parts
  | .node (.keyword keyword) content parts => by
    have hvalue := valueCharacters_eq (.node (.keyword keyword) content parts) parts
    rw [Outline.content] at hvalue
    simp [characters, pieces, Piece.characters, hvalue]
  | .node (.typed (.list _)) _ parts => by
    simp [characters, pieces, Piece.characters, elementCharacters_eq parts]
  | .node (.typed (.scalar _)) content _ => by
    simp [characters, pieces, Piece.characters, Outline.content]
  | .node (.typed .series) content _ => by
    simp [characters, pieces, Piece.characters, Outline.content]
  | .node (.typed (.union alternatives)) content parts =>
    valueCharacters_eq (.node (.typed (.union alternatives)) content parts) parts
  | .node (.root base) content parts => valueCharacters_eq (.node (.root base) content parts) parts
  | .node (.call base) content parts => valueCharacters_eq (.node (.call base) content parts) parts
  | .node (.choice kind) content parts => valueCharacters_eq (.node (.choice kind) content parts) parts

theorem operandCharacters_eq : (outlines : List Outline) →
    operandCharacters outlines = (operandPieces outlines).flatMap Piece.characters
  | [] => rfl
  | outline :: outlines => by
    rw [operandCharacters]
    split <;> rename_i hslot <;>
      simp [operandPieces, hslot, Piece.characters, characters_eq outline,
        operandCharacters_eq outlines]

theorem keywordCharacters_eq_flatMap : (outlines : List Outline) →
    keywordCharacters outlines = (keywordPieces outlines).flatMap Piece.characters
  | [] => rfl
  | outline :: outlines => by
    rw [keywordCharacters, keywordPieces]
    split <;>
      simp [Piece.characters, characters_eq outline, keywordCharacters_eq_flatMap outlines]

theorem elementCharacters_eq : (outlines : List Outline) →
    elementCharacters outlines = (elementPieces outlines).flatMap Piece.characters
  | [] => rfl
  | [outline] => characters_eq outline
  | outline :: second :: outlines => by
    rw [elementCharacters, elementPieces]
    · simp [Piece.characters, characters_eq outline, elementCharacters_eq (second :: outlines)]
    · exact List.cons_ne_nil _ _
    · exact List.cons_ne_nil _ _

theorem valueCharacters_eq : (outline : Outline) → (parts : List Outline) →
    valueCharacters outline.content parts = (valuePieces outline parts).flatMap Piece.characters
  | _, [] => by simp [valueCharacters, valuePieces, Piece.characters]
  | _, part :: _ => characters_eq part

end

/-! ### Nodes that are shown -/

/-- The nodes of which a formula shows what they hold, in the order in which they are written. -/
def held (outline : Outline) : List Outline :=
  outline.pieces.filterMap Piece.holder?

theorem filterMap_operandPieces (outlines : List Outline) :
    (operandPieces outlines).filterMap Piece.holder? = outlines.flatMap held := by
  induction outlines with
  | nil => rfl
  | cons outline outlines ih =>
    rw [operandPieces, List.flatMap_cons, ← ih]
    split
    · exact List.filterMap_append
    · exact List.filterMap_append

theorem filterMap_keywordPieces (outlines : List Outline) :
    (keywordPieces outlines).filterMap Piece.holder? =
      (outlines.filter isSupplied).flatMap held := by
  induction outlines with
  | nil => rfl
  | cons outline outlines ih =>
    rw [keywordPieces, List.filter_cons]
    split
    · rw [List.flatMap_cons, ← ih]
      exact List.filterMap_append
    · exact ih

theorem filterMap_elementPieces (outlines : List Outline) :
    (elementPieces outlines).filterMap Piece.holder? = outlines.flatMap held := by
  induction outlines with
  | nil => rfl
  | cons outline outlines ih =>
    cases outlines with
    | nil => rw [elementPieces, List.flatMap_singleton, held]
    | cons second outlines =>
      rw [elementPieces, List.filterMap_append, List.flatMap_cons, ← ih]
      · rfl
      · exact List.cons_ne_nil _ _

theorem held_operator (chosen : Operator) (content : Option Literal) (parts : List Outline) :
    (node (.operator chosen) content parts).held = parts.flatMap held := by
  rw [held, pieces, List.filterMap_cons_none rfl, List.filterMap_append, filterMap_operandPieces]
  exact List.append_nil _

theorem held_list (element : ArgType) (content : Option Literal) (parts : List Outline) :
    (node (.typed (.list element)) content parts).held = parts.flatMap held := by
  rw [held, pieces, List.filterMap_cons_none rfl, List.filterMap_append, filterMap_elementPieces]
  exact List.append_nil _

/-- A keyword argument that is left out has no node for a literal. -/
theorem select_isLiteral_absent (keyword : Keyword) : keyword.absent.select Slot.isLiteral = [] := by
  obtain ⟨name, type, default⟩ := keyword
  cases type <;> rfl

theorem held_keywords (group : List Keyword) (content : Option Literal) (parts : List Outline) :
    (node (.keywords group) content parts).held = (parts.filter isSupplied).flatMap held :=
  filterMap_keywordPieces parts

/-- A node that stands for its single part shows what the part shows. -/
theorem held_of_isWrapper {slot : Slot} (h : isWrapper slot = true) (content : Option Literal)
    (part : Outline) : (node slot content [part]).held = part.held := by
  cases slot with
  | root | call | choice | keyword => rfl
  | typed type =>
    cases type with
    | union => rfl
    | scalar | series | list => exact absurd h Bool.false_ne_true
  | keywords | operator => exact absurd h Bool.false_ne_true

theorem select_isLiteral_of_isWrapper {slot : Slot} (h : isWrapper slot = true)
    (content : Option Literal) (part : Outline) :
    (node slot content [part]).select Slot.isLiteral = part.select Slot.isLiteral := by
  have hslot : slot.isLiteral = false := by
    rw [Bool.eq_false_iff]
    intro hliteral
    obtain ⟨kind, rfl⟩ := Slot.exists_of_isLiteral hliteral
    cases h
  rw [select_node, List.flatMap_singleton, List.filter_singleton, Outline.slot, hslot, cond_false,
    List.nil_append]

/-- Only what is not supplied is passed over, so no literal is lost if there is none in it. -/
theorem flatMap_held_filter_isSupplied {parts : List Outline}
    (hsupplied : ∀ part ∈ parts, part.isSupplied = true → part.held = part.select Slot.isLiteral)
    (habsent : ∀ part ∈ parts, part.isSupplied = false → part.select Slot.isLiteral = []) :
    (parts.filter isSupplied).flatMap held = parts.flatMap (select Slot.isLiteral) := by
  induction parts with
  | nil => rfl
  | cons part parts ih =>
    obtain ⟨hfirst, hrest⟩ := List.forall_mem_cons.mp hsupplied
    obtain ⟨hnone, hothers⟩ := List.forall_mem_cons.mp habsent
    rw [List.filter_cons, List.flatMap_cons, ← ih hrest hothers]
    cases hpart : part.isSupplied with
    | true => rw [if_pos rfl, List.flatMap_cons, hfirst hpart]
    | false => rw [if_neg Bool.false_ne_true, hnone hpart, List.nil_append]

/-! ### What an argument leads to -/

/-- What an argument can lead to in a formula that has been read: an operator, a literal or a list. -/
inductive IsComplete : Outline → Prop
  | operator {chosen : Operator} {content : Option Literal} {parts : List Outline} :
      IsComplete (.node (.operator chosen) content parts)
  | literal {kind : Scalar} {value : Literal} :
      IsComplete (.node (.typed (.scalar kind)) (some value) [])
  | list {element : ArgType} {content : Option Literal} {parts : List Outline} :
      IsComplete (.node (.typed (.list element)) content parts)

theorem innermost_of_isWrapper {slot : Slot} (h : isWrapper slot = true) (content : Option Literal)
    (part : Outline) : (node slot content [part]).innermost = part.innermost := by
  rw [innermost, if_pos h]
  rfl

end Outline

/-! ### Outlines that conform to a catalog -/

namespace Conforms

open Outline

variable {catalog : Catalog} {outline : Outline}

/-- A keyword argument that is not supplied holds no literal: it was left out, or it is a list without
elements. -/
theorem select_isLiteral_of_not_isSupplied (h : Conforms catalog outline) {own : Keyword}
    (hslot : outline.slot = .keyword own) (habsent : outline.isSupplied = false) :
    outline.select Slot.isLiteral = [] := by
  cases h with
  | @keyword _ value _ hfilled hvalue =>
    have hempty : value.isEmptyList = true := by
      have hnot : value.isFilled = false := habsent
      rwa [hnot, eq_comm, Bool.not_eq_false'] at hfilled
    unfold isEmptyList at hempty
    split at hempty
    · rfl
    · cases hempty
  | root | call | choice | scalar | union | list | operator | keywords => cases hslot

/-- The nodes that a formula shows are those for the slots of literals. -/
theorem held_eq_select (h : Conforms catalog outline) : outline.held = outline.select Slot.isLiteral := by
  induction h with
  | root _ _ ih | call _ _ _ ih | choice _ _ ih | union _ _ _ ih | keyword _ _ _ ih =>
    rw [held_of_isWrapper rfl, select_isLiteral_of_isWrapper rfl, ih]
  | scalar => rfl
  | list _ _ ih =>
    rw [held_list, select_node]
    exact List.flatMap_congr ih
  | operator _ _ ih =>
    rw [held_operator, select_node]
    exact List.flatMap_congr ih
  | @keywords group parts supplied hparts hsupplied ih =>
    rw [held_keywords, select_node]
    refine flatMap_held_filter_isSupplied (fun part hpart hsome ↦ ?_) fun part hpart hnone ↦ ?_
    · obtain ⟨keyword, -, rfl | ⟨hmem, -⟩⟩ := exists_mem_of_forall₂ hparts.flip hpart
      · exact absurd ((isSupplied_absent keyword).symm.trans hsome) Bool.false_ne_true
      · exact ih part hmem
    · obtain ⟨keyword, -, rfl | ⟨hmem, own, -, -, hslot⟩⟩ := exists_mem_of_forall₂ hparts.flip hpart
      · exact select_isLiteral_absent keyword
      · exact (hsupplied part hmem).select_isLiteral_of_not_isSupplied hslot hnone

/-- What is read for anything but a group of keyword arguments leads to an operator, a literal or a
list. -/
theorem isComplete_innermost (h : Conforms catalog outline) (hslot : outline.slot.isGroup = false) :
    outline.innermost.IsComplete := by
  induction h with
  | root hpart _ ih =>
    rw [innermost_of_isWrapper rfl]
    exact ih (hpart ▸ rfl)
  | call _ hpart _ ih =>
    rw [innermost_of_isWrapper rfl]
    exact ih (hpart ▸ rfl)
  | choice hpart _ ih =>
    rw [innermost_of_isWrapper rfl]
    rcases hpart with hpart | hpart <;> exact ih (hpart ▸ rfl)
  | union _ hpart _ ih =>
    rw [innermost_of_isWrapper rfl]
    exact ih (hpart ▸ Slot.isGroup_ofArgument _)
  | keyword hpart _ _ ih =>
    rw [innermost_of_isWrapper rfl]
    exact ih (hpart ▸ Slot.isGroup_ofArgument _)
  | scalar => exact .literal
  | list => exact .list
  | operator => exact .operator
  | keywords => exact absurd hslot.symm Bool.false_ne_true

theorem forall_mem_select {keeps : Slot → Bool} {slot : Slot} {content : Option Literal}
    {parts : List Outline} (h : Conforms catalog (.node slot content parts))
    (hparts : ∀ part ∈ parts, ∀ inside ∈ part.select keeps, Conforms catalog inside) :
    ∀ inside ∈ (node slot content parts).select keeps, Conforms catalog inside := by
  intro inside hinside
  rw [select_node, List.mem_append, List.mem_flatMap] at hinside
  rcases hinside with hself | ⟨part, hpart, hinside⟩
  · rwa [List.mem_singleton.mp (List.mem_filter.mp hself).1]
  · exact hparts part hpart inside hinside

/-- The nodes for slots that no absent keyword argument has conform to the catalog as well. -/
theorem of_mem_select {keeps : Slot → Bool}
    (habsent : ∀ keyword : Keyword, keyword.absent.select keeps = []) (h : Conforms catalog outline) :
    ∀ inside ∈ outline.select keeps, Conforms catalog inside := by
  induction h with
  | root hslot hpart ih => exact (root hslot hpart).forall_mem_select (List.forall_mem_singleton.mpr ih)
  | call hoperator hslot hpart ih =>
    exact (call hoperator hslot hpart).forall_mem_select (List.forall_mem_singleton.mpr ih)
  | choice hslot hpart ih =>
    exact (choice hslot hpart).forall_mem_select (List.forall_mem_singleton.mpr ih)
  | scalar hvalue hwritten =>
    exact (scalar hvalue hwritten).forall_mem_select (List.forall_mem_nil _)
  | union htype hslot hpart ih =>
    exact (union htype hslot hpart).forall_mem_select (List.forall_mem_singleton.mpr ih)
  | list hslots hparts ih => exact (list hslots hparts).forall_mem_select ih
  | operator hslots hparts ih => exact (operator hslots hparts).forall_mem_select ih
  | keywords hparts hsupplied ih =>
    refine (keywords hparts hsupplied).forall_mem_select fun part hpart ↦ ?_
    obtain ⟨keyword, -, rfl | ⟨hmem, -⟩⟩ := exists_mem_of_forall₂ hparts.flip hpart
    · intro inside hinside
      rw [Slot.skeleton, habsent] at hinside
      exact absurd hinside List.not_mem_nil
    · exact ih part hmem
  | keyword hslot hfilled hvalue ih =>
    exact (keyword hslot hfilled hvalue).forall_mem_select (List.forall_mem_singleton.mpr ih)

end Conforms

end Formulary
