import Formulary.Proofs.Outline.Pieces
import Formulary.Proofs.Record.Reading
import Formulary.Proofs.Record.Writing
/-!
Which literals a formula shows once it has been read. They are those that were read, each of them once and
in the slot for which it was read; neither a placeholder nor a default is among them. And what an operator
is applied to leads to an operator, a literal or a list (`showsWhatWasRead_of_parseFormula`). Main
definition: `Outline.ShowsWhatWasRead`.
-/

set_option autoImplicit false
set_option relaxedAutoImplicit false

namespace Formulary

open Text Place

/-- What was read for the slot of a literal is the literal that stands there in the text. -/
theorem Record.outline_of_holdsRead {catalog : Catalog} {record : Record} {kind : Scalar}
    (hslot : record.slot = .typed (.scalar kind)) (hsound : record.IsSound catalog)
    (hholds : record.HoldsRead) :
    ∃ value after, record.outline = .node (.typed (.scalar kind)) (some value) [] ∧
      readLiteral kind record.start = .ok (value, after) := by
  obtain ⟨value, after, hcontent, hread, -⟩ := hholds kind hslot
  refine ⟨value, after, ?_, hread⟩
  cases hsound with
  | scalar =>
    obtain rfl := Option.some.inj hcontent
    cases Slot.typed.inj hslot
    rfl
  | chosen hchosen =>
    obtain rfl := hslot
    exact absurd hchosen List.not_mem_nil
  | root | call | list | keywords | operator | keyword => cases hslot

/-- The arguments of an operator, which stand before its keyword arguments. -/
theorem Conforms.forall₂_arguments {catalog : Catalog} {chosen : Operator} {content : Option Literal}
    {parts : List Outline} (h : Conforms catalog (.node (.operator chosen) content parts)) :
    List.Forall₂ (fun type argument ↦ argument.slot = .ofArgument type ∧
      argument.innermost.IsComplete) chosen.parameters (parts.take chosen.parameters.length) := by
  cases h with
  | operator hslots hparts =>
    have htaken : (parts.take chosen.parameters.length).map Outline.slot =
        chosen.parameters.map Slot.ofArgument := by
      rw [List.map_take, hslots, Operator.slots, List.take_left' (List.length_map _)]
    rw [← List.forall₂_eq_eq_eq, List.forall₂_map_left_iff, List.forall₂_map_right_iff] at htaken
    have hconform : ∀ argument ∈ parts.take chosen.parameters.length, Conforms catalog argument :=
      fun argument hargument ↦ hparts argument (List.mem_of_mem_take hargument)
    refine (((List.forall₂_and_left _ _).mpr ⟨hconform, htaken⟩).imp ?_).flip
    rintro argument type ⟨hargument, hslot⟩
    exact ⟨hslot, hargument.isComplete_innermost (hslot ▸ Slot.isGroup_ofArgument type)⟩

/-- The formula of an outline shows just the literals that were read, each as it was read in the text, and
neither the placeholder nor a default. What an operator is applied to leads to an operator, a literal or a
list. -/
structure Outline.ShowsWhatWasRead (catalog : Catalog) (limit : Option Nat) (source : String)
    (outline : Outline) : Prop where
  written : outline.characters = outline.pieces.flatMap Piece.characters
  literals : ∃ record : Record, record.IsOf catalog limit source ∧ record.outline = outline ∧
    outline.held.Perm ((record.select Slot.isLiteral).map Record.outline) ∧
      ∀ leaf ∈ record.select Slot.isLiteral, ∃ kind value after,
        leaf.outline = .node (.typed (.scalar kind)) (some value) [] ∧
          Within source.toList leaf.start ∧ readLiteral kind leaf.start = .ok (value, after)
  arguments : ∀ use ∈ outline.uses, ∃ chosen, use.slot = .operator chosen ∧
    List.Forall₂ (fun type argument ↦ argument.slot = .ofArgument type ∧
      argument.innermost.IsComplete) chosen.parameters (use.parts.take chosen.parameters.length)

/-- Whatever is read as a formula is written with nothing but what was read. -/
theorem showsWhatWasRead_of_parseFormula {catalog : Catalog} {limit : Option Nat} {source : String}
    {outline : Outline} (h : parseFormula catalog limit source = .ok outline) :
    outline.ShowsWhatWasRead catalog limit source := by
  have hconforms := (conforms_of_parseFormula h).2
  refine ⟨outline.characters_eq, ?_, fun use huse ↦ ?_⟩
  · obtain ⟨record, hrecord, rfl, -, hholds⟩ := exists_record_holding h
    refine ⟨record, hrecord, rfl, ?_, fun leaf hleaf ↦ ?_⟩
    · rw [hconforms.held_eq_select]
      exact Record.perm_select Outline.select_isLiteral_absent hrecord.sound
    · obtain ⟨hmem, hliteral⟩ := List.mem_filter.mp hleaf
      obtain ⟨kind, hslot⟩ := Slot.exists_of_isLiteral hliteral
      obtain ⟨value, after, hleaf, hread⟩ :=
        Record.outline_of_holdsRead hslot (hrecord.sound leaf hmem) (hholds leaf hmem)
      exact ⟨kind, value, after, hleaf, hrecord.within leaf hmem, hread⟩
  · obtain ⟨chosen, hslot⟩ := Slot.exists_of_isUse (List.mem_filter.mp huse).2
    have huseConforms := hconforms.of_mem_select Outline.uses_absent use huse
    obtain ⟨slot, content, parts⟩ := use
    obtain rfl : slot = .operator chosen := hslot
    exact ⟨chosen, rfl, huseConforms.forall₂_arguments⟩

/-- An operator with a choice as its argument and a keyword argument that has a default. -/
def operatorOfChoice : Operator :=
  { name := "s", result := .series, parameters := [.union [.list (.scalar .int), .scalar .string]],
    keywords := [⟨"fill", .scalar .int, some (.int 0)⟩] }

/-- The formula that uses `operatorOfChoice` on a text. -/
def operatorOfChoiceOutline : Outline :=
  .node (.root .series) none [.node (.call .series) none [.node (.operator operatorOfChoice) none
    [.node (.typed (.union [.list (.scalar .int), .scalar .string])) none
        [.node (.choice .string) none [.node (.typed (.scalar .string)) (some (.string "a")) []]],
      .node (.keywords operatorOfChoice.keywords) none
        (operatorOfChoice.keywords.map Keyword.absent)]]]

/-- The text is shown, and the default is not. -/
theorem showsWhatWasRead_of_operatorOfChoice :
    parseFormula (.ofList [operatorOfChoice]) none "(s \"a\")" = .ok operatorOfChoiceOutline ∧
      operatorOfChoiceOutline.held = [.node (.typed (.scalar .string)) (some (.string "a")) []] ∧
      operatorOfChoiceOutline.ShowsWhatWasRead (.ofList [operatorOfChoice]) none "(s \"a\")" := by
  have hread : parseFormula (.ofList [operatorOfChoice]) none "(s \"a\")" =
      .ok operatorOfChoiceOutline := by decide +kernel
  exact ⟨hread, by decide +kernel, showsWhatWasRead_of_parseFormula hread⟩

end Formulary
