import Formulary.Outline
/-!
Writing an outline as a formula. Keyword arguments are written only if they were read from a text,
so a default stays implicit. Main definitions: `Outline.characters` and `Outline.text`.
-/

set_option autoImplicit false
set_option relaxedAutoImplicit false

namespace Formulary.Outline

/-- What a slot that holds nothing is written as. -/
def placeholder : Char := '_'

/-- The literal of a slot, or the placeholder. -/
def contentCharacters (content : Option Literal) : List Char :=
  content.elim [placeholder] Literal.characters

/-- Whether a keyword argument has a value that was read from a text. -/
def isSupplied (keyword : Outline) : Bool :=
  match keyword.parts with
  | [] => false
  | value :: _ => value.isFilled

mutual

/-- The formula of an outline. -/
def characters : Outline → List Char
  | .node (.operator operator) _ parts =>
    '(' :: operator.name.toList ++ operandCharacters parts ++ [')']
  | .node (.keywords _) _ parts => keywordCharacters parts
  | .node (.keyword keyword) content parts =>
    keyword.marker.toList ++ ' ' :: valueCharacters content parts
  | .node (.typed (.list _)) _ parts => '(' :: elementCharacters parts ++ [')']
  | .node (.typed (.scalar _)) content _ => contentCharacters content
  | .node (.typed .series) content _ => contentCharacters content
  | .node _ content parts => valueCharacters content parts

/-- What follows an operator, each argument after a space. -/
def operandCharacters : List Outline → List Char
  | [] => []
  | outline :: outlines =>
    match outline.slot with
    | .keywords _ => outline.characters ++ operandCharacters outlines
    | _ => ' ' :: outline.characters ++ operandCharacters outlines

/-- The keyword arguments that are supplied, each after a space. -/
def keywordCharacters : List Outline → List Char
  | [] => []
  | outline :: outlines =>
    if outline.isSupplied then
      ' ' :: outline.characters ++ keywordCharacters outlines
    else
      keywordCharacters outlines

/-- The elements of a list, with spaces between them. -/
def elementCharacters : List Outline → List Char
  | [] => []
  | [outline] => outline.characters
  | outline :: outlines => outline.characters ++ ' ' :: elementCharacters outlines

/-- The first part of a slot, or what the slot itself holds if it has none. -/
def valueCharacters (content : Option Literal) : List Outline → List Char
  | [] => contentCharacters content
  | outline :: _ => outline.characters

end

/-- The formula of an outline as a text. -/
def text (outline : Outline) : String :=
  String.ofList outline.characters

end Formulary.Outline
