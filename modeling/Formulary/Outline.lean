import Formulary.Slot
/-!
Formula outlines. A node stands for a slot, may hold a literal, and has the nodes of its parts in
order. Main definitions: `Outline`, `Outline.size`, `Outline.isFilled`, `Outline.innermost`, and
`Outline.agreesWith`, equality but for the signs of zeros.
-/

set_option autoImplicit false
set_option relaxedAutoImplicit false

namespace Formulary

/-- An outline of slots, each with the literal it holds, if any. -/
inductive Outline
  | node (slot : Slot) (content : Option Literal) (parts : List Outline)

namespace Outline

/-- What the root stands for. -/
def slot : Outline → Slot
  | .node slot _ _ => slot

/-- The literal that the root holds. -/
def content : Outline → Option Literal
  | .node _ content _ => content

/-- The parts of the root. -/
def parts : Outline → List Outline
  | .node _ _ parts => parts

/-- A node without parts that holds nothing. -/
def vacant (slot : Slot) : Outline :=
  .node slot none []

/-- The operator at the root, if it is one. -/
def operator? (outline : Outline) : Option Operator :=
  match outline.slot with
  | .operator operator => some operator
  | _ => none

mutual

/-- Whether two outlines are the same. -/
def decEq : (first second : Outline) → Decidable (first = second)
  | .node slot content parts, .node slot' content' parts' =>
    if hslot : slot = slot' then
      if hcontent : content = content' then
        match decEqAll parts parts' with
        | isTrue h => isTrue (hslot ▸ hcontent ▸ h ▸ rfl)
        | isFalse h => isFalse fun equal ↦ h (Outline.node.inj equal).2.2
      else
        isFalse fun equal ↦ hcontent (Outline.node.inj equal).2.1
    else
      isFalse fun equal ↦ hslot (Outline.node.inj equal).1

/-- Whether two lists of outlines are the same. -/
def decEqAll : (first second : List Outline) → Decidable (first = second)
  | [], [] => isTrue rfl
  | first :: firsts, second :: seconds =>
    match decEq first second, decEqAll firsts seconds with
    | isTrue h, isTrue hs => isTrue (h ▸ hs ▸ rfl)
    | isFalse h, _ => isFalse fun equal ↦ h (List.cons.inj equal).1
    | _, isFalse hs => isFalse fun equal ↦ hs (List.cons.inj equal).2
  | [], _ :: _ | _ :: _, [] => isFalse nofun

end

instance : DecidableEq Outline := decEq

mutual

/-- The number of nodes. -/
def size : Outline → Nat
  | .node _ _ parts => sizeOfAll parts + 1

/-- The number of nodes of some outlines. -/
def sizeOfAll : List Outline → Nat
  | [] => 0
  | outline :: outlines => outline.size + sizeOfAll outlines

end

mutual

/-- The nodes in preorder, each with its depth and itself as the root of its part. -/
def preorder (depth : Nat) : Outline → List (Nat × Outline)
  | .node slot content parts =>
    (depth, .node slot content parts) :: preorderOfAll (depth + 1) parts

/-- The nodes of some outlines in preorder. -/
def preorderOfAll (depth : Nat) : List Outline → List (Nat × Outline)
  | [] => []
  | outline :: outlines => outline.preorder depth ++ preorderOfAll depth outlines

end

/-- The literals of an outline: those that its nodes hold and those that their slots declare as
defaults. -/
def literals (outline : Outline) : List Literal :=
  (outline.preorder 0).flatMap fun (_, part) ↦ part.slot.defaults ++ part.content.toList

/-- Whether the root was filled from a text. A default that stands in a slot does not fill it. -/
def isFilled (outline : Outline) : Bool :=
  match outline.slot with
  | .root _ | .call _ | .choice _ | .typed (.union _) | .typed (.list _) => !outline.parts.isEmpty
  | .typed (.scalar _) => outline.content.isSome
  | .typed .series => false
  | .keywords _ | .operator _ | .keyword _ => true

/-- Whether a slot only holds one part that stands for it. -/
def isWrapper : Slot → Bool
  | .root _ | .call _ | .choice _ | .keyword _ | .typed (.union _) => true
  | .typed _ | .keywords _ | .operator _ => false

mutual

/-- The first part below slots that hold a single part. -/
def innermost : Outline → Outline
  | .node slot content parts =>
    if isWrapper slot then
      (onlyInnermost parts).getD (.node slot content parts)
    else
      .node slot content parts

/-- The innermost part, if there is exactly one. -/
def onlyInnermost : List Outline → Option Outline
  | [outline] => some outline.innermost
  | [] | _ :: _ :: _ => none

end

mutual

/-- The same outline with every zero made positive. -/
def withoutZeroSigns : Outline → Outline
  | .node slot content parts =>
    .node slot.withoutZeroSign (content.map Literal.withoutZeroSign) (withoutZeroSignsAll parts)

/-- The same outlines with every zero made positive. -/
def withoutZeroSignsAll : List Outline → List Outline
  | [] => []
  | outline :: outlines => outline.withoutZeroSigns :: withoutZeroSignsAll outlines

end

/-- Whether two outlines are the same but for the signs of zeros, since equal numbers are
interchangeable. The NaN is not even equal to itself. -/
def agreesWith (first second : Outline) : Bool :=
  first.withoutZeroSigns = second.withoutZeroSigns && !first.literals.contains .nan

end Outline

end Formulary
