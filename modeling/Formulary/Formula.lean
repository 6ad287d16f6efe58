import Formulary.Catalog
import Formulary.Outline.Skeleton
import Formulary.Reading
/-!
Formulas. A formula is one use of an operator that produces a series; what may stand in each place
follows from the declared types. Where several things may stand, they are tried in order and the
first that can be read is taken for good. Main definitions: `fill`, which reads a slot, and
`readFormula`, which reads a whole formula and keeps the journal.
-/

set_option autoImplicit false
set_option relaxedAutoImplicit false

namespace Formulary

open Text Reading

/-- Keyword arguments in any order, each at most once, added to those already read. -/
def readSupplied (inner : Slot → Reading Outline) (group : List Keyword) :
    Nat → List (String × Outline) → Reading (List (String × Outline))
  | 0, supplied => pure supplied
  | bound + 1, supplied => do
    let step (keyword : Keyword) : Reading (Keyword × Outline) := do
      let outline ← inner (.keyword keyword)
      pure (keyword, outline)
    match ← optionally (firstOf (group.map step)) with
    | none => pure supplied
    | some (keyword, outline) =>
      if supplied.any (fun earlier ↦ earlier.1 == keyword.name) then
        fail (.duplicateKeyword keyword.marker)
      else
        readSupplied inner group bound (supplied ++ [(keyword.name, outline)])

/-- The keyword arguments in the order of declaration: each one that was supplied stands at the
first declaration of its name, and the other declarations are absent. -/
def arrangeKeywords : List Keyword → List (String × Outline) → List Outline
  | [], _ => []
  | keyword :: group, supplied =>
    match supplied.lookup keyword.name with
    | some outline =>
      outline :: arrangeKeywords group (supplied.filter fun other ↦ other.1 != keyword.name)
    | none => keyword.absent :: arrangeKeywords group supplied

/-- What a slot is read as, given how to read the slots of its parts. -/
def fillParts (catalog : Catalog) (inner : Slot → Reading Outline) (slot : Slot) :
    Reading Outline :=
  match slot with
  | .root base => do
    let part ← inner (.call base)
    atEnd
    pure (.node slot none [part])
  | .call base => do
    symbol "("
    let operators := catalog.operators base
    if operators.isEmpty then
      fail (.noOperator base)
    else do
      let operator ← firstOf (operators.map fun operator ↦ do
        word operator.name
        pure operator)
      let part ← inner (.operator operator)
      symbol ")"
      pure (.node slot none [part])
  | .choice kind => do
    let part ← firstOf [inner (.typed (.scalar kind)), inner (.call (.scalar kind))]
    pure (.node slot none [part])
  | .typed (.scalar kind) => do
    let value ← literal kind
    pure (.node slot (some value) [])
  | .typed .series => fail .seriesLiteral
  | .typed (.union alternatives) =>
    if alternatives.isEmpty then
      fail (.expecting "a union alternative")
    else do
      let part ← firstOf (alternatives.map fun type ↦ inner (.ofArgument type))
      pure (.node slot none [part])
  | .typed (.list element) => do
    symbol "("
    let bound ← remaining
    let parts ← repeatedly (inner (.ofArgument element)) (bound + 1)
    symbol ")"
    pure (.node slot none parts)
  | .keywords group => do
    let bound ← remaining
    let supplied ← readSupplied inner group (bound + 1) []
    pure (.node slot none (arrangeKeywords group supplied))
  | .operator operator => do
    let parts ← inOrder (operator.slots.map inner)
    pure (.node slot none parts)
  | .keyword keyword => do
    word keyword.marker
    let value ← inner (.ofArgument keyword.type)
    pure (.node slot none [value])

/-- Reads a slot. The room is the number of slots that may still be read inside one another; where
there is none the formula is nested more deeply than the limit. -/
def fill (catalog : Catalog) (limit : Nat) : Nat → Slot → Reading Outline
  | 0, slot => do
    note (.entered slot)
    fail (.tooDeep limit)
  | room + 1, slot => do
    note (.entered slot)
    let outline ← nested (fillParts catalog (fill catalog limit room) slot)
    note (.filled outline)
    pure outline

/-- How many slots a formula can nest. Every use of an operator and every list has an opening
parenthesis, and between two of them there is at most one type with its parts. -/
def nestingBound (catalog : Catalog) (text : List Char) : Nat :=
  (text.count '(' + 1) * (catalog.depth + 6)

/-- Reads a formula, with a limit on how many slots are read inside one another. Without a limit
the formula itself sets a bound, which is never reached. -/
def readFormula (catalog : Catalog) (limit : Option Nat) (text : List Char) : Outcome Outline :=
  let room := limit.getD (nestingBound catalog text)
  fill catalog room room (.root .series) (Place.start text).skipSeparators

/-- The outline of a formula, or why it cannot be read. -/
def parseFormula (catalog : Catalog) (limit : Option Nat) (source : String) :
    Except (List Diagnostic) Outline :=
  let text := source.toList
  let outcome := readFormula catalog limit text
  match outcome.result with
  | some (outline, _) => .ok outline
  | none => .error (diagnostics text (failuresOf outcome.events))

end Formulary
