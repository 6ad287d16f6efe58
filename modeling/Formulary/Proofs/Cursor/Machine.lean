import Formulary.Formula
import Formulary.Proofs.Cursor.Token
/-!
Formulas read by a machine that has nothing but a cursor. Its steps say what happens, what comes of it,
and where the cursor comes to stand, also where a step fails; an alternative that fails sets the cursor
back. The machine reads formulas as `readFormula` does, but nothing ends its loops and its recursion
except what ends them in the text: a step that goes on beyond a number of rounds or of slots inside one
another has no outcome at all, and neither has one that cuts the text where it cannot be cut. Main
definitions: `Cursor.Step`, its combinators, and `Cursor.parse`.
-/

set_option autoImplicit false
set_option relaxedAutoImplicit false

namespace Formulary.Cursor

open Text

/-- A step from an offset: what happens, the value unless the step fails, and where the cursor comes to
stand. -/
def Step (α : Type) := Nat → Option (List Event × Option α × Nat)

namespace Step

variable {α β : Type}

/-- The step that reads nothing. -/
protected def pure (value : α) : Step α := fun offset ↦
  some ([], some value, offset)

/-- One step after the other. -/
protected def bind (first : Step α) (next : α → Step β) : Step β := fun offset ↦ do
  let (events, value, middle) ← first offset
  match value with
  | none => some (events, none, middle)
  | some value =>
    let (more, result, after) ← next value middle
    some (events ++ more, result, after)

instance : Monad Step where
  pure := Step.pure
  bind := Step.bind

/-- The step that has no outcome. -/
def unending : Step α := fun _ ↦
  none

/-- An event at the cursor. -/
def note (event : Nat → Event) : Step Unit := fun offset ↦
  some ([event offset], some (), offset)

/-- The step that fails without a new complaint. -/
def giveUp : Step α := fun offset ↦
  some ([], none, offset)

/-- The step that fails with a complaint at the cursor. -/
def fail (complaint : Complaint) : Step α := fun offset ↦
  some ([.failed ⟨offset, complaint⟩], none, offset)

/-- Where the cursor stands. -/
def reached : Step Nat := fun offset ↦
  some ([], some offset, offset)

/-- A step, or if it fails another one from where it stopped. -/
def orElse (first second : Step α) : Step α := fun offset ↦ do
  let (events, value, stop) ← first offset
  match value with
  | some value => some (events, some value, stop)
  | none =>
    let (more, result, after) ← second stop
    some (events ++ more, result, after)

/-- Whether a step succeeds. -/
def optionally (step : Step α) : Step (Option α) := fun offset ↦ do
  let (events, value, stop) ← step offset
  some (events, some value, stop)

/-- Some steps in order. -/
def inOrder : List (Step α) → Step (List α)
  | [] => pure []
  | step :: steps => do
    let value ← step
    let values ← inOrder steps
    pure (value :: values)

section Text

variable (text : List Char)

/-- A step that sets the cursor back if it fails. -/
def attempt (step : Step α) : Step α := fun offset ↦ do
  let (events, value, stop) ← step offset
  match value with
  | some value => some (events, some value, stop)
  | none =>
    let back ← goTo text offset
    some (events ++ [.backtracked back], none, back)

/-- The first of some steps that succeeds, each of them attempted. -/
def firstOf : List (Step α) → Step α
  | [] => giveUp
  | step :: steps => orElse (attempt text step) (firstOf steps)

/-- A step that is attempted again and again until it fails or does not get any further. -/
def repeatedly (step : Step α) : (rounds : Nat) → Step (List α)
  | 0 => unending
  | rounds + 1 => do
    let before ← reached
    match ← optionally (attempt text step) with
    | none => pure []
    | some value =>
      let after ← reached
      if before < after then do
        let values ← repeatedly step rounds
        pure (value :: values)
      else
        pure []

/-- The end of the text. -/
def atEnd : Step Unit := fun offset ↦
  if byteLength text ≤ offset then some ([], some (), offset) else fail .expectingEnd offset

variable (rounds : Nat)

/-- The step that moves past something and the separators after it. -/
def move (advance : Nat → Option (Option Nat)) (complaint : Complaint) : Step Unit := fun offset ↦ do
  match ← advance offset with
  | none => fail complaint offset
  | some eaten =>
    let after ← skipSeparators text rounds eaten
    some ([], some (), after)

/-- A symbol and the separators after it. -/
def symbol (symbol : String) : Step Unit :=
  move text rounds (eat text symbol.toList) (.expectingSymbol symbol)

/-- A word and the separators after it. -/
def word (word : String) : Step Unit :=
  move text rounds (Cursor.word text word.toList) (.expectingKeyword word)

/-- A literal of a kind and the separators after it. -/
def literal (kind : Scalar) : Step Literal := fun offset ↦ do
  match ← readLiteral text rounds kind offset with
  | (.error complaint, stop) => fail complaint stop
  | (.ok value, stop) =>
    let after ← skipSeparators text rounds stop
    some ([], some value, after)

end Text

end Step

/-! ### Slots -/

section Slots

open Step

variable (text : List Char)

/-- Keyword arguments in any order, each at most once, added to those already read. -/
def readSupplied (inner : Slot → Step Outline) (group : List Keyword) :
    (rounds : Nat) → List (String × Outline) → Step (List (String × Outline))
  | 0, _ => unending
  | rounds + 1, supplied => do
    let step (keyword : Keyword) : Step (Keyword × Outline) := do
      let outline ← inner (.keyword keyword)
      pure (keyword, outline)
    match ← optionally (firstOf text (group.map step)) with
    | none => pure supplied
    | some (keyword, outline) =>
      if supplied.any (fun earlier ↦ earlier.1 == keyword.name) then
        fail (.duplicateKeyword keyword.marker)
      else
        readSupplied inner group rounds (supplied ++ [(keyword.name, outline)])

variable (rounds : Nat) (catalog : Catalog)

/-- What a slot is read as, given how to read the slots of its parts. -/
def fillParts (inner : Slot → Step Outline) (slot : Slot) : Step Outline :=
  match slot with
  | .root base => do
    let part ← inner (.call base)
    atEnd text
    pure (.node slot none [part])
  | .call base => do
    symbol text rounds "("
    let operators := catalog.operators base
    if operators.isEmpty then
      fail (.noOperator base)
    else do
      let operator ← firstOf text (operators.map fun operator ↦ do
        Step.word text rounds operator.name
        pure operator)
      let part ← inner (.operator operator)
      symbol text rounds ")"
      pure (.node slot none [part])
  | .choice kind => do
    let part ← firstOf text [inner (.typed (.scalar kind)), inner (.call (.scalar kind))]
    pure (.node slot none [part])
  | .typed (.scalar kind) => do
    let value ← literal text rounds kind
    pure (.node slot (some value) [])
  | .typed .series => fail .seriesLiteral
  | .typed (.union alternatives) =>
    if alternatives.isEmpty then
      fail (.expecting "a union alternative")
    else do
      let part ← firstOf text (alternatives.map fun type ↦ inner (.ofArgument type))
      pure (.node slot none [part])
  | .typed (.list element) => do
    symbol text rounds "("
    let parts ← repeatedly text (inner (.ofArgument element)) rounds
    symbol text rounds ")"
    pure (.node slot none parts)
  | .keywords group => do
    let supplied ← readSupplied text inner group rounds []
    pure (.node slot none (arrangeKeywords group supplied))
  | .operator operator => do
    let parts ← inOrder (operator.slots.map inner)
    pure (.node slot none parts)
  | .keyword keyword => do
    Step.word text rounds keyword.marker
    let value ← inner (.ofArgument keyword.type)
    pure (.node slot none [value])

/-- Reads a slot. Where there is no room for it, the formula is nested more deeply than the limit; and if
there is no limit, there is no outcome. -/
def fill (limit : Option Nat) : (room : Nat) → Slot → Step Outline
  | 0, slot =>
    match limit with
    | none => unending
    | some limit => do
      note (.entered slot)
      fail (.tooDeep limit)
  | room + 1, slot => do
    note (.entered slot)
    let outline ← fillParts text rounds catalog (fill limit room) slot
    note (.filled outline)
    pure outline

end Slots

/-! ### Formulas -/

/-- The byte where the last newline of a text stands. -/
def lastNewline? : List Char → Option Nat
  | [] => none
  | character :: text =>
    match lastNewline? text with
    | some index => some (character.utf8Size + index)
    | none => if character = '\n' then some 0 else none

/-- The row and the column of an offset. -/
def position? (text : List Char) (offset : Nat) : Option Position := do
  let before ← slice? text 0 (min offset (byteLength text))
  let line ← rest? before ((lastNewline? before).elim 0 (· + 1))
  some ⟨before.count '\n' + 1, line.length + 1⟩

/-- Reads a formula from the beginning of its text, with a limit on how many slots are read inside one
another, or without one as many as the nesting allows. -/
def readFormula (catalog : Catalog) (limit : Option Nat) (rounds nesting : Nat) (text : List Char) :
    Option (List Event × Option Outline × Nat) := do
  let start ← skipSeparators text rounds 0
  fill text rounds catalog limit (limit.getD nesting) (.root .series) start

/-- The outline of a formula, or the furthest complaints with their position. -/
def parse (catalog : Catalog) (limit : Option Nat) (rounds nesting : Nat) (source : String) :
    Option (Except (List Diagnostic) Outline) := do
  let text := source.toList
  let (events, outline, _) ← readFormula catalog limit rounds nesting text
  match outline with
  | some outline => some (.ok outline)
  | none =>
    let last := furthest (failuresOf events)
    let position ← position? text last.offset
    some (.error (last.complaints.map fun complaint ↦ ⟨position, complaint⟩))

end Formulary.Cursor
