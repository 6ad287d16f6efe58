import Formulary.Proofs.Cursor.Machine
/-!
Formulas read by an engine with a state: the cursor, the depth of the slot that is being read, the
furthest complaints so far, and what was shown of the reading. Every step changes this one state, and
where an alternative fails nothing of it is taken back but the cursor (`Engine.Step.attempt`). The engine
is given what a slot looks like before anything is read for it; keyword arguments are collected as they
come and taken out again by position when they are arranged. As with a cursor alone, a step that goes on
for too many rounds or slots has no outcome, and neither has one that cuts the text where it cannot be
cut. Main definitions: `Engine.State`, `Engine.Step` and its combinators, `Engine.resolve`, which reads a
slot, `Engine.keywordArguments` and `Engine.parse`.
-/

set_option autoImplicit false
set_option relaxedAutoImplicit false

namespace Formulary.Engine

open Text

/-- All that an engine keeps while it reads. -/
structure State where
  /-- The offset at which it stands. -/
  cursor : Nat
  /-- How many slots are being read inside one another. -/
  depth : Nat
  /-- The complaints that would be reported if the reading stopped here. -/
  furthest : Furthest
  /-- What was shown of the reading so far. -/
  trace : List Event
deriving DecidableEq

namespace State

/-- The state with the cursor at an offset. -/
def moved (state : State) (offset : Nat) : State :=
  { state with cursor := offset }

/-- The state after something was shown. -/
def shown (state : State) (event : Event) : State :=
  { state with trace := state.trace ++ [event] }

/-- The state after a complaint at the cursor. -/
def refused (state : State) (complaint : Complaint) : State :=
  { state with furthest := state.furthest.add ⟨state.cursor, complaint⟩ }

end State

/-- A step of the engine: its value unless it fails, and the state that it leaves behind. -/
def Step (α : Type) := State → Option (Option α × State)

namespace Step

variable {α β : Type}

/-- The step that changes nothing. -/
protected def pure (value : α) : Step α := fun state ↦
  some (some value, state)

/-- One step after the other. -/
protected def bind (first : Step α) (next : α → Step β) : Step β := fun state ↦ do
  match ← first state with
  | (none, middle) => some (none, middle)
  | (some value, middle) => next value middle

instance : Monad Step where
  pure := Step.pure
  bind := Step.bind

/-- The step that has no outcome. -/
def unending : Step α := fun _ ↦
  none

/-- Something is shown about the cursor. -/
def note (event : Nat → Event) : Step Unit := fun state ↦
  some (some (), state.shown (event state.cursor))

/-- The step that fails without a new complaint. -/
def giveUp : Step α := fun state ↦
  some (none, state)

/-- The step that fails with a complaint at the cursor. -/
def fail (complaint : Complaint) : Step α := fun state ↦
  some (none, state.refused complaint)

/-- Where the cursor stands. -/
def reached : Step Nat := fun state ↦
  some (some state.cursor, state)

/-- The step that fails where as many slots as a limit allows are being read inside one another. -/
def limited (limit : Option Nat) : Step Unit := fun state ↦
  match limit with
  | none => some (some (), state)
  | some most => if most ≤ state.depth then fail (.tooDeep most) state else some (some (), state)

/-- A step inside one more slot. -/
def deeper (step : Step α) : Step α := fun state ↦ do
  let (value, after) ← step { state with depth := state.depth + 1 }
  some (value, { after with depth := after.depth - 1 })

/-- A step, or if it fails another one in the state that it leaves behind. -/
def orElse (first second : Step α) : Step α := fun state ↦ do
  match ← first state with
  | (some value, after) => some (some value, after)
  | (none, after) => second after

/-- Whether a step succeeds. -/
def optionally (step : Step α) : Step (Option α) := fun state ↦ do
  let (value, after) ← step state
  some (some value, after)

/-- Some steps in order. -/
def inOrder : List (Step α) → Step (List α)
  | [] => pure []
  | step :: steps => do
    let value ← step
    let values ← inOrder steps
    pure (value :: values)

section Text

variable (text : List Char)

/-- A step that sets the cursor back if it fails. -/
def attempt (step : Step α) : Step α := fun state ↦ do
  match ← step state with
  | (some value, after) => some (some value, after)
  | (none, after) =>
    let back ← Cursor.goTo text state.cursor
    some (none, (after.moved back).shown (.backtracked back))

/-- The first of some steps that succeeds, each of them attempted. -/
def firstOf : List (Step α) → Step α
  | [] => giveUp
  | step :: steps => orElse (attempt text step) (firstOf steps)

/-- A step that is attempted again and again until it fails or does not get any further. -/
def repeatedly (step : Step α) : (rounds : Nat) → Step (List α)
  | 0 => unending
  | rounds + 1 => do
    let before ← reached
    match ← optionally (attempt text step) with
    | none => pure []
    | some value =>
      let after ← reached
      if before < after then do
        let values ← repeatedly step rounds
        pure (value :: values)
      else
        pure []

/-- The end of the text. -/
def atEnd : Step Unit := fun state ↦
  if byteLength text ≤ state.cursor then some (some (), state) else fail .expectingEnd state

variable (rounds : Nat)

/-- The step that moves past something and the separators after it. -/
def move (advance : Nat → Option (Option Nat)) (complaint : Complaint) : Step Unit := fun state ↦ do
  match ← advance state.cursor with
  | none => fail complaint state
  | some eaten =>
    let after ← Cursor.skipSeparators text rounds eaten
    some (some (), state.moved after)

/-- A symbol and the separators after it. -/
def symbol (symbol : String) : Step Unit :=
  move text rounds (Cursor.eat text symbol.toList) (.expectingSymbol symbol)

/-- A word and the separators after it. -/
def word (word : String) : Step Unit :=
  move text rounds (Cursor.word text word.toList) (.expectingKeyword word)

/-- A literal of a kind and the separators after it. Where it is refused, the cursor stands wherever its
reader stopped. -/
def literal (kind : Scalar) : Step Literal := fun state ↦ do
  match ← Cursor.readLiteral text rounds kind state.cursor with
  | (.error complaint, stop) => fail complaint (state.moved stop)
  | (.ok value, stop) =>
    let after ← Cursor.skipSeparators text rounds stop
    some (some value, state.moved after)

end Text

end Step

/-! ### Keyword arguments -/

/-- The first name that was already seen among some others or under an earlier entry. -/
def repeatedName? : (seen : List String) → List (String × Outline) → Option String
  | _, [] => none
  | seen, (name, _) :: supplied =>
    if name ∈ seen then some name else repeatedName? (name :: seen) supplied

/-- The items without the one at an index, in the place of which the last one comes. -/
def swapRemove {α : Type} (items : List α) (index : Nat) : List α :=
  match items.getLast? with
  | none => []
  | some last => (items.set index last).dropLast

/-- What is found first under a name, and what is left when it is taken out. -/
def takeOut? (name : String) (supplied : List (String × Outline)) :
    Option (Outline × List (String × Outline)) := do
  let index ← supplied.findIdx? fun entry ↦ entry.1 == name
  let entry ← supplied[index]?
  some (entry.2, swapRemove supplied index)

/-- The keyword arguments in the order of declaration, each one taken out where it is found under the
name of a declaration. -/
def arrangeSupplied : List Keyword → List (String × Outline) → List Outline
  | [], _ => []
  | keyword :: group, supplied =>
    match takeOut? keyword.name supplied with
    | some (outline, left) => outline :: arrangeSupplied group left
    | none => keyword.absent :: arrangeSupplied group supplied

section Keywords

open Step

variable (text : List Char) (inner : Outline → Step Outline) (group : List Keyword)

/-- The first keyword argument of a group that can be read, together with its declaration. -/
def supply : Step (Keyword × Outline) :=
  firstOf text (group.map fun keyword ↦ do
    let outline ← inner (.vacant (.keyword keyword))
    pure (keyword, outline))

/-- Keyword arguments in any order, added to those already read. Whether a name is repeated is looked at
before the next one is read. -/
def readSupplied : (rounds : Nat) → List (String × Outline) → Step (List (String × Outline))
  | 0, _ => unending
  | rounds + 1, supplied =>
    match repeatedName? [] supplied with
    | some name => fail (.duplicateKeyword ("#:" ++ name))
    | none => do
      match ← optionally (supply text inner group) with
      | none => pure supplied
      | some (keyword, outline) => readSupplied rounds (supplied ++ [(keyword.name, outline)])

/-- The keyword arguments of a group. One round more than there are arguments is needed to see that no
name is repeated. -/
def keywordArguments (rounds : Nat) : Step (List Outline) := do
  let supplied ← readSupplied text inner group (rounds + 1) []
  pure (arrangeSupplied group supplied)

end Keywords

/-! ### Slots -/

section Slots

open Step

variable (text : List Char) (rounds : Nat) (catalog : Catalog)

/-- What an outline is filled with, given how to fill others. -/
def dispatch (inner : Outline → Step Outline) : Outline → Step Outline
  | .node slot content parts =>
    match slot with
    | .root _ => do
      let parts ← inOrder (parts.map inner)
      atEnd text
      pure (.node slot content parts)
    | .call base => do
      symbol text rounds "("
      let operators := catalog.operators base
      if operators.isEmpty then
        fail (.noOperator base)
      else do
        let operator ← firstOf text (operators.map fun operator ↦ do
          Step.word text rounds operator.name
          pure operator)
        let part ← inner (Slot.operator operator).skeleton
        symbol text rounds ")"
        pure (.node slot content [part])
    | .choice kind => do
      let part ← firstOf text
        [inner (Slot.typed (.scalar kind)).skeleton, inner (Slot.call (.scalar kind)).skeleton]
      pure (.node slot content [part])
    | .typed (.scalar kind) => do
      let value ← literal text rounds kind
      pure (.node slot (some value) [])
    | .typed .series => fail .seriesLiteral
    | .typed (.union alternatives) =>
      if alternatives.isEmpty then
        fail (.expecting "a union alternative")
      else do
        let part ← firstOf text (alternatives.map fun type ↦ inner (Slot.ofArgument type).skeleton)
        pure (.node slot content [part])
    | .typed (.list element) => do
      symbol text rounds "("
      let parts ← repeatedly text (inner (Slot.ofArgument element).skeleton) rounds
      symbol text rounds ")"
      pure (.node slot content parts)
    | .keywords group => do
      let parts ← keywordArguments text inner group rounds
      pure (.node slot content parts)
    | .operator _ => do
      let parts ← inOrder (parts.map inner)
      pure (.node slot content parts)
    | .keyword own => do
      Step.word text rounds own.marker
      let value ← inner (Slot.ofArgument own.type).skeleton
      pure (.node slot content [value])

/-- Fills an outline, unless it is nested more deeply than the limit. -/
def resolve (limit : Option Nat) : (nesting : Nat) → Outline → Step Outline
  | 0, _ => unending
  | nesting + 1, outline => do
    note (.entered outline.slot)
    limited limit
    let filled ← deeper (dispatch text rounds catalog (resolve limit nesting) outline)
    note (.filled filled)
    pure filled

end Slots

/-- The outline of a formula, or the furthest complaints with their position. -/
def parse (catalog : Catalog) (limit : Option Nat) (rounds nesting : Nat) (source : String) :
    Option (Except (List Diagnostic) Outline) := do
  let text := source.toList
  let start ← Cursor.skipSeparators text rounds 0
  match ← resolve text rounds catalog limit nesting (Slot.root .series).skeleton
      ⟨start, 0, .none, []⟩ with
  | (some outline, _) => some (.ok outline)
  | (none, last) =>
    let position ← Cursor.position? text last.furthest.offset
    some (.error (last.furthest.complaints.map fun complaint ↦ ⟨position, complaint⟩))

end Formulary.Engine
