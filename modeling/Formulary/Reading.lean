import Formulary.Outline
import Formulary.Token
/-!
Readings: steps that take something off a formula and keep a journal of what they tried. A step
that fails leads nowhere, so whatever is tried next starts where the failed step started. The
journal knows which of its parts were given up in this way: `Journal.events` is everything that
happened, `Journal.kept` what the result of a successful reading is made of, and
`Journal.overlooked` what happened in alternatives that another one took the place of. It also
knows what happened inside what: `Journal.nesting`. Main definitions: `Event`, `Journal`, `Outcome`,
`Reading` with its monad, and the combinators `trying`, `firstOf`, `optionally`, `repeatedly` and
`nested`.
-/

set_option autoImplicit false
set_option relaxedAutoImplicit false

namespace Formulary

open Text

/-- What happens during a reading. -/
inductive Event
  /-- A slot is about to be read. -/
  | entered (slot : Slot) (offset : Nat)
  /-- A slot was read as an outline, up to an offset. -/
  | filled (outline : Outline) (offset : Nat)
  /-- An alternative failed, and the reading is back where the alternative began. -/
  | backtracked (offset : Nat)
  /-- Something could not be read. -/
  | failed (failure : Failure)
deriving DecidableEq

/-- The failures among some events. -/
def failuresOf (events : List Event) : List Failure :=
  events.filterMap fun
    | .failed failure => some failure
    | _ => none

/-- Events in the order in which they happened. Journals are joined without copying them. -/
inductive Journal
  | empty
  | entry (event : Event)
  | joined (first second : Journal)
  /-- What happened in an alternative that failed and that another one took the place of. -/
  | replaced (failed : Journal)
  /-- What happened in a step that failed and was left out. -/
  | omitted (failed : Journal)
  /-- What happened while one slot was read. -/
  | nested (inside : Journal)

namespace Journal

/-- The events of a journal in front of others. -/
def before : Journal → List Event → List Event
  | .empty, events => events
  | .entry event, events => event :: events
  | .joined first second, events => first.before (second.before events)
  | .replaced failed, events => failed.before events
  | .omitted failed, events => failed.before events
  | .nested inside, events => inside.before events

/-- The events of a journal. -/
def events (journal : Journal) : List Event :=
  journal.before []

theorem before_eq (journal : Journal) (others : List Event) :
    journal.before others = journal.events ++ others := by
  induction journal generalizing others with
  | empty => rfl
  | entry event => rfl
  | joined first second ihfirst ihsecond =>
    simp only [before, events]
    rw [ihfirst, ihsecond, ihfirst (second.before []), List.append_assoc]
    rfl
  | replaced failed ih => exact ih others
  | omitted failed ih => exact ih others
  | nested inside ih => exact ih others

@[simp] theorem events_empty : empty.events = [] := rfl

@[simp] theorem events_entry (event : Event) : (entry event).events = [event] := rfl

@[simp] theorem events_joined (first second : Journal) :
    (joined first second).events = first.events ++ second.events :=
  before_eq first second.events

@[simp] theorem events_replaced (failed : Journal) : (replaced failed).events = failed.events :=
  rfl

@[simp] theorem events_omitted (failed : Journal) : (omitted failed).events = failed.events :=
  rfl

@[simp] theorem events_nested (inside : Journal) : (nested inside).events = inside.events :=
  rfl

/-- The events of a successful reading without those of the steps that failed in it. -/
@[simp] def kept : Journal → List Event
  | .empty | .replaced _ | .omitted _ => []
  | .entry event => [event]
  | .joined first second => first.kept ++ second.kept
  | .nested inside => inside.kept

/-- The events of the alternatives that failed in a successful reading and that another one took
the place of. -/
@[simp] def overlooked : Journal → List Event
  | .empty | .entry _ | .omitted _ => []
  | .replaced failed => failed.events
  | .joined first second => first.overlooked ++ second.overlooked
  | .nested inside => inside.overlooked

/-- How many slots were read inside one another at most. -/
@[simp] def nesting : Journal → Nat
  | .empty | .entry _ => 0
  | .joined first second => max first.nesting second.nesting
  | .replaced failed | .omitted failed => failed.nesting
  | .nested inside => inside.nesting + 1

end Journal

/-- What comes of a reading: its journal, and unless it failed its value and the place after. -/
structure Outcome (α : Type) where
  journal : Journal
  result : Option (α × Place)

/-- What happened during the reading. -/
def Outcome.events {α : Type} (outcome : Outcome α) : List Event :=
  outcome.journal.events

/-- What happened on the way to the result, failed steps left out. -/
def Outcome.kept {α : Type} (outcome : Outcome α) : List Event :=
  outcome.journal.kept

/-- What happened in the alternatives that another one took the place of. -/
def Outcome.overlooked {α : Type} (outcome : Outcome α) : List Event :=
  outcome.journal.overlooked

/-- How many slots were read inside one another at most. -/
def Outcome.nesting {α : Type} (outcome : Outcome α) : Nat :=
  outcome.journal.nesting

/-- A step of a reading. -/
def Reading (α : Type) := Place → Outcome α

namespace Reading

variable {α β : Type}

/-- The step that reads nothing. -/
protected def pure (value : α) : Reading α := fun place ↦
  ⟨.empty, some (value, place)⟩

/-- One step after the other. -/
protected def bind (first : Reading α) (next : α → Reading β) : Reading β := fun place ↦
  let outcome := first place
  match outcome.result with
  | none => ⟨outcome.journal, none⟩
  | some (value, after) =>
    let rest := next value after
    ⟨.joined outcome.journal rest.journal, rest.result⟩

instance : Monad Reading where
  pure := Reading.pure
  bind := Reading.bind

/-- The offset that the reading has reached. -/
def reached : Reading Nat := fun place ↦
  ⟨.empty, some (place.offset, place)⟩

/-- An entry in the journal about the offset that the reading has reached. -/
def note (event : Nat → Event) : Reading Unit := fun place ↦
  ⟨.entry (event place.offset), some ((), place)⟩

/-- The step that fails without a new complaint. -/
def giveUp : Reading α := fun _ ↦
  ⟨.empty, none⟩

/-- The step that fails with a complaint where it stands. -/
def fail (complaint : Complaint) : Reading α := fun place ↦
  ⟨.entry (.failed ⟨place.offset, complaint⟩), none⟩

/-- The step that moves on past separators to another place, or fails where it stands. -/
def move (advance : Place → Option Place) (complaint : Complaint) : Reading Unit := fun place ↦
  match advance place with
  | some after => ⟨.empty, some ((), after.skipSeparators)⟩
  | none => ⟨.entry (.failed ⟨place.offset, complaint⟩), none⟩

/-- A symbol and the separators after it. -/
def symbol (text : String) : Reading Unit :=
  move (fun place ↦ place.eat? text.toList) (.expectingSymbol text)

/-- A word and the separators after it. -/
def word (text : String) : Reading Unit :=
  move (fun place ↦ place.word? text.toList) (.expectingKeyword text)

/-- A literal of a kind and the separators after it. -/
def literal (kind : Scalar) : Reading Literal := fun place ↦
  match readLiteral kind place with
  | .ok (value, after) => ⟨.empty, some (value, after.skipSeparators)⟩
  | .error failure => ⟨.entry (.failed failure), none⟩

/-- The end of the text. -/
def atEnd : Reading Unit := fun place ↦
  if place.isAtEnd then ⟨.empty, some ((), place)⟩
  else ⟨.entry (.failed ⟨place.offset, .expectingEnd⟩), none⟩

/-- A step that is tried: its failure is noted where it began. -/
def trying (step : Reading α) : Reading α := fun place ↦
  let outcome := step place
  match outcome.result with
  | some _ => outcome
  | none => ⟨.joined outcome.journal (.entry (.backtracked place.offset)), none⟩

/-- A step, or if it fails another one from the same place. -/
def orElse (first second : Reading α) : Reading α := fun place ↦
  let outcome := first place
  match outcome.result with
  | some _ => outcome
  | none =>
    let other := second place
    ⟨.joined (.replaced outcome.journal) other.journal, other.result⟩

/-- The first of some steps that succeeds, each of them tried from the same place. -/
def firstOf : List (Reading α) → Reading α
  | [] => giveUp
  | step :: steps => orElse (trying step) (firstOf steps)

/-- A step that may fail, in which case nothing is read. -/
def optionally (step : Reading α) : Reading (Option α) := fun place ↦
  let outcome := step place
  match outcome.result with
  | some (value, after) => ⟨outcome.journal, some (some value, after)⟩
  | none => ⟨.omitted outcome.journal, some (none, place)⟩

/-- Some steps in order. -/
def inOrder : List (Reading α) → Reading (List α)
  | [] => pure []
  | step :: steps => do
    let value ← step
    let values ← inOrder steps
    pure (value :: values)

/-- A step that is tried again and again until it fails or does not get any further, at most a
number of times. -/
def repeatedly (step : Reading α) : Nat → Reading (List α)
  | 0 => pure []
  | bound + 1 => do
    let before ← reached
    match ← optionally (trying step) with
    | none => pure []
    | some value =>
      let after ← reached
      if before < after then do
        let values ← repeatedly step bound
        pure (value :: values)
      else
        pure []

/-- A step that reads one slot. -/
def nested (step : Reading α) : Reading α := fun place ↦
  let outcome := step place
  ⟨.nested outcome.journal, outcome.result⟩

/-- The number of characters that remain, which bounds how often a step can get further. -/
def remaining : Reading Nat := fun place ↦
  ⟨.empty, some (place.rest.length, place)⟩

end Reading

end Formulary
