import Formulary.ArgType
import Formulary.Text.Position
/-!
Diagnostics: why a formula cannot be read. Of all the complaints of a reading only those at the
furthest offset are shown, in the order in which they arose. Main definitions: `Complaint` and its
text, `Failure`, a complaint at a byte offset, `furthest`, and `Diagnostic`, a complaint at a row
and a column, with `diagnosticText`.
-/

set_option autoImplicit false
set_option relaxedAutoImplicit false

namespace Formulary

open Text

/-- Why a formula cannot be read at some place. -/
inductive Complaint
  /-- Something for which there is a word was expected. -/
  | expecting (what : String)
  | expectingInt
  /-- A number has a mark of an exponent but no digits after it. -/
  | expectingFloat
  | expectingNumber
  | expectingSymbol (symbol : String)
  | expectingKeyword (keyword : String)
  | expectingEnd
  | unexpectedCharacter
  /-- There is no operator that produces a base. -/
  | noOperator (base : Base)
  /-- A keyword argument is given twice. -/
  | duplicateKeyword (keyword : String)
  /-- A literal is asked for where only operators can stand. -/
  | seriesLiteral
  | invalidTimestamp (text : String)
  /-- The formula is nested more deeply than a limit. -/
  | tooDeep (limit : Nat)
deriving DecidableEq, Repr

namespace Complaint

/-- The text of a complaint. -/
def message : Complaint → String
  | .expecting what => s!"Expecting {what}"
  | .expectingInt => "Expecting int"
  | .expectingFloat => "Expecting float"
  | .expectingNumber => "Expecting number"
  | .expectingSymbol symbol => s!"Expecting symbol '{symbol}'"
  | .expectingKeyword keyword => s!"Expecting keyword '{keyword}'"
  | .expectingEnd => "Expecting end"
  | .unexpectedCharacter => "Unexpected char"
  | .noOperator base => s!"Problem: no operator for base type {base.name}"
  | .duplicateKeyword keyword => s!"Problem: duplicate keyword '{keyword}'"
  | .seriesLiteral => "Problem: a Series cannot be written as a literal"
  | .invalidTimestamp text => s!"Problem: invalid timestamp \"{text}\""
  | .tooDeep limit => s!"Problem: formula nested deeper than {limit}"

end Complaint

/-- A complaint at a byte offset. -/
structure Failure where
  offset : Nat
  complaint : Complaint
deriving DecidableEq, Repr

/-- The furthest offset with a complaint, and the complaints there in the order in which they
arose. -/
structure Furthest where
  offset : Nat
  complaints : List Complaint
deriving DecidableEq, Repr

namespace Furthest

/-- Before any complaint has arisen. -/
def none : Furthest :=
  ⟨0, []⟩

/-- One more failure: a further one takes the place of all others, an equally far one is added,
and one that is less far changes nothing. -/
def add (furthest : Furthest) (failure : Failure) : Furthest :=
  if furthest.complaints.isEmpty || furthest.offset < failure.offset then
    ⟨failure.offset, [failure.complaint]⟩
  else if failure.offset = furthest.offset then
    ⟨furthest.offset, furthest.complaints ++ [failure.complaint]⟩
  else
    furthest

end Furthest

/-- The furthest of some failures. -/
def furthest (failures : List Failure) : Furthest :=
  failures.foldl Furthest.add .none

/-- A complaint at the position beyond which no reading gets. -/
structure Diagnostic where
  position : Position
  complaint : Complaint
deriving DecidableEq, Repr

namespace Diagnostic

/-- The complaint and its position. -/
def message (diagnostic : Diagnostic) : String :=
  let position := diagnostic.position
  s!"{diagnostic.complaint.message} at row:{position.row} col:{position.column}"

end Diagnostic

/-- The furthest complaints of a reading at their common position. -/
def diagnostics (text : List Char) (failures : List Failure) : List Diagnostic :=
  let last := furthest failures
  last.complaints.map fun complaint ↦ ⟨.ofOffset text last.offset, complaint⟩

/-- The diagnostics in order, with newlines between them. -/
def diagnosticText (diagnostics : List Diagnostic) : String :=
  "\n".intercalate (diagnostics.map Diagnostic.message)

end Formulary
