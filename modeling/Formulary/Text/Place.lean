import Formulary.Text.Position
/-!
Places: what remains of a text that is being read, and how many bytes of it are behind. A place
moves by whole characters only. Main definitions: `Place`, `Place.past`, the one way to move, and
the moves made of it, and `Place.Within`, where a place stands somewhere in a text.
-/

set_option autoImplicit false
set_option relaxedAutoImplicit false

namespace Formulary.Text

/-- A place in a text that is being read. -/
structure Place where
  /-- The number of bytes before the place. -/
  offset : Nat
  /-- The characters after it. -/
  rest : List Char
deriving DecidableEq, Repr

namespace Place

/-- The beginning of a text. -/
def start (text : List Char) : Place :=
  ⟨0, text⟩

/-- The place moved past a number of characters. -/
def past (place : Place) (count : Nat) : Place :=
  ⟨place.offset + byteLength (place.rest.take count), place.rest.drop count⟩

/-- Whether nothing remains. -/
def isAtEnd (place : Place) : Bool :=
  place.rest.isEmpty

/-- The longest run of characters of a class at the place. -/
def run (place : Place) (inClass : Char → Bool) : List Char :=
  place.rest.takeWhile inClass

/-- The place moved past the longest run of characters of a class. -/
def skip (place : Place) (inClass : Char → Bool) : Place :=
  place.past (place.run inClass).length

/-- The place moved past some given text, if that is what comes next. -/
def eat? (place : Place) (symbol : List Char) : Option Place :=
  if symbol.isPrefixOf place.rest then some (place.past symbol.length) else none

/-- The place stands between two parts of the text. -/
def Within (text : List Char) (place : Place) : Prop :=
  ∃ before, text = before ++ place.rest ∧ place.offset = byteLength before

theorem within_start (text : List Char) : Within text (start text) :=
  ⟨[], rfl, rfl⟩

end Place

end Formulary.Text
