/-!
Scanners: partial functions that take a value off the front of a text. Main definitions: `Scan`,
the scanners `mark`, `digits` and `run` for single marks and runs of one class, and `Scan.whole`,
the value of a scanner that uses up its text.
-/

set_option autoImplicit false
set_option relaxedAutoImplicit false

namespace Formulary.Text

/-- A scanner takes a value off the front of a text and leaves the rest, or fails. -/
abbrev Scan (α : Type) := StateT (List Char) Option α

namespace Scan

/-- One given character. -/
def mark (character : Char) : Scan Unit
  | first :: rest => if first = character then some ((), rest) else none
  | [] => none

/-- The decimal digits at the front of a text, up to a number of them. -/
def digits (most : Nat) : Scan (List Char) := fun text ↦
  let found := (text.take most).takeWhile Char.isDigit
  some (found, text.drop found.length)

/-- The longest run of characters of a class, which may be empty. -/
def run (inClass : Char → Bool) : Scan (List Char) := fun text ↦
  some (text.takeWhile inClass, text.dropWhile inClass)

/-- The value of a scanner that uses up the whole text. -/
def whole {α : Type} (scan : Scan α) (text : List Char) : Option α :=
  match scan text with
  | some (value, []) => some value
  | _ => none

end Scan

end Formulary.Text
