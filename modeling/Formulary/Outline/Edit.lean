import Formulary.Outline
/-!
Edits at a place in an outline, which is given by the part to follow at each node from the root.
Main definitions: `Outline.subtree?`, `Outline.modify?`, and the edits `replace?`, `copy?` and
`swap?`. None of them has a result where there is no such place.
-/

set_option autoImplicit false
set_option relaxedAutoImplicit false

namespace Formulary.Outline

/-- The part to follow at each node from the root. -/
abbrev Path := List Nat

/-- The part of an outline at a place. -/
def subtree? : Path → Outline → Option Outline
  | [], outline => some outline
  | index :: path, outline => outline.parts[index]?.bind (subtree? path)

/-- The outline with the part at a place changed. -/
def modify? (change : Outline → Outline) : Path → Outline → Option Outline
  | [], outline => some (change outline)
  | index :: path, .node slot content parts => do
    let part ← parts[index]?
    let part ← modify? change path part
    some (.node slot content (parts.set index part))

/-- The outline with another part at a place. -/
def replace? (part : Outline) : Path → Outline → Option Outline :=
  modify? fun _ ↦ part

/-- The same node with another literal. -/
def withContent (content : Option Literal) : Outline → Outline
  | .node slot _ parts => .node slot content parts

/-- The same node with one more part at the end. -/
def append (part : Outline) : Outline → Outline
  | .node slot content parts => .node slot content (parts ++ [part])

/-- The same node with only its first parts. -/
def truncate (count : Nat) : Outline → Outline
  | .node slot content parts => .node slot content (parts.take count)

/-- The outline with the part at one place also at another. -/
def copy? (source target : Path) (outline : Outline) : Option Outline := do
  let part ← subtree? source outline
  replace? part target outline

/-- The outline with the parts at two places exchanged, neither of which lies in the other. -/
def swap? (first second : Path) (outline : Outline) : Option Outline := do
  let firstPart ← subtree? first outline
  let secondPart ← subtree? second outline
  let outline ← replace? secondPart first outline
  replace? firstPart second outline

end Formulary.Outline
