/-!
Blank characters: the Unicode property White_Space. Formulas, type expressions and dates all
separate their parts by this one class, so it is stated once. Main definition: `isBlank`.
-/

set_option autoImplicit false
set_option relaxedAutoImplicit false

namespace Formulary.Text

/-- A blank is a character with the Unicode property White_Space. -/
def isBlank (character : Char) : Bool :=
  let code := character.toNat
  (9 ≤ code && code ≤ 13) || code == 0x20 || code == 0x85 || code == 0xA0 || code == 0x1680 ||
    (0x2000 ≤ code && code ≤ 0x200A) || code == 0x2028 || code == 0x2029 || code == 0x202F ||
    code == 0x205F || code == 0x3000

/-- The text with its leading blanks removed. -/
def dropBlanks (text : List Char) : List Char :=
  text.dropWhile isBlank

end Formulary.Text
