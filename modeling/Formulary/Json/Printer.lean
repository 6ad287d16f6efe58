import Formulary.Json
import Formulary.Number.Style
/-!
Writing JSON without spaces. Main definitions: `Json.quoted`, a text between quotes with its
escapes, and `Json.text`, a document.
-/

set_option autoImplicit false
set_option relaxedAutoImplicit false

namespace Formulary.Json

/-- How one character is written inside a string: quotes, backslashes and control characters are
escaped, by a letter where there is one. -/
def escaped (character : Char) : List Char :=
  match character with
  | '"' => ['\\', '"']
  | '\\' => ['\\', '\\']
  | '\x08' => ['\\', 'b']
  | '\t' => ['\\', 't']
  | '\n' => ['\\', 'n']
  | '\x0c' => ['\\', 'f']
  | '\r' => ['\\', 'r']
  | _ =>
    if character.toNat < 0x20 then
      ['\\', 'u', '0', '0', Nat.digitChar (character.toNat / 16),
        Nat.digitChar (character.toNat % 16)]
    else
      [character]

/-- A text as a JSON string. -/
def quoted (text : String) : List Char :=
  '"' :: text.toList.flatMap escaped ++ ['"']

mutual

/-- The characters of a document. What denotes nothing is written as null. -/
def characters : Json → List Char
  | .null | .unreadable => ['n', 'u', 'l', 'l']
  | .bool true => ['t', 'r', 'u', 'e']
  | .bool false => ['f', 'a', 'l', 's', 'e']
  | .integer value => signedDigitsOf value
  | .real value => exchangeStyle.write value
  | .string text => quoted text
  | .array elements => '[' :: elementCharacters elements ++ [']']
  | .object members => '\x7b' :: memberCharacters members ++ ['\x7d']

/-- The characters of the elements of an array, with commas between them. -/
def elementCharacters : List Json → List Char
  | [] => []
  | [element] => characters element
  | element :: elements => characters element ++ ',' :: elementCharacters elements

/-- The characters of the members of an object, with commas between them. -/
def memberCharacters : List (Option String × Json) → List Char
  | [] => []
  | [(name, value)] => quoted (name.getD "") ++ ':' :: characters value
  | (name, value) :: members =>
    quoted (name.getD "") ++ ':' :: characters value ++ ',' :: memberCharacters members

end

/-- The text of a document. -/
def text (document : Json) : String :=
  String.ofList document.characters

end Formulary.Json
