import Formulary.Json
import Formulary.Number.Scaled
import Formulary.Text.Scan
/-!
Reading JSON as its grammar is strictly defined. Main definitions: the scanners `numeral`,
`stringBody` and `value`, `Json.ofText?`, which reads a whole text, and `Json.ofExchangeText?`,
which lets arrays and objects nest to `Json.exchangeNesting` only.
-/

set_option autoImplicit false
set_option relaxedAutoImplicit false

namespace Formulary.Json

open Text Scan

namespace Reader

/-- The characters that may stand between the parts of a document. -/
def isSpace (character : Char) : Bool :=
  character == ' ' || character == '\t' || character == '\n' || character == '\r'

/-- Spaces, of which there need not be any. -/
def spaces : Scan Unit := fun text ↦ some ((), text.dropWhile isSpace)

/-! ### Numbers -/

/-- A run of at least one digit. -/
def digitRun : Scan (List Char) := do
  let found ← run Char.isDigit
  if found.isEmpty then failure else pure found

/-- The digits of an integer: a lone zero, or a run that does not start with one. -/
def wholeDigits : Scan (List Char)
  | '0' :: rest => some (['0'], rest)
  | text => digitRun text

/-- The digits after a point, if there is one. -/
def fractionDigits : Scan (Option (List Char))
  | '.' :: rest => (digitRun rest).map fun (found, rest) ↦ (some found, rest)
  | text => some (none, text)

/-- The sign of an exponent, which may be left out. -/
def exponentSign : Scan Bool
  | '-' :: rest => some (true, rest)
  | '+' :: rest => some (false, rest)
  | text => some (false, text)

/-- The power of ten after its mark, if there is one. -/
def exponent : Scan (Option Int)
  | 'e' :: rest | 'E' :: rest => do
    let (negative, rest) ← exponentSign rest
    let (found, rest) ← digitRun rest
    let size : Int := valueOfDigits found
    some (some (if negative then -size else size), rest)
  | text => some (none, text)

/-- The integers that are kept as such. -/
def isKeptInteger (value : Int) : Bool :=
  -0x8000000000000000 ≤ value && value < 0x10000000000000000

/-- A significand with digits appended to it while it stays within 64 bits, and the digits that are
left over. -/
def appendDigits (significand : Nat) : List Char → Nat × List Char
  | [] => (significand, [])
  | digit :: digits =>
    let longer := 10 * significand + digitValue digit
    if longer < 0x10000000000000000 then appendDigits longer digits
    else (significand, digit :: digits)

/-- The decimal that is kept of a number. Of the digits that its significand has no room for, those
before the point count as zeros, and those after it are dropped. -/
def keptDecimal (whole places : List Char) (exponent : Int) : Decimal :=
  let (leading, skipped) := appendDigits 0 whole
  let (significand, dropped) := appendDigits leading places
  ⟨significand, exponent + skipped.length - (places.length - dropped.length : Int)⟩

/-- The document that a number denotes. Integers beyond 64 bits, and the negative zero, are numbers
of double precision. For such a number the significand is rounded and then scaled in double
precision, which is quick but not exact: what is read may be a neighbour of the nearest number, and a
number close to the end of the range may be refused. -/
def ofNumeral (negative : Bool) (whole : List Char) (fraction : Option (List Char))
    (exponent : Option Int) : Json :=
  let size := valueOfDigits whole
  let value : Int := if negative then -(size : Int) else size
  if fraction.isNone && exponent.isNone && isKeptInteger value && !(negative && size == 0) then
    .integer value
  else
    let decimal := keptDecimal whole (fraction.getD []) (exponent.getD 0)
    match Number.scaledMagnitude? (nearestMagnitude decimal.coefficient 1) decimal.exponent with
    | some magnitude => .real (.ofMagnitude negative magnitude)
    | none => .unreadable

/-- A number. -/
def numeral (negative : Bool) : Scan Json := do
  let whole ← wholeDigits
  let fraction ← fractionDigits
  let power ← exponent
  pure (ofNumeral negative whole fraction power)

/-! ### Strings -/

/-- The value of a hexadecimal digit. -/
def hexValue? (digit : Char) : Option Nat :=
  if '0' ≤ digit ∧ digit ≤ '9' then some (digit.toNat - '0'.toNat)
  else if 'a' ≤ digit ∧ digit ≤ 'f' then some (digit.toNat - 'a'.toNat + 10)
  else if 'A' ≤ digit ∧ digit ≤ 'F' then some (digit.toNat - 'A'.toNat + 10)
  else none

/-- The 16-bit unit that four hexadecimal digits denote. -/
def unit? (first second third fourth : Char) : Option Nat := do
  let first ← hexValue? first
  let second ← hexValue? second
  let third ← hexValue? third
  let fourth ← hexValue? fourth
  some (((first * 16 + second) * 16 + third) * 16 + fourth)

/-- The character that stands after a backslash for itself or for a control character. -/
def simpleEscape? (letter : Char) : Option Char :=
  match letter with
  | '"' => some '"'
  | '\\' => some '\\'
  | '/' => some '/'
  | 'b' => some '\x08'
  | 'f' => some '\x0c'
  | 'n' => some '\n'
  | 'r' => some '\r'
  | 't' => some '\t'
  | _ => none

/-- What has been read of a string: its characters, the last one first, a leading surrogate that
waits for its other half, and whether a half was left alone. -/
structure StringState where
  reversed : List Char
  pending : Option Nat
  broken : Bool

namespace StringState

/-- Before the first character. -/
def start : StringState := ⟨[], none, false⟩

/-- One more character; a surrogate that was waiting is left alone. -/
def push (state : StringState) (character : Char) : StringState :=
  ⟨character :: state.reversed, none, state.broken || state.pending.isSome⟩

/-- One more unit, which may be half of a pair. -/
def pushUnit (state : StringState) (unit : Nat) : StringState :=
  if 0xDC00 ≤ unit ∧ unit ≤ 0xDFFF then
    match state.pending with
    | some leading =>
      ⟨Char.ofNat (0x10000 + (leading - 0xD800) * 0x400 + (unit - 0xDC00)) :: state.reversed, none,
        state.broken⟩
    | none => ⟨state.reversed, none, true⟩
  else if 0xD800 ≤ unit ∧ unit ≤ 0xDBFF then
    ⟨state.reversed, some unit, state.broken || state.pending.isSome⟩
  else
    state.push (Char.ofNat unit)

/-- The text that was read, unless a surrogate was left alone. -/
def text? (state : StringState) : Option String :=
  if state.broken || state.pending.isSome then none
  else some (String.ofList state.reversed.reverse)

end StringState

/-- The rest of a string after its opening quote. -/
def stringBody (state : StringState) : Scan (Option String)
  | '"' :: rest => some (state.text?, rest)
  | '\\' :: 'u' :: first :: second :: third :: fourth :: rest =>
    match unit? first second third fourth with
    | some unit => stringBody (state.pushUnit unit) rest
    | none => none
  | '\\' :: letter :: rest =>
    match simpleEscape? letter with
    | some character => stringBody (state.push character) rest
    | none => none
  | character :: rest =>
    if character.toNat < 0x20 || character == '\\' then none
    else stringBody (state.push character) rest
  | [] => none

/-! ### Documents -/

/-- A word of the grammar that stands for a document. -/
def word (letters : List Char) (document : Json) : Scan Json := fun text ↦
  if letters.isPrefixOf text then some (document, text.drop letters.length) else none

/-- A document that is neither an array nor an object. -/
def scalar : Scan Json
  | '"' :: rest =>
    (stringBody .start rest).map fun (text?, rest) ↦ (text?.elim .unreadable .string, rest)
  | '-' :: rest => numeral true rest
  | text =>
    match text with
    | 'n' :: _ => word ['n', 'u', 'l', 'l'] .null text
    | 't' :: _ => word ['t', 'r', 'u', 'e'] (.bool true) text
    | 'f' :: _ => word ['f', 'a', 'l', 's', 'e'] (.bool false) text
    | _ => numeral false text

/-- Items with commas between them up to a closing mark, at most a number of them. -/
def separated {α : Type} (item : Scan α) (closing : Char) : Nat → Scan (List α)
  | 0 => failure
  | bound + 1 => do
    let first ← item
    spaces
    fun text ↦
      match text with
      | mark :: rest =>
        if mark = ',' then
          (separated item closing bound rest).map fun (others, rest) ↦ (first :: others, rest)
        else if mark = closing then
          some ([first], rest)
        else
          none
      | [] => none

/-- The items after an opening mark. Each takes a character at least, so there are no more items
than characters. -/
def items {α : Type} (item : Scan α) (closing : Char) : Scan (List α) := do
  spaces
  fun text ↦
    match text with
    | mark :: rest =>
      if mark = closing then some ([], rest) else separated item closing text.length text
    | [] => none

/-- A member of an object. -/
def member (value : Scan Json) : Scan (Option String × Json) := do
  spaces
  mark '"'
  let name ← stringBody .start
  spaces
  mark ':'
  let value ← value
  pure (name, value)

/-- A document after spaces, in which arrays and objects nest to at most a bound. -/
def value : Nat → Scan Json
  | 0 => do
    spaces
    scalar
  | bound + 1 => do
    spaces
    fun text ↦
      match text with
      | '[' :: rest =>
        (items (value bound) ']' rest).map fun (elements, rest) ↦ (.array elements, rest)
      | '\x7b' :: rest =>
        (items (member (value bound)) '\x7d' rest).map fun (members, rest) ↦
          (.object members, rest)
      | _ => scalar text

end Reader

/-- The document that some characters denote. An array or an object takes a character at least, so
the length bounds the nesting. -/
def ofCharacters? (text : List Char) : Option Json :=
  whole
    (do
      let document ← Reader.value text.length
      Reader.spaces
      pure document)
    text

/-- The document that a text denotes. -/
def ofText? (text : String) : Option Json :=
  ofCharacters? text.toList

/-- How deeply the exchange format lets arrays and objects nest. -/
def exchangeNesting : Nat := 127

/-- The document that a text in the exchange format denotes. What nests too deeply is unreadable,
but does no harm where it is passed over. -/
def ofExchangeText? (text : String) : Option Json :=
  (ofText? text).map (limited exchangeNesting)

end Formulary.Json
