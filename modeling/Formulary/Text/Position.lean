/-!
Rows and columns. A byte offset into a text belongs to a row, counted from one by newlines, and
to a column, counted from one by characters. Main definitions: `Position`, `Position.next`, which
moves past one character, and `Position.ofOffset`, the place of an offset.
-/

set_option autoImplicit false
set_option relaxedAutoImplicit false

namespace Formulary.Text

/-- The number of bytes that a text takes in UTF-8. -/
def byteLength : List Char → Nat
  | [] => 0
  | character :: text => character.utf8Size + byteLength text

@[simp] theorem byteLength_nil : byteLength [] = 0 := rfl

@[simp] theorem byteLength_cons (character : Char) (text : List Char) :
    byteLength (character :: text) = character.utf8Size + byteLength text := rfl

@[simp] theorem byteLength_append (first second : List Char) :
    byteLength (first ++ second) = byteLength first + byteLength second := by
  induction first with
  | nil => simp
  | cons character text ih => simp [ih, Nat.add_assoc]

/-- The characters of a text that end at or before a byte offset. -/
def charactersBefore : Nat → List Char → List Char
  | _, [] => []
  | offset, character :: text =>
    if character.utf8Size ≤ offset then
      character :: charactersBefore (offset - character.utf8Size) text
    else
      []

/-- The characters before the end of an initial part are that part. -/
theorem charactersBefore_byteLength (first second : List Char) :
    charactersBefore (byteLength first) (first ++ second) = first := by
  induction first with
  | nil =>
    cases second with
    | nil => rfl
    | cons character text =>
      have positive := character.utf8Size_pos
      simp only [byteLength_nil, List.nil_append, charactersBefore]
      rw [if_neg (by omega)]
  | cons character text ih =>
    simp only [byteLength_cons, List.cons_append, charactersBefore]
    rw [if_pos (by omega), Nat.add_sub_cancel_left, ih]

/-- A place in a text: its row and its column in characters, both counted from one. -/
structure Position where
  row : Nat
  column : Nat
deriving DecidableEq, Repr

namespace Position

/-- Where a text begins. -/
def start : Position := ⟨1, 1⟩

/-- The place after one more character: a newline opens the next row. -/
def next (position : Position) (character : Char) : Position :=
  if character = '\n' then ⟨position.row + 1, 1⟩ else ⟨position.row, position.column + 1⟩

/-- The place reached by reading a text from its beginning. -/
def after (text : List Char) : Position :=
  text.foldl next start

/-- The place of a byte offset; an offset beyond the text is the text's end. -/
def ofOffset (text : List Char) (offset : Nat) : Position :=
  after (charactersBefore offset text)

/-- Where an initial part of a text ends, the text has been read up to there. -/
theorem ofOffset_byteLength (first second : List Char) :
    ofOffset (first ++ second) (byteLength first) = after first := by
  rw [ofOffset, charactersBefore_byteLength]

end Position

end Formulary.Text
