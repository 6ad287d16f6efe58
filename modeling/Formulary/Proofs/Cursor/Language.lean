import Formulary.Proofs.Cursor.Token
import Formulary.Proofs.Token.Language
import Formulary.Proofs.Token.Refusal
/-!
Which tokens a cursor takes for literals. From any offset, a literal is read exactly if one of its
spellings stands there in front of a delimiter, and the cursor comes to stand behind it. A token that is
refused leaves the cursor where it was, unless it is a string that does not end properly
(`readLiteral_recognizes`). Main definition: `StandsAt`.
-/

set_option autoImplicit false
set_option relaxedAutoImplicit false

namespace Formulary

open Text Place

variable {text : List Char} {rounds offset stop : Nat}

/-- A word stands in a text at an offset, and a delimiter or the end of the text comes after it. -/
def StandsAt (text : List Char) (offset : Nat) (word : List Char) : Prop :=
  ∃ rest, Within text ⟨offset, word ++ rest⟩ ∧ isDelimited rest = true

/-- A string is read where its quotes and what is between them stand. -/
theorem exists_readQuoted_of_standsAt {what : String} {quoted body : List Char} {place : Place}
    (hplace : Within text place) (hbody : QuotedBody quoted body [])
    (hstands : StandsAt text place.offset ('"' :: quoted)) :
    ∃ after, readQuoted what place = .ok (body, after) := by
  obtain ⟨rest, hword, hends⟩ := hstands
  have hsame := Cursor.eq_of_within hplace hword rfl
  have heaten := eat?_append place.offset ('"' :: quoted) rest
  rw [← hsame] at heaten
  exact ⟨_, readQuoted_eq_ok_iff.mpr ⟨quoted, hbody, word?_eq_some_iff.mpr ⟨heaten, hends⟩⟩⟩

namespace Cursor

theorem atCursor_eq_ok_iff {α : Type} {token : Token α} {value : α} :
    atCursor token = (.ok value, stop) ↔ ∃ after, token = .ok (value, after) ∧ after.offset = stop := by
  cases token with
  | error failure => simp [atCursor]
  | ok read =>
    obtain ⟨found, after⟩ := read
    simp only [atCursor, Prod.mk.injEq, Except.ok.injEq]
    constructor
    · rintro ⟨rfl, hstop⟩
      exact ⟨after, ⟨rfl, rfl⟩, hstop⟩
    · rintro ⟨_, ⟨rfl, rfl⟩, hstop⟩
      exact ⟨rfl, hstop⟩

theorem atCursor_eq_error_iff {α : Type} {token : Token α} {complaint : Complaint} :
    atCursor token = (.error complaint, stop) ↔ token = .error ⟨stop, complaint⟩ := by
  cases token with
  | ok read => simp [atCursor]
  | error failure =>
    cases failure
    simp [atCursor, and_comm]

variable (hrounds : text.length < rounds)

include hrounds

theorem exists_place_of_readLiteral {kind : Scalar} {read : Except Complaint Literal × Nat}
    (h : readLiteral text rounds kind offset = some read) :
    ∃ place, Within text place ∧ place.offset = offset ∧
      atCursor (Formulary.readLiteral kind place) = read := by
  obtain ⟨place, hplace, rfl⟩ := (isBoundary_of_literal h).exists_within
  rw [readLiteral_of_within kind hplace (Nat.lt_of_le_of_lt hplace.length_le hrounds)] at h
  exact ⟨place, hplace, rfl, Option.some.inj h⟩

/-- From any offset, a cursor reads the literals whose spellings stand there. -/
theorem readLiteral_eq_ok_iff {kind : Scalar} {value : Literal} :
    readLiteral text rounds kind offset = some (.ok value, stop) ↔
      value.scalar = kind ∧
        ∃ word, value.HasSpelling word ∧ StandsAt text offset word ∧
          stop = offset + byteLength word := by
  constructor
  · intro h
    obtain ⟨place, hplace, rfl, hread⟩ := exists_place_of_readLiteral hrounds h
    obtain ⟨after, htoken, rfl⟩ := atCursor_eq_ok_iff.mp hread
    obtain ⟨hkind, word, hspells, hword⟩ := readLiteral_eq_ok_iff_hasSpelling.mp htoken
    obtain ⟨heaten, hends⟩ := word?_eq_some_iff.mp hword
    obtain ⟨hrest, hoffset⟩ := eat?_eq_some heaten
    have hstands : Within text ⟨place.offset, word ++ after.rest⟩ := by
      rw [← hrest]
      exact hplace
    exact ⟨hkind, word, hspells, ⟨after.rest, hstands, hends⟩, hoffset⟩
  · rintro ⟨rfl, word, hspells, ⟨rest, hplace, hends⟩, rfl⟩
    have hread := readLiteral_of_within value.scalar hplace
      (Nat.lt_of_le_of_lt hplace.length_le hrounds)
    rw [readLiteral_of_hasSpelling hspells hends offset] at hread
    exact hread

/-- Where a literal is refused the cursor stays, unless a string is looked for and none stands there. -/
theorem offset_of_readLiteral_error {kind : Scalar} {complaint : Complaint}
    (h : readLiteral text rounds kind offset = some (.error complaint, stop))
    (hkind : kind = .int ∨ kind = .number ∨ kind = .bool ∨
      kind = .timestamp ∧ ∃ quoted body, QuotedBody quoted body [] ∧
        StandsAt text offset ('"' :: quoted)) : stop = offset := by
  obtain ⟨place, hplace, rfl, hread⟩ := exists_place_of_readLiteral hrounds h
  have htoken := atCursor_eq_error_iff.mp hread
  rcases hkind with rfl | rfl | rfl | ⟨rfl, quoted, body, hbody, hstands⟩
  · exact congrArg Failure.offset (readInt_eq_error (map_eq_error_iff.mp htoken))
  · rcases readNumber_eq_error (map_eq_error_iff.mp htoken) with hsame | hsame
    · exact congrArg Failure.offset hsame
    · exact congrArg Failure.offset hsame
  · exact congrArg Failure.offset (readBool_eq_error (map_eq_error_iff.mp htoken))
  · rcases readTimestamp_eq_error (map_eq_error_iff.mp htoken) with ⟨_, hsame⟩ | hquoted
    · exact congrArg Failure.offset hsame
    · obtain ⟨after, hok⟩ := @exists_readQuoted_of_standsAt _ "timestamp" _ _ _ hplace hbody hstands
      rw [hquoted] at hok
      cases hok

end Cursor

/-- A cursor takes exactly the spellings of literals for literals. What it reads at a place of the text
is what is read there; it reads a literal from an offset exactly if one of its spellings stands there in
front of a delimiter, and comes to stand behind it; and where no integer, number or truth value is read,
or a string that is no timestamp, it stays where it was. -/
theorem readLiteral_recognizes {text : List Char} {rounds : Nat} (hrounds : text.length < rounds)
    (kind : Scalar) :
    (∀ place, Within text place →
      Cursor.readLiteral text rounds kind place.offset =
        some (Cursor.atCursor (readLiteral kind place))) ∧
    (∀ offset value stop,
      Cursor.readLiteral text rounds kind offset = some (.ok value, stop) ↔
        value.scalar = kind ∧
          ∃ word, value.HasSpelling word ∧ StandsAt text offset word ∧
            stop = offset + byteLength word) ∧
    (∀ offset complaint stop,
      Cursor.readLiteral text rounds kind offset = some (.error complaint, stop) →
      (kind = .int ∨ kind = .number ∨ kind = .bool ∨
        kind = .timestamp ∧ ∃ quoted body, QuotedBody quoted body [] ∧
          StandsAt text offset ('"' :: quoted)) →
      stop = offset) := by
  refine ⟨fun place hplace ↦ ?_, fun offset value stop ↦ ?_, fun offset complaint stop h hkind ↦ ?_⟩
  · exact Cursor.readLiteral_of_within kind hplace (Nat.lt_of_le_of_lt hplace.length_le hrounds)
  · exact Cursor.readLiteral_eq_ok_iff hrounds
  · exact Cursor.offset_of_readLiteral_error hrounds h hkind

theorem readLiteral_recognizes_negative :
    "(- -12 7)".toList.length < 10 ∧
    Cursor.readLiteral "(- -12 7)".toList 10 .int 3 = some (.ok (.int (-12)), 6) := by
  have hspells : (Literal.int (-12)).HasSpelling (writtenNumeral true ['1', '2'] none) :=
    .int ⟨List.cons_ne_nil _ _, List.all_eq_true.mp rfl⟩ (by decide)
  have hstands : StandsAt "(- -12 7)".toList 3 (writtenNumeral true ['1', '2'] none) :=
    ⟨[' ', '7', ')'], ⟨['(', '-', ' '], rfl, rfl⟩, rfl⟩
  exact ⟨by decide, ((readLiteral_recognizes (by decide) .int).2.1 3 (.int (-12)) 6).mpr
    ⟨rfl, _, hspells, hstands, rfl⟩⟩

end Formulary
