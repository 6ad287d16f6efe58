import Formulary.Proofs.Form.Sequence
import Formulary.Proofs.Token.Numeral
/-!
Tokens as forms. A literal that is read off a text is a form that denotes it, and a form that
denotes a literal is read as the literal (`sequence_of_readLiteral`, `readLiteral_of_sequence`). The
same holds of words, if they are made of the characters of words. Main definition: `Form.literal?`.
-/

set_option autoImplicit false
set_option relaxedAutoImplicit false

namespace Formulary

open Text Place

namespace Form

/-- The literal of a kind that a form denotes. -/
def literal? (kind : Scalar) : Form → Option Literal
  | .word text =>
    match kind with
    | .int => (numeral? text).bind fun numeral ↦
      if numeral.isInteger then (int64? numeral.toInt).map .int else none
    | .number => (numeral? text).map fun numeral ↦ .number numeral.toNumber
    | .bool =>
      if text = ['#', 't'] then some (.bool true)
      else if text = ['#', 'f'] then some (.bool false)
      else none
    | .string | .timestamp => none
  | .string body =>
    match kind with
    | .string => some (.string (String.ofList body))
    | .timestamp => (Timestamp.ofFormulaText? body).map .timestamp
    | .int | .number | .bool => none
  | .group _ => none

end Form

variable {place after : Place}

/-! ### Words -/

theorem sequence_of_word? {word : List Char} (hsome : word ≠ [])
    (hword : ∀ character ∈ word, isWordCharacter character = true)
    (h : place.word? word = some after) :
    Sequence place.rest [.word word] (dropSeparators after.rest) := by
  obtain ⟨heaten, hends⟩ := word?_eq_some_iff.mp h
  rw [(eat?_eq_some heaten).1]
  exact .word hsome hword hends (.done _)

theorem word?_of_sequence {word rest : List Char} (h : Sequence place.rest [.word word] rest) :
    ∃ after, place.word? word = some after ∧ dropSeparators after.rest = rest := by
  obtain ⟨offset, text⟩ := place
  cases h with
  | @word _ text _ _ hsome hword hends hrest =>
    refine ⟨⟨offset + byteLength word, text⟩, ?_, hrest.eq_of_nil⟩
    rw [word?_eq_some_iff]
    exact ⟨eat?_append offset word text, hends⟩

/-! ### Literals -/

/-- What is read as a literal is a form that denotes it. -/
theorem sequence_of_readLiteral {kind : Scalar} {value : Literal}
    (h : readLiteral kind place = .ok (value, after)) :
    ∃ form : Form, Sequence place.rest [form] (dropSeparators after.rest) ∧
      form.literal? kind = some value := by
  have hnumeral (numeral : Numeral) (hread : readNumeral place = .ok (numeral, after))
      (hends : isDelimited after.rest = true) :
      ∃ word, Sequence place.rest [.word word] (dropSeparators after.rest) ∧
        numeral? word = some numeral := by
    obtain ⟨word, hsome, hword, hrest, hdenotes⟩ := numeral?_of_readNumeral hread
    rw [hrest]
    exact ⟨word, .word hsome (fun character hcharacter ↦
      isWordCharacter_of_isNumeralCharacter (hword character hcharacter)) hends (.done _), hdenotes⟩
  have hquoted (what : String) (body : List Char)
      (hread : readQuoted what place = .ok (body, after)) :
      Sequence place.rest [.string body] (dropSeparators after.rest) := by
    obtain ⟨⟨text, hrest, hbody⟩, hends, -⟩ := readQuoted_eq_ok hread
    rw [hrest]
    exact .string hbody hends (.done _)
  cases kind with
  | int =>
    obtain ⟨found, hfound, rfl⟩ := map_eq_ok_iff.mp h
    obtain ⟨numeral, hread, hvalue, hinteger, hends⟩ := readInt_eq_ok_iff.mp hfound
    obtain ⟨word, hsequence, hword⟩ := hnumeral numeral hread hends
    exact ⟨.word word, hsequence, by simp [Form.literal?, hword, hinteger, hvalue]⟩
  | number =>
    obtain ⟨found, hfound, rfl⟩ := map_eq_ok_iff.mp h
    obtain ⟨numeral, hread, rfl, hends⟩ := readNumber_eq_ok_iff.mp hfound
    obtain ⟨word, hsequence, hword⟩ := hnumeral numeral hread hends
    exact ⟨.word word, hsequence, by simp [Form.literal?, hword]⟩
  | string =>
    obtain ⟨body, hbody, rfl⟩ := readLiteral_string_eq_ok_iff.mp h
    exact ⟨.string body, hquoted _ body hbody, rfl⟩
  | bool =>
    obtain ⟨found, hfound, rfl⟩ := map_eq_ok_iff.mp h
    have hword := readBool_eq_ok_iff.mp hfound
    refine ⟨.word _, sequence_of_word? ?_ ?_ hword, ?_⟩
    · cases found <;> exact List.cons_ne_nil _ _
    · cases found <;> exact List.all_eq_true.mp rfl
    · cases found <;> rfl
  | timestamp =>
    obtain ⟨found, hfound, rfl⟩ := map_eq_ok_iff.mp h
    obtain ⟨body, hbody, hvalue⟩ := readTimestamp_eq_ok_iff.mp hfound
    exact ⟨.string body, hquoted _ body hbody, by simp [Form.literal?, hvalue]⟩

theorem readLiteral_word {kind : Scalar} {value : Literal} {word text : List Char}
    (hends : isDelimited text = true) (hvalue : (Form.word word).literal? kind = some value)
    (offset : Nat) :
    ∃ after, readLiteral kind ⟨offset, word ++ text⟩ = .ok (value, after) ∧ after.rest = text := by
  cases kind with
  | int =>
    obtain ⟨numeral, hnumeral, hint⟩ := Option.bind_eq_some_iff.mp hvalue
    obtain ⟨after, hread, hrest⟩ := readNumeral_of_numeral? hnumeral hends offset
    by_cases hinteger : numeral.isInteger = true
    · rw [if_pos hinteger] at hint
      obtain ⟨found, hfound, rfl⟩ := Option.map_eq_some_iff.mp hint
      have hint : readInt ⟨offset, word ++ text⟩ = .ok (found, after) :=
        readInt_eq_ok_iff.mpr ⟨numeral, hread, hfound, hinteger, by rwa [hrest]⟩
      exact ⟨after, map_eq_ok_iff.mpr ⟨found, hint, rfl⟩, hrest⟩
    · rw [if_neg hinteger] at hint
      exact nomatch hint
  | number =>
    obtain ⟨numeral, hnumeral, rfl⟩ := Option.map_eq_some_iff.mp hvalue
    obtain ⟨after, hread, hrest⟩ := readNumeral_of_numeral? hnumeral hends offset
    have hnumber : readNumber ⟨offset, word ++ text⟩ = .ok (numeral.toNumber, after) :=
      readNumber_eq_ok_iff.mpr ⟨numeral, hread, rfl, by rwa [hrest]⟩
    exact ⟨after, map_eq_ok_iff.mpr ⟨_, hnumber, rfl⟩, hrest⟩
  | bool =>
    have hread (found : Bool) (hword : word = if found then ['#', 't'] else ['#', 'f']) :
        ∃ after, readLiteral .bool ⟨offset, word ++ text⟩ = .ok (.bool found, after) ∧
          after.rest = text := by
      have hbool : readBool ⟨offset, word ++ text⟩ =
          .ok (found, ⟨offset + byteLength word, text⟩) := by
        rw [readBool_eq_ok_iff, ← hword, word?_eq_some_iff]
        exact ⟨eat?_append offset word text, hends⟩
      exact ⟨_, map_eq_ok_iff.mpr ⟨found, hbool, rfl⟩, rfl⟩
    simp only [Form.literal?] at hvalue
    split at hvalue
    · obtain rfl := Option.some.inj hvalue
      exact hread true ‹_›
    · split at hvalue
      · obtain rfl := Option.some.inj hvalue
        exact hread false ‹_›
      · exact nomatch hvalue
  | string | timestamp => exact nomatch hvalue

theorem readLiteral_quoted {kind : Scalar} {value : Literal} {quoted body text : List Char}
    (hbody : QuotedBody quoted body text) (hends : isDelimited text = true)
    (hvalue : (Form.string body).literal? kind = some value) (offset : Nat) :
    ∃ after, readLiteral kind ⟨offset, '"' :: quoted⟩ = .ok (value, after) ∧
      after.rest = text := by
  cases kind with
  | string =>
    obtain ⟨after, hread, hrest⟩ := readQuoted_of_quotedBody hbody hends "string" offset
    exact ⟨after, readLiteral_string_eq_ok_iff.mpr ⟨body, hread, Option.some.inj hvalue⟩, hrest⟩
  | timestamp =>
    obtain ⟨after, hread, hrest⟩ := readQuoted_of_quotedBody hbody hends "timestamp" offset
    obtain ⟨found, hfound, rfl⟩ := Option.map_eq_some_iff.mp hvalue
    have htimestamp := readTimestamp_eq_ok_iff.mpr ⟨body, hread, hfound⟩
    exact ⟨after, map_eq_ok_iff.mpr ⟨found, htimestamp, rfl⟩, hrest⟩
  | int | number | bool => exact nomatch hvalue

/-- A form that denotes a literal is read as the literal. -/
theorem readLiteral_of_sequence {kind : Scalar} {value : Literal} {form : Form} {rest : List Char}
    (h : Sequence place.rest [form] rest) (hvalue : form.literal? kind = some value) :
    ∃ after, readLiteral kind place = .ok (value, after) ∧ dropSeparators after.rest = rest := by
  obtain ⟨offset, text⟩ := place
  cases h with
  | word hsome hword hends hrest =>
    obtain ⟨after, hread, hafter⟩ := readLiteral_word hends hvalue offset
    exact ⟨after, hread, by rw [hafter]; exact hrest.eq_of_nil⟩
  | string hbody hends hrest =>
    obtain ⟨after, hread, hafter⟩ := readLiteral_quoted hbody hends hvalue offset
    exact ⟨after, hread, by rw [hafter]; exact hrest.eq_of_nil⟩
  | group => exact nomatch hvalue

end Formulary
