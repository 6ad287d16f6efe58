import Formulary.Proofs.Token.Numeral
import Formulary.Proofs.Token.Quoted
/-!
The language of literals. `Literal.HasSpelling` says which words are literals of each kind and what they
stand for: integers are a sign or none and some digits, of a value in range; numbers are numerals; strings
stand between quotes with their escapes undone; truth values are two words; and timestamps are strings
whose characters denote a timestamp. A literal is read exactly where one of its spellings is the next
word (`readLiteral_eq_ok_iff_hasSpelling`).
-/

set_option autoImplicit false
set_option relaxedAutoImplicit false

namespace Formulary

open Text Place

variable {place after : Place}

/-! ### Spelling -/

/-- The spellings of literals. -/
inductive Literal.HasSpelling : Literal → List Char → Prop
  | int {negative : Bool} {digits : List Char} {value : Int64} (hdigits : IsDigits digits)
      (hvalue : value.toInt =
        if negative then -(valueOfDigits digits : Int) else (valueOfDigits digits : Int)) :
      HasSpelling (.int value) (writtenNumeral negative digits none)
  | number {numeral : Numeral} {word : List Char} (hnumeral : numeral.HasSpelling word) :
      HasSpelling (.number numeral.toNumber) word
  | string {quoted body : List Char} (hbody : QuotedBody quoted body []) :
      HasSpelling (.string (String.ofList body)) ('"' :: quoted)
  | bool (value : Bool) : HasSpelling (.bool value) (if value then ['#', 't'] else ['#', 'f'])
  | timestamp {quoted body : List Char} {value : Timestamp} (hbody : QuotedBody quoted body [])
      (hvalue : Timestamp.ofFormulaText? body = some value) :
      HasSpelling (.timestamp value) ('"' :: quoted)

/-! ### Words at a place -/

/-- A symbol is eaten exactly if the text goes on with it, and the place comes to stand behind it. -/
theorem Text.Place.eat?_eq_some_iff {symbol : List Char} :
    place.eat? symbol = some after ↔
      place.rest = symbol ++ after.rest ∧ after.offset = place.offset + byteLength symbol := by
  refine ⟨eat?_eq_some, ?_⟩
  rintro ⟨hrest, hoffset⟩
  obtain ⟨eaten, heaten, hbehind⟩ := exists_eat?_of_rest hrest
  have hsame : eaten = after := (leads_of_eat? heaten).eq_of_rest_eq ⟨symbol, hrest, hoffset⟩ hbehind
  rw [heaten, hsame]

/-- A word comes next exactly if the text goes on with it and then with a delimiter. -/
theorem word?_of_leads {word : List Char} (hleads : Leads place after)
    (hrest : place.rest = word ++ after.rest) (hends : isDelimited after.rest = true) :
    place.word? word = some after := by
  obtain ⟨passed, hpassed, hoffset⟩ := hleads
  obtain rfl : word = passed := List.append_cancel_right (hrest.symm.trans hpassed)
  exact word?_eq_some_iff.mpr ⟨eat?_eq_some_iff.mpr ⟨hrest, hoffset⟩, hends⟩

theorem exists_leads_of_word? {word : List Char} (h : place.word? word = some after) :
    Leads place after ∧ place.rest = word ++ after.rest ∧ isDelimited after.rest = true := by
  obtain ⟨heaten, hends⟩ := word?_eq_some_iff.mp h
  exact ⟨leads_of_eat? heaten, (eat?_eq_some heaten).1, hends⟩

/-! ### Numbers -/

/-- A numeral that a delimiter comes after is a word. -/
theorem readNumeral_eq_ok_iff {numeral : Numeral} :
    readNumeral place = .ok (numeral, after) ∧ isDelimited after.rest = true ↔
      ∃ word, numeral.HasSpelling word ∧ place.word? word = some after := by
  constructor
  · rintro ⟨hread, hends⟩
    obtain ⟨word, hspells, hrest⟩ := exists_spelling_of_readNumeral hread
    exact ⟨word, hspells, word?_of_leads (leadsOver_of_readNumeral hread).1.leads hrest hends⟩
  · rintro ⟨word, hspells, hword⟩
    obtain ⟨hleads, hrest, hends⟩ := exists_leads_of_word? hword
    obtain ⟨stop, hread, hstop⟩ :=
      readNumeral_of_hasSpelling (not_isNumeralCharacter_of_isDelimited hends) hspells hrest
    obtain rfl : stop = after :=
      (leadsOver_of_readNumeral hread).1.leads.eq_of_rest_eq hleads hstop
    exact ⟨hread, hends⟩

theorem readInt_eq_ok_iff_hasSpelling {value : Int64} :
    readInt place = .ok (value, after) ↔
      ∃ word, (Literal.int value).HasSpelling word ∧ place.word? word = some after := by
  rw [readInt_eq_ok_iff]
  constructor
  · rintro ⟨numeral, hread, hvalue, hinteger, hends⟩
    obtain ⟨word, hspells, hword⟩ := readNumeral_eq_ok_iff.mp ⟨hread, hends⟩
    obtain rfl := hspells.eq_of_isInteger hinteger
    exact ⟨_, .int hspells.isDigits_whole (int64?_eq_some_iff.mp hvalue), hword⟩
  · rintro ⟨word, hspells, hword⟩
    cases hspells with
    | @int negative digits _ hdigits hvalue =>
      have hspelling := @hasSpelling_writtenNumeral negative digits none hdigits (by simp)
      obtain ⟨hread, hends⟩ := readNumeral_eq_ok_iff.mpr ⟨_, hspelling, hword⟩
      exact ⟨_, hread, int64?_eq_some_iff.mpr hvalue, rfl, hends⟩

theorem readNumber_eq_ok_iff_hasSpelling {value : Number} :
    readNumber place = .ok (value, after) ↔
      ∃ word, (Literal.number value).HasSpelling word ∧ place.word? word = some after := by
  rw [readNumber_eq_ok_iff]
  constructor
  · rintro ⟨numeral, hread, rfl, hends⟩
    obtain ⟨word, hspells, hword⟩ := readNumeral_eq_ok_iff.mp ⟨hread, hends⟩
    exact ⟨word, .number hspells, hword⟩
  · rintro ⟨word, hspells, hword⟩
    cases hspells with
    | @number numeral _ hnumeral =>
      obtain ⟨hread, hends⟩ := readNumeral_eq_ok_iff.mpr ⟨word, hnumeral, hword⟩
      exact ⟨numeral, hread, rfl, hends⟩

/-! ### Strings -/

theorem QuotedBody.append {quoted body rest : List Char} (h : QuotedBody quoted body rest)
    (text : List Char) : QuotedBody (quoted ++ text) body (rest ++ text) := by
  induction h with
  | close rest => exact .close _
  | escape hletter _ ih => exact .escape hletter ih
  | plain hquote hbackslash _ ih => exact .plain hquote hbackslash ih

/-- What stands between quotes does not depend on what comes after them. -/
theorem quotedBody_iff_exists {text body rest : List Char} :
    QuotedBody text body rest ↔ ∃ quoted, QuotedBody quoted body [] ∧ text = quoted ++ rest := by
  constructor
  · intro h
    induction h with
    | close rest => exact ⟨['"'], .close [], rfl⟩
    | @escape letter _ _ _ _ hletter _ ih =>
      obtain ⟨quoted, hbody, rfl⟩ := ih
      exact ⟨'\\' :: letter :: quoted, .escape hletter hbody, rfl⟩
    | @plain character _ _ _ hquote hbackslash _ ih =>
      obtain ⟨quoted, hbody, rfl⟩ := ih
      exact ⟨character :: quoted, .plain hquote hbackslash hbody, rfl⟩
  · rintro ⟨quoted, hbody, rfl⟩
    exact hbody.append rest

theorem readQuoted_eq_ok_iff {what : String} {body : List Char} :
    readQuoted what place = .ok (body, after) ↔
      ∃ quoted, QuotedBody quoted body [] ∧ place.word? ('"' :: quoted) = some after := by
  constructor
  · intro h
    obtain ⟨⟨text, hrest, hbody⟩, hends, hahead⟩ := readQuoted_eq_ok h
    obtain ⟨quoted, hquoted, rfl⟩ := quotedBody_iff_exists.mp hbody
    exact ⟨quoted, hquoted, word?_of_leads hahead.1 hrest hends⟩
  · rintro ⟨quoted, hquoted, hword⟩
    obtain ⟨hleads, hrest, hends⟩ := exists_leads_of_word? hword
    obtain ⟨stop, hread, hstop⟩ := readQuoted_of_quotedBody
      (quotedBody_iff_exists.mpr ⟨quoted, hquoted, rfl⟩) hends what place.offset
    rw [← List.cons_append, ← hrest] at hread
    obtain rfl : stop = after := (readQuoted_eq_ok hread).2.2.1.eq_of_rest_eq hleads hstop
    exact hread

/-! ### Literals -/

theorem readString_eq_ok_iff_hasSpelling {body : List Char} :
    readQuoted "string" place = .ok (body, after) ↔
      ∃ word, (Literal.string (String.ofList body)).HasSpelling word ∧
        place.word? word = some after := by
  rw [readQuoted_eq_ok_iff]
  constructor
  · rintro ⟨quoted, hbody, hword⟩
    exact ⟨_, .string hbody, hword⟩
  · rintro ⟨word, hspells, hword⟩
    generalize hvalue : Literal.string (String.ofList body) = value at hspells
    cases hspells with
    | @string quoted found hbody =>
      obtain rfl := String.ofList_injective (Literal.string.inj hvalue)
      exact ⟨quoted, hbody, hword⟩
    | int | number | bool | timestamp => cases hvalue

theorem readBool_eq_ok_iff_hasSpelling {value : Bool} :
    readBool place = .ok (value, after) ↔
      ∃ word, (Literal.bool value).HasSpelling word ∧ place.word? word = some after := by
  rw [readBool_eq_ok_iff]
  constructor
  · exact fun hword ↦ ⟨_, .bool value, hword⟩
  · rintro ⟨word, ⟨⟩, hword⟩
    exact hword

theorem readTimestamp_eq_ok_iff_hasSpelling {value : Timestamp} :
    readTimestamp place = .ok (value, after) ↔
      ∃ word, (Literal.timestamp value).HasSpelling word ∧ place.word? word = some after := by
  simp only [readTimestamp_eq_ok_iff, readQuoted_eq_ok_iff]
  constructor
  · rintro ⟨body, ⟨quoted, hbody, hword⟩, hvalue⟩
    exact ⟨_, .timestamp hbody hvalue, hword⟩
  · rintro ⟨word, hspells, hword⟩
    cases hspells with
    | timestamp hbody hvalue => exact ⟨_, ⟨_, hbody, hword⟩, hvalue⟩

/-- The reader of a kind finds what its reader of values finds. -/
theorem map_eq_ok_iff_hasSpelling {α : Type} {token : Token α} {wrap : α → Literal} {kind : Scalar}
    (hread : ∀ found, token = .ok (found, after) ↔
      ∃ word, (wrap found).HasSpelling word ∧ place.word? word = some after)
    (hkind : ∀ found, (wrap found).scalar = kind)
    (hwrap : ∀ value word, Literal.HasSpelling value word → value.scalar = kind →
      ∃ found, wrap found = value)
    {value : Literal} :
    (token.map fun (found, rest) ↦ (wrap found, rest)) = .ok (value, after) ↔
      value.scalar = kind ∧ ∃ word, value.HasSpelling word ∧ place.word? word = some after := by
  rw [map_eq_ok_iff]
  constructor
  · rintro ⟨found, hfound, rfl⟩
    exact ⟨hkind found, (hread found).mp hfound⟩
  · rintro ⟨hvalue, word, hspells, hword⟩
    obtain ⟨found, rfl⟩ := hwrap value word hspells hvalue
    exact ⟨found, (hread found).mpr ⟨word, hspells, hword⟩, rfl⟩

/-- A literal is read exactly where one of its spellings is the next word. -/
theorem readLiteral_eq_ok_iff_hasSpelling {kind : Scalar} {value : Literal} :
    readLiteral kind place = .ok (value, after) ↔
      value.scalar = kind ∧ ∃ word, value.HasSpelling word ∧ place.word? word = some after := by
  cases kind with
  | int =>
    refine map_eq_ok_iff_hasSpelling (fun _ ↦ readInt_eq_ok_iff_hasSpelling) (fun _ ↦ rfl) ?_
    rintro _ _ ⟨⟩ ⟨⟩
    exact ⟨_, rfl⟩
  | number =>
    refine map_eq_ok_iff_hasSpelling (fun _ ↦ readNumber_eq_ok_iff_hasSpelling) (fun _ ↦ rfl) ?_
    rintro _ _ ⟨⟩ ⟨⟩
    exact ⟨_, rfl⟩
  | string =>
    refine map_eq_ok_iff_hasSpelling (fun _ ↦ readString_eq_ok_iff_hasSpelling) (fun _ ↦ rfl) ?_
    rintro _ _ ⟨⟩ ⟨⟩
    exact ⟨_, rfl⟩
  | bool =>
    refine map_eq_ok_iff_hasSpelling (fun _ ↦ readBool_eq_ok_iff_hasSpelling) (fun _ ↦ rfl) ?_
    rintro _ _ ⟨⟩ ⟨⟩
    exact ⟨_, rfl⟩
  | timestamp =>
    refine map_eq_ok_iff_hasSpelling (fun _ ↦ readTimestamp_eq_ok_iff_hasSpelling) (fun _ ↦ rfl) ?_
    rintro _ _ ⟨⟩ ⟨⟩
    exact ⟨_, rfl⟩

/-- In front of a delimiter a spelling is read as its literal. -/
theorem readLiteral_of_hasSpelling {value : Literal} {word rest : List Char}
    (hspells : value.HasSpelling word) (hends : isDelimited rest = true) (offset : Nat) :
    readLiteral value.scalar ⟨offset, word ++ rest⟩ =
      .ok (value, ⟨offset + byteLength word, rest⟩) :=
  readLiteral_eq_ok_iff_hasSpelling.mpr
    ⟨rfl, word, hspells, word?_eq_some_iff.mpr ⟨eat?_append offset word rest, hends⟩⟩

end Formulary
