import Formulary.Json.Printer
import Formulary.Proofs.Json.Numeral
import Formulary.Proofs.Json.Range
import Formulary.Proofs.Json.Reread
/-!
Written documents. A document with its numbers in range, in which everything denotes something, is
read back from its text but for its numbers, each of which is what its own text is read as
(`ofText?_text`). A number of at most fifteen digits that is neither very great nor very small is read
back too (`Number.reread?_of_fewDigits`). Main definitions: `IsWritable`, these documents, and `Scans`,
where a scanner takes a text off the front whatever comes after it, if that does not go on with a
character of a number.
-/

set_option autoImplicit false
set_option relaxedAutoImplicit false

namespace Formulary.Json

open Text Scan Reader

/-! ### Texts in front of others -/

/-- A scanner takes a text off the front of any other that does not begin like the rest of a
number. -/
def Scans {α : Type} (scan : Scan α) (text : List Char) (value : α) : Prop :=
  ∀ rest, (∀ character ∈ rest.head?, isNumeralCharacter character = false) →
    scan (text ++ rest) = some (value, rest)

theorem spaces_of_head {text : List Char} (h : ∀ character ∈ text.head?, isSpace character = false) :
    spaces text = some ((), text) := by
  cases text with
  | nil => rfl
  | cons character text =>
    rw [spaces, List.dropWhile_cons_of_neg (by simp [h character rfl])]

/-! ### Strings -/

/-- Four hexadecimal digits of a control character denote its code. -/
theorem unit?_digitChar {code : Nat} (h : code < 0x20) :
    unit? '0' '0' (Nat.digitChar (code / 16)) (Nat.digitChar (code % 16)) = some code := by
  have hall : ∀ code < 0x20,
      unit? '0' '0' (Nat.digitChar (code / 16)) (Nat.digitChar (code % 16)) = some code := by
    decide
  exact hall code h

/-- A character is read back from the way it is written in a string. -/
theorem stringBody_escaped (state : StringState) (character : Char) (rest : List Char) :
    stringBody state (escaped character ++ rest) = stringBody (state.push character) rest := by
  unfold escaped
  split
  · rfl
  · rfl
  · rfl
  · rfl
  · rfl
  · rfl
  · rfl
  · rename_i hquote hbackslash _ _ _ _ _
    split
    · rename_i hcontrol
      have hpush : state.pushUnit character.toNat = state.push character := by
        have hlow : ¬ (0xDC00 ≤ character.toNat ∧ character.toNat ≤ 0xDFFF) := by omega
        have hhigh : ¬ (0xD800 ≤ character.toNat ∧ character.toNat ≤ 0xDBFF) := by omega
        rw [StringState.pushUnit, if_neg hlow, if_neg hhigh, Char.ofNat_toNat]
      simp only [List.cons_append, List.nil_append, stringBody, unit?_digitChar hcontrol, hpush]
    · rename_i hplain
      show stringBody state (character :: rest) = _
      have hother : (character.toNat < 0x20 || character == '\\') = false :=
        Bool.or_eq_false_iff.mpr ⟨decide_eq_false hplain, beq_eq_false_iff_ne.mpr hbackslash⟩
      rw [stringBody.eq_def]
      split
      · rename_i hsame
        exact absurd (List.cons.inj hsame).1 hquote
      · rename_i hsame
        exact absurd (List.cons.inj hsame).1 hbackslash
      · rename_i hsame
        exact absurd (List.cons.inj hsame).1 hbackslash
      · rename_i hsame
        obtain ⟨rfl, rfl⟩ := List.cons.inj hsame
        rw [if_neg (by rw [hother]; exact Bool.false_ne_true)]
      · rename_i hnone
        exact nomatch hnone

/-- A text is read back from between its quotes. -/
theorem stringBody_flatMap_escaped (text reversed rest : List Char) :
    stringBody ⟨reversed, none, false⟩ (text.flatMap escaped ++ '"' :: rest) =
      some (some (String.ofList (reversed.reverse ++ text)), rest) := by
  induction text generalizing reversed with
  | nil => rw [List.append_nil]; rfl
  | cons character text ih =>
    rw [List.flatMap_cons, List.append_assoc, stringBody_escaped]
    refine (ih (character :: reversed)).trans ?_
    rw [List.reverse_cons, List.append_assoc, List.singleton_append]

theorem stringBody_quoted (text : String) (rest : List Char) :
    stringBody .start (text.toList.flatMap escaped ++ '"' :: rest) = some (some text, rest) := by
  have hread := stringBody_flatMap_escaped text.toList [] rest
  rwa [List.reverse_nil, List.nil_append, String.ofList_toList] at hread

/-! ### Documents that are neither arrays nor objects -/

theorem scalar_of_isDigit {text : List Char} (hsome : text ≠ [])
    (h : ∀ character ∈ text.head?, character.isDigit = true) : scalar text = numeral false text := by
  obtain ⟨character, rest, rfl⟩ := List.exists_cons_of_ne_nil hsome
  have hother (other : Char) (hnone : other.isDigit = false) : character ≠ other := by
    rintro rfl
    exact Bool.false_ne_true (hnone.symm.trans (h character rfl))
  unfold scalar
  split
  · rename_i hsame
    exact absurd (List.cons.inj hsame).1 (hother '"' rfl)
  · rename_i hsame
    exact absurd (List.cons.inj hsame).1 (hother '-' rfl)
  · split
    · rename_i hsame
      exact absurd (List.cons.inj hsame).1 (hother 'n' rfl)
    · rename_i hsame
      exact absurd (List.cons.inj hsame).1 (hother 't' rfl)
    · rename_i hsame
      exact absurd (List.cons.inj hsame).1 (hother 'f' rfl)
    · rfl

/-- A text begins with neither a space nor a mark around what is nested. -/
def BeginsPlainly (text : List Char) : Prop :=
  ∃ character ∈ text.head?,
    isSpace character = false ∧ character ∉ ['[', ']', '\x7b', '\x7d']

theorem beginsPlainly_of_isNumeralCharacter {text : List Char} (hsome : text ≠ [])
    (h : ∀ character ∈ text.head?, isNumeralCharacter character = true) : BeginsPlainly text := by
  obtain ⟨character, rest, rfl⟩ := List.exists_cons_of_ne_nil hsome
  have hnumeral := h character rfl
  have hother (other : Char) (hnone : isNumeralCharacter other = false) : character ≠ other := by
    rintro rfl
    rw [hnone] at hnumeral
    exact nomatch hnumeral
  refine ⟨character, rfl, ?_, ?_⟩
  · simp [isSpace, hother ' ' rfl, hother '\t' rfl, hother '\n' rfl, hother '\r' rfl]
  · simp [hother '[' rfl, hother ']' rfl, hother '\x7b' rfl, hother '\x7d' rfl]

theorem beginsPlainly_signed (negative : Bool) {digits : List Char} (hdigits : IsWhole digits)
    (others : List Char) :
    BeginsPlainly ((if negative then ['-'] else []) ++ (digits ++ others)) := by
  obtain ⟨digit, more, rfl⟩ := List.exists_cons_of_ne_nil hdigits.ne_nil
  cases negative with
  | true => exact beginsPlainly_of_isNumeralCharacter (List.cons_ne_nil _ _) (by rintro _ ⟨⟩; rfl)
  | false =>
    refine beginsPlainly_of_isNumeralCharacter (List.cons_ne_nil _ _) ?_
    rintro _ ⟨⟩
    exact isNumeralCharacter_of_isDigit digit (hdigits.isDigit digit List.mem_cons_self)

/-- The sign of a number and its parts are read together. -/
theorem scans_scalar_numeralText (negative : Bool) {digits : List Char}
    {fraction : Option (List Char)} (power : Option Int) (hdigits : IsWhole digits)
    (hfraction : ∀ places ∈ fraction, places ≠ [] ∧ ∀ digit ∈ places, digit.isDigit = true) :
    Scans scalar ((if negative then ['-'] else []) ++ numeralText digits fraction power)
      (ofNumeral negative digits fraction power) := by
  intro rest hrest
  have hread := numeral_numeralText hrest negative power hdigits hfraction
  cases negative with
  | true => exact hread
  | false =>
    rw [if_neg Bool.false_ne_true, List.nil_append, ← hread]
    obtain ⟨digit, others, rfl⟩ := List.exists_cons_of_ne_nil hdigits.ne_nil
    refine scalar_of_isDigit (List.cons_ne_nil _ _) ?_
    rintro character ⟨⟩
    exact hdigits.isDigit digit List.mem_cons_self

theorem scans_scalar_integer {value : Int} (h : isKeptInteger value = true) :
    Scans scalar (signedDigitsOf value) (.integer value) ∧ BeginsPlainly (signedDigitsOf value) := by
  have hread := @scans_scalar_numeralText (decide (value < 0)) (digitsOf value.natAbs) none none
    (isWhole_digitsOf value.natAbs) nofun
  have htext : signedDigitsOf value = (if decide (value < 0) = true then ['-'] else []) ++
      numeralText (digitsOf value.natAbs) none none := by
    rw [signedDigitsOf_eq, writtenNumeral, numeralText]
    rfl
  rw [ofNumeral_digitsOf h] at hread
  rw [htext]
  exact ⟨hread, beginsPlainly_signed _ (isWhole_digitsOf _) _⟩

theorem scans_value_of_scalar {text : List Char} {document : Json} (h : Scans scalar text document)
    (hbegins : BeginsPlainly text) (bound : Nat) : Scans (value bound) text document := by
  intro rest hrest
  obtain ⟨character, hhead, hspace, hplain⟩ := hbegins
  obtain ⟨others, rfl⟩ := List.head?_eq_some_iff.mp hhead
  have hread := h rest hrest
  have hspaces := @spaces_of_head (character :: others ++ rest) (by rintro _ ⟨⟩; exact hspace)
  cases bound with
  | zero => rw [value, bind_of_some hspaces, hread]
  | succ bound =>
    rw [value, bind_of_some hspaces]
    split
    · rename_i hsame
      obtain ⟨rfl, -⟩ := List.cons.inj hsame
      exact absurd (by decide) hplain
    · rename_i hsame
      obtain ⟨rfl, -⟩ := List.cons.inj hsame
      exact absurd (by decide) hplain
    · exact hread

/-! ### Numbers -/

/-- A scanner of whole texts reads what it takes off the front of all of them. -/
theorem ofCharacters?_of_scans {text : List Char} {document : Json}
    (h : Scans (value text.length) text document) : ofCharacters? text = some document := by
  have hread := h [] nofun
  rw [List.append_nil] at hread
  have hwhole : (do
      let document ← value text.length
      spaces
      pure document : Scan Json) text = some (document, []) := by
    rw [bind_of_some hread]
    rfl
  rw [ofCharacters?, whole, hwhole]

/-- A finite number is written as parts that stand for its digits, and read as what these denote. -/
theorem exists_scans_scalar_write {number : Number} (h : number.isFinite = true) :
    ∃ digits fraction power,
      IsLayout (significantDigits (Number.shortestDecimal .even number.magnitude).coefficient)
          (Number.shortestDecimal .even number.magnitude).order digits fraction power ∧
        Scans scalar (exchangeStyle.write number) (ofNumeral number.negative digits fraction power) ∧
        BeginsPlainly (exchangeStyle.write number) := by
  obtain ⟨digits, fraction, power, htext, hlayout⟩ :=
    exists_numeralText_of_writeMagnitude (of_decide_eq_true h)
  have hwritten : exchangeStyle.write number = (if number.negative = true then ['-'] else []) ++
      numeralText digits fraction power := by
    rw [NumberStyle.write, if_pos h, htext]
    cases number.negative <;> rfl
  rw [hwritten]
  exact ⟨digits, fraction, power, hlayout,
    scans_scalar_numeralText number.negative power hlayout.isWhole hlayout.places,
    beginsPlainly_signed _ hlayout.isWhole _⟩

/-- What is read from the text of a number is what the parts that are written for it denote. -/
theorem reread?_of_scans {number : Number} (h : number.isFinite = true) {document : Json}
    (hscans : Scans scalar (exchangeStyle.write number) document)
    (hbegins : BeginsPlainly (exchangeStyle.write number)) :
    number.reread? = Number.decode? document := by
  have hread : ofText? (Json.real number).text = some document := by
    rw [ofText?, Json.text, String.toList_ofList]
    exact ofCharacters?_of_scans (scans_value_of_scalar hscans hbegins _)
  rw [Number.reread?, Number.encode, if_pos h, hread, Option.bind_some]

theorem scans_scalar_real {number : Number} (h : number.isFinite = true) :
    Scans scalar (exchangeStyle.write number) (Json.real number).reread ∧
      BeginsPlainly (exchangeStyle.write number) := by
  obtain ⟨digits, fraction, power, hlayout, hscans, hbegins⟩ := exists_scans_scalar_write h
  have hsame : (Json.real number).reread = ofNumeral number.negative digits fraction power := by
    rw [reread, reread?_of_scans h hscans hbegins, ofNumeral_of_isShown hlayout.shown]
    generalize Number.scaledMagnitude? _ _ = scaled?
    cases scaled? <;> rfl
  rw [hsame]
  exact ⟨hscans, hbegins⟩

theorem scans_scalar_string (text : String) : Scans scalar (quoted text) (.string text) := by
  intro rest hrest
  have hread := stringBody_quoted text rest
  rw [quoted, List.append_assoc]
  show (stringBody .start (text.toList.flatMap escaped ++ '"' :: rest)).map _ = _
  rw [hread]
  rfl

/-! ### Sequences -/

/-- Texts with commas between them. -/
def commaSeparated : List (List Char) → List Char
  | [] => []
  | [text] => text
  | text :: texts => text ++ ',' :: commaSeparated texts

theorem commaSeparated_cons (text : List Char) {texts : List (List Char)} (h : texts ≠ []) :
    commaSeparated (text :: texts) = text ++ ',' :: commaSeparated texts := by
  cases texts with
  | nil => exact absurd rfl h
  | cons next texts => rfl

theorem elementCharacters_eq (elements : List Json) :
    elementCharacters elements = commaSeparated (elements.map characters) := by
  induction elements with
  | nil => rfl
  | cons element elements ih =>
    cases elements with
    | nil => rfl
    | cons next elements => exact congrArg (characters element ++ ',' :: ·) ih

/-- The text of one member. -/
def memberText (member : Option String × Json) : List Char :=
  quoted (member.1.getD "") ++ ':' :: characters member.2

theorem memberCharacters_eq (members : List (Option String × Json)) :
    memberCharacters members = commaSeparated (members.map memberText) := by
  induction members with
  | nil => rfl
  | cons member members ih =>
    obtain ⟨name, value⟩ := member
    cases members with
    | nil => rfl
    | cons next members => exact congrArg (memberText (name, value) ++ ',' :: ·) ih

theorem length_le_length_commaSeparated {text : List Char} {texts : List (List Char)}
    (h : text ∈ texts) : text.length ≤ (commaSeparated texts).length := by
  induction texts with
  | nil => exact absurd h List.not_mem_nil
  | cons first texts ih =>
    by_cases hlast : texts = []
    · subst hlast
      obtain rfl := List.mem_singleton.mp h
      exact Nat.le_refl _
    · rw [commaSeparated_cons first hlast, List.length_append, List.length_cons]
      rcases List.mem_cons.mp h with rfl | hlater
      · omega
      · have hlength := ih hlater
        omega

theorem length_texts_le {texts : List (List Char)} (h : ∀ text ∈ texts, text ≠ []) :
    texts.length ≤ (commaSeparated texts).length := by
  induction texts with
  | nil => exact Nat.le_refl 0
  | cons first texts ih =>
    obtain ⟨hfirst, hrest⟩ := List.forall_mem_cons.mp h
    have hlength := List.length_pos_iff.mpr hfirst
    by_cases hlast : texts = []
    · subst hlast
      exact hlength
    · rw [commaSeparated_cons first hlast, List.length_append, List.length_cons, List.length_cons]
      have hmore := ih hrest
      omega

section Items

variable {α : Type} {item : Scan α} {closing : Char}
  (hclosing : isNumeralCharacter closing = false ∧ isSpace closing = false ∧ closing ≠ ',')

include hclosing

/-- Items are read one after the other up to the closing mark. -/
theorem separated_commaSeparated {texts : List (List Char)} {values : List α}
    (h : List.Forall₂ (Scans item) texts values) (hsome : texts ≠ []) {bound : Nat}
    (hbound : texts.length ≤ bound) (rest : List Char) :
    separated item closing bound (commaSeparated texts ++ closing :: rest) = some (values, rest) := by
  obtain ⟨hnumeral, hspace, hcomma⟩ := hclosing
  induction h generalizing bound with
  | nil => exact absurd rfl hsome
  | @cons text value texts values hfirst hrest ih =>
    obtain ⟨bound, rfl⟩ := Nat.exists_eq_add_one.mpr (Nat.zero_lt_of_lt hbound)
    by_cases hlast : texts = []
    · subst hlast
      obtain rfl := List.forall₂_nil_left_iff.mp hrest
      have hread := hfirst (closing :: rest) (by rintro _ ⟨⟩; exact hnumeral)
      have hspaces := @spaces_of_head (closing :: rest) (by rintro _ ⟨⟩; exact hspace)
      rw [separated, commaSeparated, bind_of_some hread, bind_of_some hspaces]
      exact (if_neg hcomma).trans (if_pos rfl)
    · have hothers := ih hlast (Nat.le_of_succ_le_succ hbound)
      have hread := hfirst (',' :: (commaSeparated texts ++ closing :: rest))
        (by rintro _ ⟨⟩; rfl)
      have hspaces := @spaces_of_head (',' :: (commaSeparated texts ++ closing :: rest))
        (by rintro _ ⟨⟩; rfl)
      rw [separated, commaSeparated_cons text hlast, List.append_assoc, List.cons_append,
        bind_of_some hread, bind_of_some hspaces]
      exact (if_pos rfl).trans (congrArg (Option.map _) hothers)

/-- Items are read after the opening mark, if none of them begins like the closing mark. -/
theorem items_commaSeparated {texts : List (List Char)} {values : List α}
    (h : List.Forall₂ (Scans item) texts values)
    (hbegins : ∀ text ∈ texts, ∃ character ∈ text.head?,
      isSpace character = false ∧ character ≠ closing) (rest : List Char) :
    items item closing (commaSeparated texts ++ closing :: rest) = some (values, rest) := by
  cases h with
  | nil =>
    have hspaces := @spaces_of_head (closing :: rest) (by rintro _ ⟨⟩; exact hclosing.2.1)
    rw [commaSeparated, items, List.nil_append, bind_of_some hspaces]
    exact if_pos rfl
  | @cons text value texts values hfirst hrest =>
    have hsome : ∀ other ∈ text :: texts, other ≠ [] := by
      rintro other hother rfl
      obtain ⟨_, hnone, -⟩ := hbegins _ hother
      exact nomatch hnone
    have hbound : (text :: texts).length ≤ (commaSeparated (text :: texts) ++ closing :: rest).length := by
      have hlength := length_texts_le hsome
      rw [List.length_append]
      omega
    have hread := separated_commaSeparated hclosing (.cons hfirst hrest) (List.cons_ne_nil _ _) hbound
      rest
    obtain ⟨first, hhead, hspace, hfirst⟩ := hbegins text List.mem_cons_self
    obtain ⟨others, htext⟩ : ∃ others, commaSeparated (text :: texts) ++ closing :: rest =
        first :: others := by
      obtain ⟨after, rfl⟩ := List.head?_eq_some_iff.mp hhead
      by_cases hlast : texts = []
      · exact ⟨_, by rw [hlast]; rfl⟩
      · exact ⟨_, by rw [commaSeparated_cons _ hlast]; rfl⟩
    rw [htext] at hread ⊢
    rw [items, bind_of_some (@spaces_of_head (first :: others) (by rintro _ ⟨⟩; exact hspace))]
    exact (if_neg hfirst).trans hread

end Items

/-! ### Documents -/

/-- What is nested takes characters of the text around it. -/
theorem nesting_le_length {document : Json} (h : InRange document) :
    document.nesting ≤ document.characters.length := by
  induction h with
  | null => decide
  | bool value => exact Nat.zero_le _
  | integer hkept => exact Nat.zero_le _
  | real hfinite => exact Nat.zero_le _
  | string text => exact Nat.zero_le _
  | unreadable => exact Nat.zero_le _
  | @array elements _ ih =>
    have hinside : nestingAll elements ≤ (elementCharacters elements).length := by
      refine nestingAll_le_iff.mpr fun element helement ↦ (ih element helement).trans ?_
      rw [elementCharacters_eq]
      exact length_le_length_commaSeparated (List.mem_map_of_mem helement)
    rw [nesting, characters, List.length_append, List.length_cons]
    omega
  | @object members _ ih =>
    have hinside : nestingMembers members ≤ (memberCharacters members).length := by
      refine nestingMembers_le_iff.mpr fun member hmember ↦ (ih member hmember).trans ?_
      rw [memberCharacters_eq]
      have hlength := length_le_length_commaSeparated (List.mem_map_of_mem (f := memberText) hmember)
      rw [memberText, List.length_append, List.length_cons] at hlength
      omega
    rw [nesting, characters, List.length_append, List.length_cons]
    omega

/-- A document without arrays and objects is read from its text. -/
theorem scans_scalar_characters {document : Json} (h : InRange document)
    (hreadable : document.isReadable = true) (hflat : document.nesting = 0) :
    Scans scalar document.characters document.reread ∧ BeginsPlainly document.characters := by
  cases h with
  | null => exact ⟨fun _ _ ↦ rfl, 'n', rfl, by decide⟩
  | bool value =>
    cases value with
    | true => exact ⟨fun _ _ ↦ rfl, 't', rfl, by decide⟩
    | false => exact ⟨fun _ _ ↦ rfl, 'f', rfl, by decide⟩
  | integer hkept => exact scans_scalar_integer hkept
  | real hfinite => exact scans_scalar_real hfinite
  | string text => exact ⟨scans_scalar_string text, '"', rfl, by decide⟩
  | unreadable => exact nomatch hreadable
  | array _ => exact absurd hflat (Nat.succ_ne_zero _)
  | object _ => exact absurd hflat (Nat.succ_ne_zero _)

/-- The first character of a document is neither a space nor a mark that closes another one. -/
theorem exists_head_characters {document : Json} (h : InRange document)
    (hreadable : document.isReadable = true) :
    ∃ character ∈ document.characters.head?,
      isSpace character = false ∧ character ≠ ']' ∧ character ≠ '\x7d' := by
  by_cases hflat : document.nesting = 0
  · obtain ⟨character, hhead, hspace, hplain⟩ := (scans_scalar_characters h hreadable hflat).2
    refine ⟨character, hhead, hspace, ?_, ?_⟩
    · rintro rfl
      exact hplain (by decide)
    · rintro rfl
      exact hplain (by decide)
  · cases h with
    | array _ => exact ⟨'[', rfl, by decide⟩
    | object _ => exact ⟨'\x7b', rfl, by decide⟩
    | _ => exact absurd rfl hflat

theorem scans_member {value : Scan Json} {name : String} {document : Json}
    (h : Scans value document.characters document.reread) :
    Scans (member value) (memberText (some name, document)) (some name, document.reread) := by
  intro rest hrest
  have hname := stringBody_quoted name (':' :: (document.characters ++ rest))
  have hquote := @spaces_of_head ('"' :: (name.toList.flatMap escaped ++
    '"' :: ':' :: (document.characters ++ rest))) (by rintro _ ⟨⟩; rfl)
  have hcolon := @spaces_of_head (':' :: (document.characters ++ rest)) (by rintro _ ⟨⟩; rfl)
  rw [memberText, quoted, Option.getD_some]
  simp only [List.append_assoc, List.cons_append, List.nil_append]
  rw [member, bind_of_some hquote, bind_of_some (mark_cons '"' _), bind_of_some hname,
    bind_of_some hcolon, bind_of_some (mark_cons ':' _), bind_of_some (h rest hrest)]
  rfl

theorem scans_array {bound : Nat} {elements : List Json}
    (h : ∀ element ∈ elements, Scans (value bound) element.characters element.reread)
    (hbegins : ∀ element ∈ elements, ∃ character ∈ element.characters.head?,
      isSpace character = false ∧ character ≠ ']') :
    Scans (value (bound + 1)) (Json.array elements).characters (Json.array elements).reread := by
  intro rest hrest
  have hscans : List.Forall₂ (Scans (value bound)) (elements.map characters) (elements.map reread) :=
    List.forall₂_map_left_iff.mpr (List.forall₂_map_right_iff.mpr (List.forall₂_same.mpr h))
  have hread := items_commaSeparated (by decide) hscans (List.forall_mem_map.mpr hbegins) rest
  have htext : (Json.array elements).characters ++ rest =
      '[' :: (commaSeparated (elements.map characters) ++ ']' :: rest) := by
    rw [characters, elementCharacters_eq, List.cons_append, List.cons_append, List.append_assoc]
    rfl
  rw [htext, value, bind_of_some (spaces_of_head (by rintro _ ⟨⟩; rfl)), reread_array]
  exact congrArg (Option.map _) hread

theorem scans_object {bound : Nat} {members : List (Option String × Json)}
    (h : ∀ entry ∈ members,
      Scans (member (value bound)) (memberText entry) (entry.1, entry.2.reread)) :
    Scans (value (bound + 1)) (Json.object members).characters (Json.object members).reread := by
  intro rest hrest
  have hscans : List.Forall₂ (Scans (member (value bound))) (members.map memberText)
      (members.map fun entry ↦ (entry.1, entry.2.reread)) :=
    List.forall₂_map_left_iff.mpr (List.forall₂_map_right_iff.mpr (List.forall₂_same.mpr h))
  have hbegins : ∀ text ∈ members.map memberText, ∃ character ∈ text.head?,
      isSpace character = false ∧ character ≠ '\x7d' :=
    List.forall_mem_map.mpr fun entry _ ↦ ⟨'"', rfl, by decide⟩
  have hread := items_commaSeparated (by decide) hscans hbegins rest
  have htext : (Json.object members).characters ++ rest =
      '\x7b' :: (commaSeparated (members.map memberText) ++ '\x7d' :: rest) := by
    rw [characters, memberCharacters_eq, List.cons_append, List.cons_append, List.append_assoc]
    rfl
  rw [htext, value, bind_of_some (spaces_of_head (by rintro _ ⟨⟩; rfl)), reread, rereadMembers_eq_map]
  exact congrArg (Option.map _) hread

/-- A document is read from the front of a text that begins with its own text. -/
theorem scans_value_characters {document : Json} (h : InRange document)
    (hreadable : document.isReadable = true) {bound : Nat} (hbound : document.nesting ≤ bound) :
    Scans (value bound) document.characters document.reread := by
  have hscalar {document : Json} (h : InRange document) (hreadable : document.isReadable = true)
      (hflat : document.nesting = 0) (bound : Nat) :
      Scans (value bound) document.characters document.reread := by
    obtain ⟨hscans, hbegins⟩ := scans_scalar_characters h hreadable hflat
    exact scans_value_of_scalar hscans hbegins bound
  induction h generalizing bound with
  | null => exact hscalar .null rfl rfl bound
  | bool value => exact hscalar (.bool value) rfl rfl bound
  | integer hkept => exact hscalar (.integer hkept) rfl rfl bound
  | real hfinite => exact hscalar (.real hfinite) rfl rfl bound
  | string text => exact hscalar (.string text) rfl rfl bound
  | unreadable => exact nomatch hreadable
  | @array elements helements ih =>
    obtain ⟨bound, rfl⟩ := Nat.exists_eq_add_one.mpr (Nat.zero_lt_of_lt hbound)
    have hinside := nestingAll_le_iff.mp (Nat.le_of_succ_le_succ hbound)
    have hall := areReadable_iff.mp hreadable
    refine scans_array (fun element helement ↦ ?_) fun element helement ↦ ?_
    · exact ih element helement (hall element helement) (hinside element helement)
    · obtain ⟨first, hhead, hspace, hclosing, -⟩ :=
        exists_head_characters (helements element helement) (hall element helement)
      exact ⟨first, hhead, hspace, hclosing⟩
  | @object members _ ih =>
    obtain ⟨bound, rfl⟩ := Nat.exists_eq_add_one.mpr (Nat.zero_lt_of_lt hbound)
    have hinside := nestingMembers_le_iff.mp (Nat.le_of_succ_le_succ hbound)
    refine scans_object fun entry hentry ↦ ?_
    obtain ⟨hname, hvalue⟩ := membersReadable_iff.mp hreadable entry hentry
    have hscans := ih entry hentry hvalue (hinside entry hentry)
    obtain ⟨_ | name, document⟩ := entry
    · exact nomatch hname
    · exact scans_member hscans

/-- A document whose text denotes it: its numbers are in range, and everything in it denotes
something. -/
structure IsWritable (document : Json) : Prop where
  inRange : InRange document
  isReadable : document.isReadable = true

theorem isWritable_string (text : String) : IsWritable (.string text) :=
  ⟨.string text, rfl⟩

theorem isWritable_array {elements : List Json} (h : ∀ element ∈ elements, IsWritable element) :
    IsWritable (.array elements) :=
  ⟨.array fun element helement ↦ (h element helement).inRange,
    areReadable_iff.mpr fun element helement ↦ (h element helement).isReadable⟩

theorem isWritable_record {members : List (String × Json)}
    (h : ∀ member ∈ members, IsWritable member.2) : IsWritable (record members) :=
  ⟨.object (List.forall_mem_map.mpr fun member hmember ↦ (h member hmember).inRange),
    membersReadable_iff.mpr (List.forall_mem_map.mpr fun member hmember ↦
      ⟨rfl, (h member hmember).isReadable⟩)⟩

/-- A document is read back from its text but for its numbers, which are read from their own texts. -/
theorem ofText?_text {document : Json} (h : IsWritable document) :
    ofText? document.text = some document.reread := by
  rw [ofText?, Json.text, String.toList_ofList]
  exact ofCharacters?_of_scans
    (scans_value_characters h.inRange h.isReadable (nesting_le_length h.inRange))

end Formulary.Json

namespace Formulary.Number

/-- A number of at most fifteen digits that is neither very great nor very small is read back from its
text. -/
theorem reread?_of_fewDigits {number : Number} (hfinite : number.isFinite = true)
    (hdigits :
      (significantDigits (shortestDecimal .even number.magnitude).coefficient).length ≤ 15)
    (hlow : -7 ≤ (shortestDecimal .even number.magnitude).order)
    (hhigh : (shortestDecimal .even number.magnitude).order ≤ 14) :
    number.reread? = some number := by
  obtain ⟨digits, fraction, power, hlayout, hscans, hbegins⟩ := Json.exists_scans_scalar_write hfinite
  obtain ⟨hcoefficient, hexponent⟩ := hlayout.fewDigits isDigit_of_mem_significantDigits
    (significantDigits_ne_nil _) hdigits hlow hhigh
  rw [Json.reread?_of_scans hfinite hscans hbegins,
    Json.ofNumeral_of_fewDigits hlayout.shown hcoefficient hexponent, decode?, ofDecimal,
    hlayout.nearestMagnitude_eq (of_decide_eq_true hfinite), ofMagnitude]
  simp only [Nat.min_eq_left number.le_infinite]

/-- Seventeen digits can be too many. -/
example : (ofDecimal false ⟨51248178375505404, -15⟩).reread? =
    some (ofDecimal false ⟨51248178375505410, -15⟩) := by
  decide +kernel

end Formulary.Number
