import Formulary.Proofs.Lists
import Formulary.Proofs.Token.Movement
/-!
How numerals are spelled. A numeral is a sign or none, some digits, a point with any number of digits
or none, and an exponent or none (`Numeral.HasSpelling`). Whatever is read as a numeral is spelled like
this (`exists_spelling_of_readNumeral`), and what is spelled like this is read as the numeral in front
of anything that cannot belong to one (`readNumeral_of_hasSpelling`). So a numeral that a delimiter
comes after is a word of its own, which denotes the same numeral wherever it stands. Main definitions:
`Numeral.HasSpelling`, `writtenNumeral`, the word of a sign, a whole part and a fraction, and
`numeral?`, the numeral that a whole word denotes.
-/

set_option autoImplicit false
set_option relaxedAutoImplicit false

namespace Formulary

open Text Place

/-! ### Spelling -/

/-- Some digits, of which there is at least one. -/
def IsDigits (digits : List Char) : Prop :=
  digits ≠ [] ∧ ∀ digit ∈ digits, digit.isDigit = true

theorem IsDigits.isDigit_head {digits : List Char} (h : IsDigits digits) (text : List Char) :
    ∀ character ∈ (digits ++ text).head?, character.isDigit = true := by
  obtain ⟨digit, others, rfl⟩ := List.exists_cons_of_ne_nil h.1
  rintro _ ⟨⟩
  exact h.2 digit List.mem_cons_self

/-- The word of a sign, the digits before the point and those after it, if there is one. -/
def writtenNumeral (negative : Bool) (whole : List Char) (fraction : Option (List Char)) :
    List Char :=
  (if negative then ['-'] else []) ++ (whole ++ fraction.elim [] ('.' :: ·))

/-- How an exponent is spelled: not at all, or with its mark, a sign or none, and some digits. -/
inductive SpellsExponent : Option (Bool × List Char) → List Char → Prop
  | absent : SpellsExponent none []
  | plain {mark : Char} {digits : List Char} (hmark : mark = 'e' ∨ mark = 'E')
      (hdigits : IsDigits digits) : SpellsExponent (some (false, digits)) (mark :: digits)
  | plus {mark : Char} {digits : List Char} (hmark : mark = 'e' ∨ mark = 'E')
      (hdigits : IsDigits digits) : SpellsExponent (some (false, digits)) (mark :: '+' :: digits)
  | minus {mark : Char} {digits : List Char} (hmark : mark = 'e' ∨ mark = 'E')
      (hdigits : IsDigits digits) : SpellsExponent (some (true, digits)) (mark :: '-' :: digits)

/-- A word spells a numeral: its sign, the digits before the point, the point and the digits after it if
there is one, and the exponent. -/
structure Numeral.HasSpelling (numeral : Numeral) (word : List Char) : Prop where
  isDigits_whole : IsDigits numeral.whole
  isDigit_fraction : ∀ places ∈ numeral.fraction, ∀ digit ∈ places, digit.isDigit = true
  spelled : ∃ exponent, SpellsExponent numeral.exponent exponent ∧
    word = writtenNumeral numeral.negative numeral.whole numeral.fraction ++ exponent

theorem isNumeralCharacter_of_mem_writtenNumeral {negative : Bool} {whole : List Char}
    {fraction : Option (List Char)} (hwhole : ∀ digit ∈ whole, digit.isDigit = true)
    (hfraction : ∀ places ∈ fraction, ∀ digit ∈ places, digit.isDigit = true) :
    ∀ character ∈ writtenNumeral negative whole fraction, isNumeralCharacter character = true := by
  intro character hcharacter
  rcases List.mem_append.mp hcharacter with hsign | hunsigned
  · cases negative with
    | true =>
      obtain rfl := List.mem_singleton.mp hsign
      decide
    | false => exact absurd hsign List.not_mem_nil
  · rcases List.mem_append.mp hunsigned with hdigit | hrest
    · exact isNumeralCharacter_of_isDigit character (hwhole character hdigit)
    · cases fraction with
      | none => exact absurd hrest List.not_mem_nil
      | some places =>
        rcases List.mem_cons.mp hrest with rfl | hdigit
        · decide
        · exact isNumeralCharacter_of_isDigit character (hfraction places rfl character hdigit)

theorem SpellsExponent.isNumeralCharacter_of_mem {exponent : Option (Bool × List Char)}
    {word : List Char} (h : SpellsExponent exponent word) :
    ∀ character ∈ word, isNumeralCharacter character = true := by
  have hmarked {mark : Char} (hmark : mark = 'e' ∨ mark = 'E') :
      isNumeralCharacter mark = true := by
    rcases hmark with rfl | rfl <;> decide
  have hdigits {digits : List Char} (hsome : IsDigits digits) :
      ∀ digit ∈ digits, isNumeralCharacter digit = true :=
    fun digit hdigit ↦ isNumeralCharacter_of_isDigit digit (hsome.2 digit hdigit)
  cases h with
  | absent => simp
  | plain hmark hsome => exact List.forall_mem_cons.mpr ⟨hmarked hmark, hdigits hsome⟩
  | plus hmark hsome | minus hmark hsome =>
    exact List.forall_mem_cons.mpr
      ⟨hmarked hmark, List.forall_mem_cons.mpr ⟨by decide, hdigits hsome⟩⟩

/-- The word of some parts spells the numeral of these parts. -/
theorem hasSpelling_writtenNumeral {negative : Bool} {whole : List Char}
    {fraction : Option (List Char)} (hwhole : IsDigits whole)
    (hfraction : ∀ places ∈ fraction, ∀ digit ∈ places, digit.isDigit = true) :
    (Numeral.mk negative whole fraction none).HasSpelling (writtenNumeral negative whole fraction) :=
  ⟨hwhole, hfraction, [], .absent, (List.append_nil _).symm⟩

namespace Numeral.HasSpelling

variable {numeral : Numeral} {word : List Char}

theorem ne_nil (h : numeral.HasSpelling word) : word ≠ [] := by
  obtain ⟨exponent, -, rfl⟩ := h.spelled
  simp [writtenNumeral, h.isDigits_whole.1]

theorem isNumeralCharacter_of_mem (h : numeral.HasSpelling word) :
    ∀ character ∈ word, isNumeralCharacter character = true := by
  obtain ⟨exponent, hexponent, rfl⟩ := h.spelled
  exact List.forall_mem_append.mpr
    ⟨isNumeralCharacter_of_mem_writtenNumeral h.isDigits_whole.2 h.isDigit_fraction,
      hexponent.isNumeralCharacter_of_mem⟩

/-- A numeral without fraction and exponent is spelled with a sign or none and with digits. -/
theorem eq_of_isInteger (h : numeral.HasSpelling word) (hinteger : numeral.isInteger = true) :
    word = writtenNumeral numeral.negative numeral.whole none := by
  obtain ⟨exponent, hexponent, rfl⟩ := h.spelled
  simp only [isInteger, Bool.and_eq_true, Option.isNone_iff_eq_none] at hinteger
  rw [hinteger.2] at hexponent
  cases hexponent
  rw [hinteger.1, List.append_nil]

end Numeral.HasSpelling

/-! ### What is read is spelled -/

variable {place after : Place}

theorem rest_eq_run_append (place : Place) (inClass : Char → Bool) :
    place.rest = place.run inClass ++ (place.skip inClass).rest := by
  rw [skip_eq]
  exact List.takeWhile_append_dropWhile.symm

theorem isDigit_of_mem_run (place : Place) :
    ∀ digit ∈ place.run Char.isDigit, digit.isDigit = true :=
  List.all_eq_true.mp List.all_takeWhile

theorem spelling_of_readFraction (place : Place) :
    place.rest = (readFraction place).1.elim [] ('.' :: ·) ++ (readFraction place).2.rest ∧
      ∀ places ∈ (readFraction place).1, ∀ digit ∈ places, digit.isDigit = true := by
  cases hpoint : place.eat? ['.'] with
  | none =>
    simp [readFraction, hpoint]
  | some pointed =>
    simp only [readFraction, hpoint, Option.elim_some, Option.mem_some_iff]
    refine ⟨?_, ?_⟩
    · rw [(eat?_eq_some hpoint).1]
      exact congrArg ('.' :: ·) (rest_eq_run_append pointed Char.isDigit)
    · rintro _ rfl
      exact isDigit_of_mem_run pointed

theorem exists_spelling_of_readExponent {exponent : Option (Bool × List Char)}
    (h : readExponent place = .ok (exponent, after)) :
    ∃ word, SpellsExponent exponent word ∧ place.rest = word ++ after.rest := by
  unfold readExponent at h
  split at h
  · obtain ⟨rfl, rfl⟩ : none = exponent ∧ place = after := by simpa using h
    exact ⟨[], .absent, rfl⟩
  · rename_i marked hmark
    obtain ⟨mark, hmarked, hrest⟩ :
        ∃ mark, (mark = 'e' ∨ mark = 'E') ∧ place.rest = mark :: marked.rest := by
      rw [Option.orElse_eq_orElse, Option.orElse_eq_or, Option.or_eq_some_iff] at hmark
      rcases hmark with hlower | ⟨-, hupper⟩
      · exact ⟨'e', .inl rfl, (eat?_eq_some hlower).1⟩
      · exact ⟨'E', .inr rfl, (eat?_eq_some hupper).1⟩
    dsimp only at h
    split at h
    · cases h
    · rename_i hdigits
      obtain ⟨rfl, rfl⟩ := Prod.mk.inj (Except.ok.inj h)
      have hsome : IsDigits ((readExponentSign marked).2.run Char.isDigit) :=
        ⟨mt List.isEmpty_iff.mpr hdigits, isDigit_of_mem_run _⟩
      have hsplit := rest_eq_run_append (readExponentSign marked).2 Char.isDigit
      cases hminus : marked.eat? ['-'] with
      | some signed =>
        simp only [readExponentSign, hminus] at hsome hsplit ⊢
        refine ⟨_, .minus hmarked hsome, ?_⟩
        rw [hrest, (eat?_eq_some hminus).1, hsplit]
        rfl
      | none =>
        cases hplus : marked.eat? ['+'] with
        | some signed =>
          simp only [readExponentSign, hminus, hplus, Option.getD_some] at hsome hsplit ⊢
          refine ⟨_, .plus hmarked hsome, ?_⟩
          rw [hrest, (eat?_eq_some hplus).1, hsplit]
          rfl
        | none =>
          simp only [readExponentSign, hminus, hplus, Option.getD_none] at hsome hsplit ⊢
          refine ⟨_, .plain hmarked hsome, ?_⟩
          rw [hrest, hsplit]
          rfl

/-- What is read as a numeral spells it. -/
theorem exists_spelling_of_readNumeral {numeral : Numeral}
    (h : readNumeral place = .ok (numeral, after)) :
    ∃ word, numeral.HasSpelling word ∧ place.rest = word ++ after.rest := by
  have hsign : place.rest = (if (place.eat? ['-']).isSome then ['-'] else []) ++
      ((place.eat? ['-']).getD place).rest := by
    cases hminus : place.eat? ['-'] with
    | none => rfl
    | some unsigned => exact (eat?_eq_some hminus).1
  have hwhole := rest_eq_run_append ((place.eat? ['-']).getD place) Char.isDigit
  obtain ⟨hfraction, hplaces⟩ :=
    spelling_of_readFraction (((place.eat? ['-']).getD place).skip Char.isDigit)
  simp only [readNumeral] at h
  split at h
  · cases h
  · rename_i hdigits
    split at h
    · cases h
    · rename_i exponent last hexponent
      obtain ⟨rfl, rfl⟩ := Prod.mk.inj (Except.ok.inj h)
      obtain ⟨word, hspells, hrest⟩ := exists_spelling_of_readExponent hexponent
      have hsome := mt List.isEmpty_iff.mpr hdigits
      refine ⟨_, ⟨⟨hsome, isDigit_of_mem_run _⟩, hplaces, word, hspells, rfl⟩, ?_⟩
      rw [hsign, hwhole, hfraction, hrest]
      simp only [writtenNumeral, List.append_assoc]

/-! ### What is spelled is read -/

theorem eat?_singleton_eq_none {character : Char}
    (h : ∀ first ∈ place.rest.head?, first ≠ character) : place.eat? [character] = none := by
  refine eat?_eq_none_iff.mpr ?_
  rintro ⟨rest, hrest⟩
  exact h character (by rw [← hrest]; rfl) rfl

theorem run_append {place : Place} {digits text : List Char} (hplace : place.rest = digits ++ text)
    (hdigits : ∀ digit ∈ digits, digit.isDigit = true)
    (htext : ∀ character ∈ text.head?, character.isDigit = false) :
    place.run Char.isDigit = digits ∧ (place.skip Char.isDigit).rest = text := by
  obtain ⟨hrun, hskip⟩ := span_append hdigits htext
  rw [skip_eq, run, hplace]
  exact ⟨hrun, hskip⟩

theorem readSign_written {negative : Bool} {text : List Char}
    (hplace : place.rest = (if negative then ['-'] else []) ++ text)
    (htext : ∀ character ∈ text.head?, character ≠ '-') :
    (place.eat? ['-']).isSome = negative ∧ ((place.eat? ['-']).getD place).rest = text := by
  cases negative with
  | true =>
    obtain ⟨unsigned, heaten, hrest⟩ := @exists_eat?_of_rest place ['-'] text hplace
    rw [heaten]
    exact ⟨rfl, hrest⟩
  | false =>
    rw [eat?_singleton_eq_none (by rwa [hplace])]
    exact ⟨rfl, hplace⟩

theorem readFraction_written {fraction : Option (List Char)} {text : List Char}
    (hplace : place.rest = fraction.elim [] ('.' :: ·) ++ text)
    (hfraction : ∀ places ∈ fraction, ∀ digit ∈ places, digit.isDigit = true)
    (htext : ∀ character ∈ text.head?, character.isDigit = false ∧ character ≠ '.') :
    (readFraction place).1 = fraction ∧ (readFraction place).2.rest = text := by
  cases fraction with
  | none =>
    have hpoint : place.eat? ['.'] = none :=
      eat?_singleton_eq_none (by rw [hplace]; exact fun first hfirst ↦ (htext first hfirst).2)
    rw [readFraction, hpoint]
    exact ⟨rfl, hplace⟩
  | some places =>
    obtain ⟨pointed, heaten, hrest⟩ := @exists_eat?_of_rest place ['.'] (places ++ text) hplace
    obtain ⟨hrun, hskip⟩ :=
      run_append hrest (hfraction places rfl) fun first hfirst ↦ (htext first hfirst).1
    rw [readFraction, heaten]
    exact ⟨congrArg some hrun, hskip⟩

/-- What is no character of a numeral is no digit. -/
theorem not_isDigit_of_not_isNumeralCharacter {text : List Char}
    (htext : ∀ character ∈ text.head?, isNumeralCharacter character = false) :
    ∀ character ∈ text.head?, character.isDigit = false := by
  intro character hcharacter
  have hnot := htext character hcharacter
  simp only [isNumeralCharacter, Bool.or_eq_false_iff] at hnot
  exact hnot.1

section Behind

variable {text : List Char} (htext : ∀ character ∈ text.head?, isNumeralCharacter character = false)

include htext

/-- In front of what cannot belong to a numeral, an exponent is read as it is spelled. -/
theorem readExponent_spelled {exponent : Option (Bool × List Char)} {word : List Char}
    (h : SpellsExponent exponent word) (hplace : place.rest = word ++ text) :
    ∃ after, readExponent place = .ok (exponent, after) ∧ after.rest = text := by
  have hnone {other : Place} {character : Char} (hother : other.rest = text)
      (hcharacter : isNumeralCharacter character = true) : other.eat? [character] = none := by
    refine eat?_singleton_eq_none fun first hfirst ↦ ?_
    rintro rfl
    rw [htext first (hother ▸ hfirst)] at hcharacter
    cases hcharacter
  have hmarked {mark : Char} {others : List Char} (hmark : mark = 'e' ∨ mark = 'E')
      (hrest : place.rest = mark :: others) :
      ∃ marked, (place.eat? ['e'] <|> place.eat? ['E']) = some marked ∧ marked.rest = others := by
    obtain ⟨marked, heaten, hmarked⟩ := @exists_eat?_of_rest place [mark] others hrest
    refine ⟨marked, ?_, hmarked⟩
    rcases hmark with rfl | rfl
    · rw [heaten]
      rfl
    · rw [heaten, eat?_singleton_eq_none (by rw [hrest]; rintro first ⟨⟩; decide)]
      rfl
  have hread {marked signed : Place} {negative : Bool} {digits : List Char}
      (heaten : (place.eat? ['e'] <|> place.eat? ['E']) = some marked) (hsome : IsDigits digits)
      (hsign : readExponentSign marked = (negative, signed))
      (hsigned : signed.rest = digits ++ text) :
      ∃ after, readExponent place = .ok (some (negative, digits), after) ∧ after.rest = text := by
    obtain ⟨hrun, hskip⟩ := run_append hsigned hsome.2 (not_isDigit_of_not_isNumeralCharacter htext)
    refine ⟨_, ?_, hskip⟩
    simp only [readExponent, heaten, hsign, hrun, List.isEmpty_iff, hsome.1, if_false]
  cases h with
  | absent =>
    refine ⟨place, ?_, hplace⟩
    rw [readExponent, hnone hplace (by decide), hnone hplace (by decide)]
    rfl
  | plain hmark hsome =>
    obtain ⟨marked, heaten, hrest⟩ := hmarked hmark hplace
    have hsign {sign : Char} (hsign : sign.isDigit = false) : marked.eat? [sign] = none := by
      refine eat?_singleton_eq_none fun first hfirst ↦ ?_
      rintro rfl
      rw [hrest] at hfirst
      rw [hsome.isDigit_head text first hfirst] at hsign
      cases hsign
    exact hread heaten hsome (by rw [readExponentSign, hsign rfl, hsign rfl]; rfl) hrest
  | plus hmark hsome =>
    obtain ⟨marked, heaten, hrest⟩ := hmarked hmark hplace
    obtain ⟨signed, hplus, hsigned⟩ := @exists_eat?_of_rest marked ['+'] _ hrest
    have hminus : marked.eat? ['-'] = none :=
      eat?_singleton_eq_none (by rw [hrest]; rintro first ⟨⟩; decide)
    exact hread heaten hsome (by rw [readExponentSign, hminus, hplus]; rfl) hsigned
  | minus hmark hsome =>
    obtain ⟨marked, heaten, hrest⟩ := hmarked hmark hplace
    obtain ⟨signed, hminus, hsigned⟩ := @exists_eat?_of_rest marked ['-'] _ hrest
    exact hread heaten hsome (by rw [readExponentSign, hminus]) hsigned

/-- An exponent begins with its mark, and where there is none, no digit and no point comes next. -/
theorem SpellsExponent.head_append {exponent : Option (Bool × List Char)} {word : List Char}
    (h : SpellsExponent exponent word) :
    ∀ character ∈ (word ++ text).head?, character.isDigit = false ∧ character ≠ '.' := by
  cases h with
  | absent =>
    intro character hcharacter
    refine ⟨not_isDigit_of_not_isNumeralCharacter htext character hcharacter, ?_⟩
    rintro rfl
    cases htext _ hcharacter
  | plain hmark | plus hmark | minus hmark =>
    rintro character ⟨⟩
    rcases hmark with rfl | rfl <;> decide

/-- In front of what cannot belong to a numeral, a numeral is read as it is spelled. -/
theorem readNumeral_of_hasSpelling {numeral : Numeral} {word : List Char}
    (h : numeral.HasSpelling word) (hplace : place.rest = word ++ text) :
    ∃ after, readNumeral place = .ok (numeral, after) ∧ after.rest = text := by
  obtain ⟨hwhole, hfraction, exponent, hexponent, rfl⟩ := h
  have hbehind := hexponent.head_append htext
  have hpoint : ∀ character ∈ (numeral.fraction.elim [] ('.' :: ·) ++ (exponent ++ text)).head?,
      character.isDigit = false := by
    cases numeral.fraction with
    | none => exact fun character hcharacter ↦ (hbehind character hcharacter).1
    | some places =>
      rintro character ⟨⟩
      rfl
  have hhead : ∀ character ∈ (numeral.whole ++
      (numeral.fraction.elim [] ('.' :: ·) ++ (exponent ++ text))).head?, character ≠ '-' := by
    rintro character hcharacter rfl
    cases hwhole.isDigit_head _ _ hcharacter
  rw [writtenNumeral, List.append_assoc, List.append_assoc, List.append_assoc] at hplace
  obtain ⟨hnegative, hunsigned⟩ := readSign_written hplace hhead
  obtain ⟨hrun, hskip⟩ := run_append hunsigned hwhole.2 hpoint
  obtain ⟨hplaces, hrest⟩ := readFraction_written hskip hfraction hbehind
  obtain ⟨after, hread, hafter⟩ := readExponent_spelled htext hexponent hrest
  refine ⟨after, ?_, hafter⟩
  simp only [readNumeral, hnegative, hrun, List.isEmpty_iff, hwhole.1, if_false, hread, hplaces]

end Behind

/-! ### Numerals as words -/

/-- The numeral that a word denotes as a whole. -/
def numeral? (word : List Char) : Option Numeral :=
  match readNumeral (Place.start word) with
  | .ok (numeral, after) => if after.isAtEnd then some numeral else none
  | .error _ => none

theorem numeral?_eq_some_iff {word : List Char} {numeral : Numeral} :
    numeral? word = some numeral ↔
      ∃ after, readNumeral (Place.start word) = .ok (numeral, after) ∧ after.rest = [] := by
  unfold numeral?
  cases hread : readNumeral (Place.start word) with
  | error => simp
  | ok read =>
    obtain ⟨found, after⟩ := read
    by_cases hend : after.rest = []
    · simp only [Place.isAtEnd, hend, List.isEmpty_nil, if_true, Option.some.injEq,
        Except.ok.injEq, Prod.mk.injEq]
      exact ⟨fun h ↦ ⟨after, ⟨h, rfl⟩, hend⟩, fun ⟨_, h, _⟩ ↦ h.1⟩
    · simp only [Place.isAtEnd, List.isEmpty_iff, hend, if_false, reduceCtorEq, false_iff]
      rintro ⟨_, hsame, hrest⟩
      obtain ⟨-, rfl⟩ : found = numeral ∧ after = _ := by simpa using hsame
      exact hend hrest

/-- A word denotes the numeral that it spells. -/
theorem numeral?_eq_some_iff_hasSpelling {word : List Char} {numeral : Numeral} :
    numeral? word = some numeral ↔ numeral.HasSpelling word := by
  rw [numeral?_eq_some_iff]
  constructor
  · rintro ⟨after, hread, hrest⟩
    obtain ⟨spelling, hspells, hword⟩ := exists_spelling_of_readNumeral hread
    obtain rfl : word = spelling := by rwa [hrest, List.append_nil] at hword
    exact hspells
  · intro hspells
    exact @readNumeral_of_hasSpelling (Place.start word) [] (by simp) _ _ hspells
      (List.append_nil word).symm

theorem numeral?_writtenNumeral {negative : Bool} {whole : List Char}
    {fraction : Option (List Char)} (hsome : whole ≠ [])
    (hwhole : ∀ digit ∈ whole, digit.isDigit = true)
    (hfraction : ∀ places ∈ fraction, ∀ digit ∈ places, digit.isDigit = true) :
    numeral? (writtenNumeral negative whole fraction) =
      some ⟨negative, whole, fraction, none⟩ :=
  numeral?_eq_some_iff_hasSpelling.mpr (hasSpelling_writtenNumeral ⟨hsome, hwhole⟩ hfraction)

theorem not_isNumeralCharacter_of_isDelimited {text : List Char} (h : isDelimited text = true) :
    ∀ character ∈ text.head?, isNumeralCharacter character = false := by
  intro character hhead
  obtain ⟨rest, rfl⟩ := List.head?_eq_some_iff.mp hhead
  refine Bool.eq_false_iff.mpr fun hnumeral ↦ ?_
  have hword := isWordCharacter_of_isNumeralCharacter hnumeral
  rw [not_isWordCharacter_of_isDelimited h] at hword
  cases hword

/-- What is read as a numeral denotes it as a whole. -/
theorem numeral?_of_readNumeral {numeral : Numeral} (h : readNumeral place = .ok (numeral, after)) :
    ∃ word, word ≠ [] ∧ (∀ character ∈ word, isNumeralCharacter character = true) ∧
      place.rest = word ++ after.rest ∧ numeral? word = some numeral := by
  obtain ⟨word, hspells, hrest⟩ := exists_spelling_of_readNumeral h
  exact ⟨word, hspells.ne_nil, hspells.isNumeralCharacter_of_mem, hrest,
    numeral?_eq_some_iff_hasSpelling.mpr hspells⟩

/-- A word that denotes a numeral is read as the numeral in front of a delimiter. -/
theorem readNumeral_of_numeral? {word text : List Char} {numeral : Numeral}
    (h : numeral? word = some numeral) (hends : isDelimited text = true) (offset : Nat) :
    ∃ after, readNumeral ⟨offset, word ++ text⟩ = .ok (numeral, after) ∧ after.rest = text :=
  readNumeral_of_hasSpelling (not_isNumeralCharacter_of_isDelimited hends)
    (numeral?_eq_some_iff_hasSpelling.mp h) rfl

end Formulary
