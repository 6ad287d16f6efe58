import Formulary.Proofs.ArgType.Language
/-!
Written types. The written form of a type is an expression of it, if every choice in the type has
alternatives (`isExpression_characters`), and so it is read back as the type. If some choice has none,
the reading comes to the first such choice before anything else can be wrong with the form, since
whatever stands before it is written properly: it is refused for the missing alternatives
(`readType_of_hasEmptyUnion`). Both together say what becomes of every written type (`ofText_text`).
-/

set_option autoImplicit false
set_option relaxedAutoImplicit false

namespace Formulary.ArgType

open Text Place

/-! ### Written forms are expressions -/

theorem isToken_self (token : List Char) : IsToken token token :=
  isToken_of_blanks areBlanks_nil

theorem characters_union (alternatives : List ArgType) :
    (union alternatives).characters = "Union".toList ++ ['['] ++ charactersOfAll alternatives ++ [']'] :=
  rfl

theorem characters_list (element : ArgType) :
    element.list.characters = "List".toList ++ ['['] ++ element.characters ++ [']'] :=
  rfl

theorem charactersOfAll_cons (type : ArgType) {types : List ArgType} (h : types ≠ []) :
    charactersOfAll (type :: types) = type.characters ++ [',', ' '] ++ charactersOfAll types := by
  cases types with
  | nil => exact absurd rfl h
  | cons other types =>
    rw [charactersOfAll, List.append_assoc]
    · rfl
    · exact h

/-- A comma with a space behind it is a token. -/
theorem isToken_comma : IsToken [','] [',', ' '] :=
  ⟨[], [' '], areBlanks_nil, List.forall_mem_singleton.mpr rfl, rfl⟩

mutual

/-- A type whose choices all have alternatives is expressed by its written form. -/
theorem isExpression_characters :
    (type : ArgType) → type.hasEmptyUnion = false → IsExpression type type.characters
  | .series, _ => .series (isToken_self _)
  | .scalar kind, _ => by
    have hown : kind.name ∈ kind.typeNames := by cases kind <;> decide
    exact .scalar hown (isToken_self _)
  | .union alternatives, h => by
    rw [hasEmptyUnion, Bool.or_eq_false_iff, List.isEmpty_eq_false_iff] at h
    exact .union (isToken_self _) (isToken_self _)
      (areExpressions_charactersOfAll alternatives h.1 h.2) (isToken_self _)
  | .list element, h =>
    .list (isToken_self _) (isToken_self _) (isExpression_characters element h) (isToken_self _)

theorem areExpressions_charactersOfAll : (types : List ArgType) → types ≠ [] →
    anyHasEmptyUnion types = false → AreExpressions types (charactersOfAll types)
  | [], hsome, _ => absurd rfl hsome
  | [type], _, h => by
    rw [anyHasEmptyUnion, Bool.or_eq_false_iff] at h
    exact .last (isExpression_characters type h.1)
  | type :: other :: types, _, h => by
    rw [anyHasEmptyUnion, Bool.or_eq_false_iff] at h
    rw [charactersOfAll_cons type (List.cons_ne_nil other types)]
    exact .more (isExpression_characters type h.1) isToken_comma
      (areExpressions_charactersOfAll (other :: types) (List.cons_ne_nil other types) h.2)

end

/-! ### Choices without alternatives -/

/-- Whatever a type is, its written form begins with a name. -/
theorem beginsWithName_characters (type : ArgType) : BeginsWithName type.characters := by
  cases type with
  | series => exact (isToken_self _).beginsWithName (by decide)
  | scalar kind => exact (isToken_self _).beginsWithName (by cases kind <;> decide)
  | union alternatives =>
    have hname := (isToken_self "Union".toList).beginsWithName (by decide)
    exact ((hname.append _).append _).append _
  | list element =>
    have hname := (isToken_self "List".toList).beginsWithName (by decide)
    exact ((hname.append _).append _).append _

theorem beginsWithName_charactersOfAll {types : List ArgType} (h : types ≠ []) :
    BeginsWithName (charactersOfAll types) := by
  cases types with
  | nil => exact absurd rfl h
  | cons type types =>
    by_cases hlast : types = []
    · subst hlast
      exact beginsWithName_characters type
    · rw [charactersOfAll_cons type hlast]
      exact ((beginsWithName_characters type).append _).append _

section Refused

variable {place : Place} {rest : List Char} {bound : Nat}

theorem exists_of_fault {fault : TypeFault} (h : readType bound place = .error fault) :
    readAlternatives (bound + 1) place = .error fault := by
  rw [readAlternatives, h]

/-- Brackets with nothing between them are refused behind the name of a union. -/
theorem readType_of_noAlternatives
    (hplace : dropBlanks place.rest = dropBlanks ((union []).characters ++ rest)) :
    readType (bound + 1) place = .error .emptyUnion := by
  rw [characters_union, List.append_assoc, List.append_assoc, List.append_assoc] at hplace
  obtain ⟨after, hafter, hread⟩ := exists_readType_of_name (by decide) (isToken_self _) hplace
    ((isToken_self ['[']).endsNames (by decide) _)
  obtain ⟨inside, hinside, hbehind⟩ :=
    exists_eat?_of_token (by decide) (isToken_self ['[']) hafter
  obtain ⟨last, hlast, -⟩ := exists_eat?_of_token (by decide) (isToken_self [']']) hbehind
  have hnone (readOthers : Place → Except TypeFault (List ArgType × Place)) :
      readParameters readOthers after = .ok ([], last) := by
    simp only [readParameters, hinside, hlast]
  rw [hread, String.ofList_toList, if_pos rfl, hnone]
  rfl

end Refused

mutual

/-- A written form of a type with a choice that has no alternatives is refused for that choice. -/
theorem readType_of_hasEmptyUnion : (type : ArgType) → type.hasEmptyUnion = true →
    ∀ {bound : Nat} {place : Place} {rest : List Char}, 2 * type.characters.length ≤ bound →
      dropBlanks place.rest = dropBlanks (type.characters ++ rest) →
        readType bound place = .error .emptyUnion
  | .series, h, _, _, _, _, _ => absurd h Bool.false_ne_true
  | .scalar kind, h, _, _, _, _, _ => absurd h Bool.false_ne_true
  | .union alternatives, h, bound, place, rest, hbound, hplace => by
    have hlength : (union alternatives).characters.length = (charactersOfAll alternatives).length + 7 := by
      simp [characters_union]
    obtain ⟨bound, rfl⟩ := Nat.exists_eq_add_one_of_ne_zero (by omega : bound ≠ 0)
    by_cases hsome : alternatives = []
    · subst hsome
      exact readType_of_noAlternatives hplace
    · rw [hasEmptyUnion, List.isEmpty_eq_false_iff.mpr hsome, Bool.false_or] at h
      rw [characters_union, List.append_assoc, List.append_assoc, List.append_assoc] at hplace
      obtain ⟨first, hfirst, hread⟩ := exists_readType_of_opening (by decide) (isToken_self _)
        (isToken_self _) (beginsWithName_charactersOfAll hsome) hplace
      have henough : 2 * (charactersOfAll alternatives).length + 1 ≤ bound := by omega
      rw [hread, String.ofList_toList, if_pos rfl,
        readAlternatives_of_anyHasEmptyUnion alternatives h henough hfirst]
      rfl
  | .list element, h, bound, place, rest, hbound, hplace => by
    have hlength : element.list.characters.length = element.characters.length + 6 := by
      simp [characters_list]
    obtain ⟨bound, rfl⟩ := Nat.exists_eq_add_of_le (by omega : 2 ≤ bound)
    rw [characters_list, List.append_assoc, List.append_assoc, List.append_assoc] at hplace
    obtain ⟨first, hfirst, hread⟩ := exists_readType_of_opening (by decide) (isToken_self _)
      (isToken_self _) (beginsWithName_characters element) hplace
    have henough : 2 * element.characters.length ≤ bound := by omega
    have helement := readType_of_hasEmptyUnion element h henough hfirst
    rw [Nat.add_comm, hread, String.ofList_toList, if_neg (by decide), if_pos rfl,
      exists_of_fault helement]
    rfl

theorem readAlternatives_of_anyHasEmptyUnion : (types : List ArgType) → anyHasEmptyUnion types = true →
    ∀ {bound : Nat} {place : Place} {rest : List Char}, 2 * (charactersOfAll types).length + 1 ≤ bound →
      dropBlanks place.rest = dropBlanks (charactersOfAll types ++ rest) →
        readAlternatives bound place = .error .emptyUnion
  | [], h, _, _, _, _, _ => absurd h Bool.false_ne_true
  | type :: types, h, bound, place, rest, hbound, hplace => by
    by_cases hlast : types = []
    · subst hlast
      rw [anyHasEmptyUnion, anyHasEmptyUnion, Bool.or_false] at h
      obtain ⟨bound, rfl⟩ := Nat.exists_eq_add_one_of_ne_zero (Nat.ne_zero_of_lt hbound)
      have henough : 2 * type.characters.length ≤ bound := Nat.le_of_succ_le_succ hbound
      exact exists_of_fault (readType_of_hasEmptyUnion type h henough hplace)
    · rw [charactersOfAll_cons type hlast, List.length_append, List.length_append] at hbound
      rw [charactersOfAll_cons type hlast, List.append_assoc, List.append_assoc] at hplace
      obtain ⟨bound, rfl⟩ := Nat.exists_eq_add_one_of_ne_zero (Nat.ne_zero_of_lt hbound)
      have henough : 2 * type.characters.length ≤ bound := by omega
      by_cases hown : type.hasEmptyUnion = true
      · exact exists_of_fault (readType_of_hasEmptyUnion type hown henough hplace)
      · -- The first type is read, so that the fault is that of the others behind the comma.
        have hfine := Bool.eq_false_iff.mpr hown
        rw [anyHasEmptyUnion, hfine, Bool.false_or] at h
        obtain ⟨after, hfirst, hafter⟩ := readType_of_isExpression (isExpression_characters type hfine)
          henough hplace (isToken_comma.endsNames (by decide) _)
        obtain ⟨next, hnext, hread⟩ := exists_readAlternatives_of_comma hfirst isToken_comma hafter
        have henough : 2 * (charactersOfAll types).length + 1 ≤ bound := by
          rw [List.length_cons] at hbound
          omega
        rw [hread, readAlternatives_of_anyHasEmptyUnion types h henough hnext]
        rfl

end

/-! ### The round trip -/

/-- A written type is read back as the type if all of its choices have alternatives, and is refused for
a choice without alternatives if it has one. -/
theorem ofText_text (type : ArgType) :
    ofText type.text = if type.hasEmptyUnion then .error .emptyUnion else .ok type := by
  by_cases h : type.hasEmptyUnion = true
  · have hplace : dropBlanks (Place.start type.characters).rest = dropBlanks (type.characters ++ []) := by
      rw [List.append_nil]
      rfl
    have hread := readType_of_hasEmptyUnion type h (Nat.le_add_right _ 1) hplace
    simp only [ofText, text, String.toList_ofList, hread, h, if_true]
  · have hfine := Bool.eq_false_iff.mpr h
    have hexpression := isExpression_characters type hfine
    rw [← String.toList_ofList (l := type.characters)] at hexpression
    rw [hfine]
    exact ofText_of_isExpression hexpression

/-- The choice that comes first in the text is met, though another one stands around it. -/
example : ofText (union [.series, .list (.union []), .union []]).text = .error .emptyUnion := by
  rfl

end Formulary.ArgType
