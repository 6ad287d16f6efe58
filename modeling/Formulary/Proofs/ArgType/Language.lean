import Formulary.Proofs.ArgType.Grammar
/-!
The language of type expressions. The reader accepts the expressions of the grammar and no other texts,
gives the type that they express, and always comes to an end (`ofText_iff_isExpression`). That
expressions are read needs more than that what is read is an expression. A name ends where no character
of a name follows, so what stands behind an expression must not begin with one (`EndsNames`); and the
blanks behind the last token are left to whoever reads on, so that what remains is known up to leading
blanks only (`readType_of_isExpression`).
-/

set_option autoImplicit false
set_option relaxedAutoImplicit false

namespace Formulary.ArgType

open Text Place

/-! ### Names and marks -/

/-- A text does not go on with a character of a name. -/
def EndsNames (text : List Char) : Prop :=
  ∀ character ∈ text.head?, isNameCharacter character = false

theorem endsNames_nil : EndsNames [] := by
  rintro _ ⟨⟩

theorem endsNames_cons {character : Char} (h : isNameCharacter character = false) (rest : List Char) :
    EndsNames (character :: rest) := by
  rintro _ ⟨⟩
  exact h

theorem EndsNames.append {blanks rest : List Char} (hblanks : AreBlanks blanks) (h : EndsNames rest) :
    EndsNames (blanks ++ rest) := by
  cases blanks with
  | nil => exact h
  | cons character blanks =>
    exact endsNames_cons (isNameCharacter_of_isBlank (hblanks character List.mem_cons_self)) _

/-- A mark ends a name that stands before it. -/
theorem IsToken.endsNames {mark : Char} {text : List Char} (h : IsToken [mark] text)
    (hmark : isNameCharacter mark = false) (rest : List Char) : EndsNames (text ++ rest) := by
  obtain ⟨before, behind, hbefore, -, rfl⟩ := h
  rw [List.append_assoc, List.append_assoc]
  exact (endsNames_cons hmark _).append hbefore

/-- A name: characters of names, one at least. -/
def IsName (name : List Char) : Prop :=
  name ≠ [] ∧ name.all isNameCharacter = true

instance (name : List Char) : Decidable (IsName name) :=
  inferInstanceAs (Decidable (_ ∧ _))

theorem isName_of_mem_typeNames {kind : Scalar} {own : String} (h : own ∈ kind.typeNames) :
    IsName own.toList := by
  cases kind <;> simp only [Scalar.typeNames, List.mem_cons, List.not_mem_nil, or_false] at h <;>
    rcases h with rfl | rfl <;> decide

theorem IsToken.length_le {token text : List Char} (h : IsToken token text) :
    token.length ≤ text.length := by
  obtain ⟨before, behind, -, -, rfl⟩ := h
  simp only [List.length_append]
  omega

section Tokens

variable {place : Place} {text rest : List Char}

/-- The name that stands next is read, and what stands behind it remains. -/
theorem run_of_token {name : List Char} (hname : IsName name) (htoken : IsToken name text)
    (hplace : dropBlanks place.rest = dropBlanks (text ++ rest)) (hrest : EndsNames rest) :
    (place.skip isBlank).run isNameCharacter = name ∧
      dropBlanks ((place.skip isBlank).skip isNameCharacter).rest = dropBlanks rest := by
  obtain ⟨before, behind, hbefore, hbehind, rfl⟩ := htoken
  obtain ⟨hsome, hall⟩ := hname
  have hstart : (place.skip isBlank).rest = name ++ (behind ++ rest) := by
    rw [Place.rest_skip_isBlank, hplace, List.append_assoc, List.append_assoc, dropBlanks_append hbefore]
    cases name with
    | nil => exact absurd rfl hsome
    | cons character name =>
      exact dropBlanks_cons (isBlank_of_isNameCharacter (List.all_eq_true.mp hall _ List.mem_cons_self)) _
  have hends := hrest.append hbehind
  have htake : (behind ++ rest).takeWhile isNameCharacter = [] := by
    cases hcase : behind ++ rest with
    | nil => rfl
    | cons character others =>
      rw [hcase] at hends
      exact List.takeWhile_cons_of_neg (by simp [hends character rfl])
  have hrun : (place.skip isBlank).run isNameCharacter = name := by
    rw [run, hstart, List.takeWhile_append_of_pos (List.all_eq_true.mp hall), htake, List.append_nil]
  refine ⟨hrun, ?_⟩
  have hsplit := (skip_eq (place.skip isBlank) isNameCharacter)
  have hwhole := @List.takeWhile_append_dropWhile _ isNameCharacter (place.skip isBlank).rest
  rw [run] at hrun
  rw [hrun, hstart] at hwhole
  rw [hsplit]
  dsimp only
  rw [hstart, List.append_cancel_left hwhole, dropBlanks_append hbehind]

/-- The mark that stands next is eaten, and what stands behind it remains. -/
theorem exists_eat?_of_token {mark : Char} (hmark : isBlank mark = false) (htoken : IsToken [mark] text)
    (hplace : dropBlanks place.rest = dropBlanks (text ++ rest)) :
    ∃ eaten, (place.skip isBlank).eat? [mark] = some eaten ∧ dropBlanks eaten.rest = dropBlanks rest := by
  obtain ⟨before, behind, hbefore, hbehind, rfl⟩ := htoken
  have hstart : (place.skip isBlank).rest = [mark] ++ (behind ++ rest) := by
    rw [Place.rest_skip_isBlank, hplace, List.append_assoc, List.append_assoc, dropBlanks_append hbefore]
    exact dropBlanks_cons hmark _
  obtain ⟨eaten, heaten, hbehindMark⟩ := exists_eat?_of_rest hstart
  refine ⟨eaten, heaten, ?_⟩
  rw [hbehindMark, dropBlanks_append hbehind]

end Tokens

/-! ### Expressions begin with names -/

/-- Behind its blanks a text begins with a name. -/
def BeginsWithName (text : List Char) : Prop :=
  ∃ before character others, AreBlanks before ∧ isNameCharacter character = true ∧
    text = before ++ character :: others

theorem BeginsWithName.append {text : List Char} (h : BeginsWithName text) (behind : List Char) :
    BeginsWithName (text ++ behind) := by
  obtain ⟨before, character, others, hbefore, hcharacter, rfl⟩ := h
  refine ⟨before, character, others ++ behind, hbefore, hcharacter, ?_⟩
  rw [List.append_assoc, List.cons_append]

theorem IsToken.beginsWithName {name text : List Char} (h : IsToken name text) (hname : IsName name) :
    BeginsWithName text := by
  obtain ⟨before, behind, hbefore, -, rfl⟩ := h
  obtain ⟨hsome, hall⟩ := hname
  cases name with
  | nil => exact absurd rfl hsome
  | cons character name =>
    refine ⟨before, character, name ++ behind, hbefore,
      List.all_eq_true.mp hall _ List.mem_cons_self, ?_⟩
    rw [List.append_assoc, List.cons_append]

theorem IsExpression.beginsWithName {type : ArgType} {text : List Char} (h : IsExpression type text) :
    BeginsWithName text := by
  cases h with
  | series hname => exact hname.beginsWithName (by decide)
  | scalar hown hname => exact hname.beginsWithName (isName_of_mem_typeNames hown)
  | union hname => exact (((hname.beginsWithName (by decide)).append _).append _).append _
  | list hname => exact (((hname.beginsWithName (by decide)).append _).append _).append _

theorem AreExpressions.beginsWithName {types : List ArgType} {text : List Char}
    (h : AreExpressions types text) : BeginsWithName text := by
  cases h with
  | last htype => exact htype.beginsWithName
  | more htype => exact (htype.beginsWithName.append _).append _

/-! ### Expressions are read -/

section Complete

variable {place : Place} {rest : List Char} {bound : Nat}

/-- What is made of a type whose name is read. -/
theorem exists_readType_of_name {name text : List Char} (hname : IsName name)
    (htoken : IsToken name text) (hplace : dropBlanks place.rest = dropBlanks (text ++ rest))
    (hrest : EndsNames rest) :
    ∃ after, dropBlanks after.rest = dropBlanks rest ∧ ∀ bound, readType (bound + 1) place =
      if String.ofList name = "Union" then unionOf (readParameters (readAlternatives bound) after)
      else if String.ofList name = "List" then listOf (readParameters (readAlternatives bound) after)
      else plainOf (String.ofList name) after := by
  obtain ⟨hrun, hbehind⟩ := run_of_token hname htoken hplace hrest
  refine ⟨_, hbehind, fun bound ↦ ?_⟩
  have hsome : String.ofList name ≠ "" := by
    intro hempty
    exact hname.1 (String.ofList_eq_empty_iff.mp hempty)
  rw [readType_succ]
  dsimp only
  rw [hrun, if_neg hsome]

/-- What is made of a name without parameters. -/
theorem exists_readType_of_plain {name : String} {text : List Char} {type : ArgType}
    (hname : IsName name.toList) (htoken : IsToken name.toList text)
    (hplain : name ≠ "Union" ∧ name ≠ "List" ∧ ∀ after : Place, plainOf name after = .ok (type, after))
    (hplace : dropBlanks place.rest = dropBlanks (text ++ rest)) (hrest : EndsNames rest)
    (hbound : 0 < bound) :
    ∃ after, readType bound place = .ok (type, after) ∧ dropBlanks after.rest = dropBlanks rest := by
  obtain ⟨bound, rfl⟩ := Nat.exists_eq_add_one_of_ne_zero (Nat.ne_zero_of_lt hbound)
  obtain ⟨after, hafter, hread⟩ := exists_readType_of_name hname htoken hplace hrest
  obtain ⟨hunion, hlist, hplain⟩ := hplain
  refine ⟨after, ?_, hafter⟩
  rw [hread, String.ofList_toList, if_neg hunion, if_neg hlist, hplain]

/-- Parameters that begin with a name are read behind their bracket. -/
theorem exists_readParameters_of_opening {opening parameters : List Char}
    (hopening : IsToken ['['] opening) (hparameters : BeginsWithName parameters)
    (hplace : dropBlanks place.rest = dropBlanks (opening ++ (parameters ++ rest))) :
    ∃ first, dropBlanks first.rest = dropBlanks (parameters ++ rest) ∧
      ∀ readOthers, readParameters readOthers place = readOthers first := by
  obtain ⟨inside, hinside, hbehind⟩ := exists_eat?_of_token (by decide) hopening hplace
  obtain ⟨before, character, others, hbefore, hcharacter, rfl⟩ := hparameters
  have hstart : (inside.skip isBlank).rest = character :: (others ++ rest) := by
    rw [Place.rest_skip_isBlank, hbehind, List.append_assoc, dropBlanks_append hbefore]
    exact dropBlanks_cons (isBlank_of_isNameCharacter hcharacter) _
  have hopen : (inside.skip isBlank).eat? [']'] = none := by
    rw [eat?_eq_none_iff, hstart, List.singleton_prefix_cons_iff]
    rintro rfl
    exact absurd hcharacter (by decide)
  refine ⟨inside.skip isBlank, ?_, fun readOthers ↦ ?_⟩
  · rw [hstart, List.append_assoc, dropBlanks_append hbefore, List.cons_append]
  · simp only [readParameters, hinside, hopen]

/-- What is made of a type with parameters, once they are read. -/
theorem exists_readType_of_opening {name text opening parameters : List Char} (hname : IsName name)
    (htoken : IsToken name text) (hopening : IsToken ['['] opening)
    (hparameters : BeginsWithName parameters)
    (hplace : dropBlanks place.rest = dropBlanks (text ++ (opening ++ (parameters ++ rest)))) :
    ∃ first, dropBlanks first.rest = dropBlanks (parameters ++ rest) ∧
      ∀ bound, readType (bound + 1) place =
        if String.ofList name = "Union" then unionOf (readAlternatives bound first)
        else if String.ofList name = "List" then listOf (readAlternatives bound first)
        else readType (bound + 1) place := by
  obtain ⟨after, hafter, hread⟩ :=
    exists_readType_of_name hname htoken hplace (hopening.endsNames (by decide) _)
  obtain ⟨first, hfirst, hothers⟩ := exists_readParameters_of_opening hopening hparameters hafter
  refine ⟨first, hfirst, fun bound ↦ ?_⟩
  rw [hread, hothers]
  split
  · rfl
  · split <;> rfl

/-- Types behind a comma are read after the first one. -/
theorem exists_readAlternatives_of_comma {comma : List Char} {type : ArgType} {after : Place}
    (hfirst : readType bound place = .ok (type, after)) (hcomma : IsToken [','] comma)
    (hafter : dropBlanks after.rest = dropBlanks (comma ++ rest)) :
    ∃ next, dropBlanks next.rest = dropBlanks rest ∧ readAlternatives (bound + 1) place =
      (readAlternatives bound next).map fun (types, last) ↦ (type :: types, last) := by
  obtain ⟨next, hnext, hrest⟩ := exists_eat?_of_token (by decide) hcomma hafter
  refine ⟨next, hrest, ?_⟩
  rw [readAlternatives, hfirst]
  dsimp only
  rw [hnext]
  dsimp only
  cases readAlternatives bound next <;> rfl

/-- A type before a closing bracket is the last one. -/
theorem exists_readAlternatives_of_closing {closing : List Char} {type : ArgType} {after : Place}
    (hfirst : readType bound place = .ok (type, after)) (hclosing : IsToken [']'] closing)
    (hafter : dropBlanks after.rest = dropBlanks (closing ++ rest)) :
    ∃ last, readAlternatives (bound + 1) place = .ok ([type], last) ∧
      dropBlanks last.rest = dropBlanks rest := by
  obtain ⟨last, hlast, hrest⟩ := exists_eat?_of_token (by decide) hclosing hafter
  have hcomma : (after.skip isBlank).eat? [','] = none := by
    rw [eat?_eq_none_iff, (eat?_eq_some hlast).1, List.singleton_append, List.singleton_prefix_cons_iff]
    decide
  refine ⟨last, ?_, hrest⟩
  rw [readAlternatives, hfirst]
  dsimp only
  rw [hcomma, hlast]

end Complete

mutual

/-- An expression of a type is read as the type, and what stands behind it remains. -/
theorem readType_of_isExpression {type : ArgType} {text : List Char} :
    IsExpression type text → ∀ {bound : Nat} {place : Place} {rest : List Char},
      2 * text.length ≤ bound → dropBlanks place.rest = dropBlanks (text ++ rest) → EndsNames rest →
        ∃ after, readType bound place = .ok (type, after) ∧ dropBlanks after.rest = dropBlanks rest
  | .series hname, bound, place, rest, hbound, hplace, hrest => by
    have hlength : 6 ≤ text.length := hname.length_le
    exact exists_readType_of_plain (by decide) hname ⟨by decide, by decide, fun _ ↦ rfl⟩ hplace hrest
      (by omega)
  | @IsExpression.scalar kind own _ hown hname, bound, place, rest, hbound, hplace, hrest => by
    have hown' := isName_of_mem_typeNames hown
    have hsome := List.length_pos_iff.mpr hown'.1
    have hlength := hname.length_le
    refine exists_readType_of_plain hown' hname ?_ hplace hrest (by omega)
    have hkind := Scalar.ofTypeName?_eq_some_iff.mpr hown
    have hother {name : String} (hname : Scalar.ofTypeName? name = none) : own ≠ name := by
      rintro rfl
      rw [hname] at hkind
      cases hkind
    refine ⟨hother rfl, hother rfl, fun after ↦ ?_⟩
    rw [plainOf, if_neg (hother rfl), hkind]
  | @IsExpression.union types name opening parameters closing hname hopening hparameters hclosing,
      bound, place, rest, hbound, hplace, hrest => by
    have hlength : 5 ≤ name.length := hname.length_le
    simp only [List.length_append] at hbound
    simp only [List.append_assoc] at hplace
    obtain ⟨bound, rfl⟩ := Nat.exists_eq_add_one_of_ne_zero (by omega : bound ≠ 0)
    obtain ⟨first, hfirst, hread⟩ := exists_readType_of_opening (by decide) hname hopening
      hparameters.beginsWithName hplace
    have henough : 2 * parameters.length + 1 ≤ bound := by omega
    obtain ⟨last, hlast, hafter⟩ :=
      readAlternatives_of_areExpressions hparameters henough hfirst hclosing
    refine ⟨last, ?_, hafter⟩
    rw [hread, String.ofList_toList, if_pos rfl, hlast]
    exact unionOf_eq_ok_iff.mpr ⟨types, hparameters.ne_nil, rfl, rfl⟩
  | @IsExpression.list type name opening parameter closing hname hopening hparameter hclosing,
      bound, place, rest, hbound, hplace, hrest => by
    have hlength : 4 ≤ name.length := hname.length_le
    simp only [List.length_append] at hbound
    simp only [List.append_assoc] at hplace
    obtain ⟨bound, rfl⟩ := Nat.exists_eq_add_of_le (by omega : 2 ≤ bound)
    obtain ⟨first, hfirst, hread⟩ := exists_readType_of_opening (by decide) hname hopening
      hparameter.beginsWithName hplace
    have henough : 2 * parameter.length ≤ bound := by omega
    obtain ⟨after, htype, hbehind⟩ := readType_of_isExpression hparameter henough hfirst
      (hclosing.endsNames (by decide) _)
    obtain ⟨last, hlast, hafter⟩ := exists_readAlternatives_of_closing htype hclosing hbehind
    refine ⟨last, ?_, hafter⟩
    rw [Nat.add_comm, hread, String.ofList_toList, if_neg (by decide), if_pos rfl, hlast]
    rfl

theorem readAlternatives_of_areExpressions {types : List ArgType} {text : List Char} :
    AreExpressions types text → ∀ {bound : Nat} {place : Place} {closing rest : List Char},
      2 * text.length + 1 ≤ bound → dropBlanks place.rest = dropBlanks (text ++ (closing ++ rest)) →
        IsToken [']'] closing → ∃ after, readAlternatives bound place = .ok (types, after) ∧
          dropBlanks after.rest = dropBlanks rest
  | .last htype, bound, place, closing, rest, hbound, hplace, hclosing => by
    obtain ⟨bound, rfl⟩ := Nat.exists_eq_add_one_of_ne_zero (Nat.ne_zero_of_lt hbound)
    obtain ⟨after, hfirst, hafter⟩ := readType_of_isExpression htype (Nat.le_of_succ_le_succ hbound)
      hplace (hclosing.endsNames (by decide) _)
    exact exists_readAlternatives_of_closing hfirst hclosing hafter
  | @AreExpressions.more type types text comma others htype hcomma hothers, bound, place, closing, rest,
      hbound, hplace, hclosing => by
    have hlength : 1 ≤ comma.length := hcomma.length_le
    simp only [List.length_append] at hbound
    simp only [List.append_assoc] at hplace
    obtain ⟨bound, rfl⟩ := Nat.exists_eq_add_one_of_ne_zero (Nat.ne_zero_of_lt hbound)
    have hroom : 2 * text.length ≤ bound := by omega
    obtain ⟨after, hfirst, hafter⟩ := readType_of_isExpression htype hroom hplace
      (hcomma.endsNames (by decide) _)
    obtain ⟨next, hnext, hread⟩ := exists_readAlternatives_of_comma hfirst hcomma hafter
    have henough : 2 * others.length + 1 ≤ bound := by omega
    obtain ⟨last, hlast, hrest⟩ :=
      readAlternatives_of_areExpressions hothers henough hnext hclosing
    refine ⟨last, ?_, hrest⟩
    rw [hread, hlast]
    rfl

end

/-- An expression of a type is read as the type. -/
theorem ofText_of_isExpression {expression : String} {type : ArgType}
    (h : IsExpression type expression.toList) : ofText expression = .ok type := by
  have hplace : dropBlanks (Place.start expression.toList).rest =
      dropBlanks (expression.toList ++ []) := by
    rw [List.append_nil]
    rfl
  obtain ⟨after, hread, hafter⟩ := readType_of_isExpression h
    (Nat.le_add_right (2 * expression.toList.length) 1) hplace endsNames_nil
  have hend : (after.skip isBlank).isAtEnd = true := by
    rw [isAtEnd, Place.rest_skip_isBlank, hafter]
    rfl
  simp only [ofText, hread, hend, if_true]

/-! ### The language -/

theorem ofText_eq_ok_iff {expression : String} {type : ArgType} :
    ofText expression = .ok type ↔ IsExpression type expression.toList :=
  ⟨isExpression_of_ofText, ofText_of_isExpression⟩

/-- A text is read as a type exactly if it is an expression of it, and then no choice in the type is
without alternatives; every other text is refused. The reading always comes to an end: where nothing but
the text ends its loops and its recursion, they go on for no more rounds than there are characters. -/
theorem ofText_iff_isExpression (expression : String) :
    (∀ type, ofText expression = .ok type ↔ IsExpression type expression.toList) ∧
      (∀ type, IsExpression type expression.toList → type.hasEmptyUnion = false) ∧
      ((∃ fault, ofText expression = .error fault) ↔ ¬ ∃ type, IsExpression type expression.toList) ∧
      ∀ more, Cursor.typeOfText (expression.toList.length + 1 + more)
        (expression.toList.length + 1 + more) expression = some (ofText expression) := by
  refine ⟨fun type ↦ ofText_eq_ok_iff, fun type ↦ IsExpression.hasEmptyUnion, ?_, fun more ↦ ?_⟩
  · simp only [← ofText_eq_ok_iff]
    cases ofText expression with
    | error fault => simp
    | ok type => simp
  · have henough : expression.toList.length < expression.toList.length + 1 + more := by omega
    exact Cursor.typeOfText_eq henough henough

end Formulary.ArgType
