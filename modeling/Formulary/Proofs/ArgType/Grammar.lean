import Formulary.Proofs.Cursor.TypeExpression
/-!
The grammar of type expressions. A type is the name of a scalar or of a series, or `Union` or `List` with
types between brackets, and blanks may stand before and behind every token. The grammar says so without
the reader: `ArgType.IsExpression` relates a type to the texts that express it. What is read is an
expression of what it is read as (`isExpression_of_ofText`), since the reader takes one token after the
other, and the blanks that it skips before a token belong to it. Types that have expressions have no
choice without alternatives, and so neither have those that are read (`hasEmptyUnion_of_ofText`).
-/

set_option autoImplicit false
set_option relaxedAutoImplicit false

namespace Formulary

open Text Place

/-! ### The grammar -/

/-- The names of a scalar in type expressions. -/
def Scalar.typeNames : Scalar → List String
  | .int => ["Int", "int"]
  | .number => ["Number"]
  | .string => ["String", "str"]
  | .bool => ["Bool", "bool"]
  | .timestamp => ["Timestamp"]

/-- Nothing but blanks. -/
def Text.AreBlanks (text : List Char) : Prop :=
  ∀ character ∈ text, isBlank character = true

namespace ArgType

/-- A token of a type expression, with or without blanks before and behind it. -/
def IsToken (token text : List Char) : Prop :=
  ∃ before behind, AreBlanks before ∧ AreBlanks behind ∧ text = before ++ token ++ behind

mutual

/-- A text is an expression of a type. -/
inductive IsExpression : ArgType → List Char → Prop
  | series {name : List Char} (hname : IsToken "Series".toList name) : IsExpression .series name
  | scalar {kind : Scalar} {own : String} {name : List Char} (hown : own ∈ kind.typeNames)
      (hname : IsToken own.toList name) : IsExpression (.scalar kind) name
  | union {types : List ArgType} {name opening parameters closing : List Char}
      (hname : IsToken "Union".toList name) (hopening : IsToken ['['] opening)
      (hparameters : AreExpressions types parameters) (hclosing : IsToken [']'] closing) :
      IsExpression (.union types) (name ++ opening ++ parameters ++ closing)
  | list {type : ArgType} {name opening parameter closing : List Char}
      (hname : IsToken "List".toList name) (hopening : IsToken ['['] opening)
      (hparameter : IsExpression type parameter) (hclosing : IsToken [']'] closing) :
      IsExpression (.list type) (name ++ opening ++ parameter ++ closing)

/-- A text consists of expressions of some types, one at least, with commas between them. -/
inductive AreExpressions : List ArgType → List Char → Prop
  | last {type : ArgType} {text : List Char} (htype : IsExpression type text) :
      AreExpressions [type] text
  | more {type : ArgType} {types : List ArgType} {text comma others : List Char}
      (htype : IsExpression type text) (hcomma : IsToken [','] comma)
      (hothers : AreExpressions types others) :
      AreExpressions (type :: types) (text ++ comma ++ others)

end

end ArgType

theorem Scalar.ofTypeName?_eq_some_iff {name : String} {kind : Scalar} :
    Scalar.ofTypeName? name = some kind ↔ name ∈ kind.typeNames := by
  unfold Scalar.ofTypeName?
  constructor
  · intro h
    split at h <;> cases h <;> decide
  · intro h
    cases kind <;> simp only [Scalar.typeNames, List.mem_cons, List.not_mem_nil, or_false] at h <;>
      rcases h with rfl | rfl <;> rfl

/-! ### Blanks -/

namespace Text

theorem areBlanks_nil : AreBlanks [] :=
  List.forall_mem_nil _

theorem AreBlanks.append {first second : List Char} (hfirst : AreBlanks first)
    (hsecond : AreBlanks second) : AreBlanks (first ++ second) :=
  List.forall_mem_append.mpr ⟨hfirst, hsecond⟩

theorem dropBlanks_append {blanks : List Char} (h : AreBlanks blanks) (text : List Char) :
    dropBlanks (blanks ++ text) = dropBlanks text :=
  List.dropWhile_append_of_pos h

/-- A text is its leading blanks and what follows them. -/
theorem exists_blanks (text : List Char) : ∃ blanks, AreBlanks blanks ∧ text = blanks ++ dropBlanks text :=
  ⟨text.takeWhile isBlank, fun _ hcharacter ↦ List.all_eq_true.mp List.all_takeWhile _ hcharacter,
    List.takeWhile_append_dropWhile.symm⟩

theorem dropBlanks_cons {character : Char} (h : isBlank character = false) (text : List Char) :
    dropBlanks (character :: text) = character :: text := by
  rw [dropBlanks, List.dropWhile_cons_of_neg (by simp [h])]

theorem Place.rest_skip_isBlank (place : Place) : (place.skip isBlank).rest = dropBlanks place.rest := by
  rw [skip_eq]
  rfl

end Text

namespace ArgType

/-- The codes of all blanks. -/
def blankCodes : List Nat :=
  List.range' 9 5 ++ List.range' 0x2000 11 ++
    [0x20, 0x85, 0xA0, 0x1680, 0x2028, 0x2029, 0x202F, 0x205F, 0x3000]

theorem toNat_mem_blankCodes {character : Char} (h : isBlank character = true) :
    character.toNat ∈ blankCodes := by
  simp only [isBlank, Bool.or_eq_true, Bool.and_eq_true, decide_eq_true_eq, beq_iff_eq] at h
  simp only [blankCodes, List.mem_append, List.mem_range'_1, List.mem_cons, List.not_mem_nil, or_false]
  omega

/-- No blank is a character of a name. -/
theorem isNameCharacter_of_isBlank {character : Char} (h : isBlank character = true) :
    isNameCharacter character = false := by
  have hall : blankCodes.all (fun code ↦ !isNameCharacter (Char.ofNat code)) = true := by
    decide +kernel
  have hnone := List.all_eq_true.mp hall _ (toNat_mem_blankCodes h)
  rw [Char.ofNat_toNat] at hnone
  exact Bool.not_eq_true' _ ▸ hnone

theorem isBlank_of_isNameCharacter {character : Char} (h : isNameCharacter character = true) :
    isBlank character = false := by
  apply Bool.eq_false_iff.mpr
  intro hblank
  rw [isNameCharacter_of_isBlank hblank] at h
  exact Bool.false_ne_true h

/-! ### Tokens -/

section Token

variable {token text blanks : List Char}

theorem IsToken.append_blanks (h : IsToken token text) (hblanks : AreBlanks blanks) :
    IsToken token (text ++ blanks) := by
  obtain ⟨before, behind, hbefore, hbehind, rfl⟩ := h
  exact ⟨before, behind ++ blanks, hbefore, hbehind.append hblanks, List.append_assoc _ _ _⟩

theorem isToken_of_blanks (hblanks : AreBlanks blanks) : IsToken token (blanks ++ token) :=
  ⟨blanks, [], hblanks, areBlanks_nil, (List.append_nil _).symm⟩

/-- A token is a token still with more blanks behind it, and so an expression stays one. -/
theorem IsExpression.append_blanks {type : ArgType} (h : IsExpression type text)
    (hblanks : AreBlanks blanks) : IsExpression type (text ++ blanks) := by
  cases h with
  | series hname => exact .series (hname.append_blanks hblanks)
  | scalar hown hname => exact .scalar hown (hname.append_blanks hblanks)
  | union hname hopening hparameters hclosing =>
    rw [List.append_assoc]
    exact .union hname hopening hparameters (hclosing.append_blanks hblanks)
  | list hname hopening hparameter hclosing =>
    rw [List.append_assoc]
    exact .list hname hopening hparameter (hclosing.append_blanks hblanks)

end Token

/-! ### What is read is an expression -/

section Reading

variable {place after : Place}

/-- What is eaten behind some blanks is a token. -/
theorem exists_token_of_eat? {token : List Char} (h : (place.skip isBlank).eat? token = some after) :
    ∃ text, IsToken token text ∧ place.rest = text ++ after.rest := by
  obtain ⟨blanks, hblanks, hrest⟩ := exists_blanks place.rest
  refine ⟨blanks ++ token, isToken_of_blanks hblanks, ?_⟩
  rw [hrest, ← Place.rest_skip_isBlank, (eat?_eq_some h).1, List.append_assoc]

/-- A name that is read is a token. -/
theorem exists_token_of_name (place : Place) :
    ∃ text, IsToken ((place.skip isBlank).run isNameCharacter) text ∧
      place.rest = text ++ ((place.skip isBlank).skip isNameCharacter).rest := by
  obtain ⟨blanks, hblanks, hrest⟩ := exists_blanks place.rest
  refine ⟨_, isToken_of_blanks hblanks, ?_⟩
  rw [hrest, ← Place.rest_skip_isBlank, skip_eq (place.skip isBlank), run, List.append_assoc,
    List.takeWhile_append_dropWhile]

/-- What is read between brackets, unless there is nothing between them. -/
theorem exists_of_readParameters {readOthers : Place → Except TypeFault (List ArgType × Place)}
    {types : List ArgType} (h : readParameters readOthers place = .ok (types, after))
    (hsome : types ≠ []) :
    ∃ opening first, IsToken ['['] opening ∧ place.rest = opening ++ first.rest ∧
      readOthers first = .ok (types, after) := by
  simp only [readParameters] at h
  split at h
  · cases h
  · rename_i inside hinside
    obtain ⟨opening, hopening, hrest⟩ := exists_token_of_eat? hinside
    obtain ⟨blanks, hblanks, hinner⟩ := exists_blanks inside.rest
    split at h
    · cases h
      exact absurd rfl hsome
    · refine ⟨opening ++ blanks, _, hopening.append_blanks hblanks, ?_, h⟩
      rw [hrest, hinner, Place.rest_skip_isBlank, List.append_assoc, ← hinner]

/-- The type without parameters that a name stands for. -/
theorem isExpression_of_plainOf {α : Type} {written : List Char} {text : List Char} {type : ArgType}
    {found last : α} (h : plainOf (String.ofList written) found = .ok (type, last))
    (htoken : IsToken written text) : IsExpression type text := by
  unfold plainOf at h
  split at h
  · rename_i hname
    cases h
    rw [← String.toList_ofList (l := written), hname] at htoken
    exact .series htoken
  · split at h
    · rename_i kind hkind
      cases h
      rw [← String.toList_ofList (l := written)] at htoken
      exact .scalar (Scalar.ofTypeName?_eq_some_iff.mp hkind) htoken
    · cases h

/-- Whatever is read as a type is an expression of it. -/
def ReadsExpressions (bound : Nat) : Prop :=
  ∀ place type after, readType bound place = .ok (type, after) →
    ∃ text, IsExpression type text ∧ place.rest = text ++ after.rest

/-- Whatever is read as types up to a closing bracket are expressions of them. -/
def ReadsParameters (bound : Nat) : Prop :=
  ∀ place types after, readAlternatives bound place = .ok (types, after) →
    types ≠ [] ∧ ∃ parameters closing, AreExpressions types parameters ∧ IsToken [']'] closing ∧
      place.rest = parameters ++ closing ++ after.rest

theorem readsExpressions_succ {bound : Nat} (h : ReadsParameters bound) :
    ReadsExpressions (bound + 1) := by
  intro place type after hread
  obtain ⟨text, htoken, hrest⟩ := exists_token_of_name place
  have hparameters {types : List ArgType} (hsome : types ≠ [])
      (hfound : readParameters (readAlternatives bound)
        ((place.skip isBlank).skip isNameCharacter) = .ok (types, after)) :
      ∃ opening parameters closing, IsToken ['['] opening ∧ AreExpressions types parameters ∧
        IsToken [']'] closing ∧
          place.rest = text ++ opening ++ parameters ++ closing ++ after.rest := by
    obtain ⟨opening, first, hopening, hbracket, hothers⟩ := exists_of_readParameters hfound hsome
    obtain ⟨-, parameters, closing, hexpressions, hclosing, hinside⟩ := h first types after hothers
    refine ⟨opening, parameters, closing, hopening, hexpressions, hclosing, ?_⟩
    rw [hrest, hbracket, hinside]
    simp only [List.append_assoc]
  rw [readType_succ] at hread
  dsimp only at hread
  split at hread
  · cases hread
  · split at hread
    · rename_i hname
      obtain ⟨types, hsome, hfound, rfl⟩ := unionOf_eq_ok_iff.mp hread
      obtain ⟨opening, parameters, closing, hopening, hexpressions, hclosing, hall⟩ :=
        hparameters hsome hfound
      rw [← String.toList_ofList (l := (place.skip isBlank).run isNameCharacter), hname] at htoken
      exact ⟨_, .union htoken hopening hexpressions hclosing, hall⟩
    · split at hread
      · rename_i hname
        obtain ⟨element, hfound, rfl⟩ := listOf_eq_ok_iff.mp hread
        obtain ⟨opening, parameters, closing, hopening, hexpressions, hclosing, hall⟩ :=
          hparameters (List.cons_ne_nil _ _) hfound
        rw [← String.toList_ofList (l := (place.skip isBlank).run isNameCharacter), hname] at htoken
        cases hexpressions with
        | last helement => exact ⟨_, .list htoken hopening helement hclosing, hall⟩
        | more _ _ hothers => cases hothers
      · obtain rfl := plainOf_eq_ok hread
        exact ⟨text, isExpression_of_plainOf hread htoken, hrest⟩

theorem readsParameters_succ {bound : Nat} (htypes : ReadsExpressions bound)
    (hparameters : ReadsParameters bound) : ReadsParameters (bound + 1) := by
  intro place types after hread
  rw [readAlternatives] at hread
  split at hread
  · cases hread
  · rename_i type middle hfirst
    obtain ⟨text, hexpression, hrest⟩ := htypes place type middle hfirst
    dsimp only at hread
    split at hread
    · rename_i next hnext
      obtain ⟨comma, hcomma, hmiddle⟩ := exists_token_of_eat? hnext
      split at hread
      · cases hread
      · rename_i others last hothers
        cases hread
        obtain ⟨-, parameters, closing, hexpressions, hclosing, hinside⟩ :=
          hparameters next others after hothers
        refine ⟨List.cons_ne_nil _ _, _, closing, .more hexpression hcomma hexpressions, hclosing, ?_⟩
        rw [hrest, hmiddle, hinside]
        simp only [List.append_assoc]
    · split at hread
      · rename_i last hlast
        cases hread
        obtain ⟨closing, hclosing, hmiddle⟩ := exists_token_of_eat? hlast
        refine ⟨List.cons_ne_nil _ _, text, closing, .last hexpression, hclosing, ?_⟩
        rw [hrest, hmiddle, List.append_assoc]
      · cases hread

theorem readsExpressions_and_readsParameters (bound : Nat) :
    ReadsExpressions bound ∧ ReadsParameters bound := by
  induction bound with
  | zero =>
    constructor
    · intro place type after h
      rw [readType] at h
      cases h
    · intro place types after h
      rw [readAlternatives] at h
      cases h
  | succ bound ih => exact ⟨readsExpressions_succ ih.2, readsParameters_succ ih.1 ih.2⟩

/-- What is read as a whole expression is an expression. -/
theorem isExpression_of_ofText {expression : String} {type : ArgType}
    (h : ofText expression = .ok type) : IsExpression type expression.toList := by
  simp only [ofText] at h
  split at h
  · cases h
  · rename_i found after hread
    split at h
    · rename_i hend
      obtain rfl := Except.ok.inj h
      obtain ⟨text, hexpression, hrest⟩ :=
        (readsExpressions_and_readsParameters _).1 _ _ _ hread
      obtain ⟨blanks, hblanks, hafter⟩ := exists_blanks after.rest
      have hnone : dropBlanks after.rest = [] := by
        rw [← Place.rest_skip_isBlank]
        exact List.isEmpty_iff.mp hend
      rw [hnone, List.append_nil] at hafter
      have hwhole : expression.toList = text ++ blanks := by
        rw [← hafter, ← hrest]
        rfl
      rw [hwhole]
      exact hexpression.append_blanks hblanks
    · cases h

end Reading

/-! ### Types that have expressions -/

theorem AreExpressions.ne_nil {types : List ArgType} {text : List Char} (h : AreExpressions types text) :
    types ≠ [] := by
  cases h with
  | last | more => exact List.cons_ne_nil _ _

mutual

/-- Only types whose choices all have alternatives have expressions. -/
theorem IsExpression.hasEmptyUnion {type : ArgType} {text : List Char} :
    IsExpression type text → type.hasEmptyUnion = false
  | .series _ | .scalar _ _ => rfl
  | .union _ _ hparameters _ => by
    rw [ArgType.hasEmptyUnion, hparameters.anyHasEmptyUnion, Bool.or_false, List.isEmpty_eq_false_iff]
    exact hparameters.ne_nil
  | .list _ _ hparameter _ => hparameter.hasEmptyUnion

theorem AreExpressions.anyHasEmptyUnion {types : List ArgType} {text : List Char} :
    AreExpressions types text → ArgType.anyHasEmptyUnion types = false
  | .last htype => by
    rw [ArgType.anyHasEmptyUnion, htype.hasEmptyUnion]
    rfl
  | .more htype _ hothers => by
    rw [ArgType.anyHasEmptyUnion, htype.hasEmptyUnion, hothers.anyHasEmptyUnion]
    rfl

end

/-- No type expression denotes a type with a choice without alternatives. -/
theorem hasEmptyUnion_of_ofText {expression : String} {type : ArgType}
    (h : ofText expression = .ok type) : type.hasEmptyUnion = false :=
  (isExpression_of_ofText h).hasEmptyUnion

end ArgType

end Formulary
