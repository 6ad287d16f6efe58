import Formulary.Catalog.Document
import Formulary.Proofs.Catalog.Checks
import Formulary.Proofs.Token.Movement
/-!
Which JSON values can be defaults of a type. A value is made a literal by its form and by what the type
admits, and only later it is checked that the literal fits the type. The two agree: a default is refused
exactly if nothing that the value can stand for is offered by the type, and what is kept is the first of
these literals, an integer rather than a number and a timestamp rather than a string
(`loads_default_iff`). Main definitions: `Json.literals` and `Surroundings`.
-/

set_option autoImplicit false
set_option relaxedAutoImplicit false

namespace Formulary

namespace Json

/-! ### What a document can stand for -/

/-- The truth value that a document is. -/
def bool? : Json → Option Bool
  | .bool value => some value
  | _ => none

/-- The integer of 64 bits that a document holds; a number that was written with a fraction or an
exponent holds none. -/
def int64? : Json → Option Int64
  | .integer value => Formulary.int64? value
  | _ => none

/-- The number of double precision that a document denotes. -/
def number? : Json → Option Number
  | .integer value => some (.ofDecimal (value < 0) ⟨value.natAbs, 0⟩)
  | .real value => some value
  | _ => none

/-- The timestamp that a document spells as a text. -/
def timestamp? (document : Json) : Option Timestamp :=
  document.text?.bind fun text ↦ Timestamp.ofFormulaText? text.toList

/-- The literals that a document can stand for: an integer comes before a number, and a timestamp before
a string. -/
def literals (document : Json) : List Literal :=
  (document.bool?.map .bool).toList ++ (document.int64?.map .int).toList ++
    (document.number?.map .number).toList ++ (document.timestamp?.map .timestamp).toList ++
    (document.text?.map .string).toList

theorem literals_integer (value : Int) :
    (integer value).literals =
      ((Formulary.int64? value).map Literal.int).toList ++
        [.number (.ofDecimal (value < 0) ⟨value.natAbs, 0⟩)] := by
  simp [literals, bool?, int64?, number?, timestamp?, text?]

theorem literals_string (text : String) :
    (string text).literals =
      ((Timestamp.ofFormulaText? text.toList).map Literal.timestamp).toList ++ [.string text] := by
  simp [literals, bool?, int64?, number?, timestamp?, text?]

end Json

open Json

/-! ### Which literal is kept -/

/-- Of a literal that is preferred and one that is taken otherwise, the first that is accepted is the
preferred one if it is accepted, and else the other one if that is. -/
theorem find?_toList_append_singleton_eq_some_iff {accepts : Literal → Bool}
    {preferred : Option Literal} {other value : Literal} :
    (preferred.toList ++ [other]).find? accepts = some value ↔
      (preferred.filter accepts).getD other = value ∧ accepts value = true := by
  cases preferred with
  | none =>
    rw [Option.toList_none, List.nil_append, List.find?_singleton, Option.filter_none,
      Option.getD_none, Option.ite_none_right_eq_some, Option.some.injEq, and_comm]
    exact and_congr_right fun h ↦ h ▸ Iff.rfl
  | some literal =>
    rw [Option.toList_some, List.singleton_append, List.find?_cons, Option.filter_some]
    cases haccepts : accepts literal with
    | true =>
      rw [if_pos rfl, Option.getD_some, Option.some.injEq]
      exact ⟨fun h ↦ ⟨h, h ▸ haccepts⟩, And.left⟩
    | false =>
      rw [if_neg Bool.false_ne_true, Option.getD_none, List.find?_singleton,
        Option.ite_none_right_eq_some, Option.some.injEq, and_comm]
      exact and_congr_right fun h ↦ h ▸ Iff.rfl

theorem defaultOf_integer (type : ArgType) (value : Int) :
    defaultOf type (.integer value) = some (some ((((int64? value).map Literal.int).filter
      type.accepts).getD (.number (.ofDecimal (value < 0) ⟨value.natAbs, 0⟩)))) := by
  simp only [defaultOf, Option.filter_map, Function.comp_def, ArgType.accepts, Literal.scalar]
  cases (int64? value).filter fun _ ↦ type.admits .int <;> rfl

theorem defaultOf_string (type : ArgType) (text : String) :
    defaultOf type (.string text) = some (some ((((Timestamp.ofFormulaText? text.toList).map
      Literal.timestamp).filter type.accepts).getD (.string text))) := by
  simp only [defaultOf, Option.filter_map, Function.comp_def, ArgType.accepts, Literal.scalar]
  cases (Timestamp.ofFormulaText? text.toList).filter fun _ ↦ type.admits .timestamp <;> rfl

/-- A literal is kept and fits its type exactly if it is the first that the document can stand for and
the type accepts. -/
theorem defaultOf_and_accepts_iff {type : ArgType} {document : Json} {value : Literal} :
    defaultOf type document = some (some value) ∧ type.accepts value = true ↔
      document.literals.find? type.accepts = some value := by
  -- Only integers and texts stand for two literals; the others for one or none.
  have hsingle : ∀ only, defaultOf type document = some (some only) → document.literals = [only] →
      (defaultOf type document = some (some value) ∧ type.accepts value = true ↔
        document.literals.find? type.accepts = some value) := by
    intro only hdefault hliterals
    rw [hdefault, hliterals, Option.some.injEq, Option.some.injEq]
    exact (@find?_toList_append_singleton_eq_some_iff type.accepts none only value).symm
  cases document with
  | bool own => exact hsingle (.bool own) rfl rfl
  | real own => exact hsingle (.number own) rfl rfl
  | integer own =>
    rw [defaultOf_integer, literals_integer, find?_toList_append_singleton_eq_some_iff,
      Option.some.injEq, Option.some.injEq]
  | string text =>
    rw [defaultOf_string, literals_string, find?_toList_append_singleton_eq_some_iff,
      Option.some.injEq, Option.some.injEq]
  | _ => simp [defaultOf, literals, bool?, Json.int64?, number?, timestamp?, text?]

/-- Only null stands for no default. -/
theorem defaultOf_eq_some_none_iff {type : ArgType} {document : Json} :
    defaultOf type document = some none ↔ document = .null := by
  cases document with
  | integer _ => simp [defaultOf_integer]
  | string _ => simp [defaultOf_string]
  | _ => simp [defaultOf]

/-- An integer that the type accepts is kept. -/
theorem find?_literals_of_int64? {type : ArgType} {document : Json} {word : Int64}
    (hword : document.int64? = some word) (hoffers : type.Offers .int) :
    document.literals.find? type.accepts = some (.int word) := by
  have haccepts : type.accepts (.int word) = true := ArgType.accepts_iff.mpr hoffers
  cases document with
  | integer own =>
    have hown : Formulary.int64? own = some word := hword
    rw [literals_integer, hown]
    exact List.find?_cons_of_pos haccepts
  | _ => cases hword

theorem find?_literals_of_timestamp? {type : ArgType} {document : Json} {moment : Timestamp}
    (hmoment : document.timestamp? = some moment) (hoffers : type.Offers .timestamp) :
    document.literals.find? type.accepts = some (.timestamp moment) := by
  have haccepts : type.accepts (.timestamp moment) = true := ArgType.accepts_iff.mpr hoffers
  cases document with
  | string text =>
    have hown : Timestamp.ofFormulaText? text.toList = some moment := hmoment
    rw [literals_string, hown]
    exact List.find?_cons_of_pos haccepts
  | _ => cases hmoment

theorem exists_mem_toList_map_iff {α : Type} {type : ArgType} {found : Option α} {kind : Scalar}
    (form : α → Literal) (hkind : ∀ value, (form value).scalar = kind) :
    (∃ value ∈ (found.map form).toList, type.Offers value.scalar) ↔
      found.isSome = true ∧ type.Offers kind := by
  cases found <;> simp [hkind]

/-- What it means, by the form of a document, that it can stand for something that a type offers. -/
theorem exists_literal_iff {type : ArgType} {document : Json} :
    (∃ value ∈ document.literals, type.Offers value.scalar) ↔
      document.bool?.isSome = true ∧ type.Offers .bool ∨
        document.int64?.isSome = true ∧ type.Offers .int ∨
          document.number?.isSome = true ∧ type.Offers .number ∨
            document.text?.isSome = true ∧
              (type.Offers .string ∨ document.timestamp?.isSome = true ∧ type.Offers .timestamp) := by
  have htext : document.timestamp?.isSome = true → document.text?.isSome = true := by
    intro h
    obtain ⟨moment, hmoment⟩ := Option.isSome_iff_exists.mp h
    obtain ⟨text, htext, -⟩ := Option.bind_eq_some_iff.mp hmoment
    exact Option.isSome_of_eq_some htext
  simp only [literals, List.mem_append, or_and_right, exists_or]
  rw [exists_mem_toList_map_iff .bool fun _ ↦ rfl, exists_mem_toList_map_iff .int fun _ ↦ rfl,
    exists_mem_toList_map_iff .number fun _ ↦ rfl, exists_mem_toList_map_iff .timestamp fun _ ↦ rfl,
    exists_mem_toList_map_iff .string fun _ ↦ rfl]
  tauto

/-- A default is kept and fits its type exactly if the document is null or can stand for a literal that
the type offers. -/
theorem exists_defaultOf_iff {type : ArgType} {document : Json} :
    (∃ default, defaultOf type document = some default ∧
        ∀ value ∈ default, type.Offers value.scalar) ↔
      document = .null ∨ ∃ value ∈ document.literals, type.Offers value.scalar := by
  constructor
  · rintro ⟨default, hdefault, hfits⟩
    cases default with
    | none => exact .inl (defaultOf_eq_some_none_iff.mp hdefault)
    | some value =>
      have hoffers := hfits value rfl
      have hfound := defaultOf_and_accepts_iff.mp ⟨hdefault, ArgType.accepts_iff.mpr hoffers⟩
      exact .inr ⟨value, List.mem_of_find?_eq_some hfound, hoffers⟩
  · rintro (rfl | ⟨value, hvalue, hoffers⟩)
    · exact ⟨none, defaultOf_eq_some_none_iff.mpr rfl, fun _ hnone ↦ by cases hnone⟩
    · have hsome : (document.literals.find? type.accepts).isSome = true :=
        List.find?_isSome.mpr ⟨value, hvalue, ArgType.accepts_iff.mpr hoffers⟩
      obtain ⟨kept, hkept⟩ := Option.isSome_iff_exists.mp hsome
      obtain ⟨hdefault, haccepts⟩ := defaultOf_and_accepts_iff.mpr hkept
      refine ⟨some kept, hdefault, ?_⟩
      rintro _ ⟨⟩
      exact ArgType.accepts_iff.mp haccepts

/-! ### Numerals -/

/-- A numeral holds an integer of 64 bits exactly if it has neither a fraction nor an exponent, its value
is in the range, and it is not the negative zero. -/
theorem int64?_ofNumeral {negative : Bool} {whole : List Char} {fraction : Option (List Char)}
    {power : Option Int} {word : Int64} :
    (Reader.ofNumeral negative whole fraction power).int64? = some word ↔
      fraction = none ∧ power = none ∧
        word.toInt = (if negative then -(valueOfDigits whole : Int) else valueOfDigits whole) ∧
        ¬ (negative = true ∧ valueOfDigits whole = 0) := by
  have hkept : ∀ value : Int, word.toInt = value → Reader.isKeptInteger value = true := by
    rintro _ rfl
    have hrange := And.intro word.le_toInt word.toInt_lt
    simp only [Reader.isKeptInteger, Bool.and_eq_true, decide_eq_true_eq]
    omega
  rw [Reader.ofNumeral]
  generalize (if negative = true then -(valueOfDigits whole : Int) else valueOfDigits whole) = value
  dsimp only
  split
  · rename_i hinteger
    simp only [Bool.and_eq_true, Option.isNone_iff_eq_none, Bool.not_eq_true', Bool.and_eq_false_iff,
      beq_eq_false_iff_ne] at hinteger
    obtain ⟨⟨⟨hfraction, hpower⟩, -⟩, hzero⟩ := hinteger
    rw [Json.int64?, int64?_eq_some_iff]
    exact ⟨fun hvalue ↦ ⟨hfraction, hpower, hvalue, by grind⟩, fun h ↦ h.2.2.1⟩
  · rename_i hreal
    constructor
    · intro hword
      split at hword <;> cases hword
    · rintro ⟨rfl, rfl, hvalue, hzero⟩
      refine absurd ?_ hreal
      simpa [hkept value hvalue, imp_iff_not_or] using hzero

/-! ### Loading -/

/-- Everything that a catalog declares besides one keyword argument: the operators before and after the
one with the keyword argument, and what that operator declares. -/
structure Surroundings where
  earlier : List Operator
  name : String
  result : Base
  parameters : List ArgType
  before : List Keyword
  after : List Keyword
  later : List Operator

/-- The catalog in which some keyword arguments are declared at the place that was left for them. -/
def Surroundings.catalog (surroundings : Surroundings) (own : List Keyword) : Catalog :=
  .ofList (surroundings.earlier ++
    ⟨surroundings.name, surroundings.result, surroundings.parameters,
      surroundings.before ++ own ++ surroundings.after⟩ :: surroundings.later)

/-- In sound surroundings a catalog is sound if there is nothing wrong with the keyword argument. -/
theorem Surroundings.fault?_catalog_iff {surroundings : Surroundings} {own : Keyword}
    (hsound : (surroundings.catalog []).fault? = none) :
    (surroundings.catalog [own]).fault? = none ↔
      ¬ (ArgType.union []).StandsIn own.type ∧ ∀ value ∈ own.default, own.type.Offers value.scalar := by
  obtain ⟨hseries, hfits⟩ := fault?_ofList_eq_none_iff.mp hsound
  have hresult : ∃ operator ∈ surroundings.earlier ++ ⟨surroundings.name, surroundings.result,
      surroundings.parameters, surroundings.before ++ [own] ++ surroundings.after⟩ ::
        surroundings.later, operator.result = .series := by
    rw [← List.mem_map, List.map_append, List.map_cons] at hseries ⊢
    exact hseries
  rw [catalog, fault?_ofList_eq_none_iff, and_iff_right hresult]
  simp only [List.forall_mem_append, List.forall_mem_cons, List.forall_mem_map,
    Operator.types] at hfits ⊢
  simp only [List.not_mem_nil, IsEmpty.forall_iff, implies_true, and_true] at hfits ⊢
  tauto

/-- A JSON value is taken as the default of a type without an empty choice exactly if it is null, or a
truth value, an integer of 64 bits, a number, a text or the text of a timestamp, and the type offers
literals of that kind. The default that is kept is offered by the type, and it is an integer rather than a
number and a timestamp rather than a text. Of the numerals those are integers of 64 bits that have neither
a fraction nor an exponent, are in the range, and are not the negative zero. -/
theorem loads_default_iff {type : ArgType} (htype : ¬ (ArgType.union []).StandsIn type)
    {surroundings : Surroundings} (hsound : (surroundings.catalog []).fault? = none)
    (keyword : String) (document : Json) :
    ((∃ default, defaultOf type document = some default ∧
        (surroundings.catalog [⟨keyword, type, default⟩]).fault? = none) ↔
      document = .null ∨
        document.bool?.isSome = true ∧ type.Offers .bool ∨
          document.int64?.isSome = true ∧ type.Offers .int ∨
            document.number?.isSome = true ∧ type.Offers .number ∨
              document.text?.isSome = true ∧
                (type.Offers .string ∨ document.timestamp?.isSome = true ∧ type.Offers .timestamp)) ∧
    (∀ default, defaultOf type document = some default →
      (surroundings.catalog [⟨keyword, type, default⟩]).fault? = none →
        (default = none ↔ document = .null) ∧
          ∀ value ∈ default, type.Offers value.scalar ∧ value ∈ document.literals ∧
            (∀ word, document.int64? = some word → type.Offers .int → value = .int word) ∧
            ∀ moment, document.timestamp? = some moment → type.Offers .timestamp →
              value = .timestamp moment) ∧
    ∀ negative whole fraction power word,
      (Reader.ofNumeral negative whole fraction power).int64? = some word ↔
        fraction = none ∧ power = none ∧
          word.toInt = (if negative then -(valueOfDigits whole : Int) else valueOfDigits whole) ∧
          ¬ (negative = true ∧ valueOfDigits whole = 0) := by
  refine ⟨?_, fun default hdefault hloads ↦ ⟨?_, fun value hvalue ↦ ?_⟩,
    fun _ _ _ _ _ ↦ int64?_ofNumeral⟩
  · rw [← exists_literal_iff, ← exists_defaultOf_iff]
    simp only [Surroundings.fault?_catalog_iff hsound, and_iff_right htype]
  · rw [← @defaultOf_eq_some_none_iff type, hdefault, Option.some.injEq]
  · obtain rfl := Option.mem_def.mp hvalue
    have hoffers := ((Surroundings.fault?_catalog_iff hsound).mp hloads).2 value rfl
    have hfound := defaultOf_and_accepts_iff.mp ⟨hdefault, ArgType.accepts_iff.mpr hoffers⟩
    refine ⟨hoffers, List.mem_of_find?_eq_some hfound, fun word hword hint ↦ ?_,
      fun moment hmoment htimestamp ↦ ?_⟩
    · exact Option.some.inj (hfound.symm.trans (find?_literals_of_int64? hword hint))
    · exact Option.some.inj (hfound.symm.trans (find?_literals_of_timestamp? hmoment htimestamp))

/-- Five is a default of a choice between numbers and, one choice further inside, integers. -/
theorem loads_default_five :
    ∃ default, defaultOf (.union [.scalar .number, .union [.scalar .int]]) (.integer 5) = some default ∧
      (Surroundings.catalog ⟨[], "series", .series, [], [], [], []⟩
        [⟨"limit", .union [.scalar .number, .union [.scalar .int]], default⟩]).fault? = none :=
  (loads_default_iff (ArgType.hasEmptyUnion_eq_false_iff.mp rfl) rfl "limit" (.integer 5)).1.mpr
    (.inr (.inr (.inl ⟨rfl, (ArgType.admits_iff _).mp rfl⟩)))

example : ["7", "7.0", "7e1", "-0"].map (fun text ↦ (Json.ofText? text).bind Json.int64?) =
    [some 7, none, none, none] := by
  decide +kernel

end Formulary
