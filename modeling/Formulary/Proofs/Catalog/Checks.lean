import Formulary.Proofs.Catalog.Soundness
import Formulary.Proofs.Lists
/-!
The order in which a catalog is checked. If some operator produces a series, everything else that can be
wrong is checked one thing after the other: operator by operator in the order of declaration, of each
operator the parameters before the keyword arguments, and of a keyword argument the type before the
default. No fault is found exactly if every check is passed, and otherwise the fault is that of the first
check that is not (`fault?_ofList`). What the checks ask for is said without the functions that decide it
(`ArgType.hasEmptyUnion_iff`, `ArgType.admits_iff`). Main definitions: `ArgType.StandsIn`,
`ArgType.Offers`, `Check` and `Check.Fails`, and `Operator.checks`.
-/

set_option autoImplicit false
set_option relaxedAutoImplicit false

namespace Formulary

/-! ### What is checked of types -/

namespace ArgType

/-- A type stands somewhere in a type: it is the type itself, or stands in one of its parts. -/
inductive StandsIn (part : ArgType) : ArgType → Prop
  | itself : StandsIn part part
  | alternative {type : ArgType} {alternatives : List ArgType} (htype : type ∈ alternatives)
      (hpart : StandsIn part type) : StandsIn part (.union alternatives)
  | element {type : ArgType} (hpart : StandsIn part type) : StandsIn part (.list type)

/-- A literal of a kind may stand where an argument of a type does: the type is the kind, or a choice
among types of which one offers it. -/
inductive Offers (kind : Scalar) : ArgType → Prop
  | itself : Offers kind (.scalar kind)
  | alternative {type : ArgType} {alternatives : List ArgType} (htype : type ∈ alternatives)
      (hkind : Offers kind type) : Offers kind (.union alternatives)

theorem standsIn_union_iff {part : ArgType} {alternatives : List ArgType} :
    part.StandsIn (.union alternatives) ↔
      part = .union alternatives ∨ ∃ type ∈ alternatives, part.StandsIn type := by
  constructor
  · intro h
    cases h with
    | itself => exact .inl rfl
    | alternative htype hpart => exact .inr ⟨_, htype, hpart⟩
  · rintro (rfl | ⟨type, htype, hpart⟩)
    · exact .itself
    · exact .alternative htype hpart

theorem offers_union_iff {kind : Scalar} {alternatives : List ArgType} :
    Offers kind (.union alternatives) ↔ ∃ type ∈ alternatives, type.Offers kind := by
  constructor
  · rintro ⟨⟩
    exact ⟨_, ‹_›, ‹_›⟩
  · rintro ⟨type, htype, hkind⟩
    exact .alternative htype hkind

mutual

/-- There is a choice without alternatives in a type exactly if such a choice stands in it. -/
theorem hasEmptyUnion_iff : (type : ArgType) →
    (type.hasEmptyUnion = true ↔ (union []).StandsIn type)
  | .scalar kind => ⟨fun h ↦ absurd h Bool.false_ne_true, fun h ↦ by cases h⟩
  | .series => ⟨fun h ↦ absurd h Bool.false_ne_true, fun h ↦ by cases h⟩
  | .list element => by
    rw [hasEmptyUnion, hasEmptyUnion_iff element]
    constructor
    · exact .element
    · intro h
      cases h with
      | element hpart => exact hpart
  | .union alternatives => by
    rw [hasEmptyUnion, Bool.or_eq_true, anyHasEmptyUnion_iff alternatives, standsIn_union_iff,
      List.isEmpty_iff, ArgType.union.injEq, eq_comm]

theorem anyHasEmptyUnion_iff : (types : List ArgType) →
    (anyHasEmptyUnion types = true ↔ ∃ type ∈ types, (union []).StandsIn type)
  | [] => by simp [anyHasEmptyUnion]
  | type :: types => by
    rw [anyHasEmptyUnion, Bool.or_eq_true, hasEmptyUnion_iff type, anyHasEmptyUnion_iff types,
      List.exists_mem_cons_iff]

end

mutual

/-- A type admits the kinds of literals that it offers. -/
theorem admits_iff {kind : Scalar} : (type : ArgType) → (type.admits kind = true ↔ type.Offers kind)
  | .scalar own => by
    rw [admits, decide_eq_true_iff]
    constructor
    · rintro rfl
      exact .itself
    · rintro ⟨⟩
      rfl
  | .series => ⟨fun h ↦ absurd h Bool.false_ne_true, fun h ↦ by cases h⟩
  | .list element => ⟨fun h ↦ absurd h Bool.false_ne_true, fun h ↦ by cases h⟩
  | .union alternatives => by rw [admits, anyAdmits_iff alternatives, offers_union_iff]

theorem anyAdmits_iff {kind : Scalar} : (types : List ArgType) →
    (anyAdmits kind types = true ↔ ∃ type ∈ types, type.Offers kind)
  | [] => by simp [anyAdmits]
  | type :: types => by
    rw [anyAdmits, Bool.or_eq_true, admits_iff type, anyAdmits_iff types, List.exists_mem_cons_iff]

end

theorem hasEmptyUnion_eq_false_iff {type : ArgType} :
    type.hasEmptyUnion = false ↔ ¬ (union []).StandsIn type := by
  rw [← hasEmptyUnion_iff, Bool.not_eq_true]

theorem accepts_iff {type : ArgType} {value : Literal} :
    type.accepts value = true ↔ type.Offers value.scalar :=
  admits_iff type

end ArgType

/-! ### Checks -/

/-- What is checked of a catalog in which formulas can begin. -/
inductive Check
  /-- The type of a parameter, counted from one. -/
  | parameterType (operator : String) (place : Nat) (type : ArgType)
  /-- The type of a keyword argument. -/
  | keywordType (operator keyword : String) (type : ArgType)
  /-- The default of a keyword argument. -/
  | keywordDefault (operator keyword : String) (value : Literal) (type : ArgType)

namespace Check

/-- In a type there must not be a choice without alternatives, and a default must be of a kind that its
type offers. -/
def Fails : Check → Prop
  | .parameterType _ _ type => (ArgType.union []).StandsIn type
  | .keywordType _ _ type => (ArgType.union []).StandsIn type
  | .keywordDefault _ _ value type => ¬ type.Offers value.scalar

/-- What is said of a check that is not passed. -/
def fault : Check → CatalogFault
  | .parameterType operator place _ => .emptyUnionInParameter operator place
  | .keywordType operator keyword _ => .emptyUnionInKeyword operator keyword
  | .keywordDefault operator keyword value type => .unfitDefault operator keyword value type

instance : DecidablePred Fails
  | .parameterType _ _ type => decidable_of_iff _ type.hasEmptyUnion_iff
  | .keywordType _ _ type => decidable_of_iff _ type.hasEmptyUnion_iff
  | .keywordDefault _ _ _ _ => decidable_of_iff _ (not_congr ArgType.accepts_iff)

/-- What is wrong if a check is not passed. -/
def fault? (check : Check) : Option CatalogFault :=
  if check.Fails then some check.fault else none

theorem fault?_eq_none_iff {check : Check} : check.fault? = none ↔ ¬ check.Fails := by
  simp [fault?]

theorem fault?_eq_some_iff {check : Check} {reason : CatalogFault} :
    check.fault? = some reason ↔ check.Fails ∧ reason = check.fault := by
  simp [fault?, eq_comm]

theorem fault?_parameterType (operator : String) (place : Nat) (type : ArgType) :
    (parameterType operator place type).fault? =
      if type.hasEmptyUnion then some (.emptyUnionInParameter operator place) else none :=
  if_congr type.hasEmptyUnion_iff.symm rfl rfl

theorem fault?_keywordType (operator keyword : String) (type : ArgType) :
    (keywordType operator keyword type).fault? =
      if type.hasEmptyUnion then some (.emptyUnionInKeyword operator keyword) else none :=
  if_congr type.hasEmptyUnion_iff.symm rfl rfl

theorem fault?_keywordDefault (operator keyword : String) (value : Literal) (type : ArgType) :
    (keywordDefault operator keyword value type).fault? =
      if type.accepts value then none else some (.unfitDefault operator keyword value type) := by
  by_cases hoffers : type.Offers value.scalar
  · rw [if_pos (ArgType.accepts_iff.mpr hoffers)]
    exact fault?_eq_none_iff.mpr (not_not_intro hoffers)
  · rw [if_neg (mt ArgType.accepts_iff.mp hoffers)]
    exact fault?_eq_some_iff.mpr ⟨hoffers, rfl⟩

end Check

/-- The checks of a keyword argument: that of its type, and then that of its default if it has one. -/
def Keyword.checks (operator : String) (keyword : Keyword) : List Check :=
  .keywordType operator keyword.name keyword.type ::
    (keyword.default.map fun value ↦
      .keywordDefault operator keyword.name value keyword.type).toList

/-- The checks of some parameters, the first of which has a given place. -/
def parameterChecks (operator : String) (place : Nat) (types : List ArgType) : List Check :=
  (types.zipIdx place).map fun (type, place) ↦ .parameterType operator place type

/-- The checks of an operator: those of its parameters come before those of its keyword arguments. -/
def Operator.checks (operator : Operator) : List Check :=
  parameterChecks operator.name 1 operator.parameters ++
    operator.keywords.flatMap (Keyword.checks operator.name)

/-! ### Which fault is found -/

theorem parameterFault?_eq (operator : String) (place : Nat) (types : List ArgType) :
    parameterFault? operator place types =
      (parameterChecks operator place types).findSome? Check.fault? := by
  induction types generalizing place with
  | nil => rfl
  | cons type types ih =>
    rw [parameterChecks, List.zipIdx_cons, List.map_cons, List.findSome?_cons, parameterFault?, ih,
      Check.fault?_parameterType, parameterChecks]
    cases type.hasEmptyUnion <;> rfl

theorem Keyword.fault?_eq (operator : String) (keyword : Keyword) :
    keyword.fault? operator = (keyword.checks operator).findSome? Check.fault? := by
  rw [Keyword.fault?, Keyword.checks, List.findSome?_cons, Check.fault?_keywordType]
  cases keyword.type.hasEmptyUnion with
  | true => rfl
  | false =>
    cases keyword.default with
    | none => rfl
    | some value =>
      rw [Option.map_some, Option.toList_some, List.findSome?_singleton, Check.fault?_keywordDefault]
      rfl

theorem Operator.fault?_eq (operator : Operator) :
    operator.fault? = operator.checks.findSome? Check.fault? := by
  rw [Operator.fault?, Operator.checks, List.findSome?_append, findSome?_flatMap, parameterFault?_eq,
    funext (Keyword.fault?_eq operator.name)]
  cases (parameterChecks operator.name 1 operator.parameters).findSome? Check.fault? <;> rfl

theorem findSome?_operators (operators : List Operator) :
    operators.findSome? Operator.fault? =
      (operators.flatMap Operator.checks).findSome? Check.fault? := by
  rw [findSome?_flatMap, funext Operator.fault?_eq]

/-- If an operator produces a series, the fault of a catalog is that of the first check that is not
passed. -/
theorem fault?_of_series {operators : List Operator}
    (hseries : ∃ operator ∈ operators, operator.result = .series) :
    (Catalog.ofList operators).fault? =
      (operators.flatMap Operator.checks).findSome? Check.fault? := by
  have hsome : ((Catalog.ofList operators).operators .series).isEmpty = false := by
    simpa [Catalog.operators_ofList] using hseries
  rw [Catalog.fault?, hsome, if_neg Bool.false_ne_true, Catalog.declared_ofList, findSome?_operators]

/-- If no operator produces a series, that is the fault of a catalog. -/
theorem fault?_of_no_series {operators : List Operator}
    (hseries : ¬ ∃ operator ∈ operators, operator.result = .series) :
    (Catalog.ofList operators).fault? = some .noSeriesOperator := by
  have hnone : ((Catalog.ofList operators).operators .series).isEmpty = true := by
    simpa [Catalog.operators_ofList] using hseries
  rw [Catalog.fault?, hnone, if_pos rfl]

/-- A catalog that was built from some operators is sound exactly if one of them produces a series, no
type of theirs has a choice without alternatives anywhere, and every default is of a kind that its type
offers. -/
theorem fault?_ofList_eq_none_iff {operators : List Operator} :
    (Catalog.ofList operators).fault? = none ↔
      (∃ operator ∈ operators, operator.result = .series) ∧
        ∀ operator ∈ operators,
          (∀ type ∈ operator.types, ¬ (ArgType.union []).StandsIn type) ∧
            ∀ keyword ∈ operator.keywords, ∀ value ∈ keyword.default,
              keyword.type.Offers value.scalar := by
  by_cases hseries : ∃ operator ∈ operators, operator.result = .series
  · rw [fault?_of_series hseries, ← findSome?_operators, List.findSome?_eq_none_iff,
      and_iff_right hseries]
    simp only [Operator.fault?_eq_none_iff, ArgType.hasEmptyUnion_eq_false_iff, ArgType.accepts_iff]
  · simp [fault?_of_no_series hseries, hseries]

/-- A catalog that was built from some operators is sound exactly if one of them produces a series, no
type of theirs has a choice without alternatives anywhere, and every default is of a kind that its type
offers. Otherwise the fault is that no operator produces a series, or, if one does, the fault of the first
check in the order of declaration that is not passed. -/
theorem fault?_ofList (operators : List Operator) :
    ((Catalog.ofList operators).fault? = none ↔
      (∃ operator ∈ operators, operator.result = .series) ∧
        ∀ operator ∈ operators,
          (∀ type ∈ operator.types, ¬ (ArgType.union []).StandsIn type) ∧
            ∀ keyword ∈ operator.keywords, ∀ value ∈ keyword.default,
              keyword.type.Offers value.scalar) ∧
    ∀ reason, (Catalog.ofList operators).fault? = some reason ↔
      (¬ ∃ operator ∈ operators, operator.result = .series) ∧ reason = .noSeriesOperator ∨
        (∃ operator ∈ operators, operator.result = .series) ∧
          ∃ earlier check later, operators.flatMap Operator.checks = earlier ++ check :: later ∧
            (∀ other ∈ earlier, ¬ other.Fails) ∧ check.Fails ∧ reason = check.fault := by
  refine ⟨fault?_ofList_eq_none_iff, fun reason ↦ ?_⟩
  by_cases hseries : ∃ operator ∈ operators, operator.result = .series
  · rw [fault?_of_series hseries, List.findSome?_eq_some_iff]
    simp only [hseries, not_true_eq_false, false_and, false_or, true_and, Check.fault?_eq_none_iff,
      Check.fault?_eq_some_iff]
    constructor
    · rintro ⟨earlier, check, later, hchecks, ⟨hfails, hreason⟩, hpassed⟩
      exact ⟨earlier, check, later, hchecks, hpassed, hfails, hreason⟩
    · rintro ⟨earlier, check, later, hchecks, hpassed, hfails, hreason⟩
      exact ⟨earlier, check, later, hchecks, ⟨hfails, hreason⟩, hpassed⟩
  · rw [fault?_of_no_series hseries, Option.some.injEq, and_iff_right hseries, eq_comm]
    exact ⟨.inl, fun h ↦ h.resolve_right fun hfound ↦ hseries hfound.1⟩

/-- Of several unfit defaults the first declared one is reported, whatever its operator produces. -/
example :
    (Catalog.ofList [⟨"series", .series, [], []⟩,
      ⟨"first", .scalar .bool, [], [⟨"n", .scalar .int, some (.bool false)⟩]⟩,
      ⟨"second", .series, [], [⟨"n", .scalar .int, some (.bool false)⟩]⟩]).fault? =
    some (.unfitDefault "first" "n" (.bool false) (.scalar .int)) := by
  decide

end Formulary
