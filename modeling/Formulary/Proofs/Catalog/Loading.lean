import Formulary.Proofs.ArgType.Grammar
import Formulary.Proofs.Catalog.Defaults
import Formulary.Proofs.Catalog.Soundness
/-!
Loading a catalog. A document asks for conversions: of each operator its result, then its parameters,
and then the type and the default of each keyword argument. If one of them cannot be done, loading fails
with the fault of the first one in the order of the document (`fault?_operator`). If all of them can be
done, the catalog declares what the document lists (`OperatorEntry.Declares`), and it is refused if it
is not sound. A type expression never denotes a choice without alternatives
(`hasEmptyUnion_of_ofText`), so that is never the reason. Main definitions: `Conversion`,
`Conversion.fault?` and `OperatorEntry.Declares`.
-/

set_option autoImplicit false
set_option relaxedAutoImplicit false

namespace Formulary

/-! ### Faults of conversions -/

/-- The fault of what went wrong, if it did. -/
def faultOf {ε α : Type} : Except ε α → Option ε
  | .error fault => some fault
  | .ok _ => none

/-- Of two steps that are taken one after the other the first one is the first to go wrong. -/
theorem faultOf_bind {ε α β : Type} {first : Except ε α} {next : α → Except ε β} {rest : Option ε}
    (hnext : ∀ value, first = .ok value → faultOf (next value) = rest) :
    faultOf (first >>= next) = (faultOf first).or rest := by
  cases first with
  | error fault => rfl
  | ok value => exact hnext value rfl

/-- Of some items that are converted in order the first one that cannot be is the first to go wrong. -/
theorem faultOf_mapM {ε α β : Type} (convert : α → Except ε β) (items : List α) :
    faultOf (items.mapM convert) = items.findSome? fun item ↦ faultOf (convert item) := by
  induction items with
  | nil => rfl
  | cons item items ih =>
    have hrest (value : β) (_ : convert item = .ok value) :
        faultOf (items.mapM convert >>= fun values ↦ pure (value :: values)) =
          items.findSome? fun item ↦ faultOf (convert item) := by
      have hpure (values : List β) (_ : items.mapM convert = .ok values) :
          faultOf (pure (value :: values) : Except ε (List β)) = none := rfl
      rw [faultOf_bind hpure, ih, Option.or_none]
    rw [List.mapM_cons, faultOf_bind hrest, List.findSome?_cons]
    cases faultOf (convert item) <;> rfl

/-- What a document asks to be converted. -/
inductive Conversion
  /-- A type expression is to be the result of an operator. -/
  | result (operator expression : String)
  /-- A type expression is to be the type of a parameter or a keyword argument. -/
  | argument (expression : String)
  /-- A JSON value is to be the default of a keyword argument of an operator. -/
  | default (operator keyword : String) (value : Json)

/-- Why a conversion cannot be done, if it cannot. A type expression has to denote a type, and the
result of an operator has to be a base. A default must not be an array or an object. -/
def Conversion.fault? : Conversion → Option Fault
  | .result operator expression =>
    match ArgType.ofText expression with
    | .error fault => some (.typeExpression expression fault)
    | .ok .series | .ok (.scalar _) => none
    | .ok type => some (.resultType operator expression type)
  | .argument expression =>
    match ArgType.ofText expression with
    | .error fault => some (.typeExpression expression fault)
    | .ok _ => none
  | .default operator keyword value =>
    match value with
    | .null | .bool _ | .integer _ | .real _ | .string _ => none
    | .unreadable | .array _ | .object _ => some (.compoundDefault operator keyword value)

/-- The conversions that a keyword argument of an operator asks for. -/
def KeywordEntry.conversions (operator : String) (entry : KeywordEntry) : List Conversion :=
  [.argument entry.type, .default operator entry.name entry.default]

/-- The conversions that an operator asks for, in the order of the document. -/
def OperatorEntry.conversions (entry : OperatorEntry) : List Conversion :=
  .result entry.name entry.result :: entry.parameters.map .argument ++
    entry.keywords.flatMap (KeywordEntry.conversions entry.name)

theorem faultOf_typeOf (expression : String) :
    faultOf (typeOf expression) = (Conversion.argument expression).fault? := by
  simp only [typeOf, Conversion.fault?]
  cases ArgType.ofText expression <;> rfl

theorem faultOf_result (operator expression : String) :
    faultOf (typeOf expression >>= baseOf operator expression) =
      (Conversion.result operator expression).fault? := by
  simp only [typeOf, Conversion.fault?]
  cases ArgType.ofText expression with
  | error fault => rfl
  | ok type => cases type <;> rfl

/-- Whether a default can be converted does not depend on its type. -/
theorem fault?_default (type : ArgType) (operator keyword : String) (value : Json) :
    (Conversion.default operator keyword value).fault? =
      if (defaultOf type value).isNone then some (.compoundDefault operator keyword value)
      else none := by
  cases value with
  | null | bool | real | unreadable | array | object => rfl
  | integer value =>
    rw [defaultOf]
    cases (int64? value).filter fun _ ↦ type.admits .int <;> rfl
  | string text =>
    rw [defaultOf]
    cases (Timestamp.ofFormulaText? text.toList).filter fun _ ↦ type.admits .timestamp <;> rfl

theorem faultOf_keyword (operator : String) (entry : KeywordEntry) :
    faultOf (entry.keyword operator) = (entry.conversions operator).findSome? Conversion.fault? := by
  have hboth : faultOf (entry.keyword operator) = (faultOf (typeOf entry.type)).or
      (Conversion.default operator entry.name entry.default).fault? := by
    refine faultOf_bind fun type _ ↦ ?_
    rw [fault?_default type]
    cases defaultOf type entry.default <;> rfl
  rw [hboth, faultOf_typeOf, KeywordEntry.conversions, List.findSome?_cons, List.findSome?_singleton]
  cases (Conversion.argument entry.type).fault? <;> rfl

theorem faultOf_keywords (operator : String) (entries : List KeywordEntry) :
    faultOf (entries.mapM (KeywordEntry.keyword operator)) =
      (entries.flatMap (KeywordEntry.conversions operator)).findSome? Conversion.fault? := by
  simp only [faultOf_mapM, faultOf_keyword, findSome?_flatMap]

theorem faultOf_parameters (expressions : List String) :
    faultOf (expressions.mapM typeOf) =
      (expressions.map Conversion.argument).findSome? Conversion.fault? := by
  rw [faultOf_mapM, List.findSome?_map]
  exact congrArg (List.findSome? · expressions) (funext faultOf_typeOf)

/-- The fault of an operator in a document is that of its first conversion that cannot be done. -/
theorem faultOf_operator (entry : OperatorEntry) :
    faultOf entry.operator = entry.conversions.findSome? Conversion.fault? := by
  -- the result is converted in two steps, which are one conversion
  have hresult : entry.operator = (typeOf entry.result >>= baseOf entry.name entry.result) >>=
      fun result ↦ entry.parameters.mapM typeOf >>= fun parameters ↦
        entry.keywords.mapM (KeywordEntry.keyword entry.name) >>= fun keywords ↦
          .ok (Operator.mk entry.name result parameters keywords) := by
    rw [bind_assoc]
    rfl
  have hinOrder : faultOf entry.operator =
      (faultOf (typeOf entry.result >>= baseOf entry.name entry.result)).or
        ((faultOf (entry.parameters.mapM typeOf)).or
          ((faultOf (entry.keywords.mapM (KeywordEntry.keyword entry.name))).or none)) := by
    rw [hresult]
    exact faultOf_bind fun result _ ↦ faultOf_bind fun parameters _ ↦ faultOf_bind fun keywords _ ↦ rfl
  rw [hinOrder, faultOf_result, faultOf_parameters, faultOf_keywords, OperatorEntry.conversions,
    List.cons_append, List.findSome?_cons, List.findSome?_append, Option.or_none]
  cases (Conversion.result entry.name entry.result).fault? <;> rfl

/-- The fault of the operators in a document is that of the first conversion that cannot be done. -/
theorem faultOf_operators (entries : List OperatorEntry) :
    faultOf (entries.mapM OperatorEntry.operator) =
      (entries.flatMap OperatorEntry.conversions).findSome? Conversion.fault? := by
  simp only [faultOf_mapM, faultOf_operator, findSome?_flatMap]

/-! ### What is declared -/

/-- What is declared for a keyword argument in a document. -/
structure KeywordEntry.Declares (entry : KeywordEntry) (keyword : Keyword) : Prop where
  name : keyword.name = entry.name
  type : ArgType.ofText entry.type = .ok keyword.type
  default : defaultOf keyword.type entry.default = some keyword.default

/-- What is declared for an operator in a document. -/
structure OperatorEntry.Declares (entry : OperatorEntry) (operator : Operator) : Prop where
  name : operator.name = entry.name
  result : ArgType.ofText entry.result = .ok operator.result.toArgType
  parameters : List.Forall₂ (fun expression type ↦ ArgType.ofText expression = .ok type)
    entry.parameters operator.parameters
  keywords : List.Forall₂ KeywordEntry.Declares entry.keywords operator.keywords

theorem typeOf_eq_ok_iff {expression : String} {type : ArgType} :
    typeOf expression = .ok type ↔ ArgType.ofText expression = .ok type := by
  rw [typeOf]
  cases ArgType.ofText expression with
  | error fault => exact ⟨nofun, nofun⟩
  | ok found => simp only [Except.ok.injEq]

theorem declares_of_keyword {operator : String} {entry : KeywordEntry} {keyword : Keyword}
    (h : entry.keyword operator = .ok keyword) : entry.Declares keyword := by
  obtain ⟨type, htype, h⟩ := bind_eq_ok_iff.mp h
  split at h
  · rename_i default hdefault
    obtain rfl := Except.ok.inj h
    exact ⟨rfl, typeOf_eq_ok_iff.mp htype, hdefault⟩
  · exact nomatch h

theorem toArgType_of_baseOf {operator expression : String} {type : ArgType} {base : Base}
    (h : baseOf operator expression type = .ok base) : type = base.toArgType := by
  cases type with
  | series | scalar =>
    obtain rfl := Except.ok.inj h
    rfl
  | union | list => exact nomatch h

theorem declares_of_operator {entry : OperatorEntry} {operator : Operator}
    (h : entry.operator = .ok operator) : entry.Declares operator := by
  obtain ⟨type, htype, h⟩ := bind_eq_ok_iff.mp h
  obtain ⟨result, hresult, h⟩ := bind_eq_ok_iff.mp h
  obtain ⟨parameters, hparameters, h⟩ := bind_eq_ok_iff.mp h
  obtain ⟨keywords, hkeywords, h⟩ := bind_eq_ok_iff.mp h
  obtain rfl := Except.ok.inj h
  obtain rfl := toArgType_of_baseOf hresult
  refine ⟨rfl, typeOf_eq_ok_iff.mp htype, ?_, ?_⟩
  · exact (mapM_eq_ok_iff.mp hparameters).imp fun _ _ ↦ typeOf_eq_ok_iff.mp
  · exact (mapM_eq_ok_iff.mp hkeywords).imp fun _ _ ↦ declares_of_keyword

theorem declares_of_operators {entries : List OperatorEntry} {operators : List Operator}
    (h : entries.mapM OperatorEntry.operator = .ok operators) :
    List.Forall₂ OperatorEntry.Declares entries operators :=
  (mapM_eq_ok_iff.mp h).imp fun _ _ ↦ declares_of_operator

/-- No type of a declared operator has a choice without alternatives. -/
theorem OperatorEntry.Declares.hasEmptyUnion {entry : OperatorEntry} {operator : Operator}
    (h : entry.Declares operator) : ∀ type ∈ operator.types, type.hasEmptyUnion = false := by
  refine List.forall_mem_append.mpr ⟨fun type htype ↦ ?_, List.forall_mem_map.mpr fun own hown ↦ ?_⟩
  · obtain ⟨expression, -, hread⟩ := exists_mem_of_forall₂ h.parameters.flip htype
    exact ArgType.hasEmptyUnion_of_ofText hread
  · obtain ⟨entry, -, hdeclares⟩ := exists_mem_of_forall₂ h.keywords.flip hown
    exact ArgType.hasEmptyUnion_of_ofText hdeclares.type

/-! ### Soundness -/

/-- Whether a catalog is refused for a choice without alternatives. -/
def CatalogFault.isEmptyUnion : CatalogFault → Bool
  | .emptyUnionInParameter _ _ | .emptyUnionInKeyword _ _ => true
  | .noSeriesOperator | .unfitDefault _ _ _ _ => false

theorem isEmptyUnion_of_keyword {operator : String} {keyword : Keyword} {fault : CatalogFault}
    (htype : keyword.type.hasEmptyUnion = false) (h : keyword.fault? operator = some fault) :
    fault.isEmptyUnion = false := by
  rw [Keyword.fault?, htype, if_neg Bool.false_ne_true] at h
  split at h
  · cases h
  · split at h
    · cases h
    · obtain rfl := Option.some.inj h
      rfl

theorem isEmptyUnion_of_operator {operator : Operator} {fault : CatalogFault}
    (htypes : ∀ type ∈ operator.types, type.hasEmptyUnion = false)
    (h : operator.fault? = some fault) : fault.isEmptyUnion = false := by
  rw [Operator.types, List.forall_mem_append, List.forall_mem_map] at htypes
  rw [Operator.fault?, parameterFault?_eq_none_iff.mpr htypes.1] at h
  obtain ⟨keyword, hkeyword, hfault⟩ := List.exists_of_findSome?_eq_some h
  exact isEmptyUnion_of_keyword (htypes.2 keyword hkeyword) hfault

/-- A catalog whose types have no choice without alternatives is not refused for one. -/
theorem isEmptyUnion_of_catalog {operators : List Operator} {fault : CatalogFault}
    (htypes : ∀ operator ∈ operators, ∀ type ∈ operator.types, type.hasEmptyUnion = false)
    (h : (Catalog.ofList operators).fault? = some fault) : fault.isEmptyUnion = false := by
  rw [Catalog.fault?, Catalog.declared_ofList] at h
  split at h
  · obtain rfl := Option.some.inj h
    rfl
  · obtain ⟨operator, hoperator, hfault⟩ := List.exists_of_findSome?_eq_some h
    exact isEmptyUnion_of_operator (htypes operator hoperator) hfault

/-! ### Loading -/

theorem ofText_eq_ok_iff {source : String} {catalog : Catalog} :
    Catalog.ofText source = .ok catalog ↔
      ∃ entries operators,
        (Json.ofExchangeText? source).bind OperatorEntry.listOfDocument? = some entries ∧
        entries.mapM OperatorEntry.operator = .ok operators ∧
        (Catalog.ofList operators).fault? = none ∧ catalog = .ofList operators := by
  rw [Catalog.ofText]
  cases (Json.ofExchangeText? source).bind OperatorEntry.listOfDocument? with
  | none => simp
  | some entries =>
    simp only [bind_eq_ok_iff, Option.some.injEq, exists_and_left, exists_eq_left']
    refine exists_congr fun operators ↦ and_congr_right fun _ ↦ ?_
    cases (Catalog.ofList operators).fault? <;> simp [eq_comm]

theorem ofText_eq_error_iff {source : String} {entries : List OperatorEntry} {fault : Fault}
    (hentries : (Json.ofExchangeText? source).bind OperatorEntry.listOfDocument? = some entries) :
    Catalog.ofText source = .error fault ↔
      entries.mapM OperatorEntry.operator = .error fault ∨
        ∃ operators reason, entries.mapM OperatorEntry.operator = .ok operators ∧
          (Catalog.ofList operators).fault? = some reason ∧ fault = .unsoundCatalog reason := by
  rw [Catalog.ofText, hentries]
  dsimp only
  cases entries.mapM OperatorEntry.operator with
  | error fault => simp [bind, Except.bind]
  | ok operators =>
    cases hsound : (Catalog.ofList operators).fault? <;> simp [bind, Except.bind, hsound, eq_comm]

/-- What comes of loading a catalog from a text. A catalog that is loaded is sound and declares the
operators that the document lists, one for one and in their order. If the text is a document but is
refused, then the fault is that of its first conversion that cannot be done, or all can be done and the
fault is that the catalog is not sound, though not for a choice without alternatives. -/
theorem catalog_ofText_cases (source : String) :
    (∀ catalog, Catalog.ofText source = .ok catalog → catalog.fault? = none ∧
      ∃ entries, (Json.ofExchangeText? source).bind OperatorEntry.listOfDocument? = some entries ∧
        List.Forall₂ OperatorEntry.Declares entries catalog.declared) ∧
    ∀ entries fault,
      (Json.ofExchangeText? source).bind OperatorEntry.listOfDocument? = some entries →
      Catalog.ofText source = .error fault →
        (∃ earlier conversion later,
          entries.flatMap OperatorEntry.conversions = earlier ++ conversion :: later ∧
            (∀ other ∈ earlier, other.fault? = none) ∧ conversion.fault? = some fault) ∨
        (∀ conversion ∈ entries.flatMap OperatorEntry.conversions, conversion.fault? = none) ∧
          ∃ operators reason, List.Forall₂ OperatorEntry.Declares entries operators ∧
            (Catalog.ofList operators).fault? = some reason ∧ fault = .unsoundCatalog reason ∧
              reason.isEmptyUnion = false := by
  constructor
  · intro catalog hloaded
    obtain ⟨entries, operators, hentries, hoperators, hsound, rfl⟩ := ofText_eq_ok_iff.mp hloaded
    refine ⟨hsound, entries, hentries, ?_⟩
    rw [Catalog.declared_ofList]
    exact declares_of_operators hoperators
  · intro entries fault hentries hrefused
    have hfirst := faultOf_operators entries
    obtain hfault | ⟨operators, reason, hoperators, hreason, rfl⟩ :=
      (ofText_eq_error_iff hentries).mp hrefused
    · rw [hfault] at hfirst
      obtain ⟨earlier, conversion, later, hsplit, hconversion, hearlier⟩ :=
        List.findSome?_eq_some_iff.mp hfirst.symm
      exact .inl ⟨earlier, conversion, later, hsplit, hearlier, hconversion⟩
    · rw [hoperators] at hfirst
      have hdeclares := declares_of_operators hoperators
      refine .inr ⟨List.findSome?_eq_none_iff.mp hfirst.symm, operators, reason, hdeclares, hreason,
        rfl, isEmptyUnion_of_catalog (fun operator hoperator ↦ ?_) hreason⟩
      obtain ⟨entry, -, hdeclared⟩ := exists_mem_of_forall₂ hdeclares.flip hoperator
      exact hdeclared.hasEmptyUnion

/-- A document with a parameter of an unknown type, and behind it an operator that returns what no operator
can. -/
def documentWithFaults : String :=
  "[[[\"f\", \"Series\", [\"Int\", \"Foo\"]], [\"g\", \"List[Int]\"]]]"

/-- An operator on an integer is loaded as it is declared. Of two conversions that cannot be done in a
document, that of a parameter of the first operator comes before that of the result of the second one. -/
theorem catalog_ofText_onInteger_and_faults :
    (∃ catalog, Catalog.ofText "[[[\"f\", \"Series\", [\"Int\"]]]]" = .ok catalog ∧
      catalog.declared = [⟨"f", .series, [.scalar .int], []⟩] ∧ catalog.fault? = none ∧
        ∃ entries, List.Forall₂ OperatorEntry.Declares entries catalog.declared) ∧
    ∃ (entries : List OperatorEntry) (earlier later : List Conversion) (conversion : Conversion)
      (fault : Fault),
      entries.map OperatorEntry.parameters = [["Int", "Foo"], []] ∧
        entries.flatMap OperatorEntry.conversions = earlier ++ conversion :: later ∧
        (∀ other ∈ earlier, other.fault? = none) ∧ conversion.fault? = some fault ∧
        fault.message = "Unknown type 'Foo' in type expression 'Foo'" := by
  constructor
  · have hloaded : Catalog.ofText "[[[\"f\", \"Series\", [\"Int\"]]]]" =
        .ok (.ofList [⟨"f", .series, [.scalar .int], []⟩]) := by
      refine catalog_ofText_eq_ok ?_
      decide +kernel
    obtain ⟨hsound, entries, -, hdeclares⟩ := (catalog_ofText_cases _).1 _ hloaded
    exact ⟨_, hloaded, Catalog.declared_ofList _, hsound, entries, hdeclares⟩
  · have hlisted : ((Json.ofExchangeText? documentWithFaults).bind OperatorEntry.listOfDocument?).map
        (List.map OperatorEntry.parameters) = some [["Int", "Foo"], []] := by
      decide +kernel
    have hmessage : (faultOf (Catalog.ofText documentWithFaults)).map Fault.message =
        some "Unknown type 'Foo' in type expression 'Foo'" := by
      decide +kernel
    obtain ⟨entries, hentries, hparameters⟩ := Option.map_eq_some_iff.mp hlisted
    cases hread : Catalog.ofText documentWithFaults with
    | ok catalog =>
      rw [hread] at hmessage
      cases hmessage
    | error fault =>
      rw [hread] at hmessage
      obtain ⟨earlier, conversion, later, hsplit, hearlier, hfault⟩ | ⟨hall, -⟩ :=
        (catalog_ofText_cases _).2 entries fault hentries hread
      · exact ⟨entries, earlier, later, conversion, fault, hparameters, hsplit, hearlier, hfault,
          Option.some.inj hmessage⟩
      · have hfirst : ["Int", "Foo"] ∈ entries.map OperatorEntry.parameters := by
          rw [hparameters]
          exact List.mem_cons_self
        obtain ⟨entry, hentry, hsame⟩ := List.mem_map.mp hfirst
        have hunknown : Conversion.argument "Foo" ∈ entry.conversions := by
          simp [OperatorEntry.conversions, hsame]
        have hnone := hall _ (List.mem_flatMap.mpr ⟨entry, hentry, hunknown⟩)
        have hsome : (Conversion.argument "Foo").fault?.isSome = true := by decide +kernel
        rw [hnone] at hsome
        cases hsome

end Formulary
