import Formulary.Catalog.Validation
import Formulary.Proofs.Catalog.Operators
/-!
What it means that no fault is found. The faults of a catalog are looked for in order and only the first
is shown; none is found exactly in a catalog that is sound in every respect (`fault?_eq_none_iff`). Main
definition: `Catalog.IsSound`.
-/

set_option autoImplicit false
set_option relaxedAutoImplicit false

namespace Formulary

theorem ArgType.hasEmptyUnion_of_mem {types : List ArgType} (h : anyHasEmptyUnion types = false) :
    ∀ type ∈ types, type.hasEmptyUnion = false := by
  induction types with
  | nil => exact fun _ hnone ↦ absurd hnone List.not_mem_nil
  | cons type types ih =>
    rw [anyHasEmptyUnion, Bool.or_eq_false_iff] at h
    exact List.forall_mem_cons.mpr ⟨h.1, ih h.2⟩

/-- A catalog is sound: formulas can begin, no type has a choice without alternatives, and every default
fits its type. -/
structure Catalog.IsSound (catalog : Catalog) : Prop where
  hasSeries : catalog.operators .series ≠ []
  hasAlternatives : ∀ operator ∈ catalog.declared, ∀ type ∈ operator.types, type.hasEmptyUnion = false
  fits : ∀ operator ∈ catalog.declared, ∀ keyword ∈ operator.keywords,
    ∀ value ∈ keyword.default, keyword.type.accepts value = true

theorem parameterFault?_eq_none_iff {operator : String} {place : Nat} {types : List ArgType} :
    parameterFault? operator place types = none ↔ ∀ type ∈ types, type.hasEmptyUnion = false := by
  induction types generalizing place with
  | nil => simp [parameterFault?]
  | cons type types ih =>
    rw [parameterFault?, List.forall_mem_cons]
    cases type.hasEmptyUnion with
    | true => simp
    | false => simpa using ih

theorem Keyword.fault?_eq_none_iff {operator : String} {keyword : Keyword} :
    keyword.fault? operator = none ↔
      keyword.type.hasEmptyUnion = false ∧
        ∀ value ∈ keyword.default, keyword.type.accepts value = true := by
  rw [Keyword.fault?]
  cases keyword.type.hasEmptyUnion with
  | true => simp
  | false => cases keyword.default <;> simp

theorem Operator.fault?_eq_none_iff {operator : Operator} :
    operator.fault? = none ↔
      (∀ type ∈ operator.types, type.hasEmptyUnion = false) ∧
        ∀ keyword ∈ operator.keywords, ∀ value ∈ keyword.default,
          keyword.type.accepts value = true := by
  have hparameters := @parameterFault?_eq_none_iff operator.name 1 operator.parameters
  rw [Operator.types, List.forall_mem_append, List.forall_mem_map, Operator.fault?]
  cases hfault : parameterFault? operator.name 1 operator.parameters with
  | some fault =>
    have hnot := mt hparameters.mpr (by simp [hfault])
    simp [hnot]
  | none =>
    simp only [List.findSome?_eq_none_iff, Keyword.fault?_eq_none_iff, forall_and]
    exact ⟨fun h ↦ ⟨⟨hparameters.mp hfault, h.1⟩, h.2⟩, fun h ↦ ⟨h.1.2, h.2⟩⟩

/-- No fault is found exactly in a sound catalog. -/
theorem Catalog.fault?_eq_none_iff {catalog : Catalog} :
    catalog.fault? = none ↔ catalog.IsSound := by
  rw [Catalog.fault?]
  by_cases hseries : catalog.operators .series = []
  · simp only [hseries, List.isEmpty_nil, if_true, reduceCtorEq, false_iff]
    exact fun hsound ↦ hsound.hasSeries hseries
  · simp only [List.isEmpty_iff, hseries, if_false, List.findSome?_eq_none_iff,
      Operator.fault?_eq_none_iff]
    exact ⟨fun h ↦ ⟨hseries, fun operator hoperator ↦ (h operator hoperator).1,
      fun operator hoperator ↦ (h operator hoperator).2⟩,
      fun hsound operator hoperator ↦
        ⟨hsound.hasAlternatives operator hoperator, hsound.fits operator hoperator⟩⟩

end Formulary
