import Formulary.Catalog
/-!
What a catalog keeps. The operators of a base are the declared ones that produce it, in their order
(`operators_ofList`), and no type of an operator is deeper than the catalog (`depth_le_of_mem`).
-/

set_option autoImplicit false
set_option relaxedAutoImplicit false

namespace Formulary

namespace ArgType

theorem depth_le_depthOfAll {type : ArgType} {types : List ArgType} (h : type ∈ types) :
    type.depth ≤ depthOfAll types := by
  induction types with
  | nil => exact absurd h List.not_mem_nil
  | cons first types ih =>
    rw [depthOfAll]
    rcases List.mem_cons.mp h with rfl | hlater
    · exact Nat.le_max_left _ _
    · exact Nat.le_trans (ih hlater) (Nat.le_max_right _ _)

theorem depthOfAll_le {types : List ArgType} {bound : Nat}
    (h : ∀ type ∈ types, type.depth ≤ bound) : depthOfAll types ≤ bound := by
  induction types with
  | nil => exact Nat.zero_le _
  | cons first types ih =>
    rw [List.forall_mem_cons] at h
    exact Nat.max_le.mpr ⟨h.1, ih h.2⟩

end ArgType

namespace Catalog

/-- One more operator comes last among those of its base and leaves the other bases alone. -/
theorem lookup_addToGroup (operator : Operator) (groups : List (Base × List Operator))
    (base : Base) :
    ((addToGroup operator groups).lookup base).getD [] =
      (groups.lookup base).getD [] ++ if operator.result = base then [operator] else [] := by
  induction groups with
  | nil =>
    by_cases hbase : operator.result = base
    · simp [addToGroup, hbase]
    · have hother : (base == operator.result) = false := by simpa using Ne.symm hbase
      simp [addToGroup, List.lookup_cons, hbase, hother]
  | cons group groups ih =>
    obtain ⟨own, members⟩ := group
    by_cases hown : own = operator.result
    · subst hown
      by_cases hbase : operator.result = base
      · simp [addToGroup, hbase]
      · have hother : (base == operator.result) = false := by simpa using Ne.symm hbase
        simp [addToGroup, List.lookup_cons, hbase, hother]
    · by_cases hbase : base = own
      · subst hbase
        simp [addToGroup, hown, Ne.symm hown]
      · have hother : (base == own) = false := by simpa using hbase
        simp [addToGroup, hown, List.lookup_cons, hother, ih]

theorem operators_add (catalog : Catalog) (operator : Operator) (base : Base) :
    (catalog.add operator).operators base =
      catalog.operators base ++ if operator.result = base then [operator] else [] :=
  lookup_addToGroup operator catalog.groups base

theorem operators_foldl_add (operators : List Operator) (catalog : Catalog) (base : Base) :
    (operators.foldl add catalog).operators base =
      catalog.operators base ++ operators.filter fun operator ↦ operator.result = base := by
  induction operators generalizing catalog with
  | nil => simp
  | cons operator operators ih =>
    rw [List.foldl_cons, ih, operators_add, List.filter_cons, List.append_assoc]
    by_cases hbase : operator.result = base <;> simp [hbase]

/-- The operators of a base are the declared ones that produce it. -/
theorem operators_ofList (operators : List Operator) (base : Base) :
    (ofList operators).operators base = operators.filter fun operator ↦ operator.result = base :=
  operators_foldl_add operators empty base

theorem declared_foldl_add (operators : List Operator) (catalog : Catalog) :
    (operators.foldl add catalog).declared = catalog.declared ++ operators := by
  induction operators generalizing catalog with
  | nil => simp
  | cons operator operators ih => rw [List.foldl_cons, ih, add, List.append_assoc]; rfl

theorem declared_ofList (operators : List Operator) : (ofList operators).declared = operators :=
  declared_foldl_add operators empty

/-- Every operator of a base is a declared one. -/
theorem mem_of_mem_operators {operators : List Operator} {base : Base} {operator : Operator}
    (h : operator ∈ (ofList operators).operators base) : operator ∈ operators := by
  rw [operators_ofList] at h
  exact (List.mem_filter.mp h).1

/-- What holds of the operators of a list holds of those of every base. -/
theorem forall_mem_operators {operators : List Operator} {property : Operator → Prop}
    (h : ∀ operator ∈ operators, property operator) (base : Base) :
    ∀ operator ∈ (ofList operators).operators base, property operator :=
  fun operator hoperator ↦ h operator (mem_of_mem_operators hoperator)

/-- No type of an operator is deeper than the catalog. -/
theorem depth_le_of_mem {operators : List Operator} {operator : Operator} {type : ArgType}
    (hoperator : operator ∈ operators) (htype : type ∈ operator.types) :
    type.depth ≤ (ofList operators).depth := by
  refine ArgType.depth_le_depthOfAll ?_
  rw [declared_ofList]
  exact List.mem_flatMap.mpr ⟨operator, hoperator, htype⟩

end Catalog

end Formulary
