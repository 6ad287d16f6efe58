import Formulary.Proofs.Formula.DeclarationOrder
/-!
Shadowed operators. An operator is looked for by its name alone, so one that is declared behind
another one of its name and its base is never taken: wherever its name comes next, the earlier one
has been taken already, and where the name does not come next the later operator only repeats what
was said of the earlier one (`parallel_firstOf_named_append`). So it changes neither what is read nor
where a report stands, and a report says nothing new, though it may say it again
(`parseFormula_add_shadowed`). Main definition: `IsRepeatedIn`.
-/

set_option autoImplicit false
set_option relaxedAutoImplicit false

namespace Formulary

open Text Place Reading

/-! ### Repeated complaints -/

/-- Some complaints are all there again, in their order, and nothing but them, though perhaps more
often. -/
structure IsRepeatedIn (complaints complaints' : List Complaint) : Prop where
  sublist : complaints.Sublist complaints'
  subset : complaints' ⊆ complaints

theorem isComparison_isRepeatedIn : IsComparison IsRepeatedIn where
  refl complaints := ⟨.refl complaints, List.Subset.refl complaints⟩
  append hfirst hsecond := by
    refine ⟨hfirst.sublist.append hsecond.sublist, List.append_subset.mpr ⟨?_, ?_⟩⟩
    · exact List.subset_append_of_subset_left _ hfirst.subset
    · exact List.subset_append_of_subset_right _ hsecond.subset

/-- A failure that there was before adds nothing but a complaint that there was before. -/
theorem isRepeatedIn_concat_of_mem {failures : List Failure} {failure : Failure}
    (h : failure ∈ failures) (offset : Nat) :
    IsRepeatedIn (complaintsAt failures offset) (complaintsAt (failures ++ [failure]) offset) := by
  rw [complaintsAt_append]
  refine ⟨List.sublist_append_left _ _, List.append_subset.mpr ⟨List.Subset.refl _, ?_⟩⟩
  exact List.map_subset _ (List.filter_subset _ (List.cons_subset.mpr ⟨h, List.nil_subset _⟩))

theorem frontier_concat_of_mem {failures : List Failure} {failure : Failure}
    (h : failure ∈ failures) : frontier (failures ++ [failure]) = frontier failures := by
  rw [frontier_append]
  exact Nat.max_eq_left (frontier_le (List.forall_mem_singleton.mpr (le_frontier h)))

/-! ### The choice of an operator -/

section Choice

variable {operators : List Operator} {extra : Operator} {place : Place}

/-- A choice that is made does not come to the steps behind. -/
theorem firstOf_append_of_some {α : Type} {steps : List (Reading α)} {found : α × Place}
    (h : (firstOf steps place).result = some found) (others : List (Reading α)) :
    firstOf (steps ++ others) place = firstOf steps place := by
  induction steps with
  | nil => exact nomatch h
  | cons step steps ih =>
    rw [List.cons_append, firstOf, firstOf]
    rw [firstOf] at h
    cases hstep : (trying step place).result with
    | some taken => rw [orElse_eq_of_some hstep, orElse_eq_of_some hstep]
    | none =>
      rw [orElse_eq_of_none hstep] at h
      rw [orElse_eq_of_none hstep, orElse_eq_of_none hstep, ih h]

/-- A further operator of a name that was looked for is never taken, and that it is not there has
been said already. -/
theorem parallel_firstOf_named_append
    (hshadowed : ∃ operator ∈ operators, operator.name = extra.name) (place : Place) :
    Parallel Eq IsRepeatedIn (firstOf (operators.map named))
      (firstOf ((operators ++ [extra]).map named)) place := by
  obtain ⟨operator, hoperator, hname⟩ := hshadowed
  have hfirst := accounts_discipline.firstOf_named (List.ne_nil_of_mem hoperator) place
  have hsecond := accounts_discipline.firstOf_named (List.concat_ne_nil extra operators) place
  refine ⟨?_, hfirst, hsecond⟩
  cases hresult : (firstOf (operators.map named) place).result with
  | some found =>
    have hsame : firstOf ((operators ++ [extra]).map named) place =
        firstOf (operators.map named) place := by
      rw [List.map_append]
      exact firstOf_append_of_some hresult _
    have hrefl : Resembles Eq IsRepeatedIn (firstOf (operators.map named))
        (firstOf (operators.map named)) place :=
      resembles_refl isComparison_isRepeatedIn fun _ ↦ rfl
    exact ⟨by rw [hsame]; exact hrefl.result, by rw [hsame], by rw [hsame]; exact hrefl.complaints⟩
  | none =>
    have hrefused : (named extra place).result = none := by
      rw [result_firstOf_eq_none_iff, List.forall_mem_map] at hresult
      have hother := hresult operator hoperator
      rw [result_named, Option.map_eq_none_iff] at hother ⊢
      rwa [← hname]
    have hresult' : (firstOf ((operators ++ [extra]).map named) place).result = none := by
      rw [result_firstOf_eq_none_iff] at hresult ⊢
      rw [List.map_append, List.forall_mem_append]
      exact ⟨hresult, List.forall_mem_singleton.mpr hrefused⟩
    -- the failure of the later operator is the one that the earlier operator has had already
    have hfailures := failures_firstOf_named hresult
    have hfailures' : (firstOf ((operators ++ [extra]).map named) place).failures =
        (firstOf (operators.map named) place).failures ++
          [⟨place.offset, .expectingKeyword extra.name⟩] := by
      rw [failures_firstOf_named hresult', hfailures, List.map_append, List.map_singleton]
    have hmem : (⟨place.offset, .expectingKeyword extra.name⟩ : Failure) ∈
        (firstOf (operators.map named) place).failures := by
      rw [hfailures, ← hname]
      exact List.mem_map_of_mem hoperator
    refine resembles_of_none hresult hresult' ?_ fun offset _ ↦ ?_ <;> rw [hfailures']
    · exact (frontier_concat_of_mem hmem).symm
    · exact isRepeatedIn_concat_of_mem hmem offset

end Choice

/-! ### Formulas -/

section Formulas

variable {operators : List Operator} {extra : Operator}
  (hshadowed : ∃ operator ∈ operators, operator.name = extra.name ∧ operator.result = extra.result)

include hshadowed

/-- A shadowed operator comes behind the one that shadows it among those of its base, and the other
bases do not have it. -/
theorem parallel_firstOf_operators_add (base : Base) :
    (((Catalog.ofList operators).operators base).isEmpty =
        (((Catalog.ofList operators).add extra).operators base).isEmpty) ∧
      (((Catalog.ofList operators).operators base).isEmpty = false → ∀ place,
        Parallel Eq IsRepeatedIn (firstOf (((Catalog.ofList operators).operators base).map named))
          (firstOf ((((Catalog.ofList operators).add extra).operators base).map named)) place) := by
  obtain ⟨operator, hoperator, hname, hresult⟩ := hshadowed
  rw [Catalog.operators_add]
  by_cases hbase : extra.result = base
  · have hmem : operator ∈ (Catalog.ofList operators).operators base := by
      rw [Catalog.operators_ofList]
      simp [hoperator, hresult, hbase]
    rw [if_pos hbase]
    refine ⟨?_, fun _ ↦ parallel_firstOf_named_append ⟨operator, hmem, hname⟩⟩
    rw [List.isEmpty_eq_false_iff.mpr (List.ne_nil_of_mem hmem),
      List.isEmpty_eq_false_iff.mpr (List.concat_ne_nil _ _)]
  · rw [if_neg hbase, List.append_nil]
    refine ⟨rfl, fun hsome place ↦ parallel_refl isComparison_isRepeatedIn ?_ fun _ ↦ rfl⟩
    exact accounts_discipline.firstOf_named (List.isEmpty_eq_false_iff.mp hsome) place

/-- An operator that is declared behind another one of its name and its base changes nothing but how
often the complaints of a report are repeated. -/
theorem parseFormula_add_shadowed (limit : Option Nat) (source : String) :
    (∃ outline, parseFormula (.ofList operators) limit source = .ok outline ∧
      parseFormula ((Catalog.ofList operators).add extra) limit source = .ok outline) ∨
    ∃ position, ∃ complaints complaints' : List Complaint,
      parseFormula (.ofList operators) limit source =
        .error (complaints.map fun complaint ↦ ⟨position, complaint⟩) ∧
      parseFormula ((Catalog.ofList operators).add extra) limit source =
        .error (complaints'.map fun complaint ↦ ⟨position, complaint⟩) ∧
      IsRepeatedIn complaints complaints' := by
  have hadd : (Catalog.ofList operators).add extra = .ofList (operators ++ [extra]) :=
    (List.foldl_concat ..).symm
  have hchosen := parallel_firstOf_operators_add hshadowed
  rw [hadd] at hchosen ⊢
  have hparallel (limit room : Nat) := parallelSlots_fill_of_chosen isComparison_isRepeatedIn
    (fun base ↦ (hchosen base).1) (fun base ↦ (hchosen base).2) limit room (.root .series)
  obtain ⟨outline, _, hread, hread', rfl⟩ |
      ⟨position, complaints, complaints', -, -, hcomplaints, hread, hread'⟩ :=
    parseFormula_of_parallelSlots hparallel limit source
  · exact .inl ⟨outline, hread, hread'⟩
  · exact .inr ⟨position, complaints, complaints', hread, hread', hcomplaints⟩

end Formulas

/-- An operator that could read a formula does not get to it behind one of its name that cannot. -/
theorem parseFormula_add_shadowed_behind_constant :
    (∃ outline, parseFormula (.ofList [onIntegerOrString]) none "(f 1)" = .ok outline) ∧
      ∃ position, ∃ complaints complaints' : List Complaint,
        parseFormula (.ofList [constantOperator "f"]) none "(f 1)" =
          .error (complaints.map fun complaint ↦ ⟨position, complaint⟩) ∧
        parseFormula ((Catalog.ofList [constantOperator "f"]).add onIntegerOrString) none "(f 1)" =
          .error (complaints'.map fun complaint ↦ ⟨position, complaint⟩) ∧
        IsRepeatedIn complaints complaints' := by
  have hread : (parseFormula (.ofList [onIntegerOrString]) none "(f 1)").toOption.isSome = true := by
    decide +kernel
  have hrefused : parseFormula (.ofList [constantOperator "f"]) none "(f 1)" =
      .error [⟨⟨1, 4⟩, .expectingSymbol ")"⟩] := by
    decide +kernel
  have hshadowed : ∃ operator ∈ [constantOperator "f"],
      operator.name = onIntegerOrString.name ∧ operator.result = onIntegerOrString.result :=
    ⟨_, List.mem_singleton_self _, rfl, rfl⟩
  constructor
  · cases hparsed : parseFormula (.ofList [onIntegerOrString]) none "(f 1)" with
    | ok outline => exact ⟨outline, rfl⟩
    | error report =>
      rw [hparsed] at hread
      exact nomatch hread
  · obtain ⟨outline, hok, -⟩ | hboth := parseFormula_add_shadowed hshadowed none "(f 1)"
    · rw [hrefused] at hok
      exact nomatch hok
    · exact hboth

end Formulary
