import Formulary.Proofs.Catalog.Operators
import Mathlib.Algebra.Order.Ring.Nat
import Mathlib.Data.List.Nodup
/-!
The two indexes of a catalog. Every operator is kept twice: in the order of declaration, and in the group
of its base. One more operator is added to both (`IsIndexed.add`), so however many were declared, the
groups share the declared operators out among themselves: each operator stands in one group, as often as it
is declared (`indexes_agree_ofList`). Main definition: `Catalog.IsIndexed`.
-/

set_option autoImplicit false
set_option relaxedAutoImplicit false

namespace Formulary.Catalog

/-- The groups of a catalog are an index of its declared operators. -/
structure IsIndexed (catalog : Catalog) : Prop where
  /-- The operators of a base are the declared ones that produce it, in their order. -/
  operators : ∀ base,
    catalog.operators base = catalog.declared.filter fun operator ↦ operator.result = base
  /-- No base has two groups. -/
  distinct : (catalog.groups.map Prod.fst).Nodup
  /-- The groups together hold the declared operators, each one as often as it is declared. -/
  perm : (catalog.groups.flatMap Prod.snd).Perm catalog.declared

variable {catalog : Catalog}

/-! ### One more operator -/

/-- The group of a base is opened when its first operator is declared. -/
theorem map_fst_addToGroup (operator : Operator) (groups : List (Base × List Operator)) :
    (addToGroup operator groups).map Prod.fst =
      if operator.result ∈ groups.map Prod.fst then groups.map Prod.fst
      else groups.map Prod.fst ++ [operator.result] := by
  induction groups with
  | nil => simp [addToGroup]
  | cons group groups ih =>
    obtain ⟨base, members⟩ := group
    by_cases hbase : base = operator.result
    · simp [addToGroup, hbase]
    · rw [addToGroup, if_neg hbase, List.map_cons, ih, List.map_cons]
      simp only [List.mem_cons, Ne.symm hbase, false_or]
      split <;> rfl

/-- No operator is lost or repeated when one more is added. -/
theorem perm_addToGroup (operator : Operator) (groups : List (Base × List Operator)) :
    ((addToGroup operator groups).flatMap Prod.snd).Perm
      (groups.flatMap Prod.snd ++ [operator]) := by
  induction groups with
  | nil => exact .refl _
  | cons group groups ih =>
    obtain ⟨base, members⟩ := group
    by_cases hbase : base = operator.result
    · rw [addToGroup, if_pos hbase]
      simp only [List.flatMap_cons, List.append_assoc]
      exact List.perm_append_comm.append_left members
    · rw [addToGroup, if_neg hbase]
      simp only [List.flatMap_cons, List.append_assoc]
      exact ih.append_left members

theorem isIndexed_empty : empty.IsIndexed where
  operators _ := rfl
  distinct := List.nodup_nil
  perm := .refl _

theorem IsIndexed.add (h : catalog.IsIndexed) (operator : Operator) :
    (catalog.add operator).IsIndexed where
  operators base := by
    rw [operators_add, h.operators, Catalog.add, List.filter_append, List.filter_singleton]
    by_cases hbase : operator.result = base <;> simp [hbase]
  distinct := by
    rw [Catalog.add, map_fst_addToGroup]
    split
    · exact h.distinct
    · rename_i hnew
      exact List.nodup_append_comm.mp (List.nodup_cons.mpr ⟨hnew, h.distinct⟩)
  perm := (perm_addToGroup operator catalog.groups).trans (h.perm.append_right [operator])

/-- However many operators are declared, one after another, the groups remain an index of them. -/
theorem IsIndexed.foldl_add (h : catalog.IsIndexed) (operators : List Operator) :
    (operators.foldl Catalog.add catalog).IsIndexed := by
  induction operators generalizing catalog with
  | nil => exact h
  | cons operator operators ih => exact ih (h.add operator)

/-! ### What an index tells -/

theorem lookup_of_mem {groups : List (Base × List Operator)} (hdistinct : (groups.map Prod.fst).Nodup)
    {base : Base} {members : List Operator} (h : (base, members) ∈ groups) :
    groups.lookup base = some members := by
  induction groups with
  | nil => exact absurd h List.not_mem_nil
  | cons group groups ih =>
    obtain ⟨hnew, hothers⟩ := List.nodup_cons.mp hdistinct
    rcases List.mem_cons.mp h with rfl | hlater
    · exact List.lookup_cons_self
    · have hother : base ≠ group.1 := fun hsame ↦ hnew (hsame ▸ List.mem_map_of_mem hlater)
      rw [List.lookup_cons, beq_eq_false_iff_ne.mpr hother]
      exact ih hothers hlater

/-- A group is what is found under its base. -/
theorem IsIndexed.members_eq (h : catalog.IsIndexed) {base : Base} {members : List Operator}
    (hgroup : (base, members) ∈ catalog.groups) : members = catalog.operators base := by
  rw [Catalog.operators, lookup_of_mem h.distinct hgroup, Option.getD_some]

theorem IsIndexed.result_of_mem (h : catalog.IsIndexed) {group : Base × List Operator}
    (hgroup : group ∈ catalog.groups) {operator : Operator} (hoperator : operator ∈ group.2) :
    operator.result = group.1 := by
  rw [h.members_eq hgroup, h.operators] at hoperator
  simpa using (List.mem_filter.mp hoperator).2

/-- A declared operator stands in one group and in no other. -/
theorem IsIndexed.existsUnique_group (h : catalog.IsIndexed) {operator : Operator}
    (hoperator : operator ∈ catalog.declared) :
    ∃! group, group ∈ catalog.groups ∧ operator ∈ group.2 := by
  obtain ⟨group, hgroup, hmember⟩ := List.mem_flatMap.mp (h.perm.mem_iff.mpr hoperator)
  refine ⟨group, ⟨hgroup, hmember⟩, fun other ⟨hother, hstands⟩ ↦ ?_⟩
  have hbase : other.1 = group.1 :=
    (h.result_of_mem hother hstands).symm.trans (h.result_of_mem hgroup hmember)
  refine Prod.ext hbase ?_
  rw [h.members_eq hother, h.members_eq hgroup, hbase]

/-- There are as many operators as stand in all the groups. -/
theorem IsIndexed.size_eq (h : catalog.IsIndexed) :
    catalog.size = (catalog.groups.map fun group ↦ group.2.length).sum := by
  rw [size, ← h.perm.length_eq, List.length_flatMap]

/-! ### Catalogs of declared operators -/

/-- The two indexes agree after any declarations: the operators are kept in the order of declaration; those
of a base are the ones among them that produce it, in that order and as often; every operator stands in
exactly one group, which is that of its base; and the groups are together as large as the catalog, which is
as large as the number of declarations. -/
theorem indexes_agree_ofList (operators : List Operator) :
    let catalog := ofList operators
    catalog.declared = operators ∧
      (∀ base, catalog.operators base =
        catalog.declared.filter fun operator ↦ operator.result = base) ∧
      (∀ base members, (base, members) ∈ catalog.groups → members = catalog.operators base) ∧
      (∀ operator ∈ catalog.declared, ∃! group, group ∈ catalog.groups ∧ operator ∈ group.2) ∧
      catalog.size = (catalog.groups.map fun group ↦ group.2.length).sum ∧
      catalog.size = operators.length := by
  intro catalog
  have hindexed : catalog.IsIndexed := isIndexed_empty.foldl_add operators
  have hdeclared : catalog.declared = operators := declared_ofList operators
  refine ⟨hdeclared, hindexed.operators, fun base members ↦ hindexed.members_eq,
    fun operator ↦ hindexed.existsUnique_group, hindexed.size_eq, ?_⟩
  rw [size, hdeclared]

/-- An operator that is declared twice stands twice in its group, and in no other group. -/
theorem indexes_agree_ofList_repeated :
    let echo : Operator := ⟨"echo", .series, [], []⟩
    let today : Operator := ⟨"today", .scalar .timestamp, [], []⟩
    let catalog := ofList [echo, today, echo]
    catalog.groups = [(.series, [echo, echo]), (.scalar .timestamp, [today])] ∧
      (.series, [echo, echo]) ∈ catalog.groups ∧ [echo, echo] = catalog.operators .series ∧
      echo ∈ catalog.declared ∧ ∃! group, group ∈ catalog.groups ∧ echo ∈ group.2 := by
  intro echo today catalog
  obtain ⟨-, -, hgroups, hone, -⟩ := indexes_agree_ofList [echo, today, echo]
  have hgroup : (.series, [echo, echo]) ∈ catalog.groups := by decide
  have hdeclared : echo ∈ catalog.declared := by decide
  exact ⟨by decide, hgroup, hgroups _ _ hgroup, hdeclared, hone echo hdeclared⟩

end Formulary.Catalog
