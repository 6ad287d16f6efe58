import Mathlib.Data.List.Forall2
/-!
Lists whose items are related one by one, the first item with a property, and the run of items with
a property at the front. These are the facts about lists that the rules for operands and alternatives
and those for words need.
-/

set_option autoImplicit false
set_option relaxedAutoImplicit false

namespace Formulary

variable {α β : Type}

/-- Of some items with a property there is a first one. -/
theorem exists_first {property : α → Prop} {items : List α}
    (h : ∃ item ∈ items, property item) :
    ∃ earlier item later, items = earlier ++ item :: later ∧
      (∀ other ∈ earlier, ¬ property other) ∧ property item := by
  classical
  obtain ⟨item, hitem, hproperty⟩ := h
  have hfound : (items.find? fun other ↦ decide (property other)).isSome = true :=
    List.find?_isSome.mpr ⟨item, hitem, decide_eq_true hproperty⟩
  obtain ⟨first, hfirst⟩ := Option.isSome_iff_exists.mp hfound
  obtain ⟨hholds, earlier, later, hitems, hearlier⟩ := List.find?_eq_some_iff_append.mp hfirst
  refine ⟨earlier, first, later, hitems, fun other hother ↦ ?_, of_decide_eq_true hholds⟩
  simpa using hearlier other hother

/-- Items that are each related to something are related to a list. -/
theorem exists_forall₂ {relation : α → β → Prop} {items : List α}
    (h : ∀ item ∈ items, ∃ value, relation item value) :
    ∃ values, List.Forall₂ relation items values := by
  induction items with
  | nil => exact ⟨[], .nil⟩
  | cons item items ih =>
    rw [List.forall_mem_cons] at h
    obtain ⟨value, hvalue⟩ := h.1
    obtain ⟨values, hvalues⟩ := ih h.2
    exact ⟨value :: values, .cons hvalue hvalues⟩

theorem exists_mem_of_forall₂ {relation : α → β → Prop} {items : List α} {values : List β}
    (h : List.Forall₂ relation items values) {item : α} (hitem : item ∈ items) :
    ∃ value ∈ values, relation item value := by
  induction h with
  | nil => exact absurd hitem List.not_mem_nil
  | @cons first value items values hfirst hrest ih =>
    rcases List.mem_cons.mp hitem with rfl | hlater
    · exact ⟨value, List.mem_cons_self, hfirst⟩
    · obtain ⟨other, hother, hrelated⟩ := ih hlater
      exact ⟨other, List.mem_cons_of_mem _ hother, hrelated⟩

/-- All items of a list are read if each of them is. -/
theorem mapM_eq_some_iff {read : α → Option β} {items : List α} {values : List β} :
    items.mapM read = some values ↔
      List.Forall₂ (fun item value ↦ read item = some value) items values := by
  induction items generalizing values with
  | nil => simp [eq_comm]
  | cons item items ih =>
    simp only [List.mapM_cons, Option.bind_eq_bind, Option.bind_eq_some_iff, ih,
      List.forall₂_cons_left_iff, Option.pure_def, Option.some.injEq]
    exact ⟨fun ⟨value, hvalue, values, hvalues, hsame⟩ ↦ ⟨value, values, hvalue, hvalues, hsame.symm⟩,
      fun ⟨value, values, hvalue, hvalues, hsame⟩ ↦ ⟨value, hvalue, values, hvalues, hsame.symm⟩⟩

theorem mapM_some (items : List α) : items.mapM some = some items :=
  mapM_eq_some_iff.mpr (List.forall₂_same.mpr fun _ _ ↦ rfl)

/-- All items of a list are converted if each of them is. -/
theorem mapM_eq_ok_iff {ε : Type} {convert : α → Except ε β} {items : List α} {values : List β} :
    items.mapM convert = .ok values ↔
      List.Forall₂ (fun item value ↦ convert item = .ok value) items values := by
  induction items generalizing values with
  | nil => simp [pure, Except.pure, eq_comm]
  | cons item items ih =>
    rw [List.mapM_cons, List.forall₂_cons_left_iff]
    cases hitem : convert item with
    | error fault => simp [bind, Except.bind]
    | ok value =>
      cases hitems : items.mapM convert with
      | error fault => simp [bind, Except.bind, ← ih, hitems]
      | ok rest => simp [bind, Except.bind, pure, Except.pure, ← ih, hitems, eq_comm]

/-- What is found in the lists that some items give is found in the first list where it can be. -/
theorem findSome?_flatMap {γ : Type} {find : β → Option γ} {lists : α → List β} {items : List α} :
    (items.flatMap lists).findSome? find = items.findSome? fun item ↦ (lists item).findSome? find := by
  induction items with
  | nil => rfl
  | cons item items ih =>
    rw [List.flatMap_cons, List.findSome?_append, ih, List.findSome?_cons]
    cases (lists item).findSome? find <;> rfl

theorem mapM_congr {read read' : α → Option β} {items : List α}
    (h : ∀ item ∈ items, read item = read' item) : items.mapM read = items.mapM read' := by
  induction items with
  | nil => rfl
  | cons item items ih =>
    obtain ⟨hitem, hitems⟩ := List.forall_mem_cons.mp h
    rw [List.mapM_cons, List.mapM_cons, hitem, ih hitems]

/-- The run at the front ends where the next item does not belong to it. -/
theorem span_append {inClass : α → Bool} {found rest : List α}
    (hfound : ∀ item ∈ found, inClass item = true) (hrest : ∀ item ∈ rest.head?, inClass item = false) :
    (found ++ rest).takeWhile inClass = found ∧ (found ++ rest).dropWhile inClass = rest := by
  rw [List.takeWhile_append_of_pos hfound, List.dropWhile_append_of_pos hfound]
  cases rest with
  | nil => exact ⟨List.append_nil _, rfl⟩
  | cons item rest =>
    have hitem := hrest item rfl
    exact ⟨by simp [hitem], List.dropWhile_cons_of_neg (by simp [hitem])⟩

end Formulary
