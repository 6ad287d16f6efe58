import Formulary.Proofs.Engine.Machine
import Formulary.Proofs.Formula.Arrangement
/-!
How the engine collects keyword arguments and arranges them. It looks for a repeated name before each
of them is read, so the names that it has collected are distinct but for the last one
(`repeatedName?_append_singleton`). When it takes an argument out by position it puts the last one in
its place, which changes the order of those that are left, and with distinct names the order does not
matter (`arrangeSupplied_eq`).
-/

set_option autoImplicit false
set_option relaxedAutoImplicit false

namespace Formulary.Engine

variable {supplied : List (String × Outline)} {name : String} {outline : Outline}

/-! ### Repeated names -/

theorem repeatedName?_eq_none_iff {seen : List String} :
    repeatedName? seen supplied = none ↔
      (supplied.map Prod.fst).Nodup ∧ ∀ name ∈ supplied.map Prod.fst, name ∉ seen := by
  induction supplied generalizing seen with
  | nil => simp [repeatedName?]
  | cons entry supplied ih =>
    obtain ⟨own, value⟩ := entry
    rw [repeatedName?, List.map_cons, List.nodup_cons, List.forall_mem_cons]
    by_cases hseen : own ∈ seen
    · simp [hseen]
    · rw [if_neg hseen, ih]
      constructor
      · rintro ⟨hnodup, hfresh⟩
        have hother (name : String) (hname : name ∈ supplied.map Prod.fst) :
            name ≠ own ∧ name ∉ seen := by
          simpa using hfresh name hname
        exact ⟨⟨fun hown ↦ (hother own hown).1 rfl, hnodup⟩, hseen, fun name hname ↦
          (hother name hname).2⟩
      · rintro ⟨⟨hown, hnodup⟩, -, hfresh⟩
        refine ⟨hnodup, fun name hname ↦ List.not_mem_cons_of_ne_of_not_mem ?_ (hfresh name hname)⟩
        rintro rfl
        exact hown hname

/-- No name is repeated exactly if the names are distinct. -/
theorem repeatedName?_nil_eq_none_iff :
    repeatedName? [] supplied = none ↔ (supplied.map Prod.fst).Nodup := by
  rw [repeatedName?_eq_none_iff]
  exact and_iff_left fun _ _ ↦ List.not_mem_nil

theorem nodup_append_singleton_iff :
    ((supplied ++ [(name, outline)]).map Prod.fst).Nodup ↔
      name ∉ supplied.map Prod.fst ∧ (supplied.map Prod.fst).Nodup := by
  rw [List.map_append, List.map_singleton, ← List.concat_eq_append, List.nodup_concat]

theorem repeatedName?_append {seen : List String} (other : List (String × Outline))
    (h : repeatedName? seen supplied = none) :
    repeatedName? seen (supplied ++ other) =
      repeatedName? ((supplied.map Prod.fst).reverse ++ seen) other := by
  induction supplied generalizing seen with
  | nil => rfl
  | cons entry supplied ih =>
    obtain ⟨own, value⟩ := entry
    rw [repeatedName?] at h
    rw [List.cons_append, repeatedName?]
    by_cases hseen : own ∈ seen
    · rw [if_pos hseen] at h
      cases h
    · rw [if_neg hseen] at h
      rw [if_neg hseen, ih h]
      simp

/-- If the names so far are distinct, only the last one can be repeated. -/
theorem repeatedName?_append_singleton (h : (supplied.map Prod.fst).Nodup) :
    repeatedName? [] (supplied ++ [(name, outline)]) =
      if name ∈ supplied.map Prod.fst then some name else none := by
  rw [repeatedName?_append _ (repeatedName?_nil_eq_none_iff.mpr h), repeatedName?, List.append_nil]
  simp only [List.mem_reverse, repeatedName?]

/-! ### Taking out by position -/

/-- Without the item at an index, the others are left in some order. -/
theorem swapRemove_perm {α : Type} (before : List α) (item : α) (behind : List α) :
    (swapRemove (before ++ item :: behind) before.length).Perm (before ++ behind) := by
  rcases List.eq_nil_or_concat behind with rfl | ⟨middle, last, rfl⟩
  · simp [swapRemove]
  · have hlast : (before ++ item :: (middle ++ [last])).getLast? = some last := by
      rw [← List.cons_append, ← List.append_assoc, List.getLast?_concat]
    have hleft : swapRemove (before ++ item :: (middle ++ [last])) before.length =
        before ++ last :: middle := by
      rw [swapRemove, hlast]
      dsimp only
      rw [List.set_append_right _ _ (Nat.le_refl _), Nat.sub_self, List.set_cons_zero,
        ← List.cons_append, ← List.append_assoc, List.dropLast_concat]
    rw [List.concat_eq_append, hleft]
    exact List.Perm.append_left before (List.perm_append_singleton last middle).symm

/-- What is taken out under a name is what is found under it, and the others are left. -/
theorem takeOut?_eq_some (hnames : (supplied.map Prod.fst).Nodup)
    {left : List (String × Outline)} (h : takeOut? name supplied = some (outline, left)) :
    supplied.lookup name = some outline ∧
      left.Perm (supplied.filter fun entry ↦ entry.1 != name) := by
  rw [takeOut?] at h
  obtain ⟨index, hindex, hrest⟩ := Option.bind_eq_some_iff.mp h
  obtain ⟨entry, hentry, hsame⟩ := Option.bind_eq_some_iff.mp hrest
  cases hsame
  obtain ⟨hbound, hname, -⟩ := List.findIdx?_eq_some_iff_getElem.mp hindex
  obtain ⟨hbound', rfl⟩ := List.getElem?_eq_some_iff.mp hentry
  have hown : supplied[index].1 = name := beq_iff_eq.mp hname
  have hmem : (name, supplied[index].2) ∈ supplied := by
    rw [← hown]
    exact List.getElem_mem hbound
  refine ⟨(lookup_eq_some_iff_mem hnames).mpr hmem, ?_⟩
  have hcut : supplied = supplied.take index ++ supplied[index] :: supplied.drop (index + 1) := by
    rw [List.getElem_cons_drop, List.take_append_drop]
  have hlength : (supplied.take index).length = index := List.length_take_of_le (Nat.le_of_lt hbound)
  have hperm := swapRemove_perm (supplied.take index) supplied[index] (supplied.drop (index + 1))
  rw [← hcut, hlength] at hperm
  refine hperm.trans (List.Perm.cons_inv (a := supplied[index]) ?_)
  refine (List.perm_middle.symm.trans (.of_eq hcut.symm)).trans ?_
  have hwhole := (perm_cons_filter hnames hmem).symm
  rwa [← hown] at hwhole ⊢

theorem takeOut?_eq_none_iff :
    takeOut? name supplied = none ↔ supplied.lookup name = none := by
  rw [takeOut?, List.lookup_eq_none_iff]
  constructor
  · intro h entry hentry
    cases hindex : supplied.findIdx? fun entry ↦ entry.1 == name with
    | none =>
      have hother := List.findIdx?_eq_none_iff.mp hindex entry hentry
      exact bne_iff_ne.mpr (Ne.symm (beq_eq_false_iff_ne.mp hother))
    | some index =>
      obtain ⟨hbound, -, -⟩ := List.findIdx?_eq_some_iff_getElem.mp hindex
      simp [hindex, List.getElem?_eq_getElem hbound] at h
  · intro h
    have hnone : supplied.findIdx? (fun entry ↦ entry.1 == name) = none := by
      refine List.findIdx?_eq_none_iff.mpr fun entry hentry ↦ ?_
      exact beq_eq_false_iff_ne.mpr (Ne.symm (bne_iff_ne.mp (h entry hentry)))
    rw [hnone]
    rfl

/-- If no name is repeated, taking out by position arranges keyword arguments by their names. -/
theorem arrangeSupplied_eq (group : List Keyword) (hnames : (supplied.map Prod.fst).Nodup) :
    arrangeSupplied group supplied = arrangeKeywords group supplied := by
  induction group generalizing supplied with
  | nil => rfl
  | cons keyword group ih =>
    rw [arrangeSupplied, arrangeKeywords]
    cases htaken : takeOut? keyword.name supplied with
    | none =>
      rw [takeOut?_eq_none_iff.mp htaken]
      exact congrArg _ (ih hnames)
    | some taken =>
      obtain ⟨outline, left⟩ := taken
      obtain ⟨hlookup, hperm⟩ := takeOut?_eq_some hnames htaken
      have hleft : (left.map Prod.fst).Nodup :=
        (hperm.map Prod.fst).nodup_iff.mpr (nodup_filter hnames _)
      rw [hlookup]
      exact congrArg _ ((ih hleft).trans (arrangeKeywords_perm hperm hleft))

end Formulary.Engine
