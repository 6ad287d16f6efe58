import Formulary.Proofs.Formula.Room
import Formulary.Proofs.Reading.Nesting
/-!
How deeply the reading of a formula nests slots. With room for some number of slots inside one another
no more are nested (`nestsWithin_fill`); and if without a limit no more are nested than a limit allows,
then the limit changes nothing (`readFormula_some_of_nesting_le`).
-/

set_option autoImplicit false
set_option relaxedAutoImplicit false

namespace Formulary

open Text Reading

variable {bound : Nat} {catalog : Catalog} {inner : Slot → Reading Outline}

theorem nestsWithin_readSupplied (h : ∀ slot, NestsWithin bound (inner slot)) (group : List Keyword)
    (count : Nat) (supplied : List (String × Outline)) :
    NestsWithin bound (readSupplied inner group count supplied) := by
  induction count generalizing supplied with
  | zero => exact nestsWithin_pure _
  | succ count ih =>
    have hround : NestsWithin bound (firstOf (group.map fun keyword ↦ do
        let outline ← inner (.keyword keyword)
        pure (keyword, outline))) := by
      refine nestsWithin_firstOf fun step hstep ↦ ?_
      obtain ⟨keyword, -, rfl⟩ := List.mem_map.mp hstep
      exact (h _).bind fun outline ↦ nestsWithin_pure _
    refine hround.optionally.bind fun found ↦ ?_
    split
    · exact nestsWithin_pure _
    · split
      · exact nestsWithin_fail _
      · exact ih _

theorem nestsWithin_firstOf_slots (h : ∀ slot, NestsWithin bound (inner slot)) (slots : List Slot) :
    NestsWithin bound (firstOf (slots.map inner)) := by
  refine nestsWithin_firstOf fun step hstep ↦ ?_
  obtain ⟨part, -, rfl⟩ := List.mem_map.mp hstep
  exact h part

theorem nestsWithin_fillParts (h : ∀ slot, NestsWithin bound (inner slot)) (slot : Slot) :
    NestsWithin bound (fillParts catalog inner slot) := by
  by_cases hslot : slot.choices = []
  · cases slot with
    | root base => exact (h _).bind fun part ↦ nestsWithin_atEnd.bind fun _ ↦ nestsWithin_pure _
    | call base =>
      refine (nestsWithin_move _ _).bind fun _ ↦ ?_
      dsimp only
      split
      · exact nestsWithin_fail _
      · have hnamed : NestsWithin bound (firstOf ((catalog.operators base).map fun operator ↦ do
            word operator.name
            pure operator)) := by
          refine nestsWithin_firstOf fun step hstep ↦ ?_
          obtain ⟨operator, -, rfl⟩ := List.mem_map.mp hstep
          exact (nestsWithin_move _ _).bind fun _ ↦ nestsWithin_pure _
        exact hnamed.bind fun operator ↦ (h _).bind fun part ↦
          (nestsWithin_move _ _).bind fun _ ↦ nestsWithin_pure _
    | choice kind => exact absurd hslot (List.cons_ne_nil _ _)
    | typed type =>
      cases type with
      | scalar kind => exact (nestsWithin_literal kind).bind fun value ↦ nestsWithin_pure _
      | series => exact nestsWithin_fail _
      | union alternatives =>
        obtain rfl : alternatives = [] := List.map_eq_nil_iff.mp hslot
        exact nestsWithin_fail _
      | list element =>
        exact (nestsWithin_move _ _).bind fun _ ↦ nestsWithin_remaining.bind fun count ↦
          ((h _).repeatedly (count + 1)).bind fun parts ↦
            (nestsWithin_move _ _).bind fun _ ↦ nestsWithin_pure _
    | keywords group =>
      exact nestsWithin_remaining.bind fun count ↦
        (nestsWithin_readSupplied h group (count + 1) []).bind fun supplied ↦ nestsWithin_pure _
    | operator chosen =>
      have hparts : NestsWithin bound (inOrder (chosen.slots.map inner)) := by
        refine nestsWithin_inOrder fun step hstep ↦ ?_
        obtain ⟨part, -, rfl⟩ := List.mem_map.mp hstep
        exact h part
      exact hparts.bind fun parts ↦ nestsWithin_pure _
    | keyword own =>
      exact (nestsWithin_move _ _).bind fun _ ↦ (h _).bind fun value ↦ nestsWithin_pure _
  · rw [fillParts_of_choices hslot]
    exact (nestsWithin_firstOf_slots h slot.choices).bind fun part ↦ nestsWithin_pure _

/-- No more slots are read inside one another than there is room for. -/
theorem nestsWithin_fill (catalog : Catalog) (limit room : Nat) (slot : Slot) :
    NestsWithin room (fill catalog limit room slot) := by
  induction room generalizing slot with
  | zero => exact (nestsWithin_note _).bind fun _ ↦ nestsWithin_fail _
  | succ room ih =>
    exact (nestsWithin_note _).bind fun _ ↦ (nestsWithin_fillParts ih slot).nested.bind
      fun outline ↦ (nestsWithin_note _).bind fun _ ↦ nestsWithin_pure _

/-! ### Less room -/

/-- A slot for which there is room is at least nested in itself. -/
theorem nesting_fill_succ_pos (catalog : Catalog) (limit room : Nat) (slot : Slot) (place : Place) :
    0 < (fill catalog limit (room + 1) slot place).nesting := by
  rw [fill, bind_eq_of_some rfl]
  cases hparts : (nested (fillParts catalog (fill catalog limit room) slot) place).result with
  | none =>
    rw [bind_eq_of_none hparts]
    exact Nat.lt_of_lt_of_le (Nat.succ_pos _) (Nat.le_max_right _ _)
  | some found =>
    rw [bind_eq_of_some hparts]
    exact Nat.lt_of_lt_of_le (Nat.succ_pos _)
      (Nat.le_trans (Nat.le_max_left _ _) (Nat.le_max_right _ _))

/-- A reading that nests no more slots than a smaller room allows is the same with that room. -/
theorem sameWhere_fill_of_nesting_le (catalog : Catalog) (limit limit' : Nat) {room room' : Nat}
    (hroom : room < room') (slot : Slot) :
    SameWhere (fun journal ↦ journal.nesting ≤ room) (fill catalog limit room' slot)
      (fill catalog limit' room slot) := by
  obtain ⟨room', rfl⟩ := Nat.exists_eq_add_one_of_ne_zero (Nat.ne_zero_of_lt hroom)
  induction room generalizing room' slot with
  | zero =>
    intro place hnone
    exact absurd hnone (Nat.not_le_of_gt (nesting_fill_succ_pos catalog limit room' slot place))
  | succ room ih =>
    obtain ⟨room', rfl⟩ := Nat.exists_eq_add_one_of_ne_zero
      (Nat.ne_zero_of_lt (Nat.lt_of_succ_lt_succ hroom))
    have hparts : SameWhere (fun journal ↦ journal.nesting ≤ room)
        (fillParts catalog (fill catalog limit (room' + 1)) slot)
        (fillParts catalog (fill catalog limit' room) slot) :=
      sameWhere_fillParts (Journal.passesOn_nesting_le room)
        (fun part ↦ ih part room' (Nat.lt_of_succ_lt_succ hroom)) slot
    refine (sameWhere_refl _).bind (Journal.passesOn_nesting_le _) fun _ ↦ ?_
    exact (hparts.nested fun _ ↦ Nat.le_of_succ_le_succ).bind (Journal.passesOn_nesting_le _)
      fun outline ↦ sameWhere_refl _

/-- If without a limit no more slots are read inside one another than a limit allows, then everything
happens as it does without the limit. -/
theorem readFormula_some_of_nesting_le {operators : List Operator} {limit : Nat} {text : List Char}
    (h : (readFormula (.ofList operators) none text).nesting ≤ limit) :
    readFormula (.ofList operators) (some limit) text = readFormula (.ofList operators) none text := by
  by_cases hroom : nestingBound (.ofList operators) text ≤ limit
  · exact fill_eq_readFormula hroom
  · exact sameWhere_fill_of_nesting_le _ _ _ (Nat.lt_of_not_le hroom) _ _ h

end Formulary
