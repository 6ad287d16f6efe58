import Formulary.Proofs.Formula.Slots
/-!
What holds of all steps by which slots are read. If single steps have a property, and composed steps
have it as far as the steps do that they are composed of, then what a slot is read as has it as far as
the parts of the slot do (`Conduct.fillParts`). The loop for the elements of a list compares offsets, so
how it is composed is asked of a property separately (`Discipline.fillParts`). Main definitions: `Conduct`
and `Discipline`.
-/

set_option autoImplicit false
set_option relaxedAutoImplicit false

namespace Formulary

open Text Reading

/-- A property of steps from places that single steps have and that is kept by the ways to compose
steps. A choice has to have something to choose from, unless it may be left out. -/
structure Conduct (Holds : ∀ {α : Type}, Reading α → Place → Prop) : Prop where
  pure : ∀ {α : Type} (value : α) (place : Place), Holds (Pure.pure value : Reading α) place
  remaining : ∀ place, Holds Reading.remaining place
  fail : ∀ {α : Type} (complaint : Complaint) (place : Place),
    Holds (Reading.fail complaint : Reading α) place
  symbol : ∀ (text : String) (place : Place), Holds (Reading.symbol text) place
  word : ∀ (text : String) (place : Place), Holds (Reading.word text) place
  literal : ∀ (kind : Scalar) (place : Place), Holds (Reading.literal kind) place
  atEnd : ∀ place, Holds Reading.atEnd place
  bind : ∀ {α β : Type} {first : Reading α} {next : α → Reading β} {place : Place},
    Holds first place →
    (∀ value middle, (first place).result = some (value, middle) → Holds (next value) middle) →
      Holds (first >>= next) place
  firstOf : ∀ {α : Type} {steps : List (Reading α)} {place : Place}, steps ≠ [] →
    (∀ step ∈ steps, Holds step place) → Holds (Reading.firstOf steps) place
  optionally_firstOf : ∀ {α : Type} {steps : List (Reading α)} {place : Place},
    (∀ step ∈ steps, Holds step place) → Holds (Reading.optionally (Reading.firstOf steps)) place

/-- A property that the steps have as well of which the loop for the elements of a list is made. -/
structure Discipline (Holds : ∀ {α : Type}, Reading α → Place → Prop) : Prop extends
    Conduct Holds where
  reached : ∀ place, Holds Reading.reached place
  optionally_trying : ∀ {α : Type} {step : Reading α} {place : Place},
    Holds step place → Holds (Reading.optionally (Reading.trying step)) place

section

variable {Holds : ∀ {α : Type}, Reading α → Place → Prop} {inner : Slot → Reading Outline}
  {α β : Type} {place : Place}

namespace Conduct

/-- A step after which something is made of what it read. -/
theorem bind_pure (hholds : Conduct Holds) {step : Reading α} (build : α → β)
    (h : Holds step place) : Holds (step >>= fun value ↦ Pure.pure (build value)) place :=
  hholds.bind h fun value after _ ↦ hholds.pure (build value) after

/-! ### Loops -/

theorem inOrder (hholds : Conduct Holds) {steps : List (Reading α)}
    (h : ∀ step ∈ steps, ∀ place, Holds step place) : Holds (Reading.inOrder steps) place := by
  induction steps generalizing place with
  | nil => exact hholds.pure [] place
  | cons step steps ih =>
    rw [List.forall_mem_cons] at h
    exact hholds.bind (h.1 place) fun value middle _ ↦ hholds.bind_pure (value :: ·) (ih h.2)

theorem readSupplied (hholds : Conduct Holds) (h : ∀ slot place, Holds (inner slot) place)
    (group : List Keyword) (bound : Nat) (supplied : List (String × Outline)) (place : Place) :
    Holds (Formulary.readSupplied inner group bound supplied) place := by
  induction bound generalizing supplied place with
  | zero => exact hholds.pure supplied place
  | succ bound ih =>
    have hround : Holds (optionally (Reading.firstOf (group.map fun keyword ↦ do
        let outline ← inner (.keyword keyword)
        Pure.pure (keyword, outline)))) place := by
      refine hholds.optionally_firstOf fun step hstep ↦ ?_
      obtain ⟨keyword, -, rfl⟩ := List.mem_map.mp hstep
      exact hholds.bind_pure (keyword, ·) (h _ place)
    refine hholds.bind hround fun found middle _ ↦ ?_
    split
    · exact hholds.pure supplied middle
    · split
      · exact hholds.fail _ middle
      · exact ih _ middle

/-! ### Slots -/

theorem named (hholds : Conduct Holds) (operator : Operator) (place : Place) :
    Holds (Formulary.named operator) place :=
  hholds.bind_pure (fun _ ↦ operator) (hholds.word operator.name place)

theorem firstOf_named (hholds : Conduct Holds) {operators : List Operator}
    (hsome : operators ≠ []) (place : Place) :
    Holds (Reading.firstOf (operators.map Formulary.named)) place := by
  refine hholds.firstOf (mt List.map_eq_nil_iff.mp hsome) fun step hstep ↦ ?_
  obtain ⟨operator, -, rfl⟩ := List.mem_map.mp hstep
  exact hholds.named operator place

/-- A use of an operator. -/
theorem call (hholds : Conduct Holds) {catalog : Catalog}
    (h : ∀ slot place, Holds (inner slot) place) (base : Base) (place : Place) :
    Holds (Formulary.fillParts catalog inner (.call base)) place := by
  refine hholds.bind (hholds.symbol "(" place) fun _ opened _ ↦ ?_
  dsimp only
  split
  · exact hholds.fail _ opened
  · rename_i hoperators
    have hname : Holds (Reading.firstOf ((catalog.operators base).map Formulary.named)) opened :=
      hholds.firstOf_named (by simpa using hoperators) opened
    refine hholds.bind hname fun operator after _ ↦ ?_
    refine hholds.bind (h _ after) fun part closing _ ↦ ?_
    exact hholds.bind_pure (fun _ ↦ _) (hholds.symbol ")" closing)

/-- A choice among some slots. -/
theorem firstOf_slots (hholds : Conduct Holds) (h : ∀ slot place, Holds (inner slot) place)
    {slots : List Slot} (hsome : slots ≠ []) (place : Place) :
    Holds (Reading.firstOf (slots.map inner)) place := by
  refine hholds.firstOf (mt List.map_eq_nil_iff.mp hsome) fun step hstep ↦ ?_
  obtain ⟨part, -, rfl⟩ := List.mem_map.mp hstep
  exact h part place

/-- If the elements of lists are read in the way the parts of a slot are, then the slot is as well. -/
theorem fillParts (hholds : Conduct Holds)
    (hrepeatedly : ∀ (step : Reading Outline), (∀ place, Holds step place) →
      ∀ bound place, Holds (Reading.repeatedly step bound) place)
    (catalog : Catalog) (h : ∀ slot place, Holds (inner slot) place) (slot : Slot) (place : Place) :
    Holds (Formulary.fillParts catalog inner slot) place := by
  by_cases hslot : slot.choices = []
  · cases slot with
    | root base =>
      refine hholds.bind (h _ place) fun part middle _ ↦ ?_
      exact hholds.bind_pure (fun _ ↦ _) (hholds.atEnd middle)
    | call base => exact hholds.call h base place
    | choice kind => exact absurd hslot (List.cons_ne_nil _ _)
    | typed type =>
      cases type with
      | scalar kind => exact hholds.bind_pure _ (hholds.literal kind place)
      | series => exact hholds.fail _ place
      | union alternatives =>
        obtain rfl : alternatives = [] := List.map_eq_nil_iff.mp hslot
        exact hholds.fail _ place
      | list element =>
        refine hholds.bind (hholds.symbol "(" place) fun _ opened _ ↦ ?_
        refine hholds.bind (hholds.remaining opened) fun bound middle _ ↦ ?_
        refine hholds.bind (hrepeatedly _ (h _) (bound + 1) middle) fun parts closing _ ↦ ?_
        exact hholds.bind_pure (fun _ ↦ _) (hholds.symbol ")" closing)
    | keywords group =>
      refine hholds.bind (hholds.remaining place) fun bound middle _ ↦ ?_
      exact hholds.bind_pure _ (hholds.readSupplied h group (bound + 1) [] middle)
    | operator chosen =>
      have hparts : Holds (Reading.inOrder (chosen.slots.map inner)) place := by
        refine hholds.inOrder fun step hstep ↦ ?_
        obtain ⟨part, -, rfl⟩ := List.mem_map.mp hstep
        exact h part
      exact hholds.bind_pure _ hparts
    | keyword own =>
      refine hholds.bind (hholds.word own.marker place) fun _ announced _ ↦ ?_
      exact hholds.bind_pure _ (h _ announced)
  · rw [fillParts_of_choices hslot]
    exact hholds.bind_pure _ (hholds.firstOf_slots h hslot place)

end Conduct

namespace Discipline

theorem repeatedly (hholds : Discipline Holds) {step : Reading α}
    (h : ∀ place, Holds step place) (bound : Nat) :
    Holds (Reading.repeatedly step bound) place := by
  induction bound generalizing place with
  | zero => exact hholds.pure [] place
  | succ bound ih =>
    refine hholds.bind (hholds.reached place) fun before middle _ ↦ ?_
    refine hholds.bind (hholds.optionally_trying (h middle)) fun found after _ ↦ ?_
    cases found with
    | none => exact hholds.pure [] after
    | some value =>
      refine hholds.bind (hholds.reached after) fun there last _ ↦ ?_
      split
      · exact hholds.bind_pure (value :: ·) ih
      · exact hholds.pure [] last

/-- If the parts of a slot are read under the discipline, so is the slot. -/
theorem fillParts (hholds : Discipline Holds) (catalog : Catalog)
    (h : ∀ slot place, Holds (inner slot) place) (slot : Slot) (place : Place) :
    Holds (Formulary.fillParts catalog inner slot) place :=
  hholds.toConduct.fillParts (fun _ hstep bound _ ↦ hholds.repeatedly hstep bound) catalog h slot place

end Discipline

end

end Formulary
