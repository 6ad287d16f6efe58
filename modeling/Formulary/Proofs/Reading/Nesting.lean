import Formulary.Proofs.Reading.Ensures
import Formulary.Proofs.Reading.Sameness
/-!
How deeply steps nest slots. A step nests slots within a bound if no journal of it nests more of them
inside one another, wherever it starts. Every way to compose steps keeps to the bound of the parts, and
only `nested` adds a level. Main definition: `NestsWithin`.
-/

set_option autoImplicit false
set_option relaxedAutoImplicit false

namespace Formulary

/-- What nests slots within a bound has parts that do. -/
theorem Journal.passesOn_nesting_le (bound : Nat) :
    Journal.PassesOn fun journal ↦ journal.nesting ≤ bound where
  joined h := Nat.max_le.mp h
  replaced h := h
  omitted h := h

namespace Reading

open Text

variable {α β : Type} {bound : Nat}

/-- A step nests at most so many slots inside one another, wherever it starts. -/
def NestsWithin (bound : Nat) (step : Reading α) : Prop :=
  ∀ place, (step place).nesting ≤ bound

/-! ### Steps that read no slots -/

theorem nestsWithin_pure (value : α) : NestsWithin bound (pure value) :=
  fun _ ↦ Nat.zero_le bound

theorem nestsWithin_fail (complaint : Complaint) : NestsWithin bound (fail complaint : Reading α) :=
  fun _ ↦ Nat.zero_le bound

theorem nestsWithin_note (event : Nat → Event) : NestsWithin bound (note event) :=
  fun _ ↦ Nat.zero_le bound

theorem nestsWithin_reached : NestsWithin bound reached :=
  fun _ ↦ Nat.zero_le bound

theorem nestsWithin_remaining : NestsWithin bound remaining :=
  fun _ ↦ Nat.zero_le bound

theorem nestsWithin_move (advance : Place → Option Place) (complaint : Complaint) :
    NestsWithin bound (move advance complaint) := by
  intro place
  rw [move]
  split <;> exact Nat.zero_le bound

theorem nestsWithin_literal (kind : Scalar) : NestsWithin bound (literal kind) := by
  intro place
  rw [literal]
  split <;> exact Nat.zero_le bound

theorem nestsWithin_atEnd : NestsWithin bound atEnd := by
  intro place
  rw [atEnd]
  split <;> exact Nat.zero_le bound

/-! ### Steps that are made of others -/

theorem NestsWithin.nested {step : Reading α} (h : NestsWithin bound step) :
    NestsWithin (bound + 1) (nested step) :=
  fun place ↦ Nat.succ_le_succ (h place)

theorem NestsWithin.bind {first : Reading α} {next : α → Reading β} (hfirst : NestsWithin bound first)
    (hnext : ∀ value, NestsWithin bound (next value)) : NestsWithin bound (first >>= next) := by
  intro place
  cases hresult : (first place).result with
  | none =>
    rw [bind_eq_of_none hresult]
    exact hfirst place
  | some found =>
    rw [bind_eq_of_some hresult]
    exact Nat.max_le.mpr ⟨hfirst place, hnext found.1 found.2⟩

theorem NestsWithin.trying {step : Reading α} (h : NestsWithin bound step) :
    NestsWithin bound (trying step) := by
  intro place
  cases hresult : (step place).result with
  | none =>
    rw [trying_eq_of_none hresult]
    exact Nat.max_le.mpr ⟨h place, Nat.zero_le bound⟩
  | some found =>
    rw [trying_eq_of_some hresult]
    exact h place

theorem NestsWithin.orElse {first second : Reading α} (hfirst : NestsWithin bound first)
    (hsecond : NestsWithin bound second) : NestsWithin bound (orElse first second) := by
  intro place
  cases hresult : (first place).result with
  | none =>
    rw [orElse_eq_of_none hresult]
    exact Nat.max_le.mpr ⟨hfirst place, hsecond place⟩
  | some found =>
    rw [orElse_eq_of_some hresult]
    exact hfirst place

theorem nestsWithin_firstOf {steps : List (Reading α)} (h : ∀ step ∈ steps, NestsWithin bound step) :
    NestsWithin bound (firstOf steps) := by
  induction steps with
  | nil => exact fun _ ↦ Nat.zero_le bound
  | cons step steps ih =>
    rw [List.forall_mem_cons] at h
    exact h.1.trying.orElse (ih h.2)

theorem NestsWithin.optionally {step : Reading α} (h : NestsWithin bound step) :
    NestsWithin bound (optionally step) := by
  intro place
  cases hresult : (step place).result with
  | none =>
    rw [optionally_eq_of_none hresult]
    exact h place
  | some found =>
    rw [optionally_eq_of_some hresult]
    exact h place

theorem nestsWithin_inOrder {steps : List (Reading α)} (h : ∀ step ∈ steps, NestsWithin bound step) :
    NestsWithin bound (inOrder steps) := by
  induction steps with
  | nil => exact nestsWithin_pure _
  | cons step steps ih =>
    rw [List.forall_mem_cons] at h
    exact h.1.bind fun value ↦ (ih h.2).bind fun values ↦ nestsWithin_pure _

theorem NestsWithin.repeatedly {step : Reading α} (h : NestsWithin bound step) (count : Nat) :
    NestsWithin bound (repeatedly step count) := by
  induction count with
  | zero => exact nestsWithin_pure _
  | succ count ih =>
    refine nestsWithin_reached.bind fun before ↦ h.trying.optionally.bind fun found ↦ ?_
    cases found with
    | none => exact nestsWithin_pure _
    | some value =>
      refine nestsWithin_reached.bind fun after ↦ ?_
      split
      · exact ih.bind fun values ↦ nestsWithin_pure _
      · exact nestsWithin_pure _

end Reading

end Formulary
