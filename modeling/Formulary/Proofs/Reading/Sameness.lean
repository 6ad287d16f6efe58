import Formulary.Proofs.Reading.Ensures
/-!
Steps that do the same where nothing untoward happens. What is untoward is told from the journal: if
a property of journals passes on to their parts, then steps that are the same wherever the journal of
the first has the property can be composed. Main definitions: `Journal.PassesOn` and `SameWhere`.
-/

set_option autoImplicit false
set_option relaxedAutoImplicit false

namespace Formulary

/-- A property of journals that holds of their parts, but perhaps not of what happened inside one slot
alone. -/
structure Journal.PassesOn (property : Journal → Prop) : Prop where
  joined : ∀ {first second : Journal}, property (.joined first second) →
    property first ∧ property second
  replaced : ∀ {failed : Journal}, property (.replaced failed) → property failed
  omitted : ∀ {failed : Journal}, property (.omitted failed) → property failed

namespace Reading

variable {α β : Type} {property : Journal → Prop}

/-- Where the journal of a step has a property, another step does the same. -/
def SameWhere (property : Journal → Prop) (step other : Reading α) : Prop :=
  ∀ place, property (step place).journal → other place = step place

theorem sameWhere_refl (step : Reading α) : SameWhere property step step :=
  fun _ _ ↦ rfl

/-- What holds inside a slot may be something else than what holds around it. -/
theorem SameWhere.nested {inside : Journal → Prop} {step step' : Reading α}
    (h : SameWhere inside step step')
    (hinside : ∀ journal, property (.nested journal) → inside journal) :
    SameWhere property (nested step) (nested step') := by
  intro place hjournal
  simp only [Reading.nested, h place (hinside _ hjournal)]

variable (hproperty : Journal.PassesOn property)

include hproperty

theorem SameWhere.bind {first first' : Reading α} {next next' : α → Reading β}
    (hfirst : SameWhere property first first')
    (hnext : ∀ value, SameWhere property (next value) (next' value)) :
    SameWhere property (first >>= next) (first' >>= next') := by
  intro place hjournal
  cases hresult : (first place).result with
  | none =>
    rw [bind_eq_of_none hresult] at hjournal ⊢
    have hsame := hfirst place hjournal
    rw [← hsame] at hresult ⊢
    exact bind_eq_of_none hresult next'
  | some found =>
    rw [bind_eq_of_some hresult] at hjournal ⊢
    obtain ⟨hbefore, hafter⟩ := hproperty.joined hjournal
    have hsame := hfirst place hbefore
    have hrest := hnext found.1 found.2 hafter
    rw [← hsame] at hresult
    rw [bind_eq_of_some hresult, hrest, hsame]

theorem SameWhere.trying {step step' : Reading α} (h : SameWhere property step step') :
    SameWhere property (trying step) (trying step') := by
  intro place hjournal
  have hstep : property (step place).journal := by
    cases hresult : (step place).result with
    | none =>
      rw [trying_eq_of_none hresult] at hjournal
      exact (hproperty.joined hjournal).1
    | some found => rwa [trying_eq_of_some hresult] at hjournal
  simp only [Reading.trying, h place hstep]

theorem SameWhere.orElse {first first' second second' : Reading α}
    (hfirst : SameWhere property first first') (hsecond : SameWhere property second second') :
    SameWhere property (orElse first second) (orElse first' second') := by
  intro place hjournal
  cases hresult : (first place).result with
  | none =>
    rw [orElse_eq_of_none hresult] at hjournal ⊢
    obtain ⟨hreplaced, hother⟩ := hproperty.joined hjournal
    have hsame := hfirst place (hproperty.replaced hreplaced)
    rw [← hsame] at hresult ⊢
    rw [orElse_eq_of_none hresult, hsecond place hother]
  | some found =>
    rw [orElse_eq_of_some hresult] at hjournal ⊢
    have hsame := hfirst place hjournal
    rw [← hsame] at hresult ⊢
    exact orElse_eq_of_some hresult second'

theorem SameWhere.firstOf {γ : Type} {step step' : γ → Reading α} {choices : List γ}
    (h : ∀ choice ∈ choices, SameWhere property (step choice) (step' choice)) :
    SameWhere property (firstOf (choices.map step)) (firstOf (choices.map step')) := by
  induction choices with
  | nil => exact sameWhere_refl _
  | cons choice choices ih =>
    rw [List.forall_mem_cons] at h
    exact (h.1.trying hproperty).orElse hproperty (ih h.2)

theorem SameWhere.optionally {step step' : Reading α} (h : SameWhere property step step') :
    SameWhere property (optionally step) (optionally step') := by
  intro place hjournal
  have hstep : property (step place).journal := by
    cases hresult : (step place).result with
    | none =>
      rw [optionally_eq_of_none hresult] at hjournal
      exact hproperty.omitted hjournal
    | some found => rwa [optionally_eq_of_some hresult] at hjournal
  simp only [Reading.optionally, h place hstep]

theorem SameWhere.inOrder {γ : Type} {step step' : γ → Reading α} {items : List γ}
    (h : ∀ item ∈ items, SameWhere property (step item) (step' item)) :
    SameWhere property (inOrder (items.map step)) (inOrder (items.map step')) := by
  induction items with
  | nil => exact sameWhere_refl _
  | cons item items ih =>
    rw [List.forall_mem_cons] at h
    exact h.1.bind hproperty fun value ↦
      (ih h.2).bind hproperty fun values ↦ sameWhere_refl _

theorem SameWhere.repeatedly {step step' : Reading α} (h : SameWhere property step step')
    (bound : Nat) : SameWhere property (repeatedly step bound) (repeatedly step' bound) := by
  induction bound with
  | zero => exact sameWhere_refl _
  | succ bound ih =>
    refine (sameWhere_refl _).bind hproperty fun before ↦ ?_
    refine ((h.trying hproperty).optionally hproperty).bind hproperty fun found ↦ ?_
    cases found with
    | none => exact sameWhere_refl _
    | some value =>
      refine (sameWhere_refl _).bind hproperty fun after ↦ ?_
      split
      · exact ih.bind hproperty fun values ↦ sameWhere_refl _
      · exact sameWhere_refl _

end Reading

end Formulary
