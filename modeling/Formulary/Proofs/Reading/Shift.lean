import Formulary.Proofs.Reading.Ensures
import Formulary.Proofs.Token.Shift
/-!
Readings further on in a longer text. A step shifts if with more bytes behind the place where it starts
everything stays the same but the offsets, which are greater by just as much. Single steps shift, and so
does what is composed of steps that shift: choices do not depend on offsets, and loops only compare them.
Main definitions: `Event.shifted`, `Outcome.shifted` and `Shifts`.
-/

set_option autoImplicit false
set_option relaxedAutoImplicit false

namespace Formulary

open Text

/-- The same event, with more bytes before it. -/
def Event.shifted (amount : Nat) : Event → Event
  | .entered slot offset => .entered slot (amount + offset)
  | .filled outline offset => .filled outline (amount + offset)
  | .backtracked offset => .backtracked (amount + offset)
  | .failed failure => .failed (failure.shifted amount)

/-- The same journal, with more bytes before everything in it. -/
def Journal.shifted (amount : Nat) : Journal → Journal
  | .empty => .empty
  | .entry event => .entry (event.shifted amount)
  | .joined first second => .joined (first.shifted amount) (second.shifted amount)
  | .replaced failed => .replaced (failed.shifted amount)
  | .omitted failed => .omitted (failed.shifted amount)
  | .nested inside => .nested (inside.shifted amount)

/-- The same outcome, with more bytes before everything that happened and behind the place after. -/
def Outcome.shifted {α : Type} (amount : Nat) (outcome : Outcome α) : Outcome α :=
  ⟨outcome.journal.shifted amount,
    outcome.result.map fun (value, after) ↦ (value, after.shifted amount)⟩

theorem Journal.events_shifted (amount : Nat) (journal : Journal) :
    (journal.shifted amount).events = journal.events.map (Event.shifted amount) := by
  induction journal with
  | empty => rfl
  | entry event => rfl
  | joined first second ihfirst ihsecond =>
    rw [shifted, events_joined, events_joined, List.map_append, ihfirst, ihsecond]
  | replaced failed ih => exact ih
  | omitted failed ih => exact ih
  | nested inside ih => exact ih

theorem Outcome.events_shifted {α : Type} (amount : Nat) (outcome : Outcome α) :
    (outcome.shifted amount).events = outcome.events.map (Event.shifted amount) :=
  outcome.journal.events_shifted amount

namespace Reading

variable {α β : Type} {amount : Nat} {place : Place}

/-- What comes of a second step with more bytes behind it is what comes of the first, shifted. -/
def Shifts (amount : Nat) (step other : Reading α) (place : Place) : Prop :=
  other (place.shifted amount) = (step place).shifted amount

theorem Shifts.outcome {step other : Reading α} (h : Shifts amount step other place) :
    other (place.shifted amount) = (step place).shifted amount :=
  h

theorem Shifts.result_eq_none {step other : Reading α} (h : Shifts amount step other place)
    (hnone : (step place).result = none) : (other (place.shifted amount)).result = none := by
  rw [h.outcome, Outcome.shifted, hnone]
  rfl

theorem Shifts.result_eq_some {step other : Reading α} {value : α} {after : Place}
    (h : Shifts amount step other place) (hsome : (step place).result = some (value, after)) :
    (other (place.shifted amount)).result = some (value, after.shifted amount) := by
  rw [h.outcome, Outcome.shifted, hsome]
  rfl

/-! ### Single steps -/

theorem shifts_pure (value : α) (place : Place) :
    Shifts amount (pure value : Reading α) (pure value) place :=
  rfl

theorem shifts_fail (complaint : Complaint) (place : Place) :
    Shifts amount (fail complaint : Reading α) (fail complaint) place :=
  rfl

theorem shifts_remaining (place : Place) : Shifts amount remaining remaining place := rfl

theorem shifts_note {event : Nat → Event}
    (h : ∀ offset, event (amount + offset) = (event offset).shifted amount) (place : Place) :
    Shifts amount (note event) (note event) place := by
  rw [Shifts, note, note, Place.offset_shifted, h]
  rfl

theorem shifts_atEnd (place : Place) : Shifts amount atEnd atEnd place := by
  have hsame : (place.shifted amount).isAtEnd = place.isAtEnd := rfl
  rw [Shifts, atEnd, atEnd, hsame]
  split <;> rfl

theorem shifts_move {advance : Place → Option Place} (complaint : Complaint)
    (h : advance (place.shifted amount) = (advance place).map (Place.shifted amount)) :
    Shifts amount (move advance complaint) (move advance complaint) place := by
  rw [Shifts, move, move, h]
  cases advance place with
  | none => rfl
  | some after =>
    simp only [Option.map_some, Place.skipSeparators_shifted]
    rfl

theorem shifts_symbol (text : String) (place : Place) :
    Shifts amount (symbol text) (symbol text) place :=
  shifts_move _ (place.eat?_shifted text.toList)

theorem shifts_word (text : String) (place : Place) : Shifts amount (word text) (word text) place :=
  shifts_move _ (place.word?_shifted text.toList)

theorem shifts_literal (kind : Scalar) (place : Place) :
    Shifts amount (literal kind) (literal kind) place := by
  rw [Shifts, literal, literal, readLiteral_shifted]
  cases readLiteral kind place with
  | error failure => rfl
  | ok found =>
    simp only [Token.shifted, Place.skipSeparators_shifted]
    rfl

/-! ### Composed steps -/

theorem Shifts.bind {first first' : Reading α} {next next' : α → Reading β}
    (hfirst : Shifts amount first first' place)
    (hnext : ∀ value middle, (first place).result = some (value, middle) →
      Shifts amount (next value) (next' value) middle) :
    Shifts amount (first >>= next) (first' >>= next') place := by
  cases hresult : (first place).result with
  | none =>
    rw [Shifts, bind_eq_of_none hresult, bind_eq_of_none (hfirst.result_eq_none hresult),
      hfirst.outcome]
    rfl
  | some found =>
    rw [Shifts, bind_eq_of_some hresult, bind_eq_of_some (hfirst.result_eq_some hresult),
      hfirst.outcome, (hnext found.1 found.2 hresult).outcome]
    rfl

/-- Of the offset that is reached the second step gets a greater one. -/
theorem shifts_reached_bind {next next' : Nat → Reading α}
    (h : Shifts amount (next place.offset) (next' (amount + place.offset)) place) :
    Shifts amount (reached >>= next) (reached >>= next') place := by
  have hreached : (reached place).result = some (place.offset, place) := rfl
  have hreached' : (reached (place.shifted amount)).result =
      some (amount + place.offset, place.shifted amount) := rfl
  rw [Shifts, bind_eq_of_some hreached, bind_eq_of_some hreached', h.outcome]
  rfl

theorem Shifts.nested {step : Reading α} (h : Shifts amount step step place) :
    Shifts amount (nested step) (nested step) place := by
  rw [Shifts, Reading.nested, h.outcome]
  rfl

theorem Shifts.trying {step : Reading α} (h : Shifts amount step step place) :
    Shifts amount (trying step) (trying step) place := by
  cases hresult : (step place).result with
  | none =>
    rw [Shifts, trying_eq_of_none hresult, trying_eq_of_none (h.result_eq_none hresult), h.outcome]
    rfl
  | some found =>
    rw [Shifts, trying_eq_of_some hresult, trying_eq_of_some (h.result_eq_some hresult), h.outcome]

theorem Shifts.orElse {first second : Reading α} (hfirst : Shifts amount first first place)
    (hsecond : Shifts amount second second place) :
    Shifts amount (orElse first second) (orElse first second) place := by
  cases hresult : (first place).result with
  | none =>
    rw [Shifts, orElse_eq_of_none hresult, orElse_eq_of_none (hfirst.result_eq_none hresult),
      hfirst.outcome, hsecond.outcome]
    rfl
  | some found =>
    rw [Shifts, orElse_eq_of_some hresult, orElse_eq_of_some (hfirst.result_eq_some hresult),
      hfirst.outcome]

theorem shifts_firstOf {steps : List (Reading α)}
    (h : ∀ step ∈ steps, Shifts amount step step place) :
    Shifts amount (firstOf steps) (firstOf steps) place := by
  induction steps with
  | nil => rfl
  | cons step steps ih =>
    rw [List.forall_mem_cons] at h
    exact h.1.trying.orElse (ih h.2)

theorem Shifts.optionally {step : Reading α} (h : Shifts amount step step place) :
    Shifts amount (optionally step) (optionally step) place := by
  cases hresult : (step place).result with
  | none =>
    rw [Shifts, optionally_eq_of_none hresult, optionally_eq_of_none (h.result_eq_none hresult),
      h.outcome]
    rfl
  | some found =>
    rw [Shifts, optionally_eq_of_some hresult, optionally_eq_of_some (h.result_eq_some hresult),
      h.outcome]
    rfl

/-- Whether a round has got any further is the same with more bytes behind. -/
theorem shifts_repeatedly {step : Reading α} (h : ∀ place, Shifts amount step step place)
    (bound : Nat) (place : Place) :
    Shifts amount (repeatedly step bound) (repeatedly step bound) place := by
  induction bound generalizing place with
  | zero => exact shifts_pure [] place
  | succ bound ih =>
    refine shifts_reached_bind ((h place).trying.optionally.bind fun found middle _ ↦ ?_)
    cases found with
    | none => exact shifts_pure [] middle
    | some value =>
      refine shifts_reached_bind ?_
      by_cases hahead : place.offset < middle.offset
      · rw [if_pos hahead, if_pos (Nat.add_lt_add_left hahead amount)]
        exact (ih middle).bind fun values last _ ↦ shifts_pure (value :: values) last
      · rw [if_neg hahead, if_neg (mt Nat.lt_of_add_lt_add_left hahead)]
        exact shifts_pure [] middle

end Reading

end Formulary
