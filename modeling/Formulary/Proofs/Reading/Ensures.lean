import Formulary.Reading
/-!
What steps of a reading ensure. A step that starts at a place notes only allowed events, and what
it reads has some property together with the place after it. `Ensures` says so of one step and one
place, and for each way to compose steps a rule derives it from the parts. `result_bind` and
`result_firstOf_eq_none_iff` say when a composed step succeeds and when it fails.
-/

set_option autoImplicit false
set_option relaxedAutoImplicit false

namespace Formulary.Reading

open Text

variable {α β : Type} {place after : Place} {allowed : Event → Prop}

/-! ### Results -/

/-- One step after the other, when the first one succeeds. -/
theorem bind_eq_of_some {first : Reading α} {value : α} {middle : Place}
    (hfirst : (first place).result = some (value, middle)) (next : α → Reading β) :
    (first >>= next) place =
      ⟨.joined (first place).journal (next value middle).journal, (next value middle).result⟩ := by
  change Reading.bind first next place = _
  simp only [Reading.bind, hfirst]

/-- One step after the other, when the first one fails. -/
theorem bind_eq_of_none {first : Reading α} (hfirst : (first place).result = none)
    (next : α → Reading β) : (first >>= next) place = ⟨(first place).journal, none⟩ := by
  change Reading.bind first next place = _
  simp only [Reading.bind, hfirst]

theorem result_bind (first : Reading α) (next : α → Reading β) (place : Place) :
    ((first >>= next) place).result =
      (first place).result.bind fun found ↦ (next found.1 found.2).result := by
  cases hfirst : (first place).result with
  | none => rw [bind_eq_of_none hfirst, Option.bind_none]
  | some found => rw [bind_eq_of_some hfirst, Option.bind_some]

@[simp] theorem pure_apply (value : α) (place : Place) :
    (pure value : Reading α) place = ⟨.empty, some (value, place)⟩ := rfl

theorem move_eq_of_none {advance : Place → Option Place} (h : advance place = none)
    (complaint : Complaint) :
    move advance complaint place = ⟨.entry (.failed ⟨place.offset, complaint⟩), none⟩ := by
  simp only [move, h]

theorem move_eq_of_some {advance : Place → Option Place} (h : advance place = some after)
    (complaint : Complaint) :
    move advance complaint place = ⟨.empty, some ((), after.skipSeparators)⟩ := by
  simp only [move, h]

theorem symbol_eq_of_none {text : String} (h : place.eat? text.toList = none) :
    symbol text place = ⟨.entry (.failed ⟨place.offset, .expectingSymbol text⟩), none⟩ :=
  move_eq_of_none h _

theorem symbol_eq_of_some {text : String} (h : place.eat? text.toList = some after) :
    symbol text place = ⟨.empty, some ((), after.skipSeparators)⟩ :=
  move_eq_of_some h _

theorem word_eq_of_none {text : String} (h : place.word? text.toList = none) :
    word text place = ⟨.entry (.failed ⟨place.offset, .expectingKeyword text⟩), none⟩ :=
  move_eq_of_none h _

theorem word_eq_of_some {text : String} (h : place.word? text.toList = some after) :
    word text place = ⟨.empty, some ((), after.skipSeparators)⟩ :=
  move_eq_of_some h _

theorem trying_eq_of_none {step : Reading α} (h : (step place).result = none) :
    trying step place =
      ⟨.joined (step place).journal (.entry (.backtracked place.offset)), none⟩ := by
  simp only [trying, h]

theorem trying_eq_of_some {step : Reading α} {found : α × Place}
    (h : (step place).result = some found) : trying step place = step place := by
  simp only [trying, h]

theorem orElse_eq_of_none {first : Reading α} (h : (first place).result = none)
    (second : Reading α) :
    orElse first second place =
      ⟨.joined (.replaced (first place).journal) (second place).journal,
        (second place).result⟩ := by
  simp only [orElse, h]

theorem orElse_eq_of_some {first : Reading α} {found : α × Place}
    (h : (first place).result = some found) (second : Reading α) :
    orElse first second place = first place := by
  simp only [orElse, h]

theorem optionally_eq_of_none {step : Reading α} (h : (step place).result = none) :
    optionally step place = ⟨.omitted (step place).journal, some (none, place)⟩ := by
  simp only [optionally, h]

theorem optionally_eq_of_some {step : Reading α} {value : α}
    (h : (step place).result = some (value, after)) :
    optionally step place = ⟨(step place).journal, some (some value, after)⟩ := by
  simp only [optionally, h]

theorem result_trying (step : Reading α) (place : Place) :
    (trying step place).result = (step place).result := by
  cases hstep : (step place).result <;> simp only [trying, hstep]

theorem result_orElse (first second : Reading α) (place : Place) :
    (orElse first second place).result = (first place).result.or (second place).result := by
  cases hfirst : (first place).result <;>
    simp only [orElse, hfirst, Option.none_or, Option.some_or]

theorem result_optionally (step : Reading α) (place : Place) :
    (optionally step place).result =
      some (((step place).result.map fun found ↦ (some found.1, found.2)).getD (none, place)) := by
  cases hstep : (step place).result <;>
    simp only [optionally, hstep, Option.map_none, Option.map_some, Option.getD_none,
      Option.getD_some]

theorem result_firstOf_cons (step : Reading α) (steps : List (Reading α)) (place : Place) :
    (firstOf (step :: steps) place).result =
      (step place).result.or (firstOf steps place).result := by
  rw [firstOf, result_orElse, result_trying]

theorem result_firstOf (steps : List (Reading α)) (place : Place) :
    (firstOf steps place).result = steps.findSome? fun step ↦ (step place).result := by
  induction steps with
  | nil => rfl
  | cons step steps ih =>
    rw [result_firstOf_cons, ih, List.findSome?_cons]
    cases (step place).result <;> rfl

/-- A choice fails if every step of it does. -/
theorem result_firstOf_eq_none_iff {steps : List (Reading α)} :
    (firstOf steps place).result = none ↔ ∀ step ∈ steps, (step place).result = none := by
  rw [result_firstOf, List.findSome?_eq_none_iff]

theorem exists_of_result_firstOf {steps : List (Reading α)} {found : α × Place}
    (h : (firstOf steps place).result = some found) :
    ∃ step ∈ steps, (step place).result = some found := by
  rw [result_firstOf] at h
  exact List.exists_of_findSome?_eq_some h

/-! ### Rules -/

/-- From a place a step notes only allowed events, and what it reads has a property together with
the place after it. -/
structure Ensures (step : Reading α) (place : Place) (allowed : Event → Prop)
    (property : α → Place → Prop) : Prop where
  events : ∀ event ∈ (step place).events, allowed event
  result : ∀ value after, (step place).result = some (value, after) → property value after

variable {property : α → Place → Prop}

theorem Ensures.mono {step : Reading α} {wider : α → Place → Prop}
    (h : Ensures step place allowed property)
    (hwider : ∀ value after, property value after → wider value after) :
    Ensures step place allowed wider :=
  ⟨h.events, fun value after hresult ↦ hwider value after (h.result value after hresult)⟩

theorem Ensures.widen {step : Reading α} {wider : Event → Prop}
    (h : Ensures step place allowed property) (hwider : ∀ event, allowed event → wider event) :
    Ensures step place wider property :=
  ⟨fun event hevent ↦ hwider event (h.events event hevent), h.result⟩

theorem ensures_pure {value : α} (h : property value place) :
    Ensures (pure value) place allowed property := by
  refine ⟨?_, ?_⟩
  · intro event hevent
    simp [Outcome.events] at hevent
  · rintro _ _ ⟨⟩
    exact h

theorem ensures_of_fails {step : Reading α} (hevents : ∀ event ∈ (step place).events, allowed event)
    (hresult : (step place).result = none) : Ensures step place allowed property :=
  ⟨hevents, fun value after hsome ↦ by rw [hresult] at hsome; exact nomatch hsome⟩

theorem ensures_bind {first : Reading α} {next : α → Reading β}
    {final : β → Place → Prop} (hfirst : Ensures first place allowed property)
    (hnext : ∀ value after, property value after → Ensures (next value) after allowed final) :
    Ensures (first >>= next) place allowed final := by
  cases hresult : (first place).result with
  | none =>
    refine ensures_of_fails ?_ ?_ <;> rw [bind_eq_of_none hresult]
    exact hfirst.events
  | some found =>
    have hrest := hnext found.1 found.2 (hfirst.result found.1 found.2 hresult)
    refine ⟨?_, ?_⟩ <;> rw [bind_eq_of_some hresult]
    · intro event hevent
      simp only [Outcome.events, Journal.events_joined, List.mem_append] at hevent
      rcases hevent with hevent | hevent
      · exact hfirst.events event hevent
      · exact hrest.events event hevent
    · exact hrest.result

/-- A step after which something is made of what it read. -/
theorem ensures_bind_pure {step : Reading α} {build : α → β} {final : β → Place → Prop}
    (h : Ensures step place allowed fun value after ↦ final (build value) after) :
    Ensures (step >>= fun value ↦ pure (build value)) place allowed final :=
  ensures_bind h fun _ _ hafter ↦ ensures_pure hafter

theorem Ensures.nested {step : Reading α} (h : Ensures step place allowed property) :
    Ensures (nested step) place allowed property :=
  ⟨h.events, h.result⟩

theorem ensures_note {event : Nat → Event} {final : Unit → Place → Prop}
    (hallowed : allowed (event place.offset)) (h : final () place) :
    Ensures (note event) place allowed final := by
  refine ⟨?_, ?_⟩
  · intro noted hnoted
    obtain rfl : noted = event place.offset := by simpa [Outcome.events, note] using hnoted
    exact hallowed
  · rintro _ _ ⟨⟩
    exact h

theorem ensures_reached {final : Nat → Place → Prop} (h : final place.offset place) :
    Ensures reached place allowed final :=
  ⟨fun event hevent ↦ by simp [Outcome.events, reached] at hevent, by rintro _ _ ⟨⟩; exact h⟩

theorem ensures_remaining {final : Nat → Place → Prop} (h : final place.rest.length place) :
    Ensures remaining place allowed final :=
  ⟨fun event hevent ↦ by simp [Outcome.events, remaining] at hevent, by rintro _ _ ⟨⟩; exact h⟩

theorem ensures_fail {complaint : Complaint}
    (hallowed : allowed (.failed ⟨place.offset, complaint⟩)) :
    Ensures (fail complaint : Reading α) place allowed property := by
  refine ensures_of_fails ?_ rfl
  intro event hevent
  obtain rfl : event = .failed ⟨place.offset, complaint⟩ := by
    simpa [Outcome.events, fail] using hevent
  exact hallowed

theorem ensures_move {advance : Place → Option Place} {complaint : Complaint}
    {final : Unit → Place → Prop} (hallowed : allowed (.failed ⟨place.offset, complaint⟩))
    (h : ∀ after, advance place = some after → final () after.skipSeparators) :
    Ensures (move advance complaint) place allowed final := by
  cases hadvance : advance place with
  | none =>
    have hfailed := move_eq_of_none hadvance complaint
    refine ensures_of_fails ?_ (by rw [hfailed])
    intro event hevent
    obtain rfl : event = .failed ⟨place.offset, complaint⟩ := by
      simpa [Outcome.events, hfailed] using hevent
    exact hallowed
  | some after =>
    have hmoved := move_eq_of_some hadvance complaint
    refine ⟨?_, ?_⟩
    · intro event hevent
      simp [Outcome.events, hmoved] at hevent
    · rw [hmoved]
      rintro _ _ ⟨⟩
      exact h after hadvance

theorem ensures_literal {kind : Scalar} {final : Literal → Place → Prop}
    (hallowed : ∀ failure, readLiteral kind place = .error failure → allowed (.failed failure))
    (h : ∀ value after, readLiteral kind place = .ok (value, after) →
      final value after.skipSeparators) :
    Ensures (literal kind) place allowed final := by
  cases hread : readLiteral kind place with
  | error failure =>
    refine ensures_of_fails ?_ (by simp only [literal, hread])
    intro event hevent
    obtain rfl : event = .failed failure := by simpa [Outcome.events, literal, hread] using hevent
    exact hallowed failure hread
  | ok found =>
    refine ⟨?_, ?_⟩
    · intro event hevent
      simp [Outcome.events, literal, hread] at hevent
    · simp only [literal, hread]
      rintro _ _ ⟨⟩
      exact h found.1 found.2 hread

theorem ensures_atEnd {final : Unit → Place → Prop}
    (hallowed : allowed (.failed ⟨place.offset, .expectingEnd⟩))
    (h : place.isAtEnd = true → final () place) : Ensures atEnd place allowed final := by
  by_cases hend : place.isAtEnd = true
  · refine ⟨?_, ?_⟩
    · intro event hevent
      simp [Outcome.events, atEnd, hend] at hevent
    · simp only [atEnd, if_pos hend]
      rintro _ _ ⟨⟩
      exact h hend
  · refine ensures_of_fails ?_ (by simp only [atEnd, if_neg hend])
    intro event hevent
    obtain rfl : event = .failed ⟨place.offset, .expectingEnd⟩ := by
      simpa [Outcome.events, atEnd, hend] using hevent
    exact hallowed

theorem ensures_trying {step : Reading α} (hallowed : allowed (.backtracked place.offset))
    (h : Ensures step place allowed property) : Ensures (trying step) place allowed property := by
  cases hresult : (step place).result with
  | none =>
    refine ensures_of_fails ?_ (by rw [result_trying, hresult])
    intro event hevent
    simp only [Outcome.events, trying_eq_of_none hresult, Journal.events_joined, Journal.events_entry,
      List.mem_append, List.mem_singleton] at hevent
    rcases hevent with hevent | rfl
    · exact h.events event hevent
    · exact hallowed
  | some found =>
    have hsame := trying_eq_of_some hresult
    exact ⟨by rw [hsame]; exact h.events, by rw [hsame]; exact h.result⟩

theorem ensures_orElse {first second : Reading α} (hfirst : Ensures first place allowed property)
    (hsecond : Ensures second place allowed property) :
    Ensures (orElse first second) place allowed property := by
  cases hresult : (first place).result with
  | none =>
    have hinstead := orElse_eq_of_none hresult second
    refine ⟨?_, by rw [hinstead]; exact hsecond.result⟩
    intro event hevent
    simp only [hinstead, Outcome.events, Journal.events_joined, Journal.events_replaced,
      List.mem_append] at hevent
    rcases hevent with hevent | hevent
    · exact hfirst.events event hevent
    · exact hsecond.events event hevent
  | some found =>
    have hsame := orElse_eq_of_some hresult second
    exact ⟨by rw [hsame]; exact hfirst.events, by rw [hsame]; exact hfirst.result⟩

theorem ensures_firstOf {steps : List (Reading α)} (hallowed : allowed (.backtracked place.offset))
    (h : ∀ step ∈ steps, Ensures step place allowed property) :
    Ensures (firstOf steps) place allowed property := by
  induction steps with
  | nil => exact ensures_of_fails (fun event hevent ↦ by simp [Outcome.events, firstOf, giveUp]
      at hevent) rfl
  | cons step steps ih =>
    rw [List.forall_mem_cons] at h
    exact ensures_orElse (ensures_trying hallowed h.1) (ih h.2)

theorem ensures_optionally {step : Reading α} {final : Option α → Place → Prop}
    (h : Ensures step place allowed fun value after ↦ final (some value) after)
    (hnone : final none place) : Ensures (optionally step) place allowed final := by
  cases hresult : (step place).result with
  | none =>
    have hleft := optionally_eq_of_none hresult
    refine ⟨by rw [hleft]; exact h.events, ?_⟩
    rw [hleft]
    rintro _ _ ⟨⟩
    exact hnone
  | some found =>
    have htaken := optionally_eq_of_some hresult
    refine ⟨by rw [htaken]; exact h.events, ?_⟩
    rw [htaken]
    rintro _ _ ⟨⟩
    exact h.result found.1 found.2 hresult

/-! ### Loops

What holds at the place where a loop starts, and is kept by its step, holds where the loop ends. -/

variable {invariant : Place → Prop}

theorem ensures_inOrder {steps : List (Reading α)} (hplace : invariant place)
    (h : ∀ step ∈ steps, ∀ place, invariant place →
      Ensures step place allowed fun _ after ↦ invariant after) :
    Ensures (inOrder steps) place allowed fun _ after ↦ invariant after := by
  induction steps generalizing place with
  | nil => exact ensures_pure hplace
  | cons step steps ih =>
    rw [List.forall_mem_cons] at h
    refine ensures_bind (h.1 place hplace) fun value middle hmiddle ↦ ?_
    exact ensures_bind_pure (ih hmiddle h.2)

theorem ensures_repeatedly {step : Reading α} (hplace : invariant place)
    (hallowed : ∀ place, invariant place → allowed (.backtracked place.offset))
    (h : ∀ place, invariant place → Ensures step place allowed fun _ after ↦ invariant after)
    (bound : Nat) :
    Ensures (repeatedly step bound) place allowed fun _ after ↦ invariant after := by
  induction bound generalizing place with
  | zero => exact ensures_pure hplace
  | succ bound ih =>
    have hreached (middle : Place) (hmiddle : invariant middle) :
        Ensures reached middle allowed fun _ after ↦ invariant after :=
      ensures_reached hmiddle
    have hstep (middle : Place) (hmiddle : invariant middle) :
        Ensures (optionally (trying step)) middle allowed fun _ after ↦ invariant after :=
      ensures_optionally (ensures_trying (hallowed _ hmiddle) (h _ hmiddle)) hmiddle
    refine ensures_bind (hreached place hplace) fun before _ hbefore ↦ ?_
    refine ensures_bind (hstep _ hbefore) fun found middle hmiddle ↦ ?_
    cases found with
    | none => exact ensures_pure hmiddle
    | some value =>
      refine ensures_bind (hreached _ hmiddle) fun offset _ hthere ↦ ?_
      split
      · exact ensures_bind_pure (ih hthere)
      · exact ensures_pure hthere

end Formulary.Reading
