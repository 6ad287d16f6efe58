import Formulary.Proofs.Reading.Ensures
import Formulary.Proofs.Token.Refusal
import Mathlib.Data.List.Induction
/-!
How far a reading gets. The furthest of some failures has the greatest offset, and the complaints
that are kept are those at it, in their order (`complaints_furthest`). The reach of an outcome is
the furthest offset at which it failed anywhere, or where it ended if that is further. `Accounts`
says of a step that it reaches what it started from, everything that happened in it, and that it
gives a reason if it fails; every way to compose steps keeps to that.
-/

set_option autoImplicit false
set_option relaxedAutoImplicit false

namespace Formulary

open Text

/-! ### The furthest failures -/

/-- The complaints at an offset, in their order. -/
def complaintsAt (failures : List Failure) (offset : Nat) : List Complaint :=
  (failures.filter fun failure ↦ failure.offset = offset).map Failure.complaint

@[simp] theorem complaintsAt_append (first second : List Failure) (offset : Nat) :
    complaintsAt (first ++ second) offset =
      complaintsAt first offset ++ complaintsAt second offset := by
  simp [complaintsAt]

theorem complaintsAt_of_forall_ne {failures : List Failure} {offset : Nat}
    (h : ∀ failure ∈ failures, failure.offset ≠ offset) : complaintsAt failures offset = [] := by
  simpa [complaintsAt] using h

/-- No failure is further than the furthest, and what is kept are the complaints at it. -/
theorem complaints_furthest (failures : List Failure) :
    (∀ failure ∈ failures, failure.offset ≤ (furthest failures).offset) ∧
      (furthest failures).complaints = complaintsAt failures (furthest failures).offset ∧
        (failures ≠ [] → (furthest failures).complaints ≠ []) := by
  induction failures using List.reverseRecOn with
  | nil => exact ⟨nofun, rfl, fun h ↦ absurd rfl h⟩
  | append_singleton failures failure ih =>
    obtain ⟨hmost, hkept, hsome⟩ := ih
    have hadd : furthest (failures ++ [failure]) = (furthest failures).add failure := by
      rw [furthest, List.foldl_append]
      rfl
    have hnone : (furthest failures).complaints = [] → failures = [] :=
      fun hempty ↦ of_not_not fun hfailures ↦ hsome hfailures hempty
    rw [hadd, Furthest.add]
    simp only [List.forall_mem_append, List.forall_mem_singleton, complaintsAt_append,
      Bool.or_eq_true, List.isEmpty_iff, decide_eq_true_eq]
    split
    · rename_i hahead
      have hless (other : Failure) (hother : other ∈ failures) : other.offset < failure.offset := by
        rcases hahead with hempty | hless
        · rw [hnone hempty] at hother
          exact absurd hother List.not_mem_nil
        · exact Nat.lt_of_le_of_lt (hmost other hother) hless
      have hbefore : complaintsAt failures failure.offset = [] :=
        complaintsAt_of_forall_ne fun other hother ↦ Nat.ne_of_lt (hless other hother)
      refine ⟨⟨fun other hother ↦ Nat.le_of_lt (hless other hother), Nat.le_refl _⟩, ?_,
        fun _ ↦ List.cons_ne_nil _ _⟩
      rw [hbefore, List.nil_append]
      simp [complaintsAt]
    · rename_i hbehind
      rw [not_or, Nat.not_lt] at hbehind
      split
      · rename_i hsame
        refine ⟨⟨hmost, Nat.le_of_eq hsame⟩, ?_, fun _ ↦ by simp⟩
        simp [hkept, complaintsAt, hsame]
      · rename_i hother
        refine ⟨⟨hmost, hbehind.2⟩, ?_, fun _ ↦ hbehind.1⟩
        simp [hkept, complaintsAt, hother]

/-- The furthest offset of some failures. -/
def frontier (failures : List Failure) : Nat :=
  (furthest failures).offset

theorem le_frontier {failures : List Failure} {failure : Failure} (h : failure ∈ failures) :
    failure.offset ≤ frontier failures :=
  (complaints_furthest failures).1 failure h

/-- Of some failures there is one at the frontier. -/
theorem complaintsAt_frontier_ne_nil {failures : List Failure} (h : failures ≠ []) :
    complaintsAt failures (frontier failures) ≠ [] := by
  obtain ⟨-, hkept, hsome⟩ := complaints_furthest failures
  rw [frontier, ← hkept]
  exact hsome h

theorem exists_failure_frontier {failures : List Failure} (h : failures ≠ []) :
    ∃ failure ∈ failures, failure.offset = frontier failures := by
  have hcomplaints := complaintsAt_frontier_ne_nil h
  rw [complaintsAt, Ne, List.map_eq_nil_iff] at hcomplaints
  obtain ⟨failure, hfailure⟩ := List.exists_mem_of_ne_nil _ hcomplaints
  exact ⟨failure, (List.mem_filter.mp hfailure).1, by simpa using (List.mem_filter.mp hfailure).2⟩

theorem frontier_le {failures : List Failure} {bound : Nat}
    (h : ∀ failure ∈ failures, failure.offset ≤ bound) : frontier failures ≤ bound := by
  by_cases hnone : failures = []
  · rw [hnone]
    exact Nat.zero_le bound
  · obtain ⟨failure, hfailure, hoffset⟩ := exists_failure_frontier hnone
    rw [← hoffset]
    exact h failure hfailure

@[simp] theorem frontier_append (first second : List Failure) :
    frontier (first ++ second) = max (frontier first) (frontier second) := by
  refine Nat.le_antisymm (frontier_le fun failure hfailure ↦ ?_) (Nat.max_le.mpr ⟨?_, ?_⟩)
  · rcases List.mem_append.mp hfailure with hfirst | hsecond
    · exact Nat.le_trans (le_frontier hfirst) (Nat.le_max_left _ _)
    · exact Nat.le_trans (le_frontier hsecond) (Nat.le_max_right _ _)
  · exact frontier_le fun failure hfailure ↦ le_frontier (List.mem_append_left _ hfailure)
  · exact frontier_le fun failure hfailure ↦ le_frontier (List.mem_append_right _ hfailure)

theorem diagnostics_eq (text : List Char) (failures : List Failure) :
    diagnostics text failures = (complaintsAt failures (frontier failures)).map
      fun complaint ↦ ⟨.ofOffset text (frontier failures), complaint⟩ := by
  rw [diagnostics, (complaints_furthest failures).2.1]
  rfl

/-- What is collected of some items gets no further than what is collected of others, if each of the
items is matched by one that gets as far. -/
theorem frontier_flatMap_le {γ δ : Type} {items : List γ} {others : List δ}
    {collect : γ → List Failure} {collect' : δ → List Failure}
    (h : ∀ item ∈ items, ∃ other ∈ others, frontier (collect item) ≤ frontier (collect' other)) :
    frontier (items.flatMap collect) ≤ frontier (others.flatMap collect') := by
  refine frontier_le fun failure hfailure ↦ ?_
  obtain ⟨item, hitem, hfailure⟩ := List.mem_flatMap.mp hfailure
  obtain ⟨other, hother, hfurther⟩ := h item hitem
  have hinside : frontier (collect' other) ≤ frontier (others.flatMap collect') :=
    frontier_le fun failure hfailure ↦ le_frontier (List.mem_flatMap.mpr ⟨other, hother, hfailure⟩)
  exact Nat.le_trans (Nat.le_trans (le_frontier hfailure) hfurther) hinside

theorem frontier_perm {first second : List Failure} (h : first.Perm second) :
    frontier first = frontier second :=
  Nat.le_antisymm (frontier_le fun _ hfailure ↦ le_frontier (h.mem_iff.mp hfailure))
    (frontier_le fun _ hfailure ↦ le_frontier (h.mem_iff.mpr hfailure))

theorem complaintsAt_perm {first second : List Failure} (h : first.Perm second) (offset : Nat) :
    (complaintsAt first offset).Perm (complaintsAt second offset) :=
  (h.filter _).map _

/-- Where in the text something happened. -/
def Event.offset : Event → Nat
  | .entered _ offset | .filled _ offset | .backtracked offset => offset
  | .failed failure => failure.offset

/-! ### Reach -/

namespace Outcome

variable {α : Type}

/-- The failures of a reading, in the order in which they arose. -/
def failures (outcome : Outcome α) : List Failure :=
  failuresOf outcome.events

theorem mem_failures_iff {outcome : Outcome α} {failure : Failure} :
    failure ∈ outcome.failures ↔ .failed failure ∈ outcome.events := by
  simp only [failures, failuresOf, List.mem_filterMap]
  constructor
  · rintro ⟨event, hevent, hfailure⟩
    split at hfailure
    · rwa [← Option.some.inj hfailure]
    · exact nomatch hfailure
  · intro hevent
    exact ⟨_, hevent, rfl⟩

/-- How far a reading got: to the furthest of its failures, or to where it ended. -/
def reach (outcome : Outcome α) : Nat :=
  max (frontier outcome.failures) (outcome.result.elim 0 fun found ↦ found.2.offset)

theorem reach_of_none {outcome : Outcome α} (h : outcome.result = none) :
    outcome.reach = frontier outcome.failures := by
  rw [reach, h]
  exact Nat.max_zero _

theorem reach_of_some {outcome : Outcome α} {value : α} {after : Place}
    (h : outcome.result = some (value, after)) :
    outcome.reach = max (frontier outcome.failures) after.offset := by
  rw [reach, h]
  rfl

end Outcome

namespace Reading

variable {α β : Type} {place : Place}

/-! ### The failures of composed steps -/

theorem failures_bind_of_none {first : Reading α} (h : (first place).result = none)
    (next : α → Reading β) : ((first >>= next) place).failures = (first place).failures := by
  rw [bind_eq_of_none h]
  rfl

theorem failures_bind_of_some {first : Reading α} {value : α} {middle : Place}
    (h : (first place).result = some (value, middle)) (next : α → Reading β) :
    ((first >>= next) place).failures =
      (first place).failures ++ (next value middle).failures := by
  rw [bind_eq_of_some h]
  simp only [Outcome.failures, Outcome.events, Journal.events_joined, failuresOf,
    List.filterMap_append]

theorem failures_trying (step : Reading α) (place : Place) :
    (trying step place).failures = (step place).failures := by
  cases hresult : (step place).result with
  | none =>
    rw [trying_eq_of_none hresult]
    simp [Outcome.failures, Outcome.events, failuresOf]
  | some found => rw [trying_eq_of_some hresult]

theorem failures_orElse_of_none {first : Reading α} (h : (first place).result = none)
    (second : Reading α) :
    (orElse first second place).failures = (first place).failures ++ (second place).failures := by
  rw [orElse_eq_of_none h]
  simp only [Outcome.failures, Outcome.events, Journal.events_joined, Journal.events_replaced,
    failuresOf, List.filterMap_append]

theorem failures_optionally (step : Reading α) (place : Place) :
    (optionally step place).failures = (step place).failures := by
  cases hresult : (step place).result with
  | none =>
    rw [optionally_eq_of_none hresult]
    rfl
  | some found =>
    rw [optionally_eq_of_some hresult]
    rfl

/-- The failures of a choice arose in one of its steps. -/
theorem exists_of_mem_failures_firstOf {steps : List (Reading α)} {failure : Failure}
    (h : failure ∈ (firstOf steps place).failures) :
    ∃ step ∈ steps, failure ∈ (step place).failures := by
  induction steps with
  | nil => exact absurd h List.not_mem_nil
  | cons step steps ih =>
    rw [firstOf] at h
    cases hresult : (step place).result with
    | none =>
      rw [failures_orElse_of_none (by rw [result_trying, hresult]), failures_trying,
        List.mem_append] at h
      rcases h with hfirst | hlater
      · exact ⟨step, List.mem_cons_self, hfirst⟩
      · obtain ⟨other, hother, hfailure⟩ := ih hlater
        exact ⟨other, List.mem_cons_of_mem _ hother, hfailure⟩
    | some found =>
      rw [orElse_eq_of_some (by rw [result_trying, hresult]), failures_trying] at h
      exact ⟨step, List.mem_cons_self, h⟩

/-- A choice of which every step fails has the failures of all of them. -/
theorem failures_firstOf_of_none {steps : List (Reading α)}
    (h : ∀ step ∈ steps, (step place).result = none) :
    (firstOf steps place).failures = steps.flatMap fun step ↦ (step place).failures := by
  induction steps with
  | nil => rfl
  | cons step steps ih =>
    rw [List.forall_mem_cons] at h
    rw [firstOf, failures_orElse_of_none (by rw [result_trying, h.1]), failures_trying, ih h.2,
      List.flatMap_cons]

/-! ### The reach of composed steps -/

/-- Two steps after one another get as far as the further one. -/
theorem reach_bind_of_some {first : Reading α} {next : α → Reading β} {value : α} {middle : Place}
    (hfirst : (first place).result = some (value, middle))
    (hnext : middle.offset ≤ (next value middle).reach) :
    ((first >>= next) place).reach = max (first place).reach (next value middle).reach := by
  have hresult : ((first >>= next) place).result = (next value middle).result := by
    rw [bind_eq_of_some hfirst]
  rw [Outcome.reach_of_some hfirst, Outcome.reach, failures_bind_of_some hfirst, frontier_append,
    hresult]
  rw [Outcome.reach] at hnext ⊢
  omega

theorem reach_bind_of_none {first : Reading α} (h : (first place).result = none)
    (next : α → Reading β) : ((first >>= next) place).reach = (first place).reach := by
  rw [Outcome.reach_of_none h, Outcome.reach_of_none (by rw [bind_eq_of_none h]),
    failures_bind_of_none h]

theorem reach_trying (step : Reading α) (place : Place) :
    (trying step place).reach = (step place).reach := by
  rw [Outcome.reach, Outcome.reach, failures_trying, result_trying]

theorem reach_orElse_of_none {first : Reading α} (h : (first place).result = none)
    (second : Reading α) :
    (orElse first second place).reach = max (first place).reach (second place).reach := by
  rw [Outcome.reach_of_none h, Outcome.reach, Outcome.reach, failures_orElse_of_none h,
    frontier_append, orElse_eq_of_none h, Nat.max_assoc]

/-- A step that may fail gets to where it started even if it fails. -/
theorem reach_optionally {step : Reading α} (h : place.offset ≤ (step place).reach) :
    (optionally step place).reach = (step place).reach := by
  cases hresult : (step place).result with
  | none =>
    rw [Outcome.reach_of_none hresult] at h ⊢
    rw [Outcome.reach_of_some (by rw [optionally_eq_of_none hresult]), failures_optionally]
    exact Nat.max_eq_left h
  | some found =>
    rw [Outcome.reach_of_some (by rw [optionally_eq_of_some hresult]), failures_optionally,
      Outcome.reach_of_some hresult]

/-! ### Accounts -/

/-- A step reaches the place it started from and everything that happened in it, and where it fails
there is a complaint. -/
structure Accounts (step : Reading α) (place : Place) : Prop where
  start : place.offset ≤ (step place).reach
  events : ∀ event ∈ (step place).events, event.offset ≤ (step place).reach
  fails : (step place).result = none → (step place).failures ≠ []

/-- A step in which nothing happens accounts for itself if it does not move backwards. -/
theorem accounts_of_empty {step : Reading α} {value : α} {after : Place}
    (h : step place = ⟨.empty, some (value, after)⟩) (hmoves : place.offset ≤ after.offset) :
    Accounts step place := by
  refine ⟨?_, fun event hevent ↦ ?_, fun hnone ↦ ?_⟩
  · rw [Outcome.reach_of_some (by rw [h])]
    exact Nat.le_trans hmoves (Nat.le_max_right _ _)
  · rw [h] at hevent
    simp [Outcome.events] at hevent
  · rw [h] at hnone
    cases hnone

/-- A step that only fails accounts for itself if it does not fail behind its start. -/
theorem accounts_of_failed {step : Reading α} {failure : Failure}
    (h : step place = ⟨.entry (.failed failure), none⟩) (hoffset : place.offset ≤ failure.offset) :
    Accounts step place := by
  have hreach : (step place).reach = failure.offset := by
    rw [Outcome.reach_of_none (by rw [h]), h]
    rfl
  refine ⟨hreach ▸ hoffset, fun event hevent ↦ ?_, fun _ ↦ ?_⟩
  · rw [h] at hevent
    obtain rfl : event = .failed failure := by simpa [Outcome.events] using hevent
    exact Nat.le_of_eq hreach.symm
  · rw [h]
    exact List.cons_ne_nil _ _

theorem accounts_pure (value : α) : Accounts (pure value) place :=
  accounts_of_empty rfl (Nat.le_refl _)

theorem accounts_reached : Accounts reached place :=
  accounts_of_empty rfl (Nat.le_refl _)

theorem accounts_remaining : Accounts remaining place :=
  accounts_of_empty rfl (Nat.le_refl _)

theorem accounts_fail (complaint : Complaint) : Accounts (fail complaint : Reading α) place :=
  accounts_of_failed rfl (Nat.le_refl _)

theorem accounts_note {event : Nat → Event} (hoffset : (event place.offset).offset = place.offset)
    (hquiet : failuresOf [event place.offset] = []) : Accounts (note event) place := by
  have hfailures : (note event place).failures = [] := hquiet
  have hreach : (note event place).reach = place.offset := by
    rw [Outcome.reach_of_some rfl, hfailures]
    exact Nat.zero_max _
  refine ⟨Nat.le_of_eq hreach.symm, fun noted hnoted ↦ ?_, nofun⟩
  obtain rfl : noted = event place.offset := by simpa [Outcome.events, note] using hnoted
  rw [hreach]
  exact Nat.le_of_eq hoffset

theorem accounts_move {advance : Place → Option Place} {complaint : Complaint}
    (h : ∀ after, advance place = some after → Place.Leads place after) :
    Accounts (move advance complaint) place := by
  cases hadvance : advance place with
  | none => exact accounts_of_failed (move_eq_of_none hadvance complaint) (Nat.le_refl _)
  | some after =>
    have hmoves := ((h after hadvance).trans (leads_skipSeparators after)).offset_le
    exact accounts_of_empty (move_eq_of_some hadvance complaint) hmoves

theorem accounts_symbol (text : String) : Accounts (symbol text) place :=
  accounts_move fun _ heaten ↦ Place.leads_of_eat? heaten

theorem accounts_word (text : String) : Accounts (word text) place :=
  accounts_move fun _ heaten ↦ Place.leads_of_eat? (word?_eq_some_iff.mp heaten).1

theorem accounts_literal (kind : Scalar) : Accounts (literal kind) place := by
  cases hread : readLiteral kind place with
  | error failure =>
    exact accounts_of_failed (by simp only [literal, hread]) (refusal_of_readLiteral hread).offset_le
  | ok found =>
    obtain ⟨value, after⟩ := found
    have hmoves := (advances_of_readLiteral hread).1.trans (leads_skipSeparators after)
    exact accounts_of_empty (by simp only [literal, hread]; rfl) hmoves.offset_le

theorem accounts_atEnd : Accounts atEnd place := by
  by_cases hend : place.isAtEnd = true
  · exact accounts_of_empty (by simp only [atEnd, hend, if_true]; rfl) (Nat.le_refl _)
  · exact accounts_of_failed (by simp only [atEnd, hend]; rfl) (Nat.le_refl _)

theorem accounts_bind {first : Reading α} {next : α → Reading β} (hfirst : Accounts first place)
    (hnext : ∀ value middle, (first place).result = some (value, middle) →
      Accounts (next value) middle) : Accounts (first >>= next) place := by
  cases hresult : (first place).result with
  | none =>
    refine ⟨?_, ?_, fun _ ↦ ?_⟩
    · rw [reach_bind_of_none hresult]
      exact hfirst.start
    · rw [reach_bind_of_none hresult, bind_eq_of_none hresult]
      exact hfirst.events
    · rw [failures_bind_of_none hresult]
      exact hfirst.fails hresult
  | some found =>
    obtain ⟨value, middle⟩ := found
    have hrest := hnext value middle hresult
    have hreach := reach_bind_of_some hresult hrest.start
    refine ⟨?_, ?_, fun hnone ↦ ?_⟩
    · rw [hreach]
      exact Nat.le_trans hfirst.start (Nat.le_max_left _ _)
    · rw [hreach, bind_eq_of_some hresult]
      simp only [Outcome.events, Journal.events_joined, List.forall_mem_append]
      exact ⟨fun event hevent ↦ Nat.le_trans (hfirst.events event hevent) (Nat.le_max_left _ _),
        fun event hevent ↦ Nat.le_trans (hrest.events event hevent) (Nat.le_max_right _ _)⟩
    · rw [bind_eq_of_some hresult] at hnone
      rw [failures_bind_of_some hresult]
      exact List.append_ne_nil_of_right_ne_nil _ (hrest.fails hnone)

theorem Accounts.nested {step : Reading α} (h : Accounts step place) : Accounts (nested step) place :=
  ⟨h.start, h.events, h.fails⟩

theorem accounts_trying {step : Reading α} (h : Accounts step place) :
    Accounts (trying step) place := by
  refine ⟨?_, ?_, ?_⟩
  · rw [reach_trying]
    exact h.start
  · rw [reach_trying]
    cases hresult : (step place).result with
    | none =>
      rw [trying_eq_of_none hresult]
      simp only [Outcome.events, Journal.events_joined, List.forall_mem_append,
        Journal.events_entry, List.forall_mem_singleton]
      exact ⟨h.events, h.start⟩
    | some found =>
      rw [trying_eq_of_some hresult]
      exact h.events
  · rw [result_trying, failures_trying]
    exact h.fails

/-- A choice accounts for itself if its first step does, for which there need not be a complaint of
the second one. -/
theorem accounts_orElse {first second : Reading α} (hfirst : Accounts first place)
    (hsecond : ∀ event ∈ (second place).events, event.offset ≤ (second place).reach) :
    Accounts (orElse first second) place := by
  cases hresult : (first place).result with
  | none =>
    have hreach := reach_orElse_of_none hresult second
    refine ⟨?_, ?_, fun _ ↦ ?_⟩
    · rw [hreach]
      exact Nat.le_trans hfirst.start (Nat.le_max_left _ _)
    · rw [hreach, orElse_eq_of_none hresult]
      simp only [Outcome.events, Journal.events_joined, Journal.events_replaced,
        List.forall_mem_append]
      exact ⟨fun event hevent ↦ Nat.le_trans (hfirst.events event hevent) (Nat.le_max_left _ _),
        fun event hevent ↦ Nat.le_trans (hsecond event hevent) (Nat.le_max_right _ _)⟩
    · rw [failures_orElse_of_none hresult]
      exact List.append_ne_nil_of_left_ne_nil (hfirst.fails hresult) _
  | some found =>
    have hsame := orElse_eq_of_some hresult second
    refine ⟨?_, ?_, ?_⟩ <;> rw [hsame]
    · exact hfirst.start
    · exact hfirst.events
    · exact hfirst.fails

theorem accounts_firstOf {steps : List (Reading α)} (hsome : steps ≠ [])
    (h : ∀ step ∈ steps, Accounts step place) : Accounts (firstOf steps) place := by
  induction steps with
  | nil => exact absurd rfl hsome
  | cons step steps ih =>
    rw [List.forall_mem_cons] at h
    refine accounts_orElse (accounts_trying h.1) ?_
    cases steps with
    | nil =>
      intro event hevent
      exact absurd hevent List.not_mem_nil
    | cons other steps => exact (ih (List.cons_ne_nil _ _) h.2).events

theorem accounts_optionally {step : Reading α} (h : Accounts step place) :
    Accounts (optionally step) place := by
  have hreach := reach_optionally h.start
  refine ⟨hreach ▸ h.start, ?_, fun hnone ↦ ?_⟩
  · rw [hreach]
    cases hresult : (step place).result with
    | none =>
      rw [optionally_eq_of_none hresult]
      exact h.events
    | some found =>
      rw [optionally_eq_of_some hresult]
      exact h.events
  · rw [result_optionally] at hnone
    exact nomatch hnone

/-- Of no steps at all none can be taken, and then nothing is read. -/
theorem accounts_optionally_firstOf {steps : List (Reading α)}
    (h : ∀ step ∈ steps, Accounts step place) : Accounts (optionally (firstOf steps)) place := by
  by_cases hsome : steps = []
  · subst hsome
    refine ⟨?_, ?_, nofun⟩
    · exact Nat.le_max_right _ _
    · intro event hevent
      exact absurd hevent List.not_mem_nil
  · exact accounts_optionally (accounts_firstOf hsome h)

/-- As soon as one of some steps succeeds, all that succeed end where it does, and none gets any
further. -/
def Settled (steps : List (Reading α)) (place : Place) : Prop :=
  ∀ step ∈ steps, ∀ value after, (step place).result = some (value, after) →
    ∀ other ∈ steps, (other place).reach ≤ after.offset ∧
      ∀ value' after', (other place).result = some (value', after') → after' = after

/-- Whichever of settled steps is taken, the choice ends in the same place and gets no further. -/
theorem Settled.firstOf {steps : List (Reading α)} {step : Reading α} {value : α} {after : Place}
    (h : Settled steps place) (hstep : step ∈ steps)
    (hresult : (step place).result = some (value, after)) :
    (∃ value', (Reading.firstOf steps place).result = some (value', after)) ∧
      frontier (Reading.firstOf steps place).failures ≤ after.offset := by
  constructor
  · have hsome : (Reading.firstOf steps place).result ≠ none := by
      intro hnone
      rw [result_firstOf_eq_none_iff.mp hnone step hstep] at hresult
      exact nomatch hresult
    obtain ⟨⟨value', after'⟩, hfound⟩ := Option.ne_none_iff_exists'.mp hsome
    obtain ⟨other, hother, htaken⟩ := exists_of_result_firstOf hfound
    obtain rfl := (h step hstep value after hresult other hother).2 value' after' htaken
    exact ⟨value', hfound⟩
  · refine frontier_le fun failure hfailure ↦ ?_
    obtain ⟨other, hother, hfailure⟩ := exists_of_mem_failures_firstOf hfailure
    exact Nat.le_trans (Nat.le_trans (le_frontier hfailure) (Nat.le_max_left _ _))
      (h step hstep value after hresult other hother).1

end Reading

end Formulary
