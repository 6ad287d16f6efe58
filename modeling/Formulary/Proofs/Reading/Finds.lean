import Formulary.Proofs.Reading.Ensures
import Formulary.Proofs.Text.Movement
import Mathlib.Data.List.Forall2
/-!
What steps of a reading find. `Finds` says that a step succeeds with a value and a place after it,
and that the events it kept and those it overlooked are of given sorts. `Passes` says the same of a
step that fails in a choice. For each way to compose steps there is an equivalence that takes a
finding apart into findings of the parts and puts it together again.
-/

set_option autoImplicit false
set_option relaxedAutoImplicit false

namespace Formulary.Reading

open Text

variable {α β : Type} {keeps overlooks : Event → Prop} {place after : Place}

/-- A step succeeds, and everything that it kept and that it overlooked is of a given sort. -/
structure Finds (keeps overlooks : Event → Prop) (step : Reading α) (place : Place) (value : α)
    (after : Place) : Prop where
  result : (step place).result = some (value, after)
  kept : ∀ event ∈ (step place).kept, keeps event
  overlooked : ∀ event ∈ (step place).overlooked, overlooks event

/-- A step fails, and everything that happened in it may be overlooked. -/
structure Passes (overlooks : Event → Prop) (step : Reading α) (place : Place) : Prop where
  result : (step place).result = none
  events : ∀ event ∈ (step place).events, overlooks event

theorem Finds.unique {step : Reading α} {value value' : α} {after' : Place}
    (h : Finds keeps overlooks step place value after)
    (h' : Finds keeps overlooks step place value' after') : value = value' ∧ after = after' := by
  have hsame := h.result.symm.trans h'.result
  simpa using hsame

theorem not_finds_of_none {step : Reading α} {value : α} (h : (step place).result = none) :
    ¬ Finds keeps overlooks step place value after :=
  fun hfound ↦ nomatch h.symm.trans hfound.result

theorem not_passes_of_some {step : Reading α} {found : α × Place}
    (h : (step place).result = some found) : ¬ Passes overlooks step place :=
  fun hpasses ↦ nomatch h.symm.trans hpasses.result

/-! ### Steps that are not made of others -/

/-- A step that notes nothing finds what it reads. -/
theorem finds_iff_of_empty {step : Reading α} (h : ∀ value after,
    (step place).result = some (value, after) → (step place).journal = .empty) (value : α) :
    Finds keeps overlooks step place value after ↔ (step place).result = some (value, after) := by
  refine ⟨Finds.result, fun hresult ↦ ⟨hresult, ?_, ?_⟩⟩
  · simp [Outcome.kept, h value after hresult]
  · simp [Outcome.overlooked, h value after hresult]

theorem finds_pure_iff {value found : α} :
    Finds keeps overlooks (pure value) place found after ↔ value = found ∧ place = after := by
  rw [finds_iff_of_empty fun _ _ _ ↦ rfl]
  simp

theorem finds_remaining_iff {count : Nat} :
    Finds keeps overlooks remaining place count after ↔
      place.rest.length = count ∧ place = after := by
  rw [finds_iff_of_empty fun _ _ _ ↦ rfl]
  simp [remaining]

theorem finds_reached_iff {offset : Nat} :
    Finds keeps overlooks reached place offset after ↔ place.offset = offset ∧ place = after := by
  rw [finds_iff_of_empty fun _ _ _ ↦ rfl]
  simp [reached]

theorem finds_note_iff {event : Nat → Event} {value : Unit} :
    Finds keeps overlooks (note event) place value after ↔
      keeps (event place.offset) ∧ place = after := by
  constructor
  · intro h
    have hkept := h.kept
    have hresult := h.result
    simp only [Outcome.kept, note, Journal.kept, List.mem_singleton, forall_eq] at hkept
    simp only [note, Option.some.injEq, Prod.mk.injEq, true_and] at hresult
    exact ⟨hkept, hresult⟩
  · rintro ⟨hkeeps, rfl⟩
    refine ⟨rfl, ?_, ?_⟩
    · simpa [Outcome.kept, note] using hkeeps
    · simp [Outcome.overlooked, note]

theorem finds_fail_iff {complaint : Complaint} {value : α} :
    Finds keeps overlooks (fail complaint) place value after ↔ False :=
  ⟨fun h ↦ (nomatch h.result), False.elim⟩

theorem finds_move_iff {advance : Place → Option Place} {complaint : Complaint} {value : Unit} :
    Finds keeps overlooks (move advance complaint) place value after ↔
      ∃ eaten, advance place = some eaten ∧ after = eaten.skipSeparators := by
  cases hadvance : advance place with
  | none =>
    refine iff_of_false (not_finds_of_none (by rw [move_eq_of_none hadvance])) ?_
    rintro ⟨_, ⟨⟩, -⟩
  | some eaten =>
    have hmoved := move_eq_of_some hadvance complaint
    rw [finds_iff_of_empty fun _ _ _ ↦ by rw [hmoved]]
    simp [hmoved, eq_comm]

theorem finds_literal_iff {kind : Scalar} {value : Literal} :
    Finds keeps overlooks (literal kind) place value after ↔
      ∃ ended, readLiteral kind place = .ok (value, ended) ∧ after = ended.skipSeparators := by
  cases hread : readLiteral kind place with
  | error failure =>
    have hnone : (literal kind place).result = none := by simp only [literal, hread]
    refine iff_of_false (not_finds_of_none hnone) ?_
    rintro ⟨_, ⟨⟩, -⟩
  | ok read =>
    rw [finds_iff_of_empty fun _ _ _ ↦ by simp only [literal, hread]]
    obtain ⟨found, ended⟩ := read
    simp only [literal, hread, Option.some.injEq, Prod.mk.injEq, Except.ok.injEq]
    constructor
    · rintro ⟨rfl, rfl⟩
      exact ⟨ended, ⟨rfl, rfl⟩, rfl⟩
    · rintro ⟨_, ⟨rfl, rfl⟩, rfl⟩
      exact ⟨rfl, rfl⟩

theorem finds_atEnd_iff {value : Unit} :
    Finds keeps overlooks atEnd place value after ↔ place.rest = [] ∧ place = after := by
  by_cases hend : place.rest = []
  · rw [finds_iff_of_empty fun _ _ _ ↦ by simp [atEnd, Place.isAtEnd, hend]]
    simp [atEnd, Place.isAtEnd, hend]
  · refine ⟨fun h ↦ ?_, fun h ↦ absurd h.1 hend⟩
    have hresult := h.result
    simp [atEnd, Place.isAtEnd, hend] at hresult

/-! ### Steps that are made of others -/

theorem finds_bind_iff {first : Reading α} {next : α → Reading β} {value : β} :
    Finds keeps overlooks (first >>= next) place value after ↔
      ∃ found middle, Finds keeps overlooks first place found middle ∧
        Finds keeps overlooks (next found) middle value after := by
  constructor
  · intro h
    cases hfirst : (first place).result with
    | none => exact absurd h (not_finds_of_none (by rw [bind_eq_of_none hfirst]))
    | some found =>
      have hwhole := bind_eq_of_some hfirst next
      have hkept := h.kept
      have hoverlooked := h.overlooked
      rw [Outcome.kept, hwhole, Journal.kept, List.forall_mem_append] at hkept
      rw [Outcome.overlooked, hwhole, Journal.overlooked, List.forall_mem_append] at hoverlooked
      refine ⟨found.1, found.2, ⟨hfirst, hkept.1, hoverlooked.1⟩, ?_, hkept.2, hoverlooked.2⟩
      rw [← h.result, hwhole]
  · rintro ⟨found, middle, hfirst, hnext⟩
    have hwhole := bind_eq_of_some hfirst.result next
    refine ⟨?_, ?_, ?_⟩
    · rw [hwhole]
      exact hnext.result
    · rw [Outcome.kept, hwhole, Journal.kept, List.forall_mem_append]
      exact ⟨hfirst.kept, hnext.kept⟩
    · rw [Outcome.overlooked, hwhole, Journal.overlooked, List.forall_mem_append]
      exact ⟨hfirst.overlooked, hnext.overlooked⟩

theorem finds_nested_iff {step : Reading α} {value : α} :
    Finds keeps overlooks (nested step) place value after ↔
      Finds keeps overlooks step place value after :=
  ⟨fun h ↦ ⟨h.result, h.kept, h.overlooked⟩, fun h ↦ ⟨h.result, h.kept, h.overlooked⟩⟩

theorem finds_trying_iff {step : Reading α} {value : α} :
    Finds keeps overlooks (trying step) place value after ↔
      Finds keeps overlooks step place value after := by
  cases hresult : (step place).result with
  | none =>
    exact iff_of_false (not_finds_of_none (by rw [result_trying, hresult]))
      (not_finds_of_none hresult)
  | some found =>
    have hsame := trying_eq_of_some hresult
    constructor <;> intro h <;> refine ⟨?_, ?_, ?_⟩
    · rw [← hsame]
      exact h.result
    · rw [← hsame]
      exact h.kept
    · rw [← hsame]
      exact h.overlooked
    · rw [hsame]
      exact h.result
    · rw [hsame]
      exact h.kept
    · rw [hsame]
      exact h.overlooked

theorem passes_trying_iff {step : Reading α} (hbacktracked : ∀ offset, overlooks (.backtracked offset)) :
    Passes overlooks (trying step) place ↔ Passes overlooks step place := by
  cases hresult : (step place).result with
  | none =>
    have htried := trying_eq_of_none hresult
    constructor
    · intro h
      have hevents := h.events
      rw [Outcome.events, htried, Journal.events_joined, List.forall_mem_append] at hevents
      exact ⟨hresult, hevents.1⟩
    · intro h
      refine ⟨by rw [htried], ?_⟩
      rw [Outcome.events, htried, Journal.events_joined, List.forall_mem_append]
      refine ⟨h.events, ?_⟩
      simpa using hbacktracked place.offset
  | some found =>
    exact iff_of_false (not_passes_of_some (by rw [result_trying, hresult]))
      (not_passes_of_some hresult)

theorem finds_orElse_iff {first second : Reading α} {value : α} :
    Finds keeps overlooks (orElse first second) place value after ↔
      Finds keeps overlooks first place value after ∨
        Passes overlooks first place ∧ Finds keeps overlooks second place value after := by
  cases hresult : (first place).result with
  | none =>
    have hinstead := orElse_eq_of_none hresult second
    rw [or_iff_right (not_finds_of_none hresult)]
    constructor
    · intro h
      have hkept := h.kept
      have hoverlooked := h.overlooked
      have hfound := h.result
      rw [hinstead] at hfound
      rw [Outcome.kept, hinstead, Journal.kept, List.forall_mem_append] at hkept
      rw [Outcome.overlooked, hinstead, Journal.overlooked, List.forall_mem_append] at hoverlooked
      exact ⟨⟨hresult, hoverlooked.1⟩, hfound, hkept.2, hoverlooked.2⟩
    · rintro ⟨hpasses, hsecond⟩
      refine ⟨?_, ?_, ?_⟩
      · rw [hinstead]
        exact hsecond.result
      · rw [Outcome.kept, hinstead, Journal.kept, List.forall_mem_append]
        exact ⟨List.forall_mem_nil _, hsecond.kept⟩
      · rw [Outcome.overlooked, hinstead, Journal.overlooked, List.forall_mem_append]
        exact ⟨hpasses.events, hsecond.overlooked⟩
  | some found =>
    have hsame := orElse_eq_of_some hresult second
    have hwhole : Finds keeps overlooks (orElse first second) place value after ↔
        Finds keeps overlooks first place value after := by
      constructor <;> intro h
      · exact ⟨hsame ▸ h.result, hsame ▸ h.kept, hsame ▸ h.overlooked⟩
      · exact ⟨hsame.symm ▸ h.result, hsame.symm ▸ h.kept, hsame.symm ▸ h.overlooked⟩
    simp [hwhole, not_passes_of_some hresult]

/-- The first of some steps that succeeds has failed steps before it. -/
theorem finds_firstOf_iff {γ : Type} {step : γ → Reading α} {choices : List γ} {value : α}
    (hbacktracked : ∀ offset, overlooks (.backtracked offset)) :
    Finds keeps overlooks (firstOf (choices.map step)) place value after ↔
      ∃ earlier choice later, choices = earlier ++ choice :: later ∧
        (∀ other ∈ earlier, Passes overlooks (step other) place) ∧
          Finds keeps overlooks (step choice) place value after := by
  induction choices with
  | nil =>
    refine iff_of_false (not_finds_of_none rfl) ?_
    rintro ⟨earlier, choice, later, hempty, -⟩
    simp at hempty
  | cons first choices ih =>
    rw [List.map_cons, firstOf, finds_orElse_iff, finds_trying_iff, passes_trying_iff hbacktracked,
      ih]
    constructor
    · rintro (hfirst | ⟨hpasses, earlier, choice, later, rfl, hearlier, hchoice⟩)
      · exact ⟨[], first, choices, rfl, List.forall_mem_nil _, hfirst⟩
      · refine ⟨first :: earlier, choice, later, rfl, ?_, hchoice⟩
        exact List.forall_mem_cons.mpr ⟨hpasses, hearlier⟩
    · rintro ⟨earlier, choice, later, hchoices, hearlier, hchoice⟩
      cases earlier with
      | nil =>
        obtain ⟨rfl, rfl⟩ := List.cons.inj hchoices
        exact .inl hchoice
      | cons second earlier =>
        obtain ⟨rfl, rfl⟩ := List.cons.inj hchoices
        rw [List.forall_mem_cons] at hearlier
        exact .inr ⟨hearlier.1, earlier, choice, later, rfl, hearlier.2, hchoice⟩

theorem finds_optionally_iff {step : Reading α} {found : Option α} :
    Finds keeps overlooks (optionally step) place found after ↔
      (∃ value, found = some value ∧ Finds keeps overlooks step place value after) ∨
        found = none ∧ (step place).result = none ∧ place = after := by
  cases hresult : (step place).result with
  | none =>
    have hleft := optionally_eq_of_none hresult
    constructor
    · intro h
      have hfound := h.result
      rw [hleft] at hfound
      obtain ⟨rfl, rfl⟩ : none = found ∧ place = after := by simpa using hfound
      exact .inr ⟨rfl, rfl, rfl⟩
    · rintro (⟨value, -, hvalue⟩ | ⟨rfl, -, rfl⟩)
      · exact absurd hvalue (not_finds_of_none hresult)
      · refine ⟨by rw [hleft], ?_, ?_⟩
        · rw [Outcome.kept, hleft]
          exact List.forall_mem_nil _
        · rw [Outcome.overlooked, hleft]
          exact List.forall_mem_nil _
  | some read =>
    have htaken := optionally_eq_of_some hresult
    constructor
    · intro h
      have hfound := h.result
      have hkept := h.kept
      have hoverlooked := h.overlooked
      rw [htaken] at hfound
      rw [Outcome.kept, htaken] at hkept
      rw [Outcome.overlooked, htaken] at hoverlooked
      obtain ⟨rfl, rfl⟩ : some read.1 = found ∧ read.2 = after := by simpa using hfound
      exact .inl ⟨read.1, rfl, hresult, hkept, hoverlooked⟩
    · rintro (⟨value, rfl, hvalue⟩ | ⟨-, hnone, -⟩)
      · have hread := hvalue.result
        rw [hresult] at hread
        obtain ⟨rfl⟩ : read = (value, after) := by simpa using hread
        refine ⟨by rw [htaken], ?_, ?_⟩
        · rw [Outcome.kept, htaken]
          exact hvalue.kept
        · rw [Outcome.overlooked, htaken]
          exact hvalue.overlooked
      · exact nomatch hnone

/-! ### Loops -/

/-- Slots, or whatever there is to read, read one after the other. -/
inductive ReadsInOrder {γ : Type} (reads : γ → Place → α → Place → Prop) :
    List γ → Place → List α → Place → Prop
  | done (place : Place) : ReadsInOrder reads [] place [] place
  | more {item : γ} {items : List γ} {place middle after : Place} {value : α} {values : List α}
      (hfirst : reads item place value middle) (hrest : ReadsInOrder reads items middle values after) :
      ReadsInOrder reads (item :: items) place (value :: values) after

theorem ReadsInOrder.mono {γ : Type} {reads wider : γ → Place → α → Place → Prop} {items : List γ}
    {values : List α} (h : ReadsInOrder reads items place values after)
    (hwider : ∀ item ∈ items, ∀ place value after,
      reads item place value after → wider item place value after) :
    ReadsInOrder wider items place values after := by
  induction h with
  | done place => exact .done place
  | more hfirst hrest ih =>
    rw [List.forall_mem_cons] at hwider
    exact .more (hwider.1 _ _ _ hfirst) (ih hwider.2)

theorem readsInOrder_append_iff {γ : Type} {reads : γ → Place → α → Place → Prop}
    {items others : List γ} {values : List α} :
    ReadsInOrder reads (items ++ others) place values after ↔
      ∃ first second middle, values = first ++ second ∧
        ReadsInOrder reads items place first middle ∧
        ReadsInOrder reads others middle second after := by
  induction items generalizing place values with
  | nil =>
    constructor
    · intro h
      exact ⟨[], values, place, rfl, .done place, h⟩
    · rintro ⟨first, second, middle, rfl, hfirst, hsecond⟩
      cases hfirst
      exact hsecond
  | cons item items ih =>
    constructor
    · intro h
      cases h with
      | more hitem hrest =>
        obtain ⟨first, second, middle, rfl, hfirst, hsecond⟩ := ih.mp hrest
        exact ⟨_ :: first, second, middle, rfl, .more hitem hfirst, hsecond⟩
    · rintro ⟨first, second, middle, rfl, hfirst, hsecond⟩
      cases hfirst with
      | more hitem hrest => exact .more hitem (ih.mpr ⟨_, second, middle, rfl, hrest, hsecond⟩)

theorem ReadsInOrder.forall₂ {γ : Type} {reads : γ → Place → α → Place → Prop} {items : List γ}
    {values : List α} {property : γ → α → Prop}
    (h : ReadsInOrder reads items place values after)
    (hproperty : ∀ item place value after, reads item place value after → property item value) :
    List.Forall₂ property items values := by
  induction h with
  | done place => exact .nil
  | more hfirst hrest ih => exact .cons (hproperty _ _ _ _ hfirst) ih

theorem finds_inOrder_iff {γ : Type} {step : γ → Reading α} {items : List γ} {values : List α} :
    Finds keeps overlooks (inOrder (items.map step)) place values after ↔
      ReadsInOrder (fun item ↦ Finds keeps overlooks (step item)) items place values after := by
  induction items generalizing place values with
  | nil =>
    rw [List.map_nil, inOrder, finds_pure_iff]
    constructor
    · rintro ⟨rfl, rfl⟩
      exact .done place
    · intro h
      cases h
      exact ⟨rfl, rfl⟩
  | cons item items ih =>
    rw [List.map_cons, inOrder, finds_bind_iff]
    simp only [finds_bind_iff, finds_pure_iff]
    constructor
    · rintro ⟨value, middle, hfirst, values, _, hrest, rfl, rfl⟩
      exact .more hfirst (ih.mp hrest)
    · intro h
      cases h with
      | more hfirst hrest => exact ⟨_, _, hfirst, _, _, ih.mpr hrest, rfl, rfl⟩

/-- A step that always gets further is repeated until it fails. -/
theorem finds_repeatedly_iff {γ : Type} {step : γ → Reading α} {item : γ}
    (hadvances : ∀ place value after, (step item place).result = some (value, after) →
      Place.Advances place after)
    {bound : Nat} (hbound : place.rest.length < bound) {values : List α} :
    Finds keeps overlooks (repeatedly (step item) bound) place values after ↔
      ReadsInOrder (fun item ↦ Finds keeps overlooks (step item)) (values.map fun _ ↦ item) place
          values after ∧
        (step item after).result = none := by
  induction bound generalizing place values with
  | zero => exact absurd hbound (Nat.not_lt_zero _)
  | succ bound ih =>
    rw [repeatedly, finds_bind_iff]
    simp only [finds_bind_iff, finds_reached_iff, finds_optionally_iff, finds_trying_iff,
      result_trying]
    constructor
    · rintro ⟨_, _, ⟨rfl, rfl⟩, found, middle, ⟨value, rfl, hvalue⟩ | ⟨rfl, hnone, rfl⟩, hrest⟩
      · have hahead := hadvances _ _ _ hvalue.result
        simp only [finds_bind_iff, finds_reached_iff] at hrest
        obtain ⟨_, _, ⟨rfl, rfl⟩, hrest⟩ := hrest
        rw [if_pos hahead.2] at hrest
        simp only [finds_bind_iff, finds_pure_iff] at hrest
        obtain ⟨values, _, hvalues, rfl, rfl⟩ := hrest
        have hshorter := hahead.length_lt
        obtain ⟨hreads, hstops⟩ := (ih (by omega)).mp hvalues
        exact ⟨.more hvalue hreads, hstops⟩
      · rw [finds_pure_iff] at hrest
        obtain ⟨rfl, rfl⟩ := hrest
        exact ⟨.done place, hnone⟩
    · rintro ⟨hreads, hstops⟩
      refine ⟨_, _, ⟨rfl, rfl⟩, ?_⟩
      cases values with
      | nil =>
        cases hreads
        exact ⟨none, after, .inr ⟨rfl, hstops, rfl⟩, finds_pure_iff.mpr ⟨rfl, rfl⟩⟩
      | cons value values =>
        cases hreads with
        | @more _ _ _ middle _ _ _ hvalue hreads =>
          have hahead := hadvances _ _ _ hvalue.result
          have hshorter := hahead.length_lt
          refine ⟨some value, middle, .inl ⟨value, rfl, hvalue⟩, ?_⟩
          simp only [finds_bind_iff, finds_reached_iff]
          refine ⟨_, _, ⟨rfl, rfl⟩, ?_⟩
          rw [if_pos hahead.2]
          simp only [finds_bind_iff, finds_pure_iff]
          exact ⟨values, after, (ih (by omega)).mpr ⟨hreads, hstops⟩, rfl, rfl⟩

end Formulary.Reading
