import Formulary.Proofs.Reading.Reach
/-!
What can be watched of a reading. All events are shown but the failures, which wait for the report.
Slots are entered inside one another, and each is filled or abandoned: `Opens` says which slots some
events leave open, and a slot that is filled is the one that was entered last of these
(`Opens.exists_of_filled`). Offsets only grow, save where an alternative is given up (`Advancing`).
A step that reads something leaves no slot open, and a choice that fails leaves none open either, since
each of its alternatives is given up (`Recovers`). Main definitions: `Event.isShown`, `Opens`,
`Advancing` and `Unfolds`.
-/

set_option autoImplicit false
set_option relaxedAutoImplicit false

namespace Formulary

open Text

/-- Whether an event can be watched. Failures cannot, only that an alternative is given up. -/
def Event.isShown : Event → Bool
  | .entered _ _ | .filled _ _ | .backtracked _ => true
  | .failed _ => false

/-- Whether an event gives up an alternative. -/
def Event.isBacktrack : Event → Bool
  | .backtracked _ => true
  | .entered _ _ | .filled _ _ | .failed _ => false

/-- The events that can be watched. -/
def Outcome.shown {α : Type} (outcome : Outcome α) : List Event :=
  outcome.events.filter Event.isShown

/-! ### Open slots

Slots that were entered and neither filled nor abandoned yet, the innermost first, each with the offset
at which it was entered. -/

/-- What an event makes of the open slots. To fill a slot closes the innermost one. To go back to an
offset abandons slots that were entered there or behind. -/
inductive Event.Turns : Event → List (Slot × Nat) → List (Slot × Nat) → Prop
  | entered (slot : Slot) (offset : Nat) (slots : List (Slot × Nat)) :
      Turns (.entered slot offset) slots ((slot, offset) :: slots)
  | filled (outline : Outline) (offset start : Nat) (slots : List (Slot × Nat)) :
      Turns (.filled outline offset) ((outline.slot, start) :: slots) slots
  | backtracked (offset : Nat) {abandoned : List (Slot × Nat)} (slots : List (Slot × Nat))
      (hbehind : ∀ left ∈ abandoned, offset ≤ left.2) :
      Turns (.backtracked offset) (abandoned ++ slots) slots

/-- Some events that happen while some slots are open leave others open. -/
def Leaves : List (Slot × Nat) → List Event → List (Slot × Nat) → Prop
  | slots, [], slots' => slots = slots'
  | slots, event :: events, slots' => ∃ middle, event.Turns slots middle ∧ Leaves middle events slots'

theorem leaves_append_iff {first second : List Event} {slots slots' : List (Slot × Nat)} :
    Leaves slots (first ++ second) slots' ↔
      ∃ middle, Leaves slots first middle ∧ Leaves middle second slots' := by
  induction first generalizing slots with
  | nil => exact ⟨fun h ↦ ⟨slots, rfl, h⟩, fun ⟨_, hsame, h⟩ ↦ hsame ▸ h⟩
  | cons event first ih =>
    simp only [List.cons_append, Leaves, ih]
    exact ⟨fun ⟨middle, hturns, last, hfirst, hsecond⟩ ↦ ⟨last, ⟨middle, hturns, hfirst⟩, hsecond⟩,
      fun ⟨last, ⟨middle, hturns, hfirst⟩, hsecond⟩ ↦ ⟨middle, hturns, last, hfirst, hsecond⟩⟩

theorem leaves_singleton_iff {event : Event} {slots slots' : List (Slot × Nat)} :
    Leaves slots [event] slots' ↔ event.Turns slots slots' :=
  ⟨fun ⟨_, hturns, hsame⟩ ↦ hsame ▸ hturns, fun hturns ↦ ⟨slots', hturns, rfl⟩⟩

/-- Slots further out are left as they are. -/
theorem Leaves.around {events : List Event} {slots slots' : List (Slot × Nat)}
    (h : Leaves slots events slots') (outer : List (Slot × Nat)) :
    Leaves (slots ++ outer) events (slots' ++ outer) := by
  induction events generalizing slots with
  | nil => exact congrArg (· ++ outer) h
  | cons event events ih =>
    obtain ⟨middle, hturns, hrest⟩ := h
    refine ⟨middle ++ outer, ?_, ih hrest⟩
    cases hturns with
    | entered slot offset => exact .entered slot offset _
    | filled outline offset start => exact .filled outline offset start _
    | backtracked offset middle hbehind =>
      rw [List.append_assoc]
      exact .backtracked offset _ hbehind

/-- What is open at the end was open from the start or was entered. -/
theorem Leaves.entered_mem {events : List Event} {slots : List (Slot × Nat)}
    (h : Leaves [] events slots) : ∀ left ∈ slots, .entered left.1 left.2 ∈ events := by
  induction events using List.reverseRecOn generalizing slots with
  | nil =>
    obtain rfl : [] = slots := h
    exact fun _ hleft ↦ absurd hleft List.not_mem_nil
  | append_singleton events event ih =>
    obtain ⟨middle, hevents, hlast⟩ := leaves_append_iff.mp h
    intro left hleft
    rw [leaves_singleton_iff] at hlast
    cases hlast with
    | entered slot offset =>
      rcases List.mem_cons.mp hleft with rfl | hleft
      · exact List.mem_append_right _ (List.mem_singleton_self _)
      · exact List.mem_append_left _ (ih hevents left hleft)
    | filled => exact List.mem_append_left _ (ih hevents left (List.mem_cons_of_mem _ hleft))
    | backtracked => exact List.mem_append_left _ (ih hevents left (List.mem_append_right _ hleft))

/-- Unless a slot was entered just now, it was open before if it is open now. -/
theorem Event.Turns.entered_or {event : Event} {middle inner slots : List (Slot × Nat)}
    {left : Slot × Nat} (h : event.Turns middle (inner ++ left :: slots)) :
    (event = .entered left.1 left.2 ∧ middle = slots ∧ inner = []) ∨
      ∃ inner', middle = inner' ++ left :: slots ∧ event.Turns inner' inner := by
  generalize hall : inner ++ left :: slots = all at h
  cases h with
  | entered slot offset =>
    cases inner with
    | nil =>
      obtain ⟨rfl, rfl⟩ := List.cons.inj hall
      exact .inl ⟨rfl, rfl, rfl⟩
    | cons innermost inner =>
      obtain ⟨rfl, rfl⟩ := List.cons.inj hall
      exact .inr ⟨inner, rfl, .entered slot offset inner⟩
  | filled outline offset start =>
    exact .inr ⟨(outline.slot, start) :: inner, by rw [← hall]; rfl, .filled outline offset start _⟩
  | @backtracked offset abandoned _ hbehind =>
    exact .inr ⟨abandoned ++ inner, by rw [← hall, List.append_assoc], .backtracked offset _ hbehind⟩

/-- When a slot was entered that is open, those around it were open, and since then those inside it
were entered. -/
theorem Leaves.exists_entered {events : List Event} {inner slots : List (Slot × Nat)}
    {left : Slot × Nat} (h : Leaves [] events (inner ++ left :: slots)) :
    ∃ before inside, events = before ++ .entered left.1 left.2 :: inside ∧
      Leaves [] before slots ∧ Leaves [] inside inner := by
  induction events using List.reverseRecOn generalizing inner with
  | nil => exact absurd h (by simp [Leaves])
  | append_singleton events event ih =>
    obtain ⟨middle, hevents, hlast⟩ := leaves_append_iff.mp h
    rcases (leaves_singleton_iff.mp hlast).entered_or with ⟨rfl, rfl, rfl⟩ | ⟨inner', rfl, hturns⟩
    · exact ⟨events, [], rfl, hevents, rfl⟩
    · obtain ⟨before, inside, rfl, hbefore, hinside⟩ := ih hevents
      refine ⟨before, inside ++ [event], by simp, hbefore, ?_⟩
      exact leaves_append_iff.mpr ⟨inner', hinside, leaves_singleton_iff.mpr hturns⟩

/-- A slot that is filled was entered, and since then everything else that was entered was filled or
abandoned. -/
theorem Leaves.exists_of_filled {earlier later : List Event} {outline : Outline} {offset : Nat}
    {slots : List (Slot × Nat)} (h : Leaves [] (earlier ++ .filled outline offset :: later) slots) :
    ∃ before start inside, earlier = before ++ .entered outline.slot start :: inside ∧
      Leaves [] inside [] := by
  obtain ⟨middle, hearlier, after, hturns, -⟩ := leaves_append_iff.mp h
  cases hturns with
  | filled _ _ start =>
    obtain ⟨before, inside, hsplit, -, hinside⟩ := @Leaves.exists_entered _ [] _ _ hearlier
    exact ⟨before, start, inside, hsplit, hinside⟩

/-! ### Offsets -/

/-- From an offset to another one, some events get ahead, or go back to give up an alternative. -/
def Advancing : Nat → List Event → Nat → Prop
  | start, [], stop => start ≤ stop
  | start, event :: events, stop =>
    (start ≤ event.offset ∨ event.isBacktrack = true) ∧ Advancing event.offset events stop

theorem Advancing.of_le {start start' stop : Nat} {events : List Event}
    (h : Advancing start' events stop) (hstart : start ≤ start') : Advancing start events stop := by
  cases events with
  | nil => exact Nat.le_trans hstart h
  | cons event events => exact ⟨h.1.imp_left (Nat.le_trans hstart), h.2⟩

theorem Advancing.append {start middle stop : Nat} {first second : List Event}
    (hfirst : Advancing start first middle) (hsecond : Advancing middle second stop) :
    Advancing start (first ++ second) stop := by
  induction first generalizing start with
  | nil => exact hsecond.of_le hfirst
  | cons event first ih => exact ⟨hfirst.1, ih hfirst.2⟩

/-- Wherever some events have got to, an alternative can be given up. -/
theorem Advancing.backtracked {start stop : Nat} {events : List Event}
    (h : Advancing start events stop) (offset : Nat) :
    Advancing start (events ++ [.backtracked offset]) offset := by
  induction events generalizing start with
  | nil => exact ⟨.inr rfl, Nat.le_refl offset⟩
  | cons event events ih => exact ⟨h.1, ih h.2⟩

theorem Advancing.isChain {start stop : Nat} {events : List Event}
    (h : Advancing start events stop) :
    events.IsChain fun earlier later ↦
      earlier.offset ≤ later.offset ∨ later.isBacktrack = true := by
  induction events generalizing start with
  | nil => exact .nil
  | cons event events ih =>
    cases events with
    | nil => exact .singleton event
    | cons other events => exact .cons_cons h.2.1 (ih h.2)

/-! ### Steps -/

/-- Some events from an offset to another one: none is behind the first, they advance, and they leave
some slots open. -/
structure Unfolding (start : Nat) (events : List Event) (stop : Nat) (slots : List (Slot × Nat)) :
    Prop where
  behind : ∀ event ∈ events, start ≤ event.offset
  stops : start ≤ stop
  advancing : Advancing start events stop
  leaves : Leaves [] events slots

theorem unfolding_nil {start stop : Nat} (h : start ≤ stop) : Unfolding start [] stop [] :=
  ⟨fun _ hevent ↦ absurd hevent List.not_mem_nil, h, h, rfl⟩

theorem Unfolding.append {start middle stop : Nat} {first second : List Event}
    {slots inner : List (Slot × Nat)} (hfirst : Unfolding start first middle slots)
    (hsecond : Unfolding middle second stop inner) :
    Unfolding start (first ++ second) stop (inner ++ slots) where
  behind := List.forall_mem_append.mpr
    ⟨hfirst.behind, fun event hevent ↦ Nat.le_trans hfirst.stops (hsecond.behind event hevent)⟩
  stops := Nat.le_trans hfirst.stops hsecond.stops
  advancing := hfirst.advancing.append hsecond.advancing
  leaves := leaves_append_iff.mpr ⟨slots, hfirst.leaves, hsecond.leaves.around slots⟩

/-- An alternative that is given up leaves nothing open. -/
theorem Unfolding.backtracked {start stop : Nat} {events : List Event} {slots : List (Slot × Nat)}
    (h : Unfolding start events stop slots) :
    Unfolding start (events ++ [.backtracked start]) start [] where
  behind := List.forall_mem_append.mpr
    ⟨h.behind, List.forall_mem_singleton.mpr (Nat.le_refl start)⟩
  stops := Nat.le_refl start
  advancing := h.advancing.backtracked start
  leaves := by
    have hbehind : ∀ left ∈ slots, start ≤ left.2 :=
      fun left hleft ↦ h.behind _ (h.leaves.entered_mem left hleft)
    refine leaves_append_iff.mpr ⟨slots ++ [], by rw [List.append_nil]; exact h.leaves, ?_⟩
    exact leaves_singleton_iff.mpr (.backtracked start [] hbehind)

theorem unfolding_entered (slot : Slot) (offset : Nat) :
    Unfolding offset [.entered slot offset] offset [(slot, offset)] where
  behind := List.forall_mem_singleton.mpr (Nat.le_refl offset)
  stops := Nat.le_refl offset
  advancing := ⟨.inl (Nat.le_refl offset), Nat.le_refl offset⟩
  leaves := leaves_singleton_iff.mpr (.entered slot offset [])

/-- To fill the slot that was entered first closes it. -/
theorem Unfolding.filled {start stop opened : Nat} {events : List Event} {slot : Slot}
    {outline : Outline} (h : Unfolding start events stop [(slot, opened)])
    (hslot : outline.slot = slot) :
    Unfolding start (events ++ [.filled outline stop]) stop [] where
  behind := List.forall_mem_append.mpr ⟨h.behind, List.forall_mem_singleton.mpr h.stops⟩
  stops := h.stops
  advancing := h.advancing.append ⟨.inl (Nat.le_refl stop), Nat.le_refl stop⟩
  leaves := by
    subst hslot
    exact leaves_append_iff.mpr
      ⟨_, h.leaves, leaves_singleton_iff.mpr (.filled outline stop opened [])⟩

namespace Reading

variable {α β : Type} {place : Place}

theorem shown_bind_of_none {first : Reading α} (h : (first place).result = none)
    (next : α → Reading β) : ((first >>= next) place).shown = (first place).shown := by
  rw [bind_eq_of_none h]
  rfl

theorem shown_bind_of_some {first : Reading α} {value : α} {middle : Place}
    (h : (first place).result = some (value, middle)) (next : α → Reading β) :
    ((first >>= next) place).shown = (first place).shown ++ (next value middle).shown := by
  rw [bind_eq_of_some h]
  simp only [Outcome.shown, Outcome.events, Journal.events_joined, List.filter_append]

theorem shown_trying_of_none {step : Reading α} (h : (step place).result = none) :
    (trying step place).shown = (step place).shown ++ [.backtracked place.offset] := by
  rw [trying_eq_of_none h]
  simp [Outcome.shown, Outcome.events, Event.isShown]

theorem shown_orElse_of_none {first : Reading α} (h : (first place).result = none)
    (second : Reading α) :
    (orElse first second place).shown = (first place).shown ++ (second place).shown := by
  rw [orElse_eq_of_none h]
  simp only [Outcome.shown, Outcome.events, Journal.events_joined, Journal.events_replaced,
    List.filter_append]

/-- A step that reads something leaves no slot open, and it gets from its start to its end. If it
fails, it may leave slots open. -/
structure Unfolds (step : Reading α) (place : Place) : Prop where
  reads : ∀ value after, (step place).result = some (value, after) →
    Unfolding place.offset (step place).shown after.offset []
  fails : (step place).result = none →
    ∃ stop slots, Unfolding place.offset (step place).shown stop slots

theorem Unfolds.exists_unfolding {step : Reading α} (h : Unfolds step place) :
    ∃ stop slots, Unfolding place.offset (step place).shown stop slots := by
  cases hresult : (step place).result with
  | none => exact h.fails hresult
  | some found => exact ⟨_, _, h.reads found.1 found.2 hresult⟩

/-- A step that leaves no slot open even if it fails, and is then back where it started. -/
structure Recovers (step : Reading α) (place : Place) : Prop extends Unfolds step place where
  back : (step place).result = none → Unfolding place.offset (step place).shown place.offset []

/-- A step of which nothing is shown and that does not move backwards. -/
theorem unfolds_of_hidden {step : Reading α}
    (h : Ensures step place (fun event ↦ event.isShown = false)
      fun _ after ↦ place.offset ≤ after.offset) : Unfolds step place := by
  have hshown : (step place).shown = [] := List.filter_eq_nil_iff.mpr fun event hevent ↦ by
    rw [h.events event hevent]
    exact Bool.false_ne_true
  refine ⟨fun value after hresult ↦ ?_, fun _ ↦ ⟨place.offset, [], ?_⟩⟩ <;> rw [hshown]
  · exact unfolding_nil (h.result value after hresult)
  · exact unfolding_nil (Nat.le_refl _)

theorem unfolds_bind {first : Reading α} {next : α → Reading β} (hfirst : Unfolds first place)
    (hnext : ∀ value middle, (first place).result = some (value, middle) →
      Unfolds (next value) middle) : Unfolds (first >>= next) place := by
  cases hresult : (first place).result with
  | none =>
    refine ⟨fun value after h ↦ ?_, fun _ ↦ ?_⟩
    · rw [bind_eq_of_none hresult] at h
      exact nomatch h
    · rw [shown_bind_of_none hresult]
      exact hfirst.fails hresult
  | some found =>
    obtain ⟨value, middle⟩ := found
    have hbefore := hfirst.reads value middle hresult
    have hrest := hnext value middle hresult
    refine ⟨fun value after h ↦ ?_, fun h ↦ ?_⟩ <;> rw [bind_eq_of_some hresult] at h <;>
      rw [shown_bind_of_some hresult]
    · exact hbefore.append (hrest.reads _ _ h)
    · obtain ⟨stop, slots, hlast⟩ := hrest.fails h
      exact ⟨stop, slots ++ [], hbefore.append hlast⟩

theorem recovers_trying {step : Reading α} (h : Unfolds step place) :
    Recovers (trying step) place := by
  cases hresult : (step place).result with
  | none =>
    obtain ⟨stop, slots, hstep⟩ := h.fails hresult
    have hback : Unfolding place.offset (trying step place).shown place.offset [] := by
      rw [shown_trying_of_none hresult]
      exact hstep.backtracked
    refine ⟨⟨fun value after hsome ↦ ?_, fun _ ↦ ⟨_, _, hback⟩⟩, fun _ ↦ hback⟩
    rw [result_trying, hresult] at hsome
    exact nomatch hsome
  | some found =>
    have hsame := trying_eq_of_some hresult
    refine ⟨⟨?_, fun hnone ↦ ?_⟩, fun hnone ↦ ?_⟩
    · rw [hsame]
      exact h.reads
    all_goals
      rw [result_trying, hresult] at hnone
      exact nomatch hnone

theorem recovers_orElse {first second : Reading α} (hfirst : Recovers first place)
    (hsecond : Recovers second place) : Recovers (orElse first second) place := by
  cases hresult : (first place).result with
  | none =>
    have hinstead := orElse_eq_of_none hresult second
    have hbefore := hfirst.back hresult
    refine ⟨⟨fun value after h ↦ ?_, fun h ↦ ?_⟩, fun h ↦ ?_⟩ <;> rw [hinstead] at h <;>
      rw [shown_orElse_of_none hresult]
    · exact hbefore.append (hsecond.reads _ _ h)
    · exact ⟨_, _, hbefore.append (hsecond.back h)⟩
    · exact hbefore.append (hsecond.back h)
  | some found =>
    have hsame := orElse_eq_of_some hresult second
    refine ⟨⟨?_, ?_⟩, ?_⟩ <;> rw [hsame]
    · exact hfirst.reads
    · exact hfirst.fails
    · exact hfirst.back

theorem recovers_firstOf {steps : List (Reading α)} (h : ∀ step ∈ steps, Unfolds step place) :
    Recovers (firstOf steps) place := by
  induction steps with
  | nil =>
    have hback : Unfolding place.offset (firstOf ([] : List (Reading α)) place).shown
        place.offset [] := unfolding_nil (Nat.le_refl _)
    refine ⟨⟨?_, fun _ ↦ ⟨_, _, hback⟩⟩, fun _ ↦ hback⟩
    rintro _ _ ⟨⟩
  | cons step steps ih =>
    rw [List.forall_mem_cons] at h
    exact recovers_orElse (recovers_trying h.1) (ih h.2)

/-- A step that may fail has to recover, since the reading goes on. -/
theorem unfolds_optionally {step : Reading α} (h : Recovers step place) :
    Unfolds (optionally step) place := by
  cases hresult : (step place).result with
  | none =>
    have hleft := optionally_eq_of_none hresult
    refine ⟨fun value after hsome ↦ ?_, fun hnone ↦ ?_⟩
    · rw [hleft] at hsome ⊢
      obtain ⟨-, rfl⟩ := Prod.mk.inj (Option.some.inj hsome)
      exact h.back hresult
    · rw [hleft] at hnone
      exact nomatch hnone
  | some found =>
    have htaken := optionally_eq_of_some hresult
    refine ⟨fun value after hsome ↦ ?_, fun hnone ↦ ?_⟩
    · rw [htaken] at hsome ⊢
      obtain ⟨-, rfl⟩ := Prod.mk.inj (Option.some.inj hsome)
      exact h.reads _ _ hresult
    · rw [htaken] at hnone
      exact nomatch hnone

end Reading

end Formulary
