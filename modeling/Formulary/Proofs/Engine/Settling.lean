import Formulary.Proofs.Engine.Agreement
/-!
Steps of the engine that are settled by the cursor and the depth from which they start: whatever
complaints there are and whatever was shown, the same happens in them and the same comes of them; they
end where the text can be cut, not behind where they started unless they fail, and at the same depth
(`Settles`). With enough rounds, and enough slots inside one another, this holds of every outline that is
given to the engine, whether it is the skeleton of a slot or not (`exists_settles_resolve`).
-/

set_option autoImplicit false
set_option relaxedAutoImplicit false

namespace Formulary

open Text

/-! ### Steps of the cursor that have an outcome -/

namespace Cursor

variable {text : List Char} {rounds : Nat} {α : Type}

/-- Wherever the text can be cut a step has an outcome, with the cursor where the text can be cut, and not
behind where it was unless the step fails. -/
def IsTotal (text : List Char) (step : Step α) : Prop :=
  ∀ offset, IsBoundary text offset → ∃ events value stop, step offset = some (events, value, stop) ∧
    IsBoundary text stop ∧ (value.isSome = true → offset ≤ stop)

theorem Follows.isTotal {allowed : Event → Prop} {run : Step α} {step : Reading α}
    (h : Follows text rounds allowed run step) (hrounds : text.length < rounds)
    (hallowed : ∀ place, Place.Within text place → ∀ event ∈ (step place).events, allowed event) :
    IsTotal text run := by
  intro offset hoffset
  obtain ⟨place, hplace, rfl⟩ := hoffset.exists_within
  have hshort := Nat.lt_of_le_of_lt hplace.length_le hrounds
  obtain ⟨stop, hends⟩ := h.ends place hplace hshort (hallowed place hplace)
  refine ⟨_, _, stop, hends.found, hends.isBoundary, fun hsome ↦ ?_⟩
  rw [Option.isSome_map] at hsome
  obtain ⟨⟨value, after⟩, hresult⟩ := Option.isSome_iff_exists.mp hsome
  rw [hends.offset value after hresult]
  exact (h.leads _ value after hresult).offset_le

/-- At a place of the text, a slot needs no more room than all the parentheses of the text do. -/
theorem need_le_of_within {place : Place} (h : Place.Within text place) (depth : Nat) (slot : Slot) :
    slot.need depth place.openings ≤ slot.need depth (text.count '(') := by
  have hopenings : place.openings ≤ text.count '(' := by
    obtain ⟨before, htext, -⟩ := h
    rw [htext, List.count_append]
    exact Nat.le_add_left _ _
  exact Nat.add_le_add_right (Nat.add_le_add_left (Nat.mul_le_mul_right _ hopenings) _) 1

/-- With a limit or without one slots are filled in the same way, as long as nothing is nested too deeply
where there is no limit. -/
theorem follows_fill_limited (catalog : Catalog) (limit : Option Nat) (room : Nat) (slot : Slot) :
    Follows text rounds (fun event ↦ limit = none → event.isTooDeep = false)
      (fill text rounds catalog limit room slot)
      (Formulary.fill catalog (limit.getD 0) room slot) := by
  have hlimit : limit = some (limit.getD 0) ∨ limit = none ∧
      ∀ event : Event, (limit = none → event.isTooDeep = false) → event.isTooDeep = false := by
    cases limit with
    | none => exact .inr ⟨rfl, fun _ hevent ↦ hevent rfl⟩
    | some most => exact .inl rfl
  exact follows_fill catalog hlimit room slot

/-- Where a slot has the room that it needs in a text, nothing is nested too deeply. -/
theorem isTooDeep_fill_of_within {operators : List Operator} {limit room : Nat} {slot : Slot}
    (hroom : slot.need (Catalog.ofList operators).depth (text.count '(') ≤ room) {place : Place}
    (hplace : Place.Within text place) :
    ∀ event ∈ (Formulary.fill (.ofList operators) limit room slot place).events,
      event.isTooDeep = false :=
  (ensures_fill_of_need (Nat.le_trans (need_le_of_within hplace _ slot) hroom)).events

/-- The parts of a slot are read to their end, without a limit if there is the room that they need. -/
theorem isTotal_fillParts (operators : List Operator) (limit : Option Nat) {room : Nat} {slot : Slot}
    (hrounds : text.length < rounds)
    (hroom : limit = none →
      slot.need (Catalog.ofList operators).depth (text.count '(') ≤ room + 1) :
    IsTotal text (fillParts text rounds (.ofList operators)
      (fill text rounds (.ofList operators) limit room) slot) := by
  refine (follows_fillParts (follows_fill_limited (.ofList operators) limit room)
    (fun _ _ _ _ ↦ moves_of_fill) slot).isTotal hrounds fun place hplace event hevent hnone ↦ ?_
  exact isTooDeep_fill_of_within (hroom hnone) hplace event (mem_events_fill hevent)

end Cursor

namespace Engine

variable {text : List Char} {rounds : Nat} {α β : Type}

/-! ### Steps of the engine that are settled -/

/-- From the cursor and the depth it is settled what happens in a step and what comes of it. The step ends
at the same depth where the text can be cut, and not behind where it started unless it fails. -/
def Settles (text : List Char) (run : Step α) : Prop :=
  ∀ depth offset, IsBoundary text offset → ∃ events value stop,
    IsBoundary text stop ∧ (value.isSome = true → offset ≤ stop) ∧
      ∀ state : State, state.cursor = offset → state.depth = depth →
        run state = some (value, state.after events stop)

theorem settles_of_lifts {form : α → β} {run : Step β}
    (h : ∀ depth, ∃ step, Lifts form run depth step ∧ Cursor.IsTotal text step) :
    Settles text run := by
  intro depth offset hoffset
  obtain ⟨step, hlifts, htotal⟩ := h depth
  obtain ⟨events, value, stop, hstep, hstop, hle⟩ := htotal offset hoffset
  refine ⟨events, value.map form, stop, hstop, ?_, ?_⟩
  · rwa [Option.isSome_map]
  · rintro state rfl hdepth
    exact hlifts state hdepth events value stop hstep

theorem settles_pure (value : α) : Settles text (pure value) := by
  refine fun depth offset hoffset ↦ ⟨[], some value, offset, hoffset, fun _ ↦ Nat.le_refl _, ?_⟩
  rintro state rfl -
  rw [State.after_nil]
  rfl

theorem settles_giveUp : Settles text (Step.giveUp : Step α) := by
  refine fun depth offset hoffset ↦ ⟨[], none, offset, hoffset, fun _ ↦ Nat.le_refl _, ?_⟩
  rintro state rfl -
  rw [State.after_nil]
  rfl

theorem settles_note {event : Nat → Event} (h : ∀ offset, (event offset).isShown = true) :
    Settles text (Step.note event) := by
  refine fun depth offset hoffset ↦
    ⟨[event offset], some (), offset, hoffset, fun _ ↦ Nat.le_refl _, ?_⟩
  rintro state rfl -
  rw [State.after_shown state (h _)]
  rfl

theorem settles_atEnd : Settles text (Step.atEnd text) :=
  settles_of_lifts fun _ ↦ ⟨_, lifts_atEnd, (@Cursor.follows_atEnd text (text.length + 1)
    fun _ ↦ True).isTotal (Nat.lt_succ_self _) fun _ _ _ _ ↦ trivial⟩

theorem settles_word (hrounds : text.length < rounds) (name : String) :
    Settles text (Step.word text rounds name) :=
  settles_of_lifts fun _ ↦ ⟨_, lifts_word name, (@Cursor.follows_word text rounds
    (fun _ ↦ True) name).isTotal hrounds fun _ _ _ _ ↦ trivial⟩

theorem settles_limited (limit : Option Nat) : Settles text (Step.limited limit) := by
  intro depth offset hoffset
  by_cases hdeep : ∀ most, limit = some most → depth < most
  · refine ⟨[], some (), offset, hoffset, fun _ ↦ Nat.le_refl _, ?_⟩
    rintro state rfl rfl
    rw [State.after_nil]
    cases limit with
    | none => rfl
    | some most => exact if_neg (Nat.not_le.mpr (hdeep most rfl))
  · obtain ⟨most, rfl, hmost⟩ : ∃ most, limit = some most ∧ most ≤ depth := by
      simpa using hdeep
    refine ⟨[.failed ⟨offset, .tooDeep most⟩], none, offset, hoffset, fun _ ↦ Nat.le_refl _, ?_⟩
    rintro state rfl rfl
    rw [State.after_failed]
    exact if_pos hmost

theorem Settles.bind {run : Step α} {next : α → Step β} (h : Settles text run)
    (hnext : ∀ value, Settles text (next value)) : Settles text (run >>= next) := by
  intro depth offset hoffset
  obtain ⟨events, value, middle, hmiddle, hle, hrun⟩ := h depth offset hoffset
  cases value with
  | none =>
    refine ⟨events, none, middle, hmiddle, nofun, fun state hcursor hdepth ↦ ?_⟩
    change Step.bind run next state = _
    rw [Step.bind, hrun state hcursor hdepth]
    rfl
  | some value =>
    obtain ⟨more, result, stop, hstop, hle', hlater⟩ := hnext value depth middle hmiddle
    refine ⟨events ++ more, result, stop, hstop,
      fun hsome ↦ Nat.le_trans (hle rfl) (hle' hsome), fun state hcursor hdepth ↦ ?_⟩
    change Step.bind run next state = _
    rw [Step.bind, hrun state hcursor hdepth, ← State.after_after]
    exact hlater (state.after events middle) rfl hdepth

theorem Settles.deeper {run : Step α} (h : Settles text run) : Settles text (Step.deeper run) := by
  intro depth offset hoffset
  obtain ⟨events, value, stop, hstop, hle, hrun⟩ := h (depth + 1) offset hoffset
  refine ⟨events, value, stop, hstop, hle, ?_⟩
  rintro state hcursor rfl
  rw [Step.deeper, hrun { state with depth := state.depth + 1 } hcursor rfl]
  rfl

theorem settles_inOrder {steps : List (Step α)} (h : ∀ step ∈ steps, Settles text step) :
    Settles text (Step.inOrder steps) := by
  induction steps with
  | nil => exact settles_pure []
  | cons step steps ih =>
    obtain ⟨hstep, hsteps⟩ := List.forall_mem_cons.mp h
    exact hstep.bind fun value ↦ (ih hsteps).bind fun values ↦ settles_pure (value :: values)

/-! ### Every outline -/

section Slots

variable {catalog : Catalog} {limit : Option Nat} {nesting : Nat}

theorem settles_resolve_succ {outline : Outline}
    (h : Settles text (dispatch text rounds catalog (resolve text rounds catalog limit nesting) outline)) :
    Settles text (resolve text rounds catalog limit (nesting + 1) outline) :=
  (settles_note fun _ ↦ rfl).bind fun _ ↦ (settles_limited limit).bind fun _ ↦
    h.deeper.bind fun filled ↦ (settles_note fun _ ↦ rfl).bind fun _ ↦ settles_pure filled

/-- The rounds, and the slots inside one another, that are enough for a slot in a text. -/
def enough (operators : List Operator) (limit : Option Nat) (text : List Char) (slot : Slot) : Nat :=
  text.length + limit.getD 0 + slot.need (Catalog.ofList operators).depth (text.count '(') + 1

/-- A slot is filled from wherever the text can be cut, with whatever is given for it that is not read. -/
theorem settles_dispatch (operators : List Operator) {slot : Slot}
    (hrounds : enough operators limit text slot ≤ rounds)
    (hnesting : enough operators limit text slot ≤ nesting) (content : Option Literal)
    {parts : List Outline} (hparts : slot.isComposed = true → parts = slot.skeleton.parts) :
    Settles text (dispatch text rounds (.ofList operators)
      (resolve text rounds (.ofList operators) limit nesting) (.node slot content parts)) := by
  unfold enough at hrounds hnesting
  refine settles_of_lifts fun depth ↦ ⟨_, lifts_dispatch (fun part given hgiven ↦
    lifts_resolve (fun most hmost ↦ ?_) hgiven) slot content hparts,
    Cursor.isTotal_fillParts operators limit (by omega) fun hnone ↦ ?_⟩
  · rw [hmost, Option.getD_some] at hnesting
    omega
  · subst hnone
    simp only [room, Option.map_none, Option.getD_none]
    omega

mutual

/-- With enough rounds, and enough slots inside one another, it is settled what an outline is filled
with. -/
theorem exists_settles_resolve (operators : List Operator) (limit : Option Nat) (text : List Char) :
    ∀ outline : Outline, ∃ bound, ∀ rounds nesting, bound ≤ rounds → bound ≤ nesting →
      Settles text (resolve text rounds (.ofList operators) limit nesting outline)
  | .node slot content parts => by
    obtain ⟨bound, hparts⟩ := exists_settles_resolve_all operators limit text parts
    refine ⟨max bound (enough operators limit text slot) + 1, fun rounds nesting hrounds hnesting ↦ ?_⟩
    obtain ⟨nesting, rfl⟩ := Nat.exists_eq_add_one_of_ne_zero (Nat.ne_zero_of_lt hnesting)
    have hread : Settles text (Step.inOrder
        (parts.map (resolve text rounds (.ofList operators) limit nesting))) := by
      refine settles_inOrder (List.forall_mem_map.mpr fun part hpart ↦ ?_)
      exact hparts rounds nesting (by omega) (by omega) part hpart
    have hslot : Settles text (dispatch text rounds (.ofList operators)
        (resolve text rounds (.ofList operators) limit nesting) (.node slot content parts)) := by
      cases slot with
      | root base =>
        exact hread.bind fun parts ↦ settles_atEnd.bind fun _ ↦ settles_pure _
      | operator chosen => exact hread.bind fun parts ↦ settles_pure _
      | call | choice | typed | keywords | keyword =>
        exact settles_dispatch operators (by omega) (by omega) content
          fun h ↦ absurd h Bool.false_ne_true
    exact settles_resolve_succ hslot

theorem exists_settles_resolve_all (operators : List Operator) (limit : Option Nat)
    (text : List Char) :
    ∀ outlines : List Outline, ∃ bound, ∀ rounds nesting, bound ≤ rounds → bound ≤ nesting →
      ∀ outline ∈ outlines,
        Settles text (resolve text rounds (.ofList operators) limit nesting outline)
  | [] => ⟨0, fun _ _ _ _ _ h ↦ absurd h List.not_mem_nil⟩
  | outline :: outlines => by
    obtain ⟨bound, houtline⟩ := exists_settles_resolve operators limit text outline
    obtain ⟨bound', houtlines⟩ := exists_settles_resolve_all operators limit text outlines
    refine ⟨max bound bound', fun rounds nesting hrounds hnesting ↦ List.forall_mem_cons.mpr ⟨?_, ?_⟩⟩
    · exact houtline rounds nesting (by omega) (by omega)
    · exact houtlines rounds nesting (by omega) (by omega)

end

end Slots

end Engine

end Formulary
