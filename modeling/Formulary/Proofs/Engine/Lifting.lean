import Formulary.Proofs.Engine.Machine
import Formulary.Proofs.Reading.Trace
/-!
The engine does to its state what the machine that has nothing but a cursor does to that. What happens
in a step is added to the state, failures to the furthest complaints and all else to what is shown
(`State.after`); the depth comes out as it went in; and neither what happens nor what comes of it depends
on anything in the state but the cursor and the depth (`Lifts`). There is one rule for each way to compose
steps.
-/

set_option autoImplicit false
set_option relaxedAutoImplicit false

namespace Formulary.Engine

open Text

/-! ### What events do to a state -/

/-- The state after some events, with the cursor at an offset. -/
def State.after (state : State) (events : List Event) (stop : Nat) : State where
  cursor := stop
  depth := state.depth
  furthest := (failuresOf events).foldl Furthest.add state.furthest
  trace := state.trace ++ events.filter Event.isShown

namespace State

variable (state : State) {events : List Event} {stop : Nat}

theorem after_nil : state.after [] stop = state.moved stop := by
  simp [after, moved, failuresOf]

theorem after_failed {complaint : Complaint} :
    state.after [.failed ⟨stop, complaint⟩] stop = (state.moved stop).refused complaint := by
  simp [after, refused, moved, failuresOf, Event.isShown]

theorem after_shown {event : Event} (h : event.isShown = true) :
    state.after [event] stop = (state.moved stop).shown event := by
  have hnone : failuresOf [event] = [] := by
    cases event with
    | failed => cases h
    | entered | filled | backtracked => rfl
  simp [after, shown, moved, h, hnone]

/-- What happens first is added first. -/
theorem after_after (events more : List Event) (middle stop : Nat) :
    (state.after events middle).after more stop = state.after (events ++ more) stop := by
  simp [after, failuresOf]

end State

/-! ### Single steps -/

/-- At a depth, a step of the engine comes to what a step of the cursor comes to, up to the form of the
value, and what happened is added to the state. -/
def Lifts {α β : Type} (form : α → β) (run : Step β) (depth : Nat) (step : Cursor.Step α) : Prop :=
  ∀ state : State, state.depth = depth → ∀ events value stop,
    step state.cursor = some (events, value, stop) →
      run state = some (value.map form, state.after events stop)

variable {text : List Char} {rounds depth : Nat} {α β γ δ : Type} {form : α → β}

theorem lifts_unending (run : Step β) : Lifts form run depth Cursor.Step.unending := by
  intro _ _ _ _ _ h
  cases h

theorem lifts_pure (form : α → β) (value : α) : Lifts form (pure (form value)) depth (pure value) := by
  rintro state - _ _ _ ⟨⟩
  rw [State.after_nil]
  rfl

theorem lifts_reached : Lifts id Step.reached depth Cursor.Step.reached := by
  rintro state - _ _ _ ⟨⟩
  rw [State.after_nil]
  rfl

theorem lifts_giveUp : Lifts form Step.giveUp depth Cursor.Step.giveUp := by
  rintro state - _ _ _ ⟨⟩
  rw [State.after_nil]
  rfl

theorem lifts_note {event : Nat → Event} (h : ∀ offset, (event offset).isShown = true) :
    Lifts id (Step.note event) depth (Cursor.Step.note event) := by
  rintro state - _ _ _ ⟨⟩
  rw [State.after_shown state (h _)]
  rfl

theorem lifts_fail (complaint : Complaint) :
    Lifts form (Step.fail complaint) depth (Cursor.Step.fail complaint) := by
  rintro state - _ _ _ ⟨⟩
  rw [State.after_failed]
  rfl

theorem lifts_atEnd : Lifts id (Step.atEnd text) depth (Cursor.Step.atEnd text) := by
  intro state hdepth events value stop h
  rw [Cursor.Step.atEnd] at h
  rw [Step.atEnd]
  split at h
  · rename_i hend
    rw [if_pos hend]
    exact lifts_pure id () state hdepth events value stop h
  · rename_i hend
    rw [if_neg hend]
    exact lifts_fail .expectingEnd state hdepth events value stop h

theorem lifts_move (advance : Nat → Option (Option Nat)) (complaint : Complaint) :
    Lifts id (Step.move text rounds advance complaint) depth
      (Cursor.Step.move text rounds advance complaint) := by
  intro state hdepth events value stop h
  obtain ⟨eaten, heaten, hrest⟩ := Option.bind_eq_some_iff.mp h
  rw [Step.move, heaten, Option.bind_eq_bind, Option.bind_some]
  cases eaten with
  | none => exact lifts_fail complaint state hdepth events value stop hrest
  | some eaten =>
    obtain ⟨last, hskip, hlast⟩ := Option.bind_eq_some_iff.mp hrest
    cases hlast
    simp only [hskip, Option.bind_eq_bind, Option.bind_some]
    rw [State.after_nil]
    rfl

theorem lifts_symbol (symbol : String) :
    Lifts id (Step.symbol text rounds symbol) depth (Cursor.Step.symbol text rounds symbol) :=
  lifts_move _ _

theorem lifts_word (word : String) :
    Lifts id (Step.word text rounds word) depth (Cursor.Step.word text rounds word) :=
  lifts_move _ _

theorem lifts_literal (kind : Scalar) :
    Lifts id (Step.literal text rounds kind) depth (Cursor.Step.literal text rounds kind) := by
  intro state hdepth events value stop h
  obtain ⟨⟨read, reached⟩, hread, hrest⟩ := Option.bind_eq_some_iff.mp h
  rw [Step.literal, hread, Option.bind_eq_bind, Option.bind_some]
  cases read with
  | error complaint =>
    cases hrest
    rw [State.after_failed]
    rfl
  | ok literal =>
    obtain ⟨last, hskip, hlast⟩ := Option.bind_eq_some_iff.mp hrest
    cases hlast
    simp only [hskip, Option.bind_eq_bind, Option.bind_some]
    rw [State.after_nil]
    rfl

/-! ### Composed steps -/

section Rules

variable {run : Step β} {step : Cursor.Step α}

theorem Lifts.bind {form' : γ → δ} {next : β → Step δ} {next' : α → Cursor.Step γ}
    (h : Lifts form run depth step)
    (hnext : ∀ value, Lifts form' (next (form value)) depth (next' value)) :
    Lifts form' (run >>= next) depth (step >>= next') := by
  intro state hdepth events value stop hstep
  obtain ⟨⟨first, found, middle⟩, hfirst, hrest⟩ := Option.bind_eq_some_iff.mp hstep
  have hrun := h state hdepth first found middle hfirst
  change Step.bind run next state = _
  rw [Step.bind, hrun, Option.bind_eq_bind, Option.bind_some]
  cases found with
  | none =>
    cases hrest
    rfl
  | some found =>
    obtain ⟨⟨more, result, last⟩, hmore, hlast⟩ := Option.bind_eq_some_iff.mp hrest
    cases hlast
    rw [← State.after_after]
    exact hnext found (state.after first middle) hdepth more _ _ hmore

/-- The value of a step in another form, which need be as expected only for values that the step can
have. -/
theorem Lifts.map {run : Step α} {next : α → Step β} (h : Lifts id run depth step)
    (hnext : ∀ value, (∃ state after, run state = some (some value, after)) →
      next value = pure (form value)) :
    Lifts form (run >>= next) depth step := by
  intro state hdepth events value stop hstep
  have hrun := h state hdepth events value stop hstep
  change Step.bind run next state = _
  rw [Step.bind, hrun, Option.bind_eq_bind, Option.bind_some]
  cases value with
  | none => rfl
  | some value =>
    dsimp only [Option.map_some, id_eq] at hrun ⊢
    rw [hnext value ⟨state, _, hrun⟩]
    rfl

theorem Lifts.deeper (h : Lifts form run (depth + 1) step) :
    Lifts form (Step.deeper run) depth step := by
  rintro state rfl events value stop hstep
  have hrun := h { state with depth := state.depth + 1 } rfl events value stop hstep
  rw [Step.deeper, hrun]
  rfl

/-- A step at a depth that a limit allows. -/
theorem Lifts.limited {limit : Option Nat} (hdeep : ∀ most, limit = some most → depth < most)
    (h : Lifts form run depth step) :
    Lifts form (Step.limited limit >>= fun _ ↦ run) depth step := by
  intro state hdepth
  have hpasses : Step.limited limit state = some (some (), state) := by
    cases limit with
    | none => rfl
    | some most => exact if_neg (Nat.not_le.mpr (hdepth ▸ hdeep most rfl))
  have hrun : (Step.limited limit >>= fun _ ↦ run) state = run state := by
    change Step.bind _ _ state = _
    rw [Step.bind, hpasses]
    rfl
  rw [hrun]
  exact h state hdepth

/-- A step at a depth that a limit does not allow. -/
theorem lifts_limited_of_le {most : Nat} (hdeep : most ≤ depth) {next : Unit → Step β} :
    Lifts form (Step.limited (some most) >>= next) depth (Cursor.Step.fail (.tooDeep most)) := by
  intro state hdepth events value stop hstep
  have hrefused : Step.limited (some most) state = Step.fail (.tooDeep most) state :=
    if_pos (hdepth ▸ hdeep)
  change Step.bind _ _ state = _
  rw [Step.bind, hrefused]
  exact lifts_fail (.tooDeep most) state hdepth events value stop hstep

theorem Lifts.optionally {run : Step α} (h : Lifts id run depth step) :
    Lifts id (Step.optionally run) depth (Cursor.Step.optionally step) := by
  intro state hdepth events value stop hstep
  obtain ⟨⟨first, found, middle⟩, hfirst, hrest⟩ := Option.bind_eq_some_iff.mp hstep
  cases hrest
  rw [Step.optionally, h state hdepth events found stop hfirst]
  simp

theorem Lifts.attempt {run : Step α} (h : Lifts id run depth step) :
    Lifts id (Step.attempt text run) depth (Cursor.Step.attempt text step) := by
  intro state hdepth events value stop hstep
  obtain ⟨⟨first, found, middle⟩, hfirst, hrest⟩ := Option.bind_eq_some_iff.mp hstep
  rw [Step.attempt, h state hdepth first found middle hfirst, Option.bind_eq_bind, Option.bind_some]
  cases found with
  | some found =>
    cases hrest
    rfl
  | none =>
    obtain ⟨back, hback, hlast⟩ := Option.bind_eq_some_iff.mp hrest
    cases hlast
    simp only [Option.map_none, hback, Option.bind_eq_bind, Option.bind_some]
    rw [← state.after_after first _ middle, State.after_shown _ rfl]

theorem Lifts.orElse {first second : Step α} {first' second' : Cursor.Step α}
    (hfirst : Lifts id first depth first') (hsecond : Lifts id second depth second') :
    Lifts id (Step.orElse first second) depth (Cursor.Step.orElse first' second') := by
  intro state hdepth events value stop hstep
  obtain ⟨⟨tried, found, middle⟩, htried, hrest⟩ := Option.bind_eq_some_iff.mp hstep
  rw [Step.orElse, hfirst state hdepth tried found middle htried, Option.bind_eq_bind,
    Option.bind_some]
  cases found with
  | some found =>
    cases hrest
    rfl
  | none =>
    obtain ⟨⟨more, result, last⟩, hmore, hlast⟩ := Option.bind_eq_some_iff.mp hrest
    cases hlast
    rw [← State.after_after]
    exact hsecond (state.after tried middle) hdepth more _ _ hmore

theorem lifts_firstOf {choices : List γ} {run : γ → Step α} {step : γ → Cursor.Step α}
    (h : ∀ choice ∈ choices, Lifts id (run choice) depth (step choice)) :
    Lifts id (Step.firstOf text (choices.map run)) depth
      (Cursor.Step.firstOf text (choices.map step)) := by
  induction choices with
  | nil => exact lifts_giveUp
  | cons choice choices ih =>
    obtain ⟨hchoice, hchoices⟩ := List.forall_mem_cons.mp h
    exact hchoice.attempt.orElse (ih hchoices)

theorem lifts_inOrder {items : List γ} {run : γ → Step α} {step : γ → Cursor.Step α}
    (h : ∀ item ∈ items, Lifts id (run item) depth (step item)) :
    Lifts id (Step.inOrder (items.map run)) depth (Cursor.Step.inOrder (items.map step)) := by
  induction items with
  | nil => exact lifts_pure id []
  | cons item items ih =>
    obtain ⟨hitem, hitems⟩ := List.forall_mem_cons.mp h
    exact hitem.bind fun value ↦ (ih hitems).bind fun values ↦ lifts_pure id (value :: values)

theorem lifts_repeatedly {run : Step α} (h : Lifts id run depth step) (rounds : Nat) :
    Lifts id (Step.repeatedly text run rounds) depth (Cursor.Step.repeatedly text step rounds) := by
  induction rounds with
  | zero => exact lifts_unending _
  | succ rounds ih =>
    refine lifts_reached.bind fun before ↦ h.attempt.optionally.bind fun found ↦ ?_
    cases found with
    | none => exact lifts_pure id []
    | some value =>
      refine lifts_reached.bind fun last ↦ ?_
      dsimp only [id_eq]
      split
      · exact ih.bind fun values ↦ lifts_pure id (value :: values)
      · exact lifts_pure id []

end Rules

end Formulary.Engine
