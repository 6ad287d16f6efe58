import Formulary.Proofs.Engine.Settling
/-!
Alternatives of the engine. One that fails is taken back to where it started, at the same depth, so it has
no effect on those that are tried after it but on the complaints and on what is shown
(`exists_isFramed_resolve`). What a step leaves alone in this way is put together in `IsFramed`.
-/

set_option autoImplicit false
set_option relaxedAutoImplicit false

namespace Formulary.Engine

open Text

variable {text : List Char} {α : Type}

/-- Two states that differ at most in the complaints and in what was shown. -/
structure State.Agrees (state other : State) : Prop where
  cursor : other.cursor = state.cursor
  depth : other.depth = state.depth

/-! ### Attempts -/

/-- A step that succeeds is not changed by an attempt. -/
theorem attempt_of_some {run : Step α} {state after : State} {value : α}
    (h : run state = some (some value, after)) :
    Step.attempt text run state = some (some value, after) := by
  rw [Step.attempt, h]
  rfl

/-- A step that fails is taken back to where it started. -/
theorem attempt_of_none {run : Step α} {state stop : State} (hstate : IsBoundary text state.cursor)
    (h : run state = some (none, stop)) :
    Step.attempt text run state =
      some (none, (stop.moved state.cursor).shown (.backtracked state.cursor)) := by
  simp only [Step.attempt, h, Cursor.goTo_of_isBoundary hstate, Option.bind_eq_bind, Option.bind_some]

-- a string that is not closed leaves the cursor at the end of the text
example :
    Step.literal ['"', 'a', 'b'] 9 .string ⟨0, 3, .none, []⟩ =
        some (none, ⟨3, 3, ⟨3, [.expectingSymbol "\""]⟩, []⟩) ∧
      Step.attempt ['"', 'a', 'b'] (Step.literal ['"', 'a', 'b'] 9 .string) ⟨0, 3, .none, []⟩ =
        some (none, ⟨0, 3, ⟨3, [.expectingSymbol "\""]⟩, [.backtracked 0]⟩) := by
  decide +kernel

/-- An attempt, or if it fails another step from the same place. -/
theorem Settles.attempt_orElse {first second : Step α} (hfirst : Settles text first)
    (hsecond : Settles text second) :
    Settles text (Step.orElse (Step.attempt text first) second) := by
  intro depth offset hoffset
  obtain ⟨events, value, stop, hstop, hle, hrun⟩ := hfirst depth offset hoffset
  cases value with
  | some value =>
    refine ⟨events, some value, stop, hstop, hle, fun state hcursor hdepth ↦ ?_⟩
    rw [Step.orElse, attempt_of_some (hrun state hcursor hdepth)]
    rfl
  | none =>
    obtain ⟨more, result, last, hlast, hle', hlater⟩ := hsecond depth offset hoffset
    refine ⟨(events ++ [.backtracked offset]) ++ more, result, last, hlast, hle', ?_⟩
    rintro state rfl hdepth
    have hback : ((state.after events stop).moved state.cursor).shown (.backtracked state.cursor) =
        state.after (events ++ [.backtracked state.cursor]) state.cursor := by
      rw [← state.after_after events _ stop, State.after_shown _ rfl]
    rw [Step.orElse, attempt_of_none hoffset (hrun state rfl hdepth), hback,
      ← state.after_after _ more state.cursor]
    exact hlater (state.after (events ++ [.backtracked state.cursor]) state.cursor) rfl hdepth

theorem settles_firstOf {steps : List (Step α)} (h : ∀ step ∈ steps, Settles text step) :
    Settles text (Step.firstOf text steps) := by
  induction steps with
  | nil => exact settles_giveUp
  | cons step steps ih =>
    obtain ⟨hstep, hsteps⟩ := List.forall_mem_cons.mp h
    exact hstep.attempt_orElse (ih hsteps)

/-! ### What a step leaves alone -/

/-- What a step leaves alone, wherever the text can be cut. -/
structure IsFramed (text : List Char) (run : Step α) : Prop where
  /-- It ends at the depth at which it started, and not behind where it started unless it fails. -/
  ends : ∀ state : State, IsBoundary text state.cursor → ∃ value after,
    run state = some (value, after) ∧ IsBoundary text after.cursor ∧ after.depth = state.depth ∧
      (value.isSome = true → state.cursor ≤ after.cursor)
  /-- It does the same whatever complaints there are and whatever was shown. -/
  blind : ∀ state other : State, IsBoundary text state.cursor → state.Agrees other →
    ∀ value after, run state = some (value, after) →
      ∃ after', run other = some (value, after') ∧ after.Agrees after'
  /-- If it fails, an attempt of it ends where it started, at the same depth. -/
  back : ∀ state : State, IsBoundary text state.cursor → ∀ stop, run state = some (none, stop) →
    ∃ after, Step.attempt text run state = some (none, after) ∧ state.Agrees after

theorem Settles.isFramed {run : Step α} (h : Settles text run) : IsFramed text run where
  ends state hstate := by
    obtain ⟨events, value, stop, hstop, hle, hrun⟩ := h state.depth state.cursor hstate
    exact ⟨value, _, hrun state rfl rfl, hstop, rfl, hle⟩
  blind state other hstate hagrees value after hrun := by
    obtain ⟨events, settled, stop, -, -, hsettled⟩ := h state.depth state.cursor hstate
    obtain ⟨rfl, rfl⟩ := Prod.mk.inj (Option.some.inj ((hsettled state rfl rfl).symm.trans hrun))
    exact ⟨_, hsettled other hagrees.cursor hagrees.depth, rfl, hagrees.depth⟩
  back state hstate stop hrun := by
    obtain ⟨events, settled, offset, -, -, hsettled⟩ := h state.depth state.cursor hstate
    obtain ⟨-, rfl⟩ := Prod.mk.inj (Option.some.inj ((hsettled state rfl rfl).symm.trans hrun))
    exact ⟨_, attempt_of_none hstate hrun, rfl, rfl⟩

/-- Alternatives that fail change nothing for those that come after them. -/
theorem exists_firstOf_append {earlier : List (Step α)} (later : List (Step α))
    (hearlier : ∀ run ∈ earlier, IsFramed text run) {state : State}
    (hstate : IsBoundary text state.cursor)
    (hfails : ∀ run ∈ earlier, ∃ stop, run state = some (none, stop)) :
    ∃ middle, state.Agrees middle ∧
      Step.firstOf text (earlier ++ later) state = Step.firstOf text later middle := by
  induction earlier generalizing state with
  | nil => exact ⟨state, ⟨rfl, rfl⟩, rfl⟩
  | cons run earlier ih =>
    obtain ⟨hframed, hothers⟩ := List.forall_mem_cons.mp hearlier
    obtain ⟨⟨stop, hrun⟩, hfailing⟩ := List.forall_mem_cons.mp hfails
    obtain ⟨back, hback, hsame⟩ := hframed.back state hstate stop hrun
    have hthere : IsBoundary text back.cursor := hsame.cursor ▸ hstate
    obtain ⟨middle, hmiddle, hrest⟩ := ih hothers hthere fun other hother ↦ by
      obtain ⟨stop, hstop⟩ := hfailing other hother
      obtain ⟨after, hafter, -⟩ := (hothers other hother).blind state back hstate hsame none stop hstop
      exact ⟨after, hafter⟩
    refine ⟨middle, ⟨hmiddle.cursor.trans hsame.cursor, hmiddle.depth.trans hsame.depth⟩, ?_⟩
    rw [List.cons_append, Step.firstOf, Step.orElse, hback]
    exact hrest

/-- A failed alternative has no effect. The engine reads formulas as they are read, and in it a word and
every outline leave the same things alone: they end at the depth at which they started, an attempt that
fails ends where it started, and the complaints so far do not matter. So outlines that are tried after
others that failed come to what they come to if those are never tried. -/
theorem exists_isFramed_resolve (operators : List Operator) (limit : Option Nat) (source : String)
    (outlines : List Outline) :
    ∃ bound, ∀ rounds nesting, bound ≤ rounds → bound ≤ nesting →
      parse (.ofList operators) limit rounds nesting source =
          some (parseFormula (.ofList operators) limit source) ∧
        (∀ name, IsFramed source.toList (Step.word source.toList rounds name)) ∧
        (∀ outline ∈ outlines, IsFramed source.toList
          (resolve source.toList rounds (.ofList operators) limit nesting outline)) ∧
        ∀ earlier later, outlines = earlier ++ later →
          ∀ state : State, IsBoundary source.toList state.cursor →
            (∀ outline ∈ earlier, ∃ stop,
              resolve source.toList rounds (.ofList operators) limit nesting outline state =
                some (none, stop)) →
            ∃ value after after',
              Step.firstOf source.toList
                  (later.map (resolve source.toList rounds (.ofList operators) limit nesting)) state =
                some (value, after) ∧
              Step.firstOf source.toList
                  (outlines.map (resolve source.toList rounds (.ofList operators) limit nesting)) state =
                some (value, after') ∧
              after.Agrees after' := by
  obtain ⟨bound, hsettles⟩ := exists_settles_resolve_all operators limit source.toList outlines
  refine ⟨bound + source.toList.length + nestingBound (.ofList operators) source.toList +
    limit.getD 0 + 1, fun rounds nesting hrounds hnesting ↦ ?_⟩
  have hsettled := hsettles rounds nesting (by omega) (by omega)
  refine ⟨parse_eq operators limit (by omega) (by omega),
    fun name ↦ (settles_word (by omega) name).isFramed,
    fun outline houtline ↦ (hsettled outline houtline).isFramed, ?_⟩
  rintro earlier later rfl state hstate hfails
  obtain ⟨hearlier, hlater⟩ := List.forall_mem_append.mp hsettled
  obtain ⟨middle, hmiddle, hsame⟩ := exists_firstOf_append
    (later.map (resolve source.toList rounds (.ofList operators) limit nesting))
    (List.forall_mem_map.mpr fun outline houtline ↦ (hearlier outline houtline).isFramed) hstate
    (List.forall_mem_map.mpr hfails)
  have hframed := (settles_firstOf (List.forall_mem_map.mpr hlater)).isFramed
  obtain ⟨value, after, hrun, -⟩ := hframed.ends state hstate
  obtain ⟨after', hrun', hagrees⟩ := hframed.blind state middle hstate hmiddle value after hrun
  refine ⟨value, after, after', hrun, ?_, hagrees⟩
  rw [List.map_append, hsame, hrun']

/-- A quoted text that is no timestamp is read as a string, as if no timestamp had been tried. -/
theorem exists_isFramed_resolve_quoted :
    ∃ rounds nesting stop value after after',
      let inner := resolve "\"x\" 3".toList rounds (.ofList []) none nesting
      let timestamp := Slot.skeleton (.typed (.scalar .timestamp))
      let string := Slot.skeleton (.typed (.scalar .string))
      inner timestamp ⟨0, 2, .none, []⟩ = some (none, stop) ∧
        Step.firstOf "\"x\" 3".toList [inner string] ⟨0, 2, .none, []⟩ = some (some value, after) ∧
        Step.firstOf "\"x\" 3".toList [inner timestamp, inner string] ⟨0, 2, .none, []⟩ =
          some (some value, after') ∧
        value.content = some (.string "x") ∧ after.cursor = 4 ∧ after.Agrees after' := by
  let timestamp := Slot.skeleton (.typed (.scalar .timestamp))
  let string := Slot.skeleton (.typed (.scalar .string))
  obtain ⟨bound, hbound⟩ := exists_isFramed_resolve [] none "\"x\" 3" [timestamp, string]
  -- the few rounds and slots more are those in which the two alternatives are read
  obtain ⟨-, -, -, halternatives⟩ := hbound (bound + 8) (bound + 8) (by omega) (by omega)
  let inner := resolve "\"x\" 3".toList (bound + 8) (.ofList []) none (bound + 8)
  have hfails : ∃ stop, inner timestamp ⟨0, 2, .none, []⟩ = some (none, stop) := ⟨_, rfl⟩
  obtain ⟨found, after, after', hlater, hall, hagrees⟩ :=
    halternatives [timestamp] [string] rfl ⟨0, 2, .none, []⟩ (isBoundary_zero _)
      (List.forall_mem_singleton.mpr hfails)
  obtain ⟨stop, hstop⟩ := hfails
  have hread : ∃ value last, value.content = some (.string "x") ∧ last.cursor = 4 ∧
      Step.firstOf "\"x\" 3".toList [inner string] ⟨0, 2, .none, []⟩ = some (some value, last) :=
    ⟨_, _, rfl, rfl, rfl⟩
  obtain ⟨value, last, hcontent, hcursor, hlast⟩ := hread
  obtain ⟨rfl, rfl⟩ := Prod.mk.inj (Option.some.inj (hlater.symm.trans hlast))
  exact ⟨bound + 8, bound + 8, stop, value, after, after', hstop, hlater, hall, hcontent, hcursor,
    hagrees⟩

end Formulary.Engine
