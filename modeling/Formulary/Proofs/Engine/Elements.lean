import Formulary.Proofs.Engine.Alternatives
import Formulary.Proofs.Engine.Extent
/-!
The elements of a list. Whatever is read for an argument takes up text, so the loop of the engine that reads
elements never stops because it does not get any further (`repeatedly_eq_exhaust`). It ends everywhere, and
only where there is no other element: from where it starts the elements are read one right behind the other,
and where the last one ends no further one can be read (`exists_readsAll_repeatedly`). That is where the
parenthesis of the list has to be closed. Main definitions: `Engine.Step.exhaust` and `Engine.ReadsAll`.
-/

set_option autoImplicit false
set_option relaxedAutoImplicit false

namespace Formulary.Engine

open Text

variable {text : List Char} {rounds nesting : Nat} {α β : Type}

/-! ### Loops -/

/-- A step that is attempted again and again until it fails, however far it gets. -/
def Step.exhaust (text : List Char) (step : Step α) : (rounds : Nat) → Step (List α)
  | 0 => Step.unending
  | rounds + 1 => do
    match ← Step.optionally (Step.attempt text step) with
    | none => pure []
    | some value => do
      let values ← Step.exhaust text step rounds
      pure (value :: values)

/-- A step never succeeds where it started. -/
def Consumes (step : Step α) : Prop :=
  ∀ state value after, step state = some (some value, after) → state.cursor < after.cursor

/-- Values that a step reads from a state on, each one in the state that the one before it left behind. -/
inductive ReadsInTurn (step : Step α) : State → List α → State → Prop
  | done (state : State) : ReadsInTurn step state [] state
  | next {state middle last : State} {value : α} {values : List α}
      (hstep : step state = some (some value, middle)) (hrest : ReadsInTurn step middle values last) :
      ReadsInTurn step state (value :: values) last

/-- The values that a step reads from a state on until it fails, and the state after that, which is back
where the last value ended. -/
def ReadsAll (step : Step α) (state : State) (values : List α) (after : State) : Prop :=
  ∃ last stop, ReadsInTurn step state values last ∧ step last = some (none, stop) ∧ last.Agrees after

variable {step : Step α} {state after stop : State} {value : α}

theorem bind_eq_of_some {run : Step α} (h : run state = some (some value, after)) (next : α → Step β) :
    (run >>= next) state = next value after := by
  change Step.bind run next state = _
  rw [Step.bind, h]
  rfl

/-- What comes after a step matters only where the step succeeds. -/
theorem bind_congr_of_some {run : Step α} {next next' : α → Step β}
    (h : ∀ value after, run state = some (some value, after) → next value after = next' value after) :
    (run >>= next) state = (run >>= next') state := by
  change Step.bind run next state = Step.bind run next' state
  rw [Step.bind, Step.bind]
  cases hrun : run state with
  | none => rfl
  | some found =>
    obtain ⟨value, after⟩ := found
    cases value with
    | none => rfl
    | some value => exact h value after hrun

/-- An attempt succeeds only with what the step succeeds with. -/
theorem eq_some_of_attempt (h : Step.attempt text step state = some (some value, after)) :
    step state = some (some value, after) := by
  obtain ⟨⟨found, stop⟩, hstep, hrest⟩ := Option.bind_eq_some_iff.mp h
  cases found with
  | none =>
    obtain ⟨back, -, hback⟩ := Option.bind_eq_some_iff.mp hrest
    cases hback
  | some found =>
    cases hrest
    exact hstep

/-- A round in which a value is read. -/
theorem repeatedly_of_some (h : step state = some (some value, after))
    (hahead : state.cursor < after.cursor) :
    Step.repeatedly text step (rounds + 1) state =
      (Step.repeatedly text step rounds >>= fun values ↦ pure (value :: values)) after := by
  have hround : Step.optionally (Step.attempt text step) state = some (some (some value), after) := by
    rw [Step.optionally, attempt_of_some h]
    rfl
  rw [Step.repeatedly, bind_eq_of_some rfl, bind_eq_of_some hround]
  exact congrFun (if_pos hahead) after

/-- The round in which no other value can be read. -/
theorem repeatedly_of_none (hstate : IsBoundary text state.cursor) (h : step state = some (none, stop)) :
    Step.repeatedly text step (rounds + 1) state =
      some (some [], (stop.moved state.cursor).shown (.backtracked state.cursor)) := by
  have hround : Step.optionally (Step.attempt text step) state =
      some (some none, (stop.moved state.cursor).shown (.backtracked state.cursor)) := by
    rw [Step.optionally, attempt_of_none hstate h]
    rfl
  rw [Step.repeatedly, bind_eq_of_some rfl, bind_eq_of_some hround]
  rfl

/-- If a step never succeeds where it started, what it reads is never given up for that. -/
theorem repeatedly_eq_exhaust (h : Consumes step) (rounds : Nat) :
    Step.repeatedly text step rounds = Step.exhaust text step rounds := by
  induction rounds with
  | zero => rfl
  | succ rounds ih =>
    funext state
    rw [Step.repeatedly, bind_eq_of_some rfl, Step.exhaust, ← ih]
    refine bind_congr_of_some fun found after hround ↦ ?_
    cases found with
    | none => rfl
    | some value =>
      obtain ⟨⟨tried, stop⟩, hattempt, hsame⟩ := Option.bind_eq_some_iff.mp hround
      cases hsame
      exact congrFun (if_pos (h _ _ _ (eq_some_of_attempt hattempt))) after

/-- The loop ends everywhere, and only where the step fails: each round gets further, so there are no more
rounds than bytes. -/
theorem exists_readsAll_repeatedly (hconsumes : Consumes step) (hsettles : Settles text step)
    (hstate : IsBoundary text state.cursor) (hrounds : byteLength text - state.cursor < rounds) :
    ∃ values after, Step.repeatedly text step rounds state = some (some values, after) ∧
      ReadsAll step state values after := by
  induction rounds generalizing state with
  | zero => exact absurd hrounds (Nat.not_lt_zero _)
  | succ rounds ih =>
    obtain ⟨events, found, offset, hoffset, -, hrun⟩ := hsettles state.depth state.cursor hstate
    have hstep := hrun state rfl rfl
    cases found with
    | none =>
      exact ⟨[], _, repeatedly_of_none hstate hstep, state, _, .done state, hstep, rfl, rfl⟩
    | some value =>
      have hahead : state.cursor < offset := hconsumes _ _ _ hstep
      have hend := hoffset.le
      have hless : byteLength text - offset < rounds := by omega
      obtain ⟨values, after, hloop, last, stop, hreads, hfails, hagrees⟩ :=
        @ih (state.after events offset) hoffset hless
      refine ⟨value :: values, after, ?_, last, stop, .next hstep hreads, hfails, hagrees⟩
      rw [repeatedly_of_some hstep hahead, bind_eq_of_some hloop]
      rfl

/-! ### Arguments -/

section Arguments

variable {operators : List Operator} {limit : Option Nat}

theorem settles_symbol (hrounds : text.length < rounds) (symbol : String) :
    Settles text (Step.symbol text rounds symbol) :=
  settles_of_lifts fun _ ↦ ⟨_, lifts_symbol symbol, (@Cursor.follows_symbol text rounds
    (fun _ ↦ True) symbol).isTotal hrounds fun _ _ _ _ ↦ trivial⟩

/-- Whatever is read for an argument takes up text. -/
theorem consumes_resolve {type : ArgType}
    (hrounds : enough operators limit text (.ofArgument type) ≤ rounds)
    (hnesting : enough operators limit text (.ofArgument type) ≤ nesting) :
    Consumes (resolve text rounds (.ofList operators) limit nesting (Slot.ofArgument type).skeleton) := by
  intro state outline after h
  obtain ⟨place, room, stop, -, hoffset, hread, hstop⟩ :=
    exists_fill_of_resolve (Slot.isArgument_ofArgument type) hrounds hnesting h
  rw [← hoffset, hstop]
  exact (moves_of_fill hread).2 (Slot.takesText_ofArgument type)

/-- A symbol is taken only from a place of the text to a place of the text. -/
theorem isBoundary_of_symbol {symbol : String} {state opened : State} (hrounds : text.length < rounds)
    (h : Step.symbol text rounds symbol state = some (some (), opened)) :
    IsBoundary text opened.cursor := by
  have hstate := succeedsInText_symbol symbol state () opened h
  obtain ⟨events, found, offset, hoffset, -, hrun⟩ :=
    settles_symbol hrounds symbol state.depth state.cursor hstate
  obtain ⟨-, rfl⟩ := Prod.mk.inj (Option.some.inj ((hrun state rfl rfl).symm.trans h))
  exact hoffset

/-- Behind its opening parenthesis a list is read by the loop for its elements, and then it has to be
closed. -/
theorem dispatch_list {inner : Outline → Step Outline} {catalog : Catalog} {type : ArgType}
    {state opened closing : State} {items : List Outline}
    (hopened : Step.symbol text rounds "(" state = some (some (), opened))
    (hitems : Step.repeatedly text (inner (Slot.ofArgument type).skeleton) rounds opened =
      some (some items, closing)) :
    dispatch text rounds catalog inner (Slot.typed (.list type)).skeleton state =
      (Step.symbol text rounds ")" >>= fun _ ↦ pure (.node (.typed (.list type)) none items))
        closing := by
  change dispatch text rounds catalog inner (.node (.typed (.list type)) none []) state = _
  rw [dispatch, bind_eq_of_some hopened, bind_eq_of_some hitems]

end Arguments

/-- Every argument takes up text, whatever its type is, so the loop for the elements of a list gives up none
that was read. It ends wherever the text can be cut; then the elements are those that were read one right
behind the other, and none can be read where the last one ends. So behind an opening parenthesis a list is
what is read in this way, if it is closed right there. -/
theorem exists_readsAll_resolve (operators : List Operator) (limit : Option Nat) (source : String)
    (type : ArgType) :
    (∀ most room place outline after,
      (fill (.ofList operators) most room (.ofArgument type) place).result = some (outline, after) →
        place.offset < after.offset) ∧
    ∃ bound, ∀ rounds nesting, bound ≤ rounds → bound ≤ nesting →
      let text := source.toList
      let inner := resolve text rounds (.ofList operators) limit nesting
      let element := inner (Slot.ofArgument type).skeleton
      parse (.ofList operators) limit rounds nesting source =
          some (parseFormula (.ofList operators) limit source) ∧
        (∀ state outline after, element state = some (some outline, after) →
          state.cursor < after.cursor) ∧
        Step.repeatedly text element rounds = Step.exhaust text element rounds ∧
        (∀ state : State, IsBoundary text state.cursor → ∃ items after,
          Step.repeatedly text element rounds state = some (some items, after) ∧
            ReadsAll element state items after) ∧
        ∀ state opened, Step.symbol text rounds "(" state = some (some (), opened) →
          ∃ items closing, ReadsAll element opened items closing ∧
            dispatch text rounds (.ofList operators) inner (Slot.typed (.list type)).skeleton state =
              (Step.symbol text rounds ")" >>= fun _ ↦
                pure (.node (.typed (.list type)) none items)) closing := by
  refine ⟨fun most room place outline after hread ↦
    (moves_of_fill hread).2 (Slot.takesText_ofArgument type), ?_⟩
  obtain ⟨bound, hsettles⟩ :=
    exists_settles_resolve operators limit source.toList (Slot.ofArgument type).skeleton
  refine ⟨bound + enough operators limit source.toList (.ofArgument type) +
    byteLength source.toList + nestingBound (.ofList operators) source.toList + 1,
    fun rounds nesting hrounds hnesting ↦ ?_⟩
  have hargument : enough operators limit source.toList (.ofArgument type) ≤ min rounds nesting := by
    omega
  have hbytes : byteLength source.toList < rounds := by omega
  unfold enough at hrounds hnesting
  have hlength : source.toList.length < rounds := by omega
  have hlimit : nestingBound (.ofList operators) source.toList + limit.getD 0 < nesting := by omega
  have hsettled := hsettles rounds nesting (by omega) (by omega)
  obtain ⟨hargumentRounds, hargumentNesting⟩ := Nat.le_min.mp hargument
  have hconsumes := consumes_resolve hargumentRounds hargumentNesting
  intro text inner element
  have hloop (state : State) (hstate : IsBoundary text state.cursor) : ∃ items after,
      Step.repeatedly text element rounds state = some (some items, after) ∧
        ReadsAll element state items after :=
    exists_readsAll_repeatedly hconsumes hsettled hstate (Nat.lt_of_le_of_lt (Nat.sub_le _ _) hbytes)
  refine ⟨parse_eq operators limit hlength hlimit, hconsumes, repeatedly_eq_exhaust hconsumes rounds,
    hloop, fun state opened hopened ↦ ?_⟩
  obtain ⟨items, closing, hitems, hreads⟩ := hloop opened (isBoundary_of_symbol hlength hopened)
  exact ⟨items, closing, hreads, dispatch_list hopened hitems⟩

-- two integers are read, and the cursor is left in front of what is none
example :
    (Step.repeatedly "1 2 x)".toList
      (resolve "1 2 x)".toList 20 (.ofList []) none 20 (Slot.ofArgument (.scalar .int)).skeleton) 20
      ⟨0, 2, .none, []⟩).map (fun found ↦ (found.1.map List.length, found.2.cursor, found.2.depth)) =
      some (some 2, 4, 2) := by
  decide +kernel

/-- A list of integers is read by the loop for its elements, behind its opening parenthesis. -/
theorem exists_readsAll_resolve_integers :
    ∃ rounds nesting items closing,
      let text := "(1 2) x".toList
      let inner := resolve text rounds (.ofList []) none nesting
      ReadsAll (inner (Slot.ofArgument (.scalar .int)).skeleton) ⟨1, 2, .none, []⟩ items closing ∧
        dispatch text rounds (.ofList []) inner (Slot.typed (.list (.scalar .int))).skeleton
            ⟨0, 2, .none, []⟩ =
          (Step.symbol text rounds ")" >>= fun _ ↦
            pure (.node (.typed (.list (.scalar .int))) none items)) closing := by
  obtain ⟨bound, hbound⟩ := (exists_readsAll_resolve [] none "(1 2) x" (.scalar .int)).2
  -- in a few rounds more the parenthesis is taken
  obtain ⟨-, -, -, -, hlist⟩ := hbound (bound + 2) bound (Nat.le_add_right bound 2) (Nat.le_refl bound)
  have hopened : Step.symbol "(1 2) x".toList (bound + 2) "(" ⟨0, 2, .none, []⟩ =
      some (some (), ⟨1, 2, .none, []⟩) := by
    rfl
  obtain ⟨items, closing, hreads, hdispatch⟩ := hlist ⟨0, 2, .none, []⟩ ⟨1, 2, .none, []⟩ hopened
  exact ⟨bound + 2, bound, items, closing, hreads, hdispatch⟩

end Formulary.Engine
