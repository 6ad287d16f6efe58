import Formulary.Proofs.Engine.Settling
import Formulary.Proofs.Form.Confinement
/-!
All arguments reach equally far. Whatever the type of an argument, and however deeply it is nested, what
is read for it is one form: a word, a string or a group, with the separators after it. So the arguments
that can be read from one offset all end at the same offset (`arguments_end_together`). The engine reads
none of them except where the text can be cut (`succeedsInText_resolve`). Main definition:
`Engine.SucceedsInText`.
-/

set_option autoImplicit false
set_option relaxedAutoImplicit false

namespace Formulary

open Text Place

/-- Arguments that are read from the same place end at the same place. -/
theorem after_eq_of_fill {catalog : Catalog}
    (hcatalog : ∀ base, ∀ operator ∈ catalog.operators base, operator.HasWordNames)
    {limit limit' room room' : Nat} {slot slot' : Slot} (hslot : slot.isArgument = true)
    (hslot' : slot'.isArgument = true) {place after after' : Place} {outline outline' : Outline}
    (h : (fill catalog limit room slot place).result = some (outline, after))
    (h' : (fill catalog limit' room' slot' place).result = some (outline', after')) :
    after = after' := by
  obtain ⟨form, hleads, hform⟩ := exists_spans_of_fill hcatalog hslot h
  obtain ⟨form', hleads', hform'⟩ := exists_spans_of_fill hcatalog hslot' h'
  exact hleads.eq_of_rest_eq hleads' (hform.unique hform' rfl).2

namespace Engine

variable {text : List Char} {rounds nesting : Nat} {α β : Type}

/-! ### Where arguments begin -/

/-- A step succeeds only from where the text can be cut. -/
def SucceedsInText (text : List Char) (run : Step α) : Prop :=
  ∀ state value after, run state = some (some value, after) → IsBoundary text state.cursor

theorem SucceedsInText.bind {run : Step α} (h : SucceedsInText text run) (next : α → Step β) :
    SucceedsInText text (run >>= next) := by
  intro state value after hrun
  obtain ⟨⟨found, middle⟩, hfound, hnext⟩ := Option.bind_eq_some_iff.mp hrun
  cases found with
  | none => cases hnext
  | some found => exact h state found middle hfound

theorem succeedsInText_fail (complaint : Complaint) :
    SucceedsInText text (Step.fail complaint : Step α) := by
  intro state value after h
  cases h

theorem succeedsInText_symbol (symbol : String) :
    SucceedsInText text (Step.symbol text rounds symbol) := by
  intro state value after h
  obtain ⟨eaten, heaten, -⟩ := Option.bind_eq_some_iff.mp h
  exact Cursor.isBoundary_of_eat heaten

theorem succeedsInText_literal (kind : Scalar) :
    SucceedsInText text (Step.literal text rounds kind) := by
  intro state value after h
  obtain ⟨read, hread, -⟩ := Option.bind_eq_some_iff.mp h
  exact Cursor.isBoundary_of_literal hread

/-- An alternative that fails sets the cursor back, which it can only where the text can be cut. -/
theorem succeedsInText_firstOf {steps : List (Step α)} (h : ∀ step ∈ steps, SucceedsInText text step) :
    SucceedsInText text (Step.firstOf text steps) := by
  cases steps with
  | nil =>
    intro state value after hrun
    cases hrun
  | cons step steps =>
    intro state value after hrun
    obtain ⟨attempted, hattempt, -⟩ := Option.bind_eq_some_iff.mp hrun
    obtain ⟨⟨found, middle⟩, hfound, hrest⟩ := Option.bind_eq_some_iff.mp hattempt
    cases found with
    | some found => exact h step List.mem_cons_self state found middle hfound
    | none =>
      obtain ⟨back, hback, -⟩ := Option.bind_eq_some_iff.mp hrest
      obtain ⟨rest, hcut, -⟩ := Option.map_eq_some_iff.mp hback
      exact (Cursor.rest?_eq_some_iff.mp hcut).isBoundary

/-- What comes after a step that leaves the cursor where it is begins there as well. -/
theorem SucceedsInText.behind {run : Step α} {next : α → Step β}
    (hrun : ∀ state value after, run state = some (some value, after) → after.cursor = state.cursor)
    (hnext : ∀ value, SucceedsInText text (next value)) : SucceedsInText text (run >>= next) := by
  intro state value after h
  obtain ⟨⟨found, middle⟩, hfound, hrest⟩ := Option.bind_eq_some_iff.mp h
  cases found with
  | none => cases hrest
  | some found =>
    rw [← hrun state found middle hfound]
    exact hnext found middle value after hrest

theorem SucceedsInText.deeper {run : Step α} (h : SucceedsInText text run) :
    SucceedsInText text (Step.deeper run) := by
  intro state value after hrun
  obtain ⟨⟨found, last⟩, hfound, hsame⟩ := Option.bind_eq_some_iff.mp hrun
  obtain rfl : found = some value := (Prod.mk.inj (Option.some.inj hsame)).1
  exact h { state with depth := state.depth + 1 } value last hfound

theorem cursor_of_limited {limit : Option Nat} {state after : State} {value : Unit}
    (h : Step.limited limit state = some (some value, after)) : after.cursor = state.cursor := by
  unfold Step.limited at h
  split at h
  · cases h
    rfl
  · split at h
    · cases h
    · cases h
      rfl

theorem succeedsInText_resolve_succ {catalog : Catalog} {limit : Option Nat} {outline : Outline}
    (h : SucceedsInText text
      (dispatch text rounds catalog (resolve text rounds catalog limit nesting) outline)) :
    SucceedsInText text (resolve text rounds catalog limit (nesting + 1) outline) := by
  have hnote (state : State) (value : Unit) (after : State)
      (hrun : Step.note (.entered outline.slot) state = some (some value, after)) :
      after.cursor = state.cursor := by
    cases hrun
    rfl
  exact .behind hnote fun _ ↦ .behind (fun _ _ _ ↦ cursor_of_limited) fun _ ↦ h.deeper.bind _

/-- An argument is read only from where the text can be cut. -/
theorem succeedsInText_resolve (catalog : Catalog) (limit : Option Nat) {slot : Slot}
    (hslot : slot.isArgument = true) :
    SucceedsInText text (resolve text rounds catalog limit nesting slot.skeleton) := by
  induction nesting generalizing slot with
  | zero =>
    intro state value after h
    cases h
  | succ nesting ih =>
    refine succeedsInText_resolve_succ ?_
    cases slot with
    | root | keywords | operator | keyword => cases hslot
    | call base => exact (succeedsInText_symbol "(").bind _
    | choice kind =>
      refine SucceedsInText.bind (succeedsInText_firstOf ?_) _
      exact List.forall_mem_cons.mpr ⟨ih rfl, List.forall_mem_singleton.mpr (ih rfl)⟩
    | typed type =>
      cases type with
      | scalar kind => exact (succeedsInText_literal kind).bind _
      | series => exact succeedsInText_fail _
      | list element => exact (succeedsInText_symbol "(").bind _
      | union alternatives =>
        change SucceedsInText text (dispatch text rounds catalog _
          (.node (.typed (.union alternatives)) none []))
        rw [dispatch]
        split
        · exact succeedsInText_fail _
        · refine SucceedsInText.bind (succeedsInText_firstOf (List.forall_mem_map.mpr ?_)) _
          exact fun type _ ↦ ih (Slot.isArgument_ofArgument type)

/-! ### Where arguments end -/

/-- What the engine reads for an argument from some offset is read at the place there. -/
theorem exists_fill_of_resolve {operators : List Operator} {limit : Option Nat} {slot : Slot}
    (hslot : slot.isArgument = true) (hrounds : enough operators limit text slot ≤ rounds)
    (hnesting : enough operators limit text slot ≤ nesting) {state after : State} {outline : Outline}
    (h : resolve text rounds (.ofList operators) limit nesting slot.skeleton state =
      some (some outline, after)) :
    ∃ place room stop, Within text place ∧ place.offset = state.cursor ∧
      (fill (.ofList operators) (limit.getD 0) room slot place).result = some (outline, stop) ∧
      after.cursor = stop.offset := by
  unfold enough at hrounds hnesting
  obtain ⟨place, hplace, hcursor⟩ :=
    (succeedsInText_resolve _ _ hslot state outline after h).exists_within
  have hroom (hnone : limit = none) :
      slot.need (Catalog.ofList operators).depth (text.count '(') ≤ room limit nesting state.depth := by
    subst hnone
    simp only [room, Option.map_none, Option.getD_none]
    omega
  have hfollows := @Cursor.follows_fill_limited text rounds (.ofList operators) limit
    (room limit nesting state.depth) slot
  have hshort : place.rest.length < rounds := Nat.lt_of_le_of_lt hplace.length_le (by omega)
  obtain ⟨stop, hends⟩ := hfollows.ends place hplace hshort fun event hevent hnone ↦
    Cursor.isTooDeep_fill_of_within (hroom hnone) hplace event hevent
  have hlifts : Lifts id (resolve text rounds (.ofList operators) limit nesting slot.skeleton) state.depth
      (Cursor.fill text rounds (.ofList operators) limit (room limit nesting state.depth) slot) := by
    refine lifts_resolve (fun most hmost ↦ ?_) (Slot.starts_skeleton slot)
    rw [hmost, Option.getD_some] at hnesting
    omega
  have hfound := hends.found
  rw [hcursor] at hfound
  have hresolve := hlifts state rfl _ _ stop hfound
  rw [h, Option.map_id, id_eq] at hresolve
  obtain ⟨hresult, rfl⟩ := Prod.mk.inj (Option.some.inj hresolve)
  obtain ⟨⟨_, last⟩, hread, rfl⟩ := Option.map_eq_some_iff.mp hresult.symm
  exact ⟨place, _, last, hplace, hcursor, hread, hends.offset _ last hread⟩

/-- Arguments that the engine reads from the same offset leave the cursor at the same offset. -/
theorem cursor_eq_of_resolve {operators : List Operator}
    (hnames : ∀ operator ∈ operators, operator.HasWordNames) {limit : Option Nat} {slot slot' : Slot}
    (hslot : slot.isArgument = true) (hslot' : slot'.isArgument = true)
    (hbound : max (enough operators limit text slot) (enough operators limit text slot') ≤
      min rounds nesting)
    {state state' after after' : State} {outline outline' : Outline}
    (hcursor : state.cursor = state'.cursor)
    (h : resolve text rounds (.ofList operators) limit nesting slot.skeleton state =
      some (some outline, after))
    (h' : resolve text rounds (.ofList operators) limit nesting slot'.skeleton state' =
      some (some outline', after')) :
    after.cursor = after'.cursor := by
  obtain ⟨place, room, stop, hplace, hoffset, hread, hstop⟩ :=
    exists_fill_of_resolve hslot (by omega) (by omega) h
  obtain ⟨place', room', stop', hplace', hoffset', hread', hstop'⟩ :=
    exists_fill_of_resolve hslot' (by omega) (by omega) h'
  obtain rfl : place = place' := Cursor.eq_of_within hplace hplace' (by omega)
  have hsame := after_eq_of_fill (Catalog.forall_mem_operators hnames) hslot hslot' hread hread'
  rw [hstop, hstop', hsame]

/-- Arguments of any two types that are read from the same place, in whatever room is left for them, end
at the same place. So do those that the engine reads from the same offset at whatever depths, with
enough rounds and enough slots inside one another. -/
theorem arguments_end_together {operators : List Operator}
    (hnames : ∀ operator ∈ operators, operator.HasWordNames) (limit : Option Nat) (text : List Char)
    (first second : ArgType) :
    (∀ most most' room room' place outline outline' after after',
      (fill (.ofList operators) most room (.ofArgument first) place).result =
        some (outline, after) →
      (fill (.ofList operators) most' room' (.ofArgument second) place).result =
        some (outline', after') →
      after = after') ∧
    (∀ rounds nesting,
      max (enough operators limit text (.ofArgument first))
        (enough operators limit text (.ofArgument second)) ≤ min rounds nesting →
      ∀ state state' outline outline' after after', state.cursor = state'.cursor →
        resolve text rounds (.ofList operators) limit nesting (Slot.ofArgument first).skeleton state =
          some (some outline, after) →
        resolve text rounds (.ofList operators) limit nesting (Slot.ofArgument second).skeleton state' =
          some (some outline', after') →
        after.cursor = after'.cursor) := by
  have hfirst := Slot.isArgument_ofArgument first
  have hsecond := Slot.isArgument_ofArgument second
  refine ⟨fun most most' room room' place outline outline' after after' hread hread' ↦ ?_,
    fun rounds nesting hbound state state' outline outline' after after' hcursor hrun hrun' ↦ ?_⟩
  · exact after_eq_of_fill (Catalog.forall_mem_operators hnames) hfirst hsecond hread hread'
  · exact cursor_eq_of_resolve hnames hfirst hsecond hbound hcursor hrun hrun'

theorem arguments_end_together_group :
    ∃ outline outline' after after',
      resolve "(x) ) 3".toList 50 (.ofList [Cursor.constantSeries]) none 50
        (Slot.ofArgument .series).skeleton ⟨0, 0, .none, []⟩ = some (some outline, after) ∧
      resolve "(x) ) 3".toList 50 (.ofList [Cursor.constantSeries]) none 50
        (Slot.ofArgument (.union [.scalar .int, .series])).skeleton ⟨0, 7, .none, []⟩ =
          some (some outline', after') ∧
      after.cursor = after'.cursor := by
  have hread : ((resolve "(x) ) 3".toList 50 (.ofList [Cursor.constantSeries]) none 50
      (Slot.ofArgument .series).skeleton ⟨0, 0, .none, []⟩).bind Prod.fst).isSome = true := by
    decide +kernel
  have hread' : ((resolve "(x) ) 3".toList 50 (.ofList [Cursor.constantSeries]) none 50
      (Slot.ofArgument (.union [.scalar .int, .series])).skeleton ⟨0, 7, .none, []⟩).bind
        Prod.fst).isSome = true := by
    decide +kernel
  obtain ⟨outline, houtline⟩ := Option.isSome_iff_exists.mp hread
  obtain ⟨outline', houtline'⟩ := Option.isSome_iff_exists.mp hread'
  obtain ⟨⟨_, after⟩, hrun, rfl⟩ := Option.bind_eq_some_iff.mp houtline
  obtain ⟨⟨_, after'⟩, hrun', rfl⟩ := Option.bind_eq_some_iff.mp houtline'
  have hcursor : (State.mk 0 0 .none []).cursor = (State.mk 0 7 .none []).cursor := rfl
  have hnames : ∀ operator ∈ [Cursor.constantSeries], operator.HasWordNames := by decide +kernel
  exact ⟨outline, outline', after, after', hrun, hrun',
    (arguments_end_together hnames none "(x) ) 3".toList .series (.union [.scalar .int, .series])).2
      50 50 (by decide +kernel) _ _ _ _ _ _ hcursor hrun hrun'⟩

end Engine

end Formulary
