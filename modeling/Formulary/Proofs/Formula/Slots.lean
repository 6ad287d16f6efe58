import Formulary.Formula
import Formulary.Proofs.Reading.Ensures
/-!
What a slot ensures, by the kind of the slot. Each kind has a rule that derives what the slot ensures
from what is ensured of its parts. What holds at a place is left open: parts that are read one after
the other keep it, and between parentheses it may be something else than behind them (`ensures_call`,
`ensures_list`). What every single step keeps is kept by every slot (`Upholds.fillParts`). Main
definitions: `Slot.choices`, the slots among which a slot is a choice, `Upholds` and `Keeps`.
-/

set_option autoImplicit false
set_option relaxedAutoImplicit false

namespace Formulary

open Text Reading

namespace Slot

/-- Whether a slot is the place of an argument, or one that an argument may be read as. -/
def isArgument : Slot → Bool
  | .call _ | .choice _ | .typed _ => true
  | .root _ | .keywords _ | .operator _ | .keyword _ => false

theorem isArgument_ofArgument (type : ArgType) : (ofArgument type).isArgument = true := by
  cases type <;> rfl

/-- Whether a slot is the place of a whole formula. -/
def isRoot : Slot → Bool
  | .root _ => true
  | .call _ | .choice _ | .typed _ | .keywords _ | .operator _ | .keyword _ => false

theorem isRoot_of_isArgument {slot : Slot} (h : slot.isArgument = true) : slot.isRoot = false := by
  cases slot <;> first | rfl | exact nomatch h

theorem isRoot_ofArgument (type : ArgType) : (ofArgument type).isRoot = false :=
  isRoot_of_isArgument (isArgument_ofArgument type)

theorem isRoot_of_mem_slots {chosen : Operator} {slot : Slot} (h : slot ∈ chosen.slots) :
    slot.isRoot = false := by
  rcases List.mem_append.mp h with hparameter | hgroup
  · obtain ⟨type, -, rfl⟩ := List.mem_map.mp hparameter
    exact isRoot_ofArgument type
  · split at hgroup
    · exact absurd hgroup List.not_mem_nil
    · rw [List.mem_singleton.mp hgroup]
      rfl

/-- The elements of a list stand in the slots of their one type. -/
theorem map_const_ofArgument (element : ArgType) (parts : List Outline) :
    (parts.map fun _ ↦ ofArgument element) = (parts.map fun _ ↦ element).map .ofArgument := by
  rw [List.map_map]
  rfl

/-- The slots of which a slot stands for the first that can be read. -/
def choices : Slot → List Slot
  | .choice kind => [.typed (.scalar kind), .call (.scalar kind)]
  | .typed (.union alternatives) => alternatives.map .ofArgument
  | _ => []

/-- A slot without alternatives stands for none of them. -/
theorem choices_ne_append {slot choice : Slot} {earlier later : List Slot} (h : slot.choices = []) :
    slot.choices ≠ earlier ++ choice :: later := by
  simp [h]

theorem isArgument_of_mem_choices {slot part : Slot} (h : part ∈ slot.choices) :
    part.isArgument = true ∧ slot.isArgument = true := by
  unfold choices at h
  split at h
  · simp only [List.mem_cons, List.not_mem_nil, or_false] at h
    rcases h with rfl | rfl <;> exact ⟨rfl, rfl⟩
  · obtain ⟨type, -, rfl⟩ := List.mem_map.mp h
    exact ⟨isArgument_ofArgument type, rfl⟩
  · exact absurd h List.not_mem_nil

end Slot

/-- The step that takes an operator by its name. -/
def named (operator : Operator) : Reading Operator := do
  word operator.name
  pure operator

variable {catalog : Catalog} {inner : Slot → Reading Outline} {slot : Slot}

/-- A slot with alternatives is read as the first of them that can be read. -/
theorem fillParts_of_choices (h : slot.choices ≠ []) :
    fillParts catalog inner slot =
      (do let part ← firstOf (slot.choices.map inner); pure (.node slot none [part])) := by
  unfold Slot.choices at h ⊢
  split at h
  · rfl
  · rename_i alternatives
    have hsome : alternatives.isEmpty = false := by simpa using h
    simp only [fillParts, hsome, List.map_map]
    rfl
  · exact absurd rfl h

/-! ### Slots without parentheses -/

section Rules

variable {place : Place} {allowed : Event → Prop} {invariant final : Place → Prop}

theorem ensures_root {base : Base}
    (hpart : Ensures (inner (.call base)) place allowed fun _ after ↦ invariant after)
    (hfailed : ∀ after, invariant after → allowed (.failed ⟨after.offset, .expectingEnd⟩)) :
    Ensures (fillParts catalog inner (.root base)) place allowed fun _ after ↦ invariant after := by
  refine ensures_bind hpart fun part after hafter ↦ ?_
  have hend : Ensures atEnd after allowed fun _ last ↦ invariant last :=
    ensures_atEnd (hfailed after hafter) fun _ ↦ hafter
  exact ensures_bind_pure hend

theorem ensures_chosen (hslot : slot.choices ≠ [])
    (hbacktracked : allowed (.backtracked place.offset))
    (h : ∀ part ∈ slot.choices, Ensures (inner part) place allowed fun _ after ↦ final after) :
    Ensures (fillParts catalog inner slot) place allowed fun _ after ↦ final after := by
  have hparts : Ensures (firstOf (slot.choices.map inner)) place allowed fun _ after ↦
      final after := by
    refine ensures_firstOf hbacktracked fun step hstep ↦ ?_
    obtain ⟨part, hpart, rfl⟩ := List.mem_map.mp hstep
    exact h part hpart
  rw [fillParts_of_choices hslot]
  exact ensures_bind_pure hparts

/-- What holds where a group of keyword arguments starts, and is kept by each of them, holds where the
group ends. -/
theorem ensures_readSupplied {group : List Keyword}
    (hbacktracked : ∀ place, invariant place → allowed (.backtracked place.offset))
    (hduplicate : ∀ own ∈ group, ∀ place, invariant place →
      allowed (.failed ⟨place.offset, .duplicateKeyword own.marker⟩))
    (hinner : ∀ keyword ∈ group, ∀ place, invariant place →
      Ensures (inner (.keyword keyword)) place allowed fun _ after ↦ invariant after)
    (bound : Nat) (supplied : List (String × Outline)) (hplace : invariant place) :
    Ensures (readSupplied inner group bound supplied) place allowed fun _ after ↦
      invariant after := by
  induction bound generalizing supplied place with
  | zero => exact ensures_pure hplace
  | succ bound ih =>
    have hround : Ensures (optionally (firstOf (group.map fun keyword ↦ do
        let outline ← inner (.keyword keyword)
        pure (keyword, outline)))) place allowed fun found after ↦
          (∀ pair ∈ found, pair.1 ∈ group) ∧ invariant after := by
      refine ensures_optionally (ensures_firstOf (hbacktracked place hplace) ?_) ⟨by simp, hplace⟩
      intro step hstep
      obtain ⟨keyword, hkeyword, rfl⟩ := List.mem_map.mp hstep
      exact ensures_bind_pure ((hinner keyword hkeyword place hplace).mono
        fun _ after hafter ↦ ⟨by simpa using hkeyword, hafter⟩)
    refine ensures_bind hround fun found after ⟨hfound, hafter⟩ ↦ ?_
    cases found with
    | none => exact ensures_pure hafter
    | some pair =>
      obtain ⟨own, outline⟩ := pair
      dsimp only
      split
      · exact ensures_fail (hduplicate own (hfound _ rfl) after hafter)
      · exact ih _ hafter

theorem ensures_keywords {group : List Keyword} (hplace : invariant place)
    (hbacktracked : ∀ place, invariant place → allowed (.backtracked place.offset))
    (hduplicate : ∀ own ∈ group, ∀ place, invariant place →
      allowed (.failed ⟨place.offset, .duplicateKeyword own.marker⟩))
    (hinner : ∀ keyword ∈ group, ∀ place, invariant place →
      Ensures (inner (.keyword keyword)) place allowed fun _ after ↦ invariant after) :
    Ensures (fillParts catalog inner (.keywords group)) place allowed fun _ after ↦
      invariant after := by
  have hremaining : Ensures remaining place allowed fun _ middle ↦ invariant middle :=
    ensures_remaining hplace
  refine ensures_bind hremaining fun bound middle hmiddle ↦ ?_
  exact ensures_bind_pure
    (ensures_readSupplied hbacktracked hduplicate hinner (bound + 1) [] hmiddle)

theorem ensures_operator {chosen : Operator} (hplace : invariant place)
    (hinner : ∀ slot ∈ chosen.slots, ∀ place, invariant place →
      Ensures (inner slot) place allowed fun _ after ↦ invariant after) :
    Ensures (fillParts catalog inner (.operator chosen)) place allowed fun _ after ↦
      invariant after := by
  have hparts : Ensures (inOrder (chosen.slots.map inner)) place allowed fun _ after ↦
      invariant after := by
    refine ensures_inOrder hplace fun step hstep ↦ ?_
    obtain ⟨slot, hslot, rfl⟩ := List.mem_map.mp hstep
    exact hinner slot hslot
  exact ensures_bind_pure hparts

theorem ensures_keyword {own : Keyword}
    (hmarker : Ensures (word own.marker) place allowed fun _ announced ↦ invariant announced)
    (hvalue : ∀ announced, invariant announced →
      Ensures (inner (.ofArgument own.type)) announced allowed fun _ after ↦ final after) :
    Ensures (fillParts catalog inner (.keyword own)) place allowed fun _ after ↦ final after :=
  ensures_bind hmarker fun _ announced hannounced ↦ ensures_bind_pure (hvalue announced hannounced)

/-! ### Slots with parentheses -/

variable {inside behind : Place → Prop}

/-- Inside the parentheses of an operator something may hold behind its name that does not yet hold in
front of it. -/
theorem ensures_call {base : Base}
    (hopen : Ensures (symbol "(") place allowed fun _ opened ↦ inside opened)
    (hfailed : catalog.operators base = [] → ∀ middle, inside middle →
      allowed (.failed ⟨middle.offset, .noOperator base⟩))
    (hbacktracked : ∀ middle, inside middle → allowed (.backtracked middle.offset))
    (hname : ∀ operator ∈ catalog.operators base, ∀ middle, inside middle →
      Ensures (word operator.name) middle allowed fun _ after ↦ behind after)
    (hpart : ∀ operator ∈ catalog.operators base, ∀ middle, behind middle →
      Ensures (inner (.operator operator)) middle allowed fun _ after ↦ behind after)
    (hclose : ∀ middle, behind middle →
      Ensures (symbol ")") middle allowed fun _ after ↦ final after) :
    Ensures (fillParts catalog inner (.call base)) place allowed fun _ after ↦ final after := by
  refine ensures_bind hopen fun _ opened hopened ↦ ?_
  dsimp only
  split
  · rename_i hnone
    exact ensures_fail (hfailed (List.isEmpty_iff.mp hnone) opened hopened)
  · have hchosen : Ensures (firstOf ((catalog.operators base).map named)) opened allowed
        fun operator after ↦ operator ∈ catalog.operators base ∧ behind after := by
      refine ensures_firstOf (hbacktracked opened hopened) fun step hstep ↦ ?_
      obtain ⟨operator, hoperator, rfl⟩ := List.mem_map.mp hstep
      exact ensures_bind_pure ((hname operator hoperator opened hopened).mono
        fun _ after hafter ↦ ⟨hoperator, hafter⟩)
    refine ensures_bind hchosen fun operator named ⟨hoperator, hnamed⟩ ↦ ?_
    refine ensures_bind (hpart operator hoperator named hnamed) fun part closing hclosing ↦ ?_
    exact ensures_bind_pure (hclose closing hclosing)

theorem ensures_list {element : ArgType}
    (hopen : Ensures (symbol "(") place allowed fun _ opened ↦ inside opened)
    (hbacktracked : ∀ middle, inside middle → allowed (.backtracked middle.offset))
    (hpart : ∀ middle, inside middle →
      Ensures (inner (.ofArgument element)) middle allowed fun _ after ↦ inside after)
    (hclose : ∀ middle, inside middle →
      Ensures (symbol ")") middle allowed fun _ after ↦ final after) :
    Ensures (fillParts catalog inner (.typed (.list element))) place allowed fun _ after ↦
      final after := by
  refine ensures_bind hopen fun _ opened hopened ↦ ?_
  have hremaining : Ensures remaining opened allowed fun _ middle ↦ inside middle :=
    ensures_remaining hopened
  refine ensures_bind hremaining fun bound middle hmiddle ↦ ?_
  refine ensures_bind (ensures_repeatedly hmiddle hbacktracked hpart (bound + 1))
    fun parts closing hclosing ↦ ?_
  exact ensures_bind_pure (hclose closing hclosing)

/-! ### What all slots keep -/

/-- Whether a complaint is about the characters of a timestamp, which no slot complains about on its own. -/
def Complaint.isInvalidTimestamp : Complaint → Bool
  | .invalidTimestamp _ => true
  | _ => false

/-- Something holds of places and is kept by every single step that moves on. Where it holds, all that these
steps note is allowed, and so is all else that may happen there besides. -/
structure Upholds (allowed : Event → Prop) (invariant : Place → Prop) : Prop where
  symbol : ∀ (text : String) {place : Place}, invariant place →
    Ensures (Reading.symbol text) place allowed fun _ after ↦ invariant after
  word : ∀ (text : String) {place : Place}, invariant place →
    Ensures (Reading.word text) place allowed fun _ after ↦ invariant after
  literal : ∀ (kind : Scalar) {place : Place}, invariant place →
    Ensures (Reading.literal kind) place allowed fun _ after ↦ invariant after
  failed : ∀ {complaint : Complaint}, complaint.isInvalidTimestamp = false → ∀ {place : Place},
    invariant place → allowed (.failed ⟨place.offset, complaint⟩)
  backtracked : ∀ {place : Place}, invariant place → allowed (.backtracked place.offset)

/-- What is kept by the parts of a slot, none of which is a whole formula, is kept by the slot. -/
theorem Upholds.fillParts (hupholds : Upholds allowed invariant) (catalog : Catalog)
    (hinner : ∀ part, part.isRoot = false → ∀ place, invariant place →
      Ensures (inner part) place allowed fun _ after ↦ invariant after)
    (slot : Slot) (hplace : invariant place) :
    Ensures (fillParts catalog inner slot) place allowed fun _ after ↦ invariant after := by
  by_cases hslot : slot.choices = []
  · cases slot with
    | root base =>
      exact ensures_root (hinner _ rfl place hplace) fun _ hafter ↦ hupholds.failed rfl hafter
    | call base =>
      exact ensures_call (hupholds.symbol "(" hplace) (fun _ _ hmiddle ↦ hupholds.failed rfl hmiddle)
        (fun _ hmiddle ↦ hupholds.backtracked hmiddle)
        (fun operator _ _ hmiddle ↦ hupholds.word operator.name hmiddle)
        (fun _ _ ↦ hinner _ rfl) fun _ hmiddle ↦ hupholds.symbol ")" hmiddle
    | choice kind => exact absurd hslot (List.cons_ne_nil _ _)
    | typed type =>
      cases type with
      | scalar kind => exact ensures_bind_pure (hupholds.literal kind hplace)
      | series => exact ensures_fail (hupholds.failed rfl hplace)
      | union alternatives =>
        obtain rfl : alternatives = [] := List.map_eq_nil_iff.mp hslot
        exact ensures_fail (hupholds.failed rfl hplace)
      | list element =>
        exact ensures_list (hupholds.symbol "(" hplace) (fun _ hmiddle ↦ hupholds.backtracked hmiddle)
          (hinner _ (Slot.isRoot_ofArgument element)) fun _ hmiddle ↦ hupholds.symbol ")" hmiddle
    | keywords group =>
      exact ensures_keywords hplace (fun _ hmiddle ↦ hupholds.backtracked hmiddle)
        (fun _ _ _ hmiddle ↦ hupholds.failed rfl hmiddle) fun _ _ ↦ hinner _ rfl
    | operator chosen =>
      exact ensures_operator hplace fun part hpart ↦ hinner part (Slot.isRoot_of_mem_slots hpart)
    | keyword own =>
      exact ensures_keyword (hupholds.word own.marker hplace) (hinner _ (Slot.isRoot_ofArgument _))
  · refine ensures_chosen hslot (hupholds.backtracked hplace) fun part hpart ↦ ?_
    exact hinner part (Slot.isRoot_of_isArgument (Slot.isArgument_of_mem_choices hpart).1) place hplace

/-- Something holds of places and is kept by every single step that moves on, and allowed is whatever
happens where it holds. -/
structure Keeps (allowed : Event → Prop) (invariant : Place → Prop) : Prop where
  symbol : ∀ (text : String) {place : Place}, invariant place →
    Ensures (Reading.symbol text) place allowed fun _ after ↦ invariant after
  word : ∀ (text : String) {place : Place}, invariant place →
    Ensures (Reading.word text) place allowed fun _ after ↦ invariant after
  literal : ∀ (kind : Scalar) {place : Place}, invariant place →
    Ensures (Reading.literal kind) place allowed fun _ after ↦ invariant after
  failed : ∀ (complaint : Complaint) {place : Place}, invariant place →
    allowed (.failed ⟨place.offset, complaint⟩)
  backtracked : ∀ {place : Place}, invariant place → allowed (.backtracked place.offset)

theorem Keeps.upholds (hkeeps : Keeps allowed invariant) : Upholds allowed invariant :=
  ⟨hkeeps.symbol, hkeeps.word, hkeeps.literal, fun _ _ hplace ↦ hkeeps.failed _ hplace,
    hkeeps.backtracked⟩

theorem Keeps.fillParts (hkeeps : Keeps allowed invariant) (catalog : Catalog)
    (hinner : ∀ part, part.isRoot = false → ∀ place, invariant place →
      Ensures (inner part) place allowed fun _ after ↦ invariant after)
    (slot : Slot) (hplace : invariant place) :
    Ensures (fillParts catalog inner slot) place allowed fun _ after ↦ invariant after :=
  hkeeps.upholds.fillParts catalog hinner slot hplace

/-! ### Slots in some room -/

theorem ensures_fill_zero {limit : Nat} {property : Outline → Place → Prop}
    (hentered : allowed (.entered slot place.offset))
    (hfailed : allowed (.failed ⟨place.offset, .tooDeep limit⟩)) :
    Ensures (fill catalog limit 0 slot) place allowed property := by
  have hnote : Ensures (note (.entered slot)) place allowed fun _ after ↦ after = place :=
    ensures_note hentered rfl
  refine ensures_bind hnote fun _ _ hsame ↦ ?_
  subst hsame
  exact ensures_fail hfailed

/-- A slot ensures what its parts ensure, if the entries in the journal about the slot itself are
allowed. -/
theorem ensures_fill_of_parts {limit room : Nat} {property : Outline → Place → Prop}
    (hentered : allowed (.entered slot place.offset))
    (hparts : Ensures (fillParts catalog (fill catalog limit room) slot) place allowed
      fun outline after ↦ allowed (.filled outline after.offset) ∧ property outline after) :
    Ensures (fill catalog limit (room + 1) slot) place allowed property := by
  have hnote : Ensures (note (.entered slot)) place allowed fun _ after ↦ after = place :=
    ensures_note hentered rfl
  refine ensures_bind hnote fun _ _ hsame ↦ ?_
  subst hsame
  refine ensures_bind hparts.nested fun outline after hafter ↦ ?_
  have hfilled : Ensures (note (.filled outline)) after allowed fun _ last ↦ property outline last :=
    ensures_note hafter.1 hafter.2
  exact ensures_bind_pure hfilled

end Rules

section Rooms

variable {limit room : Nat} {place : Place}

/-- A slot for which there is room is read as its parts are. -/
theorem result_fill_succ (catalog : Catalog) (limit room : Nat) (slot : Slot) (place : Place) :
    (fill catalog limit (room + 1) slot place).result =
      (fillParts catalog (fill catalog limit room) slot place).result := by
  have hnested : (nested (fillParts catalog (fill catalog limit room) slot) place).result =
      (fillParts catalog (fill catalog limit room) slot place).result := rfl
  rw [fill, result_bind, note, Option.bind_some, result_bind, hnested]
  cases (fillParts catalog (fill catalog limit room) slot place).result <;> rfl

/-- A slot of which the parts cannot be read is entered, but not filled. -/
theorem events_fill_of_none
    (h : (fillParts catalog (fill catalog limit room) slot place).result = none) :
    (fill catalog limit (room + 1) slot place).events =
      .entered slot place.offset ::
        (fillParts catalog (fill catalog limit room) slot place).events := by
  have hnested : (nested (fillParts catalog (fill catalog limit room) slot) place).result = none := h
  rw [fill, bind_eq_of_some rfl, bind_eq_of_none hnested, Outcome.events, Journal.events_joined]
  rfl

/-- A slot is entered before its parts are read, and filled where they end. -/
theorem events_fill_of_some {outline : Outline} {after : Place}
    (h : (fillParts catalog (fill catalog limit room) slot place).result = some (outline, after)) :
    (fill catalog limit (room + 1) slot place).events =
      .entered slot place.offset ::
        ((fillParts catalog (fill catalog limit room) slot place).events ++
          [.filled outline after.offset]) := by
  have hnested : (nested (fillParts catalog (fill catalog limit room) slot) place).result =
      some (outline, after) := h
  rw [fill, bind_eq_of_some rfl, bind_eq_of_some hnested, bind_eq_of_some rfl]
  simp only [Outcome.events, Journal.events_joined]
  rfl

/-- What happens while the parts of a slot are read happens while the slot is read. -/
theorem mem_events_fill {event : Event}
    (h : event ∈ (fillParts catalog (fill catalog limit room) slot place).events) :
    event ∈ (fill catalog limit (room + 1) slot place).events := by
  cases hresult : (fillParts catalog (fill catalog limit room) slot place).result with
  | none =>
    rw [events_fill_of_none hresult]
    exact List.mem_cons_of_mem _ h
  | some found =>
    rw [events_fill_of_some hresult]
    exact List.mem_cons_of_mem _ (List.mem_append_left _ h)

end Rooms

end Formulary
