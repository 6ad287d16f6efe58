import Formulary.Proofs.Cursor.Basic
import Formulary.Proofs.Form.Sequence
import Formulary.Proofs.Formula.Discipline
import Formulary.Proofs.Formula.Parts
import Formulary.Proofs.Formula.Room
import Formulary.Proofs.Reading.Trace
/-!
What can be watched of the reading of a formula. Whatever is shown happens where a token stands or at
the end of the text: a literal that goes wrong in its middle only fails there, and the reading is back
where the alternative began before it says so (`keeps_atToken`). Each slot is entered before it is
filled, and what was entered in between is filled or given up (`unfolds_fill`). A formula can be read
exactly if the last event is that the slot of the whole formula is filled, since that slot is in no
other one (`shown_readFormula`). Main definitions: `IsTokenOffset` and `AtToken`.
-/

set_option autoImplicit false
set_option relaxedAutoImplicit false

namespace Formulary

open Text Place Reading

/-! ### Tokens -/

/-- The end of the text, or an offset at which a token stands. -/
def IsTokenOffset (text : List Char) (offset : Nat) : Prop :=
  ∃ before rest, text = before ++ rest ∧ offset = byteLength before ∧ BeginsToken rest

/-- A place in the text with a token or nothing behind it. -/
structure AtToken (text : List Char) (place : Place) : Prop where
  within : Within text place
  begins : BeginsToken place.rest

theorem AtToken.isTokenOffset {text : List Char} {place : Place} (h : AtToken text place) :
    IsTokenOffset text place.offset := by
  obtain ⟨before, htext, hoffset⟩ := h.within
  exact ⟨before, place.rest, htext, hoffset, h.begins⟩

theorem AtToken.of_leads {text : List Char} {place after : Place} (h : AtToken text place)
    (hleads : Leads place after) : AtToken text after.skipSeparators :=
  ⟨h.within.of_leads (hleads.trans (leads_skipSeparators after)),
    beginsToken_dropSeparators after.rest⟩

/-! ### Where events are shown -/

/-- Whether an event says that the slot of a whole formula is filled. -/
def Event.fillsRoot : Event → Bool
  | .filled outline _ => outline.slot.isRoot
  | .entered _ _ | .backtracked _ | .failed _ => false

/-- An event that may be shown while the parts of a formula are read. -/
def Event.IsOfPart (text : List Char) (event : Event) : Prop :=
  event.isShown = true → IsTokenOffset text event.offset ∧ event.fillsRoot = false

section Parts

variable {text : List Char} {place : Place}

theorem ensures_atToken_move {advance : Place → Option Place} {complaint : Complaint}
    (hplace : AtToken text place)
    (hadvance : ∀ after, advance place = some after → Leads place after) :
    Ensures (move advance complaint) place (Event.IsOfPart text) fun _ after ↦ AtToken text after :=
  ensures_move nofun fun after hafter ↦ hplace.of_leads (hadvance after hafter)

/-- Every step that moves on moves past separators, and where a step fails it does not stay. -/
theorem keeps_atToken (text : List Char) : Keeps (Event.IsOfPart text) (AtToken text) where
  symbol _ _ hplace := ensures_atToken_move hplace fun _ heaten ↦ leads_of_eat? heaten
  word _ _ hplace :=
    ensures_atToken_move hplace fun _ hnamed ↦ leads_of_eat? (word?_eq_some_iff.mp hnamed).1
  literal _ _ hplace := ensures_literal (fun _ _ ↦ nofun) fun _ _ hvalue ↦
    hplace.of_leads (advances_of_readLiteral hvalue).1
  failed _ _ _ := nofun
  backtracked hplace _ := ⟨hplace.isTokenOffset, rfl⟩

/-- What is read for a slot is an outline of it. -/
theorem slot_of_fillParts {catalog : Catalog} {limit room : Nat} {slot : Slot} {place after : Place}
    {outline : Outline}
    (h : (fillParts catalog (fill catalog limit room) slot place).result = some (outline, after)) :
    outline.slot = slot := by
  rw [← result_fill_succ] at h
  cases result_fill_succ_iff.mp h <;> rfl

/-- The parts of a slot are read where tokens stand. -/
theorem ensures_atToken_fill (catalog : Catalog) (limit room : Nat) {slot : Slot}
    (hslot : slot.isRoot = false) (hplace : AtToken text place) :
    Ensures (fill catalog limit room slot) place (Event.IsOfPart text) fun _ after ↦
      AtToken text after := by
  induction room generalizing slot place with
  | zero => exact ensures_fill_zero (fun _ ↦ ⟨hplace.isTokenOffset, rfl⟩) nofun
  | succ room ih =>
    have hparts := (keeps_atToken text).fillParts catalog
      (fun _ hpart _ hmiddle ↦ ih hpart hmiddle) slot hplace
    refine ensures_fill_of_parts (fun _ ↦ ⟨hplace.isTokenOffset, rfl⟩)
      ⟨hparts.events, fun outline after hresult ↦ ?_⟩
    have hafter := hparts.result outline after hresult
    refine ⟨fun _ ↦ ⟨hafter.isTokenOffset, ?_⟩, hafter⟩
    rw [Event.fillsRoot, slot_of_fillParts hresult, hslot]

end Parts

/-! ### Slots inside one another -/

section Slots

variable {catalog : Catalog} {limit room : Nat} {slot : Slot} {place : Place}

theorem shown_fill_of_none
    (h : (fillParts catalog (fill catalog limit room) slot place).result = none) :
    (fill catalog limit (room + 1) slot place).shown =
      .entered slot place.offset ::
        (fillParts catalog (fill catalog limit room) slot place).shown := by
  rw [Outcome.shown, events_fill_of_none h]
  rfl

theorem shown_fill_of_some {outline : Outline} {after : Place}
    (h : (fillParts catalog (fill catalog limit room) slot place).result = some (outline, after)) :
    (fill catalog limit (room + 1) slot place).shown =
      .entered slot place.offset ::
        ((fillParts catalog (fill catalog limit room) slot place).shown ++
          [.filled outline after.offset]) := by
  rw [Outcome.shown, events_fill_of_some h, List.filter_cons_of_pos rfl, List.filter_append]
  rfl

/-- How slots open and close, all steps agree on. -/
theorem unfolds_discipline : Discipline Unfolds where
  pure _ place := unfolds_of_hidden (ensures_pure (Nat.le_refl place.offset))
  reached place := unfolds_of_hidden (ensures_reached (Nat.le_refl place.offset))
  remaining place := unfolds_of_hidden (ensures_remaining (Nat.le_refl place.offset))
  fail _ _ := unfolds_of_hidden (ensures_fail rfl)
  symbol _ _ := unfolds_of_hidden (ensures_move rfl fun after hafter ↦
    ((leads_of_eat? hafter).trans (leads_skipSeparators after)).offset_le)
  word _ _ := unfolds_of_hidden (ensures_move rfl fun after hafter ↦
    ((leads_of_eat? (word?_eq_some_iff.mp hafter).1).trans (leads_skipSeparators after)).offset_le)
  literal _ _ := unfolds_of_hidden (ensures_literal (fun _ _ ↦ rfl) fun _ after hvalue ↦
    ((advances_of_readLiteral hvalue).1.trans (leads_skipSeparators after)).offset_le)
  atEnd place := unfolds_of_hidden (ensures_atEnd rfl fun _ ↦ Nat.le_refl place.offset)
  bind := unfolds_bind
  firstOf _ h := (recovers_firstOf h).toUnfolds
  optionally_firstOf h := unfolds_optionally (recovers_firstOf h)
  optionally_trying h := unfolds_optionally (recovers_trying h)

/-- A slot is entered, its parts are read, and if that does not fail it is filled. -/
theorem unfolds_fill (catalog : Catalog) (limit room : Nat) (slot : Slot) (place : Place) :
    Unfolds (fill catalog limit room slot) place := by
  induction room generalizing slot place with
  | zero =>
    refine ⟨?_, fun _ ↦ ⟨place.offset, _, unfolding_entered slot place.offset⟩⟩
    rintro _ _ ⟨⟩
  | succ room ih =>
    have hentered := unfolding_entered slot place.offset
    have hparts := unfolds_discipline.fillParts catalog ih slot place
    refine ⟨fun outline after hresult ↦ ?_, fun hresult ↦ ?_⟩ <;> rw [result_fill_succ] at hresult
    · rw [shown_fill_of_some hresult]
      have hbefore := hentered.append (hparts.reads outline after hresult)
      exact hbefore.filled (slot_of_fillParts hresult)
    · obtain ⟨stop, slots, hinside⟩ := hparts.fails hresult
      rw [shown_fill_of_none hresult]
      exact ⟨stop, _, hentered.append hinside⟩

end Slots

/-! ### Formulas -/

theorem atToken_start (text : List Char) : AtToken text (Place.start text).skipSeparators :=
  ⟨(within_start text).of_leads (leads_skipSeparators _), beginsToken_dropSeparators text⟩

theorem isTokenOffset_byteLength (text : List Char) : IsTokenOffset text (byteLength text) :=
  ⟨text, [], (List.append_nil text).symm, rfl, nofun⟩

/-- The slot of the whole formula is entered at the first token, and if the formula can be read it is
filled at the end of the text. In between no such slot is filled. -/
theorem exists_shown_readFormula (catalog : Catalog) (limit : Option Nat) (text : List Char) :
    ∃ start events, IsTokenOffset text start ∧
      (∀ event ∈ events, IsTokenOffset text event.offset ∧ event.fillsRoot = false) ∧
      ((readFormula catalog limit text).result = none ∧
          (readFormula catalog limit text).shown = .entered (.root .series) start :: events ∨
        ∃ outline after, outline.slot = .root .series ∧
          (readFormula catalog limit text).result = some (outline, after) ∧
          (readFormula catalog limit text).shown =
            .entered (.root .series) start :: (events ++ [.filled outline (byteLength text)])) := by
  have hstart := atToken_start text
  simp only [readFormula]
  generalize limit.getD (nestingBound catalog text) = room
  cases room with
  | zero => exact ⟨_, [], hstart.isTokenOffset, List.forall_mem_nil _, .inl ⟨rfl, rfl⟩⟩
  | succ room =>
    have hparts := (keeps_atToken text).fillParts catalog
      (fun _ hpart _ hplace ↦ ensures_atToken_fill catalog (room + 1) room hpart hplace)
      (.root .series) hstart
    refine ⟨_, (fillParts catalog (fill catalog (room + 1) room) (.root .series)
      (Place.start text).skipSeparators).shown, hstart.isTokenOffset, fun event hevent ↦ ?_, ?_⟩
    · obtain ⟨hmem, hshown⟩ := List.mem_filter.mp hevent
      exact hparts.events event hmem hshown
    · cases hresult : (fillParts catalog (fill catalog (room + 1) room) (.root .series)
        (Place.start text).skipSeparators).result with
      | none => exact .inl ⟨(result_fill_succ ..).trans hresult, shown_fill_of_none hresult⟩
      | some found =>
        obtain ⟨outline, after⟩ := found
        have hread := (result_fill_succ ..).trans hresult
        have hend : after.isAtEnd = true := by
          cases result_fill_succ_iff.mp hread with
          | root _ hend => rw [isAtEnd, hend, List.isEmpty_nil]
          | chosen hchoices => exact absurd hchoices (Slot.choices_ne_append rfl)
        have hoffset := (Cursor.isAtEnd_iff_eq (hparts.result outline after hresult).within).mp hend
        refine .inr ⟨outline, after, slot_of_fillParts hresult, hread, ?_⟩
        rw [← hoffset]
        exact shown_fill_of_some hresult

theorem isTokenOffset_of_mem_shown {catalog : Catalog} {limit : Option Nat} {text : List Char}
    {event : Event} (h : event ∈ (readFormula catalog limit text).shown) :
    IsTokenOffset text event.offset := by
  obtain ⟨start, events, hstart, hevents, ⟨-, hshown⟩ | ⟨outline, after, -, -, hshown⟩⟩ :=
    exists_shown_readFormula catalog limit text <;> rw [hshown] at h
  · rcases List.mem_cons.mp h with rfl | h
    · exact hstart
    · exact (hevents event h).1
  · rcases List.mem_cons.mp h with rfl | h
    · exact hstart
    · rcases List.mem_append.mp h with h | h
      · exact (hevents event h).1
      · rw [List.mem_singleton.mp h]
        exact isTokenOffset_byteLength text

/-- A formula is read as an outline exactly if last of all the slot of the whole formula is filled with
the outline. -/
theorem getLast?_shown_readFormula {catalog : Catalog} {limit : Option Nat} {text : List Char}
    {outline : Outline} {offset : Nat} :
    ((readFormula catalog limit text).shown.getLast? = some (.filled outline offset) ∧
        outline.slot.isRoot = true) ↔
      (∃ after, (readFormula catalog limit text).result = some (outline, after)) ∧
        offset = byteLength text := by
  obtain ⟨start, events, -, hevents, ⟨hresult, hshown⟩ | ⟨read, after, hslot, hresult, hshown⟩⟩ :=
    exists_shown_readFormula catalog limit text <;> rw [hresult, hshown]
  · constructor
    · rintro ⟨hlast, hroot⟩
      have hmem := List.mem_of_getLast? hlast
      rcases List.mem_cons.mp hmem with hentered | hmem
      · exact nomatch hentered
      · have hnot := (hevents _ hmem).2
        rw [Event.fillsRoot, hroot] at hnot
        exact nomatch hnot
    · rintro ⟨⟨after, hsome⟩, -⟩
      exact nomatch hsome
  · rw [← List.cons_append, List.getLast?_concat]
    constructor
    · rintro ⟨hlast, -⟩
      obtain ⟨rfl, rfl⟩ := Event.filled.inj (Option.some.inj hlast)
      exact ⟨⟨after, rfl⟩, rfl⟩
    · rintro ⟨⟨_, hsome⟩, rfl⟩
      obtain ⟨rfl, -⟩ := Prod.mk.inj (Option.some.inj hsome)
      exact ⟨rfl, by rw [hslot]; rfl⟩

/-- What can be watched of the reading of a formula. Every event is at the end of the text or where a
token stands. Offsets do not decrease unless an alternative is given up. A slot that is filled was
entered before, and whatever was entered in between was filled or given up in between. The last event
is that the slot of the whole formula is filled exactly if the formula can be read, and then it is
filled with the outline that was read and at the end of the text. -/
theorem shown_readFormula (catalog : Catalog) (limit : Option Nat) (source : String) :
    (∀ event ∈ (readFormula catalog limit source.toList).shown,
      IsTokenOffset source.toList event.offset) ∧
    ((readFormula catalog limit source.toList).shown.IsChain fun earlier later ↦
      earlier.offset ≤ later.offset ∨ later.isBacktrack = true) ∧
    (∀ earlier outline offset later,
      (readFormula catalog limit source.toList).shown = earlier ++ .filled outline offset :: later →
        ∃ before start inside, earlier = before ++ .entered outline.slot start :: inside ∧
          Leaves [] inside []) ∧
    ∀ outline offset,
      ((readFormula catalog limit source.toList).shown.getLast? = some (.filled outline offset) ∧
          outline.slot.isRoot = true) ↔
        parseFormula catalog limit source = .ok outline ∧ offset = byteLength source.toList := by
  obtain ⟨stop, slots, hunfolding⟩ :
      ∃ stop slots, Unfolding _ (readFormula catalog limit source.toList).shown stop slots :=
    (unfolds_fill catalog _ _ _ _).exists_unfolding
  refine ⟨fun _ ↦ isTokenOffset_of_mem_shown, hunfolding.advancing.isChain, ?_, ?_⟩
  · intro earlier outline offset later hsplit
    have hleaves := hunfolding.leaves
    rw [hsplit] at hleaves
    exact hleaves.exists_of_filled
  · intro outline offset
    rw [parseFormula_eq_ok_iff]
    exact getLast?_shown_readFormula

/-- Of two operators without arguments the second one is used: the first one is given up where the name
stands. -/
example :
    let operators : List Operator :=
      ["f", "g"].map fun name ↦ { name, result := .series, parameters := [], keywords := [] }
    (readFormula (.ofList operators) none "(g)".toList).shown.map (fun event ↦
        (event.isBacktrack, event.offset)) =
      [(false, 0), (false, 0), (true, 1), (false, 2), (false, 2), (false, 3), (false, 3)] := by
  decide +kernel

end Formulary
