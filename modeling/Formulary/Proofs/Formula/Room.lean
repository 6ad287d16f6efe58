import Formulary.Proofs.Catalog.Operators
import Formulary.Proofs.Formula.Progress
import Formulary.Proofs.Reading.Sameness
/-!
Room for nested slots. Two results say when the room does not matter. Every use of an operator and
every list opens a parenthesis, so the formula bounds how deeply its slots are nested, and the room
that is given without a limit is never used up (`ensures_fill_of_need`). And a reading in which
nothing was nested too deeply is the same with more room (`extends_fill`). Main definitions:
`Slot.need` and `Journal.StaysWithin`.
-/

set_option autoImplicit false
set_option relaxedAutoImplicit false

namespace Formulary

open Text Place Reading

/-! ### The room that a slot needs -/

namespace Slot

/-- How many slots can be nested below a slot before the next parenthesis opens. -/
def reach : Slot → Nat
  | .root _ => 1
  | .call _ => 0
  | .choice _ => 1
  | .typed (.scalar _) => 0
  | .typed type => type.depth
  | .keywords group => ArgType.depthOfAll (group.map Keyword.type) + 2
  | .operator chosen => ArgType.depthOfAll chosen.types + 3
  | .keyword own => own.type.depth + 1

/-- The room that a slot needs where some parentheses are still to be opened, if no type is deeper
than a bound. -/
def need (depth : Nat) (slot : Slot) (openings : Nat) : Nat :=
  slot.reach + openings * (depth + 4) + 1

theorem reach_ofArgument_le (type : ArgType) : (ofArgument type).reach ≤ type.depth := by
  cases type with
  | scalar | series => simp [ofArgument, reach, ArgType.depth]
  | union | list => exact Nat.le_refl _

theorem reach_ofArgument_le_depthOfAll {type : ArgType} {types : List ArgType} (h : type ∈ types) :
    (ofArgument type).reach ≤ ArgType.depthOfAll types :=
  Nat.le_trans (reach_ofArgument_le type) (ArgType.depth_le_depthOfAll h)

/-- Below a slot there is one level less, or one more parenthesis is open. -/
theorem reach_of_hasPart {operators : List Operator} {slot part : Slot}
    (h : slot.HasPart (.ofList operators) part) :
    part.reach < slot.reach ∨
      slot.isBracketed = true ∧ part.reach ≤ (Catalog.ofList operators).depth + 3 := by
  cases h with
  | result | literal | application => exact .inl (Nat.lt_succ_self 0)
  | chosen hoperator =>
    have hmem := Catalog.mem_of_mem_operators hoperator
    have hdepth := ArgType.depthOfAll_le fun type htype ↦ Catalog.depth_le_of_mem hmem htype
    exact .inr ⟨rfl, Nat.add_le_add_right hdepth 3⟩
  | alternative htype => exact .inl (Nat.lt_succ_of_le (reach_ofArgument_le_depthOfAll htype))
  | element type => exact .inl (Nat.lt_succ_of_le (reach_ofArgument_le type))
  | @supplied group keyword hkeyword =>
    have hmem : keyword.type ∈ group.map Keyword.type := List.mem_map_of_mem hkeyword
    have hdepth := ArgType.depth_le_depthOfAll hmem
    simp only [reach]
    omega
  | @operand chosen _ hslot =>
    rcases List.mem_append.mp hslot with hparameter | hkeywords
    · obtain ⟨type, htype, rfl⟩ := List.mem_map.mp hparameter
      have hmem : type ∈ chosen.types := List.mem_append_left _ htype
      have hdepth := reach_ofArgument_le_depthOfAll hmem
      exact .inl (Nat.lt_of_le_of_lt hdepth (Nat.lt_add_of_pos_right (by decide)))
    · split at hkeywords
      · exact absurd hkeywords List.not_mem_nil
      · obtain rfl := List.mem_singleton.mp hkeywords
        have hdepth : ArgType.depthOfAll (chosen.keywords.map Keyword.type) ≤
            ArgType.depthOfAll chosen.types :=
          ArgType.depthOfAll_le fun type htype ↦
            ArgType.depth_le_depthOfAll (List.mem_append_right _ htype)
        simp only [reach]
        omega
  | value own => exact .inl (Nat.lt_succ_of_le (reach_ofArgument_le own.type))

end Slot

/-- Where a slot has the room that it needs, nothing is nested too deeply. -/
theorem ensures_fill_of_need {operators : List Operator} {limit room : Nat} {slot : Slot}
    {place : Place}
    (h : slot.need (Catalog.ofList operators).depth place.openings ≤ room) :
    Ensures (fill (.ofList operators) limit room slot) place (fun event ↦ event.isTooDeep = false)
      fun _ after ↦ slot.Moves place after := by
  induction room generalizing slot place with
  | zero => exact absurd h (Nat.not_succ_le_zero _)
  | succ room ih =>
    refine ensures_fill_succ (fun _ ↦ id) fun part middle hpart hleads hbracketed ↦ ih ?_
    have hreach := Slot.reach_of_hasPart hpart
    generalize (Catalog.ofList operators).depth = depth at h hreach ⊢
    have hfewer : middle.openings * (depth + 4) ≤ place.openings * (depth + 4) :=
      Nat.mul_le_mul_right _ hleads.openings_le
    unfold Slot.need at h ⊢
    rcases hreach with hreach | ⟨hslot, hreach⟩
    · omega
    · have hopened : (middle.openings + 1) * (depth + 4) ≤ place.openings * (depth + 4) :=
        Nat.mul_le_mul_right _ (hbracketed hslot)
      rw [Nat.succ_mul] at hopened
      omega

/-! ### More room -/

section Parts

variable {property : Journal → Prop} (hproperty : Journal.PassesOn property)
  {inner inner' : Slot → Reading Outline} (h : ∀ slot, SameWhere property (inner slot) (inner' slot))

include hproperty h

theorem sameWhere_readSupplied (group : List Keyword) (bound : Nat)
    (supplied : List (String × Outline)) :
    SameWhere property (readSupplied inner group bound supplied)
      (readSupplied inner' group bound supplied) := by
  induction bound generalizing supplied with
  | zero => exact sameWhere_refl _
  | succ bound ih =>
    have hround := SameWhere.firstOf hproperty fun keyword (_ : keyword ∈ group) ↦
      (h (.keyword keyword)).bind hproperty fun outline ↦ sameWhere_refl (pure (keyword, outline))
    refine (hround.optionally hproperty).bind hproperty fun found ↦ ?_
    split
    · exact sameWhere_refl _
    · split
      · exact sameWhere_refl _
      · exact ih _

/-- If the parts of a slot are read in the same way, so is the slot. -/
theorem sameWhere_fillParts {catalog : Catalog} (slot : Slot) :
    SameWhere property (fillParts catalog inner slot) (fillParts catalog inner' slot) := by
  cases slot with
  | root base => exact (h _).bind hproperty fun part ↦ sameWhere_refl _
  | call base =>
    refine (sameWhere_refl _).bind hproperty fun _ ↦ ?_
    dsimp only
    split
    · exact sameWhere_refl _
    · exact (sameWhere_refl _).bind hproperty fun operator ↦
        (h _).bind hproperty fun part ↦ sameWhere_refl _
  | choice kind =>
    have hchoices := SameWhere.firstOf hproperty
      fun slot (_ : slot ∈ [Slot.typed (.scalar kind), Slot.call (.scalar kind)]) ↦ h slot
    exact hchoices.bind hproperty fun part ↦ sameWhere_refl _
  | typed type =>
    cases type with
    | scalar | series => exact sameWhere_refl _
    | union alternatives =>
      simp only [fillParts]
      split
      · exact sameWhere_refl _
      · exact (SameWhere.firstOf hproperty fun type _ ↦ h _).bind hproperty
          fun part ↦ sameWhere_refl _
    | list element =>
      exact (sameWhere_refl _).bind hproperty fun _ ↦ (sameWhere_refl _).bind hproperty fun bound ↦
        ((h _).repeatedly hproperty (bound + 1)).bind hproperty fun parts ↦ sameWhere_refl _
  | keywords group =>
    exact (sameWhere_refl _).bind hproperty fun bound ↦
      (sameWhere_readSupplied hproperty h group (bound + 1) []).bind hproperty
        fun supplied ↦ sameWhere_refl _
  | operator chosen =>
    exact (SameWhere.inOrder hproperty fun slot _ ↦ h slot).bind hproperty
      fun parts ↦ sameWhere_refl _
  | keyword own =>
    exact (sameWhere_refl _).bind hproperty fun _ ↦
      (h _).bind hproperty fun value ↦ sameWhere_refl _

end Parts

/-- Nothing was nested too deeply. -/
def Journal.StaysWithin (journal : Journal) : Prop :=
  ∀ event ∈ journal.events, event.isTooDeep = false

theorem passesOn_staysWithin : Journal.PassesOn Journal.StaysWithin where
  joined h := by
    rwa [Journal.StaysWithin, Journal.events_joined, List.forall_mem_append] at h
  replaced h := h
  omitted h := h

/-- A reading in which nothing is nested too deeply is the same with more room. -/
theorem extends_fill (catalog : Catalog) (limit limit' : Nat) {room room' : Nat}
    (hroom : room ≤ room') (slot : Slot) :
    SameWhere Journal.StaysWithin (fill catalog limit room slot)
      (fill catalog limit' room' slot) := by
  induction room generalizing room' slot with
  | zero =>
    intro place hjournal
    have hdeep := hjournal (.failed ⟨place.offset, .tooDeep limit⟩) (by
      rw [fill, bind_eq_of_some rfl]
      simp [note, Reading.fail])
    cases hdeep
  | succ room ih =>
    obtain ⟨room', rfl⟩ := Nat.exists_eq_add_one_of_ne_zero (Nat.ne_zero_of_lt hroom)
    have hparts : SameWhere Journal.StaysWithin (fillParts catalog (fill catalog limit room) slot)
        (fillParts catalog (fill catalog limit' room') slot) :=
      sameWhere_fillParts passesOn_staysWithin (ih (Nat.le_of_succ_le_succ hroom)) slot
    exact (sameWhere_refl _).bind passesOn_staysWithin fun _ ↦
      (hparts.nested fun _ ↦ id).bind passesOn_staysWithin fun outline ↦ sameWhere_refl _

/-! ### Whole formulas -/

/-- The room that is given without a limit is enough. -/
theorem not_isTooDeep_of_readFormula (operators : List Operator) (text : List Char) :
    ∀ event ∈ (readFormula (.ofList operators) none text).events, event.isTooDeep = false := by
  refine (ensures_fill_of_need ?_).events
  have hopenings : (Place.start text).skipSeparators.openings ≤ text.count '(' :=
    (leads_skipSeparators _).openings_le
  generalize (Place.start text).skipSeparators.openings = openings at hopenings ⊢
  simp only [Slot.need, Slot.reach, nestingBound, Option.getD_none, Nat.succ_mul]
  generalize (Catalog.ofList operators).depth = depth
  have hbound : openings * (depth + 4) ≤ text.count '(' * (depth + 6) :=
    Nat.mul_le_mul hopenings (Nat.le_add_right _ 2)
  omega

/-- More room than is given without a limit changes nothing. -/
theorem fill_eq_readFormula {operators : List Operator} {text : List Char} {limit room : Nat}
    (hroom : nestingBound (.ofList operators) text ≤ room) :
    fill (.ofList operators) limit room (.root .series) (Place.start text).skipSeparators =
      readFormula (.ofList operators) none text :=
  extends_fill _ _ _ hroom _ _ (not_isTooDeep_of_readFormula operators text)

theorem parseFormula_eq_ok_iff {catalog : Catalog} {limit : Option Nat} {source : String}
    {outline : Outline} :
    parseFormula catalog limit source = .ok outline ↔
      ∃ after, (readFormula catalog limit source.toList).result = some (outline, after) := by
  simp only [parseFormula]
  cases hread : (readFormula catalog limit source.toList).result with
  | none => simp
  | some found => simp [Prod.ext_iff]

end Formulary
