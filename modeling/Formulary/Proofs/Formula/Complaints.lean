import Formulary.Proofs.Catalog.Soundness
import Formulary.Proofs.Formula.Progress
import Mathlib.Logic.Relation
/-!
What is complained about while a formula is read. A slot asks for some things itself, and leaves all
else to the slots that are its parts; so every complaint is one about what some slot asks for that can
be reached from a whole formula through parts (`ensures_fill_explained`). That some complaints never
arise then follows from which slots can be reached (`complaints_of_readFormula`). Main definitions:
`Slot.Complains`, `Slot.Reaches` and `Event.IsExplained`.
-/

set_option autoImplicit false
set_option relaxedAutoImplicit false

namespace Formulary

open Text Reading

/-! ### What slots complain about -/

namespace Slot

/-- The complaints about what a slot asks for itself. -/
inductive Complains (catalog : Catalog) : Slot → Complaint → Prop
  | rest (base : Base) : Complains catalog (.root base) .expectingEnd
  | opening (base : Base) : Complains catalog (.call base) (.expectingSymbol "(")
  | noOperator {base : Base} (hnone : catalog.operators base = []) :
      Complains catalog (.call base) (.noOperator base)
  | name {base : Base} {operator : Operator} (h : operator ∈ catalog.operators base) :
      Complains catalog (.call base) (.expectingKeyword operator.name)
  | closing (base : Base) : Complains catalog (.call base) (.expectingSymbol ")")
  | token {kind : Scalar} {complaint : Complaint} (h : kind.Refuses complaint) :
      Complains catalog (.typed (.scalar kind)) complaint
  | series : Complains catalog (.typed .series) .seriesLiteral
  | noAlternative : Complains catalog (.typed (.union [])) (.expecting "a union alternative")
  | openingList (element : ArgType) :
      Complains catalog (.typed (.list element)) (.expectingSymbol "(")
  | closingList (element : ArgType) :
      Complains catalog (.typed (.list element)) (.expectingSymbol ")")
  | duplicate {group : List Keyword} {own : Keyword} (h : own ∈ group) :
      Complains catalog (.keywords group) (.duplicateKeyword own.marker)
  | marker (own : Keyword) : Complains catalog (.keyword own) (.expectingKeyword own.marker)

/-- A slot is read for another one: for the slot itself, or for a part of it, or for a part of that,
and so on. -/
def Reaches (catalog : Catalog) : Slot → Slot → Prop :=
  Relation.ReflTransGen (HasPart catalog)

end Slot

/-- A failure is explained by a slot if it is about the limit, or about what a slot asks for that is
read for the slot; other events need no explanation. -/
def Event.IsExplained (catalog : Catalog) (limit : Nat) (slot : Slot) : Event → Prop
  | .failed failure =>
    failure.complaint = .tooDeep limit ∨
      ∃ part, slot.Reaches catalog part ∧ part.Complains catalog failure.complaint
  | .entered _ _ | .filled _ _ | .backtracked _ => True

variable {catalog : Catalog} {limit : Nat} {slot part : Slot} {place : Place}

theorem Slot.Complains.isExplained {complaint : Complaint} (h : slot.Complains catalog complaint)
    (offset : Nat) : Event.IsExplained catalog limit slot (.failed ⟨offset, complaint⟩) :=
  .inr ⟨slot, .refl, h⟩

/-- What is explained by a part is explained by the slot that has the part. -/
theorem Event.IsExplained.of_part {event : Event} (h : event.IsExplained catalog limit part)
    (hpart : slot.HasPart catalog part) : event.IsExplained catalog limit slot := by
  cases event with
  | failed failure =>
    rcases h with hdeep | ⟨reached, hreaches, hcomplains⟩
    · exact .inl hdeep
    · exact .inr ⟨reached, .head hpart hreaches, hcomplains⟩
  | entered | filled | backtracked => trivial

/-! ### What explains complaints -/

section Parts

variable {inner : Slot → Reading Outline}

/-- What is moved past, or complained about otherwise. -/
theorem ensures_move_explained {advance : Place → Option Place} {complaint : Complaint}
    (h : slot.Complains catalog complaint) (place : Place) :
    Ensures (move advance complaint) place (Event.IsExplained catalog limit slot) fun _ _ ↦ True :=
  ensures_move (h.isExplained place.offset) fun _ _ ↦ trivial

/-- If a slot reads for its parts only what they explain, it explains all that happens. -/
theorem ensures_fillParts_explained
    (hinner : ∀ part, slot.HasPart catalog part → ∀ place,
      Ensures (inner part) place (Event.IsExplained catalog limit part) fun _ _ ↦ True) :
    Ensures (fillParts catalog inner slot) place (Event.IsExplained catalog limit slot)
      fun _ _ ↦ True := by
  have hpart (part : Slot) (h : slot.HasPart catalog part) (place : Place) :
      Ensures (inner part) place (Event.IsExplained catalog limit slot) fun _ _ ↦ True :=
    (hinner part h place).widen fun _ hevent ↦ hevent.of_part h
  by_cases hslot : slot.choices = []
  · cases slot with
    | root base =>
      exact ensures_root (hpart _ (.result base) place)
        fun after _ ↦ (Slot.Complains.rest base).isExplained after.offset
    | call base =>
      exact ensures_call (ensures_move_explained (.opening base) place)
        (fun hnone middle _ ↦ (Slot.Complains.noOperator hnone).isExplained middle.offset)
        (fun _ _ ↦ trivial)
        (fun operator hoperator middle _ ↦ ensures_move_explained (.name hoperator) middle)
        (fun operator hoperator middle _ ↦ hpart _ (.chosen hoperator) middle)
        fun middle _ ↦ ensures_move_explained (.closing base) middle
    | choice kind => exact absurd hslot (List.cons_ne_nil _ _)
    | typed type =>
      cases type with
      | scalar kind =>
        exact ensures_bind_pure (ensures_literal (fun failure hfailure ↦
          (Slot.Complains.token (refuses_of_readLiteral hfailure)).isExplained failure.offset)
          fun _ _ _ ↦ trivial)
      | series => exact ensures_fail (Slot.Complains.series.isExplained place.offset)
      | union alternatives =>
        obtain rfl : alternatives = [] := List.map_eq_nil_iff.mp hslot
        exact ensures_fail (Slot.Complains.noAlternative.isExplained place.offset)
      | list element =>
        exact ensures_list (ensures_move_explained (.openingList element) place) (fun _ _ ↦ trivial)
          (fun middle _ ↦ hpart _ (.element element) middle)
          fun middle _ ↦ ensures_move_explained (.closingList element) middle
    | keywords group =>
      exact ensures_keywords trivial (fun _ _ ↦ trivial)
        (fun own hown middle _ ↦ (Slot.Complains.duplicate hown).isExplained middle.offset)
        fun own hown middle _ ↦ hpart _ (.supplied hown) middle
    | operator chosen =>
      exact ensures_operator trivial fun slot hslot middle _ ↦ hpart slot (.operand hslot) middle
    | keyword own =>
      exact ensures_keyword (ensures_move_explained (.marker own) place)
        fun announced _ ↦ hpart _ (.value own) announced
  · exact ensures_chosen hslot trivial fun part hchoice ↦ hpart part (.of_mem_choices hchoice) place

end Parts

/-- Whatever is complained about while a slot is read is explained by the slot. -/
theorem ensures_fill_explained (catalog : Catalog) (limit room : Nat) (slot : Slot) (place : Place) :
    Ensures (fill catalog limit room slot) place (Event.IsExplained catalog limit slot)
      fun _ _ ↦ True := by
  induction room generalizing slot place with
  | zero => exact ensures_fill_zero trivial (.inl rfl)
  | succ room ih =>
    refine ensures_fill_of_parts trivial ((ensures_fillParts_explained fun part _ place ↦
      ih part place).mono fun _ _ _ ↦ ⟨trivial, trivial⟩)

/-! ### Which slots are reached -/

namespace Slot

/-- The types that are read in a slot, those below the next use of an operator left out. -/
def types : Slot → List ArgType
  | .root _ | .call _ | .choice _ => []
  | .typed type => [type]
  | .keywords group => group.map Keyword.type
  | .operator chosen => chosen.types
  | .keyword own => [own.type]

/-- No type that is read in a slot has a choice without alternatives. -/
def HasAlternatives (slot : Slot) : Prop :=
  ∀ type ∈ slot.types, type.hasEmptyUnion = false

theorem hasAlternatives_typed_iff {type : ArgType} :
    (typed type).HasAlternatives ↔ type.hasEmptyUnion = false := by
  rw [HasAlternatives, types, List.forall_mem_singleton]

theorem hasAlternatives_keyword_iff {own : Keyword} :
    (keyword own).HasAlternatives ↔ own.type.hasEmptyUnion = false := by
  rw [HasAlternatives, types, List.forall_mem_singleton]

theorem hasAlternatives_ofArgument {type : ArgType} (h : type.hasEmptyUnion = false) :
    (ofArgument type).HasAlternatives := by
  cases type with
  | scalar | series => exact fun _ hnone ↦ absurd hnone List.not_mem_nil
  | union | list => exact hasAlternatives_typed_iff.mpr h

theorem hasAlternatives_of_mem_slots {chosen : Operator} {part : Slot}
    (h : (operator chosen).HasAlternatives) (hpart : part ∈ chosen.slots) :
    part.HasAlternatives := by
  obtain ⟨hparameters, hkeywords⟩ := List.forall_mem_append.mp h
  rcases List.mem_append.mp hpart with hparameter | hgroup
  · obtain ⟨type, htype, rfl⟩ := List.mem_map.mp hparameter
    exact hasAlternatives_ofArgument (hparameters type htype)
  · split at hgroup
    · exact absurd hgroup List.not_mem_nil
    · rw [List.mem_singleton.mp hgroup]
      exact hkeywords

/-- Where the types of all operators have alternatives, the parts of a slot have them if the slot
has. -/
theorem HasAlternatives.of_hasPart
    (hcatalog : ∀ base, ∀ chosen ∈ catalog.operators base, (operator chosen).HasAlternatives)
    (h : slot.HasAlternatives) (hpart : slot.HasPart catalog part) : part.HasAlternatives := by
  cases hpart with
  | result | application => exact fun _ hnone ↦ absurd hnone List.not_mem_nil
  | literal kind => exact hasAlternatives_typed_iff.mpr rfl
  | chosen hoperator => exact hcatalog _ _ hoperator
  | @alternative alternatives type htype =>
    have hunion := hasAlternatives_typed_iff.mp h
    rw [ArgType.hasEmptyUnion, Bool.or_eq_false_iff] at hunion
    exact hasAlternatives_ofArgument (ArgType.hasEmptyUnion_of_mem hunion.2 _ htype)
  | element type =>
    have hlist := hasAlternatives_typed_iff.mp h
    rw [ArgType.hasEmptyUnion] at hlist
    exact hasAlternatives_ofArgument hlist
  | supplied hkeyword =>
    exact hasAlternatives_keyword_iff.mpr (List.forall_mem_map.mp h _ hkeyword)
  | operand hoperand => exact hasAlternatives_of_mem_slots h hoperand
  | value own => exact hasAlternatives_ofArgument (hasAlternatives_keyword_iff.mp h)

theorem HasAlternatives.of_reaches
    (hcatalog : ∀ base, ∀ chosen ∈ catalog.operators base, (operator chosen).HasAlternatives)
    (h : slot.HasAlternatives) (hreaches : slot.Reaches catalog part) : part.HasAlternatives := by
  induction hreaches with
  | refl => exact h
  | tail _ hpart ih => exact ih.of_hasPart hcatalog hpart

theorem ofArgument_ne_series (type : ArgType) : ofArgument type ≠ .typed .series := by
  cases type <;> simp [ofArgument]

/-- A series is never asked for as a literal, whatever the types are: the place of an argument that is a
series is the place of a use of an operator. -/
theorem HasPart.ne_series (h : slot.HasPart catalog part) : part ≠ .typed .series := by
  cases h with
  | result | application | literal | chosen | supplied => exact nofun
  | alternative | element | value => exact ofArgument_ne_series _
  | operand hoperand =>
    rcases List.mem_append.mp hoperand with hparameter | hgroup
    · obtain ⟨type, -, rfl⟩ := List.mem_map.mp hparameter
      exact ofArgument_ne_series type
    · split at hgroup
      · exact absurd hgroup List.not_mem_nil
      · rw [List.mem_singleton.mp hgroup]
        exact nofun

theorem Reaches.ne_series (h : slot.Reaches catalog part) (hslot : slot ≠ .typed .series) :
    part ≠ .typed .series := by
  cases h with
  | refl => exact hslot
  | tail _ hpart => exact hpart.ne_series

end Slot

/-! ### What formulas are never complained about -/

namespace Slot.Complains

theorem slot_of_seriesLiteral (h : slot.Complains catalog .seriesLiteral) :
    slot = .typed .series := by
  cases h with
  | token hrefuses => cases hrefuses
  | series => rfl

theorem slot_of_noAlternative (h : slot.Complains catalog (.expecting "a union alternative")) :
    slot = .typed (.union []) := by
  -- the words of two complaints are compared by evaluation, which a case split does not do
  generalize hwhat : Complaint.expecting "a union alternative" = complaint at h
  cases h with
  | token hrefuses => cases hrefuses <;> simp at hwhat
  | noAlternative => rfl
  | _ => cases hwhat

theorem operators_of_noOperator {base : Base} (h : slot.Complains catalog (.noOperator base)) :
    catalog.operators base = [] := by
  cases h with
  | token hrefuses => cases hrefuses
  | noOperator hnone => exact hnone

end Slot.Complains

/-- In a sound catalog no choice without alternatives is reached from a whole formula. -/
theorem Slot.hasAlternatives_of_isSound {operators : List Operator} {base : Base}
    (hsound : (Catalog.ofList operators).IsSound)
    (h : (root base).Reaches (.ofList operators) slot) : slot.HasAlternatives := by
  have hdeclared := hsound.hasAlternatives
  rw [Catalog.declared_ofList] at hdeclared
  have hcatalog := Catalog.forall_mem_operators hdeclared
  exact .of_reaches hcatalog (fun _ hnone ↦ absurd hnone List.not_mem_nil) h

/-- What no slot complains about that can be reached is never complained about while a formula is
read, unless it is the limit. -/
theorem not_mem_events_readFormula {limit : Option Nat} {text : List Char} {complaint : Complaint}
    (hlimit : ∀ bound, complaint ≠ .tooDeep bound)
    (h : ∀ slot, (Slot.root .series).Reaches catalog slot → ¬slot.Complains catalog complaint)
    (offset : Nat) : .failed ⟨offset, complaint⟩ ∉ (readFormula catalog limit text).events := by
  intro hevent
  rcases (ensures_fill_explained catalog _ _ _ _).events _ hevent with hdeep | hexplained
  · exact hlimit _ hdeep
  · obtain ⟨slot, hreaches, hcomplains⟩ := hexplained
    exact h slot hreaches hcomplains

/-- Whatever the operators are, no formula is complained about because a series was asked for as a
literal. In a sound catalog none is complained about because a choice has no alternatives, or because
no operator produces a series. -/
theorem complaints_of_readFormula (operators : List Operator) (limit : Option Nat)
    (text : List Char) :
    let events := (readFormula (.ofList operators) limit text).events
    (∀ offset, .failed ⟨offset, .seriesLiteral⟩ ∉ events) ∧
      ((Catalog.ofList operators).fault? = none → ∀ offset,
        .failed ⟨offset, .expecting "a union alternative"⟩ ∉ events ∧
          .failed ⟨offset, .noOperator .series⟩ ∉ events) := by
  intro events
  refine ⟨?_, fun hfault offset ↦ ?_⟩
  · refine not_mem_events_readFormula (by simp) fun slot hreaches hcomplains ↦ ?_
    exact hreaches.ne_series nofun hcomplains.slot_of_seriesLiteral
  · have hsound := Catalog.fault?_eq_none_iff.mp hfault
    constructor
    · refine not_mem_events_readFormula (by simp) (fun slot hreaches hcomplains ↦ ?_) offset
      have halternatives := Slot.hasAlternatives_of_isSound hsound hreaches
      rw [hcomplains.slot_of_noAlternative] at halternatives
      exact Bool.noConfusion (Slot.hasAlternatives_typed_iff.mp halternatives)
    · refine not_mem_events_readFormula (by simp) (fun slot _ hcomplains ↦ ?_) offset
      exact hsound.hasSeries hcomplains.operators_of_noOperator

/-- A sound operator with a choice: what its formula lacks is neither of the two. -/
theorem complaints_of_readFormula_choice :
    let operators : List Operator :=
      [⟨"scale", .series, [.union [.scalar .number, .list .series]], []⟩]
    let events := (readFormula (.ofList operators) (some 8) "(scale #t)".toList).events
    (Catalog.ofList operators).fault? = none ∧
      .failed ⟨7, .expectingNumber⟩ ∈ events ∧ .failed ⟨7, .expectingSymbol "("⟩ ∈ events ∧
      ∀ offset, .failed ⟨offset, .seriesLiteral⟩ ∉ events ∧
        .failed ⟨offset, .expecting "a union alternative"⟩ ∉ events ∧
        .failed ⟨offset, .noOperator .series⟩ ∉ events := by
  intro operators events
  have hfault : (Catalog.ofList operators).fault? = none := by decide
  obtain ⟨hseries, hsound⟩ := complaints_of_readFormula operators (some 8) "(scale #t)".toList
  refine ⟨hfault, by decide +kernel, by decide +kernel, fun offset ↦ ⟨hseries offset, ?_⟩⟩
  exact hsound hfault offset

/-- In catalogs with faults both arise: a choice has no alternatives, or no operator is there. -/
example :
    let unsound : Catalog := .ofList [⟨"f", .series, [.union []], []⟩]
    failuresOf (readFormula unsound (some 8) "(f 1)".toList).events =
        [⟨3, .expecting "a union alternative"⟩] ∧
      failuresOf (readFormula .empty (some 8) "(f 1)".toList).events = [⟨1, .noOperator .series⟩] := by
  decide +kernel

end Formulary
