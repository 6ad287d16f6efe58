import Formulary.Proofs.Form.Confinement
import Formulary.Proofs.Formula.Comparison
/-!
The order of alternatives. Two types are the same but for the order of the alternatives in their
choices, and catalogs may differ in this way everywhere. The alternatives that can be read where a
choice stands take the same form off the text, and the others get no further than the end of it, so
no alternative that is taken for good makes a later step fail: reordered catalogs accept the same
formulas, and where they refuse one they report the same position
(`parseFormula_reordered`). Main definitions: `ArgType.Reordered`, `Operator.Reordered` and
`Slot.Reordered`.
-/

set_option autoImplicit false
set_option relaxedAutoImplicit false

namespace Formulary

open Text Reading

/-! ### Reordered types -/

/-- Two types are the same but for the order of alternatives, at any depth. -/
inductive ArgType.Reordered : ArgType → ArgType → Prop
  | scalar (kind : Scalar) : Reordered (.scalar kind) (.scalar kind)
  | series : Reordered .series .series
  | union {alternatives matched alternatives' : List ArgType}
      (hmatched : List.Forall₂ Reordered alternatives matched)
      (hperm : matched.Perm alternatives') : Reordered (.union alternatives) (.union alternatives')
  | list {element element' : ArgType} (helement : Reordered element element') :
      Reordered (.list element) (.list element')

/-- Two keyword arguments are the same but for the order of alternatives in their types. -/
structure Keyword.Reordered (first second : Keyword) : Prop where
  name : first.name = second.name
  type : first.type.Reordered second.type
  default : first.default = second.default

/-- Two operators are the same but for the order of alternatives in the types that they take. -/
structure Operator.Reordered (first second : Operator) : Prop where
  name : first.name = second.name
  result : first.result = second.result
  parameters : List.Forall₂ ArgType.Reordered first.parameters second.parameters
  keywords : List.Forall₂ Keyword.Reordered first.keywords second.keywords

/-- Two slots are the same but for the order of alternatives. -/
inductive Slot.Reordered : Slot → Slot → Prop
  | root (base : Base) : Reordered (.root base) (.root base)
  | call (base : Base) : Reordered (.call base) (.call base)
  | choice (kind : Scalar) : Reordered (.choice kind) (.choice kind)
  | typed {type type' : ArgType} (htype : type.Reordered type') :
      Reordered (.typed type) (.typed type')
  | keywords {group group' : List Keyword} (hgroup : List.Forall₂ Keyword.Reordered group group') :
      Reordered (.keywords group) (.keywords group')
  | operator {chosen chosen' : Operator} (hchosen : chosen.Reordered chosen') :
      Reordered (.operator chosen) (.operator chosen')
  | keyword {own own' : Keyword} (hown : own.Reordered own') :
      Reordered (.keyword own) (.keyword own')

theorem ArgType.Reordered.slot {type type' : ArgType} (h : type.Reordered type') :
    (Slot.ofArgument type).Reordered (Slot.ofArgument type') := by
  cases h with
  | scalar kind => exact .choice kind
  | series => exact .call .series
  | union hmatched hperm => exact .typed (.union hmatched hperm)
  | list helement => exact .typed (.list helement)

theorem Operator.Reordered.slots {chosen chosen' : Operator} (h : chosen.Reordered chosen') :
    List.Forall₂ Slot.Reordered chosen.slots chosen'.slots := by
  have hparameters : List.Forall₂ Slot.Reordered (chosen.parameters.map Slot.ofArgument)
      (chosen'.parameters.map Slot.ofArgument) := by
    rw [List.forall₂_map_left_iff, List.forall₂_map_right_iff]
    exact h.parameters.imp fun type type' htype ↦ htype.slot
  refine List.rel_append hparameters ?_
  have hkeywords := h.keywords
  generalize chosen.keywords = group, chosen'.keywords = group' at hkeywords
  cases hkeywords with
  | nil => exact .nil
  | cons hfirst hrest => exact .cons (.keywords (.cons hfirst hrest)) .nil

theorem Operator.Reordered.hasWordNames {chosen chosen' : Operator} (h : chosen.Reordered chosen')
    (hnames : chosen.HasWordNames) : chosen'.HasWordNames := by
  refine ⟨h.name ▸ hnames.1, fun own' hown' ↦ ?_⟩
  obtain ⟨own, hown, hreordered⟩ := exists_mem_of_forall₂ h.keywords.flip hown'
  exact hreordered.name ▸ hnames.2 own hown

theorem hasWordNames_of_reordered {operators operators' : List Operator}
    (h : List.Forall₂ Operator.Reordered operators operators')
    (hnames : ∀ operator ∈ operators, operator.HasWordNames) :
    ∀ operator ∈ operators', operator.HasWordNames := by
  intro operator' hoperator'
  obtain ⟨operator, hoperator, hreordered⟩ := exists_mem_of_forall₂ h.flip hoperator'
  exact hreordered.hasWordNames (hnames operator hoperator)

/-- The operators of a base correspond. -/
theorem operators_reordered {operators operators' : List Operator}
    (h : List.Forall₂ Operator.Reordered operators operators') (base : Base) :
    List.Forall₂ Operator.Reordered ((Catalog.ofList operators).operators base)
      ((Catalog.ofList operators').operators base) := by
  rw [Catalog.operators_ofList, Catalog.operators_ofList]
  refine List.rel_filter (fun first second hreordered ↦ ?_) h
  simp only [hreordered.result]

/-! ### Reordered readings -/

/-- Two readings that accept the same and get equally far, whatever they read. -/
abbrev EquallyFar (inner inner' : Slot → Reading Outline) (slot slot' : Slot) : Prop :=
  ParallelSlots (fun _ _ ↦ True) (fun _ _ ↦ True) inner inner' slot slot'

section Catalogs

variable {operators operators' : List Operator}

/-- Slots that are choices are tried in any order, since what is read for one of the slots among which
they are a choice is read for all. -/
theorem equallyFar_chosen {catalog catalog' : Catalog} {limit room : Nat}
    (hcatalog : ∀ base, ∀ operator ∈ catalog.operators base, operator.HasWordNames)
    (hcatalog' : ∀ base, ∀ operator ∈ catalog'.operators base, operator.HasWordNames)
    {slot slot' : Slot} (hslot : slot.choices ≠ []) (hslot' : slot'.choices ≠ [])
    (hparts : ∀ part ∈ slot.choices, ∃ part' ∈ slot'.choices,
      EquallyFar (fill catalog limit room) (fill catalog' limit room) part part')
    (hparts' : ∀ part' ∈ slot'.choices, ∃ part ∈ slot.choices,
      EquallyFar (fill catalog limit room) (fill catalog' limit room) part part') :
    EquallyFar (fillParts catalog (fill catalog limit room))
      (fillParts catalog' (fill catalog' limit room)) slot slot' := by
  intro place
  have hsettled := settled_fill hcatalog limit room
    (fun part hpart ↦ (@Slot.isArgument_of_mem_choices slot part hpart).1) place
  have hsettled' := settled_fill hcatalog' limit room
    (fun part hpart ↦ (@Slot.isArgument_of_mem_choices slot' part hpart).1) place
  have hresembles : Resembles (fun _ _ ↦ True) (fun _ _ ↦ True)
      (firstOf (slot.choices.map (fill catalog limit room)))
      (firstOf (slot'.choices.map (fill catalog' limit room))) place := by
    refine resembles_firstOf_of_settled hsettled hsettled' ?_ ?_
    · intro step hstep
      obtain ⟨part, hpart, rfl⟩ := List.mem_map.mp hstep
      obtain ⟨part', hpart', hsame⟩ := hparts part hpart
      exact ⟨_, List.mem_map_of_mem hpart', (hsame place).toResembles⟩
    · intro step' hstep'
      obtain ⟨part', hpart', rfl⟩ := List.mem_map.mp hstep'
      obtain ⟨part, hpart, hsame⟩ := hparts' part' hpart'
      exact ⟨_, List.mem_map_of_mem hpart, (hsame place).toResembles⟩
  have hchosen : Parallel (fun _ _ ↦ True) (fun _ _ ↦ True)
      (firstOf (slot.choices.map (fill catalog limit room)))
      (firstOf (slot'.choices.map (fill catalog' limit room))) place :=
    ⟨hresembles, accounts_discipline.firstOf_slots (accounts_fill catalog limit room) hslot place,
      accounts_discipline.firstOf_slots (accounts_fill catalog' limit room) hslot' place⟩
  rw [fillParts_of_choices hslot, fillParts_of_choices hslot']
  exact hchosen.bind isComparison_true fun part part' after _ _ _ ↦
    parallel_pure isComparison_true trivial

theorem equallyFar_union {catalog catalog' : Catalog} {limit room : Nat}
    (hcatalog : ∀ base, ∀ operator ∈ catalog.operators base, operator.HasWordNames)
    (hcatalog' : ∀ base, ∀ operator ∈ catalog'.operators base, operator.HasWordNames)
    {alternatives matched alternatives' : List ArgType} (hperm : matched.Perm alternatives')
    (hmatched : List.Forall₂ (fun type type' ↦
      EquallyFar (fill catalog limit room) (fill catalog' limit room) (.ofArgument type)
        (.ofArgument type')) alternatives matched) :
    EquallyFar (fillParts catalog (fill catalog limit room))
      (fillParts catalog' (fill catalog' limit room)) (.typed (.union alternatives))
      (.typed (.union alternatives')) := by
  have hlength : alternatives.length = alternatives'.length :=
    hmatched.length_eq.trans hperm.length_eq
  by_cases hnone : alternatives = []
  · subst hnone
    obtain rfl : alternatives' = [] := List.length_eq_zero_iff.mp hlength.symm
    exact fun place ↦ parallel_fail isComparison_true _
  · have hsome' : alternatives' ≠ [] := fun hnone' ↦
      hnone (List.length_eq_zero_iff.mp (hlength.trans (congrArg List.length hnone')))
    refine equallyFar_chosen hcatalog hcatalog' (mt List.map_eq_nil_iff.mp hnone)
      (mt List.map_eq_nil_iff.mp hsome') ?_ ?_
    · refine List.forall_mem_map.mpr fun type htype ↦ ?_
      obtain ⟨type', htype', hsame⟩ := exists_mem_of_forall₂ hmatched htype
      exact ⟨_, List.mem_map_of_mem (hperm.mem_iff.mp htype'), hsame⟩
    · refine List.forall_mem_map.mpr fun type' htype' ↦ ?_
      obtain ⟨type, htype, hsame⟩ := exists_mem_of_forall₂ hmatched.flip (hperm.mem_iff.mpr htype')
      exact ⟨_, List.mem_map_of_mem htype, hsame⟩

/-- Operators that correspond have the same names, so the same one is taken. -/
theorem parallel_firstOf_named_reordered (h : List.Forall₂ Operator.Reordered operators operators')
    (hsome : operators ≠ []) (place : Place) :
    Parallel Operator.Reordered (fun _ _ ↦ True) (firstOf (operators.map named))
      (firstOf (operators'.map named)) place := by
  refine parallel_firstOf isComparison_true (by simpa using hsome) ?_
  rw [List.forall₂_map_left_iff, List.forall₂_map_right_iff]
  refine h.imp fun operator operator' hreordered ↦ ?_
  rw [named, named, hreordered.name]
  refine (parallel_refl isComparison_true (accounts_word _) fun _ ↦ rfl).bind isComparison_true
    fun _ _ after (_ : () = ()) _ _ ↦ ?_
  exact parallel_pure isComparison_true hreordered

theorem equallyFar_fill (h : List.Forall₂ Operator.Reordered operators operators')
    (hnames : ∀ operator ∈ operators, operator.HasWordNames) (limit room : Nat) {slot slot' : Slot}
    (hslot : slot.Reordered slot') :
    EquallyFar (fill (.ofList operators) limit room) (fill (.ofList operators') limit room) slot
      slot' := by
  have hcatalog := Catalog.forall_mem_operators hnames
  have hcatalog' := Catalog.forall_mem_operators (hasWordNames_of_reordered h hnames)
  induction room generalizing slot slot' with
  | zero => exact parallel_fill_zero isComparison_true limit slot slot'
  | succ room ih =>
    refine parallel_fill_succ isComparison_true ?_
    cases hslot with
    | root base => exact parallel_root isComparison_true (ih (.call base)) fun _ _ _ ↦ trivial
    | call base =>
      have hgroup := operators_reordered h base
      have hempty : ((Catalog.ofList operators).operators base).isEmpty =
          ((Catalog.ofList operators').operators base).isEmpty := by
        rw [Bool.eq_iff_iff, List.isEmpty_iff_length_eq_zero, List.isEmpty_iff_length_eq_zero,
          hgroup.length_eq]
      exact parallel_call isComparison_true hempty
        (fun hsome ↦ parallel_firstOf_named_reordered hgroup (by simpa using hsome))
        (fun operator operator' hreordered ↦ ih (.operator hreordered)) fun _ _ _ ↦ trivial
    | choice kind =>
      exact parallel_choice isComparison_true (ih (.typed (.scalar kind)))
        (ih (.call (.scalar kind))) fun _ _ _ ↦ trivial
    | typed htype =>
      cases htype with
      | scalar kind => exact parallel_scalar isComparison_true fun _ ↦ trivial
      | series => exact fun place ↦ parallel_fail isComparison_true _
      | union hmatched hperm =>
        exact equallyFar_union hcatalog hcatalog' hperm
          (hmatched.imp fun type type' htype ↦ ih htype.slot)
      | list helement =>
        exact parallel_list isComparison_true (ih helement.slot) fun _ _ _ ↦ trivial
    | keywords hgroup =>
      exact parallel_keywords isComparison_true
        (hgroup.imp fun own own' hown ↦ ⟨hown.name, ih (.keyword hown)⟩) fun _ _ _ ↦ trivial
    | operator hchosen =>
      exact parallel_operator isComparison_true (hchosen.slots.imp fun _ _ hslot ↦ ih hslot)
        fun _ _ _ ↦ trivial
    | keyword hown =>
      exact parallel_keyword isComparison_true hown.name (ih hown.type.slot) fun _ _ _ ↦ trivial

/-- If all names are made of the characters of words, the order of alternatives decides neither
whether a formula is accepted nor where it is refused. -/
theorem parseFormula_reordered (h : List.Forall₂ Operator.Reordered operators operators')
    (hnames : ∀ operator ∈ operators, operator.HasWordNames) (limit : Option Nat)
    (source : String) :
    (∃ outline outline', parseFormula (.ofList operators) limit source = .ok outline ∧
      parseFormula (.ofList operators') limit source = .ok outline') ∨
    ∃ position, ∃ complaints complaints' : List Complaint, complaints ≠ [] ∧ complaints' ≠ [] ∧
      parseFormula (.ofList operators) limit source =
        .error (complaints.map fun complaint ↦ ⟨position, complaint⟩) ∧
      parseFormula (.ofList operators') limit source =
        .error (complaints'.map fun complaint ↦ ⟨position, complaint⟩) := by
  have hparallel (limit room : Nat) := equallyFar_fill h hnames limit room (.root .series)
  obtain ⟨outline, outline', hread, hread', -⟩ |
      ⟨position, complaints, complaints', hsome, hsome', -, hread, hread'⟩ :=
    parseFormula_of_parallelSlots hparallel limit source
  · exact .inl ⟨outline, outline', hread, hread'⟩
  · exact .inr ⟨position, complaints, complaints', hsome, hsome', hread, hread'⟩

end Catalogs

/-- An operator on a scalar of one of two kinds. -/
def onEither (first second : Scalar) : Operator :=
  { name := "f", result := .series, parameters := [.union [.scalar first, .scalar second]],
    keywords := [] }

/-- An integer is accepted as an integer or as a number, whichever comes first. -/
theorem parseFormula_reordered_integer :
    ∃ outline outline', parseFormula (.ofList [onEither .int .number]) none "(f 3)" = .ok outline ∧
      parseFormula (.ofList [onEither .number .int]) none "(f 3)" = .ok outline' ∧
        outline ≠ outline' := by
  have halternatives : (ArgType.union [.scalar .int, .scalar .number]).Reordered
      (.union [.scalar .number, .scalar .int]) :=
    .union (.cons (.scalar .int) (.cons (.scalar .number) .nil)) (.swap _ _ [])
  have hreordered : (onEither .int .number).Reordered (onEither .number .int) :=
    ⟨rfl, rfl, .cons halternatives .nil, .nil⟩
  have hdiffer : parseFormula (.ofList [onEither .int .number]) none "(f 3)" ≠
      parseFormula (.ofList [onEither .number .int]) none "(f 3)" := by decide +kernel
  obtain ⟨outline, outline', hread, hread'⟩ | ⟨position, complaints, -, -, -, hrefused, -⟩ :=
    parseFormula_reordered (.cons hreordered .nil) (by decide +kernel) none "(f 3)"
  · refine ⟨outline, outline', hread, hread', fun hsame ↦ hdiffer ?_⟩
    rw [hread, hread', hsame]
  · have hread : (parseFormula (.ofList [onEither .int .number]) none "(f 3)").toOption.isSome =
        true := by
      decide +kernel
    rw [hrefused] at hread
    exact nomatch hread

end Formulary
