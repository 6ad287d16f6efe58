import Formulary.Proofs.Form.Finiteness
/-!
The round trip: a formula that is read and written again is read as the same outline, whatever the
limit. There are three exceptions, and no others (`holdsInfinity_or_of_parseFormula_text`): an infinite
number, which is not written as a number; a keyword argument that was supplied with an empty list,
which is not written at all; and a name that is not a plain word. Main definition:
`SuppliesEmptyList`.
-/

set_option autoImplicit false
set_option relaxedAutoImplicit false

namespace Formulary

open Text Place Reading

/-- Whether an event is that a keyword argument was filled with an empty list as its value. -/
def Event.suppliesEmptyList : Event → Bool
  | .filled part _ => part.isEmptyKeyword
  | .entered _ _ | .backtracked _ | .failed _ => false

/-- On the way to the result of a reading, a keyword argument was read with an empty list as its
value. -/
def SuppliesEmptyList (outcome : Outcome Outline) : Prop :=
  ∃ event ∈ outcome.kept, event.suppliesEmptyList = true

instance (outcome : Outcome Outline) : Decidable (SuppliesEmptyList outcome) :=
  inferInstanceAs (Decidable (∃ event ∈ outcome.kept, _))

theorem keeps_isWritten_of_not_suppliesEmptyList {outcome : Outcome Outline}
    (h : ¬ SuppliesEmptyList outcome) : ∀ event ∈ outcome.kept, event.keeps Outline.IsWritten := by
  intro event hevent
  cases event with
  | filled part offset =>
    exact Bool.eq_false_of_not_eq_true fun hempty ↦ h ⟨.filled part offset, hevent, hempty⟩
  | entered | backtracked | failed => trivial

/-- What is written for an outline that conforms to a catalog consists of its forms. -/
theorem sequence_text {catalog : Catalog}
    (hcatalog : ∀ base, ∀ operator ∈ catalog.operators base, operator.HasWordNames)
    {base : Base} {outline : Outline} (hslot : outline.slot = .root base)
    (h : Conforms catalog outline) :
    Sequence (Place.start outline.text.toList).skipSeparators.rest outline.forms [] := by
  have hwrites := writes_of_conforms hcatalog h (by rw [hslot]; trivial) [] rfl
  rw [List.append_nil] at hwrites
  rw [rest_skipSeparators, Place.start, Outline.text, String.toList_ofList]
  exact hwrites

section Room

variable {catalog : Catalog} {limit room : Nat}
  (hcatalog : ∀ base, ∀ operator ∈ catalog.operators base, operator.HasPlainNames)

include hcatalog

/-- What a formula is read as within some room is read again from its text. -/
theorem result_fill_text {source : List Char} {outline : Outline} {after : Place}
    (h : Finds (Event.keeps Outline.IsWritten) (fun _ ↦ True)
      (fill catalog limit room (.root .series)) (Place.start source).skipSeparators outline after)
    (hfinite : ¬ outline.HoldsInfinity) :
    ∃ after, (fill catalog limit room (.root .series)
      (Place.start outline.text.toList).skipSeparators).result = some (outline, after) := by
  have hwords (base : Base) (operator : Operator) (hoperator : operator ∈ catalog.operators base) :
      operator.HasWordNames := (hcatalog base operator hoperator).hasWordNames
  have hagrees := agrees hwords limit room
  have hroot : (Slot.root .series).HasWordNames := trivial
  obtain ⟨hslot, hconforms⟩ := conforms_of_fill h.result
  obtain ⟨forms, -, hinterprets⟩ := hagrees.interprets Outline.IsWritten hroot h
  have hsequence := sequence_text hwords hslot hconforms
  cases room with
  | zero => exact hinterprets.elim
  | succ room =>
    cases hinterprets.2 with
    | chosen hchoices => exact absurd hchoices (Slot.choices_ne_append rfl)
    | @root _ _ part hpart =>
      obtain ⟨form, rfl⟩ := exists_form_of_interprets rfl hpart
      obtain ⟨written, hwritten, hrestored, -⟩ := (restores hcatalog room).argument rfl
        (Outline.not_holdsInfinity_of_mem hfinite List.mem_cons_self) hpart
      have hforms : (Outline.node (.root .series) none [part]).forms = [written] := hwritten
      rw [hforms] at hsequence
      obtain ⟨after, hread, -⟩ := hagrees.fills hroot rfl hsequence ⟨trivial, .root hrestored⟩
      exact ⟨after, hread⟩

omit hcatalog in
/-- A formula is read from one form and written as one. -/
theorem length_eq_of_interprets_root {base : Base} {forms : List Form} {outline : Outline}
    (h : Interprets catalog room (fun _ ↦ True) (.root base) forms outline) :
    forms.length = outline.forms.length := by
  have hlength := length_of_interprets rfl h
  rw [hlength]
  cases room with
  | zero => exact h.elim
  | succ room =>
    cases h.2 with
    | chosen hchoices => exact absurd hchoices (Slot.choices_ne_append rfl)
    | @root _ _ part hpart =>
      obtain ⟨written, hwritten⟩ := exists_form_of_argument rfl hpart
      exact (congrArg List.length hwritten).symm

/-- What is read from its own text within some room holds no infinite number. -/
theorem not_holdsInfinity_of_fill_text {outline : Outline} {after : Place}
    (h : (fill catalog limit room (.root .series)
      (Place.start outline.text.toList).skipSeparators).result = some (outline, after)) :
    ¬ outline.HoldsInfinity := by
  have hwords (base : Base) (operator : Operator) (hoperator : operator ∈ catalog.operators base) :
      operator.HasWordNames := (hcatalog base operator hoperator).hasWordNames
  have hroot : (Slot.root .series).HasWordNames := trivial
  obtain ⟨hslot, hconforms⟩ := conforms_of_fill h
  obtain ⟨forms, hforms, hinterprets⟩ := (agrees hwords limit room).interprets_of_fill hroot h
  have hsequence := sequence_text hwords hslot hconforms
  obtain ⟨rfl, -⟩ := hforms.unique hsequence (length_eq_of_interprets_root hinterprets)
  have hown : outline.ownForms = outline.forms :=
    ownForms_of_interprets (fun chosen ↦ Slot.noConfusion) hinterprets
  rw [← hown] at hinterprets
  exact not_holdsInfinity_of_interprets hinterprets

end Room

/-- A formula that is read and written again is read as the same outline. -/
theorem parseFormula_text {operators : List Operator}
    (hnames : ∀ operator ∈ operators, operator.HasPlainNames) {limit : Option Nat}
    {source : String} {outline : Outline}
    (h : parseFormula (.ofList operators) limit source = .ok outline)
    (hfinite : ¬ outline.HoldsInfinity)
    (hsupplied : ¬ SuppliesEmptyList (readFormula (.ofList operators) limit source.toList)) :
    parseFormula (.ofList operators) limit outline.text = .ok outline := by
  have hcatalog (base : Base) (operator : Operator)
      (hoperator : operator ∈ (Catalog.ofList operators).operators base) : operator.HasPlainNames :=
    hnames operator (Catalog.mem_of_mem_operators hoperator)
  obtain ⟨after, hread⟩ := parseFormula_eq_ok_iff.mp h
  have hkept := keeps_isWritten_of_not_suppliesEmptyList hsupplied
  refine parseFormula_eq_ok_iff.mpr ?_
  cases limit with
  | some limit => exact result_fill_text hcatalog ⟨hread, hkept, fun _ _ ↦ trivial⟩ hfinite
  | none =>
    -- the two formulas are given room of their own, so both are read with the greater of the two
    have hfirst := @fill_eq_readFormula operators source.toList 0 _
      (Nat.le_max_left _ (nestingBound (.ofList operators) outline.text.toList))
    have hsecond := @fill_eq_readFormula operators outline.text.toList 0 _
      (Nat.le_max_right (nestingBound (.ofList operators) source.toList) _)
    rw [← hfirst] at hread hkept
    rw [← hsecond]
    exact result_fill_text hcatalog ⟨hread, hkept, fun _ _ ↦ trivial⟩ hfinite

/-- If the names are plain and no keyword argument was supplied with an empty list, then a formula that
is read and written again is read as the same outline exactly if no infinite number was read. -/
theorem parseFormula_text_eq_ok_iff {operators : List Operator}
    (hnames : ∀ operator ∈ operators, operator.HasPlainNames) {limit : Option Nat}
    {source : String} {outline : Outline}
    (h : parseFormula (.ofList operators) limit source = .ok outline)
    (hsupplied : ¬ SuppliesEmptyList (readFormula (.ofList operators) limit source.toList)) :
    parseFormula (.ofList operators) limit outline.text = .ok outline ↔ ¬ outline.HoldsInfinity := by
  constructor
  · intro hagain
    obtain ⟨after, hread⟩ := parseFormula_eq_ok_iff.mp hagain
    refine not_holdsInfinity_of_fill_text (fun base operator hoperator ↦ ?_) hread
    exact hnames operator (Catalog.mem_of_mem_operators hoperator)
  · intro hfinite
    exact parseFormula_text hnames h hfinite hsupplied

/-- An operator on a number. -/
def onNumber : Operator :=
  { name := "f", result := .series, parameters := [.scalar .number], keywords := [] }

/-- The formula that uses `onNumber` on an infinite number. -/
def onInfinity : Outline :=
  .node (.root .series) none [.node (.call .series) none [.node (.operator onNumber) none
    [.node (.choice .number) none [.node (.typed (.scalar .number))
      (some (.number ⟨false, infiniteMagnitude, Nat.le_refl _⟩)) []]]]]

theorem parseFormula_text_onInfinity :
    parseFormula (.ofList [onNumber]) none "(f 1e999)" = .ok onInfinity ∧
      onInfinity.text = "(f inf)" ∧
        parseFormula (.ofList [onNumber]) none onInfinity.text ≠ .ok onInfinity := by
  have hread : parseFormula (.ofList [onNumber]) none "(f 1e999)" = .ok onInfinity := by
    decide +kernel
  have hinfinity : onInfinity.HoldsInfinity := ⟨[0, 0, 0, 0], _, rfl, by decide +kernel⟩
  have hiff := parseFormula_text_eq_ok_iff (by decide +kernel) hread (by decide +kernel)
  exact ⟨hread, by decide +kernel, fun hagain ↦ hiff.mp hagain hinfinity⟩

/-- There are no other causes of a broken round trip than these three. -/
theorem holdsInfinity_or_of_parseFormula_text {operators : List Operator} {limit : Option Nat}
    {source : String} {outline : Outline}
    (h : parseFormula (.ofList operators) limit source = .ok outline)
    (hbroken : parseFormula (.ofList operators) limit outline.text ≠ .ok outline) :
    outline.HoldsInfinity ∨
      SuppliesEmptyList (readFormula (.ofList operators) limit source.toList) ∨
        ∃ operator ∈ operators, ¬ operator.HasPlainNames := by
  by_contra hnone
  simp only [not_or, not_exists, not_and, not_not] at hnone
  obtain ⟨hfinite, hsupplied, hnames⟩ := hnone
  exact hbroken (parseFormula_text hnames h hfinite hsupplied)

/-- An operator on an integer or a string, and two of the same name that produce these. -/
def ambiguousOperators : List Operator :=
  [{ name := "g", result := .series, parameters := [.union [.scalar .int, .scalar .string]],
     keywords := [] },
   { name := "f", result := .scalar .int, parameters := [], keywords := [] },
   { name := "f", result := .scalar .string, parameters := [],
     keywords := [⟨"a", .list (.scalar .int), none⟩] }]

/-- A keyword argument that is supplied with an empty list is not written, and another operator is read
that has none. -/
theorem suppliesEmptyList_of_ambiguousOperators :
    ∃ outline, parseFormula (.ofList ambiguousOperators) none "(g (f #:a ()))" = .ok outline ∧
      outline.text = "(g (f))" ∧
      (outline.HoldsInfinity ∨
        SuppliesEmptyList (readFormula (.ofList ambiguousOperators) none "(g (f #:a ()))".toList) ∨
          ∃ operator ∈ ambiguousOperators, ¬ operator.HasPlainNames) := by
  have hread : parseFormula (.ofList ambiguousOperators) none "(g (f #:a ()))" = .ok _ := rfl
  refine ⟨_, hread, by decide +kernel, ?_⟩
  exact holdsInfinity_or_of_parseFormula_text hread (by decide +kernel)

end Formulary
