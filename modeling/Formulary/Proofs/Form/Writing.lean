import Formulary.Proofs.Form.Agreement
import Formulary.Proofs.Formula.Arrangement
import Formulary.Proofs.Formula.Conformity
import Formulary.Proofs.Lists
import Formulary.Proofs.Token.Written
/-!
What an outline is written as. The text of an outline that conforms to a catalog consists of forms
that are known from the outline (`writes_of_conforms`), as long as names are made of the characters
of words. Main definitions: `Spells`, `Writes`, `Literal.form` and `Outline.forms`.
-/

set_option autoImplicit false
set_option relaxedAutoImplicit false

namespace Formulary

open Text Place

/-- Some characters spell a form in front of whatever ends a word, with no separator before it. -/
def Spells (characters : List Char) (form : Form) : Prop :=
  ∀ rest, isDelimited rest = true → Sequence (characters ++ rest) [form] (dropSeparators rest)

namespace Spells

variable {characters : List Char}

theorem word (hsome : characters ≠ [])
    (hword : ∀ character ∈ characters, isWordCharacter character = true) :
    Spells characters (.word characters) :=
  fun _ hrest ↦ .word hsome hword hrest (.done _)

theorem string {body : List Char} (h : ∀ rest, QuotedBody (characters ++ '"' :: rest) body rest) :
    Spells ('"' :: characters ++ ['"']) (.string body) := by
  intro rest hrest
  rw [List.append_assoc]
  exact .string (h rest) hrest (.done _)

end Spells

/-- Some characters are read as some forms in front of whatever ends a word. -/
def Writes (characters : List Char) (forms : List Form) : Prop :=
  ∀ rest, isDelimited rest = true →
    Sequence (dropSeparators (characters ++ rest)) forms (dropSeparators rest)

namespace Writes

variable {characters others : List Char} {forms members : List Form}

theorem nil : Writes [] [] :=
  fun rest _ ↦ .done (dropSeparators rest)

theorem blank (h : Writes characters forms) : Writes (' ' :: characters) forms := by
  intro rest hrest
  rw [List.cons_append, dropSeparators_blank _ rfl]
  exact h rest hrest

theorem append (hfirst : Writes characters forms) (hsecond : Writes others members)
    (hends : ∀ rest, isDelimited rest = true → isDelimited (others ++ rest) = true) :
    Writes (characters ++ others) (forms ++ members) := by
  intro rest hrest
  rw [List.append_assoc]
  exact (hfirst _ (hends rest hrest)).append (hsecond rest hrest)

theorem of_spells {form : Form} (h : Spells characters form) : Writes characters [form] := by
  intro rest hrest
  rw [(h rest hrest).dropSeparators_eq]
  exact h rest hrest

theorem word (hsome : characters ≠ [])
    (hword : ∀ character ∈ characters, isWordCharacter character = true) :
    Writes characters [.word characters] :=
  of_spells (Spells.word hsome hword)

theorem group (h : Writes characters members) :
    Writes ('(' :: characters ++ [')']) [.group members] := by
  refine of_spells fun rest hrest ↦ ?_
  have hmembers := h (')' :: rest) rfl
  rw [dropSeparators_close] at hmembers
  rw [List.append_assoc]
  exact .group hmembers (.done _)

end Writes

/-! ### Literals -/

/-- The form that a literal is written as. -/
def Literal.form : Literal → Form
  | .string value => .string value.toList
  | .timestamp value => .string value.formulaText
  | literal => .word literal.characters

theorem isNumeralCharacter_of_mem_signedDigitsOf (value : Int) :
    ∀ character ∈ signedDigitsOf value, isNumeralCharacter character = true := by
  rw [signedDigitsOf_eq]
  exact isNumeralCharacter_of_mem_writtenNumeral isDigit_of_mem_digitsOf nofun

theorem spells_number (number : Number) :
    Spells (formulaStyle.write number) (.word (formulaStyle.write number)) := by
  by_cases hfinite : number.isFinite = true
  · obtain ⟨whole, places, hwritten, hsome, hwhole, hplaces, -⟩ := exists_numeral_of_write hfinite
    have hdigits : ∀ found ∈ some places, ∀ digit ∈ found, digit.isDigit = true := by
      rintro found ⟨⟩
      exact hplaces
    rw [hwritten]
    refine Spells.word ?_ fun character hcharacter ↦ isWordCharacter_of_isNumeralCharacter
      (isNumeralCharacter_of_mem_writtenNumeral hwhole hdigits character hcharacter)
    simp [writtenNumeral, hsome]
  · have hinfinite : formulaStyle.write number =
        if number.negative then ['-', 'i', 'n', 'f'] else ['i', 'n', 'f'] := by
      simp [NumberStyle.write, hfinite]
    rw [hinfinite]
    cases number.negative with
    | true => exact Spells.word (List.cons_ne_nil _ _) (List.all_eq_true.mp rfl)
    | false => exact Spells.word (List.cons_ne_nil _ _) (List.all_eq_true.mp rfl)

/-- A literal is written as its form. -/
theorem spells_literal (literal : Literal) : Spells literal.characters literal.form := by
  cases literal with
  | int value =>
    refine Spells.word ?_ fun character hcharacter ↦ isWordCharacter_of_isNumeralCharacter
      (isNumeralCharacter_of_mem_signedDigitsOf value.toInt character hcharacter)
    simp [Literal.characters, signedDigitsOf_eq, writtenNumeral, digitsOf_ne_nil]
  | number value => exact spells_number value
  | nan => exact Spells.word (List.cons_ne_nil _ _) (List.all_eq_true.mp rfl)
  | string value => exact Spells.string (quotedBody_escaped value.toList)
  | bool value =>
    cases value with
    | true => exact Spells.word (List.cons_ne_nil _ _) (List.all_eq_true.mp rfl)
    | false => exact Spells.word (List.cons_ne_nil _ _) (List.all_eq_true.mp rfl)
  | timestamp value => exact Spells.string (quotedBody_formulaText value)

/-! ### Outlines -/

namespace Outline

/-- The form of a literal, or of the placeholder. -/
def contentForm (content : Option Literal) : Form :=
  content.elim (.word [placeholder]) Literal.form

mutual

/-- The forms that an outline is written as. -/
def forms : Outline → List Form
  | .node (.operator operator) _ parts =>
    [.group (.word operator.name.toList :: formsOfAll parts)]
  | .node (.keywords _) _ parts => formsOfSupplied parts
  | .node (.keyword keyword) content parts =>
    .word keyword.marker.toList :: formsOfFirst content parts
  | .node (.typed (.list _)) _ parts => [.group (formsOfAll parts)]
  | .node (.typed (.scalar _)) content _ => [contentForm content]
  | .node (.typed .series) content _ => [contentForm content]
  | .node _ content parts => formsOfFirst content parts

/-- The forms of some outlines one after the other. -/
def formsOfAll : List Outline → List Form
  | [] => []
  | outline :: outlines => outline.forms ++ formsOfAll outlines

/-- The forms of the keyword arguments that are supplied. -/
def formsOfSupplied : List Outline → List Form
  | [] => []
  | outline :: outlines =>
    if outline.isSupplied then outline.forms ++ formsOfSupplied outlines
    else formsOfSupplied outlines

/-- The forms of the first part of a slot, or of what the slot holds if it has none. -/
def formsOfFirst (content : Option Literal) : List Outline → List Form
  | [] => [contentForm content]
  | outline :: _ => outline.forms

end

theorem formsOfAll_eq (outlines : List Outline) : formsOfAll outlines = outlines.flatMap forms := by
  induction outlines with
  | nil => rfl
  | cons outline outlines ih => rw [formsOfAll, ih, List.flatMap_cons]

theorem formsOfSupplied_eq (outlines : List Outline) :
    formsOfSupplied outlines = (outlines.filter isSupplied).flatMap forms := by
  induction outlines with
  | nil => rfl
  | cons outline outlines ih =>
    by_cases hsupplied : outline.isSupplied = true
    · rw [formsOfSupplied, if_pos hsupplied, List.filter_cons_of_pos hsupplied, List.flatMap_cons, ih]
    · rw [formsOfSupplied, if_neg hsupplied, List.filter_cons_of_neg hsupplied, ih]

/-- Every keyword argument is written after a space. -/
theorem isDelimited_keywordCharacters (outlines : List Outline) {rest : List Char}
    (hrest : isDelimited rest = true) :
    isDelimited (keywordCharacters outlines ++ rest) = true := by
  induction outlines with
  | nil => exact hrest
  | cons outline outlines ih =>
    rw [keywordCharacters]
    split
    · rfl
    · exact ih

/-- Every operand is written after a space. -/
theorem isDelimited_operandCharacters (outlines : List Outline) {rest : List Char}
    (hrest : isDelimited rest = true) :
    isDelimited (operandCharacters outlines ++ rest) = true := by
  induction outlines with
  | nil => exact hrest
  | cons outline outlines ih =>
    obtain ⟨slot, content, parts⟩ := outline
    rw [operandCharacters]
    split
    · rename_i group hslot
      obtain rfl : slot = .keywords group := hslot
      rw [characters, List.append_assoc]
      exact isDelimited_keywordCharacters parts ih
    · rfl

theorem writes_operands {outlines : List Outline}
    (h : ∀ outline ∈ outlines, Writes outline.characters outline.forms) :
    Writes (operandCharacters outlines) (formsOfAll outlines) := by
  induction outlines with
  | nil => exact .nil
  | cons outline outlines ih =>
    rw [List.forall_mem_cons] at h
    have hrest := fun rest hrest ↦ @isDelimited_operandCharacters outlines rest hrest
    rw [operandCharacters, formsOfAll]
    split
    · exact h.1.append (ih h.2) hrest
    · exact (h.1.blank).append (ih h.2) hrest

theorem writes_supplied {outlines : List Outline}
    (h : ∀ outline ∈ outlines, outline.isSupplied = true → Writes outline.characters outline.forms) :
    Writes (keywordCharacters outlines) (formsOfSupplied outlines) := by
  induction outlines with
  | nil => exact .nil
  | cons outline outlines ih =>
    rw [List.forall_mem_cons] at h
    rw [keywordCharacters, formsOfSupplied]
    split
    · rename_i hsupplied
      exact (h.1 hsupplied).blank.append (ih h.2) fun rest hrest ↦
        isDelimited_keywordCharacters outlines hrest
    · exact ih h.2

theorem writes_elements {outlines : List Outline}
    (h : ∀ outline ∈ outlines, Writes outline.characters outline.forms) :
    Writes (elementCharacters outlines) (formsOfAll outlines) := by
  induction outlines with
  | nil => exact .nil
  | cons outline outlines ih =>
    rw [List.forall_mem_cons] at h
    cases outlines with
    | nil =>
      rw [formsOfAll, formsOfAll, List.append_nil]
      exact h.1
    | cons second outlines =>
      rw [elementCharacters, formsOfAll]
      · exact h.1.append (ih h.2).blank fun rest hrest ↦ rfl
      · exact List.cons_ne_nil _ _

end Outline

/-- An outline that conforms to a catalog is written as its forms. -/
theorem writes_of_conforms {catalog : Catalog}
    (hcatalog : ∀ base, ∀ operator ∈ catalog.operators base, operator.HasWordNames)
    {outline : Outline} (h : Conforms catalog outline) (hnames : outline.slot.HasWordNames) :
    Writes outline.characters outline.forms := by
  induction h with
  | root hslot hpart ih => exact ih (by rw [hslot]; trivial)
  | call hoperator hslot hpart ih =>
    refine ih ?_
    rw [hslot]
    exact hcatalog _ _ (List.mem_of_find?_eq_some hoperator)
  | choice hslot hpart ih =>
    refine ih ?_
    rcases hslot with hslot | hslot <;> rw [hslot] <;> trivial
  | scalar hvalue => exact .of_spells (spells_literal _)
  | union htype hslot hpart ih =>
    refine ih ?_
    rw [hslot]
    exact Slot.hasWordNames_of_isArgument (Slot.isArgument_ofArgument _)
  | list hslots hparts ih =>
    refine (Outline.writes_elements fun part hpart ↦ ih part hpart ?_).group
    rw [hslots part hpart]
    exact Slot.hasWordNames_of_isArgument (Slot.isArgument_ofArgument _)
  | @operator chosen parts hslots hparts ih =>
    have hoperands := Outline.writes_operands fun part hpart ↦ ih part hpart
      (Slot.hasWordNames_of_mem_slots hnames (hslots ▸ List.mem_map_of_mem hpart))
    have hname := (Writes.word hnames.1.1 hnames.1.2).append hoperands fun rest hrest ↦
      Outline.isDelimited_operandCharacters parts hrest
    exact hname.group
  | @keywords group parts supplied hparts hsupplied ih =>
    refine Outline.writes_supplied fun part hpart hfilled ↦ ?_
    obtain ⟨keyword, -, hkeyword⟩ := exists_mem_of_forall₂ hparts.flip hpart
    rcases hkeyword with rfl | ⟨hmem, own, hown, -, hslot⟩
    · exact nomatch hfilled.symm.trans (isSupplied_absent keyword)
    · refine ih part hmem ?_
      rw [hslot]
      exact hnames own hown
  | @keyword own value hslot hfilled hvalue ih =>
    have hmarker := IsWordName.marker hnames
    have hword : Writes own.marker.toList [.word own.marker.toList] :=
      Writes.word hmarker.1 hmarker.2
    have hargument : value.slot.HasWordNames := by
      rw [hslot]
      exact Slot.hasWordNames_of_isArgument (Slot.isArgument_ofArgument _)
    exact hword.append (ih hargument).blank fun rest hrest ↦ rfl

end Formulary
