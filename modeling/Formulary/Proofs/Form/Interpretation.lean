import Formulary.Proofs.Form.Literal
import Formulary.Proofs.Formula.Parts
/-!
The interpretation of forms. `Interprets` says as what a slot interprets some forms, without places,
separators and failures: the rules are those by which slots are read, and of some alternatives the
first that interprets the forms is taken. Main definitions: `Interprets` and its rules,
`InterpretsParts`.
-/

set_option autoImplicit false
set_option relaxedAutoImplicit false

namespace Formulary

open Text Place Reading

/-! ### Rules -/

/-- A keyword argument as two forms: its marker and its value. -/
def keywordForms (pair : String × Form) : List Form :=
  [.word ("#:" ++ pair.1).toList, pair.2]

theorem toList_marker (name : String) : ("#:" ++ name).toList = '#' :: ':' :: name.toList := by
  rw [String.toList_append]
  rfl

theorem eq_of_keywordForms {pair other : String × Form} (h : keywordForms pair = keywordForms other) :
    pair = other := by
  obtain ⟨hmarker, hform⟩ : ("#:" ++ pair.1).toList = ("#:" ++ other.1).toList ∧
      pair.2 = other.2 := by simpa [keywordForms] using h
  rw [toList_marker, toList_marker, List.cons_inj_right, List.cons_inj_right, String.toList_inj]
    at hmarker
  exact Prod.ext hmarker hform

section Rules

variable (reads : Slot → List Form → Outline → Prop) (refuses : Slot → List Form → Prop)

/-- Slots that interpret one form each. -/
inductive InterpretsEach : List Slot → List Form → List Outline → Prop
  | done : InterpretsEach [] [] []
  | more {slot : Slot} {slots : List Slot} {form : Form} {forms : List Form} {part : Outline}
      {parts : List Outline} (hfirst : reads slot [form] part)
      (hrest : InterpretsEach slots forms parts) :
      InterpretsEach (slot :: slots) (form :: forms) (part :: parts)

/-- A keyword argument is supplied as the first one of the group that interprets it. -/
def Supplies (group : List Keyword) (pair : String × Form) (entry : String × Outline) : Prop :=
  entry.1 = pair.1 ∧ ∃ earlier keyword later,
    group = earlier ++ keyword :: later ∧ keyword.name = pair.1 ∧
      (∀ other ∈ earlier, refuses (.keyword other) (keywordForms pair)) ∧
        reads (.keyword keyword) (keywordForms pair) entry.2

/-- What comes after the arguments of an operator: nothing, or its keyword arguments. -/
inductive InterpretsGroup (group : List Keyword) : List Form → List Outline → Prop
  | none (hgroup : group = []) : InterpretsGroup group [] []
  | some {forms : List Form} {part : Outline} (hgroup : group ≠ [])
      (hpart : reads (.keywords group) forms part) : InterpretsGroup group forms [part]

/-- The rules by which slots interpret forms. -/
inductive InterpretsParts (catalog : Catalog) : Slot → List Form → Outline → Prop
  | root {base : Base} {forms : List Form} {part : Outline} (hpart : reads (.call base) forms part) :
      InterpretsParts catalog (.root base) forms (.node (.root base) none [part])
  | call {base : Base} {operator : Operator} {forms : List Form} {part : Outline}
      (hoperator : (catalog.operators base).find? (fun other ↦ other.name = operator.name) =
        some operator)
      (hpart : reads (.operator operator) forms part) :
      InterpretsParts catalog (.call base) [.group (.word operator.name.toList :: forms)]
        (.node (.call base) none [part])
  | chosen {slot choice : Slot} {earlier later : List Slot} {forms : List Form} {part : Outline}
      (hchoices : slot.choices = earlier ++ choice :: later)
      (hearlier : ∀ other ∈ earlier, refuses other forms) (hpart : reads choice forms part) :
      InterpretsParts catalog slot forms (.node slot none [part])
  | scalar {kind : Scalar} {form : Form} {value : Literal} (hvalue : form.literal? kind = some value) :
      InterpretsParts catalog (.typed (.scalar kind)) [form]
        (.node (.typed (.scalar kind)) (some value) [])
  | list {element : ArgType} {forms : List Form} {parts : List Outline}
      (hparts : InterpretsEach reads (parts.map fun _ ↦ .ofArgument element) forms parts) :
      InterpretsParts catalog (.typed (.list element)) [.group forms]
        (.node (.typed (.list element)) none parts)
  | keywords {group : List Keyword} {pairs : List (String × Form)}
      {supplied : List (String × Outline)}
      (hsupplied : List.Forall₂ (Supplies reads refuses group) pairs supplied)
      (hnames : (pairs.map Prod.fst).Nodup) :
      InterpretsParts catalog (.keywords group) (pairs.flatMap keywordForms)
        (.node (.keywords group) none (arrangeKeywords group supplied))
  | operator {chosen : Operator} {arguments others : List Form} {parts group : List Outline}
      (harguments : InterpretsEach reads (chosen.parameters.map .ofArgument) arguments parts)
      (hgroup : InterpretsGroup reads chosen.keywords others group) :
      InterpretsParts catalog (.operator chosen) (arguments ++ others)
        (.node (.operator chosen) none (parts ++ group))
  | keyword {own : Keyword} {form : Form} {value : Outline}
      (hvalue : reads (.ofArgument own.type) [form] value) :
      InterpretsParts catalog (.keyword own) (keywordForms (own.name, form))
        (.node (.keyword own) none [value])

end Rules

/-- Keyword arguments are supplied under the names of their markers. -/
theorem map_fst_of_supplies {reads : Slot → List Form → Outline → Prop}
    {refuses : Slot → List Form → Prop} {group : List Keyword} {pairs : List (String × Form)}
    {supplied : List (String × Outline)}
    (h : List.Forall₂ (Supplies reads refuses group) pairs supplied) :
    supplied.map Prod.fst = pairs.map Prod.fst := by
  induction h with
  | nil => rfl
  | cons hpair hall ih => rw [List.map_cons, List.map_cons, hpair.1, ih]

/-- A slot interprets some forms as an outline, within some room for slots inside one another. All
the outlines that are part of it are of a given sort. -/
def Interprets (catalog : Catalog) :
    Nat → (Outline → Prop) → Slot → List Form → Outline → Prop
  | 0, _, _, _, _ => False
  | room + 1, keeps, slot, forms, outline =>
    keeps outline ∧
      InterpretsParts (Interprets catalog room keeps)
        (fun part forms ↦ ∀ outline, ¬ Interprets catalog room (fun _ ↦ True) part forms outline)
        catalog slot forms outline

/-- How many forms a slot interprets, if it takes up text. -/
def Slot.formCount : Slot → Nat
  | .keyword _ => 2
  | _ => 1

theorem Slot.formCount_of_isArgument {slot : Slot} (h : slot.isArgument = true) :
    slot.formCount = 1 := by
  cases slot <;> first | rfl | exact nomatch h

/-- A slot that takes up text interprets a number of forms that it determines. -/
theorem length_of_interprets {catalog : Catalog} {room : Nat} {keeps : Outline → Prop} {slot : Slot}
    {forms : List Form} {outline : Outline} (hslot : slot.takesText = true)
    (h : Interprets catalog room keeps slot forms outline) : forms.length = slot.formCount := by
  induction room generalizing slot forms outline with
  | zero => exact h.elim
  | succ room ih =>
    cases h.2 with
    | @root base _ _ hpart =>
      have hlength : forms.length = (Slot.call base).formCount := ih rfl hpart
      exact hlength
    | call | scalar | list | keyword => rfl
    | @chosen _ choice earlier later _ _ hchoices hearlier hpart =>
      have hchoice : choice ∈ slot.choices := by simp [hchoices]
      obtain ⟨hargument, hslot'⟩ := Slot.isArgument_of_mem_choices hchoice
      rw [ih (Slot.takesText_of_isArgument hargument) hpart,
        Slot.formCount_of_isArgument hargument, Slot.formCount_of_isArgument hslot']
    | keywords | operator => exact nomatch hslot

/-- An argument is one form. -/
theorem exists_form_of_interprets {catalog : Catalog} {room : Nat} {keeps : Outline → Prop}
    {slot : Slot} {forms : List Form} {outline : Outline} (hslot : slot.isArgument = true)
    (h : Interprets catalog room keeps slot forms outline) : ∃ form, forms = [form] := by
  have hlength := length_of_interprets (Slot.takesText_of_isArgument hslot) h
  rw [Slot.formCount_of_isArgument hslot] at hlength
  exact List.length_eq_one_iff.mp hlength

/-- A keyword argument is interpreted from its marker and a form of its value. -/
theorem exists_value_of_interprets {catalog : Catalog} {room : Nat} {keeps : Outline → Prop}
    {own : Keyword} {forms : List Form} {outline : Outline}
    (h : Interprets catalog room keeps (.keyword own) forms outline) :
    ∃ inner form value, forms = keywordForms (own.name, form) ∧
      outline = .node (.keyword own) none [value] ∧ keeps outline ∧
        Interprets catalog inner keeps (.ofArgument own.type) [form] value := by
  cases room with
  | zero => exact h.elim
  | succ inner =>
    obtain ⟨hkeeps, hparts⟩ := h
    cases hparts with
    | chosen hchoices => exact absurd hchoices (Slot.choices_ne_append rfl)
    | @keyword _ form value hvalue => exact ⟨inner, form, value, rfl, rfl, hkeeps, hvalue⟩

end Formulary
