import Formulary.Proofs.Form.Restoring
/-!
Outlines that hold an infinite number. Such a number is written as a word that is not a number, so an
outline that its own forms are interpreted as holds none (`not_holdsInfinity_of_interprets`). Main
definition: `Outline.ownForms`.
-/

set_option autoImplicit false
set_option relaxedAutoImplicit false

namespace Formulary

open Text Place

/-- The form of an infinite number does not denote it. -/
theorem not_denotes_form_of_infinite {value : Literal} (hinfinite : value.isFinite = false) :
    ¬ Denotes value.form value := by
  cases value with
  | number number =>
    have hword : formulaStyle.write number =
        if number.negative then ['-', 'i', 'n', 'f'] else ['i', 'n', 'f'] := by
      have hnot : number.isFinite = false := hinfinite
      simp [NumberStyle.write, hnot]
    have hnone : numeral? (formulaStyle.write number) = none := by
      rw [hword]
      cases number.negative <;> rfl
    intro hdenotes
    generalize htext : formulaStyle.write number = text at hnone
    have hform : (Literal.number number).form = .word text := congrArg Form.word htext
    rw [hform] at hdenotes
    cases hdenotes with
    | number hnumeral => exact Option.some_ne_none _ (hnumeral.symm.trans hnone)
  | nan =>
    intro hdenotes
    cases hdenotes
  | int | string | bool | timestamp => exact absurd hinfinite.symm Bool.false_ne_true

namespace Outline

theorem not_holdsInfinity_absent (keyword : Keyword) : ¬ keyword.absent.HoldsInfinity := by
  intro h
  obtain ⟨hslot, -⟩ | ⟨part, hpart, hinfinite⟩ := holdsInfinity_node_iff.mp h
  · exact nomatch hslot
  · obtain rfl := List.mem_singleton.mp hpart
    obtain ⟨hslot, -⟩ | ⟨part, hpart, -⟩ := holdsInfinity_node_iff.mp hinfinite
    · cases htype : keyword.type <;> rw [htype] at hslot <;> exact nomatch hslot
    · exact absurd hpart List.not_mem_nil

/-- The forms that an outline is interpreted from if it is written: for an operator those that come
after its name. -/
def ownForms : Outline → List Form
  | .node (.operator _) _ parts => formsOfAll parts
  | outline => outline.forms

theorem ownForms_eq_forms {outline : Outline} (h : ∀ chosen, outline.slot ≠ .operator chosen) :
    outline.ownForms = outline.forms := by
  obtain ⟨slot, content, parts⟩ := outline
  cases slot with
  | operator chosen => exact absurd rfl (h chosen)
  | root | call | choice | typed | keywords | keyword => rfl

end Outline

/-! ### What is interpreted from its own forms -/

section Rules

variable {catalog : Catalog} {room : Nat} {keeps : Outline → Prop}

theorem Slot.ne_operator_of_isArgument {slot : Slot} (h : slot.isArgument = true)
    (chosen : Operator) : slot ≠ .operator chosen := by
  rintro rfl
  exact nomatch h

theorem slot_of_interprets {slot : Slot} {forms : List Form} {outline : Outline}
    (h : Interprets catalog room keeps slot forms outline) : outline.slot = slot := by
  cases room with
  | zero => exact h.elim
  | succ room => cases h.2 <;> rfl

theorem ownForms_of_interprets {slot : Slot} {forms : List Form} {outline : Outline}
    (hslot : ∀ chosen, slot ≠ .operator chosen)
    (h : Interprets catalog room keeps slot forms outline) : outline.ownForms = outline.forms :=
  Outline.ownForms_eq_forms fun chosen hchosen ↦
    hslot chosen ((slot_of_interprets h).symm.trans hchosen)

/-- An argument is written as one form. -/
theorem exists_form_of_argument {slot : Slot} {forms : List Form} {outline : Outline}
    (hslot : slot.isArgument = true) (h : Interprets catalog room keeps slot forms outline) :
    ∃ written, outline.forms = [written] := by
  induction room generalizing slot forms outline with
  | zero => exact h.elim
  | succ room ih =>
    cases h.2 with
    | @call base operator forms part hoperator hpart =>
      have hpartSlot := slot_of_interprets hpart
      obtain ⟨slot, content, parts⟩ := part
      obtain rfl : slot = .operator operator := hpartSlot
      exact ⟨_, rfl⟩
    | @chosen _ choice earlier later _ part hchoices hearlier hpart =>
      have hmem : choice ∈ slot.choices := by simp [hchoices]
      rw [Outline.forms_of_choices (List.ne_nil_of_mem hmem)]
      exact ih (Slot.isArgument_of_mem_choices hmem).1 hpart
    | scalar | list => exact ⟨_, rfl⟩
    | root | keywords | operator | keyword => exact nomatch hslot

/-- A keyword argument is written as its marker and one form. -/
theorem exists_keywordForms {own : Keyword} {forms : List Form} {outline : Outline}
    (h : Interprets catalog room keeps (.keyword own) forms outline) :
    ∃ written, outline.forms = keywordForms (own.name, written) := by
  obtain ⟨inner, form, value, -, rfl, -, hvalue⟩ := exists_value_of_interprets h
  obtain ⟨written, hwritten⟩ := exists_form_of_argument (Slot.isArgument_ofArgument own.type) hvalue
  exact ⟨written, congrArg (Form.word own.marker.toList :: ·) hwritten⟩

/-- Arguments that are interpreted from what they are written as are so one by one. -/
theorem interprets_of_each {types : List ArgType} {parts : List Outline}
    (h : InterpretsEach (Interprets catalog room keeps) (types.map .ofArgument)
      (Outline.formsOfAll parts) parts) :
    ∀ part ∈ parts, ∃ slot, Interprets catalog room keeps slot part.ownForms part := by
  induction types generalizing parts with
  | nil =>
    generalize Outline.formsOfAll parts = forms at h
    cases h
    exact nofun
  | cons type types ih =>
    generalize hforms : Outline.formsOfAll parts = forms at h
    cases h with
    | @more _ _ form forms part parts hfirst hrest =>
      have hargument := Slot.isArgument_ofArgument type
      obtain ⟨written, hwritten⟩ := exists_form_of_argument hargument hfirst
      rw [Outline.formsOfAll, hwritten] at hforms
      obtain ⟨rfl, rfl⟩ := List.cons.inj hforms
      refine List.forall_mem_cons.mpr ⟨⟨.ofArgument type, ?_⟩, ih hrest⟩
      rw [ownForms_of_interprets (Slot.ne_operator_of_isArgument hargument) hfirst, hwritten]
      exact hfirst

theorem length_formsOfAll {types : List ArgType} {forms : List Form} {parts : List Outline}
    (h : InterpretsEach (Interprets catalog room keeps) (types.map .ofArgument) forms parts) :
    (Outline.formsOfAll parts).length = forms.length := by
  induction types generalizing forms parts with
  | nil =>
    cases h
    rfl
  | cons type types ih =>
    cases h with
    | @more _ _ form forms part parts hfirst hrest =>
      obtain ⟨written, hwritten⟩ :=
        exists_form_of_argument (Slot.isArgument_ofArgument type) hfirst
      rw [Outline.formsOfAll, hwritten, List.cons_append, List.length_cons, List.nil_append,
        ih hrest, List.length_cons]

/-- Keyword arguments that are interpreted from what they are written as are so one by one. -/
theorem interprets_of_supplied {refuses : Slot → List Form → Prop} {group : List Keyword}
    {pairs : List (String × Form)} {supplied : List (String × Outline)}
    (hsupplied : List.Forall₂ (Supplies (Interprets catalog room keeps) refuses group) pairs supplied)
    (hnames : (pairs.map Prod.fst).Nodup)
    (hforms : Outline.formsOfSupplied (arrangeKeywords group supplied) =
      pairs.flatMap keywordForms) :
    ∀ part ∈ arrangeKeywords group supplied, (∃ keyword : Keyword, part = keyword.absent) ∨
      ∃ own forms, Interprets catalog room keeps (.keyword own) forms part ∧
        (part.isSupplied = true → part.forms = forms) := by
  have hparts (part : Outline) (hpart : part ∈ arrangeKeywords group supplied) :
      (∃ keyword : Keyword, part = keyword.absent) ∨
        ∃ pair ∈ pairs, ∃ own : Keyword, own.name = pair.1 ∧
          Interprets catalog room keeps (.keyword own) (keywordForms pair) part := by
    obtain ⟨keyword, -, hkeyword⟩ :=
      exists_mem_of_forall₂ (forall₂_arrangeKeywords group supplied).flip hpart
    refine hkeyword.imp (fun habsent ↦ ⟨keyword, habsent⟩) fun hentry ↦ ?_
    obtain ⟨pair, hpair, -, earlier, own, later, -, hown, -, hread⟩ :=
      exists_mem_of_forall₂ hsupplied.flip hentry
    exact ⟨pair, hpair, own, hown, hread⟩
  have hwritten (part : Outline)
      (hpart : part ∈ (arrangeKeywords group supplied).filter Outline.isSupplied) :
      ∃ pair, part.forms = keywordForms pair := by
    obtain ⟨hpart, hfilled⟩ := List.mem_filter.mp hpart
    rcases hparts part hpart with ⟨keyword, rfl⟩ | ⟨pair, -, own, -, hread⟩
    · exact nomatch hfilled.symm.trans (isSupplied_absent keyword)
    · obtain ⟨written, hwritten⟩ := exists_keywordForms hread
      exact ⟨_, hwritten⟩
  obtain ⟨written, hall⟩ := exists_forall₂ hwritten
  -- the markers tell which forms stand for which part
  have hsame : written = pairs := by
    rw [Outline.formsOfSupplied_eq, Outline.flatMap_forms_eq hall] at hforms
    exact flatMap_keywordForms_inj hforms
  subst hsame
  intro part hpart
  refine (hparts part hpart).imp_right fun ⟨pair, hpair, own, hown, hread⟩ ↦ ?_
  refine ⟨own, keywordForms pair, hread, fun hfilled ↦ ?_⟩
  obtain ⟨other, hother, hforms⟩ :=
    exists_mem_of_forall₂ hall (List.mem_filter.mpr ⟨hpart, hfilled⟩)
  obtain ⟨form, hform⟩ := exists_keywordForms hread
  have hname : other = (own.name, form) := eq_of_keywordForms (hforms.symm.trans hform)
  have hpairs : other = pair :=
    List.inj_on_of_nodup_map hnames hother hpair (by rw [hname, hown])
  rw [hforms, hpairs]

end Rules

/-! ### Finiteness -/

namespace Outline

theorem not_holdsInfinity_node {slot : Slot} {content : Option Literal} {parts : List Outline}
    (hslot : slot ≠ .typed (.scalar .number)) (hparts : ∀ part ∈ parts, ¬ part.HoldsInfinity) :
    ¬ (node slot content parts).HoldsInfinity := by
  intro h
  obtain ⟨hnumber, -⟩ | ⟨part, hpart, hinfinite⟩ := holdsInfinity_node_iff.mp h
  · exact hslot hnumber
  · exact hparts part hpart hinfinite

/-- A list without elements holds no number. -/
theorem not_holdsInfinity_of_isEmptyList {outline : Outline} (h : outline.isEmptyList = true) :
    ¬ outline.HoldsInfinity := by
  unfold isEmptyList at h
  split at h
  · exact not_holdsInfinity_node nofun nofun
  · exact nomatch h

end Outline

/-- A keyword argument that is not written holds no number. -/
theorem not_holdsInfinity_of_not_isSupplied {catalog : Catalog} {room : Nat} {keeps : Outline → Prop}
    {own : Keyword} {forms : List Form} {outline : Outline}
    (h : Interprets catalog room keeps (.keyword own) forms outline)
    (hsupplied : ¬ outline.isSupplied = true) : ¬ outline.HoldsInfinity := by
  obtain ⟨inner, form, value, -, rfl, -, hvalue⟩ := exists_value_of_interprets h
  have hfilled := isFilled_of_interprets (Slot.isArgument_ofArgument own.type) hvalue
  have hnot : ¬ value.isFilled = true := hsupplied
  have hempty : value.isEmptyList = true := by simpa [hfilled] using hnot
  refine Outline.not_holdsInfinity_node (by simp) fun part hpart ↦ ?_
  rw [List.mem_singleton.mp hpart]
  exact Outline.not_holdsInfinity_of_isEmptyList hempty


section Induction

variable {catalog : Catalog} {room : Nat} {keeps : Outline → Prop}
  (ih : ∀ {slot : Slot} {outline : Outline},
    Interprets catalog room keeps slot outline.ownForms outline → ¬ outline.HoldsInfinity)

include ih

theorem not_holdsInfinity_of_argument {slot : Slot} {outline : Outline}
    (h : Interprets catalog room keeps slot outline.forms outline)
    (hslot : ∀ chosen, slot ≠ .operator chosen) : ¬ outline.HoldsInfinity := by
  rw [← ownForms_of_interprets hslot h] at h
  exact ih h

theorem not_holdsInfinity_of_call {operator : Operator} {forms : List Form} {part : Outline}
    (hforms : part.forms = [.group (.word operator.name.toList :: forms)])
    (h : Interprets catalog room keeps (.operator operator) forms part) : ¬ part.HoldsInfinity := by
  have hslot := slot_of_interprets h
  obtain ⟨slot, content, parts⟩ := part
  obtain rfl : slot = .operator operator := hslot
  obtain ⟨hgroup, -⟩ := List.cons.inj hforms
  obtain ⟨-, hsame⟩ := List.cons.inj (Form.group.inj hgroup)
  rw [← hsame] at h
  exact ih h

theorem not_holdsInfinity_of_supplied {group : List Keyword} {pairs : List (String × Form)}
    {refuses : Slot → List Form → Prop} {supplied : List (String × Outline)}
    (hsupplied : List.Forall₂ (Supplies (Interprets catalog room keeps) refuses group) pairs supplied)
    (hnames : (pairs.map Prod.fst).Nodup)
    (hforms : Outline.formsOfSupplied (arrangeKeywords group supplied) =
      pairs.flatMap keywordForms) :
    ∀ part ∈ arrangeKeywords group supplied, ¬ part.HoldsInfinity := by
  intro part hpart
  rcases interprets_of_supplied hsupplied hnames hforms part hpart with
    ⟨keyword, rfl⟩ | ⟨own, forms, hread, hwritten⟩
  · exact Outline.not_holdsInfinity_absent keyword
  · by_cases hfilled : part.isSupplied = true
    · rw [← hwritten hfilled] at hread
      exact not_holdsInfinity_of_argument ih hread (by simp)
    · exact not_holdsInfinity_of_not_isSupplied hread hfilled

theorem not_holdsInfinity_of_operands {chosen : Operator} {arguments others : List Form}
    {parts group : List Outline}
    (harguments : InterpretsEach (Interprets catalog room keeps) (chosen.parameters.map .ofArgument)
      arguments parts)
    (hgroup : InterpretsGroup (Interprets catalog room keeps) chosen.keywords others group)
    (hforms : Outline.formsOfAll (parts ++ group) = arguments ++ others) :
    ∀ part ∈ parts ++ group, ¬ part.HoldsInfinity := by
  rw [Outline.formsOfAll_eq, List.flatMap_append, ← Outline.formsOfAll_eq, ← Outline.formsOfAll_eq]
    at hforms
  obtain ⟨rfl, rfl⟩ := List.append_inj hforms (length_formsOfAll harguments)
  refine List.forall_mem_append.mpr ⟨fun part hpart ↦ ?_, ?_⟩
  · obtain ⟨slot, hread⟩ := interprets_of_each harguments part hpart
    exact ih hread
  · generalize hothers : Outline.formsOfAll group = others at hgroup
    cases hgroup with
    | none => exact List.forall_mem_nil _
    | @some _ part hsome hpart =>
      rw [Outline.formsOfAll, Outline.formsOfAll, List.append_nil] at hothers
      rw [← hothers] at hpart
      refine List.forall_mem_singleton.mpr ?_
      exact not_holdsInfinity_of_argument ih hpart (by simp)

end Induction

/-- An outline that is interpreted from what it is written as holds no infinite number. -/
theorem not_holdsInfinity_of_interprets {catalog : Catalog} {room : Nat} {keeps : Outline → Prop}
    {slot : Slot} {outline : Outline}
    (h : Interprets catalog room keeps slot outline.ownForms outline) : ¬ outline.HoldsInfinity := by
  induction room generalizing slot outline with
  | zero => exact h.elim
  | succ room ih =>
    have hparts := h.2
    generalize hforms : outline.ownForms = forms at hparts
    cases hparts with
    | root hpart =>
      obtain rfl : _ = forms := hforms
      refine Outline.not_holdsInfinity_node (by simp) (List.forall_mem_singleton.mpr ?_)
      exact not_holdsInfinity_of_argument ih hpart (by simp)
    | call hoperator hpart =>
      refine Outline.not_holdsInfinity_node (by simp) (List.forall_mem_singleton.mpr ?_)
      exact not_holdsInfinity_of_call ih hforms hpart
    | @chosen _ choice earlier later _ part hchoices hearlier hpart =>
      have hmem : choice ∈ slot.choices := by simp [hchoices]
      have hargument := Slot.isArgument_of_mem_choices hmem
      have hown : (Outline.node slot none [part]).ownForms = part.forms :=
        (ownForms_of_interprets (Slot.ne_operator_of_isArgument hargument.2) h).trans
          (Outline.forms_of_choices (List.ne_nil_of_mem hmem))
      rw [← hforms, hown] at hpart
      refine Outline.not_holdsInfinity_node ?_ (List.forall_mem_singleton.mpr ?_)
      · rintro rfl
        exact absurd hchoices (Slot.choices_ne_append rfl)
      · exact not_holdsInfinity_of_argument ih hpart (Slot.ne_operator_of_isArgument hargument.1)
    | @scalar kind form value hvalue =>
      obtain ⟨rfl, -⟩ := List.cons.inj hforms
      obtain ⟨hdenotes, -⟩ := literal?_eq_some_iff.mp hvalue
      intro hinfinity
      obtain ⟨-, -, number, hnumber, hinfinite⟩ | ⟨part, hpart, -⟩ :=
        Outline.holdsInfinity_node_iff.mp hinfinity
      · obtain rfl := Option.some.inj hnumber
        have hinfinite' : (Literal.number number).isFinite = false := hinfinite
        exact not_denotes_form_of_infinite hinfinite' hdenotes
      · exact absurd hpart List.not_mem_nil
    | @list element members parts heach =>
      obtain rfl := Form.group.inj (List.cons.inj hforms).1
      have helements := Slot.map_const_ofArgument element parts
      rw [helements] at heach
      refine Outline.not_holdsInfinity_node (by simp) fun part hpart ↦ ?_
      obtain ⟨slot, hread⟩ := interprets_of_each heach part hpart
      exact ih hread
    | keywords hsupplied hnames =>
      refine Outline.not_holdsInfinity_node (by simp) ?_
      exact not_holdsInfinity_of_supplied ih hsupplied hnames hforms
    | operator harguments hgroup =>
      refine Outline.not_holdsInfinity_node (by simp) ?_
      exact not_holdsInfinity_of_operands ih harguments hgroup hforms
    | @keyword own form value hvalue =>
      obtain ⟨-, hvalueForms⟩ := List.cons.inj hforms
      have hvalueForms' : value.forms = [form] := hvalueForms
      rw [← hvalueForms'] at hvalue
      refine Outline.not_holdsInfinity_node (by simp) (List.forall_mem_singleton.mpr ?_)
      exact not_holdsInfinity_of_argument ih hvalue
        (Slot.ne_operator_of_isArgument (Slot.isArgument_ofArgument own.type))

end Formulary
