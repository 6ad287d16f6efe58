import Formulary.Proofs.Form.Restoring
import Formulary.Proofs.Record.Reading
import Formulary.Proofs.Record.Selection
/-!
Which keyword arguments are written. In the formula of an outline that was read, each use of an operator
has the keyword arguments that the text supplied there, each of them once, and no others. The one
exception is a keyword argument whose value is a list without elements: it counts as left out, and is
not written (`exists_isWritten_of_parseFormula`).
-/

set_option autoImplicit false
set_option relaxedAutoImplicit false

namespace Formulary

open Text Place Reading

/-! ### Characters -/

namespace Outline

/-- An outline behind a space. -/
def spaced (outline : Outline) : List Char :=
  ' ' :: outline.characters

theorem operandCharacters_cons {outline : Outline} (h : outline.slot.isGroup = false)
    (outlines : List Outline) :
    operandCharacters (outline :: outlines) = outline.spaced ++ operandCharacters outlines := by
  obtain ⟨slot, content, parts⟩ := outline
  cases slot with
  | keywords group => exact nomatch h
  | root | call | choice | typed | operator | keyword => rfl

/-- Arguments other than keyword arguments are written one after the other. -/
theorem operandCharacters_append {arguments : List Outline}
    (h : ∀ argument ∈ arguments, argument.slot.isGroup = false) (others : List Outline) :
    operandCharacters (arguments ++ others) =
      arguments.flatMap spaced ++ operandCharacters others := by
  induction arguments with
  | nil => rfl
  | cons argument arguments ih =>
    obtain ⟨hfirst, hrest⟩ := List.forall_mem_cons.mp h
    rw [List.cons_append, operandCharacters_cons hfirst, ih hrest, List.flatMap_cons,
      List.append_assoc]

/-- Of the keyword arguments of a group those are written that are supplied. -/
theorem keywordCharacters_eq (outlines : List Outline) :
    keywordCharacters outlines = (outlines.filter isSupplied).flatMap spaced := by
  induction outlines with
  | nil => rfl
  | cons outline outlines ih =>
    rw [keywordCharacters, List.filter_cons]
    split
    · rw [ih, List.flatMap_cons]
      rfl
    · exact ih

theorem infix_operandCharacters {outlines : List Outline} {outline : Outline}
    (h : outline ∈ outlines) : outline.characters <:+: operandCharacters outlines := by
  induction outlines with
  | nil => exact absurd h List.not_mem_nil
  | cons first outlines ih =>
    have hhead : first.characters <:+: operandCharacters (first :: outlines) := by
      rw [operandCharacters]
      split
      · exact (List.prefix_append _ _).isInfix
      · exact ⟨[' '], operandCharacters outlines, rfl⟩
    have htail : operandCharacters outlines <:+: operandCharacters (first :: outlines) := by
      rw [operandCharacters]
      split
      · exact (List.suffix_append _ _).isInfix
      · exact (List.suffix_append (' ' :: first.characters) _).isInfix
    rcases List.mem_cons.mp h with rfl | hrest
    · exact hhead
    · exact (ih hrest).trans htail

theorem infix_elementCharacters {outlines : List Outline} {outline : Outline}
    (h : outline ∈ outlines) : outline.characters <:+: elementCharacters outlines := by
  induction outlines with
  | nil => exact absurd h List.not_mem_nil
  | cons first outlines ih =>
    cases outlines with
    | nil =>
      obtain rfl := List.mem_singleton.mp h
      exact List.infix_rfl
    | cons second outlines =>
      rw [elementCharacters]
      rcases List.mem_cons.mp h with rfl | hrest
      · exact (List.prefix_append _ _).isInfix
      · have hbehind : elementCharacters (second :: outlines) <:+
            first.characters ++ ' ' :: elementCharacters (second :: outlines) :=
          (List.suffix_cons _ _).trans (List.suffix_append _ _)
        exact (ih hrest).trans hbehind.isInfix
      · exact List.cons_ne_nil _ _

end Outline

/-! ### Records -/

namespace Record

variable {catalog : Catalog}

/-- The records of the arguments of an operator other than keyword arguments. -/
def arguments (record : Record) : List Record :=
  record.parts.filter fun part ↦ !part.slot.isGroup

/-- The records of the keyword arguments that were supplied for an operator. -/
def supplied (record : Record) : List Record :=
  (record.parts.filter fun part ↦ part.slot.isGroup).flatMap parts

/-- An operator has its arguments, and then one group of keyword arguments unless it declares none. -/
theorem exists_arguments {chosen : Operator} {parts : List Record}
    (h : parts.map slot = chosen.slots) :
    ∃ arguments, (∀ argument ∈ arguments, argument.slot.isGroup = false) ∧
      (parts = arguments ∨ ∃ group : Record, group.slot = .keywords chosen.keywords ∧
        parts = arguments ++ [group]) := by
  rw [Operator.slots, List.map_eq_append_iff] at h
  obtain ⟨arguments, others, rfl, harguments, hothers⟩ := h
  refine ⟨arguments, fun argument hargument ↦ ?_, ?_⟩
  · have hslot : argument.slot ∈ chosen.parameters.map Slot.ofArgument := by
      rw [← harguments]
      exact List.mem_map_of_mem hargument
    obtain ⟨type, -, htype⟩ := List.mem_map.mp hslot
    rw [← htype]
    cases type <;> rfl
  · split at hothers
    · rw [List.map_eq_nil_iff.mp hothers]
      exact .inl (List.append_nil _)
    · obtain ⟨group, hgroup, hslot⟩ := List.map_eq_singleton_iff.mp hothers
      exact .inr ⟨group, hslot, by rw [hgroup]⟩

/-- What was read for an argument is filled, unless it is a list without elements. -/
theorem isFilled_outline {record : Record} (h : record.IsSound catalog) {type : ArgType}
    (hslot : record.slot = .ofArgument type) :
    record.outline.isFilled = !record.outline.isEmptyList := by
  cases h with
  | call | scalar => rfl
  | list =>
    rename_i element start stop parts hslots
    rw [outline_node fun group ↦ Slot.noConfusion]
    cases parts <;> rfl
  | @chosen slot start stop part hpart =>
    obtain rfl : slot = .ofArgument type := hslot
    cases type with
    | scalar | union => rfl
    | series | list => exact absurd hpart List.not_mem_nil
  | root | keywords | operator | keyword => cases type <;> exact nomatch hslot

/-- A keyword argument that was read counts as supplied, unless its value is a list without elements. -/
theorem isSupplied_outline {record : Record} {own : Keyword}
    (hall : ∀ inside ∈ record.all, inside.IsSound catalog) (hslot : record.slot = .keyword own) :
    record.outline.isSupplied = !record.outline.isEmptyKeyword := by
  cases hall record (mem_all_self record) with
  | @keyword own' start announced stop value hmarker hvalue =>
    have hinside : value ∈ (node (.keyword own') start stop none [value]).all :=
      mem_all_of_mem_parts List.mem_cons_self (mem_all_self value)
    exact isFilled_outline (hall value hinside) hvalue
  | chosen hpart =>
    obtain rfl := hslot
    exact absurd hpart List.not_mem_nil
  | root | call | scalar | list | keywords | operator => exact nomatch hslot

/-- What was supplied for a keyword argument of a group is written as its marker and its value. -/
def IsWrittenAmong (group : List Keyword) (given : Record) : Prop :=
  ∃ own ∈ group, ∃ value, given.slot = .keyword own ∧ given.parts = [value] ∧
    given.outline.characters = own.marker.toList ++ ' ' :: value.outline.characters

theorem isWrittenAmong_of_mem {record given : Record} {group : List Keyword}
    (hall : ∀ inside ∈ record.all, inside.IsSound catalog) (hslot : record.slot = .keywords group)
    (hgiven : given ∈ record.parts) : given.IsWrittenAmong group := by
  have hkeyword : ∃ own ∈ group, given.slot = .keyword own := by
    cases hall record (mem_all_self record) with
    | keywords hslots =>
      obtain rfl := Slot.keywords.inj hslot
      exact hslots given hgiven
    | chosen hpart =>
      obtain rfl := hslot
      exact absurd hpart List.not_mem_nil
    | root | call | scalar | list | operator | keyword => exact nomatch hslot
  obtain ⟨own, hown, hkeyword⟩ := hkeyword
  cases hall given (mem_all_of_mem_parts hgiven (mem_all_self given)) with
  | @keyword own' _ _ _ value hmarker hvalue =>
    obtain rfl := Slot.keyword.inj hkeyword
    exact ⟨own', hown, value, rfl, rfl, rfl⟩
  | chosen hpart =>
    obtain rfl := hkeyword
    exact absurd hpart List.not_mem_nil
  | root | call | scalar | list | keywords | operator => exact nomatch hkeyword

/-- The keyword arguments of a group that are written are those that were read, up to their order,
without those whose value is a list without elements. -/
theorem exists_written {record : Record} {group : List Keyword}
    (hall : ∀ inside ∈ record.all, inside.IsSound catalog) (hslot : record.slot = .keywords group) :
    ∃ written : List Record,
      written.Perm (record.parts.filter fun given ↦ !given.outline.isEmptyKeyword) ∧
        record.outline.characters = written.flatMap fun given ↦ given.outline.spaced := by
  cases hall record (mem_all_self record) with
  | @keywords group' start stop parts hslots hnames =>
    obtain ⟨records, hparts, hrecords⟩ :=
      exists_perm_filter_arrange hslots hnames _ isSupplied_absent
    refine ⟨records.filter fun given ↦ given.outline.isSupplied, ?_, ?_⟩
    · have hfilled (given : Record) (hgiven : given ∈ parts) :
          given.outline.isSupplied = !given.outline.isEmptyKeyword := by
        obtain ⟨own, -, hkeyword⟩ := hslots given hgiven
        refine isSupplied_outline (fun inside hinside ↦ hall inside ?_) hkeyword
        exact mem_all_of_mem_parts hgiven hinside
      refine (hparts.filter _).trans (List.Perm.of_eq ?_)
      exact List.filter_congr hfilled
    · have hchars : (node (.keywords group') start stop none parts).outline.characters =
          Outline.keywordCharacters (arrangeKeywords group' (entries parts)) := rfl
      rw [hchars, Outline.keywordCharacters_eq, hrecords, List.filter_map, List.flatMap_map]
      rfl
  | chosen hpart =>
    obtain rfl := hslot
    exact absurd hpart List.not_mem_nil
  | root | call | scalar | list | operator | keyword => exact nomatch hslot

/-- How the use of an operator is written: with its arguments, and behind them the keyword arguments
that were supplied, except for those whose value is a list without elements. -/
structure IsWritten (use : Record) (chosen : Operator) (written : List Record) : Prop where
  supplied : written.Perm (use.supplied.filter fun given ↦ !given.outline.isEmptyKeyword)
  keywords : ∀ given ∈ written, given.IsWrittenAmong chosen.keywords
  characters : use.outline.characters = '(' :: chosen.name.toList ++
    use.arguments.flatMap (fun argument ↦ argument.outline.spaced) ++
    written.flatMap (fun given ↦ given.outline.spaced) ++ [')']

/-- Arguments other than keyword arguments are none of the parts that hold keyword arguments. -/
theorem filter_arguments {arguments : List Record}
    (h : ∀ argument ∈ arguments, argument.slot.isGroup = false) :
    arguments.filter (fun part ↦ !part.slot.isGroup) = arguments ∧
      arguments.filter (fun part ↦ part.slot.isGroup) = [] :=
  ⟨List.filter_eq_self.mpr fun argument hargument ↦ by simp [h argument hargument],
    List.filter_eq_nil_iff.mpr fun argument hargument ↦ by simp [h argument hargument]⟩

theorem operandCharacters_arguments {arguments : List Record}
    (h : ∀ argument ∈ arguments, argument.slot.isGroup = false) (others : List Outline) :
    Outline.operandCharacters (arguments.map outline ++ others) =
      arguments.flatMap (fun argument ↦ argument.outline.spaced) ++
        Outline.operandCharacters others := by
  have hslots (argument : Outline) (hargument : argument ∈ arguments.map outline) :
      argument.slot.isGroup = false := by
    obtain ⟨record, hrecord, rfl⟩ := List.mem_map.mp hargument
    rw [slot_outline, h record hrecord]
  rw [Outline.operandCharacters_append hslots, List.flatMap_map]

/-- The use of an operator without keyword arguments. -/
theorem isWritten_arguments {chosen : Operator} {start stop : Place} {arguments : List Record}
    (h : ∀ argument ∈ arguments, argument.slot.isGroup = false) :
    (node (.operator chosen) start stop none arguments).IsWritten chosen [] := by
  obtain ⟨hown, hnone⟩ := filter_arguments h
  have hall := operandCharacters_arguments h []
  rw [List.append_nil] at hall
  refine ⟨by simp [Record.supplied, Record.parts, hnone], List.forall_mem_nil _, ?_⟩
  rw [outline_node fun group ↦ Slot.noConfusion, Outline.characters, hall]
  simp [Record.arguments, Record.parts, hown, Outline.operandCharacters]

/-- The use of an operator with a group of keyword arguments behind the others. -/
theorem exists_isWritten_group {chosen : Operator} {start stop : Place} {arguments : List Record}
    {group : Record} (h : ∀ argument ∈ arguments, argument.slot.isGroup = false)
    (hall : ∀ inside ∈ group.all, inside.IsSound catalog)
    (hgroup : group.slot = .keywords chosen.keywords) :
    ∃ written,
      (node (.operator chosen) start stop none (arguments ++ [group])).IsWritten chosen written := by
  obtain ⟨hown, hnone⟩ := filter_arguments h
  obtain ⟨written, hperm, hgiven⟩ := exists_written hall hgroup
  have hisGroup : group.slot.isGroup = true := by rw [hgroup]; rfl
  have hlast : Outline.operandCharacters [group.outline] = group.outline.characters := by
    rw [Outline.operandCharacters, slot_outline, hgroup]
    exact List.append_nil _
  refine ⟨written, ?_, fun given hmem ↦ ?_, ?_⟩
  · simpa [Record.supplied, Record.parts, hnone, hisGroup] using hperm
  · have hsupplied := (List.mem_filter.mp (hperm.mem_iff.mp hmem)).1
    exact isWrittenAmong_of_mem hall hgroup hsupplied
  · rw [outline_node fun group ↦ Slot.noConfusion, Outline.characters, List.map_append,
      List.map_singleton, operandCharacters_arguments h, hlast, hgiven]
    simp [Record.arguments, Record.parts, hown, hisGroup]

theorem exists_isWritten {record : Record} {chosen : Operator}
    (hall : ∀ inside ∈ record.all, inside.IsSound catalog) (hslot : record.slot = .operator chosen) :
    ∃ written, record.IsWritten chosen written := by
  cases hall record (mem_all_self record) with
  | @operator chosen' start stop parts hslots =>
    obtain rfl := Slot.operator.inj hslot
    obtain ⟨arguments, harguments, rfl | ⟨group, hgroup, rfl⟩⟩ := exists_arguments hslots
    · exact ⟨[], isWritten_arguments harguments⟩
    · refine exists_isWritten_group harguments (fun inside hinside ↦ hall inside ?_) hgroup
      exact mem_all_of_mem_parts (List.mem_append_right _ List.mem_cons_self) hinside
  | chosen hpart =>
    obtain rfl := hslot
    exact absurd hpart List.not_mem_nil
  | root | call | scalar | list | keywords | keyword => cases hslot

end Record

/-! ### Uses of operators -/

/-- Whether a slot is an operator with its arguments. -/
def Slot.isUse : Slot → Bool
  | .operator _ => true
  | _ => false

theorem Slot.exists_of_isUse {slot : Slot} (h : slot.isUse = true) :
    ∃ chosen, slot = .operator chosen := by
  cases slot with
  | operator chosen => exact ⟨chosen, rfl⟩
  | root | call | choice | typed | keywords | keyword => exact nomatch h

/-- The uses of operators in an outline. -/
def Outline.uses (outline : Outline) : List Outline :=
  outline.select Slot.isUse

theorem Outline.uses_absent (keyword : Keyword) : keyword.absent.uses = [] := by
  obtain ⟨name, type, default⟩ := keyword
  cases type <;> rfl

namespace Record

variable {catalog : Catalog}

/-- The uses of operators that were read. -/
def uses (record : Record) : List Record :=
  record.select Slot.isUse

/-- The uses of operators in an outline that was read are those that were read. -/
theorem perm_uses {record : Record} (hall : ∀ inside ∈ record.all, inside.IsSound catalog) :
    record.outline.uses.Perm (record.uses.map outline) :=
  perm_select Outline.uses_absent hall

/-- A keyword argument that is left out in writing uses no operator. -/
theorem uses_of_isEmptyKeyword {record : Record}
    (hall : ∀ inside ∈ record.all, inside.IsSound catalog)
    (h : record.outline.isEmptyKeyword = true) : record.uses = [] := by
  have hnone : record.outline.uses = [] := by
    generalize record.outline = outline at h
    unfold Outline.isEmptyKeyword at h
    split at h
    · unfold Outline.isEmptyList at h
      split at h
      · rfl
      · exact nomatch h
    · exact nomatch h
  have hperm := perm_uses hall
  rw [hnone] at hperm
  exact List.map_eq_nil_iff.mp hperm.symm.eq_nil

/-- A keyword argument in which an operator is used is among those of its group that are written. -/
theorem infix_characters_keywords {record part : Record} {group : List Keyword}
    (hall : ∀ inside ∈ record.all, inside.IsSound catalog) (hslot : record.slot = .keywords group)
    (hpart : part ∈ record.parts) (huses : part.uses ≠ []) :
    part.outline.characters <:+: record.outline.characters := by
  obtain ⟨written, hperm, hwritten⟩ := exists_written hall hslot
  have hsome : part.outline.isEmptyKeyword = false := by
    refine Bool.eq_false_iff.mpr fun hempty ↦ huses ?_
    refine uses_of_isEmptyKeyword (fun inside hinside ↦ hall inside ?_) hempty
    exact mem_all_of_mem_parts hpart hinside
  have hmem : part ∈ written :=
    hperm.mem_iff.mpr (List.mem_filter.mpr ⟨hpart, by rw [hsome]; rfl⟩)
  obtain ⟨before, behind, rfl⟩ := List.append_of_mem hmem
  rw [hwritten, List.flatMap_append, List.flatMap_cons]
  refine List.IsInfix.trans ⟨[' '], [], List.append_nil _⟩ ?_
  exact ⟨_, _, List.append_assoc _ _ _⟩

/-- What is written for a slot contains what is written for each part in which an operator is used. -/
theorem infix_characters_node {slot : Slot} {start stop : Place} {content : Option Literal}
    {parts : List Record}
    (hall : ∀ inside ∈ (node slot start stop content parts).all, inside.IsSound catalog)
    {part : Record} (hpart : part ∈ parts) (huses : part.uses ≠ []) :
    part.outline.characters <:+: (node slot start stop content parts).outline.characters := by
  cases hall _ (mem_all_self _) with
  | root | call =>
    obtain rfl := List.mem_singleton.mp hpart
    exact List.infix_refl _
  | @keyword own =>
    obtain rfl := List.mem_singleton.mp hpart
    have hsuffix : part.outline.characters <:+
        (own.marker.toList ++ [' ']) ++ part.outline.characters := List.suffix_append _ _
    rw [List.append_assoc] at hsuffix
    exact hsuffix.isInfix
  | scalar => exact absurd hpart List.not_mem_nil
  | chosen hchoice =>
    obtain rfl := List.mem_singleton.mp hpart
    cases slot with
    | choice => exact List.infix_refl _
    | typed type =>
      cases type with
      | union => exact List.infix_refl _
      | scalar | series | list => exact absurd hchoice List.not_mem_nil
    | root | call | keywords | operator | keyword => exact absurd hchoice List.not_mem_nil
  | list =>
    rw [outline_node fun group ↦ Slot.noConfusion, Outline.characters]
    have hinside := Outline.infix_elementCharacters (List.mem_map_of_mem (f := outline) hpart)
    exact hinside.trans ⟨['('], [')'], rfl⟩
  | @operator chosen =>
    rw [outline_node fun group ↦ Slot.noConfusion, Outline.characters]
    have hinside := Outline.infix_operandCharacters (List.mem_map_of_mem (f := outline) hpart)
    exact hinside.trans ⟨'(' :: chosen.name.toList, [')'], rfl⟩
  | keywords => exact infix_characters_keywords hall rfl hpart huses

/-- The formula of an outline that was read contains that of each use of an operator. -/
theorem infix_characters_of_mem_uses {record use : Record}
    (hall : ∀ inside ∈ record.all, inside.IsSound catalog) (huse : use ∈ record.uses) :
    use.outline.characters <:+: record.outline.characters := by
  induction record using induct with
  | node slot start stop content parts ih =>
    rcases mem_select_node huse with rfl | ⟨part, hpart, hinside⟩
    · exact List.infix_refl _
    · refine (ih part hpart (fun inside hmem ↦ ?_) hinside).trans ?_
      · exact hall inside (mem_all_of_mem_parts hpart hmem)
      · exact infix_characters_node hall hpart (List.ne_nil_of_mem hinside)

end Record

/-! ### Whole formulas -/

/-- In the formula of an outline that was read, every use of an operator is written with its arguments
and with those keyword arguments that the text supplied there, each of them once. Only a keyword
argument whose value is a list without elements is not written although it was supplied. -/
theorem exists_isWritten_of_parseFormula {catalog : Catalog} {limit : Option Nat} {source : String}
    {outline : Outline} (h : parseFormula catalog limit source = .ok outline) :
    ∃ record : Record, record.IsOf catalog limit source ∧ record.outline = outline ∧
      outline.uses.Perm (record.uses.map Record.outline) ∧
        ∀ use ∈ record.uses, use.outline.characters <:+: outline.characters ∧
          ∃ chosen written, use.slot = .operator chosen ∧ use.IsWritten chosen written := by
  obtain ⟨record, hrecord, rfl⟩ := exists_record_of_parseFormula h
  refine ⟨record, hrecord, rfl, Record.perm_uses hrecord.sound, fun use huse ↦ ?_⟩
  obtain ⟨hmem, hoperator⟩ := List.mem_filter.mp huse
  obtain ⟨chosen, hslot⟩ := Slot.exists_of_isUse hoperator
  have hinside (inside : Record) (hinside : inside ∈ use.all) : inside.IsSound catalog :=
    hrecord.sound inside (Record.mem_all_trans hinside hmem)
  obtain ⟨written, hwritten⟩ := Record.exists_isWritten hinside hslot
  exact ⟨Record.infix_characters_of_mem_uses hrecord.sound huse, chosen, written, hslot, hwritten⟩

/-- An operator with a list as a keyword argument. -/
def operatorOfList : Operator :=
  { name := "f", result := .series, parameters := [],
    keywords := [⟨"a", .list (.scalar .int), none⟩] }

/-- The formula that uses `operatorOfList` on a list without elements. -/
def operatorOfListOutline : Outline :=
  .node (.root .series) none [.node (.call .series) none [.node (.operator operatorOfList) none
    [.node (.keywords operatorOfList.keywords) none
      [.node (.keyword ⟨"a", .list (.scalar .int), none⟩) none
        [.vacant (.typed (.list (.scalar .int)))]]]]]

/-- A list without elements that was supplied is not written. -/
theorem exists_isWritten_of_operatorOfList :
    parseFormula (.ofList [operatorOfList]) none "(f #:a ())" = .ok operatorOfListOutline ∧
      operatorOfListOutline.text = "(f)" ∧
      ∃ record : Record, record.IsOf (.ofList [operatorOfList]) none "(f #:a ())" ∧
        record.outline = operatorOfListOutline ∧
        operatorOfListOutline.uses.Perm (record.uses.map Record.outline) ∧
          ∀ use ∈ record.uses, use.outline.characters <:+: operatorOfListOutline.characters ∧
            ∃ chosen written, use.slot = .operator chosen ∧ use.IsWritten chosen written := by
  have hread : parseFormula (.ofList [operatorOfList]) none "(f #:a ())" =
      .ok operatorOfListOutline := by decide +kernel
  exact ⟨hread, by decide +kernel, exists_isWritten_of_parseFormula hread⟩

end Formulary
