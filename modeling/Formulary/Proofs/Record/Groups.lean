import Formulary.Proofs.Formula.Conformity
import Formulary.Proofs.Record.Reading
import Formulary.Proofs.Record.Selection
/-!
Groups of keyword arguments and their declarations. A group that was read has one part for each of its
declarations, in their order. Where each keyword argument is the first one of its name, the part of a
declaration holds what was read for it, or stands for its absence (`keepsDeclarations_iff`). Where the
text was read for a later declaration of the same name, it stands at the first one.
-/

set_option autoImplicit false
set_option relaxedAutoImplicit false

namespace Formulary

open Text

/-! ### Arrangement by position -/

theorem length_arrangeKeywords (group : List Keyword) (supplied : List (String × Outline)) :
    (arrangeKeywords group supplied).length = group.length := by
  induction group generalizing supplied with
  | nil => rfl
  | cons keyword group ih =>
    rw [arrangeKeywords]
    split <;> rw [List.length_cons, List.length_cons, ih]

theorem lookup_filter_ne (supplied : List (String × Outline)) (name other : String) :
    (supplied.filter fun entry ↦ entry.1 != other).lookup name =
      if name = other then none else supplied.lookup name := by
  induction supplied with
  | nil => simp
  | cons entry supplied ih =>
    obtain ⟨own, value⟩ := entry
    by_cases hown : own = other
    · subst hown
      rw [List.filter_cons_of_neg (by simp), ih]
      by_cases hname : name = own
      · rw [if_pos hname, if_pos hname]
      · rw [if_neg hname, if_neg hname, List.lookup_cons, beq_eq_false_iff_ne.mpr hname]
    · rw [List.filter_cons_of_pos (by simpa using hown)]
      by_cases hname : name = own
      · subst hname
        rw [if_neg hown, List.lookup_cons_self, List.lookup_cons_self]
      · rw [List.lookup_cons, List.lookup_cons, beq_eq_false_iff_ne.mpr hname]
        exact ih

/-- A declaration has what was supplied under its name, if it is the first one of that name. -/
theorem getElem?_arrangeKeywords {group : List Keyword} {supplied : List (String × Outline)}
    {index : Nat} {keyword : Keyword} (h : group[index]? = some keyword) :
    (arrangeKeywords group supplied)[index]? =
      some (if keyword.name ∈ (group.take index).map Keyword.name then keyword.absent
        else (supplied.lookup keyword.name).getD keyword.absent) := by
  induction group generalizing index supplied with
  | nil => simp at h
  | cons first group ih =>
    cases index with
    | zero =>
      obtain rfl : first = keyword := by simpa using h
      rw [arrangeKeywords, List.take_zero, List.map_nil, if_neg List.not_mem_nil]
      split
      · rename_i hlookup
        rw [hlookup]
        rfl
      · rename_i hlookup
        rw [hlookup]
        rfl
    | succ index =>
      rw [List.getElem?_cons_succ] at h
      rw [arrangeKeywords, List.take_succ_cons, List.map_cons]
      split
      · rw [List.getElem?_cons_succ, ih h, lookup_filter_ne]
        by_cases hname : keyword.name = first.name <;> simp [hname]
      · rename_i hnone
        rw [List.getElem?_cons_succ, ih h]
        by_cases hname : keyword.name = first.name <;> simp [hname, hnone]

/-! ### Declarations -/

/-- The first declaration of a name has no other of that name before it. -/
theorem exists_index_of_find?_name {group : List Keyword} {own : Keyword}
    (h : group.find? (fun keyword ↦ keyword.name = own.name) = some own) :
    ∃ index, group[index]? = some own ∧ own.name ∉ (group.take index).map Keyword.name := by
  obtain ⟨-, earlier, later, rfl, hearlier⟩ := List.find?_eq_some_iff_append.mp h
  refine ⟨earlier.length, by simp, ?_⟩
  rw [List.take_left, List.mem_map]
  rintro ⟨other, hother, hname⟩
  simpa [hname] using hearlier other hother

/-- The first declaration of a name stands wherever there is no other of that name before it. -/
theorem find?_name_eq_some {group : List Keyword} {own : Keyword} {index : Nat}
    (hindex : group[index]? = some own)
    (hearlier : own.name ∉ (group.take index).map Keyword.name) :
    group.find? (fun keyword ↦ keyword.name = own.name) = some own := by
  obtain ⟨hbound, hown⟩ := List.getElem?_eq_some_iff.mp hindex
  refine List.find?_eq_some_iff_append.mpr ⟨decide_eq_true rfl, group.take index,
    group.drop (index + 1), ?_, fun other hother ↦ ?_⟩
  · rw [← hown, List.getElem_cons_drop, List.take_append_drop]
  · rw [Bool.not_eq_true', decide_eq_false_iff_not]
    exact fun hname ↦ hearlier (List.mem_map.mpr ⟨other, hother, hname⟩)

/-- The first declaration of a name, where it is not repeated, stands before all others of that name. -/
theorem not_mem_take_of_find?_name {group : List Keyword} {own : Keyword} {index : Nat}
    (h : group.find? (fun keyword ↦ keyword.name = own.name) = some own)
    (hfresh : own ∉ group.take index) :
    own.name ∉ (group.take index).map Keyword.name := by
  obtain ⟨-, earlier, later, rfl, hearlier⟩ := List.find?_eq_some_iff_append.mp h
  have hbound : index ≤ earlier.length := by
    by_contra hbeyond
    refine hfresh (List.mem_take_iff_getElem.mpr ⟨earlier.length, ?_, by simp⟩)
    rw [List.length_append, List.length_cons]
    omega
  rw [List.take_append_of_le_length hbound, List.mem_map]
  rintro ⟨other, hother, hname⟩
  simpa [hname] using hearlier other (List.mem_of_mem_take hother)

namespace Record

variable {catalog : Catalog}

/-- What stands for a declaration of a group behind some earlier ones: the value that was read for it,
or its absence. Of equal declarations a value is read for the first. -/
def standing (record : Record) (earlier : List Keyword) (keyword : Keyword) : Outline :=
  match record.parts.find? fun given ↦ given.slot = .keyword keyword ∧ keyword ∉ earlier with
  | some given => given.outline
  | none => keyword.absent

/-- The parts of a group stand for its declarations in their order, each with the value that was read
for it. -/
def KeepsDeclarations (record : Record) (group : List Keyword) : Prop :=
  ∀ index keyword, group[index]? = some keyword →
    record.outline.parts[index]? = some (record.standing (group.take index) keyword)

/-- Every keyword argument of a group that was read is the first one of its name. -/
def SuppliesFirst (record : Record) (group : List Keyword) : Prop :=
  ∀ given ∈ record.parts, ∀ own, given.slot = .keyword own →
    group.find? (fun keyword ↦ keyword.name = own.name) = some own

theorem slot_standing (record : Record) (earlier : List Keyword) (keyword : Keyword) :
    (record.standing earlier keyword).slot = .keyword keyword := by
  rw [standing]
  split
  · rename_i given hfound
    have hgiven := List.find?_some hfound
    rw [slot_outline]
    exact (of_decide_eq_true hgiven).1
  · rfl

/-- What is found under a name is what was read for the keyword argument of that name. -/
theorem lookup_entries_eq_some_iff {parts : List Record} (hnames : (parts.map name).Nodup)
    {name : String} {outline : Outline} :
    (entries parts).lookup name = some outline ↔
      ∃ given ∈ parts, given.name = name ∧ given.outline = outline := by
  rw [lookup_eq_some_iff_mem (by rwa [map_fst_entries]), entries_eq_map, List.mem_map]
  simp only [Prod.mk.injEq]

theorem name_of_slot {given : Record} {own : Keyword} (h : given.slot = .keyword own) :
    given.name = own.name := by
  rw [name, h]

theorem mem_of_slot {group : List Keyword} {parts : List Record}
    (hslots : ∀ part ∈ parts, ∃ own ∈ group, part.slot = .keyword own) {given : Record}
    (hgiven : given ∈ parts) {own : Keyword} (hown : given.slot = .keyword own) : own ∈ group := by
  obtain ⟨other, hother, hslot⟩ := hslots given hgiven
  rwa [Slot.keyword.inj (hown.symm.trans hslot)]

/-- The first declaration of a name has the value that was read under it. -/
theorem getElem?_of_first {group : List Keyword} {parts : List Record}
    (hnames : (parts.map name).Nodup) {given : Record} (hgiven : given ∈ parts) {index : Nat}
    {keyword : Keyword} (hindex : group[index]? = some keyword)
    (hfirst : keyword.name ∉ (group.take index).map Keyword.name)
    (hname : given.name = keyword.name) :
    (arrangeKeywords group (entries parts))[index]? = some given.outline := by
  have hlookup := (lookup_entries_eq_some_iff hnames).mpr ⟨given, hgiven, hname, rfl⟩
  rw [getElem?_arrangeKeywords hindex, if_neg hfirst, hlookup]
  rfl

/-- If declarations are kept, then whatever was read was read for the first declaration of its name. -/
theorem KeepsDeclarations.suppliesFirst {group : List Keyword} {start stop : Place}
    {parts : List Record} (hsound : IsSound catalog (.node (.keywords group) start stop none parts))
    (h : (node (.keywords group) start stop none parts).KeepsDeclarations group) :
    (node (.keywords group) start stop none parts).SuppliesFirst group := by
  cases hsound with
  | chosen hpart => exact absurd hpart List.not_mem_nil
  | keywords hslots hnames =>
    intro given hgiven own hown
    have hsome : (group.find? fun keyword ↦ keyword.name = own.name).isSome :=
      List.find?_isSome.mpr ⟨own, mem_of_slot hslots hgiven hown, decide_eq_true rfl⟩
    obtain ⟨first, hfirst⟩ := Option.isSome_iff_exists.mp hsome
    have hmatch := List.find?_some hfirst
    have hname : first.name = own.name := of_decide_eq_true hmatch
    rw [hfirst]
    rw [← hname] at hfirst
    obtain ⟨index, hindex, hearlier⟩ := exists_index_of_find?_name hfirst
    -- the part at the first declaration is the one that was read, so it was read for that one
    have hthere := getElem?_of_first hnames hgiven hindex hearlier
      ((name_of_slot hown).trans hname.symm)
    have hsame := Option.some.inj (hthere.symm.trans (h index first hindex))
    have hslot : (Slot.keyword own) = .keyword first := by
      rw [← hown, ← slot_outline, hsame, slot_standing]
    rw [Slot.keyword.inj hslot]

theorem SuppliesFirst.keepsDeclarations {group : List Keyword} {start stop : Place}
    {parts : List Record} (hsound : IsSound catalog (.node (.keywords group) start stop none parts))
    (h : (node (.keywords group) start stop none parts).SuppliesFirst group) :
    (node (.keywords group) start stop none parts).KeepsDeclarations group := by
  cases hsound with
  | chosen hpart => exact absurd hpart List.not_mem_nil
  | keywords hslots hnames =>
    intro index keyword hindex
    rw [standing]
    split
    · rename_i given hfound
      have hmatch := List.find?_some hfound
      obtain ⟨hslot, hearlier⟩ := of_decide_eq_true hmatch
      have hgiven : given ∈ parts := List.mem_of_find?_eq_some hfound
      have hfirst := not_mem_take_of_find?_name (h given hgiven keyword hslot) hearlier
      exact getElem?_of_first hnames hgiven hindex hfirst (name_of_slot hslot)
    · rename_i hnone
      rw [outline_keywords, Outline.parts, getElem?_arrangeKeywords hindex]
      split
      · rfl
      · rename_i hearlier
        have hlookup : (entries parts).lookup keyword.name = none := by
          refine Option.eq_none_iff_forall_ne_some.mpr fun value hvalue ↦ ?_
          obtain ⟨given, hgiven, hname, -⟩ := (lookup_entries_eq_some_iff hnames).mp hvalue
          obtain ⟨own, -, hslot⟩ := hslots given hgiven
          have hsame : own.name = keyword.name := (name_of_slot hslot).symm.trans hname
          have hown := h given hgiven own hslot
          rw [hsame, find?_name_eq_some hindex hearlier] at hown
          obtain rfl := Option.some.inj hown
          have hfresh : keyword ∉ group.take index :=
            fun hmem ↦ hearlier (List.mem_map_of_mem hmem)
          exact List.find?_eq_none.mp hnone given hgiven (decide_eq_true ⟨hslot, hfresh⟩)
        rw [hlookup]
        rfl

/-- A group keeps its declarations if and only if whatever was read was read for the first declaration
of its name. -/
theorem keepsDeclarations_iff {record : Record} {group : List Keyword}
    (hsound : record.IsSound catalog) (hslot : record.slot = .keywords group) :
    record.KeepsDeclarations group ↔ record.SuppliesFirst group := by
  obtain ⟨slot, start, stop, content, parts⟩ := record
  obtain rfl : slot = .keywords group := hslot
  obtain rfl : content = none := by cases hsound <;> rfl
  exact ⟨KeepsDeclarations.suppliesFirst hsound, SuppliesFirst.keepsDeclarations hsound⟩

/-- Where no name is declared twice, every declaration is the first one of its name. -/
theorem suppliesFirst_of_nodup {record : Record} {group : List Keyword}
    (hsound : record.IsSound catalog) (hslot : record.slot = .keywords group)
    (hnames : (group.map Keyword.name).Nodup) : record.SuppliesFirst group := by
  intro given hgiven own hown
  have hdeclared : own ∈ group := by
    cases hsound with
    | keywords hslots =>
      obtain rfl := Slot.keywords.inj hslot
      exact mem_of_slot hslots hgiven hown
    | chosen hpart =>
      obtain rfl := hslot
      exact absurd hpart List.not_mem_nil
    | root | call | scalar | list | operator | keyword => exact nomatch hslot
  obtain ⟨earlier, later, rfl⟩ := List.append_of_mem hdeclared
  have hindex : (earlier ++ own :: later)[earlier.length]? = some own := by simp
  refine find?_name_eq_some hindex ?_
  rw [List.take_left]
  rw [List.map_append, List.map_cons, List.nodup_append] at hnames
  exact fun hmem ↦ hnames.2.2 own.name hmem own.name List.mem_cons_self rfl

theorem length_parts {record : Record} {group : List Keyword} (hslot : record.slot = .keywords group) :
    record.outline.parts.length = group.length := by
  obtain ⟨slot, start, stop, content, parts⟩ := record
  obtain rfl : slot = .keywords group := hslot
  exact length_arrangeKeywords group _

end Record

/-! ### Whole formulas -/

theorem Slot.exists_of_isGroup {slot : Slot} (h : slot.isGroup = true) :
    ∃ group, slot = .keywords group := by
  cases slot with
  | keywords group => exact ⟨group, rfl⟩
  | root | call | choice | typed | operator | keyword => exact nomatch h

/-- In an outline that was read, every group of keyword arguments has one part for each declaration. It
keeps its declarations if and only if every keyword argument was read for the first declaration of its
name, and so wherever no name is declared twice. -/
theorem keepsDeclarations_iff_of_parseFormula {catalog : Catalog} {limit : Option Nat}
    {source : String} {outline : Outline} (h : parseFormula catalog limit source = .ok outline) :
    ∃ record : Record, record.IsOf catalog limit source ∧ record.outline = outline ∧
      (outline.select Slot.isGroup).Perm ((record.select Slot.isGroup).map Record.outline) ∧
        ∀ part ∈ record.select Slot.isGroup, ∃ group, part.slot = .keywords group ∧
          part.outline.parts.length = group.length ∧
            (part.KeepsDeclarations group ↔ part.SuppliesFirst group) ∧
              ((group.map Keyword.name).Nodup → part.KeepsDeclarations group) := by
  obtain ⟨record, hrecord, rfl⟩ := exists_record_of_parseFormula h
  have habsent (keyword : Keyword) : keyword.absent.select Slot.isGroup = [] := by
    obtain ⟨name, type, default⟩ := keyword
    cases type <;> rfl
  refine ⟨record, hrecord, rfl, Record.perm_select habsent hrecord.sound, fun part hpart ↦ ?_⟩
  obtain ⟨hmem, hgroup⟩ := List.mem_filter.mp hpart
  obtain ⟨group, hslot⟩ := Slot.exists_of_isGroup hgroup
  have hsound := hrecord.sound part hmem
  have hiff := Record.keepsDeclarations_iff hsound hslot
  exact ⟨group, hslot, Record.length_parts hslot, hiff,
    fun hnames ↦ hiff.mpr (Record.suppliesFirst_of_nodup hsound hslot hnames)⟩

/-- The value of the formula of `twoOfOneName` on a list with one element. -/
def listOfOne : Outline :=
  .node (.typed (.list (.scalar .int))) none
    [.node (.choice .int) none [.node (.typed (.scalar .int)) (some (.int 1)) []]]

/-- A value that was read for a later declaration of a name stands at the first one. -/
theorem not_keepsDeclarations_of_twoOfOneName :
    parseFormula (.ofList [twoOfOneName]) none "(f #:a (1))" = .ok (twoOfOneNameOutline listOfOne) ∧
      ∃ record : Record, record.IsOf (.ofList [twoOfOneName]) none "(f #:a (1))" ∧
        record.outline = twoOfOneNameOutline listOfOne ∧
          ∃ part ∈ record.select Slot.isGroup, part.slot = .keywords twoOfOneName.keywords ∧
            ¬ part.SuppliesFirst twoOfOneName.keywords ∧
              ¬ part.KeepsDeclarations twoOfOneName.keywords := by
  have hread : parseFormula (.ofList [twoOfOneName]) none "(f #:a (1))" =
      .ok (twoOfOneNameOutline listOfOne) := by decide +kernel
  obtain ⟨record, hrecord, houtline, hperm, hgroups⟩ := keepsDeclarations_iff_of_parseFormula hread
  let read := Outline.node (.keywords twoOfOneName.keywords) none
    [listOfOneName listOfOne, listOfOneName (.vacant (.typed (.list (.scalar .int))))]
  have hselect : (twoOfOneNameOutline listOfOne).select Slot.isGroup = [read] := by decide +kernel
  rw [hselect] at hperm
  obtain ⟨part, hpart, hwhole⟩ := List.mem_map.mp (hperm.mem_iff.mp List.mem_cons_self)
  have hslot : part.slot = .keywords twoOfOneName.keywords := by
    rw [← Record.slot_outline, hwhole]
    rfl
  obtain ⟨group, hgroup, -, hiff, -⟩ := hgroups part hpart
  obtain rfl := Slot.keywords.inj (hslot.symm.trans hgroup)
  have hlost : ¬ part.KeepsDeclarations twoOfOneName.keywords := by
    intro hkeeps
    have hfirst := hkeeps 0 ⟨"a", .scalar .int, none⟩ rfl
    rw [hwhole] at hfirst
    have hslots := congrArg Outline.slot (Option.some.inj hfirst)
    rw [Record.slot_standing] at hslots
    exact absurd hslots (by decide)
  exact ⟨hread, record, hrecord, houtline, part, hpart, hslot, fun h ↦ hlost (hiff.mpr h), hlost⟩

end Formulary
