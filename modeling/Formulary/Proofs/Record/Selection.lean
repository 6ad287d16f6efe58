import Formulary.Proofs.Formula.Arrangement
import Formulary.Proofs.Outline.Preorder
import Formulary.Proofs.Record.Basic
import Mathlib.Data.List.Perm.Basic
/-!
Which nodes of an outline were read. The nodes that stand for slots of some kind, such as uses of
operators, are just the ones that were read for such slots, if a keyword argument that is left out has
no such node (`Record.perm_select`). Main definitions: `Outline.select` and `Record.select`.
-/

set_option autoImplicit false
set_option relaxedAutoImplicit false

namespace Formulary

open Text

/-- Whether a slot is a group of keyword arguments. -/
def Slot.isGroup : Slot → Bool
  | .keywords _ => true
  | _ => false

namespace Outline

/-- The nodes of an outline for slots of a kind. -/
def select (keeps : Slot → Bool) (outline : Outline) : List Outline :=
  ((outline.preorder 0).map Prod.snd).filter fun part ↦ keeps part.slot

variable {keeps : Slot → Bool}

theorem select_node (slot : Slot) (content : Option Literal) (parts : List Outline) :
    (node slot content parts).select keeps =
      [node slot content parts].filter (fun part ↦ keeps part.slot) ++
        parts.flatMap (select keeps) := by
  rw [select, preorder, List.map_cons, map_snd_preorderOfAll, ← List.singleton_append,
    List.filter_append, List.filter_flatMap]
  rfl

theorem flatMap_select_filter (outlines : List Outline) :
    (outlines.filter fun outline ↦ !(outline.select keeps).isEmpty).flatMap (select keeps) =
      outlines.flatMap (select keeps) := by
  induction outlines with
  | nil => rfl
  | cons outline outlines ih =>
    rw [List.filter_cons, List.flatMap_cons]
    split
    · rw [List.flatMap_cons, ih]
    · rename_i hnone
      have hempty : outline.select keeps = [] := by simpa using hnone
      rw [ih, hempty, List.nil_append]

end Outline

namespace Record

variable {catalog : Catalog} {keeps : Slot → Bool}

/-- What was read for slots of a kind. -/
def select (keeps : Slot → Bool) (record : Record) : List Record :=
  record.all.filter fun part ↦ keeps part.slot

theorem allOfAll_eq_flatMap (records : List Record) : allOfAll records = records.flatMap all := by
  induction records with
  | nil => rfl
  | cons record records ih => rw [allOfAll, ih, List.flatMap_cons]

theorem select_node (slot : Slot) (start stop : Place) (content : Option Literal)
    (parts : List Record) :
    (node slot start stop content parts).select keeps =
      [node slot start stop content parts].filter (fun part ↦ keeps part.slot) ++
        parts.flatMap (select keeps) := by
  rw [select, all, allOfAll_eq_flatMap, ← List.singleton_append, List.filter_append,
    List.filter_flatMap]
  rfl

theorem mem_select_node {slot : Slot} {start stop : Place} {content : Option Literal}
    {parts : List Record} {inside : Record}
    (h : inside ∈ (node slot start stop content parts).select keeps) :
    inside = node slot start stop content parts ∨ ∃ part ∈ parts, inside ∈ part.select keeps := by
  rw [select_node, List.mem_append, List.mem_flatMap] at h
  refine h.imp_left fun hself ↦ ?_
  exact List.mem_singleton.mp (List.mem_filter.mp hself).1

/-- In the order of declaration stand those keyword arguments of a group that were read, up to their
order, and others that are absent. -/
theorem exists_perm_filter_arrange {group : List Keyword} {parts : List Record}
    (hslots : ∀ part ∈ parts, ∃ own ∈ group, part.slot = .keyword own)
    (hnames : (parts.map name).Nodup) (keeps : Outline → Bool)
    (habsent : ∀ keyword : Keyword, keeps keyword.absent = false) :
    ∃ records : List Record, records.Perm parts ∧
      (arrangeKeywords group (entries parts)).filter keeps =
        (records.map outline).filter keeps := by
  rw [← map_fst_entries] at hnames
  obtain ⟨ordered, hperm, hordered⟩ := exists_perm_filter_arrangeKeywords keeps habsent hnames
    (exists_keyword_of_mem_entries hslots)
  -- what is ordered are entries of records, so the records can be ordered in the same way
  rw [entries_eq_map] at hperm
  have hsame : List.Forall₂ (fun entry (given : Record) ↦ entry = (given.name, given.outline))
      (parts.map fun given ↦ (given.name, given.outline)) parts := by
    rw [List.forall₂_map_left_iff, List.forall₂_same]
    exact fun _ _ ↦ rfl
  obtain ⟨records, hrecords, hparts⟩ := List.perm_comp_forall₂ hperm hsame
  obtain rfl : ordered = records.map fun given ↦ (given.name, given.outline) := by
    rw [← List.forall₂_eq_eq_eq, List.forall₂_map_right_iff]
    exact hrecords
  refine ⟨records, hparts, hordered.trans ?_⟩
  rw [List.map_map]
  rfl

/-- Arranging the parts of a slot neither adds nor loses a node for a slot of a kind. -/
theorem perm_flatMap_select_arrange (habsent : ∀ keyword : Keyword, keyword.absent.select keeps = [])
    {slot : Slot} {start stop : Place} {content : Option Literal} {parts : List Record}
    (h : IsSound catalog (.node slot start stop content parts)) :
    ((arrange slot (entries parts)).flatMap (Outline.select keeps)).Perm
      ((parts.map outline).flatMap (Outline.select keeps)) := by
  by_cases hslot : ∃ group, slot = .keywords group
  · obtain ⟨group, rfl⟩ := hslot
    cases h with
    | keywords hslots hnames =>
      have hnone (keyword : Keyword) : (!(keyword.absent.select keeps).isEmpty) = false := by
        rw [habsent]
        rfl
      obtain ⟨records, hparts, hrecords⟩ := exists_perm_filter_arrange hslots hnames
        (fun outline ↦ !(outline.select keeps).isEmpty) hnone
      rw [arrange, ← Outline.flatMap_select_filter, hrecords, Outline.flatMap_select_filter]
      exact (hparts.map outline).flatMap_right _
    | chosen hpart => exact absurd hpart List.not_mem_nil
  · rw [arrange_of_ne fun group hgroup ↦ hslot ⟨group, hgroup⟩, map_snd_entries]

/-- The nodes for slots of a kind in an outline that was read are those that were read. -/
theorem perm_select (habsent : ∀ keyword : Keyword, keyword.absent.select keeps = [])
    {record : Record} (hall : ∀ inside ∈ record.all, inside.IsSound catalog) :
    (record.outline.select keeps).Perm ((record.select keeps).map outline) := by
  induction record using induct with
  | node slot start stop content parts ih =>
    have hparts : ((parts.map outline).flatMap (Outline.select keeps)).Perm
        ((parts.flatMap (select keeps)).map outline) := by
      rw [List.flatMap_map, List.map_flatMap]
      refine List.Perm.flatMap_left _ fun part hpart ↦ ih part hpart fun inside hinside ↦ ?_
      exact hall inside (mem_all_of_mem_parts hpart hinside)
    have harranged := perm_flatMap_select_arrange habsent (hall _ (mem_all_self _))
    rw [select_node, List.map_append, outline, Outline.select_node]
    refine List.Perm.append (List.Perm.of_eq ?_) (harranged.trans hparts)
    change ([node slot start stop content parts].map outline).filter _ = _
    rw [List.filter_map]
    refine congrArg _ (List.filter_congr fun part hpart ↦ ?_)
    rw [Function.comp_apply, slot_outline]

end Record

end Formulary
