import Formulary.Proofs.Formula.Arrangement
import Formulary.Proofs.Formula.Depth
import Formulary.Proofs.Outline.Preorder
import Formulary.Proofs.Record.Reading
/-!
What a limit on nested slots guarantees. The nodes of an outline that was read stand in its record, each
at the same depth, and the others belong to keyword arguments that are left out
(`Record.exists_perm_preorder`). A record is nested no more deeply than the slots that were read, and so
the limit bounds the depth of every node that was read; and where it is not reached it changes nothing
(`readFormula_some_spec`). Main definition: `Record.preorder`.
-/

set_option autoImplicit false
set_option relaxedAutoImplicit false

namespace Formulary

open Text

namespace Record

variable {catalog : Catalog}

mutual

/-- The nodes that were read, in the order of the text, each with its depth. -/
def preorder (depth : Nat) : Record → List (Nat × Outline)
  | .node slot start stop content parts =>
    (depth, outline (.node slot start stop content parts)) :: preorderOfAll (depth + 1) parts

/-- The nodes that were read in some records, in the order of the text. -/
def preorderOfAll (depth : Nat) : List Record → List (Nat × Outline)
  | [] => []
  | record :: records => record.preorder depth ++ preorderOfAll depth records

end

theorem preorderOfAll_eq_flatMap (depth : Nat) (records : List Record) :
    preorderOfAll depth records = records.flatMap (preorder depth) := by
  induction records with
  | nil => rfl
  | cons record records ih => rw [preorderOfAll, ih, List.flatMap_cons]

/-- The height bounds the depth of everything that was read. -/
theorem lt_of_mem_preorder {record : Record} {bound depth : Nat} (h : record.height ≤ bound)
    {node : Nat × Outline} (hnode : node ∈ record.preorder depth) : node.1 < depth + bound := by
  induction record using induct generalizing bound depth with
  | node slot start stop content parts ih =>
    obtain ⟨bound, rfl⟩ := Nat.exists_eq_add_one_of_ne_zero (Nat.ne_zero_of_lt h)
    rw [preorder, List.mem_cons, preorderOfAll_eq_flatMap, List.mem_flatMap] at hnode
    rcases hnode with rfl | ⟨part, hpart, hnode⟩
    · exact Nat.lt_add_of_pos_right (Nat.succ_pos bound)
    · have hheight := heightOfAll_le_iff.mp (Nat.le_of_succ_le_succ h) part hpart
      have hdepth := ih part hpart hheight hnode
      omega

/-- The nodes of keyword arguments that are left out, each at some depth. -/
def preorderOfAbsent (missing : List (Nat × Keyword)) : List (Nat × Outline) :=
  missing.flatMap fun (depth, keyword) ↦ keyword.absent.preorder depth

theorem preorderOfAbsent_append (first second : List (Nat × Keyword)) :
    preorderOfAbsent (first ++ second) = preorderOfAbsent first ++ preorderOfAbsent second :=
  List.flatMap_append

/-- If in each of some parts only nodes of absent keyword arguments are added to what was read, then
so it is in all of them together. -/
theorem exists_perm_flatMap {parts : List Record} {depth : Nat}
    (h : ∀ part ∈ parts, ∃ missing, (part.outline.preorder depth).Perm
      (part.preorder depth ++ preorderOfAbsent missing)) :
    ∃ missing, ((parts.map outline).flatMap (Outline.preorder depth)).Perm
      (parts.flatMap (preorder depth) ++ preorderOfAbsent missing) := by
  induction parts with
  | nil => exact ⟨[], .nil⟩
  | cons part parts ih =>
    rw [List.forall_mem_cons] at h
    obtain ⟨first, hfirst⟩ := h.1
    obtain ⟨rest, hrest⟩ := ih h.2
    refine ⟨first ++ rest, ?_⟩
    rw [List.map_cons, List.flatMap_cons, List.flatMap_cons, preorderOfAbsent_append,
      List.append_assoc]
    refine (hfirst.append hrest).trans ?_
    rw [List.append_assoc]
    exact (List.perm_append_comm_assoc _ _ _).append_left _

/-- The arranged parts of a slot are what was read and absent keyword arguments. -/
theorem exists_perm_arrange {slot : Slot} {start stop : Place} {content : Option Literal}
    {parts : List Record} (h : IsSound catalog (.node slot start stop content parts)) :
    ∃ missing : List Keyword, (arrange slot (entries parts)).Perm
      (parts.map outline ++ missing.map Keyword.absent) := by
  by_cases hslot : ∃ group, slot = .keywords group
  · obtain ⟨group, rfl⟩ := hslot
    cases h with
    | keywords hslots hnames =>
      rw [← map_fst_entries] at hnames
      rw [← map_snd_entries]
      exact exists_perm_append_absent hnames (exists_keyword_of_mem_entries hslots)
    | chosen hpart => exact absurd hpart List.not_mem_nil
  · refine ⟨[], ?_⟩
    rw [arrange_of_ne fun group hgroup ↦ hslot ⟨group, hgroup⟩, map_snd_entries, List.map_nil,
      List.append_nil]

/-- The nodes of an outline that was read are those that were read, at the same depths, and those of
keyword arguments that are left out. -/
theorem exists_perm_preorder {record : Record} (hall : ∀ inside ∈ record.all, inside.IsSound catalog)
    (depth : Nat) : ∃ missing, (record.outline.preorder depth).Perm
      (record.preorder depth ++ preorderOfAbsent missing) := by
  induction record using induct generalizing depth with
  | node slot start stop content parts ih =>
    obtain ⟨missing, hmissing⟩ := exists_perm_flatMap fun part hpart ↦
      ih part hpart (fun inside hinside ↦ hall inside (mem_all_of_mem_parts hpart hinside)) (depth + 1)
    obtain ⟨absent, habsent⟩ := exists_perm_arrange (hall _ (mem_all_self _))
    refine ⟨missing ++ absent.map fun keyword ↦ (depth + 1, keyword), ?_⟩
    have hnodes : (absent.map Keyword.absent).flatMap (Outline.preorder (depth + 1)) =
        preorderOfAbsent (absent.map fun keyword ↦ (depth + 1, keyword)) := by
      rw [preorderOfAbsent, List.flatMap_map, List.flatMap_map]
    rw [outline, Outline.preorder, Outline.preorderOfAll_eq_flatMap, preorder,
      preorderOfAll_eq_flatMap, preorderOfAbsent_append, List.cons_append, ← List.append_assoc, ← hnodes]
    refine List.Perm.cons _ ((habsent.flatMap_right _).trans ?_)
    rw [List.flatMap_append]
    exact hmissing.append_right _

end Record

/-- Under a limit no more slots are read inside one another than it says; so all nodes of the outline
that were read, which are all but those of keyword arguments that are left out, stand at a depth below
the limit. And if without the limit no more slots are read inside one another, then with it everything
happens in the same way. -/
theorem readFormula_some_spec (operators : List Operator) (limit : Nat) (source : String) :
    (readFormula (.ofList operators) (some limit) source.toList).nesting ≤ limit ∧
      (∀ outline, parseFormula (.ofList operators) (some limit) source = .ok outline →
        ∃ (record : Record) (missing : List (Nat × Keyword)),
          record.IsOf (.ofList operators) (some limit) source ∧ record.outline = outline ∧
          (outline.preorder 0).Perm (record.preorder 0 ++ Record.preorderOfAbsent missing) ∧
          ∀ node ∈ record.preorder 0, node.1 < limit) ∧
      ((readFormula (.ofList operators) none source.toList).nesting ≤ limit →
        readFormula (.ofList operators) (some limit) source.toList =
            readFormula (.ofList operators) none source.toList ∧
          parseFormula (.ofList operators) (some limit) source =
            parseFormula (.ofList operators) none source) := by
  refine ⟨nestsWithin_fill _ _ _ _ _, fun outline hread ↦ ?_, fun hnesting ↦ ?_⟩
  · obtain ⟨record, hrecord, rfl, hheight⟩ := exists_record_within_limit hread
    obtain ⟨missing, hnodes⟩ := Record.exists_perm_preorder hrecord.sound 0
    refine ⟨record, missing, hrecord, rfl, hnodes, fun node hnode ↦ ?_⟩
    rw [← Nat.zero_add limit]
    exact Record.lt_of_mem_preorder hheight hnode
  · have hsame := readFormula_some_of_nesting_le hnesting
    refine ⟨hsame, ?_⟩
    simp only [parseFormula, hsame]

/-- An operator with a keyword argument that has a default. -/
def withDefault : Operator :=
  { name := "g", result := .series, parameters := [],
    keywords := [⟨"a", .scalar .int, some (.int 1)⟩] }

/-- The formula that uses `withDefault` on nothing. -/
def withDefaultOutline : Outline :=
  .node (.root .series) none [.node (.call .series) none [.node (.operator withDefault) none
    [.node (.keywords withDefault.keywords) none (withDefault.keywords.map Keyword.absent)]]]

/-- A limit of five changes nothing for a formula whose outline has a node at a depth of five, since that
node belongs to a keyword argument that is left out. -/
theorem readFormula_some_withDefault :
    parseFormula (.ofList [withDefault]) (some 5) "(g)" = .ok withDefaultOutline ∧
      (withDefaultOutline.preorder 0).map Prod.fst = [0, 1, 2, 3, 4, 5] ∧
      (∃ (record : Record) (missing : List (Nat × Keyword)),
        record.IsOf (.ofList [withDefault]) (some 5) "(g)" ∧ record.outline = withDefaultOutline ∧
        (withDefaultOutline.preorder 0).Perm
          (record.preorder 0 ++ Record.preorderOfAbsent missing) ∧
        ∀ node ∈ record.preorder 0, node.1 < 5) ∧
      (readFormula (.ofList [withDefault]) none "(g)".toList).nesting ≤ 5 ∧
      parseFormula (.ofList [withDefault]) none "(g)" = .ok withDefaultOutline := by
  have hread : parseFormula (.ofList [withDefault]) (some 5) "(g)" = .ok withDefaultOutline := by
    decide +kernel
  have hnesting : (readFormula (.ofList [withDefault]) none "(g)".toList).nesting ≤ 5 := by
    decide +kernel
  obtain ⟨-, hnodes, hsame⟩ := readFormula_some_spec [withDefault] 5 "(g)"
  exact ⟨hread, by decide, hnodes _ hread, hnesting, (hsame hnesting).2 ▸ hread⟩

end Formulary
