import Formulary.Formula
import Formulary.Proofs.Formula.Slots
import Formulary.Proofs.Text.Movement
/-!
Records of readings. A reading that succeeds keeps those entries of its journal that its result is
made of. A record has the same entries as a tree: for each slot that was read, the places between
which it was read, the literal that it holds, and the records of its parts in the order of the text.
So it says what was supplied where, which the outline does not, since there the keyword arguments
stand in the order of declaration, whether they were supplied or not. Main definitions: `Record`,
`Record.outline` and `Record.events`, the outline and the journal that a record accounts for, and
`Record.IsSound`, which parts a record has.
-/

set_option autoImplicit false
set_option relaxedAutoImplicit false

namespace Formulary

open Text Place

/-- What was read for a slot between two places, with the records of its parts in the order of the
text. -/
inductive Record
  | node (slot : Slot) (start stop : Place) (content : Option Literal) (parts : List Record)

namespace Record

/-- The slot that something was read for. -/
def slot : Record → Slot
  | .node slot _ _ _ _ => slot

/-- The place where the reading of the slot began. -/
def start : Record → Place
  | .node _ start _ _ _ => start

/-- The place that the reading of the slot led to. -/
def stop : Record → Place
  | .node _ _ stop _ _ => stop

/-- The literal that the slot holds. -/
def content : Record → Option Literal
  | .node _ _ _ content _ => content

/-- What was read for the parts of the slot, in the order of the text. -/
def parts : Record → List Record
  | .node _ _ _ _ parts => parts

/-- The name under which a keyword argument was supplied. -/
def name (record : Record) : String :=
  match record.slot with
  | .keyword own => own.name
  | _ => ""

/-- The order in which the parts of a slot stand in an outline: that of the text, but for keyword
arguments that of their declarations. -/
def arrange (slot : Slot) (supplied : List (String × Outline)) : List Outline :=
  match slot with
  | .keywords group => arrangeKeywords group supplied
  | _ => supplied.map Prod.snd

mutual

/-- The outline of what was read. -/
def outline : Record → Outline
  | .node slot _ _ content parts => .node slot content (arrange slot (entries parts))

/-- The outlines of some records, each with the name under which it was supplied. -/
def entries : List Record → List (String × Outline)
  | [] => []
  | record :: records => (record.name, record.outline) :: entries records

end

mutual

/-- What a reading keeps of its journal. -/
def events : Record → List Event
  | .node slot start stop content parts =>
    .entered slot start.offset ::
      (eventsOfAll parts ++ [.filled (outline (.node slot start stop content parts)) stop.offset])

/-- What readings keep of their journals one after the other. -/
def eventsOfAll : List Record → List Event
  | [] => []
  | record :: records => record.events ++ eventsOfAll records

end

mutual

/-- A record and all the records inside it. -/
def all : Record → List Record
  | .node slot start stop content parts => .node slot start stop content parts :: allOfAll parts

/-- Some records and all the records inside them. -/
def allOfAll : List Record → List Record
  | [] => []
  | record :: records => record.all ++ allOfAll records

end

mutual

/-- How deeply records are nested, the record itself counted. -/
def height : Record → Nat
  | .node _ _ _ _ parts => heightOfAll parts + 1

/-- The greatest height of some records. -/
def heightOfAll : List Record → Nat
  | [] => 0
  | record :: records => max record.height (heightOfAll records)

end

/-! ### Simple facts -/

@[elab_as_elim]
theorem induct {motive : Record → Prop}
    (node : ∀ slot start stop content parts, (∀ part ∈ parts, motive part) →
      motive (.node slot start stop content parts)) (record : Record) : motive record :=
  @Record.rec motive (fun parts ↦ ∀ part ∈ parts, motive part) node
    (List.forall_mem_nil _) (fun _ _ hfirst hrest ↦ List.forall_mem_cons.mpr ⟨hfirst, hrest⟩) record

theorem entries_eq_map (records : List Record) :
    entries records = records.map fun record ↦ (record.name, record.outline) := by
  induction records with
  | nil => rfl
  | cons record records ih => rw [entries, ih, List.map_cons]

theorem map_snd_entries (records : List Record) :
    (entries records).map Prod.snd = records.map outline := by
  rw [entries_eq_map, List.map_map]
  rfl

theorem map_fst_entries (records : List Record) :
    (entries records).map Prod.fst = records.map name := by
  rw [entries_eq_map, List.map_map]
  rfl

/-- The entries of a group of keyword arguments have the names of keywords in it. -/
theorem exists_keyword_of_mem_entries {group : List Keyword} {parts : List Record}
    (hslots : ∀ part ∈ parts, ∃ own ∈ group, part.slot = .keyword own) (entry : String × Outline)
    (hentry : entry ∈ entries parts) : ∃ keyword ∈ group, keyword.name = entry.1 := by
  rw [entries_eq_map] at hentry
  obtain ⟨given, hgiven, rfl⟩ := List.mem_map.mp hentry
  obtain ⟨own, hown, hkeyword⟩ := hslots given hgiven
  exact ⟨own, hown, by rw [name, hkeyword]⟩

@[simp] theorem slot_outline (record : Record) : record.outline.slot = record.slot := by
  cases record
  rfl

@[simp] theorem eventsOfAll_append (first second : List Record) :
    eventsOfAll (first ++ second) = eventsOfAll first ++ eventsOfAll second := by
  induction first with
  | nil => rfl
  | cons record records ih => rw [List.cons_append, eventsOfAll, eventsOfAll, ih, List.append_assoc]

theorem eventsOfAll_singleton (record : Record) : eventsOfAll [record] = record.events :=
  List.append_nil _

theorem mem_allOfAll_iff {records : List Record} {inside : Record} :
    inside ∈ allOfAll records ↔ ∃ record ∈ records, inside ∈ record.all := by
  induction records with
  | nil => simp [allOfAll]
  | cons record records ih => simp [allOfAll, ih]

/-- What lies inside a record is the record itself or lies inside a part of it. -/
theorem mem_all_iff {record inside : Record} :
    inside ∈ record.all ↔ inside = record ∨ ∃ part ∈ record.parts, inside ∈ part.all := by
  cases record
  rw [all, List.mem_cons, mem_allOfAll_iff]
  rfl

theorem mem_all_self (record : Record) : record ∈ record.all :=
  mem_all_iff.mpr (.inl rfl)

theorem mem_all_of_mem_parts {record part inside : Record} (hpart : part ∈ record.parts)
    (hinside : inside ∈ part.all) : inside ∈ record.all :=
  mem_all_iff.mpr (.inr ⟨part, hpart, hinside⟩)

theorem mem_all_trans {record inside innermost : Record} (hinnermost : innermost ∈ inside.all)
    (hinside : inside ∈ record.all) : innermost ∈ record.all := by
  induction record using induct with
  | node slot start stop content parts ih =>
    rcases mem_all_iff.mp hinside with rfl | ⟨part, hpart, hinside⟩
    · exact hinnermost
    · exact mem_all_of_mem_parts hpart (ih part hpart hinside)

theorem heightOfAll_le_iff {records : List Record} {bound : Nat} :
    heightOfAll records ≤ bound ↔ ∀ record ∈ records, record.height ≤ bound := by
  induction records with
  | nil => simp [heightOfAll]
  | cons record records ih => rw [heightOfAll, Nat.max_le, ih, List.forall_mem_cons]

theorem arrange_of_ne {slot : Slot} (h : ∀ group, slot ≠ .keywords group)
    (supplied : List (String × Outline)) : arrange slot supplied = supplied.map Prod.snd := by
  cases slot with
  | keywords group => exact absurd rfl (h group)
  | root | call | choice | typed | operator | keyword => rfl

/-- The outline of what was read for a slot other than a group of keyword arguments has its parts in
the order of the text. -/
theorem outline_node {slot : Slot} {start stop : Place} {content : Option Literal}
    {parts : List Record} (h : ∀ group, slot ≠ .keywords group) :
    outline (.node slot start stop content parts) = .node slot content (parts.map outline) := by
  rw [outline, arrange_of_ne h, map_snd_entries]

theorem outline_keywords {group : List Keyword} {start stop : Place} {content : Option Literal}
    {parts : List Record} :
    outline (.node (.keywords group) start stop content parts) =
      .node (.keywords group) content (arrangeKeywords group (entries parts)) :=
  rfl

/-! ### Soundness -/

/-- A record has the parts that its slot asks for. A keyword argument begins with its marker, and no
two of a group are supplied under one name. -/
inductive IsSound (catalog : Catalog) : Record → Prop
  | root {base : Base} {start stop : Place} {part : Record} (hslot : part.slot = .call base) :
      IsSound catalog (.node (.root base) start stop none [part])
  | call {base : Base} {operator : Operator} {start stop : Place} {part : Record}
      (hoperator : operator ∈ catalog.operators base) (hslot : part.slot = .operator operator) :
      IsSound catalog (.node (.call base) start stop none [part])
  | chosen {slot : Slot} {start stop : Place} {part : Record} (hslot : part.slot ∈ slot.choices) :
      IsSound catalog (.node slot start stop none [part])
  | scalar {kind : Scalar} {start stop : Place} {value : Literal} :
      IsSound catalog (.node (.typed (.scalar kind)) start stop (some value) [])
  | list {element : ArgType} {start stop : Place} {parts : List Record}
      (hslots : ∀ part ∈ parts, part.slot = .ofArgument element) :
      IsSound catalog (.node (.typed (.list element)) start stop none parts)
  | keywords {group : List Keyword} {start stop : Place} {parts : List Record}
      (hslots : ∀ part ∈ parts, ∃ own ∈ group, part.slot = .keyword own)
      (hnames : (parts.map name).Nodup) :
      IsSound catalog (.node (.keywords group) start stop none parts)
  | operator {chosen : Operator} {start stop : Place} {parts : List Record}
      (hslots : parts.map slot = chosen.slots) :
      IsSound catalog (.node (.operator chosen) start stop none parts)
  | keyword {own : Keyword} {start announced stop : Place} {value : Record}
      (hmarker : start.word? own.marker.toList = some announced)
      (hslot : value.slot = .ofArgument own.type) :
      IsSound catalog (.node (.keyword own) start stop none [value])

end Record

end Formulary
