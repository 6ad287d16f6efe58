import Formulary.Exchange.Decoder
import Formulary.Proofs.Json.Written
import Formulary.Proofs.Lists
/-!
Reading what was written under a limit on its nesting. Where a part of a document is nested beyond the
limit, the part denotes nothing, and a reader that looks at every part refuses the document. Main
definition: `ReadsAs`, where a reader gives what is to be read of a value, or refuses the document for
exactly this reason or because nothing is to be read. There is a rule for each way of putting documents
together (`readsAs_record`, `readsAs_listOf`).
-/

set_option autoImplicit false
set_option relaxedAutoImplicit false

namespace Formulary.Json

variable {α β : Type}

/-! ### Documents under a limit -/

theorem limited_reread_array (elements : List Json) (limit : Nat) :
    (Json.array elements).reread.limited (limit + 1) =
      .array (elements.map fun element ↦ element.reread.limited limit) := by
  rw [reread_array, limited, limitedAll_eq_map, List.map_map]
  rfl

theorem limited_reread_record (members : List (String × Json)) (limit : Nat) :
    (record members).reread.limited (limit + 1) =
      record (members.map fun member ↦ (member.1, member.2.reread.limited limit)) := by
  rw [reread_record, record, limited, limitedMembers_eq_map, record, List.map_map, List.map_map,
    List.map_map]
  rfl

theorem limited_reread_string (text : String) (limit : Nat) :
    (Json.string text).reread.limited limit = .string text :=
  limited_reread_of_flat rfl limit

theorem nesting_record_le_iff {members : List (String × Json)} {limit : Nat} :
    (record members).nesting ≤ limit + 1 ↔ ∀ member ∈ members, member.2.nesting ≤ limit := by
  rw [record, nesting, Nat.succ_le_succ_iff, nestingMembers_le_iff, List.forall_mem_map]

theorem nesting_array_le_iff {elements : List Json} {limit : Nat} :
    (Json.array elements).nesting ≤ limit + 1 ↔ ∀ element ∈ elements, element.nesting ≤ limit := by
  rw [nesting, Nat.succ_le_succ_iff, nestingAll_le_iff]

theorem nesting_named (name : String) (document : Json) :
    (record [(name, document)]).nesting = document.nesting + 1 := by
  simp [record, nesting, nestingMembers]

/-! ### The bound of a reader -/

theorem mem_parts_of_form? {document value : Json} {name : String}
    (h : document.form? = some (name, some value)) : value ∈ document.parts := by
  unfold form? at h
  split at h
  · exact nomatch h
  · obtain ⟨-, hvalue⟩ := Prod.mk.inj (Option.some.inj h)
    obtain rfl := Option.some.inj hvalue
    exact List.mem_singleton_self _
  · exact nomatch h

/-- The elements of an array are read in the same way by readers that agree on what is nested less
deeply. -/
theorem listOf?_congr {read read' : Json → Option α} {document : Json}
    (h : ∀ element, element.nesting < document.nesting → read element = read' element) :
    document.listOf? read = document.listOf? read' := by
  cases document with
  | array elements =>
    exact mapM_congr fun element helement ↦ h element (nesting_lt_of_mem_parts helement)
  | _ => rfl

/-! ### Conditions on what is read -/

theorem ite_bind {condition : Prop} [Decidable condition] (read? : Option α) (next : α → Option β) :
    (if condition then read? else none).bind next = if condition then read?.bind next else none := by
  split <;> rfl

theorem bind_ite {condition : Prop} [Decidable condition] (read? : Option α) (next : α → Option β) :
    (read?.bind fun found ↦ if condition then next found else none) =
      if condition then read?.bind next else none := by
  split
  · rfl
  · cases read? <;> rfl

theorem ite_map {condition : Prop} [Decidable condition] (read? : Option α) (build : α → β) :
    (if condition then read? else none).map build = if condition then read?.map build else none := by
  split <;> rfl

/-- If each item is read under a condition, then a list of them is under the condition for all. -/
theorem mapM_ite {read value? : α → Option β} {condition : α → Prop} [DecidablePred condition]
    {items : List α} (h : ∀ item ∈ items, read item = if condition item then value? item else none) :
    items.mapM read = if ∀ item ∈ items, condition item then items.mapM value? else none := by
  induction items with
  | nil => rfl
  | cons item items ih =>
    obtain ⟨hitem, hitems⟩ := List.forall_mem_cons.mp h
    have hboth : (∀ other ∈ item :: items, condition other) ↔
        condition item ∧ ∀ other ∈ items, condition other := List.forall_mem_cons
    rw [List.mapM_cons, List.mapM_cons, hitem, ih hitems]
    by_cases hfirst : condition item
    · by_cases hrest : ∀ other ∈ items, condition other
      · rw [if_pos hfirst, if_pos hrest, if_pos (hboth.mpr ⟨hfirst, hrest⟩)]
      · rw [if_neg hrest, if_neg fun hall ↦ hrest (hboth.mp hall).2]
        exact Option.bind_fun_none _
    · rw [if_neg hfirst, if_neg fun hall ↦ hfirst (hboth.mp hall).1]
      rfl

/-! ### Reading what was written -/

/-- Under any limit, a reader gives what is to be read if the document does not nest beyond the limit, and
else refuses the document. -/
def ReadsAs (read : Json → Option α) (document : Json) (value? : Option α) : Prop :=
  ∀ limit, read (document.reread.limited limit) = if document.nesting ≤ limit then value? else none

theorem readsAs_of_flat {read : Json → Option α} {document : Json} {value? : Option α}
    (hflat : document.nesting = 0) (h : read document.reread = value?) :
    ReadsAs read document value? := by
  intro limit
  rw [limited_reread_of_flat hflat, h, hflat, if_pos (Nat.zero_le limit)]

/-- An object is read once its members are. -/
theorem readsAs_record {read : Json → Option α} {members : List (String × Json)} {value? : Option α}
    (hcut : read .unreadable = none)
    (h : ∀ limit,
      read (record (members.map fun member ↦ (member.1, member.2.reread.limited limit))) =
        if ∀ member ∈ members, member.2.nesting ≤ limit then value? else none) :
    ReadsAs read (record members) value? := by
  intro limit
  cases limit with
  | zero =>
    have hdeep : ¬ (record members).nesting ≤ 0 := Nat.not_succ_le_zero _
    rw [if_neg hdeep]
    exact hcut
  | succ limit => simp only [limited_reread_record, h, nesting_record_le_iff]

/-- A named form is read as what belongs to the name is. -/
theorem readsAs_named {read : Json → Option β} {inner : Json → Option α} {build : α → β}
    {name : String} {document : Json} {value? : Option α} (hcut : read .unreadable = none)
    (hread : ∀ document, read (record [(name, document)]) = (inner document).map build)
    (h : ReadsAs inner document value?) :
    ReadsAs read (record [(name, document)]) (value?.map build) := by
  refine readsAs_record hcut fun limit ↦ ?_
  show read (record [(name, document.reread.limited limit)]) = _
  rw [hread, h limit, ite_map]
  simp only [List.forall_mem_singleton]

/-- A name and what belongs to it under two members are read as the latter is. -/
theorem readsAs_labelled {read : Json → Option β} {inner : Json → Option α} {build : α → β}
    {nameMember valueMember name : String} {document : Json} {value? : Option α}
    (hcut : read .unreadable = none)
    (hread : ∀ document, read (record [(nameMember, .string name), (valueMember, document)]) =
      (inner document).map build)
    (h : ReadsAs inner document value?) :
    ReadsAs read (record [(nameMember, .string name), (valueMember, document)])
      (value?.map build) := by
  refine readsAs_record hcut fun limit ↦ ?_
  show read (record [(nameMember, (Json.string name).reread.limited limit),
    (valueMember, document.reread.limited limit)]) = _
  rw [limited_reread_string, hread, h limit, ite_map]
  simp [nesting]

/-- An array is read once each of its elements is. -/
theorem readsAs_listOf {read : Json → Option α} {write : β → Json} {value? : β → Option α}
    {values : List β} (h : ∀ value ∈ values, ReadsAs read (write value) (value? value)) :
    ReadsAs (listOf? read) (.array (values.map write)) (values.mapM value?) := by
  intro limit
  cases limit with
  | zero => simp [reread, limited, listOf?, nesting]
  | succ limit =>
    rw [limited_reread_array, listOf?, List.map_map, List.mapM_map]
    simp only [nesting_array_le_iff, List.forall_mem_map]
    exact mapM_ite fun value hvalue ↦ h value hvalue limit

end Formulary.Json
