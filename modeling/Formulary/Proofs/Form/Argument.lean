import Formulary.Proofs.Form.Literal
import Formulary.Proofs.Formula.Parts
/-!
Arguments where a literal stands. An argument of any type is read there as the literal of the first kind,
in the order in which its alternatives are tried, whose literals are written like that, whatever the
operators of the catalog are (`holdsOnly_fill`); if there is no such kind it cannot be read. Main
definitions: `ArgType.kinds` and `HoldsOnly`.
-/

set_option autoImplicit false
set_option relaxedAutoImplicit false

namespace Formulary

open Text Place Reading

namespace ArgType

mutual

/-- The kinds of literals that may stand where an argument of the type does, in the order in which they
are tried. -/
def kinds : ArgType → List Scalar
  | .scalar kind => [kind]
  | .series | .list _ => []
  | .union alternatives => kindsOfAll alternatives

/-- The kinds of literals of some types, in the order of the types. -/
def kindsOfAll : List ArgType → List Scalar
  | [] => []
  | type :: types => type.kinds ++ kindsOfAll types

end

mutual

theorem mem_kinds_iff {kind : Scalar} : (type : ArgType) → (kind ∈ type.kinds ↔ type.admits kind = true)
  | .scalar own => by simp [kinds, admits, eq_comm]
  | .series => by simp [kinds, admits]
  | .list element => by simp [kinds, admits]
  | .union alternatives => by rw [kinds, admits, mem_kindsOfAll_iff]

theorem mem_kindsOfAll_iff {kind : Scalar} : (types : List ArgType) →
    (kind ∈ kindsOfAll types ↔ anyAdmits kind types = true)
  | [] => by simp [kindsOfAll, anyAdmits]
  | type :: types => by
    rw [kindsOfAll, anyAdmits, List.mem_append, Bool.or_eq_true, mem_kinds_iff type,
      mem_kindsOfAll_iff types]

end

/-- The literal that a form stands for where an argument of the type does. -/
def literal? (type : ArgType) (form : Form) : Option Literal :=
  type.kinds.findSome? fun kind ↦ form.literal? kind

end ArgType

/-- A reading ends at a place with an outline that stands for one literal only, or it fails if there is
none. -/
def HoldsOnly (found : Option Literal) (rest : List Char) (result : Option (Outline × Place)) : Prop :=
  match found with
  | none => result = none
  | some value => ∃ outline after, result = some (outline, after) ∧ after.rest = rest ∧
      outline.innermost.content = some value

section Rules

variable {rest : List Char}

theorem HoldsOnly.or {found found' : Option Literal} {result result' : Option (Outline × Place)}
    (h : HoldsOnly found rest result) (h' : HoldsOnly found' rest result') :
    HoldsOnly (found.or found') rest (result.or result') := by
  cases found with
  | none =>
    obtain rfl : result = none := h
    exact h'
  | some value =>
    obtain ⟨outline, after, rfl, hrest, hvalue⟩ := h
    exact ⟨outline, after, rfl, hrest, hvalue⟩

/-- A slot with alternatives stands for what its part stands for. -/
theorem HoldsOnly.wrapped {found : Option Literal} {result : Option (Outline × Place)} {slot : Slot}
    (h : HoldsOnly found rest result) (hslot : slot.choices ≠ []) :
    HoldsOnly found rest (result.map fun read ↦ (.node slot none [read.1], read.2)) := by
  cases found with
  | none =>
    obtain rfl : result = none := h
    rfl
  | some value =>
    obtain ⟨outline, after, rfl, hrest, hvalue⟩ := h
    refine ⟨.node slot none [outline], after, rfl, hrest, ?_⟩
    unfold Slot.choices at hslot
    split at hslot
    · exact hvalue
    · exact hvalue
    · exact absurd rfl hslot

end Rules

section Slots

variable {catalog : Catalog} {limit room : Nat} {place : Place} {form : Form} {rest : List Char}

theorem result_fill_of_choices {slot : Slot} (hslot : slot.choices ≠ []) :
    (fill catalog limit (room + 1) slot place).result =
      (firstOf (slot.choices.map (fill catalog limit room)) place).result.map
        fun read ↦ (.node slot none [read.1], read.2) := by
  have hparts : (nested (fillParts catalog (fill catalog limit room) slot) place).result =
      (firstOf (slot.choices.map (fill catalog limit room)) place).result.map
        fun read ↦ (.node slot none [read.1], read.2) := by
    show (fillParts catalog (fill catalog limit room) slot place).result = _
    rw [fillParts_of_choices hslot, result_bind]
    cases (firstOf (slot.choices.map (fill catalog limit room)) place).result <;> rfl
  rw [fill, result_bind]
  show ((nested (fillParts catalog (fill catalog limit room) slot) >>= _) place).result = _
  rw [result_bind, hparts]
  cases (firstOf (slot.choices.map (fill catalog limit room)) place).result <;> rfl

/-- No parenthesis opens where a word or a string stands. -/
theorem eat?_eq_none_of_sequence (hform : ∀ members, form ≠ .group members)
    (h : Sequence place.rest [form] rest) : place.eat? ['('] = none := by
  refine Option.eq_none_iff_forall_ne_some.mpr fun opened heaten ↦ ?_
  obtain ⟨hopened, -⟩ := eat?_eq_some heaten
  rw [hopened] at h
  generalize htext : ['('] ++ opened.rest = text at h
  cases h with
  | word hsome hword => exact absurd (isWordCharacter_of_word hsome hword htext) (by decide)
  | string => exact nomatch htext
  | group => exact hform _ rfl

/-- What stands between parentheses of its own is not read where a word or a string stands. -/
theorem result_fill_eq_none_of_isBracketed {slot : Slot} (hslot : slot.isBracketed = true)
    (hform : ∀ members, form ≠ .group members) (h : Sequence place.rest [form] rest) :
    (fill catalog limit room slot place).result = none := by
  cases room with
  | zero => rfl
  | succ room =>
    refine Option.eq_none_iff_forall_ne_some.mpr fun ⟨outline, after⟩ hread ↦ ?_
    have hnone := eat?_eq_none_of_sequence hform h
    cases result_fill_succ_iff.mp hread with
    | call hopened | list hopened => exact nomatch hopened.symm.trans hnone
    | chosen hchoices =>
      exact absurd hchoices (Slot.choices_ne_append (Slot.choices_of_isBracketed hslot))
    | root | scalar | keywords | operator | keyword => exact nomatch hslot

theorem holdsOnly_fill_scalar (h : Sequence place.rest [form] rest) (kind : Scalar) :
    HoldsOnly (form.literal? kind) rest
      (fill catalog limit (room + 1) (.typed (.scalar kind)) place).result := by
  cases hvalue : form.literal? kind with
  | none =>
    refine Option.eq_none_iff_forall_ne_some.mpr fun ⟨outline, after⟩ hread ↦ ?_
    cases result_fill_succ_iff.mp hread with
    | scalar hliteral =>
      obtain ⟨other, hother, hsome⟩ := sequence_of_readLiteral hliteral
      obtain ⟨hforms, -⟩ := hother.unique h rfl
      obtain rfl := (List.cons.inj hforms).1
      exact nomatch hsome.symm.trans hvalue
    | chosen hchoices => exact absurd hchoices (Slot.choices_ne_append rfl)
  | some value =>
    obtain ⟨after, hread, hafter⟩ := readLiteral_of_sequence h hvalue
    exact ⟨_, _, result_fill_succ_iff.mpr (.scalar hread), hafter, rfl⟩

mutual

/-- Where a word or a string stands, an argument is read as the first literal that it can be. -/
theorem holdsOnly_fill (hform : ∀ members, form ≠ .group members)
    (h : Sequence place.rest [form] rest) : (type : ArgType) → {room : Nat} → type.depth < room →
    HoldsOnly (type.literal? form) rest (fill catalog limit room (.ofArgument type) place).result
  | .series, _, _ => result_fill_eq_none_of_isBracketed rfl hform h
  | .list element, _, _ => result_fill_eq_none_of_isBracketed rfl hform h
  | .scalar kind, room, hroom => by
    obtain ⟨room, rfl⟩ : ∃ room', room = room' + 2 := Nat.exists_eq_add_of_le' hroom
    have hcall : (fill catalog limit (room + 1) (.call (.scalar kind)) place).result = none :=
      result_fill_eq_none_of_isBracketed rfl hform h
    have hchoice : HoldsOnly ((form.literal? kind).or none) rest
        (firstOf ([Slot.typed (.scalar kind), .call (.scalar kind)].map
          (fill catalog limit (room + 1))) place).result := by
      rw [List.map_cons, result_firstOf_cons, List.map_cons, result_firstOf_cons, hcall]
      exact (holdsOnly_fill_scalar h kind).or rfl
    have hsame : (ArgType.scalar kind).literal? form = (form.literal? kind).or none := by
      rw [ArgType.literal?, ArgType.kinds, List.findSome?_cons]
      cases form.literal? kind <;> rfl
    have hslot : (Slot.choice kind).choices ≠ [] := List.cons_ne_nil _ _
    change HoldsOnly _ rest (fill catalog limit (room + 2) (.choice kind) place).result
    rw [hsame, result_fill_of_choices hslot]
    exact hchoice.wrapped hslot
  | .union alternatives, room, hroom => by
    obtain ⟨room, rfl⟩ := Nat.exists_eq_add_one_of_ne_zero (Nat.ne_zero_of_lt hroom)
    have hall := holdsOnly_firstOf hform h alternatives (Nat.lt_of_succ_lt_succ hroom)
    change HoldsOnly _ rest (fill catalog limit (room + 1) (.typed (.union alternatives)) place).result
    by_cases hslot : (Slot.typed (.union alternatives)).choices = []
    · obtain rfl : alternatives = [] := List.map_eq_nil_iff.mp hslot
      refine Option.eq_none_iff_forall_ne_some.mpr fun ⟨outline, after⟩ hread ↦ ?_
      cases result_fill_succ_iff.mp hread with
      | chosen hchoices => exact absurd hchoices (Slot.choices_ne_append rfl)
    · rw [result_fill_of_choices hslot, Slot.choices, List.map_map]
      exact hall.wrapped hslot

theorem holdsOnly_firstOf (hform : ∀ members, form ≠ .group members)
    (h : Sequence place.rest [form] rest) :
    (types : List ArgType) → {room : Nat} → ArgType.depthOfAll types < room →
    HoldsOnly ((ArgType.kindsOfAll types).findSome? fun kind ↦ form.literal? kind) rest
      (firstOf (types.map fun type ↦ fill catalog limit room (.ofArgument type)) place).result
  | [], _, _ => rfl
  | type :: types, room, hroom => by
    rw [List.map_cons, result_firstOf_cons, ArgType.kindsOfAll, List.findSome?_append]
    exact (holdsOnly_fill hform h type (Nat.lt_of_le_of_lt (Nat.le_max_left _ _) hroom)).or
      (holdsOnly_firstOf hform h types (Nat.lt_of_le_of_lt (Nat.le_max_right _ _) hroom))

end

end Slots

end Formulary
