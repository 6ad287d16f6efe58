import Formulary.Proofs.Form.Interpretation
import Formulary.Proofs.Lists
/-!
Acceptance: whether a slot interprets some forms at all. The first alternative that interprets the
forms is taken, but for acceptance the order does not matter, so it is given by one equivalence for
every kind of slot, without the refusals. Main definition: `Accepts`. Main statements:
`accepts_of_choices_iff`, `accepts_call_iff`, `accepts_operator_iff` and `accepts_keywords_iff`.
-/

set_option autoImplicit false
set_option relaxedAutoImplicit false

namespace Formulary

open Text Place

/-- A slot interprets some forms as something. -/
def Accepts (catalog : Catalog) (room : Nat) (slot : Slot) (forms : List Form) : Prop :=
  ∃ outline, Interprets catalog room (fun _ ↦ True) slot forms outline

section Rules

variable {catalog : Catalog} {room : Nat}

/-- Acceptance is by the rules of interpretation. -/
theorem accepts_succ_iff {slot : Slot} {forms : List Form} :
    Accepts catalog (room + 1) slot forms ↔
      ∃ outline, InterpretsParts (Interprets catalog room fun _ ↦ True)
        (fun part forms ↦ ¬ Accepts catalog room part forms) catalog slot forms outline := by
  simp only [Accepts, not_exists]
  exact exists_congr fun outline ↦ ⟨fun h ↦ h.2, fun h ↦ ⟨trivial, h⟩⟩

/-- A slot with alternatives accepts what one of them accepts. -/
theorem accepts_of_choices_iff {slot : Slot} {forms : List Form} (hslot : slot.choices ≠ []) :
    Accepts catalog (room + 1) slot forms ↔
      ∃ choice ∈ slot.choices, Accepts catalog room choice forms := by
  rw [accepts_succ_iff]
  constructor
  · rintro ⟨outline, hparts⟩
    cases hparts with
    | @chosen _ choice _ _ _ part hchoices hearlier hpart =>
      exact ⟨choice, by simp [hchoices], part, hpart⟩
    | _ => exact absurd rfl hslot
  · intro h
    obtain ⟨earlier, choice, later, hchoices, hearlier, part, hpart⟩ := exists_first h
    exact ⟨_, .chosen hchoices hearlier hpart⟩

theorem accepts_scalar_iff {kind : Scalar} {form : Form} :
    Accepts catalog (room + 1) (.typed (.scalar kind)) [form] ↔
      (form.literal? kind).isSome = true := by
  rw [accepts_succ_iff, Option.isSome_iff_exists]
  constructor
  · rintro ⟨outline, hparts⟩
    cases hparts with
    | scalar hvalue => exact ⟨_, hvalue⟩
    | chosen hchoices => exact absurd hchoices (Slot.choices_ne_append rfl)
  · rintro ⟨value, hvalue⟩
    exact ⟨_, .scalar hvalue⟩

theorem not_accepts_series {forms : List Form} :
    ¬ Accepts catalog (room + 1) (.typed .series) forms := by
  rw [accepts_succ_iff]
  rintro ⟨outline, hparts⟩
  cases hparts with
  | chosen hchoices => exact absurd hchoices (Slot.choices_ne_append rfl)

/-- A formula is a use of an operator, and nothing else. -/
theorem accepts_root_iff {base : Base} {forms : List Form} :
    Accepts catalog (room + 1) (.root base) forms ↔ Accepts catalog room (.call base) forms := by
  rw [accepts_succ_iff]
  constructor
  · rintro ⟨outline, hparts⟩
    cases hparts with
    | @root _ _ part hpart => exact ⟨part, hpart⟩
    | chosen hchoices => exact absurd hchoices (Slot.choices_ne_append rfl)
  · rintro ⟨part, hpart⟩
    exact ⟨_, .root hpart⟩

/-- A use of an operator is a group that its name is the first form of. -/
theorem accepts_call_iff {base : Base} {form : Form} :
    Accepts catalog (room + 1) (.call base) [form] ↔
      ∃ operator operands, form = .group (.word operator.name.toList :: operands) ∧
        (catalog.operators base).find? (fun other ↦ other.name = operator.name) = some operator ∧
          Accepts catalog room (.operator operator) operands := by
  rw [accepts_succ_iff]
  constructor
  · rintro ⟨outline, hparts⟩
    cases hparts with
    | @call _ operator operands part hoperator hpart =>
      exact ⟨operator, operands, rfl, hoperator, part, hpart⟩
    | chosen hchoices => exact absurd hchoices (Slot.choices_ne_append rfl)
  · rintro ⟨operator, operands, rfl, hoperator, part, hpart⟩
    exact ⟨_, .call hoperator hpart⟩

/-! ### Operands -/

/-- Some slots that accept one form each interpret them. -/
theorem exists_interpretsEach_iff {slots : List Slot} {forms : List Form} :
    (∃ parts, InterpretsEach (Interprets catalog room fun _ ↦ True) slots forms parts) ↔
      List.Forall₂ (fun slot form ↦ Accepts catalog room slot [form]) slots forms := by
  constructor
  · rintro ⟨parts, hparts⟩
    induction hparts with
    | done => exact .nil
    | more hfirst hrest ih => exact .cons ⟨_, hfirst⟩ ih
  · intro h
    induction h with
    | nil => exact ⟨[], .done⟩
    | cons hfirst hrest ih =>
      obtain ⟨part, hpart⟩ := hfirst
      obtain ⟨parts, hparts⟩ := ih
      exact ⟨part :: parts, .more hpart hparts⟩

theorem InterpretsEach.length_eq {reads : Slot → List Form → Outline → Prop} {slots : List Slot}
    {forms : List Form} {parts : List Outline} (h : InterpretsEach reads slots forms parts) :
    slots.length = parts.length ∧ forms.length = parts.length := by
  induction h with
  | done => exact ⟨rfl, rfl⟩
  | more hfirst hrest ih => exact ⟨congrArg Nat.succ ih.1, congrArg Nat.succ ih.2⟩

/-- A list accepts a group all of whose members are elements. -/
theorem accepts_list_iff {element : ArgType} {form : Form} :
    Accepts catalog (room + 1) (.typed (.list element)) [form] ↔
      ∃ members, form = .group members ∧
        ∀ member ∈ members, Accepts catalog room (.ofArgument element) [member] := by
  rw [accepts_succ_iff]
  constructor
  · rintro ⟨outline, hparts⟩
    cases hparts with
    | @list _ members parts hparts =>
      refine ⟨members, rfl, fun member hmember ↦ ?_⟩
      have hall := exists_interpretsEach_iff.mp ⟨parts, hparts⟩
      rw [List.forall₂_map_left_iff] at hall
      obtain ⟨part, -, haccepts⟩ := exists_mem_of_forall₂ hall.flip hmember
      exact haccepts
    | chosen hchoices => exact absurd hchoices (Slot.choices_ne_append rfl)
  · rintro ⟨members, rfl, hmembers⟩
    have hall : List.Forall₂ (fun slot form ↦ Accepts catalog room slot [form])
        (members.map fun _ ↦ .ofArgument element) members := by
      rw [List.forall₂_map_left_iff, List.forall₂_same]
      exact hmembers
    obtain ⟨parts, hparts⟩ := exists_interpretsEach_iff.mpr hall
    have hslots : (members.map fun _ ↦ Slot.ofArgument element) =
        parts.map fun _ ↦ .ofArgument element := by
      simp only [List.map_const', hparts.length_eq.2]
    rw [hslots] at hparts
    exact ⟨_, .list hparts⟩

/-- The operands of an operator are its arguments and its keyword arguments. -/
theorem accepts_operator_iff {chosen : Operator} {operands : List Form} :
    Accepts catalog (room + 1) (.operator chosen) operands ↔
      ∃ arguments others, operands = arguments ++ others ∧
        List.Forall₂ (fun slot form ↦ Accepts catalog room slot [form])
          (chosen.parameters.map .ofArgument) arguments ∧
        (chosen.keywords = [] ∧ others = [] ∨
          chosen.keywords ≠ [] ∧ Accepts catalog room (.keywords chosen.keywords) others) := by
  rw [accepts_succ_iff]
  constructor
  · rintro ⟨outline, hparts⟩
    cases hparts with
    | @operator _ arguments others parts group harguments hgroup =>
      refine ⟨arguments, others, rfl, exists_interpretsEach_iff.mp ⟨parts, harguments⟩, ?_⟩
      cases hgroup with
      | none hnone => exact .inl ⟨hnone, rfl⟩
      | some hsome hpart => exact .inr ⟨hsome, _, hpart⟩
    | chosen hchoices => exact absurd hchoices (Slot.choices_ne_append rfl)
  · rintro ⟨arguments, others, rfl, harguments, hothers⟩
    obtain ⟨parts, hparts⟩ := exists_interpretsEach_iff.mpr harguments
    rcases hothers with ⟨hnone, rfl⟩ | ⟨hsome, part, hpart⟩
    · exact ⟨_, .operator hparts (.none hnone)⟩
    · exact ⟨_, .operator hparts (.some hsome hpart)⟩

theorem accepts_keyword_iff {own : Keyword} {pair : String × Form} :
    Accepts catalog (room + 1) (.keyword own) (keywordForms pair) ↔
      own.name = pair.1 ∧ Accepts catalog room (.ofArgument own.type) [pair.2] := by
  rw [accepts_succ_iff]
  constructor
  · rintro ⟨outline, hparts⟩
    generalize hforms : keywordForms pair = forms at hparts
    cases hparts with
    | @keyword _ form value hvalue =>
      obtain rfl := eq_of_keywordForms hforms
      exact ⟨rfl, value, hvalue⟩
    | chosen hchoices => exact absurd hchoices (Slot.choices_ne_append rfl)
  · obtain ⟨name, form⟩ := pair
    rintro ⟨rfl, value, hvalue⟩
    exact ⟨_, .keyword hvalue⟩

/-- A group of keyword arguments accepts pairs of different names that its members accept. -/
theorem accepts_keywords_iff {group : List Keyword} {forms : List Form} :
    Accepts catalog (room + 1) (.keywords group) forms ↔
      ∃ pairs : List (String × Form), forms = pairs.flatMap keywordForms ∧
        (pairs.map Prod.fst).Nodup ∧
        ∀ pair ∈ pairs, ∃ keyword ∈ group,
          keyword.name = pair.1 ∧ Accepts catalog room (.keyword keyword) (keywordForms pair) := by
  rw [accepts_succ_iff]
  constructor
  · rintro ⟨outline, hparts⟩
    cases hparts with
    | @keywords _ pairs supplied hsupplied hnames =>
      refine ⟨pairs, rfl, hnames, fun pair hpair ↦ ?_⟩
      obtain ⟨entry, -, -, earlier, keyword, later, rfl, hname, -, hreads⟩ :=
        exists_mem_of_forall₂ hsupplied hpair
      exact ⟨keyword, by simp, hname, entry.2, hreads⟩
    | chosen hchoices => exact absurd hchoices (Slot.choices_ne_append rfl)
  · rintro ⟨pairs, rfl, hnames, hpairs⟩
    have hsupplies (pair : String × Form) (hpair : pair ∈ pairs) :
        ∃ entry, Supplies (Interprets catalog room fun _ ↦ True)
          (fun part forms ↦ ¬ Accepts catalog room part forms) group pair entry := by
      obtain ⟨earlier, keyword, later, hgroup, hearlier, hname, outline, hreads⟩ :=
        exists_first (hpairs pair hpair)
      refine ⟨(pair.1, outline), rfl, earlier, keyword, later, hgroup, hname, ?_, hreads⟩
      intro other hother haccepts
      obtain ⟨own, hreads'⟩ := haccepts
      obtain ⟨-, form, -, hforms, -⟩ := exists_value_of_interprets hreads'
      obtain rfl := eq_of_keywordForms hforms
      exact hearlier other hother ⟨rfl, own, hreads'⟩
    obtain ⟨supplied, hsupplied⟩ := exists_forall₂ hsupplies
    exact ⟨_, .keywords hsupplied hnames⟩

end Rules

end Formulary
