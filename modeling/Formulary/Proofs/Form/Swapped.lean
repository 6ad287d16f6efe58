import Formulary.Proofs.Form.Covering
import Formulary.Proofs.Formula.Arrangement
/-!
Keyword arguments that change places. Two forms differ by a swap if one becomes the other when
somewhere inside it, behind the first member of a group, two keyword arguments that follow each other
change places. A slot interprets both as the same outline (`Swapped.interprets`): whatever refuses the
one refuses the other, and an operator arranges its keyword arguments by their declarations. Main
definitions: `Swapped`, for members of a group, and `Form.Swapped`.
-/

set_option autoImplicit false
set_option relaxedAutoImplicit false

namespace Formulary

mutual

/-- Some forms behind others differ by a swap: two keyword arguments among them change places, or one
of the forms differs by a swap inside it. -/
inductive Swapped : List Form → List Form → Prop
  | pairs (first second : String × Form) (later : List Form) :
      Swapped (keywordForms first ++ (keywordForms second ++ later))
        (keywordForms second ++ (keywordForms first ++ later))
  | next (form : Form) {forms forms' : List Form} (h : Swapped forms forms') :
      Swapped (form :: forms) (form :: forms')
  | inside {form form' : Form} (h : form.Swapped form') (forms : List Form) :
      Swapped (form :: forms) (form' :: forms)

/-- A group differs by a swap behind its first member, or inside the first member. -/
inductive Form.Swapped : Form → Form → Prop
  | behind (head : Form) {operands operands' : List Form} (h : Swapped operands operands') :
      Form.Swapped (.group (head :: operands)) (.group (head :: operands'))
  | head {head head' : Form} (h : head.Swapped head') (operands : List Form) :
      Form.Swapped (.group (head :: operands)) (.group (head' :: operands))

end

mutual

theorem Swapped.symm {forms forms' : List Form} : Swapped forms forms' → Swapped forms' forms
  | .pairs first second later => .pairs second first later
  | .next form h => .next form h.symm
  | .inside h forms => .inside h.symm forms

theorem Form.Swapped.symm {form form' : Form} : form.Swapped form' → form'.Swapped form
  | .behind head h => .behind head h.symm
  | .head h operands => .head h.symm operands

end

theorem Swapped.append_left (earlier : List Form) {forms forms' : List Form}
    (h : Swapped forms forms') : Swapped (earlier ++ forms) (earlier ++ forms') := by
  induction earlier with
  | nil => exact h
  | cons form earlier ih => exact .next form ih

/-- One form can only differ by a swap inside it. -/
theorem Swapped.eq_singleton {form : Form} {forms : List Form} (h : Swapped [form] forms) :
    ∃ form', forms = [form'] ∧ form.Swapped form' := by
  cases h with
  | next _ hnone => exact nomatch hnone
  | @inside _ form' hform => exact ⟨form', rfl, hform⟩

/-- A swap of a group is one of its members. -/
theorem Form.Swapped.exists_members {members : List Form} {form : Form}
    (h : Form.Swapped (.group members) form) :
    ∃ members', form = .group members' ∧ Formulary.Swapped members members' := by
  cases h with
  | @behind head operands operands' hoperands => exact ⟨head :: operands', rfl, .next head hoperands⟩
  | @head head head' hhead operands => exact ⟨head' :: operands, rfl, .inside hhead operands⟩

/-- A swap behind the first member of a group, or inside any member, is a swap of the group. -/
theorem swapped_group_of_member {form form' : Form} (h : form.Swapped form')
    (earlier later : List Form) :
    Form.Swapped (.group (earlier ++ form :: later)) (.group (earlier ++ form' :: later)) := by
  cases earlier with
  | nil => exact .head h later
  | cons head earlier => exact .behind head ((Swapped.inside h later).append_left earlier)

theorem swapped_group_of_behind {earlier forms forms' : List Form} (hearlier : earlier ≠ [])
    (h : Swapped forms forms') :
    Form.Swapped (.group (earlier ++ forms)) (.group (earlier ++ forms')) := by
  cases earlier with
  | nil => exact absurd rfl hearlier
  | cons head earlier => exact .behind head (h.append_left earlier)

/-! ### Interpretation -/

/-- Slots are interpreted and refused in the same way whatever the order of keyword arguments, and
markers are neither arguments nor the values of keyword arguments. -/
structure IgnoresSwaps (reads : Slot → List Form → Outline → Prop)
    (refuses : Slot → List Form → Prop) : Prop where
  reads_of_swapped : ∀ {slot : Slot} {forms forms' : List Form} {outline : Outline},
    Swapped forms forms' → reads slot forms outline → reads slot forms' outline
  refuses_of_swapped : ∀ {slot : Slot} {forms forms' : List Form},
    Swapped forms forms' → refuses slot forms → refuses slot forms'
  not_isMarker_of_argument : ∀ {slot : Slot} {form : Form} {outline : Outline},
    slot.isArgument = true → reads slot [form] outline → ¬ form.IsMarker
  not_isMarker_of_value : ∀ {own : Keyword} {pair : String × Form} {outline : Outline},
    reads (.keyword own) (keywordForms pair) outline → ¬ pair.2.IsMarker

namespace IgnoresSwaps

variable {catalog : Catalog} {reads : Slot → List Form → Outline → Prop}
  {refuses : Slot → List Form → Prop}

/-- Arguments take no part in a swap of keyword arguments, so the swap is inside one of them, or
among the forms behind them. -/
theorem interpretsEach (h : IgnoresSwaps reads refuses) {slots : List Slot}
    {arguments others forms : List Form} {parts : List Outline}
    (hslots : ∀ slot ∈ slots, slot.isArgument = true)
    (harguments : InterpretsEach reads slots arguments parts)
    (hswapped : Swapped (arguments ++ others) forms) :
    ∃ arguments' others', forms = arguments' ++ others' ∧
      InterpretsEach reads slots arguments' parts ∧ (others = others' ∨ Swapped others others') := by
  induction harguments generalizing forms with
  | done => exact ⟨[], forms, rfl, .done, .inr hswapped⟩
  | @more slot slots form arguments part parts hfirst hrest ih =>
    obtain ⟨hslot, hslots⟩ := List.forall_mem_cons.mp hslots
    generalize hwhole : form :: arguments ++ others = whole at hswapped
    cases hswapped with
    | pairs first second later =>
      obtain ⟨rfl, -⟩ := List.cons.inj hwhole
      exact absurd ⟨first.1, rfl⟩ (h.not_isMarker_of_argument hslot hfirst)
    | next _ hlater =>
      obtain ⟨rfl, rfl⟩ := List.cons.inj hwhole
      obtain ⟨arguments', others', rfl, heach, hothers⟩ := ih hslots hlater
      exact ⟨form :: arguments', others', rfl, .more hfirst heach, hothers⟩
    | @inside _ form' hform _ =>
      obtain ⟨rfl, rfl⟩ := List.cons.inj hwhole
      have hfirst' : reads slot [form'] part := h.reads_of_swapped (.inside hform []) hfirst
      exact ⟨form' :: arguments, others, rfl, .more hfirst' hrest, .inl rfl⟩

/-- A swap among arguments is a swap inside one of them. -/
theorem interpretsEach_of_swapped (h : IgnoresSwaps reads refuses) {slots : List Slot}
    {arguments forms : List Form} {parts : List Outline}
    (hslots : ∀ slot ∈ slots, slot.isArgument = true)
    (harguments : InterpretsEach reads slots arguments parts) (hswapped : Swapped arguments forms) :
    InterpretsEach reads slots forms parts := by
  rw [← List.append_nil arguments] at hswapped
  obtain ⟨arguments', others, rfl, heach, hothers⟩ := h.interpretsEach hslots harguments hswapped
  obtain rfl | hnone := hothers
  · rwa [List.append_nil]
  · cases hnone

theorem supplies (h : IgnoresSwaps reads refuses) {group : List Keyword} {name : String}
    {form form' : Form} {entry : String × Outline} (hswapped : form.Swapped form')
    (hpair : Supplies reads refuses group (name, form) entry) :
    Supplies reads refuses group (name, form') entry := by
  obtain ⟨hentry, earlier, keyword, later, hgroup, hname, hearlier, hkeyword⟩ := hpair
  have hforms : Swapped (keywordForms (name, form)) (keywordForms (name, form')) :=
    .next _ (.inside hswapped [])
  exact ⟨hentry, earlier, keyword, later, hgroup, hname,
    fun other hother ↦ h.refuses_of_swapped hforms (hearlier other hother),
    h.reads_of_swapped hforms hkeyword⟩

/-- A swap among keyword arguments supplies the same entries in another order. -/
theorem exists_supplied (h : IgnoresSwaps reads refuses) {group : List Keyword}
    {pairs : List (String × Form)} {supplied : List (String × Outline)} {forms : List Form}
    (hsupplied : List.Forall₂ (Supplies reads refuses group) pairs supplied)
    (hswapped : Swapped (pairs.flatMap keywordForms) forms) :
    ∃ pairs' supplied', forms = pairs'.flatMap keywordForms ∧
      List.Forall₂ (Supplies reads refuses group) pairs' supplied' ∧ supplied.Perm supplied' := by
  induction hsupplied generalizing forms with
  | nil => exact nomatch hswapped
  | @cons pair entry pairs supplied hpair hrest ih =>
    obtain ⟨name, form⟩ := pair
    -- the value of a keyword argument is no marker, so a swap begins at a marker
    have hform : ¬ form.IsMarker := by
      obtain ⟨-, -, own, -, -, -, -, hkeyword⟩ := hpair
      exact h.not_isMarker_of_value hkeyword
    generalize hwhole : ((name, form) :: pairs).flatMap keywordForms = whole at hswapped
    rw [List.flatMap_cons] at hwhole
    cases hswapped with
    | pairs first second later =>
      obtain ⟨hfirst, hlater⟩ := List.append_inj hwhole rfl
      obtain rfl := eq_of_keywordForms hfirst
      cases hrest with
      | nil => exact nomatch hlater
      | @cons other otherEntry pairs supplied hother hrest =>
        obtain ⟨hsecond, rfl⟩ := List.append_inj hlater rfl
        obtain rfl := eq_of_keywordForms hsecond
        exact ⟨other :: (name, form) :: pairs, otherEntry :: entry :: supplied, rfl,
          .cons hother (.cons hpair hrest), .swap _ _ _⟩
    | @next _ others forms hbehind =>
      obtain ⟨rfl, hothers⟩ := List.cons.inj hwhole
      cases hbehind with
      | pairs first second later =>
        obtain ⟨rfl, -⟩ := List.cons.inj hothers
        exact absurd ⟨first.1, rfl⟩ hform
      | next _ hlater =>
        obtain ⟨rfl, rfl⟩ := List.cons.inj hothers
        obtain ⟨pairs', supplied', rfl, hall, hperm⟩ := ih hlater
        exact ⟨(name, form) :: pairs', entry :: supplied', rfl, .cons hpair hall, hperm.cons entry⟩
      | @inside _ form' hinside =>
        obtain ⟨rfl, rfl⟩ := List.cons.inj hothers
        exact ⟨(name, form') :: pairs, entry :: supplied, rfl, .cons (h.supplies hinside hpair) hrest,
          .refl _⟩
    | inside hmarker later =>
      obtain ⟨rfl, -⟩ := List.cons.inj hwhole
      exact nomatch hmarker

/-- The order in which the entries are supplied does not matter to the group. -/
theorem interprets_keywords (h : IgnoresSwaps reads refuses) {group : List Keyword}
    {pairs : List (String × Form)} {supplied : List (String × Outline)} {forms : List Form}
    (hsupplied : List.Forall₂ (Supplies reads refuses group) pairs supplied)
    (hnames : (pairs.map Prod.fst).Nodup) (hswapped : Swapped (pairs.flatMap keywordForms) forms) :
    InterpretsParts reads refuses catalog (.keywords group) forms
      (.node (.keywords group) none (arrangeKeywords group supplied)) := by
  obtain ⟨pairs', supplied', rfl, hsupplied', hperm⟩ := h.exists_supplied hsupplied hswapped
  rw [← map_fst_of_supplies hsupplied] at hnames
  rw [arrangeKeywords_perm hperm hnames]
  refine .keywords hsupplied' ?_
  rw [← map_fst_of_supplies hsupplied']
  exact (hperm.map Prod.fst).nodup_iff.mp hnames

/-- If the parts of a slot ignore swaps, so does the slot. -/
theorem interpretsParts (h : IgnoresSwaps reads refuses) {slot : Slot} {forms forms' : List Form}
    {outline : Outline} (hswapped : Swapped forms forms')
    (hparts : InterpretsParts reads refuses catalog slot forms outline) :
    InterpretsParts reads refuses catalog slot forms' outline := by
  cases hparts with
  | root hpart => exact .root (h.reads_of_swapped hswapped hpart)
  | @call base operator operands part hoperator hpart =>
    obtain ⟨form', rfl, hgroup⟩ := hswapped.eq_singleton
    cases hgroup with
    | behind _ hoperands => exact .call hoperator (h.reads_of_swapped hoperands hpart)
    | head hname => cases hname
  | chosen hchoices hearlier hpart =>
    exact .chosen hchoices (fun other hother ↦ h.refuses_of_swapped hswapped (hearlier other hother))
      (h.reads_of_swapped hswapped hpart)
  | scalar hvalue =>
    obtain ⟨form', rfl, hgroup⟩ := hswapped.eq_singleton
    cases hgroup <;> cases hvalue
  | @list element members parts hmembers =>
    obtain ⟨form', rfl, hgroup⟩ := hswapped.eq_singleton
    obtain ⟨members', rfl, hmembers'⟩ := hgroup.exists_members
    have hslots : ∀ slot ∈ parts.map fun _ ↦ Slot.ofArgument element, slot.isArgument = true := by
      simp [Slot.isArgument_ofArgument]
    exact .list (h.interpretsEach_of_swapped hslots hmembers hmembers')
  | keywords hsupplied hnames => exact h.interprets_keywords hsupplied hnames hswapped
  | @operator chosen arguments others parts group harguments hgroup =>
    have hslots : ∀ slot ∈ chosen.parameters.map Slot.ofArgument, slot.isArgument = true := by
      simp [Slot.isArgument_ofArgument]
    obtain ⟨arguments', others', rfl, harguments', hothers⟩ :=
      h.interpretsEach hslots harguments hswapped
    refine .operator harguments' ?_
    rcases hothers with rfl | hothers
    · exact hgroup
    · cases hgroup with
      | none => cases hothers
      | some hsome hpart => exact .some hsome (h.reads_of_swapped hothers hpart)
  | @keyword own form value hvalue =>
    generalize hwhole : keywordForms (own.name, form) = whole at hswapped
    cases hswapped with
    | pairs first second later =>
      have hlength := congrArg List.length hwhole
      simp [keywordForms] at hlength
    | @next _ _ forms hbehind =>
      obtain ⟨rfl, rfl⟩ := List.cons.inj hwhole
      obtain ⟨form', rfl, hform⟩ := hbehind.eq_singleton
      exact .keyword (h.reads_of_swapped hbehind hvalue)
    | inside hmarker =>
      obtain ⟨rfl, -⟩ := List.cons.inj hwhole
      cases hmarker

end IgnoresSwaps

/-- Interpretation refuses the same forms if it interprets the same forms as the same outlines, and
markers are never arguments. -/
theorem ignoresSwaps_of_interprets {catalog : Catalog} {room : Nat}
    (h : ∀ {slot : Slot} {forms forms' : List Form} {outline : Outline}, Swapped forms forms' →
      Interprets catalog room (fun _ ↦ True) slot forms outline →
        Interprets catalog room (fun _ ↦ True) slot forms' outline) :
    IgnoresSwaps (Interprets catalog room fun _ ↦ True)
      fun part forms ↦ ∀ outline, ¬ Interprets catalog room (fun _ ↦ True) part forms outline where
  reads_of_swapped := h
  refuses_of_swapped hswapped hrefuses outline hinterprets :=
    hrefuses outline (h hswapped.symm hinterprets)
  not_isMarker_of_argument hslot hinterprets hmarker := hmarker.not_accepts hslot ⟨_, hinterprets⟩
  not_isMarker_of_value {own pair outline} hinterprets hmarker := by
    obtain ⟨inner, form, value, hforms, -, -, hvalue⟩ := exists_value_of_interprets hinterprets
    obtain rfl := eq_of_keywordForms hforms
    exact hmarker.not_accepts (Slot.isArgument_ofArgument own.type) ⟨value, hvalue⟩

/-- A slot interprets forms that differ by a swap as the same outline. -/
theorem Swapped.interprets {catalog : Catalog} {room : Nat} {slot : Slot} {forms forms' : List Form}
    {outline : Outline} (hswapped : Swapped forms forms')
    (h : Interprets catalog room (fun _ ↦ True) slot forms outline) :
    Interprets catalog room (fun _ ↦ True) slot forms' outline := by
  induction room generalizing slot forms forms' outline with
  | zero => exact h.elim
  | succ room ih => exact ⟨trivial, (ignoresSwaps_of_interprets ih).interpretsParts hswapped h.2⟩

end Formulary
