import Formulary.Proofs.Form.Acceptance
/-!
Covering: one form covers another if every argument that accepts the other accepts it too. When a
formula is written again, each of its forms covers the form that is written for it, so that whatever
refused the one refuses the other as well. Main definitions: `Covers` and `CoversOperands`, which
lets keyword arguments change their order. Main statements: `covers_of_literals` and `covers_group`.
-/

set_option autoImplicit false
set_option relaxedAutoImplicit false

namespace Formulary

open Text Place

variable {catalog : Catalog}

/-- A form is accepted as an argument wherever another one is, and is the same form if the other one
may open a group as the name of an operator. -/
structure Covers (catalog : Catalog) (source written : Form) : Prop where
  accepts : ∀ {room : Nat} {slot : Slot}, slot.isArgument = true →
    Accepts catalog room slot [written] → Accepts catalog room slot [source]
  name : ∀ {base : Base}, ∀ operator ∈ catalog.operators base,
    written = .word operator.name.toList → source = written

theorem covers_refl (form : Form) : Covers catalog form form :=
  ⟨fun _ h ↦ h, fun _ _ _ ↦ rfl⟩

/-- What holds of an argument because it accepts a form follows from the literals that the form
denotes, and from the uses of operators and the lists that it is. -/
theorem Accepts.argument {form : Form} {motive : Nat → Slot → Prop}
    (hliteral : ∀ room kind, (form.literal? kind).isSome = true →
      motive (room + 1) (.typed (.scalar kind)))
    (hcall : ∀ room base, Accepts catalog (room + 1) (.call base) [form] →
      motive (room + 1) (.call base))
    (hlist : ∀ room element, Accepts catalog (room + 1) (.typed (.list element)) [form] →
      motive (room + 1) (.typed (.list element)))
    (hchosen : ∀ room slot choice, choice ∈ slot.choices → motive room choice →
      motive (room + 1) slot)
    {room : Nat} {slot : Slot} (hslot : slot.isArgument = true)
    (h : Accepts catalog room slot [form]) : motive room slot := by
  induction room generalizing slot with
  | zero =>
    obtain ⟨outline, hnone⟩ := h
    exact hnone.elim
  | succ room ih =>
    by_cases hchoices : slot.choices = []
    · cases slot with
      | call base => exact hcall room base h
      | choice kind => exact absurd hchoices (List.cons_ne_nil _ _)
      | typed type =>
        cases type with
        | scalar kind => exact hliteral room kind (accepts_scalar_iff.mp h)
        | series => exact absurd h not_accepts_series
        | list element => exact hlist room element h
        | union alternatives =>
          obtain ⟨outline, hparts⟩ := accepts_succ_iff.mp h
          cases hparts with
          | chosen hsplit => exact absurd hsplit (Slot.choices_ne_append hchoices)
      | root | keywords | operator | keyword => exact nomatch hslot
    · obtain ⟨choice, hchoice, haccepts⟩ := (accepts_of_choices_iff hchoices).mp h
      have hargument := (Slot.isArgument_of_mem_choices hchoice).1
      exact hchosen room slot choice hchoice (ih hargument haccepts)

/-- A form covers another if the uses of operators and the lists do that the other one is, and if it
denotes a literal of every kind that the other one denotes a literal of. -/
theorem covers_of_leaves {source written : Form}
    (hliteral : ∀ kind, (written.literal? kind).isSome = true →
      (source.literal? kind).isSome = true)
    (hcall : ∀ room base, Accepts catalog (room + 1) (.call base) [written] →
      Accepts catalog (room + 1) (.call base) [source])
    (hlist : ∀ room element, Accepts catalog (room + 1) (.typed (.list element)) [written] →
      Accepts catalog (room + 1) (.typed (.list element)) [source])
    (hname : ∀ {base : Base}, ∀ operator ∈ catalog.operators base,
      written = .word operator.name.toList → source = written) : Covers catalog source written := by
  refine ⟨fun hslot haccepts ↦ ?_, hname⟩
  refine haccepts.argument (motive := fun room slot ↦ Accepts catalog room slot [source]) ?_
    hcall hlist ?_ hslot
  · intro room kind hvalue
    exact accepts_scalar_iff.mpr (hliteral kind hvalue)
  · intro room slot choice hchoice hsource
    exact (accepts_of_choices_iff (List.ne_nil_of_mem hchoice)).mpr ⟨choice, hchoice, hsource⟩

/-! ### Literals -/

theorem not_accepts_of_not_group {form : Form} (hgroup : ∀ members, form ≠ .group members)
    {room : Nat} :
    (∀ base, ¬ Accepts catalog (room + 1) (.call base) [form]) ∧
      ∀ element, ¬ Accepts catalog (room + 1) (.typed (.list element)) [form] := by
  refine ⟨fun base h ↦ ?_, fun element h ↦ ?_⟩
  · obtain ⟨operator, operands, hform, -⟩ := accepts_call_iff.mp h
    exact hgroup _ hform
  · obtain ⟨members, hform, -⟩ := accepts_list_iff.mp h
    exact hgroup _ hform

/-- A word or a string is covered by whatever denotes a literal of the same kinds. -/
theorem covers_of_literals {source written : Form} (hgroup : ∀ members, written ≠ .group members)
    (hliteral : ∀ kind, (written.literal? kind).isSome = true →
      (source.literal? kind).isSome = true)
    (hname : ∀ {base : Base}, ∀ operator ∈ catalog.operators base,
      written ≠ .word operator.name.toList) : Covers catalog source written := by
  have hnot {room : Nat} := @not_accepts_of_not_group catalog written hgroup room
  refine covers_of_leaves hliteral ?_ ?_ ?_
  · exact fun room base h ↦ absurd h (hnot.1 base)
  · exact fun room element h ↦ absurd h (hnot.2 element)
  · exact fun operator hoperator hsame ↦ absurd hsame (hname operator hoperator)

/-! ### Markers -/

namespace Form

/-- A word that announces a keyword argument. -/
def IsMarker (form : Form) : Prop :=
  ∃ name : String, form = .word ("#:" ++ name).toList

theorem IsMarker.literal?_eq_none {form : Form} (h : form.IsMarker) (kind : Scalar) :
    form.literal? kind = none := by
  obtain ⟨name, rfl⟩ := h
  rw [toList_marker]
  have hnumeral : numeral? ('#' :: ':' :: name.toList) = none := rfl
  cases kind <;> simp [literal?, hnumeral]

end Form

/-- A marker is not an argument. -/
theorem Form.IsMarker.not_accepts {form : Form} (hform : form.IsMarker) {room : Nat} {slot : Slot}
    (hslot : slot.isArgument = true) : ¬ Accepts catalog room slot [form] := by
  have hgroup : ∀ members, form ≠ .group members := by
    obtain ⟨name, rfl⟩ := hform
    exact nofun
  have hnot {room : Nat} := @not_accepts_of_not_group catalog form hgroup room
  intro h
  refine h.argument (motive := fun _ _ ↦ False) ?_ ?_ ?_ ?_ hslot
  · intro room kind hvalue
    rw [hform.literal?_eq_none] at hvalue
    exact nomatch hvalue
  · exact fun room base ↦ hnot.1 base
  · exact fun room element ↦ hnot.2 element
  · exact fun room slot choice hchoice hnone ↦ hnone

/-- Keyword arguments begin with a marker. -/
theorem isMarker_of_flatMap {pairs : List (String × Form)} {form : Form} {forms : List Form}
    (h : pairs.flatMap keywordForms = form :: forms) : form.IsMarker := by
  cases pairs with
  | nil => exact nomatch h
  | cons pair pairs =>
    obtain ⟨rfl, -⟩ := List.cons.inj h
    exact ⟨pair.1, rfl⟩

theorem flatMap_keywordForms_inj {pairs others : List (String × Form)}
    (h : pairs.flatMap keywordForms = others.flatMap keywordForms) : pairs = others := by
  induction pairs generalizing others with
  | nil =>
    cases others with
    | nil => rfl
    | cons other others => exact nomatch h
  | cons pair pairs ih =>
    cases others with
    | nil => exact nomatch h
    | cons other others =>
      rw [List.flatMap_cons, List.flatMap_cons] at h
      obtain ⟨hfirst, hrest⟩ := List.append_inj h rfl
      rw [eq_of_keywordForms hfirst, ih hrest]

/-! ### Groups -/

/-- A keyword argument covers another one of the same name if its value does. -/
theorem Covers.accepts_keyword {pair other : String × Form} (h : Covers catalog pair.2 other.2)
    (hname : other.1 = pair.1) {room : Nat} {own : Keyword}
    (haccepts : Accepts catalog room (.keyword own) (keywordForms other)) :
    Accepts catalog room (.keyword own) (keywordForms pair) := by
  cases room with
  | zero => exact haccepts.elim fun _ hnone ↦ hnone.elim
  | succ room =>
    obtain ⟨hsame, hvalue⟩ := accepts_keyword_iff.mp haccepts
    exact accepts_keyword_iff.mpr ⟨hsame.trans hname,
      h.accepts (Slot.isArgument_ofArgument own.type) hvalue⟩

theorem exists_pairs_of_accepts {room : Nat} {group : List Keyword} {forms : List Form}
    (h : Accepts catalog room (.keywords group) forms) :
    ∃ pairs : List (String × Form), forms = pairs.flatMap keywordForms := by
  cases room with
  | zero => exact h.elim fun _ hnone ↦ hnone.elim
  | succ room =>
    obtain ⟨pairs, hforms, -⟩ := accepts_keywords_iff.mp h
    exact ⟨pairs, hforms⟩

theorem accepts_of_covers {room : Nat} {types : List ArgType} {forms written : List Form}
    (hcovers : List.Forall₂ (Covers catalog) forms written)
    (h : List.Forall₂ (fun slot form ↦ Accepts catalog room slot [form])
      (types.map .ofArgument) written) :
    List.Forall₂ (fun slot form ↦ Accepts catalog room slot [form])
      (types.map .ofArgument) forms := by
  induction hcovers generalizing types with
  | nil => exact h
  | cons hfirst hrest ih =>
    cases types with
    | nil => exact nomatch h
    | cons type types =>
      obtain ⟨haccepts, hall⟩ := List.forall₂_cons.mp h
      exact .cons (hfirst.accepts (Slot.isArgument_ofArgument type) haccepts) (ih hall)

/-- Operands cover others if their arguments do one by one and each of their keyword arguments covers
one of the same name. -/
structure CoversOperands (catalog : Catalog) (arguments written : List Form)
    (pairs writtenPairs : List (String × Form)) : Prop where
  arguments : List.Forall₂ (Covers catalog) arguments written
  unmarked : ∀ form ∈ written, ¬ form.IsMarker
  names : (pairs.map Prod.fst).Nodup
  pairs : ∀ pair ∈ pairs, ∃ other ∈ writtenPairs, other.1 = pair.1 ∧ Covers catalog pair.2 other.2

namespace CoversOperands

variable {arguments written : List Form} {pairs writtenPairs : List (String × Form)}

theorem eq_nil (h : CoversOperands catalog arguments written pairs writtenPairs)
    (hnone : writtenPairs = []) : pairs = [] := by
  refine List.eq_nil_iff_forall_not_mem.mpr fun pair hpair ↦ ?_
  obtain ⟨other, hother, -⟩ := h.pairs pair hpair
  rw [hnone] at hother
  exact absurd hother List.not_mem_nil

theorem accepts_keywords (h : CoversOperands catalog arguments written pairs writtenPairs)
    {room : Nat} {group : List Keyword}
    (haccepts : Accepts catalog room (.keywords group) (writtenPairs.flatMap keywordForms)) :
    Accepts catalog room (.keywords group) (pairs.flatMap keywordForms) := by
  cases room with
  | zero => exact haccepts.elim fun _ hnone ↦ hnone.elim
  | succ room =>
    obtain ⟨others, hforms, -, hothers⟩ := accepts_keywords_iff.mp haccepts
    obtain rfl := flatMap_keywordForms_inj hforms
    refine accepts_keywords_iff.mpr ⟨pairs, rfl, h.names, fun pair hpair ↦ ?_⟩
    obtain ⟨other, hother, hsame, hcovers⟩ := h.pairs pair hpair
    obtain ⟨keyword, hkeyword, hname, hvalue⟩ := hothers other hother
    exact ⟨keyword, hkeyword, hname.trans hsame, hcovers.accepts_keyword hsame hvalue⟩

/-- The arguments of an operator end where the first marker stands. -/
theorem split (h : CoversOperands catalog arguments written pairs writtenPairs) {room : Nat}
    {chosen : Operator} {accepted others : List Form}
    (hforms : written ++ writtenPairs.flatMap keywordForms = accepted ++ others)
    (haccepted : List.Forall₂ (fun slot form ↦ Accepts catalog room slot [form])
      (chosen.parameters.map .ofArgument) accepted)
    (hothers : chosen.keywords = [] ∧ others = [] ∨
      chosen.keywords ≠ [] ∧ Accepts catalog room (.keywords chosen.keywords) others) :
    written = accepted ∧ writtenPairs.flatMap keywordForms = others := by
  rcases List.append_eq_append_iff.mp hforms with ⟨more, rfl, hmore⟩ | ⟨more, rfl, hmore⟩
  · cases more with
    | nil => exact ⟨(List.append_nil _).symm, hmore⟩
    | cons form more =>
      have hmarker := isMarker_of_flatMap hmore
      obtain ⟨slot, hslot, haccepts⟩ := exists_mem_of_forall₂ haccepted.flip
        (List.mem_append_right written (List.mem_cons_self (a := form) (l := more)))
      obtain ⟨type, -, rfl⟩ := List.mem_map.mp hslot
      exact absurd haccepts (hmarker.not_accepts (Slot.isArgument_ofArgument type))
  · cases more with
    | nil => exact ⟨List.append_nil _, hmore.symm⟩
    | cons form more =>
      exfalso
      rcases hothers with ⟨-, rfl⟩ | ⟨-, haccepts⟩
      · exact nomatch hmore
      · obtain ⟨pairs, rfl⟩ := exists_pairs_of_accepts haccepts
        exact h.unmarked form (List.mem_append_right _ List.mem_cons_self)
          (isMarker_of_flatMap hmore)

/-- What an operator accepts as its operands, it accepts as operands that cover them. -/
theorem accepts_operator (h : CoversOperands catalog arguments written pairs writtenPairs)
    {room : Nat} {chosen : Operator}
    (haccepts : Accepts catalog room (.operator chosen)
      (written ++ writtenPairs.flatMap keywordForms)) :
    Accepts catalog room (.operator chosen) (arguments ++ pairs.flatMap keywordForms) := by
  cases room with
  | zero => exact haccepts.elim fun _ hnone ↦ hnone.elim
  | succ room =>
    obtain ⟨accepted, others, hforms, harguments, hothers⟩ := accepts_operator_iff.mp haccepts
    obtain ⟨rfl, rfl⟩ : written = accepted ∧ writtenPairs.flatMap keywordForms = others :=
      h.split hforms harguments hothers
    refine accepts_operator_iff.mpr ⟨arguments, _, rfl, ?_, ?_⟩
    · exact accepts_of_covers h.arguments harguments
    · refine hothers.imp (fun hnone ↦ ⟨hnone.1, ?_⟩) fun hsome ↦
        ⟨hsome.1, h.accepts_keywords hsome.2⟩
      have hpairs : writtenPairs = [] := flatMap_keywordForms_inj hnone.2
      rw [h.eq_nil hpairs]
      rfl

end CoversOperands

/-- A group covers another one if its first form does and the others do as operands. -/
theorem covers_group {head writtenHead : Form} {arguments written : List Form}
    {pairs writtenPairs : List (String × Form)} (hhead : Covers catalog head writtenHead)
    (h : CoversOperands catalog arguments written pairs writtenPairs) :
    Covers catalog (.group (head :: (arguments ++ pairs.flatMap keywordForms)))
      (.group (writtenHead :: (written ++ writtenPairs.flatMap keywordForms))) := by
  refine covers_of_leaves (fun kind hvalue ↦ nomatch hvalue) ?_ ?_ fun _ _ hsame ↦ nomatch hsame
  · intro room base haccepts
    obtain ⟨operator, operands, hgroup, hoperator, hoperands⟩ := accepts_call_iff.mp haccepts
    obtain ⟨rfl, rfl⟩ := List.cons.inj (Form.group.inj hgroup)
    obtain rfl := hhead.name operator (List.mem_of_find?_eq_some hoperator) rfl
    exact accepts_call_iff.mpr ⟨operator, _, rfl, hoperator, h.accepts_operator hoperands⟩
  · intro room element haccepts
    obtain ⟨members, hgroup, hmembers⟩ := accepts_list_iff.mp haccepts
    obtain rfl := Form.group.inj hgroup
    have helement := Slot.isArgument_ofArgument element
    rw [List.forall_mem_cons, List.forall_mem_append] at hmembers
    obtain ⟨hfirst, hwritten, hothers⟩ := hmembers
    have hnone : writtenPairs = [] := by
      cases writtenPairs with
      | nil => rfl
      | cons pair others =>
        have hmarker : (Form.word ("#:" ++ pair.1).toList).IsMarker := ⟨pair.1, rfl⟩
        exact absurd (hothers _ List.mem_cons_self) (hmarker.not_accepts helement)
    refine accepts_list_iff.mpr ⟨_, rfl, ?_⟩
    rw [h.eq_nil hnone, List.flatMap_nil, List.append_nil, List.forall_mem_cons]
    refine ⟨hhead.accepts helement hfirst, fun form hform ↦ ?_⟩
    obtain ⟨other, hother, hcovers⟩ := exists_mem_of_forall₂ h.arguments hform
    exact hcovers.accepts helement (hwritten other hother)

/-- A list covers another one if its elements do one by one. -/
theorem covers_list {members written : List Form} (h : List.Forall₂ (Covers catalog) members written)
    (hunmarked : ∀ form ∈ written, ¬ form.IsMarker) :
    Covers catalog (.group members) (.group written) := by
  cases h with
  | nil => exact covers_refl _
  | @cons head writtenHead members written hhead hrest =>
    have hoperands : CoversOperands catalog members written [] [] :=
      ⟨hrest, (List.forall_mem_cons.mp hunmarked).2, List.nodup_nil, nofun⟩
    have hgroup := covers_group hhead hoperands
    rwa [List.flatMap_nil, List.append_nil, List.append_nil] at hgroup

end Formulary
