import Formulary.Outline.Edit
import Formulary.Proofs.Form.Written
/-!
Outlines that are written again. If an outline was read from some forms, it is also what its own forms
are read as, and those are covered by the forms that it was read from, so that whatever refused the
ones refuses the others (`restores`). This needs that no keyword argument was supplied with an empty
list, which is not written, and that no infinite number was read, which is not written as a number.
Main definitions: `Outline.HoldsInfinity`, `Outline.isEmptyKeyword` and `Restores`.
-/

set_option autoImplicit false
set_option relaxedAutoImplicit false

namespace Formulary

open Text Place

/-! ### What is not restored -/

namespace Outline

/-- Somewhere in an outline there is an infinite number that was read. -/
def HoldsInfinity (outline : Outline) : Prop :=
  ∃ path number, outline.subtree? path =
      some (.node (.typed (.scalar .number)) (some (.number number)) []) ∧
    number.isFinite = false

/-- A node holds an infinite number if it is one or if a part of it holds one. -/
theorem holdsInfinity_node_iff {slot : Slot} {content : Option Literal} {parts : List Outline} :
    (node slot content parts).HoldsInfinity ↔
      (slot = .typed (.scalar .number) ∧ parts = [] ∧
        ∃ number, content = some (.number number) ∧ number.isFinite = false) ∨
      ∃ part ∈ parts, part.HoldsInfinity := by
  constructor
  · rintro ⟨path, number, hnode, hinfinite⟩
    cases path with
    | nil =>
      obtain ⟨rfl, rfl, rfl⟩ := node.inj (Option.some.inj hnode)
      exact .inl ⟨rfl, rfl, number, rfl, hinfinite⟩
    | cons index path =>
      obtain ⟨part, hpart, hnode⟩ := Option.bind_eq_some_iff.mp hnode
      exact .inr ⟨part, List.mem_of_getElem? hpart, path, number, hnode, hinfinite⟩
  · rintro (⟨rfl, rfl, number, rfl, hinfinite⟩ | ⟨part, hpart, path, number, hnode, hinfinite⟩)
    · exact ⟨[], number, rfl, hinfinite⟩
    · obtain ⟨index, hindex⟩ := List.mem_iff_getElem?.mp hpart
      refine ⟨index :: path, number, ?_, hinfinite⟩
      exact Option.bind_eq_some_iff.mpr ⟨part, hindex, hnode⟩

theorem not_holdsInfinity_of_mem {slot : Slot} {content : Option Literal} {parts : List Outline}
    (h : ¬ (node slot content parts).HoldsInfinity) {part : Outline} (hpart : part ∈ parts) :
    ¬ part.HoldsInfinity :=
  fun hinfinite ↦ h (holdsInfinity_node_iff.mpr (.inr ⟨part, hpart, hinfinite⟩))

theorem isFinite_of_not_holdsInfinity {kind : Scalar} {value : Literal} (hscalar : value.scalar = kind)
    (hwritten : value ≠ .nan)
    (h : ¬ (node (.typed (.scalar kind)) (some value) []).HoldsInfinity) :
    value.isFinite = true := by
  subst hscalar
  cases value with
  | number number =>
    refine Bool.eq_true_of_not_eq_false fun hinfinite ↦ h ?_
    exact holdsInfinity_node_iff.mpr (.inl ⟨rfl, rfl, number, rfl, hinfinite⟩)
  | nan => exact absurd rfl hwritten
  | int | string | bool | timestamp => rfl

theorem forms_of_choices {slot : Slot} (h : slot.choices ≠ []) {part : Outline} :
    (node slot none [part]).forms = part.forms := by
  cases slot with
  | choice => rfl
  | typed type =>
    cases type with
    | union => rfl
    | scalar | series | list => exact absurd rfl h
  | root | call | keywords | operator | keyword => exact absurd rfl h

theorem flatMap_forms_eq {outlines : List Outline} {pairs : List (String × Form)}
    (h : List.Forall₂ (fun outline pair ↦ outline.forms = keywordForms pair) outlines pairs) :
    outlines.flatMap forms = pairs.flatMap keywordForms := by
  induction h with
  | nil => rfl
  | cons hfirst hrest ih => rw [List.flatMap_cons, List.flatMap_cons, hfirst, ih]

/-- Whether an outline is a keyword argument whose value is a list without elements. -/
def isEmptyKeyword : Outline → Bool
  | .node (.keyword _) _ [value] => value.isEmptyList
  | _ => false

/-- A keyword argument that was supplied is written again. -/
def IsWritten (outline : Outline) : Prop :=
  outline.isEmptyKeyword = false

end Outline

/-- What is interpreted as an argument is filled, unless it is a list without elements. -/
theorem isFilled_of_interprets {catalog : Catalog} {room : Nat} {keeps : Outline → Prop}
    {slot : Slot} {forms : List Form} {outline : Outline} (hslot : slot.isArgument = true)
    (h : Interprets catalog room keeps slot forms outline) :
    outline.isFilled = !outline.isEmptyList := by
  cases room with
  | zero => exact h.elim
  | succ room =>
    cases h.2 with
    | call | scalar => rfl
    | list => rename_i parts _; cases parts <;> rfl
    | chosen hchoices =>
      cases slot with
      | choice => rfl
      | typed type =>
        cases type with
        | union => rfl
        | scalar | series | list => exact absurd hchoices (Slot.choices_ne_append rfl)
      | root | call | keywords | operator | keyword =>
        exact absurd hchoices (Slot.choices_ne_append rfl)
    | root | keywords | operator | keyword => exact absurd hslot Bool.false_ne_true

/-- A keyword argument that was supplied is written again, unless its value is a list without
elements. -/
theorem isSupplied_of_interprets {catalog : Catalog} {room : Nat} {own : Keyword}
    {forms : List Form} {outline : Outline}
    (h : Interprets catalog room Outline.IsWritten (.keyword own) forms outline) :
    outline.isSupplied = true := by
  obtain ⟨inner, form, value, -, rfl, hwritten, hvalue⟩ := exists_value_of_interprets h
  have hsome : value.isEmptyList = false := hwritten
  show value.isFilled = true
  rw [isFilled_of_interprets (Slot.isArgument_ofArgument own.type) hvalue, hsome]
  rfl

/-! ### Restoring -/

section Restoring

variable {catalog : Catalog} {room : Nat}

/-- What is interpreted within some room is what its own forms are interpreted as, and these are
covered by the forms that it was interpreted from. -/
structure Restores (catalog : Catalog) (room : Nat) : Prop where
  argument : ∀ {slot : Slot} {form : Form} {outline : Outline}, slot.isArgument = true →
    ¬ outline.HoldsInfinity → Interprets catalog room Outline.IsWritten slot [form] outline →
      ∃ written, outline.forms = [written] ∧
        Interprets catalog room (fun _ ↦ True) slot [written] outline ∧
          Covers catalog form written
  keyword : ∀ {own : Keyword} {pair : String × Form} {outline : Outline},
    ¬ outline.HoldsInfinity →
      Interprets catalog room Outline.IsWritten (.keyword own) (keywordForms pair) outline →
        ∃ written, outline.forms = keywordForms (pair.1, written) ∧
          Interprets catalog room (fun _ ↦ True) (.keyword own) (keywordForms (pair.1, written))
            outline ∧ Covers catalog pair.2 written
  keywords : ∀ {group : List Keyword} {forms : List Form} {outline : Outline},
    ¬ outline.HoldsInfinity →
      Interprets catalog room Outline.IsWritten (.keywords group) forms outline →
        ∃ pairs written : List (String × Form), forms = pairs.flatMap keywordForms ∧
          outline.forms = written.flatMap keywordForms ∧
            Interprets catalog room (fun _ ↦ True) (.keywords group) (written.flatMap keywordForms)
              outline ∧ CoversOperands catalog [] [] pairs written
  operator : ∀ {chosen : Operator} {forms : List Form} {outline : Outline},
    ¬ outline.HoldsInfinity →
      Interprets catalog room Outline.IsWritten (.operator chosen) forms outline →
        ∃ written, outline.forms = [.group (.word chosen.name.toList :: written)] ∧
          Interprets catalog room (fun _ ↦ True) (.operator chosen) written outline ∧
            Covers catalog (.group (.word chosen.name.toList :: forms))
              (.group (.word chosen.name.toList :: written))

/-- Arguments are restored one by one. -/
theorem Restores.each (h : Restores catalog room) {types : List ArgType} {forms : List Form}
    {parts : List Outline} (hfinite : ∀ part ∈ parts, ¬ part.HoldsInfinity)
    (hparts : InterpretsEach (Interprets catalog room Outline.IsWritten) (types.map .ofArgument)
      forms parts) :
    InterpretsEach (Interprets catalog room fun _ ↦ True) (types.map .ofArgument)
        (Outline.formsOfAll parts) parts ∧
      List.Forall₂ (Covers catalog) forms (Outline.formsOfAll parts) ∧
        ∀ form ∈ Outline.formsOfAll parts, ¬ form.IsMarker := by
  induction types generalizing forms parts with
  | nil =>
    cases hparts
    exact ⟨.done, .nil, nofun⟩
  | cons type types ih =>
    cases hparts with
    | @more _ _ form forms part parts hfirst hrest =>
      rw [List.forall_mem_cons] at hfinite
      have hargument := Slot.isArgument_ofArgument type
      obtain ⟨written, hwritten, hrestored, hcovers⟩ := h.argument hargument hfinite.1 hfirst
      obtain ⟨heach, hall, hunmarked⟩ := ih hfinite.2 hrest
      rw [Outline.formsOfAll, hwritten]
      refine ⟨.more hrestored heach, .cons hcovers hall, List.forall_mem_cons.mpr ⟨?_, hunmarked⟩⟩
      exact fun hmarker ↦ hmarker.not_accepts hargument ⟨part, hrestored⟩

variable (hcatalog : ∀ base, ∀ operator ∈ catalog.operators base, operator.HasPlainNames)

theorem Restores.keyword_succ (h : Restores catalog room) {own : Keyword} {pair : String × Form}
    {outline : Outline} (hfinite : ¬ outline.HoldsInfinity)
    (hread : Interprets catalog (room + 1) Outline.IsWritten (.keyword own) (keywordForms pair)
      outline) :
    ∃ written, outline.forms = keywordForms (pair.1, written) ∧
      Interprets catalog (room + 1) (fun _ ↦ True) (.keyword own) (keywordForms (pair.1, written))
        outline ∧ Covers catalog pair.2 written := by
  obtain ⟨-, hparts⟩ := hread
  generalize hforms : keywordForms pair = forms at hparts
  cases hparts with
  | chosen hchoices => exact absurd hchoices (Slot.choices_ne_append rfl)
  | @keyword _ form value hvalue =>
    obtain rfl := eq_of_keywordForms hforms
    have hargument := Slot.isArgument_ofArgument own.type
    obtain ⟨written, hvalueForms, hrestored, hcovers⟩ := h.argument hargument
      (Outline.not_holdsInfinity_of_mem hfinite List.mem_cons_self) hvalue
    refine ⟨written, ?_, ⟨trivial, .keyword hrestored⟩, hcovers⟩
    show Form.word own.marker.toList :: value.forms = _
    rw [hvalueForms]
    rfl

/-- What is supplied as a keyword argument is supplied again with what is written for it. -/
theorem Restores.supplies (h : Restores catalog room) {group : List Keyword} {pair : String × Form}
    {entry : String × Outline} (hfinite : ¬ entry.2.HoldsInfinity)
    (hentry : Supplies (Interprets catalog room Outline.IsWritten)
      (fun part forms ↦ ∀ outline, ¬ Interprets catalog room (fun _ ↦ True) part forms outline)
      group pair entry) :
    ∃ written, entry.2.forms = keywordForms (pair.1, written) ∧ Covers catalog pair.2 written ∧
      Supplies (Interprets catalog room fun _ ↦ True)
        (fun part forms ↦ ∀ outline, ¬ Interprets catalog room (fun _ ↦ True) part forms outline)
        group (pair.1, written) entry := by
  obtain ⟨hname, earlier, keyword, later, hgroup, hkeyword, hearlier, hread⟩ := hentry
  obtain ⟨written, hwritten, hrestored, hcovers⟩ := h.keyword hfinite hread
  refine ⟨written, hwritten, hcovers, hname, earlier, keyword, later, hgroup, hkeyword, ?_, hrestored⟩
  intro other hother outline houtline
  have hcovers' : Covers catalog pair.2 (pair.1, written).2 := hcovers
  obtain ⟨outline', houtline'⟩ := hcovers'.accepts_keyword rfl ⟨outline, houtline⟩
  exact hearlier other hother outline' houtline'

theorem Restores.keywords_succ (h : Restores catalog room) {group : List Keyword}
    {forms : List Form} {outline : Outline} (hfinite : ¬ outline.HoldsInfinity)
    (hread : Interprets catalog (room + 1) Outline.IsWritten (.keywords group) forms outline) :
    ∃ pairs written : List (String × Form), forms = pairs.flatMap keywordForms ∧
      outline.forms = written.flatMap keywordForms ∧
        Interprets catalog (room + 1) (fun _ ↦ True) (.keywords group)
          (written.flatMap keywordForms) outline ∧ CoversOperands catalog [] [] pairs written := by
  cases hread.2 with
  | chosen hchoices => exact absurd hchoices (Slot.choices_ne_append rfl)
  | @keywords _ pairs supplied hsupplied hnames =>
    have hnames' : (supplied.map Prod.fst).Nodup := by rwa [map_fst_of_supplies hsupplied]
    have hsource (entry : String × Outline) (hentry : entry ∈ supplied) :=
      exists_mem_of_forall₂ hsupplied.flip hentry
    obtain ⟨ordered, hperm, hordered⟩ := @exists_perm_of_arrangeKeywords supplied group hnames'
      (fun entry hentry ↦ by
        obtain ⟨pair, -, hname, earlier, keyword, later, rfl, hkeyword, -⟩ := hsource entry hentry
        exact ⟨keyword, by simp, hkeyword.trans hname.symm⟩)
      (fun entry hentry ↦ by
        obtain ⟨pair, -, -, earlier, keyword, later, -, -, -, hread⟩ := hsource entry hentry
        exact isSupplied_of_interprets hread)
    have hentryFinite (entry : String × Outline) (hentry : entry ∈ supplied) :
        ¬ entry.2.HoldsInfinity := by
      refine Outline.not_holdsInfinity_of_mem hfinite ?_
      have hmem : entry.2 ∈ ordered.map Prod.snd := List.mem_map_of_mem (hperm.mem_iff.mpr hentry)
      rw [← hordered] at hmem
      exact (List.mem_filter.mp hmem).1
    have hrestored (entry : String × Outline) (hentry : entry ∈ ordered) :
        ∃ pair, entry.2.forms = keywordForms pair ∧
          Supplies (Interprets catalog room fun _ ↦ True)
            (fun part forms ↦ ∀ outline, ¬ Interprets catalog room (fun _ ↦ True) part forms outline)
            group pair entry := by
      have hentry' := hperm.mem_iff.mp hentry
      obtain ⟨pair, -, hsupplies⟩ := hsource entry hentry'
      obtain ⟨written, hwritten, -, hagain⟩ := h.supplies (hentryFinite entry hentry') hsupplies
      exact ⟨(pair.1, written), hwritten, hagain⟩
    obtain ⟨written, hwritten⟩ := exists_forall₂ hrestored
    have hagain : List.Forall₂ (Supplies (Interprets catalog room fun _ ↦ True)
        (fun part forms ↦ ∀ outline, ¬ Interprets catalog room (fun _ ↦ True) part forms outline)
        group) written ordered :=
      (hwritten.imp fun entry pair hpair ↦ hpair.2).flip
    have hforms : (ordered.map Prod.snd).flatMap Outline.forms = written.flatMap keywordForms :=
      Outline.flatMap_forms_eq
        (List.forall₂_map_left_iff.mpr (hwritten.imp fun entry pair hpair ↦ hpair.1))
    have hwrittenNames : (written.map Prod.fst).Nodup := by
      rw [← map_fst_of_supplies hagain]
      exact (hperm.map Prod.fst).nodup_iff.mpr hnames'
    refine ⟨pairs, written, rfl, ?_, ⟨trivial, ?_⟩, .nil, List.forall_mem_nil _, hnames,
      fun pair hpair ↦ ?_⟩
    · show Outline.formsOfSupplied (arrangeKeywords group supplied) = _
      rw [Outline.formsOfSupplied_eq, hordered, hforms]
    · rw [arrangeKeywords_perm hperm.symm hnames']
      exact .keywords hagain hwrittenNames
    · obtain ⟨entry, hentry, hsupplies⟩ := exists_mem_of_forall₂ hsupplied hpair
      obtain ⟨form, hform, hcovers, -⟩ := h.supplies (hentryFinite entry hentry) hsupplies
      obtain ⟨other, hother, hsame, -⟩ :=
        exists_mem_of_forall₂ hwritten (hperm.mem_iff.mpr hentry)
      obtain rfl := eq_of_keywordForms (hform.symm.trans hsame)
      exact ⟨_, hother, rfl, hcovers⟩

theorem Restores.operator_succ (h : Restores catalog room) {chosen : Operator} {forms : List Form}
    {outline : Outline} (hfinite : ¬ outline.HoldsInfinity)
    (hread : Interprets catalog (room + 1) Outline.IsWritten (.operator chosen) forms outline) :
    ∃ written, outline.forms = [.group (.word chosen.name.toList :: written)] ∧
      Interprets catalog (room + 1) (fun _ ↦ True) (.operator chosen) written outline ∧
        Covers catalog (.group (.word chosen.name.toList :: forms))
          (.group (.word chosen.name.toList :: written)) := by
  cases hread.2 with
  | chosen hchoices => exact absurd hchoices (Slot.choices_ne_append rfl)
  | @operator _ arguments others parts group harguments hgroup =>
    have hparts (part : Outline) (hpart : part ∈ parts ++ group) : ¬ part.HoldsInfinity :=
      Outline.not_holdsInfinity_of_mem hfinite hpart
    obtain ⟨heach, hcovers, hunmarked⟩ := h.each
      (fun part hpart ↦ hparts part (List.mem_append_left _ hpart)) harguments
    have hall : Outline.formsOfAll (parts ++ group) =
        Outline.formsOfAll parts ++ Outline.formsOfAll group := by
      simp only [Outline.formsOfAll_eq, List.flatMap_append]
    refine ⟨Outline.formsOfAll (parts ++ group), rfl, ?_⟩
    rw [hall]
    cases hgroup with
    | none hnone =>
      refine ⟨⟨trivial, .operator heach (.none hnone)⟩, ?_⟩
      exact covers_group (covers_refl _) (@CoversOperands.mk _ _ _ [] [] hcovers hunmarked
        List.nodup_nil (List.forall_mem_nil _))
    | @some _ part hsome hpart =>
      obtain ⟨pairs, written, rfl, hwritten, hrestored, hpairs⟩ := h.keywords
        (hparts part (List.mem_append_right _ List.mem_cons_self)) hpart
      have hgroupForms : Outline.formsOfAll [part] = written.flatMap keywordForms := by
        rw [Outline.formsOfAll, Outline.formsOfAll, List.append_nil, hwritten]
      rw [hgroupForms]
      refine ⟨⟨trivial, .operator heach (.some hsome hrestored)⟩, ?_⟩
      exact covers_group (covers_refl _) ⟨hcovers, hunmarked, hpairs.names, hpairs.pairs⟩

include hcatalog

theorem Restores.argument_succ (h : Restores catalog room) {slot : Slot} {form : Form}
    {outline : Outline} (hslot : slot.isArgument = true) (hfinite : ¬ outline.HoldsInfinity)
    (hread : Interprets catalog (room + 1) Outline.IsWritten slot [form] outline) :
    ∃ written, outline.forms = [written] ∧
      Interprets catalog (room + 1) (fun _ ↦ True) slot [written] outline ∧
        Covers catalog form written := by
  obtain ⟨-, hparts⟩ := hread
  generalize hforms : [form] = forms at hparts
  cases hparts with
  | @call base operator forms part hoperator hpart =>
    obtain ⟨rfl, -⟩ := List.cons.inj hforms
    obtain ⟨written, hwritten, hrestored, hcovers⟩ := h.operator
      (Outline.not_holdsInfinity_of_mem hfinite List.mem_cons_self) hpart
    exact ⟨_, hwritten, ⟨trivial, .call hoperator hrestored⟩, hcovers⟩
  | @chosen _ choice earlier later _ part hchoices hearlier hpart =>
    subst hforms
    have hmem : choice ∈ slot.choices := by simp [hchoices]
    have hchoice := (Slot.isArgument_of_mem_choices hmem).1
    obtain ⟨written, hwritten, hrestored, hcovers⟩ := h.argument hchoice
      (Outline.not_holdsInfinity_of_mem hfinite List.mem_cons_self) hpart
    refine ⟨written, ?_, ⟨trivial, .chosen hchoices ?_ hrestored⟩, hcovers⟩
    · rw [Outline.forms_of_choices (List.ne_nil_of_mem hmem), hwritten]
    · intro other hother read hread
      have hother' : other ∈ slot.choices := by simp [hchoices, hother]
      obtain ⟨read', hread'⟩ :=
        hcovers.accepts (Slot.isArgument_of_mem_choices hother').1 ⟨read, hread⟩
      exact hearlier other hother read' hread'
  | @scalar kind _ value hvalue =>
    obtain ⟨rfl, -⟩ := List.cons.inj hforms
    obtain ⟨hdenotes, hscalar⟩ := literal?_eq_some_iff.mp hvalue
    have hvalueFinite := Outline.isFinite_of_not_holdsInfinity hscalar hdenotes.ne_nan hfinite
    have hwritten := literal?_eq_some_iff.mpr ⟨hdenotes.form hvalueFinite, hscalar⟩
    exact ⟨value.form, rfl, ⟨trivial, .scalar hwritten⟩,
      covers_form hcatalog hdenotes hvalueFinite⟩
  | @list element members parts hparts =>
    obtain ⟨rfl, -⟩ := List.cons.inj hforms
    have helements := Slot.map_const_ofArgument element parts
    rw [helements] at hparts
    obtain ⟨heach, hcovers, hunmarked⟩ := h.each
      (fun part hpart ↦ Outline.not_holdsInfinity_of_mem hfinite hpart) hparts
    rw [← helements] at heach
    exact ⟨_, rfl, ⟨trivial, .list heach⟩, covers_list hcovers hunmarked⟩
  | root | keywords | operator | keyword => exact nomatch hslot

/-- Whatever is interpreted within any room is restored. -/
theorem restores (room : Nat) : Restores catalog room := by
  induction room with
  | zero =>
    exact ⟨fun _ _ h ↦ h.elim, fun _ h ↦ h.elim, fun _ h ↦ h.elim, fun _ h ↦ h.elim⟩
  | succ room ih =>
    exact ⟨ih.argument_succ hcatalog, ih.keyword_succ, ih.keywords_succ, ih.operator_succ⟩

end Restoring

end Formulary
