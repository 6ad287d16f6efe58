import Formulary.Proofs.Formula.Report
import Formulary.Proofs.Formula.Room
import Formulary.Proofs.Reading.Parallel
/-!
Two readings of slots side by side. Each kind of slot has a rule: two slots of the kind are read in
parallel if their parts are, and if outlines of such parts agree. The rules do not say which slots
are compared, nor in which catalogs. Operators are compared by the names that are read for them, and
alternatives where they stand in the same order. So two catalogs that differ in nothing but their
operators read every slot alike if they choose among these alike (`parallelSlots_fill_of_chosen`).
-/

set_option autoImplicit false
set_option relaxedAutoImplicit false

namespace Formulary

open Text Reading

variable {catalog catalog' : Catalog} {inner inner' : Slot → Reading Outline}
  {agree : Outline → Outline → Prop} {compare : List Complaint → List Complaint → Prop}

/-- Two slots are read in parallel from every place. -/
def ParallelSlots (agree : Outline → Outline → Prop)
    (compare : List Complaint → List Complaint → Prop) (inner inner' : Slot → Reading Outline)
    (slot slot' : Slot) : Prop :=
  ∀ place, Parallel agree compare (inner slot) (inner' slot') place

/-- Keyword arguments of the same names that agree one by one. -/
def AgreeSupplied (agree : Outline → Outline → Prop) :
    List (String × Outline) → List (String × Outline) → Prop :=
  List.Forall₂ fun entry entry' ↦ entry.1 = entry'.1 ∧ agree entry.2 entry'.2

theorem AgreeSupplied.any_eq {supplied supplied' : List (String × Outline)}
    (h : AgreeSupplied agree supplied supplied') (name : String) :
    supplied.any (fun earlier ↦ earlier.1 == name) =
      supplied'.any fun earlier ↦ earlier.1 == name := by
  induction h with
  | nil => rfl
  | cons hentry hentries ih => rw [List.any_cons, List.any_cons, hentry.1, ih]

/-- Whether there is a limit or not, two catalogs read two formulas with the same room. -/
theorem exists_room (operators operators' : List Operator) (limit : Option Nat)
    (text text' : List Char) :
    ∃ bound room,
      readFormula (.ofList operators) limit text =
        fill (.ofList operators) bound room (.root .series) (Place.start text).skipSeparators ∧
      readFormula (.ofList operators') limit text' =
        fill (.ofList operators') bound room (.root .series) (Place.start text').skipSeparators := by
  cases limit with
  | some limit => exact ⟨limit, limit, rfl, rfl⟩
  | none =>
    let room :=
      max (nestingBound (.ofList operators) text) (nestingBound (.ofList operators') text')
    exact ⟨room, room, (fill_eq_readFormula (Nat.le_max_left _ _)).symm,
      (fill_eq_readFormula (Nat.le_max_right _ _)).symm⟩

section Rules

variable (hcompare : IsComparison compare)

include hcompare

theorem parallel_readSupplied {group group' : List Keyword}
    (hgroup : List.Forall₂ (fun keyword keyword' ↦ keyword.name = keyword'.name ∧
      ParallelSlots agree compare inner inner' (.keyword keyword) (.keyword keyword')) group group')
    (bound : Nat) {supplied supplied' : List (String × Outline)}
    (hsupplied : AgreeSupplied agree supplied supplied') (place : Place) :
    Parallel (AgreeSupplied agree) compare (readSupplied inner group bound supplied)
      (readSupplied inner' group' bound supplied') place := by
  induction bound generalizing supplied supplied' place with
  | zero => exact parallel_pure hcompare hsupplied
  | succ bound ih =>
    have hround : Parallel (Option.Rel fun found found' ↦
        found.1.name = found'.1.name ∧ agree found.2 found'.2) compare
        (optionally (firstOf (group.map fun keyword ↦ do
          let outline ← inner (.keyword keyword)
          pure (keyword, outline))))
        (optionally (firstOf (group'.map fun keyword ↦ do
          let outline ← inner' (.keyword keyword)
          pure (keyword, outline)))) place := by
      refine parallel_optionally_firstOf hcompare ?_
      rw [List.forall₂_map_left_iff, List.forall₂_map_right_iff]
      refine hgroup.imp fun keyword keyword' hkeyword ↦ ?_
      refine (hkeyword.2 place).bind hcompare fun outline outline' middle houtline _ _ ↦ ?_
      exact parallel_pure hcompare ⟨hkeyword.1, houtline⟩
    refine hround.bind hcompare fun found found' middle hfound _ _ ↦ ?_
    cases hfound with
    | none => exact parallel_pure hcompare hsupplied
    | @some found found' hfound =>
      obtain ⟨keyword, outline⟩ := found
      obtain ⟨keyword', outline'⟩ := found'
      have hname : keyword.name = keyword'.name := hfound.1
      dsimp only
      rw [hsupplied.any_eq, Keyword.marker, Keyword.marker, hname]
      split
      · exact parallel_fail hcompare _
      · have hlast : AgreeSupplied agree [(keyword'.name, outline)] [(keyword'.name, outline')] :=
          .cons ⟨rfl, hfound.2⟩ .nil
        exact ih (List.rel_append hsupplied hlast) middle

theorem parallel_root {base : Base}
    (hpart : ParallelSlots agree compare inner inner' (.call base) (.call base))
    (hnode : ∀ part part', agree part part' →
      agree (.node (.root base) none [part]) (.node (.root base) none [part'])) :
    ParallelSlots agree compare (fillParts catalog inner) (fillParts catalog' inner') (.root base)
      (.root base) := by
  intro place
  refine (hpart place).bind hcompare fun part part' middle hagree _ _ ↦ ?_
  refine (parallel_refl hcompare accounts_atEnd fun _ ↦ rfl).bind hcompare
    fun _ _ after (_ : () = ()) _ _ ↦ ?_
  exact parallel_pure hcompare (hnode part part' hagree)

/-- Two uses of operators are read in parallel if the operators are chosen in parallel and then read
in parallel. -/
theorem parallel_call {base : Base} {alike : Operator → Operator → Prop}
    (hempty : (catalog.operators base).isEmpty = (catalog'.operators base).isEmpty)
    (hchosen : (catalog.operators base).isEmpty = false → ∀ place, Parallel alike compare
      (firstOf ((catalog.operators base).map named))
      (firstOf ((catalog'.operators base).map named)) place)
    (hpart : ∀ operator operator', alike operator operator' →
      ParallelSlots agree compare inner inner' (.operator operator) (.operator operator'))
    (hnode : ∀ part part', agree part part' →
      agree (.node (.call base) none [part]) (.node (.call base) none [part'])) :
    ParallelSlots agree compare (fillParts catalog inner) (fillParts catalog' inner') (.call base)
      (.call base) := by
  intro place
  refine (parallel_refl hcompare (accounts_symbol "(") fun _ ↦ rfl).bind hcompare
    fun _ _ opened (_ : () = ()) _ _ ↦ ?_
  simp only [← hempty]
  cases hnone : (catalog.operators base).isEmpty with
  | true => exact parallel_fail hcompare _
  | false =>
    refine (hchosen hnone opened).bind hcompare fun operator operator' named halike _ _ ↦ ?_
    refine (hpart operator operator' halike named).bind hcompare
      fun part part' closing hagree _ _ ↦ ?_
    refine (parallel_refl hcompare (accounts_symbol ")") fun _ ↦ rfl).bind hcompare
      fun _ _ after (_ : () = ()) _ _ ↦ ?_
    exact parallel_pure hcompare (hnode part part' hagree)

theorem parallel_choice {kind : Scalar}
    (hliteral : ParallelSlots agree compare inner inner' (.typed (.scalar kind))
      (.typed (.scalar kind)))
    (hcall : ParallelSlots agree compare inner inner' (.call (.scalar kind)) (.call (.scalar kind)))
    (hnode : ∀ part part', agree part part' →
      agree (.node (.choice kind) none [part]) (.node (.choice kind) none [part'])) :
    ParallelSlots agree compare (fillParts catalog inner) (fillParts catalog' inner') (.choice kind)
      (.choice kind) := by
  intro place
  have hparts := parallel_firstOf hcompare (List.cons_ne_nil _ _)
    (.cons (hliteral place) (.cons (hcall place) .nil))
  refine hparts.bind hcompare fun part part' after hagree _ _ ↦ ?_
  exact parallel_pure hcompare (hnode part part' hagree)

theorem parallel_scalar {kind : Scalar}
    (hnode : ∀ value, agree (.node (.typed (.scalar kind)) (some value) [])
      (.node (.typed (.scalar kind)) (some value) [])) :
    ParallelSlots agree compare (fillParts catalog inner) (fillParts catalog' inner')
      (.typed (.scalar kind)) (.typed (.scalar kind)) := by
  intro place
  refine (parallel_refl hcompare (accounts_literal kind) fun _ ↦ rfl).bind hcompare
    fun value value' after hsame _ _ ↦ ?_
  subst hsame
  exact parallel_pure hcompare (hnode value)

/-- Alternatives in the same order. -/
theorem parallel_union {alternatives alternatives' : List ArgType}
    (hparts : List.Forall₂ (fun type type' ↦
      ParallelSlots agree compare inner inner' (.ofArgument type) (.ofArgument type'))
      alternatives alternatives')
    (hnode : ∀ part part', agree part part' →
      agree (.node (.typed (.union alternatives)) none [part])
        (.node (.typed (.union alternatives')) none [part'])) :
    ParallelSlots agree compare (fillParts catalog inner) (fillParts catalog' inner')
      (.typed (.union alternatives)) (.typed (.union alternatives')) := by
  intro place
  cases hparts with
  | nil => exact parallel_fail hcompare _
  | cons hfirst hrest =>
    have hchosen := parallel_firstOf hcompare (List.cons_ne_nil _ _) (.cons (hfirst place)
      (List.forall₂_map_left_iff.mpr (List.forall₂_map_right_iff.mpr
        (hrest.imp fun type type' htype ↦ htype place))))
    refine hchosen.bind hcompare fun part part' after hagree _ _ ↦ ?_
    exact parallel_pure hcompare (hnode part part' hagree)

theorem parallel_list {element element' : ArgType}
    (hpart : ParallelSlots agree compare inner inner' (.ofArgument element) (.ofArgument element'))
    (hnode : ∀ parts parts', List.Forall₂ agree parts parts' →
      agree (.node (.typed (.list element)) none parts)
        (.node (.typed (.list element')) none parts')) :
    ParallelSlots agree compare (fillParts catalog inner) (fillParts catalog' inner')
      (.typed (.list element)) (.typed (.list element')) := by
  intro place
  refine (parallel_refl hcompare (accounts_symbol "(") fun _ ↦ rfl).bind hcompare
    fun _ _ opened (_ : () = ()) _ _ ↦ ?_
  refine (parallel_refl hcompare accounts_remaining fun _ ↦ rfl).bind hcompare
    fun bound bound' middle hbound _ _ ↦ ?_
  subst hbound
  refine (parallel_repeatedly hcompare hpart (bound + 1)).bind hcompare
    fun parts parts' closing hagree _ _ ↦ ?_
  refine (parallel_refl hcompare (accounts_symbol ")") fun _ ↦ rfl).bind hcompare
    fun _ _ after (_ : () = ()) _ _ ↦ ?_
  exact parallel_pure hcompare (hnode parts parts' hagree)

theorem parallel_keywords {group group' : List Keyword}
    (hgroup : List.Forall₂ (fun keyword keyword' ↦ keyword.name = keyword'.name ∧
      ParallelSlots agree compare inner inner' (.keyword keyword) (.keyword keyword')) group group')
    (hnode : ∀ supplied supplied', AgreeSupplied agree supplied supplied' →
      agree (.node (.keywords group) none (arrangeKeywords group supplied))
        (.node (.keywords group') none (arrangeKeywords group' supplied'))) :
    ParallelSlots agree compare (fillParts catalog inner) (fillParts catalog' inner')
      (.keywords group) (.keywords group') := by
  intro place
  refine (parallel_refl hcompare accounts_remaining fun _ ↦ rfl).bind hcompare
    fun bound bound' middle hbound _ _ ↦ ?_
  subst hbound
  refine (parallel_readSupplied hcompare hgroup (bound + 1) .nil middle).bind hcompare
    fun supplied supplied' after hagree _ _ ↦ ?_
  exact parallel_pure hcompare (hnode supplied supplied' hagree)

theorem parallel_operator {chosen chosen' : Operator}
    (hparts : List.Forall₂ (ParallelSlots agree compare inner inner') chosen.slots chosen'.slots)
    (hnode : ∀ parts parts', List.Forall₂ agree parts parts' →
      agree (.node (.operator chosen) none parts) (.node (.operator chosen') none parts')) :
    ParallelSlots agree compare (fillParts catalog inner) (fillParts catalog' inner')
      (.operator chosen) (.operator chosen') := by
  intro place
  refine (parallel_inOrder hcompare ?_).bind hcompare fun parts parts' after hagree _ _ ↦
    parallel_pure hcompare (hnode parts parts' hagree)
  rw [List.forall₂_map_left_iff, List.forall₂_map_right_iff]
  exact hparts

theorem parallel_keyword {own own' : Keyword} (hname : own.name = own'.name)
    (hvalue : ParallelSlots agree compare inner inner' (.ofArgument own.type)
      (.ofArgument own'.type))
    (hnode : ∀ value value', agree value value' →
      agree (.node (.keyword own) none [value]) (.node (.keyword own') none [value'])) :
    ParallelSlots agree compare (fillParts catalog inner) (fillParts catalog' inner')
      (.keyword own) (.keyword own') := by
  intro place
  simp only [fillParts, Keyword.marker, hname]
  refine (parallel_refl hcompare (accounts_word _) fun _ ↦ rfl).bind hcompare
    fun _ _ announced (_ : () = ()) _ _ ↦ ?_
  refine (hvalue announced).bind hcompare fun value value' after hagree _ _ ↦ ?_
  exact parallel_pure hcompare (hnode value value' hagree)

/-! ### Whole readings -/

theorem parallel_fill_zero (limit : Nat) (slot slot' : Slot) :
    ParallelSlots agree compare (fill catalog limit 0) (fill catalog' limit 0) slot slot' := by
  intro place
  exact (parallel_note hcompare rfl rfl rfl rfl).bind hcompare
    fun _ _ middle _ _ _ ↦ parallel_fail hcompare _

theorem parallel_fill_succ {limit room : Nat} {slot slot' : Slot}
    (h : ParallelSlots agree compare (fillParts catalog (fill catalog limit room))
      (fillParts catalog' (fill catalog' limit room)) slot slot') :
    ParallelSlots agree compare (fill catalog limit (room + 1)) (fill catalog' limit (room + 1))
      slot slot' := by
  intro place
  refine (parallel_note hcompare rfl rfl rfl rfl).bind hcompare fun _ _ middle _ _ _ ↦ ?_
  refine (h middle).nested.bind hcompare fun outline outline' after hagree _ _ ↦ ?_
  refine (parallel_note hcompare rfl rfl rfl rfl).bind hcompare fun _ _ last _ _ _ ↦ ?_
  exact parallel_pure hcompare hagree

end Rules

/-- If two catalogs choose the operators of every base alike, they read every slot alike. -/
theorem parallelSlots_fill_of_chosen (hcompare : IsComparison compare)
    (hempty : ∀ base, (catalog.operators base).isEmpty = (catalog'.operators base).isEmpty)
    (hchosen : ∀ base, (catalog.operators base).isEmpty = false → ∀ place, Parallel Eq compare
      (firstOf ((catalog.operators base).map named))
      (firstOf ((catalog'.operators base).map named)) place)
    (limit room : Nat) (slot : Slot) :
    ParallelSlots Eq compare (fill catalog limit room) (fill catalog' limit room) slot slot := by
  have hnode {slot : Slot} {part part' : Outline} (hpart : part = part') :
      Outline.node slot none [part] = .node slot none [part'] := by rw [hpart]
  have hnodes {slot : Slot} {parts parts' : List Outline} (hparts : List.Forall₂ Eq parts parts') :
      Outline.node slot none parts = .node slot none parts' := by
    rw [List.forall₂_eq_eq_eq] at hparts
    rw [hparts]
  induction room generalizing slot with
  | zero => exact parallel_fill_zero hcompare limit slot slot
  | succ room ih =>
    refine parallel_fill_succ hcompare ?_
    cases slot with
    | root base => exact parallel_root hcompare (ih _) fun _ _ ↦ hnode
    | call base =>
      refine parallel_call hcompare (hempty base) (hchosen base) ?_ fun _ _ ↦ hnode
      rintro operator _ rfl
      exact ih _
    | choice kind => exact parallel_choice hcompare (ih _) (ih _) fun _ _ ↦ hnode
    | typed type =>
      cases type with
      | scalar kind => exact parallel_scalar hcompare fun _ ↦ rfl
      | series => exact fun place ↦ parallel_fail hcompare _
      | union alternatives =>
        exact parallel_union hcompare (List.forall₂_same.mpr fun type _ ↦ ih _) fun _ _ ↦ hnode
      | list element => exact parallel_list hcompare (ih _) fun _ _ ↦ hnodes
    | keywords group =>
      refine parallel_keywords hcompare (List.forall₂_same.mpr fun own _ ↦ ⟨rfl, ih _⟩)
        fun supplied supplied' hsupplied ↦ ?_
      have hsame : List.Forall₂ Eq supplied supplied' :=
        hsupplied.imp fun _ _ hentry ↦ Prod.ext hentry.1 hentry.2
      rw [List.forall₂_eq_eq_eq] at hsame
      rw [hsame]
    | operator chosen =>
      exact parallel_operator hcompare (List.forall₂_same.mpr fun slot _ ↦ ih slot)
        fun _ _ ↦ hnodes
    | keyword own => exact parallel_keyword hcompare rfl (ih _) fun _ _ ↦ hnode

/-- Formulas that are read in parallel whatever the room are accepted both or refused both, and then
for complaints that compare at one position. -/
theorem parseFormula_of_parallelSlots {operators operators' : List Operator}
    (h : ∀ limit room, ParallelSlots agree compare (fill (.ofList operators) limit room)
      (fill (.ofList operators') limit room) (.root .series) (.root .series))
    (limit : Option Nat) (source : String) :
    (∃ outline outline', parseFormula (.ofList operators) limit source = .ok outline ∧
      parseFormula (.ofList operators') limit source = .ok outline' ∧ agree outline outline') ∨
    ∃ position complaints complaints', complaints ≠ [] ∧ complaints' ≠ [] ∧
      compare complaints complaints' ∧
      parseFormula (.ofList operators) limit source =
        .error (complaints.map fun complaint ↦ ⟨position, complaint⟩) ∧
      parseFormula (.ofList operators') limit source =
        .error (complaints'.map fun complaint ↦ ⟨position, complaint⟩) := by
  obtain ⟨bound, room, hroom, hroom'⟩ := exists_room operators operators' limit source.toList
    source.toList
  have hparallel := h bound room (Place.start source.toList).skipSeparators
  obtain ⟨hnone, hnone'⟩ | ⟨outline, outline', after, hsome, hsome', hagree⟩ := hparallel.cases
  · have hreach := hparallel.reach
    have hcomplaints := hparallel.complaints
    rw [Outcome.reach_of_none hnone, Outcome.reach_of_none hnone', ← hroom, ← hroom'] at hreach
    rw [Outcome.reach_of_none hnone, ← hroom, ← hroom'] at hcomplaints
    rw [← hroom] at hnone
    rw [← hroom'] at hnone'
    refine .inr ⟨_, _, _, complaintsAt_frontier_ne_nil (failures_readFormula_ne_nil hnone),
      complaintsAt_frontier_ne_nil (failures_readFormula_ne_nil hnone'), ?_,
      parseFormula_eq_error_iff.mpr ⟨hnone, diagnostics_eq _ _⟩,
      parseFormula_eq_error_iff.mpr ⟨hnone', ?_⟩⟩
    · rw [← hreach]
      exact hcomplaints _ (Nat.le_refl _)
    · rw [diagnostics_eq, hreach]
  · rw [← hroom] at hsome
    rw [← hroom'] at hsome'
    exact .inl ⟨outline, outline', parseFormula_eq_ok_iff.mpr ⟨after, hsome⟩,
      parseFormula_eq_ok_iff.mpr ⟨after, hsome'⟩, hagree⟩

end Formulary
