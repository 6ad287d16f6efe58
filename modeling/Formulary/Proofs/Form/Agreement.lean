import Formulary.Proofs.Form.Interpretation
/-!
Reading and interpretation agree. As long as the names in a catalog are made of the characters of
words, what is read for a slot is what the slot interprets the forms as that the reading moves past,
and what it interprets some forms as is read wherever a text goes on with them (`agrees`). Main
definitions: `Operator.HasWordNames`, and `Agrees`, the agreement within some room.
-/

set_option autoImplicit false
set_option relaxedAutoImplicit false

namespace Formulary

open Text Place Reading

/-! ### Names -/

/-- A name is made of the characters of words. -/
def IsWordName (name : String) : Prop :=
  name.toList ≠ [] ∧ ∀ character ∈ name.toList, isWordCharacter character = true

-- the characters are those of the name, not all there are
instance (name : String) : Decidable (IsWordName name) :=
  @instDecidableAnd _ _ _ (List.decidableBAll _ _)

/-- The names of an operator and of its keyword arguments are made of the characters of words. -/
def Operator.HasWordNames (operator : Operator) : Prop :=
  IsWordName operator.name ∧ ∀ keyword ∈ operator.keywords, IsWordName keyword.name

instance (operator : Operator) : Decidable operator.HasWordNames :=
  inferInstanceAs (Decidable (_ ∧ _))

/-- The names in a slot are made of the characters of words. -/
def Slot.HasWordNames : Slot → Prop
  | .operator chosen => chosen.HasWordNames
  | .keywords group => ∀ keyword ∈ group, IsWordName keyword.name
  | .keyword own => IsWordName own.name
  | .root _ | .call _ | .choice _ | .typed _ => True

theorem Slot.hasWordNames_of_isArgument {slot : Slot} (h : slot.isArgument = true) :
    slot.HasWordNames := by
  cases slot <;> trivial

theorem Slot.hasWordNames_of_mem_slots {chosen : Operator} (h : chosen.HasWordNames) {slot : Slot}
    (hslot : slot ∈ chosen.slots) : slot.HasWordNames := by
  rcases List.mem_append.mp hslot with hparameter | hgroup
  · obtain ⟨type, -, rfl⟩ := List.mem_map.mp hparameter
    exact hasWordNames_of_isArgument (isArgument_ofArgument type)
  · split at hgroup
    · exact absurd hgroup List.not_mem_nil
    · obtain rfl := List.mem_singleton.mp hgroup
      exact h.2

/-- Markers are words. -/
theorem IsWordName.marker {name : String} (h : IsWordName name) :
    ("#:" ++ name).toList ≠ [] ∧
      ∀ character ∈ ("#:" ++ name).toList, isWordCharacter character = true := by
  rw [toList_marker, List.forall_mem_cons, List.forall_mem_cons]
  exact ⟨List.cons_ne_nil _ _, by decide, by decide, h.2⟩

/-! ### Agreement with reading -/

/-- A text that is at its end, or goes on with a closing parenthesis. -/
def EndsGroup (rest : List Char) : Prop :=
  rest = [] ∨ ∃ text, rest = ')' :: text

/-- What a slot leaves when it ends where the formula or the group around it ends, even if the group is
not closed. -/
def Slot.Fits (slot : Slot) (rest : List Char) : Prop :=
  match slot with
  | .root _ => rest = []
  | .keywords _ | .operator _ => EndsGroup rest
  | .call _ | .choice _ | .typed _ | .keyword _ => True

/-- The outlines that an event may fill a slot with. -/
def Event.keeps (keeps : Outline → Prop) : Event → Prop
  | .filled outline _ => keeps outline
  | .entered _ _ | .backtracked _ | .failed _ => True

theorem Slot.fits_of_isArgument {slot : Slot} (h : slot.isArgument = true) (rest : List Char) :
    slot.Fits rest := by
  cases slot <;> trivial

section Agreement

variable {catalog : Catalog} {limit room : Nat}

/-- Reading and interpretation agree within some room. -/
structure Agrees (catalog : Catalog) (limit room : Nat) : Prop where
  interprets : ∀ (keeps : Outline → Prop) {slot : Slot} {place after : Place} {outline : Outline},
    slot.HasWordNames →
      Finds (Event.keeps keeps) (fun _ ↦ True) (fill catalog limit room slot) place outline after →
        ∃ forms, Sequence place.rest forms after.rest ∧
          Interprets catalog room keeps slot forms outline
  fills : ∀ {slot : Slot} {place : Place} {forms : List Form} {rest : List Char} {outline : Outline},
    slot.HasWordNames → slot.Fits rest → Sequence place.rest forms rest →
      Interprets catalog room (fun _ ↦ True) slot forms outline →
        ∃ after, (fill catalog limit room slot place).result = some (outline, after) ∧
          after.rest = rest

variable (hcatalog : ∀ base, ∀ operator ∈ catalog.operators base, operator.HasWordNames)

/-- Whatever is read for a slot is interpreted. -/
theorem Agrees.interprets_of_fill (h : Agrees catalog limit room) {slot : Slot}
    {place after : Place} {outline : Outline} (hnames : slot.HasWordNames)
    (hread : (fill catalog limit room slot place).result = some (outline, after)) :
    ∃ forms, Sequence place.rest forms after.rest ∧
      Interprets catalog room (fun _ ↦ True) slot forms outline :=
  h.interprets (fun _ ↦ True) hnames
    ⟨hread, fun event _ ↦ by cases event <;> trivial, fun _ _ ↦ trivial⟩

/-- An alternative fails exactly if it does not interpret the forms. -/
theorem Agrees.refuses_iff (h : Agrees catalog limit room) {slot : Slot} {place : Place}
    {forms : List Form} {rest : List Char} (hnames : slot.HasWordNames)
    (htext : slot.takesText = true) (hfits : slot.Fits rest) (hcount : forms.length = slot.formCount)
    (hforms : Sequence place.rest forms rest) :
    (fill catalog limit room slot place).result = none ↔
      ∀ outline, ¬ Interprets catalog room (fun _ ↦ True) slot forms outline := by
  constructor
  · intro hnone outline hinterprets
    obtain ⟨after, hread, -⟩ := h.fills hnames hfits hforms hinterprets
    rw [hnone] at hread
    exact nomatch hread
  · intro hrefuses
    refine Option.eq_none_iff_forall_not_mem.mpr fun read hread ↦ ?_
    obtain ⟨forms', hforms', hinterprets⟩ := h.interprets_of_fill hnames hread
    have hlength := length_of_interprets htext hinterprets
    obtain ⟨rfl, -⟩ := hforms.unique hforms' (hcount.trans hlength.symm)
    exact hrefuses _ hinterprets

theorem Agrees.refuses_iff_of_argument (h : Agrees catalog limit room) {slot : Slot}
    {place : Place} {form : Form} {rest : List Char} (hslot : slot.isArgument = true)
    (hform : Sequence place.rest [form] rest) :
    (fill catalog limit room slot place).result = none ↔
      ∀ outline, ¬ Interprets catalog room (fun _ ↦ True) slot [form] outline :=
  h.refuses_iff (Slot.hasWordNames_of_isArgument hslot) (Slot.takesText_of_isArgument hslot)
    (Slot.fits_of_isArgument hslot rest) (Slot.formCount_of_isArgument hslot).symm hform

/-- Arguments that are read one after the other are forms that are interpreted one by one. -/
theorem Agrees.interpretsEach (h : Agrees catalog limit room) {keeps : Outline → Prop}
    {types : List ArgType} {place after : Place} {parts : List Outline}
    (hparts : ReadsInOrder (fun part ↦ Finds (Event.keeps keeps) (fun _ ↦ True)
      (fill catalog limit room part)) (types.map .ofArgument) place parts after) :
    ∃ forms, Sequence place.rest forms after.rest ∧
      InterpretsEach (Interprets catalog room keeps) (types.map .ofArgument) forms parts := by
  induction types generalizing place parts with
  | nil =>
    cases hparts
    exact ⟨[], .done _, .done⟩
  | cons type types ih =>
    cases hparts with
    | more hfirst hrest =>
      obtain ⟨first, hfirstForms, hfirst⟩ :=
        h.interprets keeps (Slot.hasWordNames_of_isArgument (Slot.isArgument_ofArgument type)) hfirst
      obtain ⟨forms, hforms, heach⟩ := ih hrest
      obtain ⟨form, rfl⟩ := exists_form_of_interprets (Slot.isArgument_ofArgument type) hfirst
      exact ⟨form :: forms, hfirstForms.append hforms, .more hfirst heach⟩

theorem Agrees.readsInOrder (h : Agrees catalog limit room) {types : List ArgType} {place : Place}
    {forms : List Form} {rest : List Char} {parts : List Outline}
    (hforms : Sequence place.rest forms rest)
    (hparts : InterpretsEach (Interprets catalog room fun _ ↦ True) (types.map .ofArgument) forms
      parts) :
    ∃ after, ReadsInOrder (fun part place outline after ↦
        (fill catalog limit room part place).result = some (outline, after))
      (types.map .ofArgument) place parts after ∧ after.rest = rest := by
  induction types generalizing place forms parts with
  | nil =>
    cases hparts
    exact ⟨place, .done place, hforms.eq_of_nil⟩
  | cons type types ih =>
    cases hparts with
    | more hfirst hrest =>
      obtain ⟨text, hform, hforms⟩ := sequence_cons_iff.mp hforms
      have hargument := Slot.isArgument_ofArgument type
      obtain ⟨middle, hread, rfl⟩ := h.fills (Slot.hasWordNames_of_isArgument hargument)
        (Slot.fits_of_isArgument hargument text) hform hfirst
      obtain ⟨after, hreads, hafter⟩ := ih hforms hrest
      exact ⟨after, .more hread hreads, hafter⟩

/-- Keyword arguments that are supplied one after the other are pairs of forms. -/
theorem Agrees.supplies (h : Agrees catalog limit room) {keeps : Outline → Prop}
    {group : List Keyword} (hgroup : ∀ keyword ∈ group, (Slot.keyword keyword).HasWordNames)
    {place after : Place} {supplied : List (String × Outline)}
    (hsupplied : ReadsSupplied
      (fun part ↦ Finds (Event.keeps keeps) (fun _ ↦ True) (fill catalog limit room part))
      (fun part ↦ Passes (fun _ ↦ True) (fill catalog limit room part)) group place supplied after) :
    ∃ pairs : List (String × Form), Sequence place.rest (pairs.flatMap keywordForms) after.rest ∧
      List.Forall₂ (Supplies (Interprets catalog room keeps)
        (fun part forms ↦ ∀ outline, ¬ Interprets catalog room (fun _ ↦ True) part forms outline)
        group) pairs supplied := by
  induction hsupplied with
  | done place => exact ⟨[], .done _, .nil⟩
  | @more earlier later keyword place middle after outline supplied hsplit hearlier hread hrest ih =>
    obtain ⟨pairs, hpairs, hall⟩ := ih
    have hmember : keyword ∈ group := by simp [hsplit]
    obtain ⟨forms, hforms, hinterprets⟩ := h.interprets keeps (hgroup keyword hmember) hread
    obtain ⟨-, form, -, rfl, -⟩ := exists_value_of_interprets hinterprets
    refine ⟨(keyword.name, form) :: pairs, hforms.append hpairs, .cons ⟨rfl, earlier, keyword, later,
      hsplit, rfl, fun other hother ↦ ?_, hinterprets⟩ hall⟩
    have hother' : other ∈ group := by simp [hsplit, hother]
    exact (h.refuses_iff (hgroup other hother') rfl trivial rfl hforms).mp (hearlier other hother).result

theorem Agrees.readsSupplied (h : Agrees catalog limit room) {group : List Keyword}
    (hgroup : ∀ keyword ∈ group, (Slot.keyword keyword).HasWordNames) {place : Place} {rest : List Char}
    {pairs : List (String × Form)} {supplied : List (String × Outline)}
    (hforms : Sequence place.rest (pairs.flatMap keywordForms) rest)
    (hsupplied : List.Forall₂ (Supplies (Interprets catalog room fun _ ↦ True)
      (fun part forms ↦ ∀ outline, ¬ Interprets catalog room (fun _ ↦ True) part forms outline)
      group) pairs supplied) :
    ∃ after, ReadsSupplied (fun part place outline after ↦
        (fill catalog limit room part place).result = some (outline, after))
      (fun part place ↦ (fill catalog limit room part place).result = none) group place supplied
        after ∧ after.rest = rest := by
  induction hsupplied generalizing place with
  | nil => exact ⟨place, .done place, hforms.eq_of_nil⟩
  | @cons pair entry pairs supplied hpair hall ih =>
    obtain ⟨name, outline⟩ := entry
    obtain ⟨rfl, earlier, keyword, later, hsplit, hname, hearlier, hinterprets⟩ := hpair
    obtain ⟨text, hpairForms, hforms⟩ := sequence_append_iff.mp hforms
    have hmember : keyword ∈ group := by simp [hsplit]
    obtain ⟨middle, hread, rfl⟩ := h.fills (hgroup keyword hmember) trivial hpairForms hinterprets
    obtain ⟨after, hreads, hafter⟩ := ih hforms
    refine ⟨after, ?_, hafter⟩
    rw [← hname]
    refine .more hsplit (fun other hother ↦ ?_) hread hreads
    have hother' : other ∈ group := by simp [hsplit, hother]
    exact (h.refuses_iff (hgroup other hother') rfl trivial rfl hpairForms).mpr (hearlier other hother)

/-- A group begins at a parenthesis and ends at the one that closes it. -/
theorem exists_eat?_of_group {place : Place} {members : List Form} {rest : List Char}
    (h : Sequence place.rest [.group members] rest) :
    ∃ opened text, place.eat? ['('] = some opened ∧
      Sequence opened.skipSeparators.rest members (')' :: text) ∧
        ∀ closing : Place, closing.rest = ')' :: text →
          ∃ closed, closing.eat? [')'] = some closed ∧ closed.skipSeparators.rest = rest := by
  generalize htext : place.rest = text at h
  cases h with
  | @group inside text _ _ _ hmembers hrest =>
    have hrest' : place.rest = ['('] ++ inside := htext
    obtain ⟨opened, hopened, rfl⟩ := exists_eat?_of_rest hrest'
    refine ⟨opened, text, hopened, hmembers, fun closing hclosing ↦ ?_⟩
    have hclosing' : closing.rest = [')'] ++ text := hclosing
    obtain ⟨closed, hclosed, rfl⟩ := exists_eat?_of_rest hclosing'
    exact ⟨closed, hclosed, hrest.eq_of_nil⟩

/-- Where a group ends, nothing that takes up text is read. -/
theorem result_fill_eq_none_of_endsGroup {slot : Slot} {closing : Place}
    (hslot : slot.takesText = true) (hclosing : EndsGroup closing.rest) :
    (fill catalog limit room slot closing).result = none := by
  refine Option.eq_none_iff_forall_not_mem.mpr fun read hread ↦ ?_
  obtain hend | hclose := hclosing
  · have hshorter := ((moves_of_fill hread).advances hslot).length_lt
    rw [hend] at hshorter
    exact absurd hshorter (Nat.not_lt_zero _)
  · exact not_closes_of_fill hslot hread hclose

theorem Agrees.fills_list (h : Agrees catalog limit room) {element : ArgType} {place : Place}
    {members : List Form} {rest : List Char} {parts : List Outline}
    (hforms : Sequence place.rest [.group members] rest)
    (hparts : InterpretsEach (Interprets catalog room fun _ ↦ True)
      (parts.map fun _ ↦ .ofArgument element) members parts) :
    ∃ after, (fill catalog limit (room + 1) (.typed (.list element)) place).result =
      some (.node (.typed (.list element)) none parts, after) ∧ after.rest = rest := by
  have helements := Slot.map_const_ofArgument element parts
  rw [helements] at hparts
  obtain ⟨opened, text, hopened, hmembers, hcloses⟩ := exists_eat?_of_group hforms
  obtain ⟨closing, hreads, hclosing⟩ := h.readsInOrder hmembers hparts
  obtain ⟨closed, hclosed, hrest⟩ := hcloses closing hclosing
  rw [← helements] at hreads
  have hstops : (fill catalog limit room (.ofArgument element) closing).result = none :=
    result_fill_eq_none_of_endsGroup (Slot.takesText_ofArgument element) (.inr ⟨text, hclosing⟩)
  exact ⟨_, result_fill_succ_iff.mpr (.list hopened hreads hstops hclosed), hrest⟩

theorem Agrees.fills_operator (h : Agrees catalog limit room) {chosen : Operator} {place : Place}
    {arguments others : List Form} {rest : List Char} {parts group : List Outline}
    (hnames : chosen.HasWordNames) (hrest : (Slot.operator chosen).Fits rest)
    (hforms : Sequence place.rest (arguments ++ others) rest)
    (harguments : InterpretsEach (Interprets catalog room fun _ ↦ True)
      (chosen.parameters.map .ofArgument) arguments parts)
    (hgroup : InterpretsGroup (Interprets catalog room fun _ ↦ True) chosen.keywords others group) :
    ∃ after, (fill catalog limit (room + 1) (.operator chosen) place).result =
      some (.node (.operator chosen) none (parts ++ group), after) ∧ after.rest = rest := by
  obtain ⟨text, harguments', hothers⟩ := sequence_append_iff.mp hforms
  obtain ⟨middle, hreads, rfl⟩ := h.readsInOrder harguments' harguments
  cases hgroup with
  | none hnone =>
    refine ⟨middle, result_fill_succ_iff.mpr (.operator ?_), hothers.eq_of_nil⟩
    simpa [Operator.slots, hnone] using hreads
  | @some _ part hsome hpart =>
    have hwords : (Slot.keywords chosen.keywords).HasWordNames := hnames.2
    have hclosing : (Slot.keywords chosen.keywords).Fits rest := hrest
    obtain ⟨after, hread, hafter⟩ := h.fills hwords hclosing hothers hpart
    refine ⟨after, result_fill_succ_iff.mpr (.operator ?_), hafter⟩
    rw [Operator.slots, if_neg (by simpa using hsome), readsInOrder_append_iff]
    exact ⟨parts, [part], middle, rfl, hreads, .more hread (.done after)⟩

include hcatalog

/-- Whatever is read with more room is interpreted with more room. -/
theorem Agrees.interprets_succ (h : Agrees catalog limit room) (keeps : Outline → Prop) {slot : Slot}
    {place after : Place} {outline : Outline} (hnames : slot.HasWordNames)
    (hread : Finds (Event.keeps keeps) (fun _ ↦ True) (fill catalog limit (room + 1) slot) place
      outline after) :
    ∃ forms, Sequence place.rest forms after.rest ∧
      Interprets catalog (room + 1) keeps slot forms outline := by
  obtain ⟨-, hkeeps, hparts⟩ := (finds_fill_succ_iff fun _ _ ↦ trivial).mp hread
  suffices hforms : ∃ forms, Sequence place.rest forms after.rest ∧
      InterpretsParts (Interprets catalog room keeps)
        (fun part forms ↦ ∀ outline, ¬ Interprets catalog room (fun _ ↦ True) part forms outline)
        catalog slot forms outline by
    obtain ⟨forms, hforms, hinterprets⟩ := hforms
    exact ⟨forms, hforms, hkeeps, hinterprets⟩
  cases hparts with
  | @root base _ _ _ hpart hend =>
    have hbase : (Slot.call base).HasWordNames := trivial
    obtain ⟨forms, hforms, hpart⟩ := h.interprets keeps hbase hpart
    exact ⟨forms, hforms, .root hpart⟩
  | @call base operator earlier later _ opened named closing closed part hopened hoperators hearlier
      hnamed hpart hclosed =>
    have hoperator : (Slot.operator operator).HasWordNames :=
      hcatalog base operator (by simp [hoperators])
    obtain ⟨forms, hforms, hpart⟩ := h.interprets keeps hoperator hpart
    have hname := sequence_of_word? hoperator.1.1 hoperator.1.2 hnamed
    rw [(eat?_eq_some hclosed).1] at hforms
    refine ⟨_, ?_, .call (find?_of_word? hoperators hearlier hnamed) hpart⟩
    rw [(eat?_eq_some hopened).1]
    exact .group (hname.append hforms) (.done _)
  | @chosen _ choice earlier later _ _ part hchoices hearlier hpart =>
    have hargument (part : Slot) (hpart : part ∈ slot.choices) : part.isArgument = true :=
      (Slot.isArgument_of_mem_choices hpart).1
    have hchoice := hargument choice (by simp [hchoices])
    obtain ⟨forms, hforms, hpart⟩ :=
      h.interprets keeps (Slot.hasWordNames_of_isArgument hchoice) hpart
    obtain ⟨form, rfl⟩ := exists_form_of_interprets hchoice hpart
    refine ⟨[form], hforms, .chosen hchoices (fun other hother ↦ ?_) hpart⟩
    exact (h.refuses_iff_of_argument (hargument other (by simp [hchoices, hother])) hforms).mp
      (hearlier other hother).result
  | scalar hvalue =>
    obtain ⟨form, hform, hvalue⟩ := sequence_of_readLiteral hvalue
    exact ⟨[form], hform, .scalar hvalue⟩
  | @list element _ opened closing closed parts hopened hparts hstops hclosed =>
    have helements := Slot.map_const_ofArgument element parts
    rw [helements] at hparts
    obtain ⟨forms, hforms, heach⟩ := h.interpretsEach hparts
    rw [(eat?_eq_some hclosed).1] at hforms
    refine ⟨[.group forms], ?_, .list (by rwa [helements])⟩
    rw [(eat?_eq_some hopened).1]
    exact .group hforms (.done _)
  | keywords hsupplied hdistinct hstops =>
    obtain ⟨pairs, hpairs, hall⟩ := h.supplies hnames hsupplied
    exact ⟨_, hpairs, .keywords hall (by rwa [← map_fst_of_supplies hall])⟩
  | @operator chosen _ _ parts hparts =>
    rw [Operator.slots, readsInOrder_append_iff] at hparts
    obtain ⟨arguments, group, middle, rfl, harguments, hgroup⟩ := hparts
    obtain ⟨forms, hforms, heach⟩ := h.interpretsEach harguments
    by_cases hnone : chosen.keywords = []
    · rw [hnone] at hgroup
      cases hgroup
      exact ⟨forms ++ [], hforms.append (.done _), .operator heach (.none hnone)⟩
    · rw [if_neg (by simpa using hnone)] at hgroup
      cases hgroup with
      | more hgroup hdone =>
        cases hdone
        have hwords : (Slot.keywords chosen.keywords).HasWordNames := hnames.2
        obtain ⟨others, hothers, hgroup⟩ := h.interprets keeps hwords hgroup
        exact ⟨forms ++ others, hforms.append hothers, .operator heach (.some hnone hgroup)⟩
  | @keyword own _ announced _ value hmarker hvalue =>
    have hargument := Slot.isArgument_ofArgument own.type
    obtain ⟨forms, hforms, hinterprets⟩ :=
      h.interprets keeps (Slot.hasWordNames_of_isArgument hargument) hvalue
    obtain ⟨form, rfl⟩ := exists_form_of_interprets hargument hinterprets
    have hword := IsWordName.marker hnames
    exact ⟨_, (sequence_of_word? hword.1 hword.2 hmarker).append hforms, .keyword hinterprets⟩

/-- The operator that is found by its name is the one whose name is read, and its operands are read up
to the end of the group. -/
theorem Agrees.reads_operator (h : Agrees catalog limit room) {base : Base} {operator : Operator}
    {place : Place} {forms : List Form} {rest : List Char} {part : Outline}
    (hforms : Sequence place.rest (.word operator.name.toList :: forms) rest)
    (hrest : EndsGroup rest)
    (hoperator : (catalog.operators base).find? (fun other ↦ other.name = operator.name) =
      some operator)
    (hpart : Interprets catalog room (fun _ ↦ True) (.operator operator) forms part) :
    ∃ earlier later named closing, catalog.operators base = earlier ++ operator :: later ∧
      (∀ other ∈ earlier, place.word? other.name.toList = none) ∧
      place.word? operator.name.toList = some named ∧
      (fill catalog limit room (.operator operator) named.skipSeparators).result =
        some (part, closing) ∧ closing.rest = rest := by
  obtain ⟨middle, hname, hoperands⟩ := sequence_cons_iff.mp hforms
  obtain ⟨named, hnamed, rfl⟩ := word?_of_sequence hname
  obtain ⟨earlier, later, hoperators, hearlier⟩ := (List.find?_eq_some_iff_append.mp hoperator).2
  have hwords : (Slot.operator operator).HasWordNames :=
    hcatalog base operator (by simp [hoperators])
  have hfits : (Slot.operator operator).Fits rest := hrest
  have hoperands' : Sequence named.skipSeparators.rest forms rest := hoperands
  obtain ⟨closing, hread, hclosing⟩ := h.fills hwords hfits hoperands' hpart
  refine ⟨earlier, later, named, closing, hoperators, fun other hother ↦ ?_, hnamed, hread, hclosing⟩
  have hother' := (hcatalog base other (by simp [hoperators, hother])).1
  refine Option.eq_none_iff_forall_not_mem.mpr fun found hfound ↦ ?_
  have hword := sequence_of_word? hother'.1 hother'.2 hfound
  obtain ⟨hsame, -⟩ := hword.unique hname rfl
  have hnames : other.name = operator.name := by simpa [String.toList_inj] using hsame
  simpa [hnames] using hearlier other hother

theorem Agrees.fills_call (h : Agrees catalog limit room) {base : Base} {operator : Operator}
    {place : Place} {forms : List Form} {rest : List Char} {part : Outline}
    (hforms : Sequence place.rest [.group (.word operator.name.toList :: forms)] rest)
    (hoperator : (catalog.operators base).find? (fun other ↦ other.name = operator.name) =
      some operator)
    (hpart : Interprets catalog room (fun _ ↦ True) (.operator operator) forms part) :
    ∃ after, (fill catalog limit (room + 1) (.call base) place).result =
      some (.node (.call base) none [part], after) ∧ after.rest = rest := by
  obtain ⟨opened, text, hopened, hmembers, hcloses⟩ := exists_eat?_of_group hforms
  obtain ⟨earlier, later, named, closing, hoperators, hothers, hnamed, hread, hclosing⟩ :=
    h.reads_operator hcatalog hmembers (.inr ⟨text, rfl⟩) hoperator hpart
  obtain ⟨closed, hclosed, hrest⟩ := hcloses closing hclosing
  exact ⟨_, result_fill_succ_iff.mpr (.call hopened hoperators hothers hnamed hread hclosed), hrest⟩

/-- Whatever is interpreted with more room is read with more room. -/
theorem Agrees.fills_succ (h : Agrees catalog limit room) {slot : Slot} {place : Place}
    {forms : List Form} {rest : List Char} {outline : Outline} (hnames : slot.HasWordNames)
    (hfits : slot.Fits rest) (hforms : Sequence place.rest forms rest)
    (hinterprets : Interprets catalog (room + 1) (fun _ ↦ True) slot forms outline) :
    ∃ after, (fill catalog limit (room + 1) slot place).result = some (outline, after) ∧
      after.rest = rest := by
  cases hinterprets.2 with
  | @root base _ _ hpart =>
    have hbase : (Slot.call base).HasWordNames := trivial
    obtain ⟨after, hread, hafter⟩ := h.fills hbase trivial hforms hpart
    exact ⟨after, result_fill_succ_iff.mpr (.root hread (hafter.trans hfits)), hafter⟩
  | call hoperator hpart => exact h.fills_call hcatalog hforms hoperator hpart
  | @chosen _ choice earlier later _ part hchoices hearlier hpart =>
    have hargument (part : Slot) (hpart : part ∈ slot.choices) : part.isArgument = true :=
      (Slot.isArgument_of_mem_choices hpart).1
    have hchoice := hargument choice (by simp [hchoices])
    obtain ⟨form, rfl⟩ := exists_form_of_interprets hchoice hpart
    obtain ⟨after, hread, hafter⟩ := h.fills (Slot.hasWordNames_of_isArgument hchoice)
      (Slot.fits_of_isArgument hchoice rest) hforms hpart
    refine ⟨after, result_fill_succ_iff.mpr (.chosen hchoices (fun other hother ↦ ?_) hread), hafter⟩
    exact (h.refuses_iff_of_argument (hargument other (by simp [hchoices, hother])) hforms).mpr
      (hearlier other hother)
  | scalar hvalue =>
    obtain ⟨after, hread, hafter⟩ := readLiteral_of_sequence hforms hvalue
    exact ⟨after.skipSeparators, result_fill_succ_iff.mpr (.scalar hread), hafter⟩
  | list hparts => exact h.fills_list hforms hparts
  | keywords hsupplied hdistinct =>
    obtain ⟨after, hreads, hafter⟩ := h.readsSupplied hnames hforms hsupplied
    refine ⟨after, result_fill_succ_iff.mpr (.keywords hreads
      (by rwa [map_fst_of_supplies hsupplied]) fun keyword hkeyword ↦ ?_), hafter⟩
    exact result_fill_eq_none_of_endsGroup rfl (hafter ▸ hfits)
  | operator harguments hgroup => exact h.fills_operator hnames hfits hforms harguments hgroup
  | @keyword own form value hvalue =>
    have hargument := Slot.isArgument_ofArgument own.type
    obtain ⟨middle, hmarker, hform⟩ := sequence_cons_iff.mp hforms
    obtain ⟨announced, hannounced, rfl⟩ := word?_of_sequence hmarker
    have hvalueForm : Sequence announced.skipSeparators.rest [form] rest := hform
    obtain ⟨after, hread, hafter⟩ := h.fills (Slot.hasWordNames_of_isArgument hargument)
      (Slot.fits_of_isArgument hargument rest) hvalueForm hvalue
    exact ⟨after, result_fill_succ_iff.mpr (.keyword hannounced hread), hafter⟩

/-- Reading and interpretation agree within any room. -/
theorem agrees (limit room : Nat) : Agrees catalog limit room := by
  induction room with
  | zero => exact ⟨fun _ _ _ _ _ _ hread ↦ (nomatch hread.result), fun _ _ _ h ↦ h.elim⟩
  | succ room ih => exact ⟨fun keeps ↦ ih.interprets_succ hcatalog keeps, ih.fills_succ hcatalog⟩

end Agreement

end Formulary
