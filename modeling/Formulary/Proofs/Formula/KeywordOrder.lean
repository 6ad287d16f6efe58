import Formulary.Proofs.Form.Agreement
import Formulary.Proofs.Form.Standing
import Formulary.Proofs.Formula.Room
/-!
The order in which keyword arguments are written. Where the names in a catalog are made of the
characters of words, every slot that is entered in the reading of a formula, in whatever alternative,
stands among the members of some group, and a keyword argument stands behind another member
(`keepsToMembers_fill`). So if two keyword arguments that follow each other in the text change places,
the form of the text differs by a swap, and the formula is read as the same outline
(`parseFormula_of_swapped`). Main definitions: `ComesTo`, `ComesBehind`, `KeepsToMembers` and
`SuppliesBetween`.
-/

set_option autoImplicit false
set_option relaxedAutoImplicit false

namespace Formulary

open Text Place Reading

/-! ### Slots stand among members -/

/-- The reading of a text has come to a place among the members of a group. -/
def ComesTo (text : List Char) (all : List Form) (place : Place) : Prop :=
  Leads (Place.start text) place ∧
    ∃ earlier later rest, Stands (dropSeparators text) all place.rest earlier later rest

/-- The reading of a text has come to a place among the members of a group, and not to the first. -/
def ComesBehind (text : List Char) (all : List Form) (place : Place) : Prop :=
  Leads (Place.start text) place ∧ ∃ earlier later rest,
    Stands (dropSeparators text) all place.rest earlier later rest ∧ earlier ≠ []

/-- Keyword arguments with the names of words are looked for behind the first member of a group. -/
def Event.StandsBehind (text : List Char) (all : List Form) : Event → Prop
  | .entered (.keyword own) offset =>
    IsWordName own.name ∧ ∃ place, place.offset = offset ∧ ComesBehind text all place
  | .entered _ _ | .filled _ _ | .backtracked _ | .failed _ => True

variable {text : List Char} {all : List Form} {place after : Place}

theorem ComesBehind.comesTo (h : ComesBehind text all place) : ComesTo text all place := by
  obtain ⟨hleads, earlier, later, rest, hstands, -⟩ := h
  exact ⟨hleads, earlier, later, rest, hstands⟩

theorem ComesTo.past (h : ComesTo text all place) (hleads : Leads place after) {forms : List Form}
    (hforms : Sequence place.rest forms after.rest) (hsome : forms ≠ []) :
    ComesBehind text all after := by
  obtain ⟨hplace, earlier, later, rest, hstands⟩ := h
  obtain ⟨later', -, hbehind⟩ := hstands.past hforms
  exact ⟨hplace.trans hleads, _, later', rest, hbehind, by simp [hsome]⟩

theorem ComesBehind.past (h : ComesBehind text all place) (hleads : Leads place after)
    {forms : List Form} (hforms : Sequence place.rest forms after.rest) :
    ComesBehind text all after := by
  obtain ⟨hplace, earlier, later, rest, hstands, hearlier⟩ := h
  obtain ⟨later', -, hbehind⟩ := hstands.past hforms
  exact ⟨hplace.trans hleads, _, later', rest, hbehind, by simp [hearlier]⟩

theorem ensures_open_standing (h : ComesTo text all place) :
    Ensures (symbol "(") place (Event.StandsBehind text all) fun _ opened ↦
      ComesTo text all opened := by
  refine ensures_move trivial fun eaten heaten ↦ ?_
  obtain ⟨hplace, earlier, later, rest, hstands⟩ := h
  have hleads := (leads_of_eat? heaten).trans (leads_skipSeparators eaten)
  have hrest : place.rest = '(' :: eaten.rest := (eat?_eq_some heaten).1
  rw [hrest] at hstands
  obtain ⟨members, beyond, hmembers⟩ := hstands.enter
  exact ⟨hplace.trans hleads, [], members, beyond, hmembers⟩

theorem ensures_close_standing (place : Place) :
    Ensures (symbol ")") place (Event.StandsBehind text all) fun _ _ ↦ True :=
  ensures_move trivial fun _ _ ↦ trivial

theorem ensures_word_standing {name : String} (hsome : name.toList ≠ [])
    (hword : ∀ character ∈ name.toList, isWordCharacter character = true)
    (h : ComesTo text all place) :
    Ensures (word name) place (Event.StandsBehind text all) fun _ after ↦
      ComesBehind text all after := by
  refine ensures_move trivial fun eaten heaten ↦ ?_
  have hleads := leads_of_eat? (word?_eq_some_iff.mp heaten).1
  exact h.past (hleads.trans (leads_skipSeparators eaten)) (sequence_of_word? hsome hword heaten)
    (List.cons_ne_nil _ _)

section Slots

variable {catalog : Catalog} {inner : Slot → Reading Outline}

/-- The operands of an operator are looked for behind a member of a group, and everything else among
the members. -/
def Slot.ComesTo (text : List Char) (all : List Form) (place : Place) : Slot → Prop
  | .root _ | .call _ | .choice _ | .typed _ => Formulary.ComesTo text all place
  | .keywords _ | .operator _ | .keyword _ => ComesBehind text all place

theorem Slot.ComesTo.comesTo {slot : Slot} (h : slot.ComesTo text all place) :
    Formulary.ComesTo text all place := by
  cases slot <;> first | exact h | exact ComesBehind.comesTo h

theorem Slot.comesTo_of_comesBehind (slot : Slot) (h : ComesBehind text all place) :
    slot.ComesTo text all place := by
  cases slot <;> first | exact h | exact h.comesTo

/-- Steps for slots that keep to the members of groups. -/
def KeepsToMembers (text : List Char) (all : List Form) (inner : Slot → Reading Outline) : Prop :=
  ∀ ⦃slot : Slot⦄ ⦃place : Place⦄, slot.HasWordNames → Slot.ComesTo text all place slot →
    Ensures (inner slot) place (Event.StandsBehind text all) fun _ after ↦ ComesBehind text all after

theorem KeepsToMembers.argument (h : KeepsToMembers text all inner) {slot : Slot}
    (hslot : slot.isArgument = true) (hplace : ComesTo text all place) :
    Ensures (inner slot) place (Event.StandsBehind text all) fun _ after ↦
      ComesBehind text all after := by
  refine h (Slot.hasWordNames_of_isArgument hslot) ?_
  cases slot <;> first | exact hplace | exact nomatch hslot

/-- If the steps for the parts of a slot keep to the members of groups, so does the slot. -/
theorem ensures_fillParts_standing
    (hcatalog : ∀ base, ∀ operator ∈ catalog.operators base, operator.HasWordNames)
    (h : KeepsToMembers text all inner) {slot : Slot} (hnames : slot.HasWordNames)
    (hslot : slot.ComesTo text all place) :
    Ensures (fillParts catalog inner slot) place (Event.StandsBehind text all) fun _ _ ↦ True := by
  have hplace : ComesTo text all place := hslot.comesTo
  have hanything {part : Reading Outline} {place : Place} {property : Outline → Place → Prop}
      (hpart : Ensures part place (Event.StandsBehind text all) property) :
      Ensures part place (Event.StandsBehind text all) fun _ _ ↦ True :=
    hpart.mono fun _ _ _ ↦ trivial
  have hbehind (part : Slot) (hpart : part.HasWordNames) (middle : Place)
      (hmiddle : ComesBehind text all middle) :
      Ensures (inner part) middle (Event.StandsBehind text all) fun _ after ↦
        ComesBehind text all after := h hpart (part.comesTo_of_comesBehind hmiddle)
  by_cases hchoices : slot.choices = []
  · cases slot with
    | root base => exact ensures_root (hanything (h.argument rfl hplace)) fun _ _ ↦ trivial
    | call base =>
      exact ensures_call (ensures_open_standing hplace) (fun _ _ _ ↦ trivial) (fun _ _ ↦ trivial)
        (fun operator hoperator _ hmiddle ↦ ensures_word_standing (hcatalog base operator hoperator).1.1
          (hcatalog base operator hoperator).1.2 hmiddle)
        (fun operator hoperator ↦ hbehind _ (hcatalog base operator hoperator))
        fun middle _ ↦ ensures_close_standing middle
    | choice kind => exact absurd hchoices (List.cons_ne_nil _ _)
    | typed type =>
      cases type with
      | scalar kind =>
        exact ensures_bind_pure (ensures_literal (fun _ _ ↦ trivial) fun _ _ _ ↦ trivial)
      | series => exact ensures_fail trivial
      | union alternatives =>
        obtain rfl : alternatives = [] := List.map_eq_nil_iff.mp hchoices
        exact ensures_fail trivial
      | list element =>
        exact ensures_list (ensures_open_standing hplace) (fun _ _ ↦ trivial)
          (fun _ hmiddle ↦ (h.argument (Slot.isArgument_ofArgument element) hmiddle).mono
            fun _ _ hafter ↦ hafter.comesTo)
          fun middle _ ↦ ensures_close_standing middle
    | keywords group =>
      have hthere : ComesBehind text all place := hslot
      exact hanything (ensures_keywords hthere (fun _ _ ↦ trivial) (fun _ _ _ _ ↦ trivial)
        fun own hown ↦ hbehind (.keyword own) (hnames own hown))
    | operator chosen =>
      have hthere : ComesBehind text all place := hslot
      exact hanything (ensures_operator hthere fun part hpart ↦
        hbehind part (Slot.hasWordNames_of_mem_slots hnames hpart))
    | keyword own =>
      have hmarker := IsWordName.marker hnames
      exact hanything (ensures_keyword (ensures_word_standing hmarker.1 hmarker.2 hplace)
        fun announced hannounced ↦
          h.argument (Slot.isArgument_ofArgument own.type) hannounced.comesTo)
  · exact ensures_chosen hchoices trivial fun part hpart ↦
      hanything (h.argument (Slot.isArgument_of_mem_choices hpart).1 hplace)

/-- Whatever is read for a slot moves on past members of the group. -/
theorem comesBehind_of_fill
    (hcatalog : ∀ base, ∀ operator ∈ catalog.operators base, operator.HasWordNames)
    {limit room : Nat} {slot : Slot} {outline : Outline} (hnames : slot.HasWordNames)
    (hslot : slot.ComesTo text all place)
    (hread : (fill catalog limit room slot place).result = some (outline, after)) :
    ComesBehind text all after := by
  obtain ⟨forms, hforms, hinterprets⟩ := (agrees hcatalog limit room).interprets_of_fill hnames hread
  have hleads := (moves_of_fill hread).1
  cases slot with
  | operator | keywords | keyword => exact ComesBehind.past hslot hleads hforms
  | root | call | choice | typed =>
    have hlength := length_of_interprets rfl hinterprets
    exact ComesTo.past hslot hleads hforms (List.ne_nil_of_length_eq_add_one hlength)

theorem standsBehind_of_comesTo {slot : Slot} (hnames : slot.HasWordNames)
    (hslot : slot.ComesTo text all place) :
    Event.StandsBehind text all (.entered slot place.offset) := by
  cases slot with
  | keyword own => exact ⟨hnames, place, rfl, hslot⟩
  | root | call | choice | typed | keywords | operator => trivial

/-- Whatever is tried in a formula, it is tried at members of groups. -/
theorem keepsToMembers_fill
    (hcatalog : ∀ base, ∀ operator ∈ catalog.operators base, operator.HasWordNames)
    (limit room : Nat) : KeepsToMembers text all (fill catalog limit room) := by
  induction room with
  | zero =>
    intro slot place hnames hslot
    exact ensures_fill_zero (standsBehind_of_comesTo hnames hslot) trivial
  | succ room ih =>
    intro slot place hnames hslot
    have hfill : Ensures (fill catalog limit (room + 1) slot) place (Event.StandsBehind text all)
        fun _ _ ↦ True :=
      ensures_fill_of_parts (standsBehind_of_comesTo hnames hslot)
        ((ensures_fillParts_standing hcatalog ih hnames hslot).mono fun _ _ _ ↦ ⟨trivial, trivial⟩)
    exact ⟨hfill.events, fun outline after hread ↦
      comesBehind_of_fill hcatalog hnames hslot hread⟩

end Slots

/-! ### Keyword arguments in a text -/

section Swap

variable {catalog : Catalog}
  (hcatalog : ∀ base, ∀ operator ∈ catalog.operators base, operator.HasWordNames)

include hcatalog

/-- A formula is one form. -/
theorem exists_form_of_fill_root {limit room : Nat} {base : Base} {outline : Outline}
    (h : (fill catalog limit room (.root base) place).result = some (outline, after)) :
    ∃ form, Sequence place.rest [form] [] ∧
      Interprets catalog room (fun _ ↦ True) (.root base) [form] outline := by
  have hroot : (Slot.root base).HasWordNames := trivial
  obtain ⟨forms, hforms, hinterprets⟩ := (agrees hcatalog limit room).interprets_of_fill hroot h
  obtain ⟨form, rfl⟩ := List.length_eq_one_iff.mp (length_of_interprets rfl hinterprets)
  have hend : after.rest = [] := by
    cases room with
    | zero => exact hinterprets.elim
    | succ room =>
      cases result_fill_succ_iff.mp h with
      | root hpart hend => exact hend
      | chosen hchoices => exact absurd hchoices (Slot.choices_ne_append rfl)
  rw [hend] at hforms
  exact ⟨form, hforms, hinterprets⟩

/-- A keyword argument is the marker of its name and a form behind it. -/
theorem exists_keywordForms_of_fill {limit room : Nat} {own : Keyword} {outline : Outline}
    (hname : IsWordName own.name)
    (h : (fill catalog limit room (.keyword own) place).result = some (outline, after)) :
    ∃ form, Sequence place.rest (keywordForms (own.name, form)) after.rest := by
  have hnames : (Slot.keyword own).HasWordNames := hname
  obtain ⟨forms, hforms, hinterprets⟩ := (agrees hcatalog limit room).interprets_of_fill hnames h
  obtain ⟨-, form, -, rfl, -⟩ := exists_value_of_interprets hinterprets
  exact ⟨form, hforms⟩

/-- A keyword argument that is looked for in a formula stands behind a member of a group. -/
theorem exists_stands_of_entered {limit room : Nat} {base : Base} {own : Keyword}
    {before behind : List Char} {form : Form}
    (hform : Sequence (dropSeparators (before ++ behind)) [form] [])
    (h : .entered (.keyword own) (byteLength before) ∈ (fill catalog limit room (.root base)
      (Place.start (before ++ behind)).skipSeparators).events) :
    IsWordName own.name ∧ ∃ earlier later rest,
      Stands (dropSeparators (before ++ behind)) [form] behind earlier later rest ∧
        earlier ≠ [] := by
  have hroot : (Slot.root base).HasWordNames := trivial
  have hstart : (Slot.root base).ComesTo (before ++ behind) [form]
      (Place.start (before ++ behind)).skipSeparators :=
    ⟨leads_skipSeparators _, [], [form], [], .start hform⟩
  obtain ⟨hname, place, hoffset, hleads, hstands⟩ :=
    (keepsToMembers_fill hcatalog limit room hroot hstart).events _ h
  have hplace : Leads (Place.start (before ++ behind)) ⟨byteLength before, behind⟩ :=
    ⟨before, rfl, (Nat.zero_add _).symm⟩
  obtain rfl := hleads.eq_of_offset_eq hplace hoffset
  exact ⟨hname, hstands⟩

end Swap

/-- While a formula is read, a keyword argument is supplied that is written between two other texts:
the slot of a keyword is entered where it begins, and if there is room, reading the slot takes up just
the argument. -/
def SuppliesBetween (catalog : Catalog) (limit : Option Nat) (before argument after : List Char) :
    Prop :=
  ∃ own bound room outline,
    .entered (.keyword own) (byteLength before) ∈
        (readFormula catalog limit (before ++ (argument ++ after))).events ∧
      (fill catalog bound room (.keyword own) ⟨byteLength before, argument ++ after⟩).result =
        some (outline, ⟨byteLength (before ++ argument), after⟩)

theorem nestingBound_perm {catalog : Catalog} {text text' : List Char} (h : text.Perm text') :
    nestingBound catalog text = nestingBound catalog text' := by
  rw [nestingBound, nestingBound, h.count_eq]

/-- What a formula is read as stays the same if two keyword arguments that follow each other change
places. -/
theorem result_readFormula_of_swapped {catalog : Catalog}
    (hcatalog : ∀ base, ∀ operator ∈ catalog.operators base, operator.HasWordNames)
    {limit : Option Nat} {before first second after : List Char} {outline : Outline} {last : Place}
    (h : (readFormula catalog limit (before ++ (first ++ (second ++ after)))).result =
      some (outline, last))
    (hfirst : SuppliesBetween catalog limit before first (second ++ after))
    (hsecond : SuppliesBetween catalog limit (before ++ first) second after)
    (hblank : EndsInBlank first) (hblank' : EndsInBlank second) :
    ∃ last, (readFormula catalog limit (before ++ (second ++ (first ++ after)))).result =
      some (outline, last) := by
  obtain ⟨form, hform, hinterprets⟩ := exists_form_of_fill_root hcatalog h
  rw [rest_skipSeparators] at hform
  have hform' : Sequence (dropSeparators (before ++ first ++ (second ++ after))) [form] [] := by
    rwa [List.append_assoc]
  obtain ⟨own, bound, room, supplied, hentered, hfill⟩ := hfirst
  obtain ⟨other, bound', room', supplied', hentered', hfill'⟩ := hsecond
  obtain ⟨hname, earlier, later, rest, hstands, hearlier⟩ :=
    exists_stands_of_entered hcatalog hform hentered
  have hname' := (exists_stands_of_entered hcatalog hform' hentered').1
  obtain ⟨value, hvalue⟩ := exists_keywordForms_of_fill hcatalog hname hfill
  obtain ⟨value', hvalue'⟩ := exists_keywordForms_of_fill hcatalog hname' hfill'
  obtain ⟨form', hsequence, hswapped⟩ :=
    hstands.exchanged hearlier hvalue hvalue' hblank hblank'
  have hplace : Sequence
      (Place.start (before ++ (second ++ (first ++ after)))).skipSeparators.rest [form'] [] := hsequence
  have hinterprets' := Swapped.interprets (.inside hswapped []) hinterprets
  have hroot : (Slot.root .series).HasWordNames := trivial
  obtain ⟨last, hread, -⟩ := (agrees hcatalog _ _).fills hroot rfl hplace hinterprets'
  have hperm : (before ++ (second ++ (first ++ after))).Perm (before ++ (first ++ (second ++ after))) :=
    (List.perm_append_comm_assoc second first after).append_left before
  rw [readFormula, nestingBound_perm hperm]
  exact ⟨last, hread⟩

/-- If two keyword arguments of one use of an operator follow each other in a formula, and the text of
each ends in a blank, then the formula in which the two texts change places is read as the same
outline. -/
theorem parseFormula_of_swapped {operators : List Operator}
    (hnames : ∀ operator ∈ operators, operator.HasWordNames) {limit : Option Nat}
    {before first second after : List Char} {source source' : String} {outline : Outline}
    (hsource : source.toList = before ++ (first ++ (second ++ after)))
    (hsource' : source'.toList = before ++ (second ++ (first ++ after)))
    (h : parseFormula (.ofList operators) limit source = .ok outline)
    (hfirst : SuppliesBetween (.ofList operators) limit before first (second ++ after))
    (hsecond : SuppliesBetween (.ofList operators) limit (before ++ first) second after)
    (hblank : EndsInBlank first) (hblank' : EndsInBlank second) :
    parseFormula (.ofList operators) limit source' = .ok outline := by
  obtain ⟨last, hread⟩ := parseFormula_eq_ok_iff.mp h
  rw [hsource] at hread
  refine parseFormula_eq_ok_iff.mpr ?_
  rw [hsource']
  exact result_readFormula_of_swapped (fun base operator hoperator ↦
    hnames operator (Catalog.mem_of_mem_operators hoperator)) hread hfirst hsecond hblank hblank'

/-- A keyword argument that is an integer. -/
def lagKeyword : Keyword := ⟨"lag", .scalar .int, none⟩

/-- A keyword argument that is either true or false. -/
def centredKeyword : Keyword := ⟨"centred", .scalar .bool, none⟩

/-- An operator with two keyword arguments. -/
def withTwoKeywords : Operator :=
  { name := "f", result := .series, parameters := [], keywords := [lagKeyword, centredKeyword] }

/-- The integer that is supplied to `withTwoKeywords`. -/
def suppliedLag : Outline :=
  .node (.keyword lagKeyword) none
    [.node (.choice .int) none [.node (.typed (.scalar .int)) (some (.int 1)) []]]

/-- The truth value that is supplied to `withTwoKeywords`. -/
def suppliedCentred : Outline :=
  .node (.keyword centredKeyword) none
    [.node (.choice .bool) none [.node (.typed (.scalar .bool)) (some (.bool true)) []]]

/-- The formula that supplies `withTwoKeywords` with both keyword arguments. -/
def withBothSupplied : Outline :=
  .node (.root .series) none [.node (.call .series) none [.node (.operator withTwoKeywords) none
    [.node (.keywords withTwoKeywords.keywords) none [suppliedLag, suppliedCentred]]]]

/-- Two keyword arguments are written in the order of their declaration and the other way round. -/
theorem parseFormula_of_swapped_both :
    parseFormula (.ofList [withTwoKeywords]) none "(f #:lag 1 #:centred #t )" =
        .ok withBothSupplied ∧
      parseFormula (.ofList [withTwoKeywords]) none "(f #:centred #t #:lag 1 )" =
        .ok withBothSupplied := by
  have hread : parseFormula (.ofList [withTwoKeywords]) none "(f #:lag 1 #:centred #t )" =
      .ok withBothSupplied := by
    decide +kernel
  have hfirst : SuppliesBetween (.ofList [withTwoKeywords]) none "(f ".toList "#:lag 1 ".toList
      ("#:centred #t ".toList ++ ")".toList) :=
    ⟨lagKeyword, 0, 3, suppliedLag, by decide +kernel, by decide +kernel⟩
  have hsecond : SuppliesBetween (.ofList [withTwoKeywords]) none
      ("(f ".toList ++ "#:lag 1 ".toList) "#:centred #t ".toList ")".toList :=
    ⟨centredKeyword, 0, 3, suppliedCentred, by decide +kernel, by decide +kernel⟩
  exact ⟨hread, parseFormula_of_swapped (by decide) (by decide) (by decide) hread hfirst hsecond
    (by rintro _ ⟨⟩; rfl) (by rintro _ ⟨⟩; rfl)⟩

end Formulary
