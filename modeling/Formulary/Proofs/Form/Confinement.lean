import Formulary.Proofs.Form.Agreement
import Formulary.Proofs.Reading.Reach
/-!
Readings do not look further than the forms that they are about. Where the names in a catalog are
made of the characters of words, the reading of an argument fails nowhere beyond the form that
stands there, and inside a group nothing fails beyond the parenthesis that closes it
(`staysBefore_fill`). So an alternative that is given up has got no further than the place where
any other alternative ends (`settled_fill`). Main definitions:
`Text.Place.Spans`, `Text.Place.Before` and `StaysBefore`.
-/

set_option autoImplicit false
set_option relaxedAutoImplicit false

namespace Formulary

open Text Place Reading

/-! ### Spans of forms -/

/-- A place leads past some forms to another place. -/
def Text.Place.Spans (place : Place) (forms : List Form) (stop : Place) : Prop :=
  Leads place stop ∧ Sequence place.rest forms stop.rest

/-- A place leads to another one past some forms, however many. -/
def Text.Place.Before (place stop : Place) : Prop :=
  ∃ forms, Spans place forms stop

variable {place after stop : Place} {form : Form} {forms : List Form}

theorem Text.Place.Before.offset_le (h : Before place stop) : place.offset ≤ stop.offset := by
  obtain ⟨forms, hleads, -⟩ := h
  exact hleads.offset_le

/-- Nothing stands before a closing parenthesis but forms, so past one of them it is still ahead. -/
theorem Text.Place.Spans.next (h : Spans place forms stop) (hstop : stop.Closes ∨ forms ≠ [])
    (hafter : Spans place [form] after) : Before after stop := by
  cases forms with
  | nil =>
    obtain ⟨text, hclose⟩ := hstop.resolve_right fun hnil ↦ hnil rfl
    have hform := hafter.2
    rw [h.2.eq_of_nil, hclose] at hform
    exact nomatch hform.eq_nil_of_close
  | cons first others =>
    obtain ⟨middle, hfirst, hothers⟩ := sequence_cons_iff.mp h.2
    obtain ⟨-, rfl⟩ := hafter.2.unique hfirst rfl
    exact ⟨others, hafter.1.of_suffix h.1 hothers.suffix, hothers⟩

/-- Before a closing parenthesis there is only the parenthesis itself. -/
theorem Text.Place.Before.eq_of_closes (h : Before place stop) (hplace : place.Closes) :
    place = stop := by
  obtain ⟨forms, hleads, hforms⟩ := h
  obtain ⟨text, hclose⟩ := hplace
  rw [hclose] at hforms
  obtain rfl := hforms.eq_nil_of_close
  exact (leads_refl place).eq_of_rest_eq hleads (hclose.trans hforms.eq_of_nil)

/-- A literal is refused at the form that stands where it is looked for. -/
theorem Text.Place.Spans.offset_of_error {kind : Scalar} {failure : Failure}
    (h : Spans place forms stop) (hstop : stop.Closes ∨ forms ≠ [])
    (hread : readLiteral kind place = .error failure) : failure.offset = place.offset := by
  obtain ⟨hsame, -⟩ | ⟨what, hquoted⟩ := readLiteral_eq_error hread
  · exact hsame
  · refine offset_of_readQuoted_error (fun quoted hrest ↦ ?_) hquoted
    obtain ⟨offset, text⟩ := place
    obtain rfl : text = '"' :: quoted := hrest
    cases forms with
    | nil =>
      obtain ⟨text, hclose⟩ := hstop.resolve_right fun hnil ↦ hnil rfl
      exact absurd (h.2.eq_of_nil.trans hclose) (by simp)
    | cons first others =>
      obtain ⟨body, text, hbody, hends⟩ := h.2.exists_quotedBody
      obtain ⟨after, hok, -⟩ := readQuoted_of_quotedBody hbody hends what offset
      rw [hok] at hquoted
      exact nomatch hquoted

/-! ### Steps that stay before a place -/

/-- Something happened no further on than at a place. -/
def Event.Within (stop : Place) (event : Event) : Prop :=
  event.offset ≤ stop.offset

theorem ensures_word_spans {text : String} (hsome : text.toList ≠ [])
    (hword : ∀ character ∈ text.toList, isWordCharacter character = true)
    (h : Spans place forms stop) (hstop : stop.Closes ∨ forms ≠ []) :
    Ensures (word text) place (Event.Within stop) fun _ after ↦ Before after stop := by
  refine ensures_move h.1.offset_le fun eaten heaten ↦ ?_
  have hleads := leads_of_eat? (word?_eq_some_iff.mp heaten).1
  have hform : Spans place [.word text.toList] eaten.skipSeparators :=
    ⟨hleads.trans (leads_skipSeparators eaten), sequence_of_word? hsome hword heaten⟩
  exact h.next hstop hform

theorem ensures_literal_spans {kind : Scalar} (h : Spans place forms stop)
    (hstop : stop.Closes ∨ forms ≠ []) :
    Ensures (literal kind) place (Event.Within stop) fun _ after ↦ Before after stop := by
  refine ensures_literal (fun failure hread ↦ ?_) fun value ended hread ↦ ?_
  · exact Nat.le_trans (Nat.le_of_eq (h.offset_of_error hstop hread)) h.1.offset_le
  · obtain ⟨form, hform, -⟩ := sequence_of_readLiteral hread
    exact h.next hstop ⟨(advances_of_readLiteral hread).1.trans (leads_skipSeparators ended), hform⟩

/-- The place of the parenthesis that closes a group before another place. -/
structure Encloses (closing stop : Place) : Prop where
  closes : closing.Closes
  offset_le : closing.offset ≤ stop.offset
  before : ∀ closed, closing.eat? [')'] = some closed → Before closed.skipSeparators stop

/-- A place stands in a group that is closed before another place. -/
def Text.Place.Enclosed (place stop : Place) : Prop :=
  ∃ closing, Before place closing ∧ Encloses closing stop

theorem Text.Place.Enclosed.offset_le (h : Enclosed place stop) : place.offset ≤ stop.offset := by
  obtain ⟨closing, hbefore, hcloses⟩ := h
  exact Nat.le_trans hbefore.offset_le hcloses.offset_le

/-- A step that stays before the end of a group stays inside the group. -/
theorem Text.Place.Enclosed.ensures {α : Type} {step : Reading α} (hplace : Enclosed place stop)
    (h : ∀ closing, closing.Closes → Before place closing →
      Ensures step place (Event.Within closing) fun _ after ↦ Before after closing) :
    Ensures step place (Event.Within stop) fun _ after ↦ Enclosed after stop := by
  obtain ⟨closing, hbefore, hcloses⟩ := hplace
  have hwithin (event : Event) (hevent : Event.Within closing event) : Event.Within stop event :=
    Nat.le_trans hevent hcloses.offset_le
  exact ((h closing hcloses.closes hbefore).widen hwithin).mono
    fun _ after hafter ↦ ⟨closing, hafter, hcloses⟩

/-- Past an opening parenthesis a reading is inside the group. -/
theorem ensures_open_spans (h : Spans place forms stop) (hstop : stop.Closes ∨ forms ≠ []) :
    Ensures (symbol "(") place (Event.Within stop) fun _ opened ↦ Enclosed opened stop := by
  refine ensures_move h.1.offset_le fun eaten heaten ↦ ?_
  obtain ⟨hrest, hoffset⟩ := eat?_eq_some heaten
  change place.rest = '(' :: eaten.rest at hrest
  have hleads := (leads_of_eat? heaten).trans (leads_skipSeparators eaten)
  cases forms with
  | nil =>
    obtain ⟨text, hclose⟩ := hstop.resolve_right fun hnil ↦ hnil rfl
    rw [h.2.eq_of_nil, hclose] at hrest
    exact absurd hrest (by simp)
  | cons first others =>
    have hforms := h.2
    rw [hrest] at hforms
    obtain ⟨members, text, hmembers, hothers⟩ := hforms.exists_members
    obtain ⟨passed, hpassed⟩ := hmembers.suffix
    have hopened : Leads eaten.skipSeparators
        ⟨eaten.skipSeparators.offset + byteLength passed, ')' :: text⟩ :=
      ⟨passed, hpassed.symm, rfl⟩
    have hstops := (hleads.trans hopened).of_suffix h.1
      ((hothers.suffix.trans (dropSeparators_suffix text)).trans (List.suffix_cons _ _))
    refine ⟨_, ⟨members, hopened, hmembers⟩, ⟨text, rfl⟩, hstops.offset_le, fun closed hclosed ↦ ?_⟩
    have hclosing := (leads_of_eat? hclosed).trans (leads_skipSeparators closed)
    obtain rfl : text = closed.rest := (List.cons.inj (eat?_eq_some hclosed).1).2
    exact ⟨others, ((hleads.trans hopened).trans hclosing).of_suffix h.1 hothers.suffix, hothers⟩

/-- Past the closing parenthesis a reading is still before the place around the group. -/
theorem ensures_close_enclosed (h : Enclosed place stop) :
    Ensures (symbol ")") place (Event.Within stop) fun _ after ↦ Before after stop := by
  refine ensures_move h.offset_le fun closed hclosed ↦ ?_
  obtain ⟨closing, hbefore, hcloses⟩ := h
  obtain rfl := hbefore.eq_of_closes (closes_of_eat? hclosed)
  exact hcloses.before closed hclosed

/-! ### Slots that stay before a place -/

variable {catalog : Catalog} {inner : Slot → Reading Outline}

/-- Steps for slots that stay before a closing parenthesis, and arguments that stay before the end of
the form that stands there. -/
def StaysBefore (inner : Slot → Reading Outline) : Prop :=
  ∀ ⦃slot : Slot⦄ ⦃place stop : Place⦄ ⦃forms : List Form⦄, slot.HasWordNames →
    Spans place forms stop → (stop.Closes ∨ slot.isArgument = true ∧ forms ≠ []) →
      Ensures (inner slot) place (Event.Within stop) fun _ after ↦ Before after stop

/-- In front of a closing parenthesis every slot stays before it. -/
theorem StaysBefore.of_closes (h : StaysBefore inner) {slot : Slot} (hnames : slot.HasWordNames)
    (hplace : Before place stop) (hstop : stop.Closes) :
    Ensures (inner slot) place (Event.Within stop) fun _ after ↦ Before after stop := by
  obtain ⟨forms, hforms⟩ := hplace
  exact h hnames hforms (.inl hstop)

/-- Slots stay before a place if their parts do. -/
theorem staysBefore_fillParts
    (hcatalog : ∀ base, ∀ operator ∈ catalog.operators base, operator.HasWordNames)
    (h : StaysBefore inner) : StaysBefore (fillParts catalog inner) := by
  intro slot place stop forms hnames hforms hslot
  have hstop : stop.Closes ∨ forms ≠ [] := hslot.imp_right And.right
  have hplace : Before place stop := ⟨forms, hforms⟩
  have hargument (part : Slot) (hpart : part.isArgument = true) :
      Ensures (inner part) place (Event.Within stop) fun _ after ↦ Before after stop :=
    h (Slot.hasWordNames_of_isArgument hpart) hforms (hstop.imp_right fun hsome ↦ ⟨hpart, hsome⟩)
  have hinside (part : Slot) (hpart : part.HasWordNames) (middle : Place)
      (hmiddle : Enclosed middle stop) :
      Ensures (inner part) middle (Event.Within stop) fun _ after ↦ Enclosed after stop :=
    hmiddle.ensures fun closing hcloses hbefore ↦ h.of_closes hpart hbefore hcloses
  -- what is no argument stands in front of a closing parenthesis
  have hclosed (hother : slot.isArgument = false) : stop.Closes :=
    hslot.resolve_right fun hthis ↦ Bool.false_ne_true (hother.symm.trans hthis.1)
  by_cases hchoices : slot.choices = []
  · cases slot with
    | root base =>
      exact ensures_root (hargument (.call base) rfl) fun after hafter ↦ hafter.offset_le
    | call base =>
      have hname (operator : Operator) (hoperator : operator ∈ catalog.operators base)
          (middle : Place) (hmiddle : Enclosed middle stop) :
          Ensures (word operator.name) middle (Event.Within stop) fun _ after ↦
            Enclosed after stop := by
        refine hmiddle.ensures fun closing hcloses hbefore ↦ ?_
        obtain ⟨members, hmembers⟩ := hbefore
        have hword := (hcatalog base operator hoperator).1
        exact ensures_word_spans hword.1 hword.2 hmembers (.inl hcloses)
      exact ensures_call (ensures_open_spans hforms hstop) (fun _ _ hmiddle ↦ hmiddle.offset_le)
        (fun _ hmiddle ↦ hmiddle.offset_le) hname
        (fun operator hoperator ↦ hinside _ (hcatalog base operator hoperator))
        fun _ ↦ ensures_close_enclosed
    | choice kind => exact absurd hchoices (List.cons_ne_nil _ _)
    | typed type =>
      cases type with
      | scalar kind => exact ensures_bind_pure (ensures_literal_spans hforms hstop)
      | series => exact ensures_fail hplace.offset_le
      | union alternatives =>
        obtain rfl : alternatives = [] := List.map_eq_nil_iff.mp hchoices
        exact ensures_fail hplace.offset_le
      | list element =>
        exact ensures_list (ensures_open_spans hforms hstop) (fun _ hmiddle ↦ hmiddle.offset_le)
          (hinside _ (Slot.hasWordNames_of_isArgument (Slot.isArgument_ofArgument element)))
          fun _ ↦ ensures_close_enclosed
    | keywords group =>
      exact ensures_keywords hplace (fun _ hthere ↦ hthere.offset_le)
        (fun _ _ _ hthere ↦ hthere.offset_le)
        fun own hown _ hthere ↦ h.of_closes (hnames own hown) hthere (hclosed rfl)
    | operator chosen =>
      exact ensures_operator hplace fun part hpart _ hthere ↦
        h.of_closes (Slot.hasWordNames_of_mem_slots hnames hpart) hthere (hclosed rfl)
    | keyword own =>
      have hmarker := IsWordName.marker hnames
      have hvalue := Slot.hasWordNames_of_isArgument (Slot.isArgument_ofArgument own.type)
      exact ensures_keyword (ensures_word_spans hmarker.1 hmarker.2 hforms hstop)
        fun announced hannounced ↦ h.of_closes hvalue hannounced (hclosed rfl)
  · exact ensures_chosen hchoices hplace.offset_le fun part hpart ↦
      hargument part (Slot.isArgument_of_mem_choices hpart).1

theorem staysBefore_fill
    (hcatalog : ∀ base, ∀ operator ∈ catalog.operators base, operator.HasWordNames)
    (limit room : Nat) : StaysBefore (fill catalog limit room) := by
  induction room with
  | zero =>
    intro slot place stop forms hnames hforms hslot
    exact ensures_fill_zero hforms.1.offset_le hforms.1.offset_le
  | succ room ih =>
    intro slot place stop forms hnames hforms hslot
    exact ensures_fill_of_parts hforms.1.offset_le
      ((staysBefore_fillParts hcatalog ih hnames hforms hslot).mono
        fun _ _ hafter ↦ ⟨hafter.offset_le, hafter⟩)

/-! ### Alternatives -/

/-- What is read for an argument is the form that stands there. -/
theorem exists_spans_of_fill
    (hcatalog : ∀ base, ∀ operator ∈ catalog.operators base, operator.HasWordNames)
    {limit room : Nat} {slot : Slot} {outline : Outline} (hslot : slot.isArgument = true)
    (h : (fill catalog limit room slot place).result = some (outline, after)) :
    ∃ form, Spans place [form] after := by
  obtain ⟨forms, hforms, hinterprets⟩ :=
    (agrees hcatalog limit room).interprets_of_fill (Slot.hasWordNames_of_isArgument hslot) h
  obtain ⟨form, rfl⟩ := exists_form_of_interprets hslot hinterprets
  exact ⟨form, (moves_of_fill h).1, hforms⟩

theorem settled_fill
    (hcatalog : ∀ base, ∀ operator ∈ catalog.operators base, operator.HasWordNames)
    (limit room : Nat) {slots : List Slot} (hslots : ∀ slot ∈ slots, slot.isArgument = true)
    (place : Place) : Settled (slots.map (fill catalog limit room)) place := by
  intro step hstep outline after hread other hother
  obtain ⟨slot, hslot, rfl⟩ := List.mem_map.mp hstep
  obtain ⟨slot', hslot', rfl⟩ := List.mem_map.mp hother
  replace hslot' := hslots slot' hslot'
  obtain ⟨form, hform⟩ := exists_spans_of_fill hcatalog (hslots slot hslot) hread
  have hbefore := staysBefore_fill hcatalog limit room (Slot.hasWordNames_of_isArgument hslot')
    hform (.inr ⟨hslot', List.cons_ne_nil _ _⟩)
  have hends (outline' : Outline) (after' : Place)
      (hread' : (fill catalog limit room slot' place).result = some (outline', after')) :
      after' = after := by
    obtain ⟨form', hform'⟩ := exists_spans_of_fill hcatalog hslot' hread'
    obtain ⟨-, hrest⟩ := hform'.2.unique hform.2 rfl
    exact hform'.1.eq_of_rest_eq hform.1 hrest
  refine ⟨Nat.max_le.mpr ⟨frontier_le fun failure hfailure ↦ ?_, ?_⟩, hends⟩
  · exact hbefore.events (.failed failure) (Outcome.mem_failures_iff.mp hfailure)
  · cases hresult : (fill catalog limit room slot' place).result with
    | none => exact Nat.zero_le _
    | some found => exact Nat.le_of_eq (congrArg Place.offset (hends found.1 found.2 hresult))

end Formulary
