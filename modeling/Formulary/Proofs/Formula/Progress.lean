import Formulary.Proofs.Formula.Slots
import Formulary.Proofs.Token.Refusal
/-!
Where the reading of a slot goes. To read a slot is to read slots that are parts of it, each of
them at a place that the slot leads to, and behind an opening parenthesis if the slot is bracketed.
`ensures_fillParts` draws what a slot ensures from what its parts ensure there. It follows that a
reading never moves backwards and that every argument takes something off the text (`fill_moves`).
Main definitions: `Slot.HasPart`, `Slot.isBracketed`, `Slot.takesText` and `Slot.Moves`.
-/

set_option autoImplicit false
set_option relaxedAutoImplicit false

namespace Formulary

open Text Place Reading

namespace Slot

/-- The slots that may be read for a slot. -/
inductive HasPart (catalog : Catalog) : Slot → Slot → Prop
  | result (base : Base) : HasPart catalog (.root base) (.call base)
  | chosen {base : Base} {operator : Operator} (h : operator ∈ catalog.operators base) :
      HasPart catalog (.call base) (.operator operator)
  | literal (kind : Scalar) : HasPart catalog (.choice kind) (.typed (.scalar kind))
  | application (kind : Scalar) : HasPart catalog (.choice kind) (.call (.scalar kind))
  | alternative {alternatives : List ArgType} {type : ArgType} (h : type ∈ alternatives) :
      HasPart catalog (.typed (.union alternatives)) (.ofArgument type)
  | element (type : ArgType) : HasPart catalog (.typed (.list type)) (.ofArgument type)
  | supplied {group : List Keyword} {keyword : Keyword} (h : keyword ∈ group) :
      HasPart catalog (.keywords group) (.keyword keyword)
  | operand {operator : Operator} {slot : Slot} (h : slot ∈ operator.slots) :
      HasPart catalog (.operator operator) slot
  | value (keyword : Keyword) : HasPart catalog (.keyword keyword) (.ofArgument keyword.type)

/-- Whether the parts of a slot stand between parentheses of its own. -/
def isBracketed : Slot → Bool
  | .call _ | .typed (.list _) => true
  | _ => false

/-- Whether whatever is read for a slot takes up some text. An operator without arguments and
keyword arguments that are all left out do not. -/
def takesText : Slot → Bool
  | .root _ | .call _ | .choice _ | .typed _ | .keyword _ => true
  | .keywords _ | .operator _ => false

theorem takesText_of_isArgument {slot : Slot} (h : slot.isArgument = true) :
    slot.takesText = true := by
  cases slot <;> first | rfl | exact nomatch h

theorem takesText_ofArgument (type : ArgType) : (ofArgument type).takesText = true :=
  takesText_of_isArgument (isArgument_ofArgument type)

theorem takesText_of_mem_choices {slot part : Slot} (h : part ∈ slot.choices) :
    part.takesText = true :=
  takesText_of_isArgument (isArgument_of_mem_choices h).1

theorem choices_of_isBracketed {slot : Slot} (h : slot.isBracketed = true) : slot.choices = [] := by
  unfold isBracketed at h
  split at h
  · rfl
  · rfl
  · cases h

theorem HasPart.of_mem_choices {catalog : Catalog} {slot part : Slot} (h : part ∈ slot.choices) :
    slot.HasPart catalog part := by
  unfold choices at h
  split at h
  · simp only [List.mem_cons, List.not_mem_nil, or_false] at h
    rcases h with rfl | rfl
    · exact .literal _
    · exact .application _
  · obtain ⟨type, htype, rfl⟩ := List.mem_map.mp h
    exact .alternative htype
  · exact absurd h List.not_mem_nil

/-- Reading a slot moves ahead, and gets further if the slot takes up text. -/
def Moves (slot : Slot) (place after : Place) : Prop :=
  Leads place after ∧ (slot.takesText = true → place.offset < after.offset)

theorem Moves.advances {slot : Slot} {place after : Place} (h : slot.Moves place after)
    (hslot : slot.takesText = true) : Advances place after :=
  ⟨h.1, h.2 hslot⟩

end Slot

theorem Text.Place.Advances.moves {place after : Place} (h : Advances place after) (slot : Slot) :
    slot.Moves place after :=
  ⟨h.1, fun _ ↦ h.2⟩

/-- The number of opening parentheses that remain. -/
def Text.Place.openings (place : Place) : Nat :=
  place.rest.count '('

theorem Text.Place.Leads.openings_le {place after : Place} (h : Leads place after) :
    after.openings ≤ place.openings :=
  h.suffix.sublist.count_le '('

/-- A place leads past an opening parenthesis to another place. -/
def Text.Place.Enters (place middle : Place) : Prop :=
  Advances place middle ∧ middle.openings < place.openings

theorem Text.Place.Enters.trans_leads {place middle after : Place} (h : Enters place middle)
    (hleads : Leads middle after) : Enters place after :=
  ⟨h.1.trans_leads hleads, Nat.lt_of_le_of_lt hleads.openings_le h.2⟩

theorem openings_lt_of_eat? {place after : Place} (h : place.eat? ['('] = some after) :
    after.openings < place.openings := by
  have hrest := (eat?_eq_some h).1
  simp [openings, hrest]

/-- The failure of a slot for which there is no room. -/
def Event.isTooDeep : Event → Bool
  | .failed failure => failure.complaint.isTooDeep
  | .entered _ _ | .filled _ _ | .backtracked _ => false

/-! ### Slots and their parts -/

section Parts

variable {allowed : Event → Prop} (hallowed : ∀ event, event.isTooDeep = false → allowed event)

include hallowed

theorem ensures_symbol (text : String) (place : Place) :
    Ensures (symbol text) place allowed fun _ after ↦
      ∃ eaten, place.eat? text.toList = some eaten ∧ after = eaten.skipSeparators :=
  ensures_move (hallowed _ rfl) fun eaten heaten ↦ ⟨eaten, heaten, rfl⟩

theorem ensures_word (text : String) (place : Place) :
    Ensures (word text) place allowed fun _ after ↦ Leads place after :=
  ensures_move (hallowed _ rfl) fun eaten heaten ↦
    (leads_of_eat? (word?_eq_some_iff.mp heaten).1).trans (leads_skipSeparators eaten)

/-- A step that takes an opening parenthesis gets past one. -/
theorem ensures_open (place : Place) :
    Ensures (symbol "(") place allowed fun _ opened ↦ Enters place opened :=
  (ensures_symbol hallowed "(" place).mono fun _ opened hopened ↦ by
    obtain ⟨eaten, heaten, rfl⟩ := hopened
    have hskip := leads_skipSeparators eaten
    exact ⟨(advances_of_eat? (List.cons_ne_nil _ _) heaten).trans_leads hskip,
      Nat.lt_of_le_of_lt hskip.openings_le (openings_lt_of_eat? heaten)⟩

theorem ensures_close {place closing : Place} (h : Enters place closing) :
    Ensures (symbol ")") closing allowed fun _ after ↦ Advances place after :=
  (ensures_symbol hallowed ")" closing).mono fun _ after hafter ↦ by
    obtain ⟨eaten, heaten, rfl⟩ := hafter
    exact h.1.trans_leads ((leads_of_eat? heaten).trans (leads_skipSeparators eaten))

/-- What the parts of a slot ensure at the places that the slot leads to, the slot ensures. -/
theorem ensures_fillParts {catalog : Catalog} {inner : Slot → Reading Outline} {slot : Slot}
    {place : Place}
    (hinner : ∀ part middle, slot.HasPart catalog part → Leads place middle →
      (slot.isBracketed = true → middle.openings < place.openings) →
        Ensures (inner part) middle allowed fun _ after ↦ part.Moves middle after) :
    Ensures (fillParts catalog inner slot) place allowed fun _ after ↦ slot.Moves place after := by
  have hinside (part : Slot) (hpart : slot.HasPart catalog part) (middle : Place)
      (hmiddle : Enters place middle) :
      Ensures (inner part) middle allowed fun _ after ↦ Enters place after :=
    (hinner part middle hpart hmiddle.1.1 fun _ ↦ hmiddle.2).mono
      fun _ after hafter ↦ hmiddle.trans_leads hafter.1
  have hclose (closing : Place) (hclosing : Enters place closing) :
      Ensures (symbol ")") closing allowed fun _ after ↦ slot.Moves place after :=
    (ensures_close hallowed hclosing).mono fun _ after hafter ↦ hafter.moves slot
  by_cases hslot : slot.choices = []
  · cases slot with
    | root base =>
      have hpart : Ensures (inner (.call base)) place allowed fun _ after ↦ Advances place after :=
        (hinner _ place (.result base) (leads_refl place) nofun).mono
          fun _ after hafter ↦ hafter.advances rfl
      exact (ensures_root hpart fun _ _ ↦ hallowed _ rfl).mono fun _ after hafter ↦ hafter.moves _
    | call base =>
      exact ensures_call (ensures_open hallowed place) (fun _ _ _ ↦ hallowed _ rfl)
        (fun _ _ ↦ hallowed _ rfl)
        (fun operator _ middle hmiddle ↦ (ensures_word hallowed operator.name middle).mono
          fun _ after hafter ↦ hmiddle.trans_leads hafter)
        (fun operator hoperator ↦ hinside _ (.chosen hoperator)) hclose
    | choice kind => exact absurd hslot (List.cons_ne_nil _ _)
    | typed type =>
      cases type with
      | scalar kind =>
        have hliteral : Ensures (literal kind) place allowed fun _ after ↦ Advances place after :=
          ensures_literal
            (fun failure hfailure ↦ hallowed _ (refusal_of_readLiteral hfailure).aboutToken)
            fun value after hvalue ↦
              (advances_of_readLiteral hvalue).trans_leads (leads_skipSeparators after)
        exact ensures_bind_pure (hliteral.mono fun _ after hafter ↦ hafter.moves _)
      | series => exact ensures_fail (hallowed _ rfl)
      | union alternatives =>
        obtain rfl : alternatives = [] := List.map_eq_nil_iff.mp hslot
        exact ensures_fail (hallowed _ rfl)
      | list element =>
        exact ensures_list (ensures_open hallowed place) (fun _ _ ↦ hallowed _ rfl)
          (hinside _ (.element element)) hclose
    | keywords group =>
      have hkept (keyword : Keyword) (hkeyword : keyword ∈ group) (middle : Place)
          (hmiddle : Leads place middle) :
          Ensures (inner (.keyword keyword)) middle allowed fun _ after ↦ Leads place after :=
        (hinner _ middle (.supplied hkeyword) hmiddle nofun).mono
          fun _ after hafter ↦ hmiddle.trans hafter.1
      exact (ensures_keywords (leads_refl place) (fun _ _ ↦ hallowed _ rfl)
        (fun _ _ _ _ ↦ hallowed _ rfl) hkept).mono fun _ after hafter ↦ ⟨hafter, nofun⟩
    | operator chosen =>
      have hkept (part : Slot) (hpart : part ∈ chosen.slots) (middle : Place)
          (hmiddle : Leads place middle) :
          Ensures (inner part) middle allowed fun _ after ↦ Leads place after :=
        (hinner _ middle (.operand hpart) hmiddle nofun).mono
          fun _ after hafter ↦ hmiddle.trans hafter.1
      exact (ensures_operator (leads_refl place) hkept).mono fun _ after hafter ↦ ⟨hafter, nofun⟩
    | keyword own =>
      refine ensures_keyword (ensures_word hallowed own.marker place)
        fun announced hannounced ↦ ?_
      exact (hinner _ announced (.value own) hannounced nofun).mono fun _ after hafter ↦
        (hannounced.trans_advances (hafter.advances (Slot.takesText_ofArgument _))).moves _
  · refine ensures_chosen hslot (hallowed _ rfl) fun part hpart ↦ ?_
    have hfree (hbracketed : slot.isBracketed = true) : place.openings < place.openings :=
      absurd (Slot.choices_of_isBracketed hbracketed) hslot
    exact (hinner part place (.of_mem_choices hpart) (leads_refl place) hfree).mono
      fun _ after hafter ↦ (hafter.advances (Slot.takesText_of_mem_choices hpart)).moves slot

/-- What a slot ensures for which there is room. -/
theorem ensures_fill_succ {catalog : Catalog} {limit room : Nat} {slot : Slot} {place : Place}
    (h : ∀ part middle, slot.HasPart catalog part → Leads place middle →
      (slot.isBracketed = true → middle.openings < place.openings) →
        Ensures (fill catalog limit room part) middle allowed fun _ after ↦
          part.Moves middle after) :
    Ensures (fill catalog limit (room + 1) slot) place allowed fun _ after ↦
      slot.Moves place after :=
  ensures_fill_of_parts (hallowed _ rfl) ((ensures_fillParts hallowed h).mono
    fun _ _ hafter ↦ ⟨hallowed _ rfl, hafter⟩)

end Parts

/-- A reading never moves backwards, and gets further for a slot that takes up text. -/
theorem fill_moves (catalog : Catalog) (limit room : Nat) (slot : Slot) (place : Place) :
    Ensures (fill catalog limit room slot) place (fun _ ↦ True) fun _ after ↦
      slot.Moves place after := by
  induction room generalizing slot place with
  | zero => exact ensures_fill_zero trivial trivial
  | succ room ih =>
    exact ensures_fill_succ (fun _ _ ↦ trivial) fun part middle _ _ _ ↦ ih part middle

theorem moves_of_fill {catalog : Catalog} {limit room : Nat} {slot : Slot} {place after : Place}
    {outline : Outline} (h : (fill catalog limit room slot place).result = some (outline, after)) :
    slot.Moves place after :=
  (fill_moves catalog limit room slot place).result outline after h

end Formulary
