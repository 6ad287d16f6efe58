import Formulary.Proofs.Formula.Parts
import Formulary.Proofs.Formula.Progress
import Formulary.Proofs.Formula.Room
import Formulary.Proofs.Record.Basic
/-!
Readings have records. `Recorded` says of a step that whatever it reads is built from some records, and
that these hold just what the step kept of its journal. There is a rule for each way to compose steps,
and from them follows that the reading of a formula has a sound record (`exists_record_of_parseFormula`).
-/

set_option autoImplicit false
set_option relaxedAutoImplicit false

namespace Formulary

open Text Place Reading Record

variable {α β : Type} {good : Record → Prop} {place : Place}

/-- What a step reads is built from good records further on, and the step keeps just what these
records hold. -/
def Recorded (good : Record → Prop) (step : Reading α) (place : Place)
    (built : List Record → α → Prop) : Prop :=
  ∀ value after, (step place).result = some (value, after) → Leads place after ∧
    ∃ records, (step place).kept = eventsOfAll records ∧
      (∀ record ∈ records, Leads place record.start ∧ good record) ∧ built records value

/-! ### Steps that keep nothing -/

theorem recorded_of_kept_eq_nil {step : Reading α} {built : List Record → α → Prop}
    (h : ∀ value after, (step place).result = some (value, after) →
      Leads place after ∧ (step place).kept = [] ∧ built [] value) :
    Recorded good step place built := by
  intro value after hresult
  obtain ⟨hleads, hkept, hbuilt⟩ := h value after hresult
  exact ⟨hleads, [], hkept, List.forall_mem_nil _, hbuilt⟩

theorem recorded_pure {value : α} {built : List Record → α → Prop} (h : built [] value) :
    Recorded good (pure value) place built := by
  refine recorded_of_kept_eq_nil ?_
  rintro _ _ ⟨⟩
  exact ⟨leads_refl place, rfl, h⟩

theorem recorded_fail {complaint : Complaint} {built : List Record → α → Prop} :
    Recorded good (fail complaint) place built :=
  fun _ _ hresult ↦ nomatch hresult

theorem recorded_remaining :
    Recorded good remaining place fun records _ ↦ records = [] := by
  refine recorded_of_kept_eq_nil ?_
  rintro _ _ ⟨⟩
  exact ⟨leads_refl place, rfl, rfl⟩

theorem recorded_reached :
    Recorded good reached place fun records _ ↦ records = [] := by
  refine recorded_of_kept_eq_nil ?_
  rintro _ _ ⟨⟩
  exact ⟨leads_refl place, rfl, rfl⟩

theorem recorded_move {advance : Place → Option Place} {complaint : Complaint}
    (h : ∀ after, advance place = some after → Leads place after) :
    Recorded good (move advance complaint) place fun records _ ↦ records = [] := by
  refine recorded_of_kept_eq_nil fun value after hresult ↦ ?_
  cases hadvance : advance place with
  | none => simp [move_eq_of_none hadvance] at hresult
  | some eaten =>
    rw [move_eq_of_some hadvance] at hresult ⊢
    obtain ⟨-, rfl⟩ := Prod.mk.inj (Option.some.inj hresult)
    exact ⟨(h eaten hadvance).trans (leads_skipSeparators eaten), rfl, rfl⟩

theorem recorded_symbol (text : String) :
    Recorded good (symbol text) place fun records _ ↦ records = [] :=
  recorded_move fun _ heaten ↦ leads_of_eat? heaten

theorem recorded_word (text : String) :
    Recorded good (word text) place fun records _ ↦ records = [] :=
  recorded_move fun _ hnamed ↦ leads_of_eat? (word?_eq_some_iff.mp hnamed).1

theorem recorded_literal (kind : Scalar) :
    Recorded good (literal kind) place fun records _ ↦ records = [] := by
  refine recorded_of_kept_eq_nil fun value after hresult ↦ ?_
  cases hread : readLiteral kind place with
  | error failure => simp [literal, hread] at hresult
  | ok found =>
    simp only [literal, hread] at hresult ⊢
    obtain ⟨-, rfl⟩ := Prod.mk.inj (Option.some.inj hresult)
    exact ⟨(advances_of_readLiteral hread).1.trans (leads_skipSeparators found.2), rfl, trivial⟩

theorem recorded_atEnd : Recorded good atEnd place fun records _ ↦ records = [] := by
  refine recorded_of_kept_eq_nil fun value after hresult ↦ ?_
  by_cases hend : place.isAtEnd = true
  · simp only [atEnd, if_pos hend] at hresult ⊢
    obtain ⟨-, rfl⟩ := Prod.mk.inj (Option.some.inj hresult)
    exact ⟨leads_refl place, rfl, trivial⟩
  · simp [atEnd, hend] at hresult

/-! ### Composed steps -/

theorem recorded_bind {first : Reading α} {next : α → Reading β}
    {early : List Record → α → Prop} {built : List Record → β → Prop}
    (hfirst : Recorded good first place early)
    (hnext : ∀ value middle records, (first place).result = some (value, middle) →
      early records value →
      Recorded good (next value) middle fun more result ↦ built (records ++ more) result) :
    Recorded good (first >>= next) place built := by
  intro result after hresult
  cases hfound : (first place).result with
  | none =>
    rw [bind_eq_of_none hfound] at hresult
    exact nomatch hresult
  | some found =>
    obtain ⟨value, middle⟩ := found
    have hwhole := bind_eq_of_some hfound next
    rw [hwhole] at hresult
    obtain ⟨hleads, records, hkept, hgood, hearly⟩ := hfirst value middle hfound
    obtain ⟨hleads', more, hkept', hgood', hbuilt⟩ :=
      hnext value middle records hfound hearly result after hresult
    refine ⟨hleads.trans hleads', records ++ more, ?_, ?_, hbuilt⟩
    · rw [Outcome.kept, hwhole, Journal.kept, eventsOfAll_append, ← hkept, ← hkept']
      rfl
    · refine List.forall_mem_append.mpr ⟨hgood, fun record hrecord ↦ ?_⟩
      exact ⟨hleads.trans (hgood' record hrecord).1, (hgood' record hrecord).2⟩

/-- A step that keeps nothing in front of another one. -/
theorem recorded_after {first : Reading α} {next : α → Reading β}
    {built : List Record → β → Prop}
    (hfirst : Recorded good first place fun records _ ↦ records = [])
    (hnext : ∀ value middle, (first place).result = some (value, middle) →
      Recorded good (next value) middle built) : Recorded good (first >>= next) place built := by
  refine recorded_bind hfirst fun value middle records hfound hrecords ↦ ?_
  subst hrecords
  exact hnext value middle hfound

/-- A step after which something is made of what it read. -/
theorem recorded_bind_pure {step : Reading α} {build : α → β} {built : List Record → β → Prop}
    (h : Recorded good step place fun records value ↦ built records (build value)) :
    Recorded good (step >>= fun value ↦ pure (build value)) place built := by
  refine recorded_bind h fun value middle records _ hbuilt ↦ recorded_pure ?_
  rwa [List.append_nil]

/-- A step that keeps nothing behind another one. -/
theorem recorded_before {step : Reading α} {last : Reading β} {γ : Type} {build : α → γ}
    {built : List Record → γ → Prop}
    (hlast : ∀ place, Recorded good last place fun records _ ↦ records = [])
    (h : Recorded good step place fun records value ↦ built records (build value)) :
    Recorded good (step >>= fun value ↦ last >>= fun _ ↦ pure (build value)) place built := by
  refine recorded_bind h fun value middle records _ hbuilt ↦ ?_
  refine recorded_after (hlast middle) fun _ after _ ↦ recorded_pure ?_
  rwa [List.append_nil]

theorem recorded_firstOf {steps : List (Reading α)} {built : List Record → α → Prop}
    (h : ∀ step ∈ steps, Recorded good step place built) :
    Recorded good (firstOf steps) place built := by
  induction steps with
  | nil => exact fun _ _ hresult ↦ nomatch hresult
  | cons step steps ih =>
    rw [List.forall_mem_cons] at h
    intro value after hresult
    cases hstep : (step place).result with
    | none =>
      have htried : (trying step place).result = none := by rw [result_trying, hstep]
      have hinstead := orElse_eq_of_none htried (firstOf steps)
      rw [firstOf, hinstead] at hresult ⊢
      exact ih h.2 value after hresult
    | some found =>
      have htried : (trying step place).result = some found := by rw [result_trying, hstep]
      rw [firstOf, orElse_eq_of_some htried, trying_eq_of_some hstep] at hresult ⊢
      exact h.1 value after hresult

theorem recorded_optionally {step : Reading α} {built : List Record → Option α → Prop}
    (h : Recorded good step place fun records value ↦ built records (some value))
    (hnone : built [] none) : Recorded good (optionally step) place built := by
  intro found after hresult
  cases hstep : (step place).result with
  | none =>
    rw [optionally_eq_of_none hstep] at hresult ⊢
    obtain ⟨rfl, rfl⟩ := Prod.mk.inj (Option.some.inj hresult)
    exact ⟨leads_refl place, [], rfl, List.forall_mem_nil _, hnone⟩
  | some read =>
    rw [optionally_eq_of_some hstep] at hresult ⊢
    obtain ⟨rfl, rfl⟩ := Prod.mk.inj (Option.some.inj hresult)
    exact h read.1 read.2 hstep

/-! ### Slots and their parts -/

/-- An outline is that of a single record for a slot. -/
def IsRecordFor (slot : Slot) (records : List Record) (outline : Outline) : Prop :=
  ∃ record, records = [record] ∧ record.slot = slot ∧ record.outline = outline

section Parts

variable {catalog : Catalog} {inner : Slot → Reading Outline}
  (hinner : ∀ slot place, Recorded good (inner slot) place (IsRecordFor slot))

include hinner

theorem recorded_inOrder (slots : List Slot) (place : Place) :
    Recorded good (inOrder (slots.map inner)) place fun records outlines ↦
      records.map slot = slots ∧ records.map outline = outlines := by
  induction slots generalizing place with
  | nil => exact recorded_pure ⟨rfl, rfl⟩
  | cons slot slots ih =>
    refine recorded_bind (hinner slot place) fun outline middle records _ hfirst ↦ ?_
    obtain ⟨record, rfl, rfl, rfl⟩ := hfirst
    refine recorded_bind (ih middle) fun outlines after more _ hmore ↦ recorded_pure ?_
    obtain ⟨rfl, rfl⟩ := hmore
    rw [List.append_nil]
    exact ⟨rfl, rfl⟩

/-- The elements of a list, of which each takes up some text. -/
theorem recorded_repeatedly {slot : Slot}
    (hadvances : ∀ place outline after, (inner slot place).result = some (outline, after) →
      place.offset < after.offset) (bound : Nat) (place : Place) :
    Recorded good (repeatedly (inner slot) bound) place fun records outlines ↦
      (∀ record ∈ records, record.slot = slot) ∧ records.map outline = outlines := by
  induction bound generalizing place with
  | zero => exact recorded_pure ⟨List.forall_mem_nil _, rfl⟩
  | succ bound ih =>
    have hround : Recorded good (optionally (trying (inner slot))) place fun records found ↦
        (found = none → records = []) ∧
          ∀ outline, found = some outline → IsRecordFor slot records outline := by
      have hnone (outline : Outline) (hsome : none = some outline) :
          IsRecordFor slot [] outline := by cases hsome
      refine recorded_optionally ?_ ⟨fun _ ↦ rfl, hnone⟩
      intro outline after hresult
      rw [result_trying] at hresult
      obtain ⟨hleads, records, hkept, hgood, hrecord⟩ := hinner slot place outline after hresult
      refine ⟨hleads, records, ?_, hgood, fun hnone ↦ absurd hnone (Option.some_ne_none _), ?_⟩
      · rw [trying_eq_of_some hresult]
        exact hkept
      · rintro _ ⟨⟩
        exact hrecord
    refine recorded_after recorded_reached fun before middle hbefore ↦ ?_
    obtain ⟨rfl, rfl⟩ := Prod.mk.inj (Option.some.inj hbefore)
    refine recorded_bind hround fun found middle records hfound hrecords ↦ ?_
    cases found with
    | none =>
      obtain rfl := hrecords.1 rfl
      exact recorded_pure ⟨List.forall_mem_nil _, rfl⟩
    | some outline =>
      obtain ⟨record, rfl, rfl, rfl⟩ := hrecords.2 outline rfl
      have hahead : place.offset < middle.offset := by
        rw [result_optionally, result_trying] at hfound
        cases hread : (inner record.slot place).result with
        | none => simp [hread] at hfound
        | some read =>
          simp only [hread, Option.map_some, Option.getD_some, Option.some.injEq,
            Prod.mk.injEq] at hfound
          rw [← hfound.2]
          exact hadvances place read.1 read.2 hread
      refine recorded_bind recorded_reached fun offset there more hoffset hmore ↦ ?_
      obtain ⟨rfl, rfl⟩ := Prod.mk.inj (Option.some.inj hoffset)
      subst hmore
      rw [if_pos hahead]
      refine recorded_bind (ih middle) fun outlines after more _ hmore ↦ recorded_pure ?_
      obtain ⟨hslots, rfl⟩ := hmore
      rw [List.append_nil]
      exact ⟨List.forall_mem_cons.mpr ⟨rfl, hslots⟩, rfl⟩

/-- The keyword arguments that are supplied, under different names. -/
theorem recorded_readSupplied (group : List Keyword) (bound : Nat)
    {supplied : List (String × Outline)} (hsupplied : (supplied.map Prod.fst).Nodup)
    (place : Place) :
    Recorded good (readSupplied inner group bound supplied) place fun records found ↦
      found = supplied ++ entries records ∧ (found.map Prod.fst).Nodup ∧
        ∀ record ∈ records, ∃ own ∈ group, record.slot = .keyword own := by
  induction bound generalizing supplied place with
  | zero => exact recorded_pure ⟨(List.append_nil _).symm, hsupplied, List.forall_mem_nil _⟩
  | succ bound ih =>
    have hround : Recorded good (optionally (firstOf (group.map fun keyword ↦ do
        let outline ← inner (.keyword keyword)
        pure (keyword, outline)))) place fun records found ↦
          (found = none → records = []) ∧ ∀ keyword outline, found = some (keyword, outline) →
            keyword ∈ group ∧ IsRecordFor (.keyword keyword) records outline := by
      have hnone (keyword : Keyword) (outline : Outline)
          (hsome : none = some (keyword, outline)) :
          keyword ∈ group ∧ IsRecordFor (.keyword keyword) [] outline := by cases hsome
      refine recorded_optionally (recorded_firstOf fun step hstep ↦ ?_) ⟨fun _ ↦ rfl, hnone⟩
      obtain ⟨keyword, hkeyword, rfl⟩ := List.mem_map.mp hstep
      refine recorded_bind (hinner _ place) fun outline middle records _ hrecord ↦
        recorded_pure ⟨fun hnone ↦ absurd hnone (Option.some_ne_none _), ?_⟩
      rintro _ _ ⟨⟩
      rw [List.append_nil]
      exact ⟨hkeyword, hrecord⟩
    refine recorded_bind hround fun found middle records _ hrecords ↦ ?_
    split
    · obtain rfl := hrecords.1 rfl
      exact recorded_pure ⟨(List.append_nil _).symm, hsupplied, List.forall_mem_nil _⟩
    · rename_i keyword outline _
      obtain ⟨hkeyword, record, rfl, hslot, rfl⟩ := hrecords.2 keyword outline rfl
      have hname : record.name = keyword.name := by rw [Record.name, hslot]
      split
      · exact recorded_fail
      · rename_i hfresh
        have hnames : ((supplied ++ [(keyword.name, record.outline)]).map Prod.fst).Nodup := by
          simp only [List.any_eq_true, beq_iff_eq, not_exists, not_and] at hfresh
          simpa [List.nodup_append, hsupplied] using fun name other hother hsame ↦
            hfresh (name, other) hother hsame
        intro result after hresult
        obtain ⟨hleads, more, hkept, hgood, rfl, hfound, hslots⟩ := ih hnames middle result after hresult
        refine ⟨hleads, more, hkept, hgood, ?_, hfound, ?_⟩
        · simp [entries, hname]
        · exact List.forall_mem_cons.mpr ⟨⟨keyword, hkeyword, hslot⟩, hslots⟩

/-- Some parts and a literal or none make a sound record for a slot, with an outline. -/
def MakesRecord (catalog : Catalog) (slot : Slot) (place : Place) (parts : List Record)
    (outline : Outline) : Prop :=
  ∃ content, ∀ stop, IsSound catalog (.node slot place stop content parts) ∧
    Record.outline (.node slot place stop content parts) = outline

theorem recorded_root (base : Base) (place : Place) :
    Recorded good (fillParts catalog inner (.root base)) place
      (MakesRecord catalog (.root base) place) := by
  refine recorded_bind (hinner _ place) fun part middle records _ hpart ↦ ?_
  obtain ⟨record, rfl, hcall, rfl⟩ := hpart
  refine recorded_after recorded_atEnd fun _ _ _ ↦ recorded_pure ?_
  exact ⟨none, fun stop ↦ ⟨.root hcall, rfl⟩⟩

theorem recorded_call (base : Base) (place : Place) :
    Recorded good (fillParts catalog inner (.call base)) place
      (MakesRecord catalog (.call base) place) := by
  refine recorded_after (recorded_symbol "(") fun _ opened _ ↦ ?_
  dsimp only
  split
  · exact recorded_fail
  · have hchosen : Recorded good (firstOf ((catalog.operators base).map named)) opened
        fun records operator ↦ records = [] ∧ operator ∈ catalog.operators base := by
      refine recorded_firstOf fun step hstep ↦ ?_
      obtain ⟨operator, hoperator, rfl⟩ := List.mem_map.mp hstep
      exact recorded_after (recorded_word operator.name) fun _ _ _ ↦
        recorded_pure ⟨rfl, hoperator⟩
    refine recorded_bind hchosen fun operator middle records _ hrecords ↦ ?_
    obtain ⟨rfl, hoperator⟩ := hrecords
    refine recorded_before (fun _ ↦ recorded_symbol ")") ?_
    intro part after hresult
    obtain ⟨hleads, records, hkept, hgood, record, rfl, hpart, rfl⟩ :=
      hinner (.operator operator) middle part after hresult
    exact ⟨hleads, [record], hkept, hgood, none, fun stop ↦ ⟨.call hoperator hpart, rfl⟩⟩

theorem recorded_list {element : ArgType}
    (hadvances : ∀ place outline after,
      (inner (.ofArgument element) place).result = some (outline, after) →
        place.offset < after.offset) (place : Place) :
    Recorded good (fillParts catalog inner (.typed (.list element))) place
      (MakesRecord catalog (.typed (.list element)) place) := by
  refine recorded_after (recorded_symbol "(") fun _ opened _ ↦ ?_
  refine recorded_after recorded_remaining fun bound middle _ ↦ ?_
  refine recorded_before (fun _ ↦ recorded_symbol ")") ?_
  intro outlines after hresult
  obtain ⟨hleads, records, hkept, hgood, hslots, rfl⟩ :=
    recorded_repeatedly hinner hadvances (bound + 1) middle outlines after hresult
  exact ⟨hleads, records, hkept, hgood, none, fun stop ↦
    ⟨.list hslots, outline_node fun group ↦ Slot.noConfusion⟩⟩

theorem recorded_keywords (group : List Keyword) (place : Place) :
    Recorded good (fillParts catalog inner (.keywords group)) place
      (MakesRecord catalog (.keywords group) place) := by
  have hnone : (([] : List (String × Outline)).map Prod.fst).Nodup := List.nodup_nil
  refine recorded_after recorded_remaining fun bound middle _ ↦ ?_
  refine recorded_bind_pure ?_
  intro supplied after hresult
  obtain ⟨hleads, records, hkept, hgood, rfl, hnames, hslots⟩ :=
    recorded_readSupplied hinner group (bound + 1) hnone middle supplied after hresult
  refine ⟨hleads, records, hkept, hgood, none, fun stop ↦ ⟨.keywords hslots ?_, rfl⟩⟩
  rwa [List.nil_append, map_fst_entries] at hnames

theorem recorded_operator (chosen : Operator) (place : Place) :
    Recorded good (fillParts catalog inner (.operator chosen)) place
      (MakesRecord catalog (.operator chosen) place) := by
  refine recorded_bind_pure ?_
  intro outlines after hresult
  obtain ⟨hleads, records, hkept, hgood, hslots, rfl⟩ :=
    recorded_inOrder hinner chosen.slots place outlines after hresult
  exact ⟨hleads, records, hkept, hgood, none, fun stop ↦
    ⟨.operator hslots, outline_node fun group ↦ Slot.noConfusion⟩⟩

theorem recorded_keyword (own : Keyword) (place : Place) :
    Recorded good (fillParts catalog inner (.keyword own)) place
      (MakesRecord catalog (.keyword own) place) := by
  refine recorded_after (recorded_word own.marker) fun _ announced hmarker ↦ ?_
  obtain ⟨eaten, heaten⟩ : ∃ eaten, place.word? own.marker.toList = some eaten := by
    cases heaten : place.word? own.marker.toList with
    | none => simp [word, move, heaten] at hmarker
    | some eaten => exact ⟨eaten, rfl⟩
  refine recorded_bind_pure ?_
  intro value after hresult
  obtain ⟨hleads, records, hkept, hgood, record, rfl, hvalue, rfl⟩ :=
    hinner (.ofArgument own.type) announced value after hresult
  exact ⟨hleads, [record], hkept, hgood, none, fun stop ↦ ⟨.keyword heaten hvalue, rfl⟩⟩

/-- A slot that is read as one of its alternatives. -/
theorem recorded_chosen {slot : Slot} (hslot : slot.choices ≠ []) (place : Place) :
    Recorded good (fillParts catalog inner slot) place (MakesRecord catalog slot place) := by
  have hchosen : Recorded good (firstOf (slot.choices.map inner)) place fun records outline ↦
      ∃ record, records = [record] ∧ record.slot ∈ slot.choices ∧ record.outline = outline := by
    refine recorded_firstOf fun step hstep ↦ ?_
    obtain ⟨part, hpart, rfl⟩ := List.mem_map.mp hstep
    intro outline after hresult
    obtain ⟨hleads, records, hkept, hgood, record, rfl, rfl, rfl⟩ :=
      hinner part place outline after hresult
    exact ⟨hleads, [record], hkept, hgood, record, rfl, hpart, rfl⟩
  rw [fillParts_of_choices hslot]
  refine recorded_bind_pure ?_
  intro outline after hresult
  obtain ⟨hleads, records, hkept, hgood, record, rfl, hpart, rfl⟩ := hchosen outline after hresult
  refine ⟨hleads, [record], hkept, hgood, none, fun stop ↦ ⟨.chosen hpart, ?_⟩⟩
  refine outline_node ?_
  rintro group rfl
  exact absurd rfl hslot

/-- What is read for a slot is the outline of a sound record, if its parts have records. -/
theorem recorded_fillParts
    (hmoves : ∀ part place outline after,
      (inner part place).result = some (outline, after) → part.Moves place after)
    (slot : Slot) (place : Place) :
    Recorded good (fillParts catalog inner slot) place (MakesRecord catalog slot place) := by
  by_cases hslot : slot.choices = []
  · cases slot with
    | root base => exact recorded_root hinner base place
    | call base => exact recorded_call hinner base place
    | choice kind => exact absurd hslot (List.cons_ne_nil _ _)
    | typed type =>
      cases type with
      | scalar kind =>
        refine recorded_after (recorded_literal kind) fun value _ _ ↦ recorded_pure ?_
        exact ⟨some value, fun stop ↦ ⟨.scalar, rfl⟩⟩
      | series => exact recorded_fail
      | union alternatives =>
        obtain rfl : alternatives = [] := List.map_eq_nil_iff.mp hslot
        exact recorded_fail
      | list element =>
        refine recorded_list hinner (fun place outline after hread ↦ ?_) place
        exact (hmoves _ place outline after hread).2 (Slot.takesText_ofArgument element)
    | keywords group => exact recorded_keywords hinner group place
    | operator chosen => exact recorded_operator hinner chosen place
    | keyword own => exact recorded_keyword hinner own place
  · exact recorded_chosen hinner hslot place

end Parts

/-! ### Whole formulas -/

namespace Record

/-- Everything inside a record is sound and stands further on. -/
def IsSoundThroughout (catalog : Catalog) (record : Record) : Prop :=
  ∀ inside ∈ record.all, inside.IsSound catalog ∧ Leads record.start inside.start

theorem isSoundThroughout_node {catalog : Catalog} {slot : Slot} {start stop : Place}
    {content : Option Literal} {parts : List Record}
    (h : IsSound catalog (.node slot start stop content parts))
    (hparts : ∀ part ∈ parts, Leads start part.start ∧ part.IsSoundThroughout catalog) :
    (node slot start stop content parts).IsSoundThroughout catalog := by
  intro inside hinside
  rcases mem_all_iff.mp hinside with rfl | ⟨part, hpart, hinside⟩
  · exact ⟨h, leads_refl start⟩
  · obtain ⟨hleads, hsound⟩ := hparts part hpart
    exact ⟨(hsound inside hinside).1, hleads.trans (hsound inside hinside).2⟩

/-- What is held for the slot of a literal is the literal that was read where the slot begins. -/
def HoldsRead (record : Record) : Prop :=
  ∀ kind, record.slot = .typed (.scalar kind) → ∃ value after, record.content = some value ∧
    readLiteral kind record.start = .ok (value, after) ∧ record.stop = after.skipSeparators

theorem holdsRead_of_fill {catalog : Catalog} {limit room : Nat} {record : Record}
    (h : (fill catalog limit (room + 1) record.slot record.start).result =
      some (record.outline, record.stop)) : record.HoldsRead := by
  intro kind hslot
  obtain ⟨slot, start, stop, content, parts⟩ := record
  obtain rfl : slot = .typed (.scalar kind) := hslot
  rw [outline_node fun _ ↦ Slot.noConfusion] at h
  generalize parts.map outline = outlines at h
  cases result_fill_succ_iff.mp h with
  | scalar hvalue => exact ⟨_, _, rfl, hvalue, rfl⟩
  | chosen hchoices => exact absurd hchoices (Slot.choices_ne_append rfl)

/-- A record accounts for the reading of a formula: it has what the journal keeps, its places are
places of the formula, and it is sound. -/
structure IsOf (catalog : Catalog) (limit : Option Nat) (source : String) (record : Record) :
    Prop where
  events : record.events = (readFormula catalog limit source.toList).kept
  within : ∀ inside ∈ record.all, Within source.toList inside.start
  sound : ∀ inside ∈ record.all, inside.IsSound catalog

end Record

/-- What a slot with room keeps: that it was entered, what its parts keep, and that it was filled. -/
theorem kept_fill_succ {catalog : Catalog} {limit room : Nat} {slot : Slot} {place after : Place}
    {outline : Outline}
    (h : (fill catalog limit (room + 1) slot place).result = some (outline, after)) :
    (fillParts catalog (fill catalog limit room) slot place).result = some (outline, after) ∧
      (fill catalog limit (room + 1) slot place).kept =
        .entered slot place.offset ::
          ((fillParts catalog (fill catalog limit room) slot place).kept ++
            [.filled outline after.offset]) := by
  cases hparts : (fillParts catalog (fill catalog limit room) slot place).result with
  | none =>
    have hnested : (nested (fillParts catalog (fill catalog limit room) slot) place).result = none :=
      hparts
    rw [fill, bind_eq_of_some rfl, bind_eq_of_none hnested] at h
    cases h
  | some found =>
    have hnested : (nested (fillParts catalog (fill catalog limit room) slot) place).result =
      some found := hparts
    rw [fill, bind_eq_of_some rfl, bind_eq_of_some hnested, bind_eq_of_some rfl] at h ⊢
    obtain ⟨rfl, rfl⟩ := Prod.mk.inj (Option.some.inj h)
    refine ⟨rfl, ?_⟩
    simp [Outcome.kept, note, nested]

/-- The record of a slot is nested no more deeply than there is room, and holds the literals that were
read. -/
theorem recorded_fill (catalog : Catalog) (limit room : Nat) (slot : Slot) (place : Place) :
    Recorded (fun record ↦ record.IsSoundThroughout catalog ∧ record.height ≤ room ∧
        ∀ inside ∈ record.all, inside.HoldsRead)
      (fill catalog limit room slot) place (IsRecordFor slot) := by
  induction room generalizing slot place with
  | zero => exact fun _ _ hresult ↦ nomatch hresult
  | succ room ih =>
    intro outline after hresult
    obtain ⟨hparts, hkept⟩ := kept_fill_succ hresult
    obtain ⟨hleads, parts, heparts, hgood, content, hbuilt⟩ :=
      recorded_fillParts ih (fun _ _ _ _ ↦ moves_of_fill) slot place outline after hparts
    obtain ⟨hsound, rfl⟩ := hbuilt after
    refine ⟨hleads, [.node slot place after content parts], ?_, ?_, _, rfl, rfl, rfl⟩
    · rw [hkept, heparts, eventsOfAll_singleton, events]
    · have hinside : ∀ part ∈ parts, Leads place part.start ∧ part.IsSoundThroughout catalog :=
        fun part hpart ↦ (hgood part hpart).imp_right And.left
      have hheight : heightOfAll parts ≤ room :=
        heightOfAll_le_iff.mpr fun part hpart ↦ (hgood part hpart).2.2.1
      refine List.forall_mem_singleton.mpr
        ⟨leads_refl place, isSoundThroughout_node hsound hinside, Nat.succ_le_succ hheight, ?_⟩
      intro inside hmem
      rcases mem_all_iff.mp hmem with rfl | ⟨part, hpart, hmem⟩
      · exact holdsRead_of_fill hresult
      · exact (hgood part hpart).2.2.2 inside hmem

/-- The reading of a formula has a record, which is nested no more deeply than the limit allows and holds
the literals that were read. -/
theorem exists_record_holding {catalog : Catalog} {limit : Option Nat} {source : String}
    {outline : Outline} (h : parseFormula catalog limit source = .ok outline) :
    ∃ record : Record, record.IsOf catalog limit source ∧ record.outline = outline ∧
      record.height ≤ limit.getD (nestingBound catalog source.toList) ∧
        ∀ inside ∈ record.all, inside.HoldsRead := by
  obtain ⟨after, hread⟩ := parseFormula_eq_ok_iff.mp h
  obtain ⟨-, _, hkept, hgood, record, rfl, -, houtline⟩ :=
    recorded_fill catalog _ _ _ _ outline after hread
  obtain ⟨hleads, hsound, hheight, hholds⟩ := List.forall_mem_singleton.mp hgood
  rw [eventsOfAll_singleton] at hkept
  refine ⟨record, ⟨hkept.symm, fun inside hinside ↦ ?_, fun inside hinside ↦ ?_⟩, houtline, hheight,
    hholds⟩
  · have hstart : Leads (Place.start source.toList) inside.start :=
      (leads_skipSeparators _).trans (hleads.trans (hsound inside hinside).2)
    exact (within_start source.toList).of_leads hstart
  · exact (hsound inside hinside).1

/-- The reading of a formula has a record, which is nested no more deeply than the limit allows. -/
theorem exists_record_within_limit {catalog : Catalog} {limit : Option Nat} {source : String}
    {outline : Outline} (h : parseFormula catalog limit source = .ok outline) :
    ∃ record : Record, record.IsOf catalog limit source ∧ record.outline = outline ∧
      record.height ≤ limit.getD (nestingBound catalog source.toList) := by
  obtain ⟨record, hrecord, houtline, hheight, -⟩ := exists_record_holding h
  exact ⟨record, hrecord, houtline, hheight⟩

/-- The reading of a formula has a record. -/
theorem exists_record_of_parseFormula {catalog : Catalog} {limit : Option Nat} {source : String}
    {outline : Outline} (h : parseFormula catalog limit source = .ok outline) :
    ∃ record : Record, record.IsOf catalog limit source ∧ record.outline = outline := by
  obtain ⟨record, hrecord, houtline, -⟩ := exists_record_within_limit h
  exact ⟨record, hrecord, houtline⟩

end Formulary
