import Formulary.Proofs.Cursor.Boundary
import Formulary.Proofs.Formula.Complaints
/-!
What complaints quote. A complaint shows words of its own and, between them, a text that it quotes. That
text is a symbol or a word of the language, or the name of an operator or of a keyword argument that was
declared, or what stands between quotes where a timestamp is asked for. So a complaint quotes a newline only
if a declared name has one, or if it refuses such a timestamp of the formula (`brings_or_noTimestampAt`).
Main definitions: `Complaint.quoted`, `Operator.Brings` and `NoTimestampAt`.
-/

set_option autoImplicit false
set_option relaxedAutoImplicit false

namespace Formulary

open Text Place Reading

variable {operators : List Operator} {slot part : Slot} {complaint : Complaint}

/-- The text that a complaint quotes. -/
def Complaint.quoted : Complaint → List Char
  | .expecting what => what.toList
  | .expectingSymbol symbol => symbol.toList
  | .expectingKeyword keyword | .duplicateKeyword keyword => keyword.toList
  | .invalidTimestamp text => text.toList
  | .expectingInt | .expectingFloat | .expectingNumber | .expectingEnd | .unexpectedCharacter
  | .noOperator _ | .seriesLiteral | .tooDeep _ => []

/-! ### Declared names -/

/-- The complaints that are about the name of an operator or of a keyword argument of it. -/
inductive Operator.Brings (operator : Operator) : Complaint → Prop
  | name : Brings operator (.expectingKeyword operator.name)
  | marker {own : Keyword} (h : own ∈ operator.keywords) :
      Brings operator (.expectingKeyword own.marker)
  | again {own : Keyword} (h : own ∈ operator.keywords) :
      Brings operator (.duplicateKeyword own.marker)

namespace Slot

/-- The keyword arguments that are read in a slot, those below the next use of an operator left out. -/
def keywordsWithin : Slot → List Keyword
  | .root _ | .call _ | .choice _ | .typed _ => []
  | .keywords group => group
  | .operator chosen => chosen.keywords
  | .keyword own => [own]

/-- All keyword arguments that are read in a slot belong to declared operators. -/
def IsDeclared (operators : List Operator) (slot : Slot) : Prop :=
  ∀ own ∈ slot.keywordsWithin, ∃ operator ∈ operators, own ∈ operator.keywords

theorem isDeclared_of_eq_nil (h : slot.keywordsWithin = []) : slot.IsDeclared operators := by
  rw [IsDeclared, h]
  exact fun _ hnone ↦ absurd hnone List.not_mem_nil

theorem isDeclared_ofArgument (type : ArgType) : (ofArgument type).IsDeclared operators :=
  isDeclared_of_eq_nil (by cases type <;> rfl)

theorem IsDeclared.of_hasPart (h : slot.IsDeclared operators)
    (hpart : slot.HasPart (.ofList operators) part) : part.IsDeclared operators := by
  cases hpart with
  | result | literal | application => exact isDeclared_of_eq_nil rfl
  | chosen hoperator =>
    exact fun own hown ↦ ⟨_, Catalog.mem_of_mem_operators hoperator, hown⟩
  | alternative | element | value => exact isDeclared_ofArgument _
  | supplied hkeyword => exact List.forall_mem_singleton.mpr (h _ hkeyword)
  | operand hoperand =>
    rcases List.mem_append.mp hoperand with hparameter | hgroup
    · obtain ⟨type, -, rfl⟩ := List.mem_map.mp hparameter
      exact isDeclared_ofArgument type
    · split at hgroup
      · exact absurd hgroup List.not_mem_nil
      · rw [List.mem_singleton.mp hgroup]
        exact h

theorem IsDeclared.of_reaches (h : slot.IsDeclared operators)
    (hreaches : slot.Reaches (.ofList operators) part) : part.IsDeclared operators := by
  induction hreaches with
  | refl => exact h
  | tail _ hpart ih => exact ih.of_hasPart hpart

end Slot

/-- The symbols and words of the language have no newline. So what a slot complains about quotes one only
from a declared name, or from a timestamp. -/
theorem Slot.Complains.brings_or_invalidTimestamp (h : slot.Complains (.ofList operators) complaint)
    (hslot : slot.IsDeclared operators) (hnewline : '\n' ∈ complaint.quoted) :
    (∃ operator ∈ operators, operator.Brings complaint) ∨
      ∃ text, complaint = .invalidTimestamp text := by
  cases h with
  | rest | noOperator | series => exact absurd hnewline List.not_mem_nil
  | opening | closing | openingList | closingList | noAlternative => exact absurd hnewline (by decide)
  | name hoperator => exact .inl ⟨_, Catalog.mem_of_mem_operators hoperator, .name⟩
  | token hrefuses =>
    cases hrefuses with
    | int | number | exponent | unexpected => exact absurd hnewline List.not_mem_nil
    | string | bool | timestamp | unclosed => exact absurd hnewline (by decide)
    | invalid text => exact .inr ⟨text, rfl⟩
  | duplicate hown =>
    obtain ⟨operator, hoperator, hkeyword⟩ := hslot _ hown
    exact .inl ⟨operator, hoperator, .again hkeyword⟩
  | marker own =>
    obtain ⟨operator, hoperator, hkeyword⟩ := hslot own (List.mem_singleton.mpr rfl)
    exact .inl ⟨operator, hoperator, .marker hkeyword⟩

/-! ### Timestamps -/

/-- At an offset of a text a quote opens, what stands behind it up to the closing quote stands for some
characters, and these denote no timestamp. -/
def NoTimestampAt (text : List Char) (offset : Nat) (body : List Char) : Prop :=
  ∃ quoted rest, Within text ⟨offset, '"' :: quoted⟩ ∧ QuotedBody quoted body rest ∧
    Timestamp.ofFormulaText? body = none

/-- If an event is a complaint about a timestamp, the text has at its offset what is no timestamp. -/
def Event.ShowsTimestamp (text : List Char) (event : Event) : Prop :=
  ∀ offset shown, event = .failed ⟨offset, .invalidTimestamp shown⟩ →
    NoTimestampAt text offset shown.toList

variable {text : List Char} {place : Place}

theorem showsTimestamp_failed (h : complaint.isInvalidTimestamp = false) (offset : Nat) :
    Event.ShowsTimestamp text (.failed ⟨offset, complaint⟩) := by
  rintro _ shown ⟨⟩
  cases h

theorem noTimestampAt_of_readTimestamp {offset : Nat} {shown : String} (hplace : Within text place)
    (h : readTimestamp place = .error ⟨offset, .invalidTimestamp shown⟩) :
    NoTimestampAt text offset shown.toList := by
  unfold readTimestamp at h
  split at h
  · rename_i hquoted
    obtain rfl := Except.error.inj h
    obtain hother | hother | hother := complaint_of_readQuoted hquoted <;> cases hother
  · rename_i body after hquoted
    split at h
    · cases h
    · rename_i hnone
      cases h
      obtain ⟨⟨quoted, hrest, hbody⟩, -, -⟩ := readQuoted_eq_ok hquoted
      rw [String.toList_ofList]
      refine ⟨quoted, after.rest, ?_, hbody, hnone⟩
      rw [← hrest]
      exact hplace

theorem showsTimestamp_of_readLiteral {kind : Scalar} {failure : Failure} (hplace : Within text place)
    (h : readLiteral kind place = .error failure) :
    Event.ShowsTimestamp text (.failed failure) := by
  rintro offset shown ⟨⟩
  cases refuses_of_readLiteral h with
  | invalid => exact noTimestampAt_of_readTimestamp hplace (map_eq_error_iff.mp h)

/-- Wherever the reading stands in the text, complaints about timestamps are about what stands there. -/
theorem upholds_showsTimestamp (text : List Char) : Upholds (Event.ShowsTimestamp text) (Within text) where
  symbol _ place hplace :=
    ensures_move (showsTimestamp_failed rfl place.offset) fun after heaten ↦
      hplace.of_leads ((leads_of_eat? heaten).trans (leads_skipSeparators after))
  word _ place hplace :=
    ensures_move (showsTimestamp_failed rfl place.offset) fun after hnamed ↦
      hplace.of_leads ((leads_of_eat? (word?_eq_some_iff.mp hnamed).1).trans
        (leads_skipSeparators after))
  literal _ _ hplace :=
    ensures_literal (fun _ hfailure ↦ showsTimestamp_of_readLiteral hplace hfailure) fun _ after hvalue ↦
      hplace.of_leads ((advances_of_readLiteral hvalue).1.trans (leads_skipSeparators after))
  failed hother place _ := showsTimestamp_failed hother place.offset
  backtracked _ := by
    rintro _ _ ⟨⟩

theorem ensures_showsTimestamp_fill (catalog : Catalog) (limit room : Nat) (slot : Slot)
    (hplace : Within text place) :
    Ensures (fill catalog limit room slot) place (Event.ShowsTimestamp text)
      fun _ after ↦ Within text after := by
  have hquiet (event : Event) (h : ∀ failure, event ≠ .failed failure) :
      Event.ShowsTimestamp text event := fun _ _ hfailed ↦ absurd hfailed (h _)
  induction room generalizing slot place with
  | zero => exact ensures_fill_zero (hquiet _ (by simp)) (showsTimestamp_failed rfl _)
  | succ room ih =>
    have hparts := (upholds_showsTimestamp text).fillParts catalog (fun part _ _ ↦ ih part) slot hplace
    exact ensures_fill_of_parts (hquiet _ (by simp))
      (hparts.mono fun outline after hafter ↦ ⟨hquiet _ (by simp), hafter⟩)

/-! ### Whole formulas -/

/-- A complaint about a formula quotes a newline only if one of the names has it that were declared, or if
it refuses a timestamp of the formula. -/
theorem brings_or_noTimestampAt {limit : Option Nat} {offset : Nat}
    (h : .failed ⟨offset, complaint⟩ ∈ (readFormula (.ofList operators) limit text).events)
    (hnewline : '\n' ∈ complaint.quoted) :
    (∃ operator ∈ operators, operator.Brings complaint) ∨
      ∃ body, complaint = .invalidTimestamp (String.ofList body) ∧ NoTimestampAt text offset body := by
  rcases (ensures_fill_explained _ _ _ _ _).events _ h with hdeep | ⟨slot, hreaches, hcomplains⟩
  · obtain rfl : complaint = .tooDeep _ := hdeep
    exact absurd hnewline List.not_mem_nil
  have hroot : (Slot.root .series).IsDeclared operators := Slot.isDeclared_of_eq_nil rfl
  refine (hcomplains.brings_or_invalidTimestamp (hroot.of_reaches hreaches) hnewline).imp_right ?_
  rintro ⟨shown, rfl⟩
  have hstart : Within text (start text).skipSeparators :=
    (within_start text).of_leads (leads_skipSeparators _)
  refine ⟨shown.toList, by rw [String.ofList_toList], ?_⟩
  exact (ensures_showsTimestamp_fill _ _ _ _ hstart).events _ h _ _ rfl

end Formulary
