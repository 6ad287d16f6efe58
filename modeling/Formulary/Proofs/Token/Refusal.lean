import Formulary.Proofs.Token.Quoted
/-!
How tokens are refused. What is complained about is the token, not how deeply the formula is nested,
and the complaint does not stand behind the place where the token begins (`refusal_of_readLiteral`).
Only a string that does not end properly is refused further on (`readLiteral_eq_error`). Each kind of
literals has its own complaints (`refuses_of_readLiteral`). Main definitions: `Refusal` and
`Scalar.Refuses`.
-/

set_option autoImplicit false
set_option relaxedAutoImplicit false

namespace Formulary

open Text Place

variable {place : Place} {failure : Failure}

/-- The complaint that a formula is nested too deeply. -/
def Complaint.isTooDeep : Complaint → Bool
  | .tooDeep _ => true
  | _ => false

/-- A failure at an offset or further on that is about a token. -/
structure Refusal (offset : Nat) (failure : Failure) : Prop where
  offset_le : offset ≤ failure.offset
  aboutToken : failure.complaint.isTooDeep = false

theorem Refusal.of_le {offset offset' : Nat} (h : Refusal offset failure) (hle : offset' ≤ offset) :
    Refusal offset' failure :=
  ⟨Nat.le_trans hle h.offset_le, h.aboutToken⟩

/-! ### Numbers and truth values -/

theorem readExponent_eq_error {complaint : Complaint} (h : readExponent place = .error complaint) :
    complaint = .expectingFloat := by
  unfold readExponent at h
  split at h
  · cases h
  · dsimp only at h
    split at h
    · exact (Except.error.inj h).symm
    · cases h

theorem readNumeral_eq_error {complaint : Complaint} (h : readNumeral place = .error complaint) :
    complaint = .expectingNumber ∨ complaint = .expectingFloat := by
  simp only [readNumeral] at h
  split at h
  · exact .inl (Except.error.inj h).symm
  · split at h
    · rename_i found hexponent
      obtain rfl := Except.error.inj h
      exact .inr (readExponent_eq_error hexponent)
    · cases h

theorem readInt_eq_error (h : readInt place = .error failure) :
    failure = ⟨place.offset, .expectingInt⟩ := by
  unfold readInt at h
  split at h
  · exact (Except.error.inj h).symm
  · split at h
    · exact (Except.error.inj h).symm
    · split at h
      · cases h
      · exact (Except.error.inj h).symm

theorem readNumber_eq_error (h : readNumber place = .error failure) :
    failure = ⟨place.offset, .expectingNumber⟩ ∨ failure = ⟨place.offset, .expectingFloat⟩ := by
  unfold readNumber at h
  split at h
  · rename_i complaint hnumeral
    obtain rfl := Except.error.inj h
    exact (readNumeral_eq_error hnumeral).imp (congrArg (Failure.mk place.offset))
      (congrArg (Failure.mk place.offset))
  · split at h
    · cases h
    · exact .inl (Except.error.inj h).symm

theorem readBool_eq_error (h : readBool place = .error failure) :
    failure = ⟨place.offset, .expecting "boolean"⟩ := by
  unfold readBool at h
  split at h
  · cases h
  · split at h
    · cases h
    · exact (Except.error.inj h).symm

/-! ### Strings -/

theorem refusal_of_readStringBody {offset : Nat} {text : List Char}
    (h : readStringBody offset text = .error failure) : Refusal offset failure := by
  fun_induction readStringBody offset text with
  | case1 =>
    obtain rfl := Except.error.inj h
    exact ⟨Nat.le_refl _, rfl⟩
  | case2 | case3 =>
    obtain rfl := Except.error.inj h
    exact ⟨Nat.le_succ _, rfl⟩
  | case4 _ _ _ _ _ found hfound ih | case7 _ _ _ _ _ _ found hfound ih =>
    obtain rfl := Except.error.inj h
    exact (ih hfound).of_le (Nat.le_add_right _ _)
  | case5 | case6 | case8 => cases h

theorem refusal_of_readQuoted {what : String} (h : readQuoted what place = .error failure) :
    Refusal place.offset failure := by
  unfold readQuoted at h
  split at h
  · obtain rfl := Except.error.inj h
    exact ⟨Nat.le_refl _, rfl⟩
  · rename_i opened hopened
    have hahead := (leads_of_eat? hopened).offset_le
    split at h
    · rename_i hbody
      obtain rfl := Except.error.inj h
      exact (refusal_of_readStringBody hbody).of_le hahead
    · rename_i body after hbody
      split at h
      · cases h
      · obtain rfl := Except.error.inj h
        exact ⟨Nat.le_trans hahead (quotedBody_of_readStringBody hbody).2.offset_le, rfl⟩

/-- What does not begin with a quote is no string from the start. -/
theorem offset_of_readQuoted_error {what : String}
    (hplace : ∀ rest, place.rest ≠ '"' :: rest) (h : readQuoted what place = .error failure) :
    failure.offset = place.offset := by
  unfold readQuoted at h
  split at h
  · obtain rfl := Except.error.inj h
    rfl
  · rename_i opened hopened
    exact absurd (eat?_eq_some hopened).1 (hplace opened.rest)

theorem readTimestamp_eq_error (h : readTimestamp place = .error failure) :
    (∃ text, failure = ⟨place.offset, .invalidTimestamp text⟩) ∨
      readQuoted "timestamp" place = .error failure := by
  unfold readTimestamp at h
  split at h
  · rename_i hquoted
    obtain rfl := Except.error.inj h
    exact .inr hquoted
  · split at h
    · cases h
    · exact .inl ⟨_, (Except.error.inj h).symm⟩

/-! ### Literals -/

/-- A literal is refused where it begins, unless it is a string that is refused as such. -/
theorem readLiteral_eq_error {kind : Scalar} (h : readLiteral kind place = .error failure) :
    (failure.offset = place.offset ∧ failure.complaint.isTooDeep = false) ∨
      ∃ what, readQuoted what place = .error failure := by
  cases kind with
  | int =>
    obtain rfl := readInt_eq_error (map_eq_error_iff.mp h)
    exact .inl ⟨rfl, rfl⟩
  | number =>
    obtain rfl | rfl := readNumber_eq_error (map_eq_error_iff.mp h)
    · exact .inl ⟨rfl, rfl⟩
    · exact .inl ⟨rfl, rfl⟩
  | string => exact .inr ⟨_, map_eq_error_iff.mp h⟩
  | bool =>
    obtain rfl := readBool_eq_error (map_eq_error_iff.mp h)
    exact .inl ⟨rfl, rfl⟩
  | timestamp =>
    obtain ⟨text, rfl⟩ | hquoted := readTimestamp_eq_error (map_eq_error_iff.mp h)
    · exact .inl ⟨rfl, rfl⟩
    · exact .inr ⟨_, hquoted⟩

theorem refusal_of_readLiteral {kind : Scalar} (h : readLiteral kind place = .error failure) :
    Refusal place.offset failure := by
  obtain ⟨hoffset, habout⟩ | ⟨what, hquoted⟩ := readLiteral_eq_error h
  · exact ⟨Nat.le_of_eq hoffset.symm, habout⟩
  · exact refusal_of_readQuoted hquoted

/-! ### Why literals are refused -/

/-- The complaints with which a literal of a kind can be refused. -/
inductive Scalar.Refuses : Scalar → Complaint → Prop
  | int : Refuses .int .expectingInt
  | number : Refuses .number .expectingNumber
  | exponent : Refuses .number .expectingFloat
  | string : Refuses .string (.expecting "string")
  | bool : Refuses .bool (.expecting "boolean")
  | timestamp : Refuses .timestamp (.expecting "timestamp")
  | invalid (text : String) : Refuses .timestamp (.invalidTimestamp text)
  | unclosed {kind : Scalar} (hkind : kind = .string ∨ kind = .timestamp) :
      Refuses kind (.expectingSymbol "\"")
  | unexpected {kind : Scalar} (hkind : kind = .string ∨ kind = .timestamp) :
      Refuses kind .unexpectedCharacter

theorem complaint_of_readStringBody {offset : Nat} {text : List Char}
    (h : readStringBody offset text = .error failure) :
    failure.complaint = .expectingSymbol "\"" ∨ failure.complaint = .unexpectedCharacter := by
  fun_induction readStringBody offset text with
  | case1 =>
    obtain rfl := Except.error.inj h
    exact .inl rfl
  | case2 | case3 =>
    obtain rfl := Except.error.inj h
    exact .inr rfl
  | case4 _ _ _ _ _ found hfound ih | case7 _ _ _ _ _ _ found hfound ih =>
    obtain rfl := Except.error.inj h
    exact ih hfound
  | case5 | case6 | case8 => cases h

theorem complaint_of_readQuoted {what : String} (h : readQuoted what place = .error failure) :
    failure.complaint = .expecting what ∨ failure.complaint = .expectingSymbol "\"" ∨
      failure.complaint = .unexpectedCharacter := by
  unfold readQuoted at h
  split at h
  · obtain rfl := Except.error.inj h
    exact .inl rfl
  · split at h
    · rename_i hbody
      obtain rfl := Except.error.inj h
      exact .inr (complaint_of_readStringBody hbody)
    · split at h
      · cases h
      · obtain rfl := Except.error.inj h
        exact .inr (.inr rfl)

theorem refuses_of_readLiteral {kind : Scalar} (h : readLiteral kind place = .error failure) :
    kind.Refuses failure.complaint := by
  have hquoted {what : String} (hkind : kind = .string ∨ kind = .timestamp)
      (hnone : kind.Refuses (.expecting what)) (hread : readQuoted what place = .error failure) :
      kind.Refuses failure.complaint := by
    rcases complaint_of_readQuoted hread with hcomplaint | hcomplaint | hcomplaint
    · exact hcomplaint ▸ hnone
    · exact hcomplaint ▸ .unclosed hkind
    · exact hcomplaint ▸ .unexpected hkind
  cases kind with
  | int =>
    obtain rfl := readInt_eq_error (map_eq_error_iff.mp h)
    exact .int
  | number =>
    obtain rfl | rfl := readNumber_eq_error (map_eq_error_iff.mp h)
    · exact .number
    · exact .exponent
  | string => exact hquoted (.inl rfl) .string (map_eq_error_iff.mp h)
  | bool =>
    obtain rfl := readBool_eq_error (map_eq_error_iff.mp h)
    exact .bool
  | timestamp =>
    obtain ⟨text, rfl⟩ | hread := readTimestamp_eq_error (map_eq_error_iff.mp h)
    · exact .invalid text
    · exact hquoted (.inr rfl) .timestamp hread

/-! ### Where literals are refused -/

theorem exists_leads_of_readStringBody {offset : Nat} {text : List Char}
    (h : readStringBody offset text = .error failure) :
    ∃ stop, Leads ⟨offset, text⟩ stop ∧ stop.offset = failure.offset := by
  fun_induction readStringBody offset text with
  | case1 =>
    obtain rfl := Except.error.inj h
    exact ⟨_, leads_refl _, rfl⟩
  | case2 | case3 =>
    obtain rfl := Except.error.inj h
    exact ⟨_, leads_cons _ '\\' _, rfl⟩
  | case4 offset letter rest character hletter found hfound ih =>
    obtain rfl := Except.error.inj h
    obtain ⟨stop, hstop, hoffset⟩ := ih hfound
    exact ⟨stop, (leads_escape hletter offset rest).trans hstop, hoffset⟩
  | case7 offset character rest _ _ _ found hfound ih =>
    obtain rfl := Except.error.inj h
    obtain ⟨stop, hstop, hoffset⟩ := ih hfound
    exact ⟨stop, (leads_cons offset character rest).trans hstop, hoffset⟩
  | case5 | case6 | case8 => cases h

theorem exists_leads_of_readQuoted {what : String} (h : readQuoted what place = .error failure) :
    ∃ stop, Leads place stop ∧ stop.offset = failure.offset := by
  unfold readQuoted at h
  split at h
  · obtain rfl := Except.error.inj h
    exact ⟨place, leads_refl place, rfl⟩
  · rename_i opened hopened
    have hahead := leads_of_eat? hopened
    split at h
    · rename_i hbody
      obtain rfl := Except.error.inj h
      obtain ⟨stop, hstop, hoffset⟩ := exists_leads_of_readStringBody hbody
      exact ⟨stop, hahead.trans hstop, hoffset⟩
    · rename_i body after hbody
      split at h
      · cases h
      · obtain rfl := Except.error.inj h
        exact ⟨after, hahead.trans (quotedBody_of_readStringBody hbody).2, rfl⟩

/-- A literal is refused at a place that the reading came to. -/
theorem exists_leads_of_readLiteral {kind : Scalar} (h : readLiteral kind place = .error failure) :
    ∃ stop, Leads place stop ∧ stop.offset = failure.offset := by
  obtain ⟨hoffset, -⟩ | ⟨what, hquoted⟩ := readLiteral_eq_error h
  · exact ⟨place, leads_refl place, hoffset.symm⟩
  · exact exists_leads_of_readQuoted hquoted

end Formulary
