import Formulary.Proofs.Token.Movement
/-!
Strings between quotes. `QuotedBody` says by rules what stands between two quotes and which
characters it stands for; `quotedBody_of_readStringBody` and `readStringBody_of_quotedBody` say that
reading finds exactly that. Writing a string and reading it gives the string back
(`quotedBody_escaped`).
-/

set_option autoImplicit false
set_option relaxedAutoImplicit false

namespace Formulary

open Text Place

variable {place after : Place}

/-- What a text has up to a closing quote, the characters that it stands for, and what comes after
the quote. -/
inductive QuotedBody : List Char → List Char → List Char → Prop
  | close (rest : List Char) : QuotedBody ('"' :: rest) [] rest
  | escape {letter character : Char} {text body rest : List Char}
      (hletter : unescaped? letter = some character) (hbody : QuotedBody text body rest) :
      QuotedBody ('\\' :: letter :: text) (character :: body) rest
  | plain {character : Char} {text body rest : List Char} (hquote : character ≠ '"')
      (hbackslash : character ≠ '\\') (hbody : QuotedBody text body rest) :
      QuotedBody (character :: text) (character :: body) rest

theorem utf8Size_of_unescaped? {letter character : Char}
    (h : unescaped? letter = some character) : letter.utf8Size = 1 := by
  unfold unescaped? at h
  split at h <;> first | rfl | exact nomatch h

theorem leads_cons (offset : Nat) (character : Char) (text : List Char) :
    Leads ⟨offset, character :: text⟩ ⟨offset + character.utf8Size, text⟩ :=
  ⟨[character], rfl, by simp⟩

theorem leads_escape {letter character : Char} (h : unescaped? letter = some character)
    (offset : Nat) (text : List Char) :
    Leads ⟨offset, '\\' :: letter :: text⟩ ⟨offset + 2, text⟩ := by
  have hsizes : ('\\' : Char).utf8Size = 1 ∧ letter.utf8Size = 1 := ⟨rfl, utf8Size_of_unescaped? h⟩
  exact ⟨['\\', letter], rfl, by simp [hsizes]⟩

theorem quotedBody_of_readStringBody {offset : Nat} {text body : List Char}
    (h : readStringBody offset text = .ok (body, after)) :
    QuotedBody text body after.rest ∧ Leads ⟨offset, text⟩ after := by
  fun_induction readStringBody offset text generalizing body with
  | case1 | case2 | case3 | case4 | case7 => exact nomatch h
  | case5 offset letter rest character hletter tail after' htail ih =>
    obtain ⟨rfl, rfl⟩ : character :: tail = body ∧ after' = after := by simpa using h
    obtain ⟨hbody, hleads⟩ := ih htail
    exact ⟨.escape hletter hbody, (leads_escape hletter offset rest).trans hleads⟩
  | case6 offset rest =>
    obtain ⟨rfl, rfl⟩ : [] = body ∧ Place.mk (offset + 1) rest = after := by simpa using h
    exact ⟨.close rest, leads_cons offset '"' rest⟩
  | case8 offset character rest hend hescaped hquote tail after' htail ih =>
    obtain ⟨rfl, rfl⟩ : character :: tail = body ∧ after' = after := by simpa using h
    obtain ⟨hbody, hleads⟩ := ih htail
    have hbackslash : character ≠ '\\' := by
      rintro rfl
      cases rest with
      | nil => exact hend rfl rfl
      | cons letter rest => exact hescaped letter rest rfl rfl
    exact ⟨.plain hquote hbackslash hbody, (leads_cons offset character rest).trans hleads⟩

theorem readStringBody_of_quotedBody {text body rest : List Char}
    (h : QuotedBody text body rest) (offset : Nat) :
    ∃ after, readStringBody offset text = .ok (body, after) ∧ after.rest = rest := by
  induction h generalizing offset with
  | close rest => exact ⟨⟨offset + 1, rest⟩, by simp [readStringBody], rfl⟩
  | @escape letter character text body rest hletter hbody ih =>
    obtain ⟨after, hread, hrest⟩ := ih (offset + 2)
    exact ⟨after, by simp only [readStringBody, hletter, hread], hrest⟩
  | @plain character text body rest hquote hbackslash hbody ih =>
    obtain ⟨after, hread, hrest⟩ := ih (offset + character.utf8Size)
    refine ⟨after, ?_, hrest⟩
    rw [readStringBody]
    · simp only [if_neg hquote, hread]
    · rintro rfl
      exact absurd rfl hbackslash
    · rintro _ _ rfl
      exact absurd rfl hbackslash

theorem QuotedBody.unique {text body rest body' rest' : List Char} (h : QuotedBody text body rest)
    (h' : QuotedBody text body' rest') : body = body' ∧ rest = rest' := by
  obtain ⟨after, hread, rfl⟩ := readStringBody_of_quotedBody h 0
  obtain ⟨after', hread', rfl⟩ := readStringBody_of_quotedBody h' 0
  rw [hread] at hread'
  obtain ⟨rfl, rfl⟩ : body = body' ∧ after = after' := by simpa using hread'
  exact ⟨rfl, rfl⟩

theorem QuotedBody.suffix {text body rest : List Char} (h : QuotedBody text body rest) :
    rest <:+ text := by
  induction h with
  | close rest => exact List.suffix_cons _ _
  | escape hletter hbody ih =>
    exact ih.trans ((List.suffix_cons _ _).trans (List.suffix_cons _ _))
  | plain hquote hbackslash hbody ih => exact ih.trans (List.suffix_cons _ _)

/-- A body takes at least its closing quote off the text. -/
theorem QuotedBody.length_lt {text body rest : List Char} (h : QuotedBody text body rest) :
    rest.length < text.length := by
  induction h with
  | close rest => exact Nat.lt_succ_self _
  | escape hletter hbody ih => exact Nat.lt_succ_of_lt (Nat.lt_succ_of_lt ih)
  | plain hquote hbackslash hbody ih => exact Nat.lt_succ_of_lt ih

/-- The written form of a string reads back in front of any text. -/
theorem quotedBody_escaped (body rest : List Char) :
    QuotedBody (body.flatMap Literal.escaped ++ '"' :: rest) body rest := by
  induction body with
  | nil => exact .close rest
  | cons character body ih =>
    rw [List.flatMap_cons, List.append_assoc]
    unfold Literal.escaped
    split
    · exact .escape rfl ih
    · exact .escape rfl ih
    · exact .escape rfl ih
    · exact .escape rfl ih
    · exact .escape rfl ih
    · exact .plain ‹_› ‹_› ih

/-- Without quotes and backslashes, characters stand for themselves. -/
theorem quotedBody_plain {body : List Char}
    (h : ∀ character ∈ body, character ≠ '"' ∧ character ≠ '\\') (rest : List Char) :
    QuotedBody (body ++ '"' :: rest) body rest := by
  induction body with
  | nil => exact .close rest
  | cons character body ih =>
    rw [List.forall_mem_cons] at h
    exact .plain h.1.1 h.1.2 (ih h.2)

/-! ### Literals -/

/-- A string opens with a quote, and a delimiter comes after its closing one. -/
theorem readQuoted_eq_ok {what : String} {body : List Char}
    (h : readQuoted what place = .ok (body, after)) :
    (∃ text, place.rest = '"' :: text ∧ QuotedBody text body after.rest) ∧
      isDelimited after.rest = true ∧ Advances place after := by
  unfold readQuoted at h
  split at h
  · exact nomatch h
  · rename_i opened hopened
    split at h
    · exact nomatch h
    · rename_i found rest hbody
      split at h
      · rename_i hends
        obtain ⟨rfl, rfl⟩ : found = body ∧ rest = after := by simpa using h
        obtain ⟨hquoted, hleads⟩ := quotedBody_of_readStringBody hbody
        exact ⟨⟨opened.rest, (eat?_eq_some hopened).1, hquoted⟩, hends,
          (advances_of_eat? (List.cons_ne_nil _ _) hopened).trans_leads hleads⟩
      · exact nomatch h

theorem readQuoted_of_quotedBody {text body rest : List Char} (h : QuotedBody text body rest)
    (hends : isDelimited rest = true) (what : String) (offset : Nat) :
    ∃ after, readQuoted what ⟨offset, '"' :: text⟩ = .ok (body, after) ∧ after.rest = rest := by
  obtain ⟨after, hbody, rfl⟩ := readStringBody_of_quotedBody h (offset + byteLength ['"'])
  refine ⟨after, ?_, rfl⟩
  have hopened := eat?_append offset ['"'] text
  rw [List.singleton_append] at hopened
  simp only [readQuoted, hopened, hbody, hends, if_true]

/-- A truth value is one of two words. -/
theorem readBool_eq_ok_iff {value : Bool} :
    readBool place = .ok (value, after) ↔
      place.word? (if value then ['#', 't'] else ['#', 'f']) = some after := by
  have hdisjoint {first second : Place} (htrue : place.word? ['#', 't'] = some first)
      (hfalse : place.word? ['#', 'f'] = some second) : False := by
    have hfirst := (eat?_eq_some (word?_eq_some_iff.mp htrue).1).1
    have hsecond := (eat?_eq_some (word?_eq_some_iff.mp hfalse).1).1
    simp [hfirst] at hsecond
  unfold readBool
  cases htrue : place.word? ['#', 't'] with
  | some first =>
    cases value with
    | true => simp [htrue]
    | false => simpa using fun hfalse ↦ hdisjoint htrue hfalse
  | none =>
    cases hfalse : place.word? ['#', 'f'] <;> cases value <;> simp [htrue, hfalse]

theorem readTimestamp_eq_ok_iff {value : Timestamp} :
    readTimestamp place = .ok (value, after) ↔
      ∃ body, readQuoted "timestamp" place = .ok (body, after) ∧
        Timestamp.ofFormulaText? body = some value := by
  unfold readTimestamp
  cases readQuoted "timestamp" place with
  | error => simp
  | ok read =>
    obtain ⟨body, rest⟩ := read
    dsimp only
    cases hfound : Timestamp.ofFormulaText? body with
    | none => simp [hfound]
    | some found =>
      simp only [Except.ok.injEq, Prod.mk.injEq]
      constructor
      · rintro ⟨rfl, rfl⟩
        exact ⟨body, ⟨rfl, rfl⟩, hfound⟩
      · rintro ⟨_, ⟨rfl, rfl⟩, hvalue⟩
        exact ⟨Option.some.inj (hfound.symm.trans hvalue), rfl⟩

theorem map_eq_ok_iff {α β : Type} {token : Token α} {wrap : α → β} {value : β} :
    (token.map fun (found, rest) ↦ (wrap found, rest)) = .ok (value, after) ↔
      ∃ found, token = .ok (found, after) ∧ wrap found = value := by
  cases token with
  | error failure => simp [Except.map]
  | ok read =>
    obtain ⟨found, rest⟩ := read
    simp only [Except.map, Except.ok.injEq, Prod.mk.injEq]
    constructor
    · rintro ⟨hvalue, rfl⟩
      exact ⟨found, ⟨rfl, rfl⟩, hvalue⟩
    · rintro ⟨_, ⟨rfl, rfl⟩, hvalue⟩
      exact ⟨hvalue, rfl⟩

theorem map_eq_error_iff {α β : Type} {token : Token α} {wrap : α × Place → β × Place}
    {failure : Failure} : token.map wrap = .error failure ↔ token = .error failure := by
  cases token <;> simp [Except.map]

theorem readLiteral_string_eq_ok_iff {value : Literal} :
    readLiteral .string place = .ok (value, after) ↔
      ∃ body, readQuoted "string" place = .ok (body, after) ∧
        Literal.string (String.ofList body) = value :=
  @map_eq_ok_iff after _ _ (readQuoted "string" place)
    (fun body ↦ Literal.string (String.ofList body)) value

/-- Every literal gets the reading further. -/
theorem advances_of_readLiteral {kind : Scalar} {value : Literal}
    (h : readLiteral kind place = .ok (value, after)) : Advances place after := by
  cases kind with
  | int =>
    obtain ⟨found, hfound, -⟩ := map_eq_ok_iff.mp h
    obtain ⟨numeral, hnumeral, -⟩ := readInt_eq_ok_iff.mp hfound
    exact (leadsOver_of_readNumeral hnumeral).2
  | number =>
    obtain ⟨found, hfound, -⟩ := map_eq_ok_iff.mp h
    obtain ⟨numeral, hnumeral, -⟩ := readNumber_eq_ok_iff.mp hfound
    exact (leadsOver_of_readNumeral hnumeral).2
  | string =>
    obtain ⟨found, hfound⟩ := readLiteral_string_eq_ok_iff.mp h
    exact (readQuoted_eq_ok hfound.1).2.2
  | bool =>
    obtain ⟨found, hfound, -⟩ := map_eq_ok_iff.mp h
    have heaten := (word?_eq_some_iff.mp (readBool_eq_ok_iff.mp hfound)).1
    refine advances_of_eat? ?_ heaten
    cases found <;> exact List.cons_ne_nil _ _
  | timestamp =>
    obtain ⟨found, hfound, -⟩ := map_eq_ok_iff.mp h
    obtain ⟨body, hbody, -⟩ := readTimestamp_eq_ok_iff.mp hfound
    exact (readQuoted_eq_ok hbody).2.2

end Formulary
