import Formulary.Proofs.Cursor.Basic
import Formulary.Proofs.Token.Numeral
import Formulary.Proofs.Token.Quoted
/-!
Tokens at a cursor. Each token has a reader that knows nothing but the cursor, with its loops as they
are and with all its cuts of the text. Where the cursor stands at a place of the text, these readers come
to an end and find what is read at the place (`readLiteral_of_within`). Main definitions:
`Cursor.skipSeparators`, `Cursor.word` and `Cursor.readLiteral`.
-/

set_option autoImplicit false
set_option relaxedAutoImplicit false

namespace Formulary.Cursor

open Text Place

section Tokens

variable (text : List Char)

/-! ### Blanks and words -/

/-- The cursor moved past blanks and comments. -/
def skipSeparators : (rounds offset : Nat) → Option Nat
  | 0, _ => none
  | rounds + 1, offset => do
    match ← peek text offset with
    | none => some offset
    | some character =>
      if isBlank character then
        let after ← advance text offset
        skipSeparators rounds after
      else if character = ';' then
        let after ← skipWhile text (· != '\n') (rounds + 1) offset
        skipSeparators rounds after
      else
        some offset

/-- Whether a token ends at the cursor. -/
def atDelimiter (offset : Nat) : Option Bool := do
  match ← peek text offset with
  | none => some true
  | some character => some (isDelimited [character])

/-- The cursor moved past a word, if the word comes next and ends there. -/
def word (name : List Char) (offset : Nat) : Option (Option Nat) := do
  match ← eat text name offset with
  | none => some none
  | some after =>
    if ← atDelimiter text after then
      some (some after)
    else
      some none

/-! ### Numbers -/

/-- Moves past a fraction, if there is one. -/
def scanFraction (rounds offset : Nat) : Option Nat := do
  let pointed ← skipOne text (· == '.') offset
  if pointed = offset then
    some offset
  else
    skipWhile text Char.isDigit rounds pointed

/-- Moves past an exponent, if there is one, and says so. -/
def scanExponent (rounds offset : Nat) : Option (Except Complaint Bool × Nat) := do
  let marked ← skipOne text (fun character ↦ character == 'e' || character == 'E') offset
  if marked = offset then
    some (.ok false, offset)
  else
    let signed ← skipOne text (fun character ↦ character == '-' || character == '+') marked
    let after ← skipWhile text Char.isDigit rounds signed
    if after = signed then
      some (.error .expectingFloat, after)
    else
      some (.ok true, after)

/-- Moves past a number, and says whether it has a fraction or an exponent. -/
def scanNumber (rounds offset : Nat) : Option (Except Complaint Bool × Nat) := do
  let unsigned ← skipOne text (· == '-') offset
  let whole ← skipWhile text Char.isDigit rounds unsigned
  if whole = unsigned then
    some (.error .expectingNumber, whole)
  else
    let fraction ← scanFraction text rounds whole
    let (exponent, after) ← scanExponent text rounds fraction
    some (exponent.map fun found ↦ found || decide (fraction ≠ whole), after)

/-- An integer of 64 bits. On failure the cursor is back where the number begins. -/
def readInt (rounds offset : Nat) : Option (Except Complaint Int64 × Nat) := do
  match ← scanNumber text rounds offset with
  | (.ok false, after) =>
    if ← atDelimiter text after then
      let written ← slice? text offset after
      match (numeral? written).bind fun numeral ↦ int64? numeral.toInt with
      | some value => some (.ok value, after)
      | none => (goTo text offset).map fun offset ↦ (.error .expectingInt, offset)
    else
      (goTo text offset).map fun offset ↦ (.error .expectingInt, offset)
  | _ => (goTo text offset).map fun offset ↦ (.error .expectingInt, offset)

/-- A number of double precision. On failure the cursor is back where the number begins. -/
def readNumber (rounds offset : Nat) : Option (Except Complaint Number × Nat) := do
  match ← scanNumber text rounds offset with
  | (.error complaint, _) => (goTo text offset).map fun offset ↦ (.error complaint, offset)
  | (.ok _, after) =>
    if ← atDelimiter text after then
      let written ← slice? text offset after
      match numeral? written with
      | some numeral => some (.ok numeral.toNumber, after)
      | none => (goTo text offset).map fun offset ↦ (.error .expectingNumber, offset)
    else
      (goTo text offset).map fun offset ↦ (.error .expectingNumber, offset)

/-! ### Strings, truth values and timestamps -/

/-- The characters of a string up to its closing quote, added to those already read. On failure the
cursor stays where the string goes wrong. -/
def readBody : (rounds offset : Nat) → List Char → Option (Except Complaint (List Char) × Nat)
  | 0, _, _ => none
  | rounds + 1, offset, body => do
    match ← peek text offset with
    | none => some (.error (.expectingSymbol "\""), offset)
    | some character =>
      let after ← advance text offset
      if character = '"' then
        some (.ok body, after)
      else if character = '\\' then
        let letter ← peek text after
        match letter.bind unescaped? with
        | none => some (.error .unexpectedCharacter, after)
        | some escaped =>
          let behind ← advance text after
          readBody rounds behind (body ++ [escaped])
      else
        readBody rounds after (body ++ [character])

/-- A string between quotes, which stands for something that has a name. -/
def readQuoted (what : String) (rounds offset : Nat) :
    Option (Except Complaint (List Char) × Nat) := do
  match ← eat text ['"'] offset with
  | none => some (.error (.expecting what), offset)
  | some opened =>
    match ← readBody text rounds opened [] with
    | (.error complaint, stop) => some (.error complaint, stop)
    | (.ok body, after) =>
      if ← atDelimiter text after then
        some (.ok body, after)
      else
        some (.error .unexpectedCharacter, after)

/-- A truth value. -/
def readBool (offset : Nat) : Option (Except Complaint Bool × Nat) := do
  match ← word text ['#', 't'] offset with
  | some after => some (.ok true, after)
  | none =>
    match ← word text ['#', 'f'] offset with
    | some after => some (.ok false, after)
    | none => some (.error (.expecting "boolean"), offset)

/-- A timestamp between quotes. If no timestamp is written there the cursor is back where the string
begins. -/
def readTimestamp (rounds offset : Nat) : Option (Except Complaint Timestamp × Nat) := do
  match ← readQuoted text "timestamp" rounds offset with
  | (.error complaint, stop) => some (.error complaint, stop)
  | (.ok body, after) =>
    match Timestamp.ofFormulaText? body with
    | some timestamp => some (.ok timestamp, after)
    | none =>
      (goTo text offset).map fun offset ↦ (.error (.invalidTimestamp (String.ofList body)), offset)

/-- A literal of a kind. -/
def readLiteral (rounds : Nat) (kind : Scalar) (offset : Nat) :
    Option (Except Complaint Literal × Nat) :=
  match kind with
  | .int => (readInt text rounds offset).map fun (read, stop) ↦ (read.map .int, stop)
  | .number => (readNumber text rounds offset).map fun (read, stop) ↦ (read.map .number, stop)
  | .string => (readQuoted text "string" rounds offset).map fun (read, stop) ↦
      (read.map fun body ↦ .string (String.ofList body), stop)
  | .bool => (readBool text offset).map fun (read, stop) ↦ (read.map .bool, stop)
  | .timestamp =>
    (readTimestamp text rounds offset).map fun (read, stop) ↦ (read.map .timestamp, stop)

end Tokens

variable {text : List Char} {place : Place} {rounds : Nat}

/-! ### What the cursor finds: blanks and words -/

theorem past_past (place : Place) (first second : Nat) :
    (place.past first).past second = place.past (first + second) := by
  simp only [past, List.drop_drop, List.take_add, byteLength_append, Nat.add_assoc]

/-- A comment ends with its line. -/
theorem separatorLength_true (rest : List Char) :
    separatorLength true rest = (rest.takeWhile (· != '\n')).length +
      separatorLength false (rest.dropWhile (· != '\n')) := by
  induction rest with
  | nil => rfl
  | cons character rest ih =>
    by_cases hnewline : character = '\n'
    · subst hnewline
      have hblank : isBlank '\n' = true := by decide
      simp [separatorLength, hblank]
    · have hother : (character != '\n') = true := by simpa using hnewline
      simp only [separatorLength, if_true, hother, List.takeWhile_cons, List.dropWhile_cons, ih,
        List.length_cons]
      omega

theorem past_separatorLength_true (place : Place) :
    place.past (separatorLength true place.rest) = (place.skip (· != '\n')).skipSeparators := by
  have hrest : (place.skip (· != '\n')).rest = place.rest.dropWhile (· != '\n') := by rw [skip_eq]
  rw [Place.skipSeparators, hrest, skip, past_past, separatorLength_true]
  rfl

/-- What the separators come to, one after the other. -/
theorem skipSeparators_cons (offset : Nat) (character : Char) (rest : List Char) :
    Place.skipSeparators ⟨offset, character :: rest⟩ =
      if isBlank character then Place.skipSeparators ⟨offset + character.utf8Size, rest⟩
      else if character = ';' then
        (Place.skip ⟨offset, character :: rest⟩ (· != '\n')).skipSeparators
      else ⟨offset, character :: rest⟩ := by
  by_cases hblank : isBlank character = true
  · simp [Place.skipSeparators, separatorLength, hblank, past, Nat.add_assoc]
  · by_cases hcomment : character = ';'
    · subst hcomment
      rw [if_neg hblank, if_pos rfl, ← past_separatorLength_true]
      simp [Place.skipSeparators, separatorLength, hblank]
    · simp [Place.skipSeparators, separatorLength, hblank, hcomment, past]

theorem skipSeparators_of_within (h : Within text place) (hrounds : place.rest.length < rounds) :
    skipSeparators text rounds place.offset = some place.skipSeparators.offset := by
  induction rounds generalizing place with
  | zero => exact absurd hrounds (Nat.not_lt_zero _)
  | succ rounds ih =>
    obtain ⟨offset, rest⟩ := place
    rw [skipSeparators, peek_of_within h]
    cases rest with
    | nil => rfl
    | cons character rest =>
      have hshorter : rest.length < rounds := Nat.lt_of_succ_lt_succ hrounds
      rw [skipSeparators_cons, List.head?_cons]
      by_cases hblank : isBlank character = true
      · simp only [hblank, if_true, advance_of_within h, Option.bind_eq_bind, Option.bind_some]
        exact ih (within_cons h) hshorter
      · by_cases hcomment : character = ';'
        · subst hcomment
          have hskip := skipWhile_of_within (· != '\n') h hrounds
          simp only [if_neg hblank, if_true, hskip, Option.bind_eq_bind, Option.bind_some]
          refine ih (h.of_leads (leads_skip _ _)) ?_
          have hsemicolon : (';' != '\n') = true := by decide
          rw [skip_cons, if_pos hsemicolon]
          exact Nat.lt_of_le_of_lt (leads_skip _ _).suffix.length_le hshorter
        · simp [hblank, hcomment]

theorem atDelimiter_of_within (h : Within text place) :
    atDelimiter text place.offset = some (isDelimited place.rest) := by
  rw [atDelimiter, peek_of_within h]
  cases place.rest <;> rfl

theorem word_of_within (h : Within text place) (name : List Char) :
    word text name place.offset = some ((place.word? name).map Place.offset) := by
  rw [word, eat_of_within h, Place.word?]
  cases heaten : place.eat? name with
  | none => rfl
  | some after =>
    have hafter : Within text after := h.of_leads (leads_of_eat? heaten)
    simp only [Option.map_some, Option.bind_eq_bind, Option.bind_some,
      atDelimiter_of_within hafter, Option.filter_some]
    split <;> rfl

/-! ### What the cursor finds: numbers -/

theorem scanFraction_of_within (h : Within text place) (hrounds : place.rest.length < rounds) :
    scanFraction text rounds place.offset = some (readFraction place).2.offset := by
  rw [scanFraction, skipOne_of_within _ h, ← eat?_singleton, readFraction]
  cases hpoint : place.eat? ['.'] with
  | none => simp
  | some pointed =>
    have hahead : Advances place pointed := advances_of_eat? (List.cons_ne_nil _ _) hpoint
    have hskip := skipWhile_of_within Char.isDigit (h.of_leads hahead.1)
      (Nat.lt_trans hahead.length_lt hrounds)
    have hmoved : pointed.offset ≠ place.offset := Nat.ne_of_gt hahead.2
    simp [hmoved, hskip]

/-- There is a fraction exactly if the cursor moves. -/
theorem isSome_readFraction (place : Place) :
    (readFraction place).1.isSome = decide ((readFraction place).2.offset ≠ place.offset) := by
  rw [readFraction]
  cases hpoint : place.eat? ['.'] with
  | none => simp
  | some pointed =>
    have hahead : Advances place pointed := advances_of_eat? (List.cons_ne_nil _ _) hpoint
    have hmoved := (hahead.trans_leads (leads_skip pointed Char.isDigit)).2
    simpa using Nat.ne_of_gt hmoved

theorem readExponentSign_eq (place : Place) :
    (readExponentSign place).2 =
      (place.next? fun character ↦ character == '-' || character == '+').getD place := by
  rw [readExponentSign, ← eat?_either]
  cases place.eat? ['-'] <;> rfl

/-- What a cursor makes of something that is read: the value or the complaint, and the offset behind
the value. Where the cursor stops at a complaint is left open. -/
def Finds {α β : Type} (found : Option (Except Complaint β × Nat)) (read : Except Complaint (α × Place))
    (value : α → β) : Prop :=
  ∃ stop, found = some (read.map fun found ↦ value found.1, stop) ∧
    ∀ result after, read = .ok (result, after) → stop = after.offset

theorem finds_scanExponent (h : Within text place) (hrounds : place.rest.length < rounds) :
    Finds (scanExponent text rounds place.offset) (readExponent place) Option.isSome := by
  rw [scanExponent, skipOne_of_within _ h, ← eat?_either, readExponent]
  cases hmark : place.eat? ['e'] <|> place.eat? ['E'] with
  | none =>
    refine ⟨place.offset, by simp [Except.map], ?_⟩
    rintro _ _ ⟨⟩
    rfl
  | some marked =>
    have hahead : Advances place marked := by
      rw [eat?_either] at hmark
      exact advances_of_next? hmark
    have hmoved : marked.offset ≠ place.offset := Nat.ne_of_gt hahead.2
    have hwithin : Within text marked := h.of_leads hahead.1
    have hsign : Leads marked (readExponentSign marked).2 := (leadsOver_readExponentSign marked).leads
    have hsigned : Within text (readExponentSign marked).2 := hwithin.of_leads hsign
    have hskip := skipWhile_of_within Char.isDigit hsigned
      (Nat.lt_of_le_of_lt hsign.suffix.length_le (Nat.lt_trans hahead.length_lt hrounds))
    have hone : skipOne text (fun character ↦ character == '-' || character == '+') marked.offset =
        some (readExponentSign marked).2.offset := by
      rw [skipOne_of_within _ hwithin, readExponentSign_eq]
    rw [Option.bind_eq_bind, Option.bind_some, Option.getD_some, if_neg hmoved, hone,
      Option.bind_some, hskip, Option.bind_some]
    dsimp only
    by_cases hempty : ((readExponentSign marked).2.run Char.isDigit).isEmpty = true
    · rw [if_pos ((offset_skip_eq_iff _ _).mpr hempty), if_pos hempty]
      refine ⟨_, rfl, fun _ _ hsome ↦ ?_⟩
      cases hsome
    · rw [if_neg fun hsame ↦ hempty ((offset_skip_eq_iff _ _).mp hsame), if_neg hempty]
      refine ⟨_, rfl, ?_⟩
      rintro _ _ ⟨⟩
      rfl

theorem finds_scanNumber (h : Within text place) (hrounds : place.rest.length < rounds) :
    Finds (scanNumber text rounds place.offset) (readNumeral place) fun numeral ↦
      !numeral.isInteger := by
  have hsign : skipOne text (· == '-') place.offset =
      some ((place.eat? ['-']).getD place).offset := by
    rw [skipOne_of_within _ h, eat?_singleton]
  have hunsigned : Leads place ((place.eat? ['-']).getD place) := by
    cases heaten : place.eat? ['-'] with
    | none => exact leads_refl place
    | some unsigned => exact leads_of_eat? heaten
  rw [scanNumber, hsign, readNumeral]
  generalize (place.eat? ['-']).getD place = unsigned at hunsigned ⊢
  have hlength {after : Place} (hleads : Leads unsigned after) : after.rest.length < rounds :=
    Nat.lt_of_le_of_lt (hunsigned.trans hleads).suffix.length_le hrounds
  have hwithin {after : Place} (hleads : Leads unsigned after) : Within text after :=
    h.of_leads (hunsigned.trans hleads)
  have hwhole := leads_skip unsigned Char.isDigit
  have hfraction := hwhole.trans (leadsOver_readFraction (unsigned.skip Char.isDigit)).leads
  have hskip := skipWhile_of_within Char.isDigit (hwithin (leads_refl _)) (hlength (leads_refl _))
  have hpoint := scanFraction_of_within (hwithin hwhole) (hlength hwhole)
  rw [Option.bind_eq_bind, Option.bind_some, hskip, Option.bind_some]
  by_cases hempty : (unsigned.run Char.isDigit).isEmpty = true
  · simp only [if_pos ((offset_skip_eq_iff _ _).mpr hempty), if_pos hempty]
    refine ⟨_, rfl, fun _ _ hsome ↦ ?_⟩
    cases hsome
  · obtain ⟨stop, hscan, hstop⟩ := finds_scanExponent (hwithin hfraction) (hlength hfraction)
    have hmoved := fun hsame ↦ hempty ((offset_skip_eq_iff unsigned Char.isDigit).mp hsame)
    simp only [if_neg hmoved, if_neg hempty, hpoint, hscan, Option.bind_some]
    cases hread : readExponent (readFraction (unsigned.skip Char.isDigit)).2 with
    | error complaint =>
      refine ⟨stop, rfl, fun _ _ hsome ↦ ?_⟩
      cases hsome
    | ok read =>
      obtain ⟨exponent, after⟩ := read
      refine ⟨stop, ?_, ?_⟩
      · simp [Except.map, Numeral.isInteger, isSome_readFraction, Bool.or_comm]
      · rintro _ _ ⟨⟩
        exact hstop exponent after hread

/-- The value or the complaint of a token, and the offset where the cursor stops. -/
def atCursor {α : Type} : Token α → Except Complaint α × Nat
  | .ok (value, after) => (.ok value, after.offset)
  | .error failure => (.error failure.complaint, failure.offset)

/-- A numeral is what is written between the cursors. -/
theorem slice?_of_readNumeral (h : Within text place) {after : Place} {numeral : Numeral}
    (hread : readNumeral place = .ok (numeral, after)) :
    ∃ written, slice? text place.offset after.offset = some written ∧
      numeral? written = some numeral := by
  obtain ⟨written, -, -, hrest, hnumeral⟩ := numeral?_of_readNumeral hread
  obtain ⟨passed, hpassed, hoffset⟩ := (leadsOver_of_readNumeral hread).1.leads
  obtain rfl : written = passed := List.append_cancel_right (hrest.symm.trans hpassed)
  exact ⟨written, slice?_of_leads h hrest hoffset, hnumeral⟩

theorem readInt_of_within (h : Within text place) (hrounds : place.rest.length < rounds) :
    readInt text rounds place.offset = some (atCursor (Formulary.readInt place)) := by
  obtain ⟨stop, hscan, hstop⟩ := finds_scanNumber h hrounds
  have hback : (goTo text place.offset).map (fun offset ↦
      ((.error .expectingInt, offset) : Except Complaint Int64 × Nat)) =
        some (.error .expectingInt, place.offset) := by rw [goTo_of_within h]; rfl
  rw [readInt, Formulary.readInt, hscan, Option.bind_eq_bind, Option.bind_some, hback]
  cases hread : readNumeral place with
  | error complaint => rfl
  | ok read =>
    obtain ⟨numeral, after⟩ := read
    obtain rfl := hstop numeral after hread
    have hafter : Within text after := h.of_leads (leadsOver_of_readNumeral hread).1.leads
    dsimp only [Except.map]
    cases hinteger : numeral.isInteger with
    | false =>
      cases hvalue : int64? numeral.toInt with
      | none => rfl
      | some value => rfl
    | true =>
      simp only [Bool.not_true, atDelimiter_of_within hafter, Option.bind_eq_bind, Option.bind_some]
      cases hends : isDelimited after.rest with
      | false => cases int64? numeral.toInt <;> rfl
      | true =>
        obtain ⟨written, hslice, hwritten⟩ := slice?_of_readNumeral h hread
        simp only [if_true, hslice, hwritten, Option.bind_some]
        cases int64? numeral.toInt <;> rfl

theorem readNumber_of_within (h : Within text place) (hrounds : place.rest.length < rounds) :
    readNumber text rounds place.offset = some (atCursor (Formulary.readNumber place)) := by
  obtain ⟨stop, hscan, hstop⟩ := finds_scanNumber h hrounds
  have hback (complaint : Complaint) : (goTo text place.offset).map (fun offset ↦
      ((.error complaint, offset) : Except Complaint Number × Nat)) =
        some (.error complaint, place.offset) := by rw [goTo_of_within h]; rfl
  simp only [readNumber, Formulary.readNumber, hscan, Option.bind_eq_bind, Option.bind_some, hback]
  cases hread : readNumeral place with
  | error complaint => rfl
  | ok read =>
    obtain ⟨numeral, after⟩ := read
    obtain rfl := hstop numeral after hread
    have hafter : Within text after := h.of_leads (leadsOver_of_readNumeral hread).1.leads
    simp only [Except.map, atDelimiter_of_within hafter, Option.bind_some]
    cases hends : isDelimited after.rest with
    | false => rfl
    | true =>
      obtain ⟨written, hslice, hwritten⟩ := slice?_of_readNumeral h hread
      simp only [if_true, hslice, hwritten, Option.bind_some]
      rfl

/-! ### What the cursor finds: other literals -/

/-- A string goes on behind a character that stands for itself. -/
theorem readStringBody_plain {character : Char} (hquote : character ≠ '"')
    (hbackslash : character ≠ '\\') (offset : Nat) (rest : List Char) :
    readStringBody offset (character :: rest) =
      (readStringBody (offset + character.utf8Size) rest).map fun (more, after) ↦
        (character :: more, after) := by
  rw [readStringBody]
  · rw [if_neg hquote]
    cases readStringBody (offset + character.utf8Size) rest <;> rfl
  · rintro rfl
    exact absurd rfl hbackslash
  · rintro _ _ rfl
    exact absurd rfl hbackslash

/-- A string goes on behind a backslash with a letter. -/
theorem readStringBody_escape {letter escaped : Char} (h : unescaped? letter = some escaped)
    (offset : Nat) (rest : List Char) :
    readStringBody offset ('\\' :: letter :: rest) =
      (readStringBody (offset + 2) rest).map fun (more, after) ↦ (escaped :: more, after) := by
  rw [readStringBody, h]
  dsimp only
  cases readStringBody (offset + 2) rest <;> rfl

/-- What is read of a string goes to the characters that were read before. -/
theorem atCursor_cons (token : Token (List Char)) (body : List Char) (character : Char) :
    atCursor (token.map fun (more, after) ↦ ((body ++ [character]) ++ more, after)) =
      atCursor ((token.map fun (more, after) ↦ (character :: more, after)).map fun (more, after) ↦
        (body ++ more, after)) := by
  cases token <;> simp [Except.map, atCursor]

/-- The cursor reads a string behind some characters that were read before. -/
theorem readBody_of_within {offset : Nat} {rest : List Char} (h : Within text ⟨offset, rest⟩)
    (hrounds : rest.length < rounds) (body : List Char) :
    readBody text rounds offset body =
      some (atCursor ((readStringBody offset rest).map fun (more, after) ↦ (body ++ more, after))) := by
  induction rounds generalizing offset rest body with
  | zero => exact absurd hrounds (Nat.not_lt_zero _)
  | succ rounds ih =>
    have hpeek : peek text offset = some rest.head? := peek_of_within h
    rw [readBody, hpeek]
    cases rest with
    | nil => rfl
    | cons character rest =>
      have hshorter : rest.length < rounds := Nat.lt_of_succ_lt_succ hrounds
      simp only [List.head?_cons, advance_of_within h, Option.bind_eq_bind, Option.bind_some]
      by_cases hquote : character = '"'
      · subst hquote
        simp [readStringBody, Except.map, atCursor]
        rfl
      by_cases hbackslash : character = '\\'
      · subst hbackslash
        have hinside : Within text ⟨offset + 1, rest⟩ := within_cons h
        have hletter : peek text (offset + 1) = some rest.head? := peek_of_within hinside
        have hsize : ('\\' : Char).utf8Size = 1 := rfl
        simp only [if_neg hquote, if_true, hsize, hletter, Option.bind_some]
        cases rest with
        | nil => rfl
        | cons letter rest =>
          rw [List.head?_cons, Option.bind_some]
          cases hunescaped : unescaped? letter with
          | none =>
            rw [readStringBody, hunescaped]
            rfl
          | some escaped =>
            have hbehind := within_cons hinside
            have hmoved := advance_of_within hinside
            rw [utf8Size_of_unescaped? hunescaped] at hbehind hmoved
            have hmore := ih hbehind (Nat.lt_of_succ_lt hshorter) (body ++ [escaped])
            rw [readStringBody_escape hunescaped, ← atCursor_cons, ← hmore]
            simp only [hmoved, Option.bind_some]
      · rw [if_neg hquote, if_neg hbackslash, ih (within_cons h) hshorter (body ++ [character]),
          readStringBody_plain hquote hbackslash, atCursor_cons]

theorem readQuoted_of_within (what : String) (h : Within text place)
    (hrounds : place.rest.length < rounds) :
    readQuoted text what rounds place.offset = some (atCursor (Formulary.readQuoted what place)) := by
  rw [readQuoted, eat_of_within h, Formulary.readQuoted]
  cases hopened : place.eat? ['"'] with
  | none => rfl
  | some opened =>
    have hahead : Advances place opened := advances_of_eat? (List.cons_ne_nil _ _) hopened
    have hbody := readBody_of_within (h.of_leads hahead.1)
      (Nat.lt_trans hahead.length_lt hrounds) []
    simp only [Option.map_some, Option.bind_eq_bind, Option.bind_some, hbody]
    cases hread : readStringBody opened.offset opened.rest with
    | error failure => rfl
    | ok read =>
      obtain ⟨body, after⟩ := read
      have hafter : Within text after :=
        h.of_leads (hahead.1.trans (quotedBody_of_readStringBody hread).2)
      simp only [Except.map, atCursor, List.nil_append, atDelimiter_of_within hafter,
        Option.bind_some]
      split <;> rfl

theorem readBool_of_within (h : Within text place) :
    readBool text place.offset = some (atCursor (Formulary.readBool place)) := by
  rw [readBool, word_of_within h, word_of_within h, Formulary.readBool]
  cases place.word? ['#', 't'] with
  | some after => rfl
  | none => cases place.word? ['#', 'f'] <;> rfl

theorem readTimestamp_of_within (h : Within text place) (hrounds : place.rest.length < rounds) :
    readTimestamp text rounds place.offset = some (atCursor (Formulary.readTimestamp place)) := by
  rw [readTimestamp, readQuoted_of_within _ h hrounds, Formulary.readTimestamp]
  cases Formulary.readQuoted "timestamp" place with
  | error failure => rfl
  | ok read =>
    obtain ⟨body, after⟩ := read
    simp only [atCursor, Option.bind_eq_bind, Option.bind_some, goTo_of_within h, Option.map_some]
    cases Timestamp.ofFormulaText? body <;> rfl

theorem map_atCursor {α β : Type} (token : Token α) (wrap : α → β) :
    ((atCursor token).1.map wrap, (atCursor token).2) =
      atCursor (token.map fun (value, after) ↦ (wrap value, after)) := by
  cases token <;> rfl

/-- The cursor finds the literal that is read at its place, or the same complaint. -/
theorem readLiteral_of_within (kind : Scalar) (h : Within text place)
    (hrounds : place.rest.length < rounds) :
    readLiteral text rounds kind place.offset =
      some (atCursor (Formulary.readLiteral kind place)) := by
  cases kind with
  | int =>
    simp only [readLiteral, readInt_of_within h hrounds, Option.map_some, map_atCursor]
    rfl
  | number =>
    simp only [readLiteral, readNumber_of_within h hrounds, Option.map_some, map_atCursor]
    rfl
  | string =>
    simp only [readLiteral, readQuoted_of_within _ h hrounds, Option.map_some, map_atCursor]
    rfl
  | bool =>
    simp only [readLiteral, readBool_of_within h, Option.map_some, map_atCursor]
    rfl
  | timestamp =>
    simp only [readLiteral, readTimestamp_of_within h hrounds, Option.map_some, map_atCursor]
    rfl

/-! ### Where a cursor reads -/

theorem isBoundary_of_scanNumber {offset : Nat} {scanned : Except Complaint Bool × Nat}
    (h : scanNumber text rounds offset = some scanned) : IsBoundary text offset := by
  obtain ⟨unsigned, hsign, -⟩ := Option.bind_eq_some_iff.mp h
  obtain ⟨next, hnext, -⟩ := Option.bind_eq_some_iff.mp hsign
  exact isBoundary_of_peek hnext

theorem isBoundary_of_readQuoted {what : String} {offset : Nat}
    {read : Except Complaint (List Char) × Nat}
    (h : readQuoted text what rounds offset = some read) : IsBoundary text offset := by
  obtain ⟨opened, hopened, -⟩ := Option.bind_eq_some_iff.mp h
  exact isBoundary_of_eat hopened

/-- A literal is looked for only where the text can be cut. -/
theorem isBoundary_of_literal {kind : Scalar} {offset : Nat} {read : Except Complaint Literal × Nat}
    (h : readLiteral text rounds kind offset = some read) : IsBoundary text offset := by
  cases kind with
  | int | number =>
    obtain ⟨_, hfound, -⟩ := Option.map_eq_some_iff.mp h
    obtain ⟨scanned, hscanned, -⟩ := Option.bind_eq_some_iff.mp hfound
    exact isBoundary_of_scanNumber hscanned
  | string =>
    obtain ⟨_, hfound, -⟩ := Option.map_eq_some_iff.mp h
    exact isBoundary_of_readQuoted hfound
  | bool =>
    obtain ⟨_, hfound, -⟩ := Option.map_eq_some_iff.mp h
    obtain ⟨named, hnamed, -⟩ := Option.bind_eq_some_iff.mp hfound
    obtain ⟨eaten, heaten, -⟩ := Option.bind_eq_some_iff.mp hnamed
    exact isBoundary_of_eat heaten
  | timestamp =>
    obtain ⟨_, hfound, -⟩ := Option.map_eq_some_iff.mp h
    obtain ⟨quoted, hquoted, -⟩ := Option.bind_eq_some_iff.mp hfound
    exact isBoundary_of_readQuoted hquoted

end Formulary.Cursor
